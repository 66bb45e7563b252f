import Ubiqos.Fat.Blind
import Ubiqos.Fat.Walks

/-!
What the statics of `modules/fat32lib/fat32lib.c` still hold from earlier and nothing
looks at: the kept sector of the table when its number says there is none, and the
place of the last read when it is not valid. No call depends on either.
-/

namespace Ubiqos.Fat

open Function Prog

/-- The same state but for what is stale. With `read` the last read is the same too. -/
def Alike (v : Volume) (read : Bool) (s t : Fs) : Prop :=
  ∃ f r, t = { s with fatbuf := f, ra := r } ∧ s.volume = v ∧
    (f = s.fatbuf ∨ s.fatbufLba = invalidLba) ∧
    (r = s.ra ∨ read = false ∧ s.ra.valid = false ∧ r.valid = false)

def Loaded (v : Volume) (read : Bool) (s t : Fs) : Prop :=
  Alike v read s t ∧ s.fatbuf = t.fatbuf

section Statics
variable {v : Volume} {read : Bool} {s t : Fs}

theorem Alike.sector (alike : Alike v read s t) : s.sector = t.sector := by
  obtain ⟨f, r, rfl, -⟩ := alike
  rfl

theorem Alike.left (alike : Alike v read s t) : s.volume = v := by
  obtain ⟨f, r, rfl, is, -⟩ := alike
  exact is

theorem Alike.volume (alike : Alike v read s t) : s.volume = t.volume := by
  obtain ⟨f, r, rfl, -⟩ := alike
  rfl

theorem Alike.loaded (alike : Alike v read s t) (kept : s.fatbufLba ≠ invalidLba) :
    s.fatbuf = t.fatbuf := by
  obtain ⟨f, r, rfl, -, same | none, -⟩ := alike
  · exact same.symm
  · exact absurd none kept

theorem keeps_request : Keeps request (Alike v read) := by
  rintro s t ⟨f, r, rfl, is, table, last⟩
  exact .inr ⟨_, _, _, request_run s, request_run _, f, r, rfl, is, table, last⟩

theorem twins_request : Keeps request (Loaded v read) := by
  rintro s t ⟨⟨f, r, rfl, is, table, last⟩, same⟩
  exact .inr ⟨_, _, _, request_run s, request_run _, ⟨f, r, rfl, is, table, last⟩, same⟩

theorem keeps_modify {g : Fs → Fs}
    (apart : ∀ s f r, g { s with fatbuf := f, ra := r } = { g s with fatbuf := f, ra := r })
    (kept : ∀ s, (g s).volume = s.volume ∧ (g s).fatbuf = s.fatbuf ∧
      (g s).fatbufLba = s.fatbufLba ∧ (g s).ra = s.ra) : Keeps (modify g) (Alike v read) := by
  apply twins_modify
  rintro s t ⟨f, r, rfl, is, table, last⟩
  obtain ⟨volume, fatbuf, fatbufLba, ra⟩ := kept s
  refine ⟨f, r, apart s f r, volume.trans is, ?_, ?_⟩
  · rwa [fatbuf, fatbufLba]
  · rwa [ra]

theorem keeps_readSector (lba : Nat) : Keeps (readSector lba) (Alike v read) := by
  unfold readSector sdReadBlock
  apply keeps_request.bind
  rintro (_ | junk)
  all_goals
    apply Keeps.bind
    · exact keeps_modify (fun _ _ _ => rfl) (fun _ => ⟨rfl, rfl, rfl, rfl⟩)
    · exact fun _ => keeps_pure

theorem keeps_writeSector (lba : Nat) : Keeps (writeSector lba) (Alike v read) := by
  unfold writeSector sdWriteBlock
  apply keeps_request.bind
  rintro (_ | junk)
  all_goals
    apply Keeps.bind
    · exact keeps_modify (fun _ _ _ => rfl) (fun _ => ⟨rfl, rfl, rfl, rfl⟩)
    · exact fun _ => keeps_pure

theorem twins_readFat (lba : Nat) : Twins (readFat lba) (Alike v read) fun _ => Loaded v read := by
  unfold readFat sdReadBlock
  apply keeps_request.bind
  rintro (_ | junk)
  all_goals
    refine Twins.bind (twins_modify ?_) fun _ => keeps_pure
    rintro s t ⟨f, r, rfl, is, -, last⟩
    exact ⟨⟨_, r, rfl, is, .inl rfl, last⟩, rfl⟩

theorem keeps_writeFat (lba : Nat) : Keeps (writeFat lba) (Loaded v read) := by
  unfold writeFat sdWriteBlock
  apply twins_request.bind
  intro fault
  cases fault with
  | none =>
    apply Keeps.bind
    · apply twins_modify
      rintro s t ⟨⟨f, r, rfl, is, table, last⟩, same⟩
      dsimp only at same
      subst same
      exact ⟨⟨_, r, rfl, is, .inl rfl, last⟩, rfl⟩
    · exact fun _ => keeps_pure
  | some junk =>
    apply Keeps.bind
    · apply twins_modify
      rintro s t ⟨⟨f, r, rfl, is, table, last⟩, same⟩
      exact ⟨⟨f, r, rfl, is, table, last⟩, same⟩
    · exact fun _ => keeps_pure

theorem Loaded.alike (loaded : Loaded v read s t) : Alike v read s t := loaded.1

theorem twins_forgets : Twins (modify fun s : Fs => { s with fatbufLba := invalidLba })
    (Alike v read) fun _ => Alike v read := by
  apply twins_modify
  rintro s t ⟨f, r, rfl, is, -, last⟩
  exact ⟨f, r, rfl, is, .inr rfl, last⟩

theorem reads_alike : Reads (Alike v read) where
  volume _ _ alike := alike.volume
  sector lba := (keeps_readSector lba).mono fun _ _ _ alike => ⟨alike, alike.sector⟩

theorem keeps_fatNextCluster (cluster : Nat) : Keeps (fatNextCluster cluster) (Alike v read) :=
  reads_alike.fatNextCluster cluster

section Table
variable (bound : ∀ cluster, v.fatLba cluster ≠ invalidLba)
include bound

theorem twins_loadFat (cluster : Nat) : Twins (loadFat (v.fatLba cluster)) (Alike v read)
    fun ok s t => Alike v read s t ∧ (ok = true → Loaded v read s t) := by
  unfold loadFat
  apply twins_look
  · rintro s t ⟨f, r, rfl, -⟩
    rfl
  intro s
  apply twins_ite
  · -- the sector is in the buffer, so its number is not the one that says none
    rintro kept
    apply twins_pure
    rintro s' t ⟨rfl, alike⟩
    exact ⟨alike, fun _ => ⟨alike, alike.loaded (kept ▸ bound cluster)⟩⟩
  · intro _
    apply Twins.bind ((twins_readFat _).narrow fun _ _ found => found.2)
    intro ok
    apply twins_ite
    · intro _
      refine Twins.bind (twins_modify ?_) fun _ => twins_pure fun _ _ loaded => ⟨loaded.1, fun _ => loaded⟩
      rintro s' t ⟨⟨f, r, rfl, is, -, last⟩, same⟩
      dsimp only at same
      subst same
      exact ⟨⟨_, r, rfl, is, .inl rfl, last⟩, rfl⟩
    · intro _
      refine Twins.bind (twins_forgets.narrow fun _ _ loaded => loaded.alike) fun _ => twins_pure ?_
      exact fun _ _ alike => ⟨alike, fun done => by cases done⟩

theorem keeps_fatGet (cluster : Nat) : Keeps (fatGet cluster) (Alike v read) := by
  unfold fatGet
  apply twins_get (fun s t alike => by rw [alike.volume])
  intro s t alike
  rw [alike.left]
  apply Twins.bind (twins_loadFat bound cluster)
  intro ok
  cases ok with
  | true =>
    apply twins_get
    · rintro s t ⟨-, loaded⟩
      rw [(loaded rfl).2]
    · exact fun _ _ _ => twins_pure fun _ _ found => found.1
  | false => exact twins_pure fun _ _ found => found.1

omit bound in
theorem twins_writeCopies (lba n f : Nat) :
    Twins (writeCopies lba n f) (Loaded v read) fun _ => Alike v read := by
  induction n generalizing f with
  | zero => exact twins_pure fun _ _ loaded => loaded.alike
  | succ n ih =>
    unfold writeCopies
    apply twins_get (fun s t loaded => by rw [loaded.alike.volume])
    intro s t loaded
    apply (keeps_writeFat _).bind
    intro ok
    apply twins_ite
    · exact fun _ => ih (f + 1)
    · intro _
      exact Twins.bind (twins_forgets.narrow fun _ _ loaded => loaded.alike) fun _ => keeps_pure

theorem keeps_fatPut (cluster value : Nat) : Keeps (fatPut cluster value) (Alike v read) := by
  unfold fatPut
  apply twins_get (fun s t alike => by rw [alike.volume])
  intro s t alike
  rw [alike.left]
  apply Twins.bind (twins_loadFat bound cluster)
  intro ok
  cases ok with
  | true =>
    refine Twins.bind (twins_modify ?_) fun _ => twins_get ?_ fun _ _ _ => twins_writeCopies _ _ _
    · rintro s t ⟨-, loaded⟩
      obtain ⟨⟨f, r, rfl, is, -, last⟩, same⟩ := loaded rfl
      dsimp only at same
      subst same
      exact ⟨⟨_, r, rfl, is, .inl rfl, last⟩, rfl⟩
    · intro s t loaded
      rw [loaded.alike.volume]
  | false => exact twins_pure fun _ _ found => found.1

end Table

section Directories

theorem keeps_freshLfn : Keeps freshLfn (Alike v read) := by
  unfold freshLfn
  intro s t alike
  obtain ⟨f, r, rfl, is, table, last⟩ := alike
  exact .inr ⟨_, _, _, rfl, rfl, f, r, rfl, is, table, last⟩

theorem keeps_findEntry (dir : Nat) (name83 : List Byte) (wantLong : Option (List Byte)) :
    Keeps (findEntry dir name83 wantLong) (Alike v read) :=
  Searches.findEntry ⟨reads_alike, keeps_freshLfn⟩ dir name83 wantLong

theorem keeps_resolveParent (path : List Byte) : Keeps (resolveParent path) (Alike v read) :=
  reads_alike.resolveParent keeps_findEntry path

theorem keeps_writing (bound : ∀ cluster, v.fatLba cluster ≠ invalidLba) :
    Writing fun _ x => Keeps x (Alike v read) where
  pure _ := keeps_pure
  bind := Keeps.bind
  ite yes no := twins_ite (fun _ => yes) fun _ => no
  unending := keeps_unending
  look same rest := by
    refine twins_get ?_ fun s _ _ => rest s
    rintro s t ⟨f, r, rfl, -⟩
    exact (same s f r).symm
  fresh := keeps_freshLfn
  readSector := keeps_readSector
  fatGet := keeps_fatGet bound
  sector change same := by
    refine keeps_modify (fun s f r => ?_) fun _ => ⟨rfl, rfl, rfl, rfl⟩
    rw [same s f r]
  hint change same := by
    refine keeps_modify (fun s f r => ?_) fun _ => ⟨rfl, rfl, rfl, rfl⟩
    rw [same s f r]
  writeSector := keeps_writeSector
  fatPut := keeps_fatPut bound

end Directories

end Statics

end Ubiqos.Fat
