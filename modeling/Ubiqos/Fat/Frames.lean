import Ubiqos.Fat.Walks

/-!
What the programs of `modules/fat32lib/fat32lib.c` do not touch. The searches and the
walks along the table change the buffers alone; the writing half changes the card and
the hint of the allocator too. Neither of them has the read cache in hand.
-/

namespace Ubiqos.Fat

open Prog

variable {τ : Type}

def Unread (view : Fs → τ) : Prop :=
  ∀ s faults sector fatbuf fatbufLba calls, view { s with
    faults := faults, sector := sector, fatbuf := fatbuf, fatbufLba := fatbufLba, calls := calls } = view s

def Unwritten (view : Fs → τ) : Prop :=
  Unread view ∧ ∀ s card allocHint, view { s with card := card, allocHint := allocHint } = view s

theorem unread_card : Unread Fs.card := fun _ _ _ _ _ _ => rfl
theorem unread_volume : Unread Fs.volume := fun _ _ _ _ _ _ => rfl
theorem unwritten_ra : Unwritten Fs.ra := ⟨fun _ _ _ _ _ _ => rfl, fun _ _ _ => rfl⟩

section Reading
variable {view : Fs → τ}

theorem frames_request (unread : Unread view) : Frames request view := by
  intro s a t runs
  unfold request at runs
  cases faults : s.faults with
  | nil =>
    simp only [StateT.run, faults] at runs
    cases runs
    rfl
  | cons fault rest =>
    simp only [StateT.run, faults] at runs
    cases runs
    exact unread s rest s.sector s.fatbuf s.fatbufLba s.calls

theorem frames_sdReadBlock (unread : Unread view) {keep : Fs → Block → Fs}
    (keeps : ∀ s b, view (keep s b) = view s) (lba : Nat) : Frames (sdReadBlock keep lba) view := by
  unfold sdReadBlock
  apply (frames_request unread).bind
  intro fault
  cases fault with
  | none => exact (frames_modify fun s => keeps s _).bind fun _ => frames_pure
  | some junk => exact (frames_modify fun s => keeps s junk).bind fun _ => frames_pure

theorem frames_readSector (unread : Unread view) (lba : Nat) : Frames (readSector lba) view :=
  frames_sdReadBlock unread
    (fun s b => unread s s.faults b s.fatbuf s.fatbufLba s.calls) lba

theorem frames_readFat (unread : Unread view) (lba : Nat) : Frames (readFat lba) view :=
  frames_sdReadBlock unread
    (fun s b => unread s s.faults s.sector b s.fatbufLba s.calls) lba

theorem frames_keptLba (unread : Unread view) (lba : Nat) :
    Frames (modify fun s : Fs => { s with fatbufLba := lba }) view :=
  frames_modify fun s => unread s s.faults s.sector s.fatbuf lba s.calls

theorem frames_loadFat (unread : Unread view) (lba : Nat) : Frames (loadFat lba) view := by
  unfold loadFat
  apply frames_get
  intro s
  apply frames_ite frames_pure
  apply (frames_readFat unread lba).bind
  intro ok
  exact frames_ite ((frames_keptLba unread lba).bind fun _ => frames_pure)
    ((frames_keptLba unread invalidLba).bind fun _ => frames_pure)

theorem frames_fatGet (unread : Unread view) (cluster : Nat) : Frames (fatGet cluster) view := by
  unfold fatGet
  apply frames_get
  intro s
  apply (frames_loadFat unread _).bind
  intro ok
  exact frames_ite (frames_get fun _ => frames_pure) frames_pure

theorem frames_freshLfn (unread : Unread view) : Frames freshLfn view := by
  intro s l t runs
  cases runs
  exact unread s s.faults s.sector s.fatbuf s.fatbufLba (s.calls + 1)

theorem frames_reading (unread : Unread view) : Reading fun _ x => Frames x view where
  pure _ := frames_pure
  bind := Frames.bind
  ite := frames_ite
  unending := frames_unending
  look _ := frames_get
  fresh := frames_freshLfn unread
  readSector := frames_readSector unread
  fatGet := frames_fatGet unread

theorem frames_fatNextCluster (unread : Unread view) (cluster : Nat) : Frames (fatNextCluster cluster) view :=
  walk_fatNextCluster (frames_reading unread) cluster

theorem frames_findEntry (unread : Unread view) (dir : Nat) (name83 : List Byte)
    (wantLong : Option (List Byte)) : Frames (findEntry dir name83 wantLong) view :=
  walk_findEntry (frames_reading unread) dir name83 wantLong

theorem frames_resolveParent (unread : Unread view) (path : List Byte) : Frames (resolveParent path) view :=
  walk_resolveParent (frames_reading unread) path

theorem frames_stat (unread : Unread view) (path : CString) : Frames (stat path) view :=
  walk_stat (frames_reading unread) path

theorem frames_statNth (unread : Unread view) (path : CString) (index : Nat) : Frames (statNth path index) view :=
  walk_statNth (frames_reading unread) path index

end Reading

section Writing
variable {view : Fs → τ}

theorem frames_sdWriteBlock (unwritten : Unwritten view) (held : Fs → Block) (lba : Nat) :
    Frames (sdWriteBlock held lba) view := by
  have writes : ∀ s card, view { s with card := card } = view s :=
    fun s card => unwritten.2 s card s.allocHint
  unfold sdWriteBlock
  apply (frames_request unwritten.1).bind
  intro fault
  cases fault with
  | none => exact (frames_modify fun s => writes s _).bind fun _ => frames_pure
  | some junk => exact (frames_modify fun s => writes s _).bind fun _ => frames_pure

theorem frames_writeSector (unwritten : Unwritten view) (lba : Nat) :
    Frames (writeSector lba) view := frames_sdWriteBlock unwritten _ lba

theorem frames_writeFat (unwritten : Unwritten view) (lba : Nat) : Frames (writeFat lba) view :=
  frames_sdWriteBlock unwritten _ lba

theorem frames_sector (unwritten : Unwritten view) (change : Fs → Block) :
    Frames (modify fun s : Fs => { s with sector := change s }) view :=
  frames_modify fun s => unwritten.1 s s.faults (change s) s.fatbuf s.fatbufLba s.calls

theorem frames_writeCopies (unwritten : Unwritten view) (lba n f : Nat) :
    Frames (writeCopies lba n f) view := by
  induction n generalizing f with
  | zero => exact frames_pure
  | succ n ih =>
    unfold writeCopies
    apply frames_get
    intro s
    apply (frames_writeFat unwritten _).bind
    intro ok
    exact frames_ite (ih _) ((frames_keptLba unwritten.1 invalidLba).bind fun _ => frames_pure)

theorem frames_fatPut (unwritten : Unwritten view) (cluster value : Nat) :
    Frames (fatPut cluster value) view := by
  unfold fatPut
  apply frames_get
  intro s
  apply (frames_loadFat unwritten.1 _).bind
  intro ok
  apply frames_ite _ frames_pure
  apply Frames.bind
  · exact frames_modify fun s => unwritten.1 s s.faults s.sector _ s.fatbufLba s.calls
  · intro _
    exact frames_get fun _ => frames_writeCopies unwritten _ _ _

theorem frames_hint (unwritten : Unwritten view) (change : Fs → Nat) :
    Frames (modify fun s : Fs => { s with allocHint := change s }) view :=
  frames_modify fun s => unwritten.2 s s.card (change s)

theorem frames_writing (unwritten : Unwritten view) : Writing fun _ x => Frames x view where
  toReading := frames_reading unwritten.1
  sector change _ := frames_sector unwritten change
  hint change _ := frames_hint unwritten change
  writeSector := frames_writeSector unwritten
  fatPut := frames_fatPut unwritten

end Writing

section Forgetting

def cached (s : Fs) : Bool := s.ra.valid

theorem unwritten_cached : Unwritten cached := ⟨fun _ _ _ _ _ _ => rfl, fun _ _ _ => rfl⟩

/-- The last read is not valid where the program ends. -/
def Forgets (α : Type) (x : Prog Fs α) : Prop := ∀ s a t, x.run s = some (a, t) → t.ra.valid = false

theorem forgets {α : Type} {f : Unit → Prog Fs α} (rest : Frames (f ()) cached) :
    Forgets α (forgetReadCache >>= f) := by
  intro s a t runs
  change cached t = false
  apply Frames.after _ (fun _ => rest) runs
  intro _ u forgotten
  cases forgotten
  rfl

theorem writes_cached : Writing fun _ x => Frames x cached := frames_writing unwritten_cached

end Forgetting

end Ubiqos.Fat
