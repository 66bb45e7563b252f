import Ubiqos.Fat.Searches
import Ubiqos.Fat.Mount

/-!
The kept sector of the table on a device that may fail at any request. It is the card's
whatever fails, as long as there is a copy of the table to write; a value that was put is in
every copy, in a sector that is the first copy's in all of them; and a cluster that was
allocated was free.
-/

namespace Ubiqos.Fat

open Function Prog

def Truth (s : Fs) : Prop := s.fatbufLba ≠ invalidLba → s.fatbuf = s.card s.fatbufLba

def Fs.failures (s : Fs) : Nat := s.faults.countP Option.isSome

def Failed (s t : Fs) : Prop := t.failures < s.failures

structure Sound (s t : Fs) : Prop where
  truth : Truth t
  volume : t.volume = s.volume
  failures : t.failures ≤ s.failures

theorem Sound.trans {s t u : Fs} (first : Sound s t) (second : Sound t u) : Sound s u :=
  ⟨second.truth, second.volume.trans first.volume, second.failures.trans first.failures⟩

theorem Failed.before {s t u : Fs} (sound : Sound s t) (failed : Failed t u) : Failed s u :=
  Nat.lt_of_lt_of_le failed sound.failures

theorem Failed.behind {s t u : Fs} (failed : Failed s t) (sound : Sound t u) : Failed s u :=
  Nat.lt_of_le_of_lt sound.failures failed

section Requests
variable {s : Fs}

theorem failures_tail {s t : Fs} (rest : t.faults = s.faults.tail) : t.failures ≤ s.failures := by
  rw [Fs.failures, Fs.failures, rest]
  rcases s.faults with _ | ⟨_ | junk, more⟩ <;> simp

theorem failed_tail {s t : Fs} {junk : Block} (fault : s.faults.head?.join = some junk)
    (rest : t.faults = s.faults.tail) : Failed s t := by
  rw [Failed, Fs.failures, Fs.failures, rest]
  rcases faults : s.faults with _ | ⟨_ | junk', more⟩
  · simp [faults] at fault
  · simp [faults] at fault
  · simp

theorem readFat_outcome (lba : Nat) (s : Fs) :
    (readFat lba).run s = some (s.faults.head?.join.isNone,
      { s with faults := s.faults.tail, fatbuf := s.faults.head?.join.getD (s.card lba) }) := by
  unfold readFat sdReadBlock
  rw [run_bind_of (request_run s)]
  cases s.faults.head?.join <;> rfl

theorem writeFat_outcome (lba : Nat) (s : Fs) :
    (writeFat lba).run s = some (s.faults.head?.join.isNone,
      { s with
        faults := s.faults.tail
        card := update s.card lba (s.faults.head?.join.getD s.fatbuf) }) := by
  unfold writeFat sdWriteBlock
  rw [run_bind_of (request_run s)]
  cases s.faults.head?.join <;> rfl

theorem loadFat_told (truth : Truth s) (lba : Nat) :
    Gives (loadFat lba) s (fun ok t => Sound s t ∧ t.card = s.card ∧
      (ok = true → t.fatbufLba = lba ∧ (lba ≠ invalidLba → t.fatbuf = s.card lba)) ∧
      (ok = false → Failed s t)) := by
  by_cases held : lba = s.fatbufLba
  · refine gives_run (a := true) (t := s) ?_ ⟨⟨truth, rfl, le_rfl⟩, rfl, fun _ => ⟨held.symm, ?_⟩, nofun⟩
    · simp [loadFat, held]
    · rw [held]
      exact truth
  · have read := readFat_outcome lba s
    cases answered : s.faults.head?.join with
    | none =>
      rw [answered] at read
      refine gives_run (a := true)
        (t := { s with faults := s.faults.tail, fatbuf := s.card lba, fatbufLba := lba }) ?_
        ⟨⟨fun _ => rfl, rfl, ?_⟩, rfl, fun _ => ⟨rfl, fun _ => rfl⟩, nofun⟩
      · simp [loadFat, held, read]
      · exact failures_tail rfl
    | some junk =>
      rw [answered] at read
      refine gives_run (a := false)
        (t := { s with faults := s.faults.tail, fatbuf := junk, fatbufLba := invalidLba }) ?_
        ⟨⟨fun no => absurd rfl no, rfl, ?_⟩, rfl, fun no => absurd no Bool.false_ne_true, fun _ => ?_⟩
      · simp [loadFat, held, read]
      · exact failures_tail rfl
      · exact failed_tail answered rfl

end Requests

def Volume.copyOf (v : Volume) (lba f : Nat) : Nat := (lba + f * v.sectorsPerFat) % 2 ^ 32

structure EntrySet (b b' : Block) (c value : Nat) : Prop where
  value : entryIn b' c = value % 2 ^ 28
  reserved : rd32 b' (fatOffset c % 512) / 2 ^ 28 = rd32 b (fatOffset c % 512) / 2 ^ 28
  others : ∀ i, i < fatOffset c % 512 ∨ fatOffset c % 512 + 4 ≤ i → b' i = b i

/-- The entry is set in the first copy of the table, and that sector is in every copy. -/
structure Stored (v : Volume) (card card' : Nat → Block) (c value : Nat) : Prop where
  first : EntrySet (card (v.fatLba c)) (card' (v.fatLba c)) c value
  copies : ∀ f < v.numFats, card' (v.copyOf (v.fatLba c) f) = card' (v.fatLba c)
  others : ∀ lba, (∀ f < v.numFats, lba ≠ v.copyOf (v.fatLba c) f) → card' lba = card lba

def Allotted (s : Fs) (c : Nat) (t : Fs) : Prop :=
  (c = 0 ∧ ((∀ x, s.volume.InRange x → link s.volume s.card x ≠ 0) ∨ Failed s t)) ∨
    (s.volume.InRange c ∧ link s.volume s.card c = 0 ∧ Stored s.volume s.card t.card c chainEnd)

section Table
variable {s : Fs} {c value : Nat}

theorem fatGet_told (truth : Truth s) (c : Nat) :
    Gives (fatGet c) s (fun x t => Sound s t ∧ t.card = s.card ∧
      (s.volume.fatLba c ≠ invalidLba → x = link s.volume s.card c ∨ x = 0x0fffffff ∧ Failed s t)) := by
  obtain ⟨ok, t, runs, sound, card, loaded, failed⟩ := loadFat_told truth (s.volume.fatLba c)
  cases ok with
  | true =>
    refine gives_run (a := entryIn t.fatbuf c) (t := t) ?_ ⟨sound, card, fun known => .inl ?_⟩
    · simp [fatGet, runs]
    · rw [(loaded rfl).2 known, link]
  | false =>
    refine gives_run (a := 0x0fffffff) (t := t) ?_ ⟨sound, card, fun _ => .inr ⟨rfl, failed rfl⟩⟩
    simp [fatGet, runs]

theorem writeCopies_told (lba n f : Nat) (s : Fs) :
    Gives (writeCopies lba n f) s (fun ok t => t.volume = s.volume ∧ t.failures ≤ s.failures ∧
      (ok = true → t.fatbufLba = s.fatbufLba ∧ t.fatbuf = s.fatbuf ∧
        (∀ g, f ≤ g → g < f + n → t.card (s.volume.copyOf lba g) = s.fatbuf) ∧
        ∀ l, (∀ g, f ≤ g → g < f + n → l ≠ s.volume.copyOf lba g) → t.card l = s.card l) ∧
      (ok = false → t.fatbufLba = invalidLba ∧ Failed s t)) := by
  induction n generalizing f s with
  | zero =>
    apply gives_pure
    exact ⟨rfl, le_rfl, fun _ => ⟨rfl, rfl, fun g _ _ => by omega, fun _ _ => rfl⟩, nofun⟩
  | succ n ih =>
    have written := writeFat_outcome (s.volume.copyOf lba f) s
    rw [Volume.copyOf] at written
    cases answered : s.faults.head?.join with
    | none =>
      rw [answered] at written
      let mid : Fs := { s with
        faults := s.faults.tail, card := update s.card (s.volume.copyOf lba f) s.fatbuf }
      obtain ⟨ok, t, runs, volume, fewer, done, failed⟩ := ih (f + 1) mid
      have steps : (writeCopies lba (n + 1) f).run s = (writeCopies lba n (f + 1)).run mid := by
        simp [-Nat.reducePow, writeCopies, written, mid, Volume.copyOf]
      refine gives_run (steps.trans runs) ⟨volume, fewer.trans (failures_tail rfl), fun yes => ?_,
        fun no => ⟨(failed no).1, Nat.lt_of_lt_of_le (failed no).2 (failures_tail rfl)⟩⟩
      · obtain ⟨lbaIs, buffer, hit, miss⟩ := done yes
        refine ⟨lbaIs, buffer, fun g from' below => ?_, fun l away => ?_⟩
        · rcases Nat.eq_or_lt_of_le from' with rfl | later
          · -- a later copy may lie over this one, and holds the same
            by_cases again : ∃ g, f + 1 ≤ g ∧ g < f + 1 + n ∧
                s.volume.copyOf lba f = s.volume.copyOf lba g
            · obtain ⟨g, from', below, same⟩ := again
              rw [same]
              exact hit g from' below
            · rw [miss _ fun g from' below same => again ⟨g, from', below, same⟩]
              exact update_self ..
          · exact hit g later (by omega)
        · rw [miss l fun g from' below => away g (by omega) (by omega)]
          exact update_of_ne (away f le_rfl (by omega)) ..
    | some junk =>
      rw [answered] at written
      refine gives_run (a := false) (t := { s with
        faults := s.faults.tail
        card := update s.card (s.volume.copyOf lba f) junk
        fatbufLba := invalidLba }) ?_
        ⟨rfl, failures_tail rfl, nofun, fun _ => ⟨rfl, failed_tail answered rfl⟩⟩
      simp [-Nat.reducePow, writeCopies, written, Volume.copyOf]

theorem putEntry_set (b : Block) (c value : Nat) : EntrySet b (putEntry b c value) c value := by
  have bound := rd32_lt b (fatOffset c % 512)
  refine ⟨?_, ?_, fun i away => ?_⟩
  · rw [entryIn_putEntry, if_pos rfl]
  · rw [putEntry, rd32_wr32]
    omega
  · rw [putEntry, wr32, wr16_other (by omega) (by omega), wr16_other (by omega) (by omega)]

theorem fatPut_told (truth : Truth s) (fats : 0 < s.volume.numFats) (c value : Nat) :
    Gives (fatPut c value) s (fun ok t => Sound s t ∧
      (ok = true → s.volume.fatLba c ≠ invalidLba → Stored s.volume s.card t.card c value) ∧
      (ok = false → Failed s t)) := by
  obtain ⟨ok, t, runs, sound, card, loaded, failed⟩ := loadFat_told truth (s.volume.fatLba c)
  cases ok with
  | false =>
    refine gives_run (a := false) (t := t) ?_ ⟨sound, nofun, failed⟩
    simp [fatPut, runs]
  | true =>
    obtain ⟨held, buffer⟩ := loaded rfl
    obtain ⟨ok, u, copies, volume, fewer, done, failed⟩ := writeCopies_told (s.volume.fatLba c)
      t.volume.numFats 0 { t with fatbuf := putEntry t.fatbuf c value }
    have steps : (fatPut c value).run s = some (ok, u) := by simpa [fatPut, runs] using copies
    have here : s.volume.copyOf (s.volume.fatLba c) 0 = s.volume.fatLba c := by
      rw [Volume.copyOf, Nat.zero_mul, Nat.add_zero]
      exact Nat.mod_mod _ _
    simp only [sound.volume, Nat.zero_add] at done volume
    refine gives_run steps ⟨⟨?_, volume, fewer.trans sound.failures⟩, fun yes known => ?_, fun no => ?_⟩
    · intro known
      cases ok with
      | false => exact absurd (failed rfl).1 known
      | true =>
        obtain ⟨lba, same, hit, _⟩ := done rfl
        rw [same, lba, held, ← hit 0 le_rfl fats, here]
    · obtain ⟨_, _, hit, miss⟩ := done yes
      have first := hit 0 le_rfl fats
      rw [here] at first
      refine ⟨?_, fun f below => (hit f (Nat.zero_le f) below).trans first.symm, fun l away => ?_⟩
      · rw [first, buffer known]
        exact putEntry_set _ c value
      · rw [← card]
        exact miss l fun g _ below => away g below
    · exact (failed no).2.before sound

/-- Sectors of the table can be told from the mark, and the cluster numbers have an end. -/
structure Volume.Addressed (v : Volume) : Prop where
  fats : 0 < v.numFats
  numbers : v.clusterCount + 2 < 2 ^ 32
  known : ∀ c, v.InRange c → v.fatLba c ≠ invalidLba

theorem fatSearch_told (truth : Truth s) (addressed : s.volume.Addressed) (n : Nat)
    (inside : s.volume.InRange c) :
    Gives (fatSearch n c) s (fun r t => Sound s t ∧
      ((r = 0 ∧ ((∀ k < n, link s.volume s.card (around s.volume c k) ≠ 0) ∨ Failed s t)) ∨
        (s.volume.InRange r ∧ link s.volume s.card r = 0 ∧
          Stored s.volume s.card t.card r chainEnd))) := by
  induction n generalizing s c with
  | zero =>
    apply gives_pure
    exact ⟨⟨truth, rfl, le_rfl⟩, .inl ⟨rfl, .inl fun k below => absurd below (Nat.not_lt_zero k)⟩⟩
  | succ n ih =>
    have known := addressed.known c inside
    have whole : s.volume.clusterEnd = s.volume.clusterCount + 2 :=
      Nat.mod_eq_of_lt addressed.numbers
    apply (fatGet_told truth c).bind
    rintro x t ⟨sound, card, found⟩
    by_cases free : x = 0
    · have isFree : link s.volume s.card c = 0 := by
        rcases found known with same | ⟨other, _⟩
        · rw [← same, free]
        · rw [other] at free
          cases free
      simp only [free, if_true]
      apply (fatPut_told sound.truth (sound.volume ▸ addressed.fats) c 0x0ffffff8).bind
      rintro ok u ⟨put, stored, failed⟩
      have both := sound.trans put
      cases ok with
      | true =>
        have made := stored rfl (sound.volume ▸ known)
        rw [sound.volume, card] at made
        refine gives_run (a := c) (t := { u with allocHint := c + 1 }) (by simp) ?_
        exact ⟨⟨both.truth, both.volume, both.failures⟩, .inr ⟨inside, isFree, made⟩⟩
      | false => exact gives_pure ⟨both, .inl ⟨rfl, .inr ((failed rfl).before sound)⟩⟩
    · simp only [free, if_false]
      have step : t.volume.InRange (if c + 1 < s.volume.clusterCount + 2 then c + 1 else 2) := by
        rw [sound.volume]
        obtain ⟨lower, upper⟩ := inside
        split
        · next below => exact ⟨by omega, below⟩
        · exact ⟨le_rfl, by omega⟩
      obtain ⟨r, u, runs, later, outcome⟩ := ih sound.truth (sound.volume ▸ addressed) step
      rw [card, sound.volume] at outcome
      refine gives_run (a := r) (t := u) ?_ ⟨sound.trans later, ?_⟩
      · simpa [sound.volume, whole] using runs
      · rcases outcome with ⟨none', reason⟩ | made
        · refine .inl ⟨none', ?_⟩
          rcases found known with same | ⟨_, failed⟩
          · rcases reason with full | failed
            · refine .inl fun k below => ?_
              cases k with
              | zero =>
                obtain ⟨lower, upper⟩ := inside
                have back : 2 + (c - 2) = c := by omega
                rw [around, Nat.add_zero, Nat.mod_eq_of_lt (by omega), back, ← same]
                exact free
              | succ k =>
                rw [← around_step inside]
                exact full k (by omega)
            · exact .inr (failed.before sound)
          · exact .inr (failed.behind later)
        · exact .inr made

theorem fatAlloc_told (truth : Truth s) (addressed : s.volume.Addressed) :
    Gives fatAlloc s (fun r t => Sound s t ∧ Allotted s r t) := by
  have whole : s.volume.clusterEnd = s.volume.clusterCount + 2 := Nat.mod_eq_of_lt addressed.numbers
  let hint := if s.allocHint < 2 ∨ s.volume.clusterEnd ≤ s.allocHint then 2 else s.allocHint
  have begins : fatAlloc.run s =
      (fatSearch s.volume.clusterCount hint).run { s with allocHint := hint } := by
    let turned := if s.allocHint < 2 ∨ s.volume.clusterEnd ≤ s.allocHint then { s with allocHint := 2 } else s
    change (fatSearch turned.volume.clusterCount turned.allocHint).run turned = _
    by_cases outside : s.allocHint < 2 ∨ s.volume.clusterEnd ≤ s.allocHint
    · simp only [turned, hint, if_pos outside]
    · simp only [turned, hint, if_neg outside]
  have begun : Sound s { s with allocHint := hint } := ⟨truth, rfl, le_rfl⟩
  rcases Nat.eq_zero_or_pos s.volume.clusterCount with none' | some'
  · refine gives_run (a := 0) (t := { s with allocHint := hint }) ?_ ⟨begun, .inl ⟨rfl, .inl ?_⟩⟩
    · rw [begins, none']
      rfl
    · rintro x ⟨lower, upper⟩
      omega
  · have inside : s.volume.InRange hint := by
      simp only [hint]
      split
      · exact ⟨le_rfl, by omega⟩
      · exact ⟨by omega, by omega⟩
    obtain ⟨r, t, runs, sound, outcome⟩ := @fatSearch_told { s with allocHint := hint } hint truth addressed
      s.volume.clusterCount inside
    refine gives_run (begins.trans runs) ⟨begun.trans sound, ?_⟩
    rcases outcome with ⟨zero, full | failed⟩ | made
    · refine .inl ⟨zero, .inl fun x other => ?_⟩
      obtain ⟨k, below, rfl⟩ := around_covers inside other
      exact full k below
    · exact .inl ⟨zero, .inr failed⟩
    · exact .inr made

theorem freeFrom_told (truth : Truth s) (fats : 0 < s.volume.numFats) (n : Nat) {a : Unit} {t : Fs}
    (runs : (freeFrom n c).run s = some (a, t)) : Sound s t := by
  induction n generalizing s c with
  | zero => cases runs
  | succ n ih =>
    rw [freeFrom] at runs
    split at runs
    · obtain ⟨x, u, gets, sound, _, _⟩ := fatGet_told truth c
      rw [run_bind_of gets] at runs
      obtain ⟨ok, w, puts, put, _, _⟩ := fatPut_told sound.truth (sound.volume ▸ fats) c 0
      rw [run_bind_of puts] at runs
      have both := sound.trans put
      cases ok with
      | true => exact both.trans (ih put.truth (both.volume ▸ fats) runs)
      | false =>
        cases runs
        exact both
    · cases runs
      exact ⟨truth, rfl, le_rfl⟩

end Table

section Mount

def keptLba (l : Library) : Nat := l.fs.fatbufLba

theorem frames_mountAt (vbr : Nat) : Frames (mountAt vbr) keptLba := by
  unfold mountAt
  apply frames_get
  intro l
  apply Frames.bind
  · exact frames_modify fun _ => rfl
  · intro _
    apply frames_ite frames_pure
    apply frames_ite frames_pure
    apply Frames.bind
    · exact frames_modify fun _ => rfl
    · exact fun _ => frames_pure

theorem frames_onSector (lba : Nat) : Frames (onSector lba) keptLba := by
  intro l ok m runs
  rw [onSector_run] at runs
  cases runs
  rfl

theorem fatMount_forgets {l m : Library} {ok : Bool} (runs : fatMount.run l = some (ok, m)) :
    m.fs.fatbufLba = invalidLba := by
  unfold fatMount at runs
  refine @Frames.after _ _ _ _ keptLba _ _ _ _ _ invalidLba ?_ ?_ runs
  · intro a t forgets
    cases forgets
    rfl
  · intro _
    apply (frames_onSector 0).bind
    intro ok
    apply frames_ite _ frames_pure
    apply frames_get
    intro l
    apply frames_ite frames_pure
    apply Frames.bind
    · exact frames_modify fun _ => rfl
    · intro _
      apply frames_ite (frames_mountAt 0)
      apply frames_ite frames_pure
      apply (frames_onSector _).bind
      intro ok
      exact frames_ite (frames_mountAt _) frames_pure

end Mount

inductive TableCall (l : Library) : Library → Prop
  | get (c : Nat) {x : Nat} {s : Fs} (runs : (fatGet c).run l.fs = some (x, s)) :
      TableCall l { l with fs := s }
  | put (c value : Nat) {ok : Bool} {s : Fs} (runs : (fatPut c value).run l.fs = some (ok, s)) :
      TableCall l { l with fs := s }
  | alloc {c : Nat} {s : Fs} (runs : fatAlloc.run l.fs = some (c, s)) : TableCall l { l with fs := s }
  | free (c : Nat) {s : Fs} (runs : (fatFreeChain c).run l.fs = some ((), s)) :
      TableCall l { l with fs := s }

/-- A mount, or one of those calls on a volume whose table can be addressed. -/
inductive TableStep (l : Library) : Library → Prop
  | mount {ok : Bool} {m : Library} (runs : fatMount.run l = some (ok, m)) : TableStep l m
  | call {m : Library} (addressed : l.fs.volume.Addressed) (call : TableCall l m) : TableStep l m

theorem TableCall.truth {l m : Library} (call : TableCall l m) (addressed : l.fs.volume.Addressed)
    (truth : Truth l.fs) : Truth m.fs := by
  cases call with
  | get c runs => exact ((fatGet_told truth c).outcome runs).1.truth
  | put c value runs => exact ((fatPut_told truth addressed.fats c value).outcome runs).1.truth
  | alloc runs => exact ((fatAlloc_told truth addressed).outcome runs).1.truth
  | free c runs => exact (freeFrom_told truth addressed.fats _ runs).truth

/-- In every state that calls and mounts lead to the kept sector is the card's; a value that
is put there is in every copy of the table, and a cluster that is allocated was free. -/
theorem cache_truth {l m : Library} (boot : l.fs.fatbufLba = invalidLba)
    (run : Relation.ReflTransGen TableStep l m) :
    Truth m.fs ∧ (m.fs.volume.Addressed →
      (∀ c value t, m.fs.volume.fatLba c ≠ invalidLba → (fatPut c value).run m.fs = some (true, t) →
        Stored m.fs.volume m.fs.card t.card c value) ∧
      ∀ c t, fatAlloc.run m.fs = some (c, t) → Allotted m.fs c t) := by
  have truth : Truth m.fs := by
    induction run with
    | refl => exact fun known => absurd boot known
    | tail _ step ih =>
      cases step with
      | mount runs => exact fun known => absurd (fatMount_forgets runs) known
      | call addressed call => exact call.truth addressed ih
  refine ⟨truth, fun addressed => ⟨fun c value t known runs => ?_, fun c t runs => ?_⟩⟩
  · exact ((fatPut_told truth addressed.fats c value).outcome runs).2.1 rfl known
  · exact ((fatAlloc_told truth addressed).outcome runs).2

section Twin

def twinBoot : Block := fun i =>
  [(0, 0xeb), (12, 2), (13, 1), (14, 1), (16, 2), (32, 5), (36, 1), (44, 2), (510, 0x55), (511, 0xaa)].lookup i
    |>.getD 0

def twinVolume : Volume := ⟨1, 3, 1, 2, 2, 1, 2⟩

def twinCard (faults : List (Option Block)) : Library where
  fs :=
    { volume := ⟨0, 0, 0, 0, 0, 0, 0⟩
      mounted := false
      card := fun lba => if lba = 0 then twinBoot else fun _ => 0
      faults := faults
      sector := fun _ => 0
      fatbuf := fun _ => 0
      fatbufLba := invalidLba
      allocHint := 2
      ra := ⟨[], false, 0, 0, 0, 0⟩
      stack := fun _ _ => 0
      calls := 0 }
  volumeLba := 0
  volumeSectors := 0

theorem twin_addressed : twinVolume.Addressed where
  fats := by decide
  numbers := by decide
  known c inside := by
    obtain ⟨lower, upper⟩ := inside
    simp only [twinVolume] at upper
    simp only [Volume.fatLba, fatOffset, twinVolume, invalidLba]
    omega

def twinMounted (faults : List (Option Block)) : Library where
  fs := { (twinCard faults).fs with volume := twinVolume, mounted := true, sector := twinBoot }
  volumeLba := 0
  volumeSectors := 5

theorem mounts_twinBoot {l : Library} (boot : l.fs.card 0 = twinBoot)
    (answers : l.fs.faults.head?.join = none) :
    fatMount.run l = some (true, ⟨{ forgetAll l.fs with
      faults := l.fs.faults.tail, sector := twinBoot, volume := twinVolume, mounted := true }, 0, 5⟩) := by
  have bytes : twinBoot 0 = 0xeb ∧ twinBoot 510 = 0x55 ∧ twinBoot 511 = 0xaa ∧ twinBoot 13 = 1 ∧
      twinBoot 16 = 2 := by decide
  have numbers : rd16 twinBoot 11 = 512 ∧ rd16 twinBoot 14 = 1 ∧ rd16 twinBoot 17 = 0 ∧
      rd16 twinBoot 22 = 0 ∧ rd32 twinBoot 32 = 5 ∧ rd32 twinBoot 36 = 1 ∧ rd32 twinBoot 44 = 2 := by
    decide
  simp [fatMount, mountAt, onSector_run, forgetAll, twinVolume, boot, answers, bytes, numbers]

theorem twin_mounts (faults : List (Option Block)) :
    TableStep (twinCard (none :: faults)) (twinMounted faults) :=
  .mount (mounts_twinBoot rfl rfl)

theorem cache_truth_mounted : Truth (twinMounted []).fs ∧
    ∃ c t, fatAlloc.run (twinMounted []).fs = some (c, t) ∧ Allotted (twinMounted []).fs c t := by
  obtain ⟨truth, calls⟩ := cache_truth (l := twinCard [none]) rfl (.single (twin_mounts []))
  obtain ⟨c, t, runs, _⟩ := fatAlloc_told truth twin_addressed
  exact ⟨truth, c, t, runs, (calls twin_addressed).2 c t runs⟩

/-- The value 5 is put for cluster 3, and the write of the second copy fails and leaves
nothing there; then one is put for cluster 2. -/
def torn : Option (Volume × Bool × Byte × Byte) :=
  ((fatPut 3 5).run (twinMounted [none, none, some fun _ => 0]).fs).bind fun first =>
    ((fatPut 2 1).run first.2).map fun second =>
      (first.2.volume, second.1, first.2.card 2 12, second.2.card 2 12)

def unread : Option (Nat × Byte × Byte) :=
  (fatAlloc.run (twinMounted [some fun _ => 1, some fun _ => 1]).fs).map fun outcome =>
    (outcome.1, outcome.2.card 1 0, outcome.2.fatbuf 0)

/-- The other entries of a copy that is out of step become those of the first; and nothing is
allocated where the table is free and cannot be read, though nothing was written. -/
theorem copies_follow_first :
    (¬ ∀ l m : Library, l.fs.fatbufLba = invalidLba → Relation.ReflTransGen TableStep l m →
      m.fs.volume.Addressed → ∀ c value t, m.fs.volume.fatLba c ≠ invalidLba →
      (fatPut c value).run m.fs = some (true, t) → ∀ f < m.fs.volume.numFats,
        EntrySet (m.fs.card (m.fs.volume.copyOf (m.fs.volume.fatLba c) f))
          (t.card (m.fs.volume.copyOf (m.fs.volume.fatLba c) f)) c value) ∧
    ∃ l m t, l.fs.fatbufLba = invalidLba ∧ Relation.ReflTransGen TableStep l m ∧
      m.fs.volume.Addressed ∧ fatAlloc.run m.fs = some (0, t) ∧ m.fs.volume.InRange 2 ∧
      link m.fs.volume m.fs.card 2 = 0 ∧ t.card 1 0 = 0 ∧ t.fatbuf 0 = 1 := by
  constructor
  · intro always
    have value : torn = some (twinVolume, true, 0, 5) := by decide +kernel
    obtain ⟨⟨ok, s⟩, puts, rest⟩ := Option.bind_eq_some_iff.mp value
    obtain ⟨⟨_, t⟩, again, last⟩ := Option.map_eq_some_iff.mp rest
    simp only [Prod.mk.injEq] at last
    obtain ⟨volume, rfl, before, after⟩ := last
    let m : Library := { twinMounted [none, none, some fun _ => 0] with fs := s }
    have run : Relation.ReflTransGen TableStep
        (twinCard [none, none, none, some fun _ => 0]) m :=
      .tail (.single (twin_mounts _)) (.call twin_addressed (.put 3 5 puts))
    have set := always _ m rfl run (volume ▸ twin_addressed) 2 1 t
      (by rw [volume]; decide) again 1 (by rw [volume]; decide)
    have kept := set.others 12 (.inr (by decide))
    rw [volume] at kept
    exact absurd (after.symm.trans (kept.trans before)) (by decide)
  · have value : unread = some (0, 0, 1) := by decide +kernel
    obtain ⟨⟨c, t⟩, runs, same⟩ := Option.map_eq_some_iff.mp value
    simp only [Prod.mk.injEq] at same
    obtain ⟨rfl, card, buffer⟩ := same
    exact ⟨_, _, t, rfl, .single (twin_mounts _), twin_addressed, runs, by decide, by decide +kernel,
      card, buffer⟩

end Twin

end Ubiqos.Fat
