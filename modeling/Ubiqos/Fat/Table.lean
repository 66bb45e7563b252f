import Ubiqos.Fat.Card
import Ubiqos.Lib.Linked

/-!
What the card says, apart from where it says it: the table and the sectors of
each cluster. On a sound geometry with a device that answers, the allocation
table of the code is that table, and writing an entry changes that entry.
-/

namespace Ubiqos.Fat

open Function Prog

section Bytes
variable {p : Block} {i j v : Nat}

theorem rd16_wr16 : rd16 (wr16 p i v) i = v % 2 ^ 16 := by
  simp [rd16, wr16, update_self, update_of_ne]
  omega

theorem wr16_other (before : j ≠ i) (behind : j ≠ i + 1) : wr16 p i v j = p j := by
  simp [wr16, update_of_ne, before, behind]

theorem rd16_lt (p : Block) (i : Nat) : rd16 p i < 2 ^ 16 := by
  have low := (p i).isLt
  have high := (p (i + 1)).isLt
  simp only [rd16]
  omega

theorem rd32_lt (p : Block) (i : Nat) : rd32 p i < 2 ^ 32 := by
  have low := rd16_lt p i
  have high := rd16_lt p (i + 2)
  simp only [rd32]
  omega

theorem rd16_wr16_other (far : j + 2 ≤ i ∨ i + 2 ≤ j) : rd16 (wr16 p i v) j = rd16 p j := by
  simp only [rd16]
  rw [wr16_other (by omega) (by omega), wr16_other (by omega) (by omega)]

theorem rd32_wr32 : rd32 (wr32 p i v) i = v % 2 ^ 32 := by
  simp only [rd32, wr32]
  rw [rd16_wr16_other (by omega), rd16_wr16, rd16_wr16]
  omega

theorem rd32_wr32_other (far : j + 4 ≤ i ∨ i + 4 ≤ j) : rd32 (wr32 p i v) j = rd32 p j := by
  simp only [rd32, wr32]
  rw [rd16_wr16_other (by omega), rd16_wr16_other (by omega), rd16_wr16_other (by omega),
    rd16_wr16_other (by omega)]

end Bytes

def Volume.InRange (v : Volume) (c : Nat) : Prop := 2 ≤ c ∧ c < v.clusterCount + 2

instance (v : Volume) (c : Nat) : Decidable (v.InRange c) := inferInstanceAs (Decidable (_ ∧ _))

section Requests
variable {s : Fs} {lba : Nat}

theorem request_answers (answers : s.faults = []) : request.run s = some (none, s) := by
  simp only [request, StateT.run, answers]

theorem sdReadBlock_run {keep : Fs → Block → Fs} (answers : s.faults = []) :
    (sdReadBlock keep lba).run s = some (true, keep s (s.card lba)) := by
  simp [sdReadBlock, StateT.run_bind, request_answers answers]

theorem sdWriteBlock_run {held : Fs → Block} (answers : s.faults = []) :
    (sdWriteBlock held lba).run s =
      some (true, { s with card := update s.card lba (held s) }) := by
  simp [sdWriteBlock, StateT.run_bind, request_answers answers]

theorem readSector_run (answers : s.faults = []) :
    (readSector lba).run s = some (true, { s with sector := s.card lba }) :=
  sdReadBlock_run answers

theorem readFat_run (answers : s.faults = []) :
    (readFat lba).run s = some (true, { s with fatbuf := s.card lba }) :=
  sdReadBlock_run answers

theorem writeFat_run (answers : s.faults = []) :
    (writeFat lba).run s = some (true, { s with card := update s.card lba s.fatbuf }) :=
  sdWriteBlock_run answers

end Requests

section Addresses
variable {v : Volume} {c x : Nat}

theorem entryIn_putEntry (b : Block) (c x value : Nat) :
    entryIn (putEntry b c value) x =
      if fatOffset x % 512 = fatOffset c % 512 then value % 2 ^ 28 else entryIn b x := by
  simp only [entryIn, putEntry]
  split
  · rename_i same
    rw [same, rd32_wr32]
    omega
  · rename_i different
    rw [rd32_wr32_other (by simp only [fatOffset] at different ⊢; omega)]

end Addresses

section Programs
variable {s : Fs} {c : Nat}

/-- The cluster the search is at after `k` more steps. -/
def around (v : Volume) (c k : Nat) : Nat := 2 + (c - 2 + k) % v.clusterCount

theorem around_covers {v : Volume} {x : Nat} (inside : v.InRange c) (other : v.InRange x) :
    ∃ k < v.clusterCount, around v c k = x := by
  obtain ⟨lower, upper⟩ := inside
  obtain ⟨lowerX, upperX⟩ := other
  by_cases ahead : c ≤ x
  · refine ⟨x - c, by omega, ?_⟩
    rw [around, Nat.mod_eq_of_lt (by omega)]
    omega
  · refine ⟨x + v.clusterCount - c, by omega, ?_⟩
    have sum : c - 2 + (x + v.clusterCount - c) = x - 2 + v.clusterCount := by omega
    rw [around, sum, Nat.add_mod_right, Nat.mod_eq_of_lt (by omega)]
    omega

theorem around_step {v : Volume} (inside : v.InRange c) (k : Nat) :
    around v (if c + 1 < v.clusterCount + 2 then c + 1 else 2) k = around v c (k + 1) := by
  obtain ⟨lower, upper⟩ := inside
  split
  · have sum : c + 1 - 2 + k = c - 2 + (k + 1) := by omega
    rw [around, around, sum]
  · have last : c - 2 + (k + 1) = 2 - 2 + k + v.clusterCount := by omega
    rw [around, around, last, Nat.add_mod_right]

end Programs

end Ubiqos.Fat
