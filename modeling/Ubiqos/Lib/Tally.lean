import Mathlib.Algebra.BigOperators.Fin
import Mathlib.Algebra.BigOperators.Group.Finset.Basic
import Mathlib.Data.List.Count

/-!
How many entries of a finite table satisfy a test, and how the number moves when
one entry is replaced. A sum that runs along the table moves the same way.
-/

namespace Tally

universe u v
variable {Index : Type u} [Fintype Index] {Entry : Type v}

def tally (test : Entry → Bool) (table : Index → Entry) : Nat :=
  ∑ index, if test (table index) then 1 else 0

theorem sum_change [DecidableEq Index] {before after : Index → Nat} (index : Index)
    (others : ∀ i, i ≠ index → after i = before i) :
    ∑ i, after i + before index = ∑ i, before i + after index := by
  have replaced : after = Function.update before index (after index) := by
    funext i
    by_cases here : i = index
    · subst here
      simp
    · simp [here, others i here]
  have split := Finset.add_sum_erase Finset.univ before (Finset.mem_univ index)
  have total : ∑ i, after i = after index + ∑ i ∈ Finset.univ.erase index, before i := by
    rw [replaced, Finset.sum_update_of_mem (Finset.mem_univ index),
      Finset.sdiff_singleton_eq_erase]
    simp
  omega

theorem tally_update [DecidableEq Index] (test : Entry → Bool) (table : Index → Entry)
    (index : Index) (entry : Entry) :
    tally test (Function.update table index entry) + (if test (table index) then 1 else 0) =
      tally test table + if test entry then 1 else 0 := by
  have others : ∀ i, i ≠ index →
      (if test (Function.update table index entry i) then 1 else 0) =
        if test (table i) then 1 else 0 := by
    intro i away
    rw [Function.update_of_ne away]
  have changed := sum_change index others
  simpa [tally] using changed

theorem tally_eq_zero (test : Entry → Bool) (table : Index → Entry) :
    tally test table = 0 ↔ ∀ index, test (table index) = false := by
  unfold tally
  rw [Finset.sum_eq_zero_iff]
  constructor
  · intro none index
    have here := none index (Finset.mem_univ index)
    cases found : test (table index) with
    | false => rfl
    | true => simp [found] at here
  · intro none index _
    simp [none index]

end Tally

/-!
A quota of so many times in any stretch of a given length, kept by counting from the
beginning of a window. A window that begins when all the times counted before are
further back than the length is enough: a stretch then meets only one of them.
-/

namespace Quota

/-- How many of the times are in the stretch that begins at `a`. -/
def within (a span : Nat) (times : List Nat) : Nat :=
  times.countP fun r => a ≤ r ∧ r ≤ a + span

/-- `count` is what the window that began at `since` has spent. -/
structure Counted (limit span since now count : Nat) (times : List Nat) : Prop where
  begun : since ≤ now
  past : ∀ r ∈ times, r ≤ now
  older : ∀ r ∈ times, since ≤ r ∨ r + span < since
  counted : times.countP (since ≤ ·) = count
  limited : count ≤ limit
  spread : ∀ a, within a span times ≤ limit

section Counting
variable {limit span since now count : Nat} {times : List Nat}

theorem Counted.nothing : Counted limit span now now 0 [] :=
  ⟨Nat.le_refl _, by simp, by simp, by simp, Nat.zero_le _, by simp [within]⟩

theorem Counted.later (counted : Counted limit span since now count times) {now' : Nat}
    (passes : now ≤ now') : Counted limit span since now' count times :=
  { counted with
    begun := Nat.le_trans counted.begun passes
    past := fun r member => Nat.le_trans (counted.past r member) passes }

theorem Counted.within_le (counted : Counted limit span since now count times) {a : Nat}
    (reaches : since ≤ a + span) : within a span times ≤ count := by
  rw [← counted.counted]
  apply List.countP_mono_left
  intro r member inside
  simp only [decide_eq_true_eq] at inside ⊢
  rcases counted.older r member with newer | before
  · exact newer
  · omega

theorem Counted.spend (counted : Counted limit span since now count times) (left : count < limit) :
    Counted limit span since now (count + 1) (now :: times) where
  begun := counted.begun
  past := by
    intro r member
    rcases List.mem_cons.mp member with rfl | before
    · exact Nat.le_refl _
    · exact counted.past r before
  older := by
    intro r member
    rcases List.mem_cons.mp member with rfl | before
    · exact .inl counted.begun
    · exact counted.older r before
  counted := by
    have begun := counted.begun
    rw [List.countP_cons_of_pos (by simpa using begun), counted.counted]
  limited := left
  spread := by
    intro a
    unfold within
    rw [List.countP_cons]
    split
    · rename_i inside
      simp only [decide_eq_true_eq] at inside
      have begun := counted.begun
      have few : within a span times ≤ count := counted.within_le (by omega)
      unfold within at few
      omega
    · exact counted.spread a

theorem Counted.renew (counted : Counted limit span since now count times)
    (passed : ∀ r ∈ times, r + span < now) : Counted limit span now now 0 times :=
  { counted with
    begun := Nat.le_refl _
    older := fun r member => .inr (passed r member)
    counted := by
      rw [List.countP_eq_zero]
      intro r member
      have before := passed r member
      simp only [decide_eq_true_eq]
      omega
    limited := Nat.zero_le _ }

theorem Counted.full (counted : Counted limit span since now limit times) (young : now ≤ since + span) :
    limit ≤ within (now - span) span times := by
  conv_lhs => rw [← counted.counted]
  apply List.countP_mono_left
  intro r member newer
  have past := counted.past r member
  simp only [decide_eq_true_eq] at newer ⊢
  omega

end Counting

end Quota
