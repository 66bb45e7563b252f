import Mathlib.Data.BitVec
import Mathlib.Data.List.Basic
import Mathlib.Data.List.GetD
import Mathlib.Logic.Function.Basic

/-!
A memory of bytes, and words of four of them with the low byte first. A store
changes its own four bytes; a copy, one byte after the other, carries a stretch
over whole when the two places are apart.
-/

namespace Words

open Function

abbrev Memory := Nat → BitVec 8

theorem ofInt_exact {target : Int} (low : 0 ≤ target) (high : target < 2 ^ 31) :
    ((BitVec.ofInt 32 target).toNat : Int) = target ∧ (BitVec.ofInt 32 target).toInt = target := by
  have toNat : ((BitVec.ofInt 32 target).toNat : Int) = target := by
    rw [BitVec.toNat_ofInt, Int.toNat_of_nonneg (Int.emod_nonneg _ (by decide))]
    exact Int.emod_eq_of_lt low (by omega)
  refine ⟨toNat, ?_⟩
  rw [BitVec.toInt_eq_toNat_cond, if_pos (by omega), toNat]

def load (mem : Memory) (here : Nat) : Nat :=
  (mem here).toNat + 2 ^ 8 * (mem (here + 1)).toNat + 2 ^ 16 * (mem (here + 2)).toNat +
    2 ^ 24 * (mem (here + 3)).toNat

def store (mem : Memory) (here word : Nat) : Memory := fun place =>
  if here ≤ place ∧ place < here + 4 then BitVec.ofNat 8 (word / 2 ^ (8 * (place - here))) else mem place

/-- `for (i = 0; i < count; i++) target[i] = source[i]`. -/
def copy (mem : Memory) (target source : Nat) : Nat → Memory
  | 0 => mem
  | i + 1 =>
    let mem := copy mem target source i
    update mem (target + i) (mem (source + i))

variable {mem other : Memory} {here there word place : Nat}

theorem load_congr (same : ∀ place, here ≤ place → place < here + 4 → other place = mem place) :
    load other here = load mem here := by
  unfold load
  rw [same here, same (here + 1), same (here + 2), same (here + 3)] <;> omega

theorem load_lt : load mem here < 2 ^ 32 := by
  have first := (mem here).isLt
  have second := (mem (here + 1)).isLt
  have third := (mem (here + 2)).isLt
  have fourth := (mem (here + 3)).isLt
  unfold load
  omega

theorem store_outside (outside : place < here ∨ here + 4 ≤ place) :
    store mem here word place = mem place := if_neg (by omega)

theorem load_store (small : word < 2 ^ 32) : load (store mem here word) here = word := by
  have byte : ∀ i, i < 4 → (store mem here word (here + i)).toNat = word / 2 ^ (8 * i) % 2 ^ 8 := by
    intro i inside
    rw [store, if_pos (by omega), Nat.add_sub_cancel_left, BitVec.toNat_ofNat]
  have first := byte 0 (by omega)
  rw [Nat.add_zero] at first
  unfold load
  rw [first, byte 1 (by omega), byte 2 (by omega), byte 3 (by omega)]
  omega

theorem load_store_apart (apart : there + 4 ≤ here ∨ here + 4 ≤ there) :
    load (store mem there word) here = load mem here :=
  load_congr fun _ low high => store_outside (by omega)

variable {target source count : Nat}

theorem copy_outside (outside : place < target ∨ target + count ≤ place) :
    copy mem target source count place = mem place := by
  induction count with
  | zero => rfl
  | succ i ih =>
    have apart : place ≠ target + i := by omega
    rw [copy, update_of_ne apart]
    exact ih (by omega)

theorem copy_inside (apart : source + count ≤ target ∨ target + count ≤ source) {i : Nat} (inside : i < count) :
    copy mem target source count (target + i) = mem (source + i) := by
  induction count with
  | zero => exact absurd inside (Nat.not_lt_zero i)
  | succ last ih =>
    rw [copy]
    by_cases same : i = last
    · -- the byte copied last is still what it was
      rw [same, update_self]
      exact copy_outside (by omega)
    · have apart' : target + i ≠ target + last := by omega
      rw [update_of_ne apart']
      exact ih (by omega) (by omega)

theorem toNat_and_not_ones {w k : Nat} (x : BitVec w) :
    (x &&& ~~~BitVec.ofNat w (2 ^ k - 1)).toNat = x.toNat / 2 ^ k * 2 ^ k := by
  have same : x &&& ~~~BitVec.ofNat w (2 ^ k - 1) = x >>> k <<< k := by
    apply BitVec.eq_of_getLsbD_eq
    intro i small
    have ones : (BitVec.ofNat w (2 ^ k - 1)).getLsbD i = decide (i < k) := by
      rw [BitVec.getLsbD_ofNat, Nat.testBit_two_pow_sub_one]
      simp [small]
    rw [BitVec.getLsbD_and, BitVec.getLsbD_not, ones, BitVec.getLsbD_shiftLeft,
      BitVec.getLsbD_ushiftRight]
    by_cases low : i < k
    · simp [low]
    · have above : k + (i - k) = i := by omega
      simp [small, low, above]
  have fits : x.toNat / 2 ^ k * 2 ^ k < 2 ^ w := (Nat.div_mul_le_self _ _).trans_lt x.isLt
  rw [same, BitVec.toNat_shiftLeft, BitVec.toNat_ushiftRight, Nat.shiftRight_eq_div_pow,
    Nat.shiftLeft_eq, Nat.mod_eq_of_lt fits]

end Words

/-!
Lists in a memory of cells: what lies at a place, in parts and cell by cell.
-/

universe u

namespace Cells

variable {α : Type u}

def Sits (mem : Nat → α) (place : Nat) (xs : List α) : Prop :=
  ∀ i (inside : i < xs.length), mem (place + i) = xs[i]

variable {mem : Nat → α} {place : Nat} {a b rest : List α} {x : α}

theorem sits_append :
    Sits mem place (a ++ b) ↔ Sits mem place a ∧ Sits mem (place + a.length) b := by
  constructor
  · intro whole
    constructor
    · intro i inside
      rw [whole i (by simp; omega), List.getElem_append_left inside]
    · intro i inside
      rw [Nat.add_assoc, whole (a.length + i) (by simp; omega), List.getElem_append_right (by omega)]
      congr 1
      omega
  · rintro ⟨first, second⟩ i inside
    by_cases low : i < a.length
    · rw [first i low, List.getElem_append_left low]
    · rw [List.length_append] at inside
      have there := second (i - a.length) (by omega)
      rw [List.getElem_append_right (Nat.le_of_not_lt low), ← there]
      congr 1
      omega

theorem sits_cons :
    Sits mem place (x :: rest) ↔ mem place = x ∧ Sits mem (place + 1) rest := by
  rw [← List.singleton_append, sits_append]
  refine and_congr_left fun _ => ⟨fun one => one 0 Nat.one_pos, fun here i inside => ?_⟩
  obtain rfl : i = 0 := by simpa using inside
  exact here

theorem sits_getD (xs : List α) (blank : α) : Sits (fun i => xs.getD i blank) 0 xs := by
  intro i inside
  simp [inside]

theorem sits_congr {other : Nat → α} (same : ∀ i < a.length, other (place + i) = mem (place + i)) :
    Sits other place a ↔ Sits mem place a :=
  forall₂_congr fun i inside => by rw [same i inside]

theorem sits_read (sits : Sits mem place a) : (List.range a.length).map (fun i => mem (place + i)) = a := by
  refine List.ext_getElem (by simp) fun i _ inside => ?_
  simpa using sits i inside

end Cells
