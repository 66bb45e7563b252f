import Mathlib.Data.BitVec
import Mathlib.Logic.Function.Iterate

/-!
A counter kept as digits in places of its own, the lowest place first: one more goes into the
lowest digit, and a digit that comes round to nothing carries into the next.
-/

namespace Odometer

open Function

variable {ι : Type} [DecidableEq ι] {w : Nat}

/-- `for (i in places) if (++digits[i]) break`. -/
def carry : List ι → (ι → BitVec w) → ι → BitVec w
  | [], digits => digits
  | i :: rest, digits =>
    let digits := update digits i (digits i + 1)
    if digits i = 0 then carry rest digits else digits

def value : List ι → (ι → BitVec w) → Nat
  | [], _ => 0
  | i :: rest, digits => (digits i).toNat + 2 ^ w * value rest digits

variable {places : List ι} {digits other : ι → BitVec w}

theorem carry_outside {i : ι} (outside : i ∉ places) : carry places digits i = digits i := by
  induction places generalizing digits with
  | nil => rfl
  | cons j rest ih =>
    rw [List.mem_cons, not_or] at outside
    obtain ⟨apart, outside⟩ := outside
    simp only [carry]
    split
    · rw [ih outside, update_of_ne apart]
    · exact update_of_ne apart _ _

omit [DecidableEq ι] in
theorem value_congr (same : ∀ i ∈ places, digits i = other i) : value places digits = value places other := by
  induction places with
  | nil => rfl
  | cons i rest ih =>
    rw [value, value, same i List.mem_cons_self, ih fun j member => same j (List.mem_cons_of_mem i member)]

omit [DecidableEq ι] in
theorem value_lt : value places digits < (2 ^ w) ^ places.length := by
  induction places with
  | nil => simp [value]
  | cons i rest ih =>
    have digit := (digits i).isLt
    rw [value, List.length_cons, Nat.pow_succ']
    calc (digits i).toNat + 2 ^ w * value rest digits
        < 2 ^ w * (value rest digits + 1) := by rw [Nat.mul_add]; omega
      _ ≤ 2 ^ w * (2 ^ w) ^ rest.length := Nat.mul_le_mul_left _ ih

theorem toNat_next (digit : BitVec w) : (digit + 1).toNat = (digit.toNat + 1) % 2 ^ w := by
  simp [BitVec.toNat_add]

theorem next_zero (digit : BitVec w) : digit + 1 = 0 ↔ digit.toNat + 1 = 2 ^ w := by
  have small := digit.isLt
  rw [← BitVec.toNat_inj, toNat_next]
  change (digit.toNat + 1) % 2 ^ w = (0#w).toNat ↔ _
  rw [BitVec.toNat_zero]
  constructor
  · intro round
    exact Nat.le_antisymm small (Nat.le_of_dvd (Nat.succ_pos _) (Nat.dvd_of_mod_eq_zero round))
  · intro last
    rw [last, Nat.mod_self]

theorem value_carry (distinct : places.Nodup) :
    value places (carry places digits) = (value places digits + 1) % (2 ^ w) ^ places.length := by
  induction places generalizing digits with
  | nil => simp [value]
  | cons i rest ih =>
    obtain ⟨fresh, distinct⟩ := List.nodup_cons.mp distinct
    have upper : value rest (update digits i (digits i + 1)) = value rest digits :=
      value_congr fun j member => update_of_ne (fun same : j = i => fresh (same ▸ member)) _ _
    have digit := (digits i).isLt
    simp only [carry, update_self]
    split
    · rename_i round
      -- the digit was the last one, and the upper digits take the carry
      have last := (next_zero _).mp round
      have lowest : carry rest (update digits i (digits i + 1)) i = 0#w := by
        rw [carry_outside fresh, update_self]
        exact round
      have sum : value (i :: rest) digits + 1 = 2 ^ w * (value rest digits + 1) := by
        rw [value, Nat.mul_add]
        omega
      rw [sum, value, lowest, ih distinct, upper, List.length_cons, Nat.pow_succ', Nat.mul_mod_mul_left,
        BitVec.toNat_zero, Nat.zero_add]
    · rename_i stays
      have next : (digits i + 1).toNat = (digits i).toNat + 1 := by
        have short : (digits i).toNat + 1 ≠ 2 ^ w := fun last => stays ((next_zero _).mpr last)
        rw [toNat_next, Nat.mod_eq_of_lt (by omega)]
      have sum : value (i :: rest) (update digits i (digits i + 1)) = value (i :: rest) digits + 1 := by
        rw [value, update_self, upper, next, value, Nat.add_right_comm]
      rw [sum, Nat.mod_eq_of_lt (sum ▸ value_lt)]

omit [DecidableEq ι] in
theorem value_inj (same : value places digits = value places other) : ∀ i ∈ places, digits i = other i := by
  induction places with
  | nil => simp
  | cons i rest ih =>
    rw [value, value] at same
    have digit := (digits i).isLt
    have digit' := (other i).isLt
    have low : (digits i).toNat = (other i).toNat := by
      have mod := congrArg (· % 2 ^ w) same
      simpa [Nat.mod_eq_of_lt digit, Nat.mod_eq_of_lt digit'] using mod
    have high : value rest digits = value rest other := by
      rw [low] at same
      exact Nat.eq_of_mul_eq_mul_left (Nat.two_pow_pos w) (Nat.add_left_cancel same)
    intro j member
    rcases List.mem_cons.mp member with rfl | upper
    · exact BitVec.eq_of_toNat_eq low
    · exact ih high j upper

theorem value_iterate (distinct : places.Nodup) (n : Nat) :
    value places ((carry places)^[n] digits) = (value places digits + n) % (2 ^ w) ^ places.length := by
  induction n with
  | zero => exact (Nat.mod_eq_of_lt value_lt).symm
  | succ n ih => rw [iterate_succ_apply', value_carry distinct, ih, Nat.mod_add_mod, Nat.add_assoc]

theorem iterate_outside {i : ι} (outside : i ∉ places) (n : Nat) : (carry places)^[n] digits i = digits i := by
  induction n with
  | zero => rfl
  | succ n ih => rw [iterate_succ_apply', carry_outside outside, ih]

theorem iterate_eq_iff (distinct : places.Nodup) (n m : Nat) :
    (carry places)^[n] digits = (carry places)^[m] digits ↔ n ≡ m [MOD (2 ^ w) ^ places.length] := by
  have cancel : (value places digits + n) % (2 ^ w) ^ places.length =
      (value places digits + m) % (2 ^ w) ^ places.length ↔ n ≡ m [MOD (2 ^ w) ^ places.length] :=
    ⟨Nat.ModEq.add_left_cancel' _, Nat.ModEq.add_left _⟩
  rw [← cancel, ← value_iterate distinct, ← value_iterate distinct]
  constructor
  · intro same
    rw [same]
  · intro same
    funext i
    by_cases inside : i ∈ places
    · exact value_inj same i inside
    · rw [iterate_outside inside, iterate_outside inside]

end Odometer
