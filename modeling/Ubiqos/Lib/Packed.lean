import Mathlib.Data.BitVec
import Mathlib.Data.List.Basic
import Mathlib.Data.List.Perm.Basic
import Mathlib.Data.List.Range
import Mathlib.Data.Nat.Bitwise
import Mathlib.Logic.Function.Basic

/-!
One machine word as a set of small numbers, with the two counting
instructions that pick an element out of it: leading zeros for the highest,
trailing zeros for the lowest.
-/

namespace Bitmap

abbrev Word := BitVec 32

def set (word : Word) (bit : Nat) : Word := word ||| (1#32 <<< bit)

def clear (word : Word) (bit : Nat) : Word := word &&& ~~~(1#32 <<< bit)

/-- `__builtin_clz`, which the C leaves undefined at zero. -/
def clz (word : Word) : Nat := 31 - word.toNat.log2

/-- `__builtin_ctz`, which the C leaves undefined at zero. -/
def ctz (word : Word) : Nat := ((List.range 32).find? (word.getLsbD ·)).getD 32

theorem getLsbD_set (word : Word) (bit other : Nat) (small : other < 32) :
    (set word bit).getLsbD other = (word.getLsbD other || decide (bit = other)) := by
  simp only [set, BitVec.getLsbD_or, BitVec.getLsbD_shiftLeft, BitVec.getLsbD_one]
  by_cases same : bit = other
  · simp [same, small]
  · have shifted : ¬ (¬ other < bit ∧ other - bit = 0) := by omega
    simp only [small, same]
    by_cases below : other < bit
    · simp [below]
    · have apart : other - bit ≠ 0 := by omega
      simp [below, apart]

theorem getLsbD_clear (word : Word) (bit other : Nat) (small : other < 32) :
    (clear word bit).getLsbD other = (word.getLsbD other && !decide (bit = other)) := by
  simp only [clear, BitVec.getLsbD_and, BitVec.getLsbD_not, BitVec.getLsbD_shiftLeft,
    BitVec.getLsbD_one]
  by_cases same : bit = other
  · simp [same, small]
  · simp only [small, same]
    by_cases below : other < bit
    · simp [below]
    · have apart : other - bit ≠ 0 := by omega
      simp [below, apart]

theorem eq_zero_iff (word : Word) : word = 0#32 ↔ ∀ bit < 32, word.getLsbD bit = false := by
  constructor
  · intro zero bit _
    simp [zero]
  · intro none
    apply BitVec.eq_of_getLsbD_eq
    intro bit small
    simpa using none bit small

variable {word : Word}

theorem log2_lt_32 (nonzero : word ≠ 0#32) : word.toNat.log2 < 32 := by
  have value : word.toNat ≠ 0 := by
    intro zero
    exact nonzero (BitVec.eq_of_toNat_eq (by simpa using zero))
  exact (Nat.log2_lt value).mpr word.isLt

theorem clz_highest (nonzero : word ≠ 0#32) :
    word.getLsbD (31 - clz word) = true ∧
      ∀ bit, 31 - clz word < bit → word.getLsbD bit = false := by
  have value : word.toNat ≠ 0 := by
    intro zero
    exact nonzero (BitVec.eq_of_toNat_eq (by simpa using zero))
  have small := log2_lt_32 nonzero
  have index : 31 - clz word = word.toNat.log2 := by
    unfold clz
    omega
  rw [index]
  constructor
  · exact Nat.testBit_log2 value
  · intro bit above
    apply Nat.testBit_lt_two_pow
    have bound : word.toNat < 2 ^ (word.toNat.log2 + 1) := Nat.lt_log2_self
    exact Nat.lt_of_lt_of_le bound (Nat.pow_le_pow_right (by decide) above)

theorem ctz_lowest (nonzero : word ≠ 0#32) :
    ctz word < 32 ∧ word.getLsbD (ctz word) = true ∧
      ∀ bit < ctz word, word.getLsbD bit = false := by
  cases found : (List.range 32).find? (word.getLsbD ·) with
  | none =>
    have all := List.find?_eq_none.mp found
    exact absurd ((eq_zero_iff word).mpr (fun bit small => by
      simpa using all bit (List.mem_range.mpr small))) nonzero
  | some bit =>
    have value : ctz word = bit := by simp [ctz, found]
    have isSet : word.getLsbD bit = true := List.find?_some found
    have inside := List.mem_range.mp (List.mem_of_find?_eq_some found)
    rw [value]
    refine ⟨inside, isSet, ?_⟩
    intro lower below
    have first := List.find?_range_eq_some.mp found
    simpa using first.2.2 lower below

end Bitmap

/-!
An array of which only the first `count` slots are in use. Taking an element
out moves everything behind it down one slot, in place, one copy at a time, or
fills its slot with the last element. The rules say what these loops leave
behind as a list operation, or as a list up to order.
-/

namespace Compact

universe u
variable {Item : Type u}
open Function

structure Packed (Item : Type u) where
  slot : Nat → Item
  count : Nat

def items (array : Packed Item) : List Item := (List.range array.count).map array.slot

def push (array : Packed Item) (item : Item) : Packed Item :=
  { slot := update array.slot array.count item, count := array.count + 1 }

/-- `for (j = index + 1; j < count; j++) slot[j - 1] = slot[j]`, `left` turns of it. -/
def closeGap (slot : Nat → Item) (index : Nat) : Nat → Nat → Item
  | 0 => slot
  | left + 1 => closeGap (update slot index (slot (index + 1))) (index + 1) left

def removeAt (array : Packed Item) (index : Nat) : Packed Item :=
  { slot := closeGap array.slot index (array.count - (index + 1)), count := array.count - 1 }

def put (array : Packed Item) (index : Nat) (item : Item) : Packed Item :=
  { array with slot := update array.slot index item }

/-- `slot[index] = slot[--count]`. -/
def swapOut (array : Packed Item) (index : Nat) : Packed Item :=
  { slot := update array.slot index (array.slot (array.count - 1)), count := array.count - 1 }

/-- The first slot from `index` on that is in use and wanted, looking at `left` slots. -/
def findFrom (array : Packed Item) (wanted : Item → Bool) (index : Nat) : Nat → Option Nat
  | 0 => none
  | left + 1 =>
    if wanted (array.slot index) then some index else findFrom array wanted (index + 1) left

def find (array : Packed Item) (wanted : Item → Bool) : Option Nat :=
  findFrom array wanted 0 array.count

/-- `while (i < count) { if (keep) i++; else remove i; }`, `fuel` turns of it. -/
def sweepFrom (dropped : Item → Bool) : Nat → Nat → Packed Item → Packed Item
  | 0, _, array => array
  | fuel + 1, index, array =>
    if index < array.count then
      if dropped (array.slot index) then sweepFrom dropped fuel index (removeAt array index)
      else sweepFrom dropped fuel (index + 1) array
    else array

def sweep (dropped : Item → Bool) (array : Packed Item) : Packed Item :=
  sweepFrom dropped array.count 0 array

@[simp] theorem items_length (array : Packed Item) : (items array).length = array.count := by
  simp [items]

theorem items_get (array : Packed Item) (i : Nat) (inside : i < array.count) :
    (items array)[i]? = some (array.slot i) := by
  simp [items, inside]

@[simp] theorem items_push (array : Packed Item) (item : Item) :
    items (push array item) = items array ++ [item] := by
  have unchanged : (List.range array.count).map (update array.slot array.count item) =
      (List.range array.count).map array.slot := by
    apply List.map_congr_left
    intro i member
    have below := List.mem_range.mp member
    exact update_of_ne (Nat.ne_of_lt below) item array.slot
  simp [items, push, List.range_succ, unchanged]

theorem closeGap_apply (slot : Nat → Item) (index left i : Nat) :
    closeGap slot index left i = if index ≤ i ∧ i < index + left then slot (i + 1) else slot i := by
  induction left generalizing slot index with
  | zero =>
    have empty : ¬ (index ≤ i ∧ i < index + 0) := by omega
    rw [closeGap, if_neg empty]
  | succ left ih =>
    rw [closeGap, ih]
    by_cases here : i = index
    · subst here
      have before : ¬ (i + 1 ≤ i ∧ i < i + 1 + left) := by omega
      rw [if_neg before, update_self, if_pos (by omega)]
    · rw [update_of_ne here]
      by_cases inside : index + 1 ≤ i ∧ i < index + 1 + left
      · rw [if_pos inside, update_of_ne (by omega), if_pos (by omega)]
      · rw [if_neg inside, if_neg (by omega)]

theorem items_removeAt (array : Packed Item) (index : Nat) (inside : index < array.count) :
    items (removeAt array index) = (items array).eraseIdx index := by
  apply List.ext_getElem?
  intro i
  rw [List.getElem?_eraseIdx]
  by_cases below : i < array.count - 1
  · rw [items_get _ i below]
    simp only [removeAt, closeGap_apply]
    by_cases before : i < index
    · rw [if_pos before, if_neg (by omega), items_get array i (by omega)]
    · rw [if_neg before, if_pos (by omega), items_get array (i + 1) (by omega)]
  · have short : (items (removeAt array index))[i]? = none := by
      simp [items, removeAt, below]
    have beyond : (items array)[i + 1]? = none := by
      simp only [items, List.getElem?_map, Option.map_eq_none_iff, List.getElem?_eq_none_iff,
        List.length_range]
      omega
    rw [short, if_neg (by omega), beyond]

variable {wanted : Item → Bool} {array : Packed Item}

theorem findFrom_some {index left found : Nat}
    (hit : findFrom array wanted index left = some found) :
    index ≤ found ∧ found < index + left ∧ wanted (array.slot found) = true ∧
      ∀ i, index ≤ i → i < found → wanted (array.slot i) = false := by
  induction left generalizing index with
  | zero => simp [findFrom] at hit
  | succ left ih =>
    rw [findFrom] at hit
    by_cases here : wanted (array.slot index) = true
    · rw [if_pos here] at hit
      have same : index = found := Option.some.inj hit
      subst same
      exact ⟨Nat.le_refl _, by omega, here, by omega⟩
    · rw [if_neg here] at hit
      obtain ⟨low, high, hitHere, before⟩ := ih hit
      refine ⟨by omega, by omega, hitHere, ?_⟩
      intro i low' high'
      by_cases first : i = index
      · subst first; simpa using here
      · exact before i (by omega) high'

theorem findFrom_none {index left : Nat}
    (miss : findFrom array wanted index left = none) (i : Nat)
    (low : index ≤ i) (high : i < index + left) : wanted (array.slot i) = false := by
  induction left generalizing index with
  | zero => omega
  | succ left ih =>
    rw [findFrom] at miss
    by_cases here : wanted (array.slot index) = true
    · simp [here] at miss
    · rw [if_neg here] at miss
      by_cases first : i = index
      · subst first; simpa using here
      · exact ih miss (by omega) (by omega)

theorem find_none
    (miss : find array wanted = none) : ∀ item ∈ items array, wanted item = false := by
  intro item member
  obtain ⟨i, inside, rfl⟩ := List.mem_map.mp member
  exact findFrom_none miss i (Nat.zero_le i) (by simpa using List.mem_range.mp inside)

theorem find_some {found : Nat}
    (hit : find array wanted = some found) :
    found < array.count ∧ wanted (array.slot found) = true := by
  obtain ⟨_, high, hitHere, _⟩ := findFrom_some hit
  exact ⟨by omega, hitHere⟩

theorem find_removed {found : Nat}
    (hit : find array wanted = some found) :
    ∃ front back, items array = front ++ array.slot found :: back ∧
      (∀ item ∈ front, wanted item = false) ∧ wanted (array.slot found) = true ∧
      items (removeAt array found) = front ++ back := by
  obtain ⟨_, high, hitHere, before⟩ := findFrom_some hit
  have inside : found < array.count := by omega
  have place : (items array)[found]? = some (array.slot found) := items_get array found inside
  have isAt : found < (items array).length := by simpa using inside
  refine ⟨(items array).take found, (items array).drop (found + 1), ?_, ?_, hitHere, ?_⟩
  · have value : (items array)[found] = array.slot found := by
      rw [List.getElem?_eq_getElem isAt] at place
      exact Option.some.inj place
    rw [← value, List.getElem_cons_drop, List.take_append_drop]
  · intro item member
    obtain ⟨i, short, rfl⟩ := List.mem_take_iff_getElem.mp member
    have below : i < found := by omega
    have slotValue : (items array)[i] = array.slot i := by
      have placed := items_get array i (by omega)
      rw [List.getElem?_eq_getElem (by simp; omega)] at placed
      exact Option.some.inj placed
    rw [slotValue]
    exact before i (Nat.zero_le i) below
  · rw [items_removeAt array found inside, List.eraseIdx_eq_take_drop_succ]

theorem sweepFrom_items (dropped : Item → Bool) (fuel index : Nat) (array : Packed Item)
    (enough : array.count - index ≤ fuel) :
    items (sweepFrom dropped fuel index array) =
      (items array).take index ++ ((items array).drop index).filter (fun item => !dropped item) := by
  induction fuel generalizing index array with
  | zero =>
    have past : array.count ≤ index := by omega
    simp [sweepFrom, List.take_of_length_le, List.drop_eq_nil_of_le, past]
  | succ fuel ih =>
    rw [sweepFrom]
    by_cases inside : index < array.count
    · rw [if_pos inside]
      have isAt : index < (items array).length := by simpa using inside
      have value : (items array)[index] = array.slot index := by
        have place := items_get array index inside
        rw [List.getElem?_eq_getElem isAt] at place
        exact Option.some.inj place
      have split : (items array).drop index = array.slot index :: (items array).drop (index + 1) := by
        rw [← value, List.getElem_cons_drop]
      by_cases out : dropped (array.slot index) = true
      · rw [if_pos out, ih index (removeAt array index) (by simp [removeAt]; omega),
          items_removeAt array index inside, List.eraseIdx_eq_take_drop_succ, split]
        have short : ((items array).take index).length = index := by simp; omega
        rw [List.take_append_of_le_length (by omega), List.take_of_length_le (by omega),
          List.drop_append_of_le_length (by omega), List.drop_of_length_le (by omega)]
        simp [out]
      · rw [if_neg out, ih (index + 1) array (by omega), split, List.take_succ_eq_append_getElem isAt,
          value]
        simp [out]
    · rw [if_neg inside]
      have past : array.count ≤ index := by omega
      simp [List.take_of_length_le, List.drop_eq_nil_of_le, past]

@[simp] theorem sweep_items (dropped : Item → Bool) (array : Packed Item) :
    items (sweep dropped array) = (items array).filter (fun item => !dropped item) := by
  simp [sweep, sweepFrom_items dropped array.count 0 array (by omega)]

theorem items_put (array : Packed Item) (index : Nat) (item : Item) :
    items (put array index item) = (items array).set index item := by
  apply List.ext_getElem?
  intro i
  rw [List.getElem?_set]
  by_cases inside : i < array.count
  · have placed : (items (put array index item))[i]? = some ((put array index item).slot i) :=
      items_get _ i inside
    rw [placed]
    by_cases here : index = i
    · subst here
      simp [put, inside]
    · rw [if_neg here, items_get array i inside]
      simp [put, Ne.symm here]
  · have before : (items array)[i]? = none := by simpa [items] using inside
    have after : (items (put array index item))[i]? = none := by
      simpa [items, put] using inside
    rw [before, after]
    split
    · rename_i here
      rw [if_neg]
      rw [items_length, here]
      exact inside
    · rfl

theorem items_around (array : Packed Item) {index : Nat} (inside : index < array.count) :
    ∃ rest, (items array).Perm (array.slot index :: rest) ∧
      (∀ item, (items (put array index item)).Perm (item :: rest)) ∧
      (items (swapOut array index)).Perm rest := by
  have isAt : index < (items array).length := by simpa using inside
  have value : (items array)[index] = array.slot index := by
    have placed := items_get array index inside
    rw [List.getElem?_eq_getElem isAt] at placed
    exact Option.some.inj placed
  have whole : (items array).Perm (array.slot index :: (items array).eraseIdx index) := by
    rw [← value]
    exact (List.getElem_cons_eraseIdx_perm isAt).symm
  refine ⟨(items array).eraseIdx index, whole, ?_, ?_⟩
  · intro item
    rw [items_put]
    exact List.set_perm_cons_eraseIdx isAt item
  · obtain ⟨left, count⟩ : ∃ left, array.count = left + 1 := ⟨array.count - 1, by omega⟩
    -- the last slot goes with its old content or is copied down first
    have front : items array = items { array with count := left } ++ [array.slot left] := by
      simp [items, count, List.range_succ]
    have swapped : swapOut array index = put { array with count := left } index (array.slot left) := by
      simp [swapOut, put, count]
    rw [swapped, items_put, front]
    have long : (items { array with count := left }).length = left := by simp
    by_cases last : index = left
    · subst last
      rw [List.set_eq_of_length_le (by simp), List.eraseIdx_append_of_length_le (by simp), long]
      simp
    · have within : index < (items { array with count := left }).length := by
        rw [long]
        omega
      rw [List.eraseIdx_append_of_lt_length within]
      exact (List.set_perm_cons_eraseIdx within _).trans (List.perm_append_singleton _ _).symm

end Compact
