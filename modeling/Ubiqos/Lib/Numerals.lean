import Mathlib.Data.Nat.Digits.Lemmas

/-!
Numerals with the high digit first, as they are written and read. Reading goes from
left to right, and what has been read is multiplied by the base for each digit more.
-/

namespace Numerals

variable {base : Nat}

def readFrom (base value : Nat) (digits : List Nat) : Nat :=
  digits.foldl (fun value digit => value * base + digit) value

def read (base : Nat) (digits : List Nat) : Nat := readFrom base 0 digits

def significant (base value : Nat) : List Nat := (Nat.digits base value).reverse

def write (base value : Nat) : List Nat := if value = 0 then [0] else significant base value

theorem readFrom_append (value : Nat) (first second : List Nat) :
    readFrom base value (first ++ second) = readFrom base (readFrom base value first) second :=
  List.foldl_append

theorem readFrom_eq (value : Nat) (digits : List Nat) :
    readFrom base value digits = value * base ^ digits.length + read base digits := by
  induction digits generalizing value with
  | nil => simp [readFrom, read]
  | cons digit rest ih =>
    have first : readFrom base value (digit :: rest) = readFrom base (value * base + digit) rest := rfl
    have alone : read base (digit :: rest) = readFrom base (0 * base + digit) rest := rfl
    rw [first, alone, ih, ih, List.length_cons, Nat.pow_succ]
    ring

theorem read_append (first second : List Nat) :
    read base (first ++ second) = read base first * base ^ second.length + read base second := by
  rw [read, readFrom_append, readFrom_eq]
  rfl

theorem read_reverse (digits : List Nat) : read base digits.reverse = Nat.ofDigits base digits := by
  induction digits with
  | nil => rfl
  | cons digit rest ih =>
    rw [List.reverse_cons, read_append, ih, Nat.ofDigits_cons]
    simp [read, readFrom]
    ring

@[simp] theorem significant_zero : significant base 0 = [] := by simp [significant]

theorem significant_pos (above : 1 < base) {value : Nat} (some : value ≠ 0) :
    significant base value = significant base (value / base) ++ [value % base] := by
  rw [significant, Nat.digits_def' above (Nat.pos_of_ne_zero some), List.reverse_cons]
  rfl

theorem length_significant_le (above : 1 < base) {value count : Nat} (small : value < base ^ count) :
    (significant base value).length ≤ count := by
  rw [significant, List.length_reverse]
  exact (Nat.digits_length_le_iff above value).mpr small

@[simp] theorem read_write (value : Nat) : read base (write base value) = value := by
  unfold write
  split
  · rename_i zero
    simp [zero, read, readFrom]
  · rw [significant, read_reverse, Nat.ofDigits_digits]

theorem write_lt (above : 1 < base) (value : Nat) : ∀ digit ∈ write base value, digit < base := by
  intro digit member
  unfold write at member
  split at member
  · rw [List.mem_singleton.mp member]
    omega
  · exact Nat.digits_lt_base above (List.mem_reverse.mp member)

theorem write_ne_nil (value : Nat) : write base value ≠ [] := by
  unfold write
  split
  · simp
  · rename_i some
    simpa [significant] using Nat.digits_ne_nil_iff_ne_zero.mpr some

theorem length_write_le (above : 1 < base) {value count : Nat} (positive : 0 < count)
    (small : value < base ^ count) : (write base value).length ≤ count := by
  unfold write
  split
  · exact positive
  · exact length_significant_le above small

@[simp] theorem read_zeros (count : Nat) (digits : List Nat) :
    read base (List.replicate count 0 ++ digits) = read base digits := by
  have zeros : read base (List.replicate count 0) = 0 := by
    induction count with
    | zero => rfl
    | succ count ih => 
      rw [List.replicate_succ', read_append, ih]
      simp [read, readFrom]
  rw [read_append, zeros, Nat.zero_mul, Nat.zero_add]

theorem read_take_le (positive : 0 < base) (digits : List Nat) (count : Nat) :
    read base (digits.take count) ≤ read base digits := by
  conv_rhs => rw [← List.take_append_drop count digits, read_append]
  exact (Nat.le_mul_of_pos_right _ (Nat.pow_pos positive)).trans (Nat.le_add_right _ _)

theorem read_take_lt (above : 1 < base) {digits : List Nat} {count : Nat}
    (short : count < digits.length) (some : read base digits ≠ 0) :
    read base (digits.take count) < read base digits := by
  have whole : read base digits =
      read base (digits.take count) * base ^ (digits.drop count).length +
        read base (digits.drop count) := by
    rw [← read_append, List.take_append_drop]
  have grows : base ≤ base ^ (digits.drop count).length := by
    apply Nat.le_self_pow
    rw [List.length_drop]
    omega
  rcases Nat.eq_zero_or_pos (read base (digits.take count)) with zero | positive
  · rw [zero]
    exact Nat.pos_of_ne_zero some
  · have twice := Nat.mul_le_mul_left (read base (digits.take count)) (Nat.le_trans above grows)
    omega

end Numerals
