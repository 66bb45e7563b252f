import Ubiqos.Crypto.Poly
import Mathlib.Data.Nat.ModEq
import Mathlib.Algebra.BigOperators.Group.Finset.Basic

/-!
What the limbs stand for. A block takes the accumulator to its sum with the block times
`r`, up to multiples of the prime; no word and no product overflows on the way, and the
limbs come out small again.
-/

namespace Ubiqos.Crypto

def prime : Nat := 2 ^ 130 - 5

theorem prime_eq : prime = 1361129467683753853853498429727072845819 := by norm_num [prime]

def number (m : Nat → Byte) : Nat → Nat
  | 0 => 0
  | n + 1 => number m n + (m n).toNat * 2 ^ (8 * n)

def Limbs.value (h : Limbs) : Nat :=
  h.l0.toNat + 2 ^ 26 * h.l1.toNat + 2 ^ 52 * h.l2.toNat + 2 ^ 78 * h.l3.toNat + 2 ^ 104 * h.l4.toNat

structure Limbs.Small (h : Limbs) : Prop where
  l0 : h.l0.toNat < 2 ^ 26
  l1 : h.l1.toNat < 2 ^ 26 + 2 ^ 6
  l2 : h.l2.toNat < 2 ^ 26
  l3 : h.l3.toNat < 2 ^ 26
  l4 : h.l4.toNat < 2 ^ 26

section Words
variable {w k : Nat}

theorem or_shift (a b : BitVec w) (small : a.toNat < 2 ^ k) :
    (a ||| b <<< k).toNat = (a.toNat + b.toNat * 2 ^ k) % 2 ^ w := by
  rw [BitVec.toNat_or, BitVec.toNat_shiftLeft, ← Nat.mod_eq_of_lt a.isLt, ← Nat.or_mod_two_pow,
    Nat.or_comm, ← Nat.shiftLeft_add_eq_or_of_lt small, Nat.shiftLeft_eq, Nat.add_comm,
    Nat.mod_eq_of_lt a.isLt]

theorem shifted (a : BitVec w) : (a >>> k).toNat = a.toNat / 2 ^ k := by
  rw [BitVec.toNat_ushiftRight, Nat.shiftRight_eq_div_pow]

theorem masked (a : U32) : (a &&& 0x3ffffff).toNat = a.toNat % 2 ^ 26 := by
  rw [BitVec.toNat_and]
  exact Nat.and_two_pow_sub_one_eq_mod _ 26

theorem added {a b : BitVec w} (small : a.toNat + b.toNat < 2 ^ w) :
    (a + b).toNat = a.toNat + b.toNat := by
  rw [BitVec.toNat_add, Nat.mod_eq_of_lt small]

theorem mul_toNat (a b : U32) : (mul a b).toNat = a.toNat * b.toNat := by
  have wide : ∀ x : U32, (x.setWidth 64).toNat = x.toNat := by
    intro x
    have small := x.isLt
    rw [BitVec.toNat_setWidth, Nat.mod_eq_of_lt (by omega)]
  have small : a.toNat * b.toNat < 2 ^ 64 := by
    calc a.toNat * b.toNat < 2 ^ 32 * 2 ^ 32 := Nat.mul_lt_mul'' a.isLt b.isLt
      _ = 2 ^ 64 := by norm_num
  rw [mul, BitVec.toNat_mul, wide, wide, Nat.mod_eq_of_lt small]

variable (m : Nat → Byte)

theorem word_number (i : Nat) :
    (word m i).toNat = (m i).toNat + 2 ^ 8 * (m (i + 1)).toNat + 2 ^ 16 * (m (i + 2)).toNat +
      2 ^ 24 * (m (i + 3)).toNat := by
  have wide : ∀ b : Byte, (b.setWidth 32).toNat = b.toNat ∧ b.toNat < 2 ^ 8 := by
    intro b
    have small := b.isLt
    exact ⟨by rw [BitVec.toNat_setWidth, Nat.mod_eq_of_lt (by omega)], small⟩
  obtain ⟨first, small0⟩ := wide (m i)
  obtain ⟨second, small1⟩ := wide (m (i + 1))
  obtain ⟨third, small2⟩ := wide (m (i + 2))
  obtain ⟨fourth, small3⟩ := wide (m (i + 3))
  have two := or_shift ((m i).setWidth 32) ((m (i + 1)).setWidth 32) (k := 8) (by omega)
  rw [first, second] at two
  have three := or_shift ((m i).setWidth 32 ||| (m (i + 1)).setWidth 32 <<< 8)
    ((m (i + 2)).setWidth 32) (k := 16) (by omega)
  rw [two, third] at three
  have whole := or_shift ((m i).setWidth 32 ||| (m (i + 1)).setWidth 32 <<< 8 |||
    (m (i + 2)).setWidth 32 <<< 16) ((m (i + 3)).setWidth 32) (k := 24) (by omega)
  rw [three, fourth] at whole
  rw [word, whole]
  omega

theorem number_words : number m 16 = (word m 0).toNat + 2 ^ 32 * (word m 4).toNat +
    2 ^ 64 * (word m 8).toNat + 2 ^ 96 * (word m 12).toNat := by
  simp only [word_number, number]
  ring

theorem number_lt (n : Nat) : number m n < 2 ^ (8 * n) := by
  induction n with
  | zero => simp [number]
  | succ n ih =>
    have small := (m n).isLt
    have top : (m n).toNat * 2 ^ (8 * n) ≤ 255 * 2 ^ (8 * n) := Nat.mul_le_mul_right _ (by omega)
    have next : 2 ^ (8 * (n + 1)) = 256 * 2 ^ (8 * n) := by rw [Nat.mul_succ, Nat.pow_add]; ring
    rw [number, next]
    omega

theorem number_congr {m other : Nat → Byte} {n : Nat} (same : ∀ j < n, m j = other j) :
    number m n = number other n := by
  induction n with
  | zero => rfl
  | succ n ih => rw [number, number, same n (by omega), ih fun j small => same j (by omega)]

theorem digits :
    (word m 0).toNat % 2 ^ 26 = number m 16 % 2 ^ 26 ∧
    (word m 0 >>> 26 ||| word m 4 <<< 6).toNat = number m 16 / 2 ^ 26 % 2 ^ 32 ∧
    (word m 4 >>> 20 ||| word m 8 <<< 12).toNat = number m 16 / 2 ^ 52 % 2 ^ 32 ∧
    (word m 8 >>> 14 ||| word m 12 <<< 18).toNat = number m 16 / 2 ^ 78 % 2 ^ 32 ∧
    (word m 12 >>> 8).toNat = number m 16 / 2 ^ 104 := by
  have t0 := (word m 0).isLt
  have t1 := (word m 4).isLt
  have t2 := (word m 8).isLt
  have whole := number_words m
  have first := shifted (word m 0) (k := 26)
  have second := shifted (word m 4) (k := 20)
  have third := shifted (word m 8) (k := 14)
  have one := or_shift (word m 0 >>> 26) (word m 4) (k := 6) (by omega)
  have two := or_shift (word m 4 >>> 20) (word m 8) (k := 12) (by omega)
  have three := or_shift (word m 8 >>> 14) (word m 12) (k := 18) (by omega)
  have four := shifted (word m 12) (k := 8)
  refine ⟨by omega, ?_, ?_, ?_, by omega⟩
  · rw [one, first, whole]
    omega
  · rw [two, second, whole]
    omega
  · rw [three, third, whole]
    omega

end Words

section Blocks
variable {h r : Limbs}

structure Limbs.Full (h : Limbs) : Prop where
  l0 : h.l0.toNat < 2 ^ 27
  l1 : h.l1.toNat < 2 ^ 27 + 2 ^ 6
  l2 : h.l2.toNat < 2 ^ 27
  l3 : h.l3.toNat < 2 ^ 27
  l4 : h.l4.toNat < 2 ^ 27

def hibit : U32 := (1 : U32) <<< 24

theorem absorb_spec (small : h.Small) (m : Nat → Byte) :
    (absorb hibit h m).Full ∧
      (absorb hibit h m).value = h.value + number m 16 + 2 ^ 128 := by
  obtain ⟨s0, s1, s2, s3, s4⟩ := small
  obtain ⟨d0, d1, d2, d3, d4⟩ := digits m
  have bound := number_lt m 16
  have top : (word m 12 >>> 8 ||| hibit).toNat = number m 16 / 2 ^ 104 + 2 ^ 24 := by
    have high := or_shift (word m 12 >>> 8) 1 (k := 24) (by omega)
    have one : (1 : U32).toNat = 1 := rfl
    rw [d4, one] at high
    rw [hibit, high]
    omega
  have e0 := added (a := h.l0) (b := word m 0 &&& 0x3ffffff) (by rw [masked]; omega)
  have e1 := added (a := h.l1) (b := (word m 0 >>> 26 ||| word m 4 <<< 6) &&& 0x3ffffff)
    (by rw [masked]; omega)
  have e2 := added (a := h.l2) (b := (word m 4 >>> 20 ||| word m 8 <<< 12) &&& 0x3ffffff)
    (by rw [masked]; omega)
  have e3 := added (a := h.l3) (b := (word m 8 >>> 14 ||| word m 12 <<< 18) &&& 0x3ffffff)
    (by rw [masked]; omega)
  have e4 := added (a := h.l4) (b := word m 12 >>> 8 ||| hibit) (by omega)
  rw [masked, d0] at e0
  rw [masked, d1] at e1
  rw [masked, d2] at e2
  rw [masked, d3] at e3
  rw [top] at e4
  constructor
  · constructor <;> simp only [absorb] <;> omega
  · simp only [Limbs.value, absorb, e0, e1, e2, e3, e4]
    omega

structure Limbs.Digits (r : Limbs) : Prop where
  l0 : r.l0.toNat < 2 ^ 26
  l1 : r.l1.toNat < 2 ^ 26
  l2 : r.l2.toNat < 2 ^ 26
  l3 : r.l3.toNat < 2 ^ 26
  l4 : r.l4.toNat < 2 ^ 26

/-- What is carried out of a product fits a word, and five times what is carried out of
the last one. -/
structure Products.Fit (d : Products) : Prop where
  d0 : d.d0.toNat < 22 * 2 ^ 53
  d1 : d.d1.toNat < 22 * 2 ^ 53
  d2 : d.d2.toNat < 22 * 2 ^ 53
  d3 : d.d3.toNat < 22 * 2 ^ 53
  d4 : d.d4.toNat < 5 * 2 ^ 53 + 2 ^ 35

def Products.value (d : Products) : Nat :=
  d.d0.toNat + 2 ^ 26 * d.d1.toNat + 2 ^ 52 * d.d2.toNat + 2 ^ 78 * d.d3.toNat + 2 ^ 104 * d.d4.toNat

theorem summed {a b c d e : U64}
    (small : a.toNat + b.toNat + c.toNat + d.toNat + e.toNat < 2 ^ 64) :
    (a + b + c + d + e).toNat = a.toNat + b.toNat + c.toNat + d.toNat + e.toNat := by
  have two := added (a := a) (b := b) (by omega)
  have three := added (a := a + b) (b := c) (by omega)
  have four := added (a := a + b + c) (b := d) (by omega)
  rw [added (by omega), four, three, two]

theorem multiply_spec (full : h.Full) (digits : r.Digits) :
    (multiply h r).Fit ∧ (multiply h r).value ≡ h.value * r.value [MOD prime] := by
  obtain ⟨f0, f1, f2, f3, f4⟩ := full
  obtain ⟨r0, r1, r2, r3, r4⟩ := digits
  have fives : ∀ x : U32, x.toNat < 2 ^ 26 → (x * 5).toNat = x.toNat * 5 := by
    intro x small
    have five : (5 : U32).toNat = 5 := rfl
    rw [BitVec.toNat_mul, five, Nat.mod_eq_of_lt (by omega)]
  have once : ∀ x y : U32, x.toNat < 2 ^ 27 + 2 ^ 6 → y.toNat < 2 ^ 26 →
      x.toNat * y.toNat ≤ 2 ^ 53 + 2 ^ 32 := by
    intro x y left right
    calc x.toNat * y.toNat ≤ (2 ^ 27 + 2 ^ 6) * 2 ^ 26 := Nat.mul_le_mul left.le right.le
      _ = 2 ^ 53 + 2 ^ 32 := by norm_num
  have bound : ∀ i ∈ [h.l0, h.l1, h.l2, h.l3, h.l4], ∀ j ∈ [r.l0, r.l1, r.l2, r.l3, r.l4],
      i.toNat * j.toNat ≤ 2 ^ 53 + 2 ^ 32 := by
    intro i left j right
    apply once
    · simp only [List.mem_cons, List.not_mem_nil, or_false] at left
      rcases left with rfl | rfl | rfl | rfl | rfl <;> omega
    · simp only [List.mem_cons, List.not_mem_nil, or_false] at right
      rcases right with rfl | rfl | rfl | rfl | rfl <;> assumption
  simp only [List.forall_mem_cons, List.not_mem_nil, false_implies, implies_true, and_true] at bound
  obtain ⟨⟨b00, b01, b02, b03, b04⟩, ⟨b10, b11, b12, b13, b14⟩, ⟨b20, b21, b22, b23, b24⟩,
    ⟨b30, b31, b32, b33, b34⟩, ⟨b40, b41, b42, b43, b44⟩⟩ := bound
  have e0 : (multiply h r).d0.toNat = h.l0.toNat * r.l0.toNat + h.l1.toNat * r.l4.toNat * 5 +
      h.l2.toNat * r.l3.toNat * 5 + h.l3.toNat * r.l2.toNat * 5 + h.l4.toNat * r.l1.toNat * 5 := by
    have whole := @summed (mul h.l0 r.l0) (mul h.l1 (r.l4 * 5)) (mul h.l2 (r.l3 * 5))
      (mul h.l3 (r.l2 * 5)) (mul h.l4 (r.l1 * 5))
    simp only [mul_toNat, fives _ r1, fives _ r2, fives _ r3, fives _ r4, ← Nat.mul_assoc] at whole
    exact whole (by omega)
  have e1 : (multiply h r).d1.toNat = h.l0.toNat * r.l1.toNat + h.l1.toNat * r.l0.toNat +
      h.l2.toNat * r.l4.toNat * 5 + h.l3.toNat * r.l3.toNat * 5 + h.l4.toNat * r.l2.toNat * 5 := by
    have whole := @summed (mul h.l0 r.l1) (mul h.l1 r.l0) (mul h.l2 (r.l4 * 5))
      (mul h.l3 (r.l3 * 5)) (mul h.l4 (r.l2 * 5))
    simp only [mul_toNat, fives _ r2, fives _ r3, fives _ r4, ← Nat.mul_assoc] at whole
    exact whole (by omega)
  have e2 : (multiply h r).d2.toNat = h.l0.toNat * r.l2.toNat + h.l1.toNat * r.l1.toNat +
      h.l2.toNat * r.l0.toNat + h.l3.toNat * r.l4.toNat * 5 + h.l4.toNat * r.l3.toNat * 5 := by
    have whole := @summed (mul h.l0 r.l2) (mul h.l1 r.l1) (mul h.l2 r.l0)
      (mul h.l3 (r.l4 * 5)) (mul h.l4 (r.l3 * 5))
    simp only [mul_toNat, fives _ r3, fives _ r4, ← Nat.mul_assoc] at whole
    exact whole (by omega)
  have e3 : (multiply h r).d3.toNat = h.l0.toNat * r.l3.toNat + h.l1.toNat * r.l2.toNat +
      h.l2.toNat * r.l1.toNat + h.l3.toNat * r.l0.toNat + h.l4.toNat * r.l4.toNat * 5 := by
    have whole := @summed (mul h.l0 r.l3) (mul h.l1 r.l2) (mul h.l2 r.l1)
      (mul h.l3 r.l0) (mul h.l4 (r.l4 * 5))
    simp only [mul_toNat, fives _ r4, ← Nat.mul_assoc] at whole
    exact whole (by omega)
  have e4 : (multiply h r).d4.toNat = h.l0.toNat * r.l4.toNat + h.l1.toNat * r.l3.toNat +
      h.l2.toNat * r.l2.toNat + h.l3.toNat * r.l1.toNat + h.l4.toNat * r.l0.toNat := by
    have whole := @summed (mul h.l0 r.l4) (mul h.l1 r.l3) (mul h.l2 r.l2) (mul h.l3 r.l1)
      (mul h.l4 r.l0)
    simp only [mul_toNat] at whole
    exact whole (by omega)
  constructor
  · constructor <;> omega
  · -- the terms above the top limb, divided by its weight
    have whole : h.value * r.value = (multiply h r).value + prime * (h.l1.toNat * r.l4.toNat +
        h.l2.toNat * r.l3.toNat + h.l3.toNat * r.l2.toNat + h.l4.toNat * r.l1.toNat +
        2 ^ 26 * (h.l2.toNat * r.l4.toNat + h.l3.toNat * r.l3.toNat + h.l4.toNat * r.l2.toNat) +
        2 ^ 52 * (h.l3.toNat * r.l4.toNat + h.l4.toNat * r.l3.toNat) +
        2 ^ 78 * (h.l4.toNat * r.l4.toNat)) := by
      rw [prime_eq, Products.value, e0, e1, e2, e3, e4, Limbs.value, Limbs.value]
      ring
    rw [whole]
    exact (Nat.add_mul_mod_self_left _ _ _).symm

theorem low_toNat (d : U64) : (low d).toNat = d.toNat % 2 ^ 26 := by
  rw [low, masked, BitVec.toNat_setWidth, Nat.mod_mod_of_dvd _ (by norm_num)]

theorem carried_toNat {d : U64} (small : d.toNat < 2 ^ 58) : (carried d).toNat = d.toNat / 2 ^ 26 := by
  rw [carried, BitVec.toNat_setWidth, shifted, Nat.mod_eq_of_lt (by omega)]

theorem passed {d e : U64} (first : d.toNat < 2 ^ 58) (second : e.toNat < 22 * 2 ^ 53) :
    (e + (carried d).setWidth 64).toNat = e.toNat + d.toNat / 2 ^ 26 := by
  have wide : ((carried d).setWidth 64).toNat = d.toNat / 2 ^ 26 := by
    rw [BitVec.toNat_setWidth, carried_toNat first, Nat.mod_eq_of_lt (by omega)]
  rw [added (by omega), wide]

theorem carry_spec {d : Products} (fit : d.Fit) :
    (carry d).Small ∧ (carry d).value ≡ d.value [MOD prime] := by
  obtain ⟨f0, f1, f2, f3, f4⟩ := fit
  have e1 := passed (d := d.d0) (e := d.d1) (by omega) f1
  simp only [carry]
  generalize d.d1 + (carried d.d0).setWidth 64 = d1 at e1 ⊢
  have e2 := passed (d := d1) (e := d.d2) (by omega) f2
  generalize d.d2 + (carried d1).setWidth 64 = d2 at e2 ⊢
  have e3 := passed (d := d2) (e := d.d3) (by omega) f3
  generalize d.d3 + (carried d2).setWidth 64 = d3 at e3 ⊢
  have e4 := passed (d := d3) (e := d.d4) (by omega) (by omega)
  generalize d.d4 + (carried d3).setWidth 64 = d4 at e4 ⊢
  have excess : (carried d4).toNat = d4.toNat / 2 ^ 26 := carried_toNat (by omega)
  have times : (carried d4 * 5).toNat = d4.toNat / 2 ^ 26 * 5 := by
    have five : (5 : U32).toNat = 5 := rfl
    rw [BitVec.toNat_mul, excess, five, Nat.mod_eq_of_lt (by omega)]
  have lows : ∀ d : U64, (low d).toNat < 2 ^ 26 := fun d => by
    rw [low_toNat]
    exact Nat.mod_lt _ (by norm_num)
  have bottom : (low d.d0 + carried d4 * 5).toNat = d.d0.toNat % 2 ^ 26 + d4.toNat / 2 ^ 26 * 5 := by
    rw [added (by have := lows d.d0; omega), low_toNat, times]
  generalize low d.d0 + carried d4 * 5 = h0 at bottom ⊢
  have up := shifted h0 (k := 26)
  have second : (low d1 + h0 >>> 26).toNat = d1.toNat % 2 ^ 26 + h0.toNat / 2 ^ 26 := by
    rw [added (by have := lows d1; omega), low_toNat, up]
  constructor
  · refine ⟨?_, ?_, lows _, lows _, lows _⟩
    · rw [masked]
      exact Nat.mod_lt _ (by norm_num)
    · rw [second]
      omega
  · -- the carry out of the top weighs the prime and five, and comes back as five
    have whole : d.value = h0.toNat % 2 ^ 26 + 2 ^ 26 * (d1.toNat % 2 ^ 26 + h0.toNat / 2 ^ 26) +
        2 ^ 52 * (d2.toNat % 2 ^ 26) + 2 ^ 78 * (d3.toNat % 2 ^ 26) + 2 ^ 104 * (d4.toNat % 2 ^ 26) +
        prime * (d4.toNat / 2 ^ 26) := by
      rw [prime_eq, Products.value]
      omega
    rw [whole, Limbs.value, masked, second, low_toNat, low_toNat, low_toNat]
    exact (Nat.add_mul_mod_self_left _ _ _).symm

/-- The `i`-th block of sixteen bytes. -/
def block (m : Nat → Byte) (i : Nat) : Nat := number (fun j => m (16 * i + j)) 16

def weighed (r : Nat) (blocks : Nat → Nat) (n : Nat) : Nat :=
  ∑ i ∈ Finset.range n, (blocks i + 2 ^ 128) * r ^ (n - i)

theorem weighed_first (r : Nat) (blocks : Nat → Nat) (n : Nat) :
    weighed r blocks (n + 1) =
      (blocks 0 + 2 ^ 128) * r ^ (n + 1) + weighed r (fun i => blocks (i + 1)) n := by
  rw [weighed, Finset.sum_range_succ', weighed, Nat.sub_zero, Nat.add_comm]
  simp only [Nat.add_sub_add_right]

theorem polyLoop_spec (digits : r.Digits) (n : Nat) (m : Nat → Byte) (small : h.Small) :
    (polyLoop hibit r n m h).Small ∧
      (polyLoop hibit r n m h).value ≡ h.value * r.value ^ n + weighed r.value (block m) n [MOD prime] := by
  induction n generalizing m h with
  | zero => exact ⟨small, by simp [polyLoop, weighed, Nat.ModEq]⟩
  | succ n ih =>
    obtain ⟨full, absorbed⟩ := absorb_spec small m
    obtain ⟨fit, product⟩ := multiply_spec full digits
    obtain ⟨next, value⟩ := carry_spec fit
    obtain ⟨last, whole⟩ := ih (fun i => m (16 + i)) next
    refine ⟨last, ?_⟩
    have first : block m 0 = number m 16 := by simp [block]
    have later : block (fun i => m (16 + i)) = fun i => block m (i + 1) := by
      funext i
      simp only [block, ← Nat.add_assoc, Nat.mul_add, Nat.mul_one, Nat.add_comm]
    rw [later] at whole
    rw [weighed_first, first, ← Nat.add_assoc]
    refine whole.trans (Nat.ModEq.add_right _ ?_)
    have here := ((value.trans product).mul_right (r.value ^ n))
    rw [absorbed] at here
    have split' : h.value * r.value ^ (n + 1) + (number m 16 + 2 ^ 128) * r.value ^ (n + 1) =
        (h.value + number m 16 + 2 ^ 128) * r.value * r.value ^ n := by ring
    rw [split']
    exact here

theorem polyLoop_append (bit : U32) (a b : Nat) (m : Nat → Byte) :
    polyLoop bit r (a + b) m h = polyLoop bit r b (fun i => m (16 * a + i)) (polyLoop bit r a m h) := by
  induction a generalizing m h with
  | zero => simp [polyLoop]
  | succ a ih =>
    rw [Nat.succ_add, polyLoop, ih, polyLoop]
    simp only [← Nat.add_assoc, Nat.mul_succ, Nat.add_comm]

theorem word_congr {m other : Nat → Byte} {i : Nat} (same : ∀ j < i + 4, m j = other j) :
    word m i = word other i := by
  rw [word, word, same i (by omega), same (i + 1) (by omega), same (i + 2) (by omega),
    same (i + 3) (by omega)]

theorem polyLoop_congr (bit : U32) {n : Nat} {m other : Nat → Byte}
    (same : ∀ i < 16 * n, m i = other i) : polyLoop bit r n m h = polyLoop bit r n other h := by
  induction n generalizing m other h with
  | zero => rfl
  | succ n ih =>
    have here : absorb bit h m = absorb bit h other := by
      have agree : ∀ i ≤ 12, word m i = word other i := fun i low =>
        word_congr fun j small => same j (by omega)
      simp only [absorb, agree 0 (by omega), agree 4 (by omega), agree 8 (by omega),
        agree 12 (by omega)]
    rw [polyLoop, polyLoop, here]
    exact ih fun i small => same (16 + i) (by omega)

end Blocks

def clamp (x : Nat) : Nat := x &&& 0x0ffffffc0ffffffc0ffffffc0fffffff

theorem clamp_lt (x : Nat) : clamp x < 2 ^ 128 := by
  rw [clamp]
  exact Nat.and_lt_two_pow x (by norm_num)

theorem clamp_digit (x k mask : Nat) (digit : 0x0ffffffc0ffffffc0ffffffc0fffffff / 2 ^ k % 2 ^ 26 = mask)
    (small : mask < 2 ^ 26) : clamp x / 2 ^ k % 2 ^ 26 = x / 2 ^ k % 2 ^ 32 &&& mask := by
  have narrow : mask % 2 ^ 32 = mask := Nat.mod_eq_of_lt (by omega)
  have inside : x / 2 ^ k % 2 ^ 32 &&& mask < 2 ^ 26 := Nat.and_lt_two_pow _ small
  have again : (x / 2 ^ k &&& mask) % 2 ^ 32 % 2 ^ 26 = (x / 2 ^ k &&& mask) % 2 ^ 26 :=
    Nat.mod_mod_of_dvd _ (by norm_num)
  rw [clamp, Nat.and_div_two_pow, Nat.and_mod_two_pow, digit, ← Nat.mod_eq_of_lt inside]
  rw [Nat.and_mod_two_pow, narrow] at again
  rw [again, Nat.and_mod_two_pow, Nat.mod_eq_of_lt small]

theorem polyInit_spec (key : Nat → Byte) :
    (polyInit key).r.Digits ∧ (polyInit key).r.value = clamp (number key 16) := by
  obtain ⟨_, d1, d2, d3, d4⟩ := digits key
  have bound := number_lt key 16
  have whole := number_words key
  have low : ∀ n : Nat, n < 2 ^ 32 → (BitVec.ofNat 32 n).toNat = n := fun n small => by
    rw [BitVec.toNat_ofNat, Nat.mod_eq_of_lt small]
  have r0 : (polyInit key).r.l0.toNat = clamp (number key 16) / 2 ^ 0 % 2 ^ 26 := by
    have digit : (word key 0).toNat = number key 16 / 2 ^ 0 % 2 ^ 32 := by omega
    rw [clamp_digit _ 0 0x3ffffff (by norm_num) (by norm_num), ← digit, ← low 0x3ffffff (by norm_num)]
    exact BitVec.toNat_and _ _
  have r1 : (polyInit key).r.l1.toNat = clamp (number key 16) / 2 ^ 26 % 2 ^ 26 := by
    rw [clamp_digit _ 26 0x3ffff03 (by norm_num) (by norm_num), ← d1, ← low 0x3ffff03 (by norm_num)]
    exact BitVec.toNat_and _ _
  have r2 : (polyInit key).r.l2.toNat = clamp (number key 16) / 2 ^ 52 % 2 ^ 26 := by
    rw [clamp_digit _ 52 0x3ffc0ff (by norm_num) (by norm_num), ← d2, ← low 0x3ffc0ff (by norm_num)]
    exact BitVec.toNat_and _ _
  have r3 : (polyInit key).r.l3.toNat = clamp (number key 16) / 2 ^ 78 % 2 ^ 26 := by
    rw [clamp_digit _ 78 0x3f03fff (by norm_num) (by norm_num), ← d3, ← low 0x3f03fff (by norm_num)]
    exact BitVec.toNat_and _ _
  have r4 : (polyInit key).r.l4.toNat = clamp (number key 16) / 2 ^ 104 % 2 ^ 26 := by
    have digit : (word key 12 >>> 8).toNat = number key 16 / 2 ^ 104 % 2 ^ 32 := by omega
    rw [clamp_digit _ 104 0x00fffff (by norm_num) (by norm_num), ← digit, ← low 0x00fffff (by norm_num)]
    exact BitVec.toNat_and _ _
  have small := clamp_lt (number key 16)
  constructor
  · constructor <;> omega
  · rw [Limbs.value, r0, r1, r2, r3, r4]
    omega

section Finishing
variable {h g : Limbs}

theorem settle_spec (small : h.Small) :
    (settle h).Digits ∧ (settle h).value ≡ h.value [MOD prime] := by
  obtain ⟨s0, s1, s2, s3, s4⟩ := small
  have c1 := shifted h.l1 (k := 26)
  have e2 := added (a := h.l2) (b := h.l1 >>> 26) (by omega)
  simp only [settle]
  generalize h.l2 + h.l1 >>> 26 = h2 at e2 ⊢
  have c2 := shifted h2 (k := 26)
  have e3 := added (a := h.l3) (b := h2 >>> 26) (by omega)
  generalize h.l3 + h2 >>> 26 = h3 at e3 ⊢
  have c3 := shifted h3 (k := 26)
  have e4 := added (a := h.l4) (b := h3 >>> 26) (by omega)
  generalize h.l4 + h3 >>> 26 = h4 at e4 ⊢
  have c4 := shifted h4 (k := 26)
  have five : (h4 >>> 26 * 5).toNat = h4.toNat / 2 ^ 26 * 5 := by
    have five : (5 : U32).toNat = 5 := rfl
    rw [BitVec.toNat_mul, c4, five, Nat.mod_eq_of_lt (by omega)]
  have e0 := added (a := h.l0) (b := h4 >>> 26 * 5) (by omega)
  generalize h.l0 + h4 >>> 26 * 5 = h0 at e0 ⊢
  have c0 := shifted h0 (k := 26)
  have e1 : ((h.l1 &&& (0x3ffffff : U32)) + h0 >>> 26).toNat = h.l1.toNat % 2 ^ 26 + h0.toNat / 2 ^ 26 := by
    rw [added (by rw [masked]; omega), masked, c0]
  constructor
  · -- where the second limb is passed on, little of it is left to take a carry
    constructor <;> simp only [masked, e1] <;> omega
  · have whole : h.value = h0.toNat % 2 ^ 26 + 2 ^ 26 * (h.l1.toNat % 2 ^ 26 + h0.toNat / 2 ^ 26) +
        2 ^ 52 * (h2.toNat % 2 ^ 26) + 2 ^ 78 * (h3.toNat % 2 ^ 26) + 2 ^ 104 * (h4.toNat % 2 ^ 26) +
        prime * (h4.toNat / 2 ^ 26) := by
      rw [prime_eq, Limbs.value]
      omega
    rw [whole, Limbs.value, masked, e1, masked, masked, masked]
    exact (Nat.add_mul_mod_self_left _ _ _).symm

theorem Limbs.Digits.value_lt (digits : h.Digits) : h.value < 2 ^ 130 := by
  obtain ⟨d0, d1, d2, d3, d4⟩ := digits
  rw [Limbs.value]
  omega

theorem lessPrime_spec (digits : h.Digits) :
    (h.value < prime → 2 ^ 31 ≤ (lessPrime h).l4.toNat) ∧
      (prime ≤ h.value → (lessPrime h).Digits ∧ (lessPrime h).value + prime = h.value) := by
  obtain ⟨d0, d1, d2, d3, d4⟩ := digits
  have five : (5 : U32).toNat = 5 := rfl
  have one : ((1 : U32) <<< 26).toNat = 2 ^ 26 := rfl
  have e0 := added (a := h.l0) (b := 5) (by omega)
  simp only [lessPrime]
  generalize h.l0 + 5 = g0 at e0 ⊢
  have c0 := shifted g0 (k := 26)
  have e1 := added (a := h.l1) (b := g0 >>> 26) (by omega)
  generalize h.l1 + g0 >>> 26 = g1 at e1 ⊢
  have c1 := shifted g1 (k := 26)
  have e2 := added (a := h.l2) (b := g1 >>> 26) (by omega)
  generalize h.l2 + g1 >>> 26 = g2 at e2 ⊢
  have c2 := shifted g2 (k := 26)
  have e3 := added (a := h.l3) (b := g2 >>> 26) (by omega)
  generalize h.l3 + g2 >>> 26 = g3 at e3 ⊢
  have c3 := shifted g3 (k := 26)
  have e4 := added (a := h.l4) (b := g3 >>> 26) (by omega)
  have top : (h.l4 + g3 >>> 26 - (1 : U32) <<< 26).toNat =
      (2 ^ 32 - 2 ^ 26 + (h.l4.toNat + g3.toNat / 2 ^ 26)) % 2 ^ 32 := by
    rw [BitVec.toNat_sub, one, e4, c3]
  rw [prime_eq, Limbs.value, Limbs.value]
  simp only [masked, top]
  constructor
  · intro below
    omega
  · intro above
    refine ⟨⟨?_, ?_, ?_, ?_, ?_⟩, by omega⟩ <;> simp only [masked, top] <;> omega

theorem and_ones (x : U32) : x &&& 4294967295#32 = x := BitVec.and_allOnes

theorem choose_first (negative : 2 ^ 31 ≤ g.l4.toNat) : choose h g = h := by
  have bit : g.l4 >>> 31 = 1 := by
    apply BitVec.eq_of_toNat_eq
    rw [shifted]
    change g.l4.toNat / 2 ^ 31 = 1
    omega
  simp [choose, bit, and_ones]

theorem choose_second (digits : g.Digits) : choose h g = g := by
  have bit : g.l4 >>> 31 = 0 := by
    apply BitVec.eq_of_toNat_eq
    have small := digits.l4
    rw [shifted]
    change g.l4.toNat / 2 ^ 31 = 0
    omega
  simp [choose, bit, and_ones]

theorem reduced_spec (small : h.Small) :
    (choose (settle h) (lessPrime (settle h))).Digits ∧
      (choose (settle h) (lessPrime (settle h))).value = h.value % prime := by
  obtain ⟨digits, same⟩ := settle_spec small
  obtain ⟨less, more⟩ := lessPrime_spec digits
  have bound := digits.value_lt
  rw [← same]
  by_cases below : (settle h).value < prime
  · rw [choose_first (less below), Nat.mod_eq_of_lt below]
    exact ⟨digits, rfl⟩
  · obtain ⟨taken, value⟩ := more (by omega)
    rw [choose_second taken, ← value, Nat.add_mod_right, Nat.mod_eq_of_lt]
    · exact ⟨taken, rfl⟩
    · rw [prime_eq] at value ⊢
      omega

theorem wide_toNat (x : U32) : (x.setWidth 64).toNat = x.toNat := by
  have small := x.isLt
  rw [BitVec.toNat_setWidth, Nat.mod_eq_of_lt (by omega)]

theorem pack_spec (digits : h.Digits) (p0 p1 p2 p3 : U32) :
    ∃ w0 w1 w2 w3, pack h p0 p1 p2 p3 = [w0, w1, w2, w3] ∧
      w0.toNat + 2 ^ 32 * w1.toNat + 2 ^ 64 * w2.toNat + 2 ^ 96 * w3.toNat =
        (h.value + (p0.toNat + 2 ^ 32 * p1.toNat + 2 ^ 64 * p2.toNat + 2 ^ 96 * p3.toNat)) % 2 ^ 128 := by
  obtain ⟨d0, d1, d2, d3, d4⟩ := digits
  have q0 := p0.isLt
  have q1 := p1.isLt
  have q2 := p2.isLt
  have q3 := p3.isLt
  have s1 := shifted h.l1 (k := 6)
  have s2 := shifted h.l2 (k := 12)
  have s3 := shifted h.l3 (k := 18)
  have x0 := or_shift h.l0 h.l1 d0
  have x1 := or_shift (h.l1 >>> 6) h.l2 (k := 20) (by omega)
  have x2 := or_shift (h.l2 >>> 12) h.l3 (k := 14) (by omega)
  have x3 := or_shift (h.l3 >>> 18) h.l4 (k := 8) (by omega)
  have sum : ∀ x p : U32, (x.setWidth 64 + p.setWidth 64).toNat = x.toNat + p.toNat := by
    intro x p
    have left := x.isLt
    have right := p.isLt
    rw [added (by rw [wide_toNat, wide_toNat]; omega), wide_toNat, wide_toNat]
  have next : ∀ (x p : U32) (f : U64), f.toNat < 2 ^ 34 →
      (x.setWidth 64 + p.setWidth 64 + f >>> 32).toNat = x.toNat + p.toNat + f.toNat / 2 ^ 32 := by
    intro x p f small
    have left := x.isLt
    have right := p.isLt
    have both := sum x p
    have excess := shifted f (k := 32)
    rw [added (by omega), both, excess]
  have out : ∀ f : U64, (f.setWidth 32).toNat = f.toNat % 2 ^ 32 := fun f => BitVec.toNat_setWidth 32 f
  refine ⟨_, _, _, _, rfl, ?_⟩
  simp only [out]
  have f0 := sum (h.l0 ||| h.l1 <<< 26) p0
  generalize (h.l0 ||| h.l1 <<< 26).setWidth 64 + p0.setWidth 64 = g0 at f0 ⊢
  have f1 := next (h.l1 >>> 6 ||| h.l2 <<< 20) p1 g0 (by omega)
  generalize (h.l1 >>> 6 ||| h.l2 <<< 20).setWidth 64 + p1.setWidth 64 + g0 >>> 32 = g1 at f1 ⊢
  have f2 := next (h.l2 >>> 12 ||| h.l3 <<< 14) p2 g1 (by omega)
  generalize (h.l2 >>> 12 ||| h.l3 <<< 14).setWidth 64 + p2.setWidth 64 + g1 >>> 32 = g2 at f2 ⊢
  have f3 := next (h.l3 >>> 18 ||| h.l4 <<< 8) p3 g2 (by omega)
  generalize (h.l3 >>> 18 ||| h.l4 <<< 8).setWidth 64 + p3.setWidth 64 + g2 >>> 32 = g3 at f3 ⊢
  -- the words of the accumulator, with what does not fit them, and those of the sum
  have y0 : (h.l0 ||| h.l1 <<< 26).toNat = h.l0.toNat + h.l1.toNat % 2 ^ 6 * 2 ^ 26 := by omega
  have y1 : (h.l1 >>> 6 ||| h.l2 <<< 20).toNat = h.l1.toNat / 2 ^ 6 + h.l2.toNat % 2 ^ 12 * 2 ^ 20 := by
    omega
  have y2 : (h.l2 >>> 12 ||| h.l3 <<< 14).toNat = h.l2.toNat / 2 ^ 12 + h.l3.toNat % 2 ^ 18 * 2 ^ 14 := by
    omega
  have y3 : (h.l3 >>> 18 ||| h.l4 <<< 8).toNat = h.l3.toNat / 2 ^ 18 + h.l4.toNat % 2 ^ 24 * 2 ^ 8 := by
    omega
  clear x0 x1 x2 x3 s1 s2 s3
  have whole : h.value + (p0.toNat + 2 ^ 32 * p1.toNat + 2 ^ 64 * p2.toNat + 2 ^ 96 * p3.toNat) =
      g0.toNat % 2 ^ 32 + 2 ^ 32 * (g1.toNat % 2 ^ 32) + 2 ^ 64 * (g2.toNat % 2 ^ 32) +
        2 ^ 96 * (g3.toNat % 2 ^ 32) + 2 ^ 128 * (g3.toNat / 2 ^ 32 + h.l4.toNat / 2 ^ 24) := by
    rw [Limbs.value]
    clear q0 q1 q2 q3 d0 d1 d2 d3 d4
    omega
  have small : g0.toNat % 2 ^ 32 + 2 ^ 32 * (g1.toNat % 2 ^ 32) + 2 ^ 64 * (g2.toNat % 2 ^ 32) +
      2 ^ 96 * (g3.toNat % 2 ^ 32) < 2 ^ 128 := by
    clear whole f0 f1 f2 f3
    omega
  rw [whole, Nat.add_mul_mod_self_left, Nat.mod_eq_of_lt small]

def littleEndian (x n : Nat) : List Byte := (List.range n).map fun i => BitVec.ofNat 8 (x / 2 ^ (8 * i))

theorem words_bytes (w0 w1 w2 w3 : U32) : [w0, w1, w2, w3].flatMap bytesOf =
    littleEndian (w0.toNat + 2 ^ 32 * w1.toNat + 2 ^ 64 * w2.toNat + 2 ^ 96 * w3.toNat) 16 := by
  have s0 := w0.isLt
  have s1 := w1.isLt
  have s2 := w2.isLt
  have indices : List.range 16 = [0, 1, 2, 3, 4, 5, 6, 7, 8, 9, 10, 11, 12, 13, 14, 15] := rfl
  simp only [littleEndian, indices, List.map, bytesOf, List.flatMap_cons, List.flatMap_nil,
    List.append_nil, List.cons_append, List.nil_append, List.cons.injEq, and_true]
  refine ⟨?_, ?_, ?_, ?_, ?_, ?_, ?_, ?_, ?_, ?_, ?_, ?_, ?_, ?_, ?_, ?_⟩ <;>
  · apply BitVec.eq_of_toNat_eq
    simp only [BitVec.toNat_setWidth, BitVec.toNat_ofNat, shifted]
    omega

end Finishing

end Ubiqos.Crypto
