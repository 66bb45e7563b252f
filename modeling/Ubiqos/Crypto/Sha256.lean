import Mathlib.Data.Nat.Nth
import Mathlib.Data.Nat.NthRoot.Defs
import Mathlib.Data.Nat.Prime.Defs
import Ubiqos.Crypto.Seal
import Ubiqos.Lib.Absorb

/-!
SHA-256 as FIPS 180-4 has it: the functions of section 4.1.2, the constants of 4.2.2 and 5.3.3
as the roots of the first primes, the padding of 5.1.1 and the computation of 6.2.2.
-/

namespace Ubiqos.Crypto.Fips

def Ch (x y z : U32) : U32 := (x &&& y) ^^^ (~~~x &&& z)
def Maj (x y z : U32) : U32 := (x &&& y) ^^^ (x &&& z) ^^^ (y &&& z)
def bigSigma0 (x : U32) : U32 := x.rotateRight 2 ^^^ x.rotateRight 13 ^^^ x.rotateRight 22
def bigSigma1 (x : U32) : U32 := x.rotateRight 6 ^^^ x.rotateRight 11 ^^^ x.rotateRight 25
def smallSigma0 (x : U32) : U32 := x.rotateRight 7 ^^^ x.rotateRight 18 ^^^ x >>> 3
def smallSigma1 (x : U32) : U32 := x.rotateRight 17 ^^^ x.rotateRight 19 ^^^ x >>> 10

/-- The first 32 bits of the fraction of a root: those of the whole number that the root of
`a * 2^(32 * degree)` begins with, less what is before them. -/
def rootBits (degree a : Nat) : U32 := BitVec.ofNat 32 (Nat.nthRoot degree (a * 2 ^ (32 * degree)))

noncomputable def constant (t : Nat) : U32 := rootBits 3 (Nat.nth Nat.Prime t)

noncomputable def initial : Vector U32 8 := Vector.ofFn fun i => rootBits 2 (Nat.nth Nat.Prime i)

def blockWord (block : List Byte) (t : Nat) : U32 :=
  block.getD (4 * t) 0 ++ block.getD (4 * t + 1) 0 ++ block.getD (4 * t + 2) 0 ++ block.getD (4 * t + 3) 0

/-- `W_t`. -/
def schedule (block : List Byte) (t : Nat) : U32 :=
  if t < 16 then blockWord block t
  else
    smallSigma1 (schedule block (t - 2)) + schedule block (t - 7) +
      smallSigma0 (schedule block (t - 15)) + schedule block (t - 16)
termination_by t

/-- Step 3 of the hash computation, on `a` to `h`. -/
def step (k w : U32) (x : Vector U32 8) : Vector U32 8 :=
  let T1 := x[7] + bigSigma1 x[4] + Ch x[4] x[5] x[6] + k + w
  let T2 := bigSigma0 x[0] + Maj x[0] x[1] x[2]
  #v[T1 + T2, x[0], x[1], x[2], x[3] + T1, x[4], x[5], x[6]]

noncomputable def working (H : Vector U32 8) (block : List Byte) : Nat → Vector U32 8
  | 0 => H
  | t + 1 => step (constant t) (schedule block t) (working H block t)

/-- `H^(i)` from `H^(i-1)`. -/
noncomputable def compress (H : Vector U32 8) (block : List Byte) : Vector U32 8 :=
  Vector.ofFn fun i => (working H block 64)[i] + H[i]

/-- The zero bytes of the padding: with the byte of the one bit, the least number that leaves
eight bytes to a whole block. -/
def zeros (length : Nat) : Nat := (119 - length % 64) % 64

theorem zeros_fills (length : Nat) : (length + 1 + zeros length) % 64 = 56 := by
  unfold zeros
  omega

def lengthBlock (length : Nat) : List Byte :=
  (List.range 8).map fun i => BitVec.ofNat 8 (8 * length / 2 ^ (8 * (7 - i)))

def padded (message : List Byte) : List Byte :=
  message ++ 0x80 :: List.replicate (zeros message.length) 0 ++ lengthBlock message.length

theorem padded_length (message : List Byte) : 64 ∣ (padded message).length := by
  have fills := zeros_fills message.length
  have eight : (lengthBlock message.length).length = 8 := by simp [lengthBlock]
  have all : (padded message).length = message.length + 1 + zeros message.length + 8 := by
    simp only [padded, List.length_append, List.length_cons, List.length_replicate, eight]
    omega
  rw [all]
  omega

def bytes (word : U32) : List Byte :=
  (List.range 4).map fun i => (word >>> (8 * (3 - i))).setWidth 8

noncomputable def sha256 (message : List Byte) : List Byte :=
  let M := padded message
  (Absorb.chain 64 compress initial M (M.length / 64)).toList.flatMap bytes

end Ubiqos.Crypto.Fips

/-!
SHA-256 of `kernel/crypto.c`, in software. A message comes in any pieces; the padding goes
through the same buffer, and the length that goes behind it is the one before it.
-/

namespace Ubiqos.Crypto

/-- `K`. -/
def roundConstants : Vector U32 64 := #v[
  0x428a2f98, 0x71374491, 0xb5c0fbcf, 0xe9b5dba5, 0x3956c25b, 0x59f111f1, 0x923f82a4, 0xab1c5ed5,
  0xd807aa98, 0x12835b01, 0x243185be, 0x550c7dc3, 0x72be5d74, 0x80deb1fe, 0x9bdc06a7, 0xc19bf174,
  0xe49b69c1, 0xefbe4786, 0x0fc19dc6, 0x240ca1cc, 0x2de92c6f, 0x4a7484aa, 0x5cb0a9dc, 0x76f988da,
  0x983e5152, 0xa831c66d, 0xb00327c8, 0xbf597fc7, 0xc6e00bf3, 0xd5a79147, 0x06ca6351, 0x14292967,
  0x27b70a85, 0x2e1b2138, 0x4d2c6dfc, 0x53380d13, 0x650a7354, 0x766a0abb, 0x81c2c92e, 0x92722c85,
  0xa2bfe8a1, 0xa81a664b, 0xc24b8b70, 0xc76c51a3, 0xd192e819, 0xd6990624, 0xf40e3585, 0x106aa070,
  0x19a4c116, 0x1e376c08, 0x2748774c, 0x34b0bcb5, 0x391c0cb3, 0x4ed8aa4a, 0x5b9cca4f, 0x682e6ff3,
  0x748f82ee, 0x78a5636f, 0x84c87814, 0x8cc70208, 0x90befffa, 0xa4506ceb, 0xbef9a3f7, 0xc67178f2]

def iv : Vector U32 8 := #v[
  0x6a09e667, 0xbb67ae85, 0x3c6ef372, 0xa54ff53a, 0x510e527f, 0x9b05688c, 0x1f83d9ab, 0x5be0cd19]

/-- `ubiqos_sha256_t`, between two turns of a loop. -/
structure Sha256 where
  h : Vector U32 8
  len : U64
  n : Nat
  buf : Vector Byte 64
  room : n < 64

def firstWords (p : List Byte) : Vector U32 64 := Vector.ofFn fun i =>
  if i.val < 16 then
    (p.getD (4 * i) 0).setWidth 32 <<< 24 ||| (p.getD (4 * i + 1) 0).setWidth 32 <<< 16 |||
      (p.getD (4 * i + 2) 0).setWidth 32 <<< 8 ||| (p.getD (4 * i + 3) 0).setWidth 32
  else 0

/-- The words after so many turns of `for (i = 16; i < 64; i++)`. -/
def extendWords (p : List Byte) : Nat → Vector U32 64
  | 0 => firstWords p
  | k + 1 =>
    let w := extendWords p k
    let i := k + 16
    let s0 := ror w[i - 15]! 7 ^^^ ror w[i - 15]! 18 ^^^ w[i - 15]! >>> 3
    let s1 := ror w[i - 2]! 17 ^^^ ror w[i - 2]! 19 ^^^ w[i - 2]! >>> 10
    w.setIfInBounds i (w[i - 16]! + s0 + w[i - 7]! + s1)

/-- A turn of the rounds, on `a` to `h`. -/
def sha256Round (x : Vector U32 8) (k w : U32) : Vector U32 8 :=
  let S1 := ror x[4] 6 ^^^ ror x[4] 11 ^^^ ror x[4] 25
  let ch := (x[4] &&& x[5]) ^^^ (~~~x[4] &&& x[6])
  let t1 := x[7] + S1 + ch + k + w
  let S0 := ror x[0] 2 ^^^ ror x[0] 13 ^^^ ror x[0] 22
  let mj := (x[0] &&& x[1]) ^^^ (x[0] &&& x[2]) ^^^ (x[1] &&& x[2])
  let t2 := S0 + mj
  #v[t1 + t2, x[0], x[1], x[2], x[3] + t1, x[4], x[5], x[6]]

def sha256Rounds (w : Vector U32 64) (x : Vector U32 8) : Nat → Vector U32 8
  | 0 => x
  | i + 1 => sha256Round (sha256Rounds w x i) roundConstants[i]! w[i]!

def sha256Block (h : Vector U32 8) (p : List Byte) : Vector U32 8 :=
  let x := sha256Rounds (extendWords p 48) h 64
  Vector.ofFn fun i => h[i] + x[i]

def sha256Init (s : Sha256) : Sha256 := { s with h := iv, len := 0, n := 0, room := by decide }

/-- `memcpy(s->buf + s->n, p, take)`. -/
def fillBuffer (s : Sha256) (p : List Byte) (take : Nat) : Vector Byte 64 := Vector.ofFn fun i =>
  if s.n ≤ i.val ∧ i.val < s.n + take then p.getD (i - s.n) 0 else s.buf[i]

/-- `while (len)`. -/
def sha256Absorb (s : Sha256) (p : List Byte) : Sha256 :=
  if some : p ≠ [] then
    let take := min p.length (64 - s.n)
    let buf := fillBuffer s p take
    if whole : s.n + take = 64 then
      sha256Absorb { s with h := sha256Block s.h buf.toList, n := 0, buf, room := by decide } (p.drop take)
    else
      sha256Absorb { s with n := s.n + take, buf, room := by have := s.room; omega } (p.drop take)
  else s
termination_by p.length
decreasing_by
  all_goals
    have room := s.room
    have present := List.length_pos_of_ne_nil some
    rw [List.length_drop]
    omega

def sha256Update (s : Sha256) (p : List Byte) : Sha256 :=
  sha256Absorb { s with len := s.len + BitVec.ofNat 64 p.length } p

def Sha256.machine (s : Sha256) : Absorb.Machine (Vector U32 8) Byte := (s.h, s.buf.toList.take s.n)

variable {s : Sha256} {p : List Byte}

@[simp] theorem machine_pending_length : s.machine.2.length = s.n := by
  have room := s.room
  rw [Sha256.machine, List.length_take, Vector.length_toList]
  omega

theorem fillBuffer_get {take i : Nat} (small : i < 64) :
    (fillBuffer s p take)[i] =
      if s.n ≤ i ∧ i < s.n + take then p.getD (i - s.n) 0 else s.buf[i] := by
  simp [fillBuffer]

theorem fillBuffer_take {take : Nat} (enough : take ≤ p.length) (fits : s.n + take ≤ 64) :
    (fillBuffer s p take).toList.take (s.n + take) = s.machine.2 ++ p.take take := by
  apply List.ext_getElem
  · rw [List.length_append, machine_pending_length, List.length_take, List.length_take, Vector.length_toList]
    omega
  · intro i inside _
    rw [List.length_take, Vector.length_toList] at inside
    have small : i < 64 := by omega
    rw [List.getElem_take, Vector.getElem_toList, fillBuffer_get small]
    by_cases before : i < s.n
    · have kept : ¬(s.n ≤ i ∧ i < s.n + take) := by omega
      rw [if_neg kept, List.getElem_append_left (by rwa [machine_pending_length])]
      simp only [Sha256.machine, List.getElem_take, Vector.getElem_toList]
    · have copied : s.n ≤ i ∧ i < s.n + take := by omega
      have present : i - s.n < p.length := by omega
      rw [if_pos copied, List.getElem_append_right (by rw [machine_pending_length]; omega),
        List.getElem_take, List.getD_eq_getElem _ _ present]
      simp only [machine_pending_length]

theorem sha256Absorb_machine :
    (sha256Absorb s p).machine = Absorb.absorb 64 sha256Block s.machine p := by
  induction s, p using sha256Absorb.induct with
  | case1 s p some take buf whole ih =>
    have room := s.room
    have filled : buf.toList = s.machine.2 ++ p.take take := by
      rw [← fillBuffer_take (Nat.min_le_left _ _) whole.le, whole,
        List.take_of_length_le (Vector.length_toList).le]
    have full : s.machine.2.length + (p.take take).length = 64 := by
      rw [machine_pending_length, List.length_take]
      omega
    have present : p.take take ≠ [] := by
      intro none
      rw [none, machine_pending_length] at full
      exact absurd full room.ne
    rw [sha256Absorb, dif_pos some]
    simp only
    rw [dif_pos whole, ih]
    conv_rhs => rw [← List.take_append_drop take p]
    rw [Absorb.absorb_append, Absorb.absorb_whole full present, filled]
    rfl
  | case2 s p some take buf short ih =>
    have room := s.room
    rw [sha256Absorb, dif_pos some]
    simp only
    rw [dif_neg short, ih]
    conv_rhs => rw [← List.take_append_drop take p]
    have filled : buf.toList.take (s.n + take) = s.machine.2 ++ p.take take :=
      fillBuffer_take (Nat.min_le_left _ _) (by omega)
    have waits : s.machine.2.length + (p.take take).length < 64 := by
      rw [machine_pending_length, List.length_take]
      omega
    rw [Absorb.absorb_append, Absorb.absorb_short waits, ← filled]
    rfl
  | case3 s p none =>
    have empty : p = [] := not_not.mp none
    rw [sha256Absorb, dif_neg none, empty]
    rfl

@[simp] theorem sha256Update_machine :
    (sha256Update s p).machine = Absorb.absorb 64 sha256Block s.machine p := sha256Absorb_machine

theorem sha256Update_n : (sha256Update s p).n = (s.n + p.length) % 64 := by
  have short : s.machine.2.length < 64 := by rw [machine_pending_length]; exact s.room
  have pending := (@Absorb.absorb_pending _ _ _ sha256Block _ p) short
  rwa [← sha256Update_machine, machine_pending_length, machine_pending_length] at pending

theorem sha256Absorb_len : (sha256Absorb s p).len = s.len := by
  induction s, p using sha256Absorb.induct with
  | case1 s p some take buf whole ih =>
    rw [sha256Absorb, dif_pos some]
    simp only
    rw [dif_pos whole, ih]
  | case2 s p some take buf short ih =>
    rw [sha256Absorb, dif_pos some]
    simp only
    rw [dif_neg short, ih]
  | case3 s p none => rw [sha256Absorb, dif_neg none]

theorem sha256Update_len : (sha256Update s p).len = s.len + BitVec.ofNat 64 p.length := sha256Absorb_len

/-- `while (s->n != 56)`. -/
def padZeros (s : Sha256) : Sha256 :=
  if s.n = 56 then s else padZeros (sha256Update s [0])
termination_by (120 - s.n) % 64
decreasing_by
  have room := s.room
  rw [sha256Update_n, List.length_singleton]
  omega

def sha256Final (s : Sha256) : List Byte :=
  let bits := s.len * 8
  let s := sha256Update s [0x80]
  let s := padZeros s
  let tail := (List.range 8).map fun i => (bits >>> (56 - 8 * i)).setWidth 8
  let s := sha256Update s tail
  s.h.toList.flatMap fun (x : U32) =>
    [(x >>> 24).setWidth 8, (x >>> 16).setWidth 8, (x >>> 8).setWidth 8, x.setWidth 8]

theorem padZeros_machine :
    (padZeros s).machine =
      Absorb.absorb 64 sha256Block s.machine (List.replicate ((120 - s.n) % 64) 0) := by
  induction s using padZeros.induct with
  | case1 s done =>
    rw [padZeros, if_pos done, done]
    rfl
  | case2 s more ih =>
    have room := s.room
    have fewer : (120 - s.n) % 64 = (120 - (sha256Update s [0]).n) % 64 + 1 := by
      rw [sha256Update_n, List.length_singleton]
      omega
    rw [padZeros, if_neg more, ih, fewer, List.replicate_succ, sha256Update_machine]
    exact (Absorb.absorb_append [0] _).symm

theorem ror_eq_rotateRight {x : U32} {n : Nat} (small : n < 32) : ror x n = x.rotateRight n := by
  rw [BitVec.rotateRight_def, Nat.mod_eq_of_lt small]
  rfl

theorem ror_xor_ror_xor_ror (x : U32) {a b c : Nat} (first : a < 32) (second : b < 32) (third : c < 32) :
    ror x a ^^^ ror x b ^^^ ror x c = x.rotateRight a ^^^ x.rotateRight b ^^^ x.rotateRight c := by
  rw [ror_eq_rotateRight first, ror_eq_rotateRight second, ror_eq_rotateRight third]

theorem smallSigma_eq (x : U32) {a b c : Nat} (first : a < 32) (second : b < 32) :
    ror x a ^^^ ror x b ^^^ x >>> c = x.rotateRight a ^^^ x.rotateRight b ^^^ x >>> c := by
  rw [ror_eq_rotateRight first, ror_eq_rotateRight second]

def primes : List Nat := [
  2, 3, 5, 7, 11, 13, 17, 19, 23, 29, 31, 37, 41, 43, 47, 53, 59, 61, 67, 71, 73, 79, 83, 89, 97, 101,
  103, 107, 109, 113, 127, 131, 137, 139, 149, 151, 157, 163, 167, 173, 179, 181, 191, 193, 197, 199,
  211, 223, 227, 229, 233, 239, 241, 251, 257, 263, 269, 271, 277, 281, 283, 293, 307, 311]

/-- A number below `18 * 18` is composite only by a factor below 18. -/
theorem prime_iff_mem {n : Nat} (small : n < 312) : Nat.Prime n ↔ n ∈ primes := by
  have table : ∀ n < 312, n ∈ primes ↔ 2 ≤ n ∧ ∀ m < 18, 2 ≤ m → m < n → n % m ≠ 0 := by decide +kernel
  rw [table n small, Nat.prime_def_lt']
  refine and_congr_right fun two => ⟨fun none m _ least below divides => ?_, fun none m least below divides => ?_⟩
  · exact none m least below (Nat.dvd_of_mod_eq_zero divides)
  · obtain ⟨k, rfl⟩ := divides
    by_cases low : m < 18
    · exact none m low least below (Nat.mul_mod_right m k)
    · have other : k < 18 := by nlinarith
      refine none k other ?_ ?_ (Nat.mul_mod_left m k) <;> nlinarith

variable {t : Nat}

theorem nth_prime (small : t < 64) : Nat.nth Nat.Prime t = primes.getD t 0 := by
  have counted : ∀ t < 64, primes.getD t 0 < 312 ∧ primes.getD t 0 ∈ primes ∧
      Nat.count (· ∈ primes) (primes.getD t 0) = t := by
    decide +kernel
  obtain ⟨within, listed, before⟩ := counted t small
  have same : Nat.count Nat.Prime (primes.getD t 0) = Nat.count (· ∈ primes) (primes.getD t 0) := by
    rw [Nat.count_eq_card_filter_range, Nat.count_eq_card_filter_range]
    congr 1
    exact Finset.filter_congr fun n member =>
      prime_iff_mem ((Finset.mem_range.mp member).trans within)
  have found := Nat.nth_count ((prime_iff_mem within).mpr listed)
  rwa [same, before] at found

theorem roundConstants_eq (small : t < 64) : roundConstants[t]! = Fips.constant t := by
  have table : ∀ t < 64, roundConstants[t]! = Fips.rootBits 3 (primes.getD t 0) := by decide +kernel
  rw [Fips.constant, nth_prime small, table t small]

theorem iv_eq : iv = Fips.initial := by
  have table : ∀ i : Fin 8, iv[i] = Fips.rootBits 2 (primes.getD i 0) := by decide +kernel
  apply Vector.ext
  intro i small
  have this := table ⟨i, small⟩
  rw [Fips.initial, Vector.getElem_ofFn, nth_prime (by omega)]
  exact this

theorem join_bytes (a b c d : Byte) :
    a.setWidth 32 <<< 24 ||| b.setWidth 32 <<< 16 ||| c.setWidth 32 <<< 8 ||| d.setWidth 32 =
      (a ++ b ++ c ++ d : U32) := by
  apply BitVec.eq_of_getLsbD_eq
  intro i bound
  -- beyond its eight bits a byte is all zeroes
  have bHigh : 8 ≤ i - 16 → b.getLsbD (i - 16) = false := BitVec.getLsbD_of_ge b _
  have cHigh : 8 ≤ i - 8 → c.getLsbD (i - 8) = false := BitVec.getLsbD_of_ge c _
  have dHigh : 8 ≤ i → d.getLsbD i = false := BitVec.getLsbD_of_ge d _
  simp only [BitVec.getLsbD_or, BitVec.getLsbD_shiftLeft, BitVec.getLsbD_setWidth, BitVec.getLsbD_append,
    Nat.sub_sub, bound, decide_true, Bool.true_and]
  grind

theorem firstWords_eq (small : t < 16) : (firstWords p)[t]! = Fips.schedule p t := by
  have inside : t < 64 := by omega
  rw [Fips.schedule, if_pos small, getElem!_pos (firstWords p) t inside, firstWords, Vector.getElem_ofFn,
    if_pos small, join_bytes, Fips.blockWord]

theorem extendWords_eq {k t : Nat} (fits : k ≤ 48) (known : t < 16 + k) :
    (extendWords p k)[t]! = Fips.schedule p t := by
  induction k generalizing t with
  | zero => exact firstWords_eq known
  | succ k ih =>
    have inside : t < 64 := by omega
    rw [getElem!_pos _ t inside, extendWords, Vector.getElem_setIfInBounds]
    by_cases last : k + 16 = t
    · have recent : ∀ back, 0 < back → back ≤ 16 →
          (extendWords p k)[k + 16 - back]! = Fips.schedule p (k + 16 - back) :=
        fun back _ _ => ih (by omega) (by omega)
      have s0 (x : U32) : ror x 7 ^^^ ror x 18 ^^^ x >>> 3 = Fips.smallSigma0 x :=
        smallSigma_eq x (by decide) (by decide)
      have s1 (x : U32) : ror x 17 ^^^ ror x 19 ^^^ x >>> 10 = Fips.smallSigma1 x :=
        smallSigma_eq x (by decide) (by decide)
      rw [if_pos last, ← last, Fips.schedule, if_neg (by omega), s0, s1, recent 15 (by omega) (by omega),
        recent 2 (by omega) (by omega), recent 16 (by omega) (by omega), recent 7 (by omega) (by omega)]
      ac_rfl
    · rw [if_neg last, ← getElem!_pos (extendWords p k) t inside]
      exact ih (by omega) (by omega)

theorem sha256Round_eq (x : Vector U32 8) (k w : U32) : sha256Round x k w = Fips.step k w x := by
  have S0 (y : U32) : ror y 2 ^^^ ror y 13 ^^^ ror y 22 = Fips.bigSigma0 y :=
    ror_xor_ror_xor_ror y (by decide) (by decide) (by decide)
  have S1 (y : U32) : ror y 6 ^^^ ror y 11 ^^^ ror y 25 = Fips.bigSigma1 y :=
    ror_xor_ror_xor_ror y (by decide) (by decide) (by decide)
  simp only [sha256Round, S0, S1]
  rfl

theorem sha256Rounds_eq {h : Vector U32 8} (fits : t ≤ 64) :
    sha256Rounds (extendWords p 48) h t = Fips.working h p t := by
  induction t with
  | zero => rfl
  | succ t ih =>
    rw [sha256Rounds, Fips.working, ih (by omega), sha256Round_eq, roundConstants_eq (by omega),
      extendWords_eq (by omega) (by omega)]

theorem sha256Block_eq : sha256Block = Fips.compress := by
  funext h p
  simp only [sha256Block, Fips.compress, sha256Rounds_eq le_rfl, BitVec.add_comm]

theorem tail_eq (length : Nat) :
    ((List.range 8).map fun i => ((BitVec.ofNat 64 length * 8) >>> (56 - 8 * i)).setWidth 8) =
      Fips.lengthBlock length := by
  apply List.map_congr_left
  intro i member
  have small : i < 8 := List.mem_range.mp member
  have same : 8 * (7 - i) = 56 - 8 * i := by omega
  have split : 2 ^ 64 = 2 ^ (56 - 8 * i) * 2 ^ (8 * i + 8) := by
    rw [← pow_add]
    congr 1
    omega
  have low : 2 ^ 8 ∣ 2 ^ (8 * i + 8) := pow_dvd_pow 2 (by omega)
  have bits : BitVec.ofNat 64 length * 8 = BitVec.ofNat 64 (8 * length) := by
    rw [Nat.mul_comm, BitVec.ofNat_mul]
    rfl
  apply BitVec.eq_of_toNat_eq
  rw [bits, same, BitVec.toNat_setWidth, BitVec.toNat_ushiftRight, BitVec.toNat_ofNat, BitVec.toNat_ofNat,
    Nat.shiftRight_eq_div_pow, split, Nat.mod_mul_right_div_self, Nat.mod_mod_of_dvd _ low]

theorem out_eq (x : U32) :
    [(x >>> 24).setWidth 8, (x >>> 16).setWidth 8, (x >>> 8).setWidth 8, x.setWidth 8] = Fips.bytes x := by
  rfl

theorem sha256Update_foldl (pieces : List (List Byte)) (s : Sha256) :
    (pieces.foldl sha256Update s).machine = Absorb.absorb 64 sha256Block s.machine pieces.flatten ∧
      (pieces.foldl sha256Update s).len = s.len + BitVec.ofNat 64 pieces.flatten.length := by
  induction pieces generalizing s with
  | nil => exact ⟨rfl, by simp⟩
  | cons first rest ih =>
    obtain ⟨machine, len⟩ := ih (sha256Update s first)
    rw [List.foldl_cons, List.flatten_cons, List.length_append, Absorb.absorb_append]
    refine ⟨by rw [machine, sha256Update_machine], ?_⟩
    rw [len, sha256Update_len, BitVec.ofNat_add, BitVec.add_assoc]

theorem sha256Final_eq {message : List Byte} (begun : s.machine = Absorb.absorb 64 sha256Block (iv, []) message)
    (counted : s.len = BitVec.ofNat 64 message.length) : sha256Final s = Fips.sha256 message := by
  have waiting : s.n = message.length % 64 := by
    have pending := (@Absorb.absorb_pending _ _ 64 sha256Block (iv, ([] : List Byte)) message) (by decide)
    rw [← begun, machine_pending_length, List.length_nil, Nat.zero_add] at pending
    exact pending
  have enough : (120 - (sha256Update s [0x80]).n) % 64 = Fips.zeros message.length := by
    rw [sha256Update_n, waiting, List.length_singleton, Fips.zeros]
    omega
  have whole : 64 * ((Fips.padded message).length / 64) = (Fips.padded message).length :=
    Nat.mul_div_cancel' (Fips.padded_length message)
  have all : (sha256Update (padZeros (sha256Update s [0x80])) (Fips.lengthBlock message.length)).machine =
      (Absorb.chain 64 sha256Block iv (Fips.padded message) ((Fips.padded message).length / 64), []) := by
    rw [← Absorb.absorb_chain (by decide) whole.le, whole, List.take_length, sha256Update_machine,
      padZeros_machine, enough, sha256Update_machine, begun, ← Absorb.absorb_append, ← Absorb.absorb_append,
      ← Absorb.absorb_append, Fips.padded]
    simp only [List.append_assoc, List.cons_append, List.nil_append]
  have state := congrArg Prod.fst all
  rw [sha256Block_eq, iv_eq] at state
  simp only [sha256Final, counted, tail_eq, out_eq]
  exact congrArg (fun H : Vector U32 8 => H.toList.flatMap Fips.bytes) state

/-- However the message comes in pieces. -/
theorem sha256_pieces (s : Sha256) (pieces : List (List Byte)) :
    sha256Final (pieces.foldl sha256Update (sha256Init s)) = Fips.sha256 pieces.flatten := by
  obtain ⟨machine, len⟩ := sha256Update_foldl pieces (sha256Init s)
  apply sha256Final_eq machine
  rw [len]
  exact BitVec.zero_add _

end Ubiqos.Crypto
