import Ubiqos.Crypto.Limbs
import Ubiqos.Lib.Words

/-!
ChaCha20 and the sealing of `kernel/crypto.c`. A message and its cipher lie in one memory
and may be the same bytes of it; the key, the nonce and the tag are values.
-/

namespace Ubiqos.Crypto

open Function

def ror (x : U32) (n : Nat) : U32 := x >>> n ||| x <<< (32 - n)

/-- `QR`. -/
def quarterRound (x : Vector U32 16) (a b c d : Fin 16) : Vector U32 16 :=
  let xa := x[a] + x[b]
  let xd := ror (x[d] ^^^ xa) 16
  let xc := x[c] + xd
  let xb := ror (x[b] ^^^ xc) 20
  let xa := xa + xb
  let xd := ror (xd ^^^ xa) 24
  let xc := xc + xd
  let xb := ror (xb ^^^ xc) 25
  (((x.set a xa).set b xb).set c xc).set d xd

def doubleRound (x : Vector U32 16) : Vector U32 16 :=
  let x := quarterRound x 0 4 8 12
  let x := quarterRound x 1 5 9 13
  let x := quarterRound x 2 6 10 14
  let x := quarterRound x 3 7 11 15
  let x := quarterRound x 0 5 10 15
  let x := quarterRound x 1 6 11 12
  let x := quarterRound x 2 7 8 13
  quarterRound x 3 4 9 14

def chachaState (key : Nat → Byte) (counter : U32) (nonce : Nat → Byte) : Vector U32 16 :=
  Vector.ofFn fun i =>
    if i.val < 4 then [0x61707865, 0x3320646e, 0x79622d32, 0x6b206574].getD i 0
    else if i.val < 12 then word key (4 * (i - 4))
    else if i.val = 12 then counter
    else word nonce (4 * (i - 13))

def chachaBlock (key : Nat → Byte) (counter : U32) (nonce : Nat → Byte) : Nat → Byte :=
  let s := chachaState key counter nonce
  let x := Nat.iterate doubleRound 10 s
  fun i =>
    let k : Fin 16 := ⟨i / 4 % 16, Nat.mod_lt _ (by decide)⟩
    ((x[k] + s[k]) >>> (8 * (i % 4))).setWidth 8

abbrev Memory := Nat → Byte

/-- `for (i = 0; i < n; i++) out[i] = in[i] ^ block[i]`. -/
def xorInto (block : Nat → Byte) (source target : Nat) : Nat → Memory → Memory
  | 0, m => m
  | n + 1, m =>
    let m := xorInto block source target n m
    update m (target + n) (m (source + n) ^^^ block n)

def chachaXor (key : Nat → Byte) (counter : U32) (nonce : Nat → Byte) (source target len : Nat)
    (m : Memory) : Memory :=
  if len = 0 then m
  else
    let take := min len 64
    chachaXor key (counter + 1) nonce (source + take) (target + take) (len - take)
      (xorInto (chachaBlock key counter nonce) source target take m)
termination_by len

def lengths (len : U32) : Nat → Byte := fun i =>
  if 8 ≤ i ∧ i < 16 then (len.setWidth 64 >>> (8 * (i - 8)) : U64).setWidth 8 else 0

def padBlock (cipher : Nat → Byte) (full left : Nat) : Nat → Byte := fun i =>
  if i < left then cipher (full + i) else 0

/-- `tag_of`, from the one-time key on. -/
def tagWith (otk cipher : Nat → Byte) (len : U32) : List Byte :=
  let p := polyInit otk
  let full := (len &&& ~~~(15 : U32)).toNat
  let left := (len &&& 15).toNat
  let p := polyBlocks p cipher full false
  let p := if left = 0 then p else polyBlocks p (padBlock cipher full left) 16 false
  let p := polyBlocks p (lengths len) 16 false
  polyFinish p (fun _ => 0) 0

def tagOf (key nonce cipher : Nat → Byte) (len : U32) : List Byte :=
  tagWith (chachaBlock key 0 nonce) cipher len

def bytesFrom (m : Memory) (here : Nat) : Nat → Byte := fun i => m (here + i)

def ubiqosSeal (key nonce : Nat → Byte) (plain cipher : Nat) (len : U32) (m : Memory) :
    Memory × List Byte :=
  let m := chachaXor key 1 nonce plain cipher len.toNat m
  (m, tagOf key nonce (bytesFrom m cipher) len)

def diff (want tag : List Byte) : Byte :=
  (List.range 16).foldl (fun d i => d ||| (want.getD i 0 ^^^ tag.getD i 0)) 0

def ubiqosUnseal (key nonce : Nat → Byte) (cipher plain : Nat) (len : U32) (tag : List Byte)
    (m : Memory) : Bool × Memory :=
  if diff (tagOf key nonce (bytesFrom m cipher) len) tag ≠ 0 then (false, m)
  else (true, chachaXor key 1 nonce cipher plain len.toNat m)

def padded (cipher : Nat → Byte) (len : Nat) : Nat → Byte := fun i => if i < len then cipher i else 0

/-- The blocks that are authenticated: the padded cipher, and its length in the upper half
of one more. -/
def tagBlocks (cipher : Nat → Byte) (len i : Nat) : Nat :=
  if i < (len + 15) / 16 then block (padded cipher len) i else len * 2 ^ 64

def poly1305 (r s : Nat) (blocks : Nat → Nat) (n : Nat) : Nat :=
  (weighed r blocks n % prime + s) % 2 ^ 128

section Tags
variable (otk cipher : Nat → Byte) (len : U32)

theorem left_toNat : (len &&& 15).toNat = len.toNat % 16 := by
  rw [BitVec.toNat_and]
  exact Nat.and_two_pow_sub_one_eq_mod _ 4

theorem full_toNat : (len &&& ~~~(15 : U32)).toNat = 16 * (len.toNat / 16) := by
  rw [Nat.mul_comm]
  exact Words.toNat_and_not_ones (k := 4) len

theorem lengths_number : number (lengths len) 16 = len.toNat * 2 ^ 64 := by
  have small := len.isLt
  have low : ∀ i < 8, (lengths len i).toNat = 0 := by
    intro i below
    rw [lengths, if_neg (by omega)]
    rfl
  have high : ∀ i < 8, (lengths len (8 + i)).toNat = len.toNat / 2 ^ (8 * i) % 2 ^ 8 := by
    intro i below
    rw [lengths, if_pos (by omega), BitVec.toNat_setWidth, shifted, wide_toNat,
      Nat.add_sub_cancel_left]
  have h0 := high 0 (by omega)
  have h1 := high 1 (by omega)
  have h2 := high 2 (by omega)
  have h3 := high 3 (by omega)
  have h4 := high 4 (by omega)
  have h5 := high 5 (by omega)
  have h6 := high 6 (by omega)
  have h7 := high 7 (by omega)
  simp only [number, low 0 (by omega), low 1 (by omega), low 2 (by omega), low 3 (by omega),
    low 4 (by omega), low 5 (by omega), low 6 (by omega), low 7 (by omega)]
  norm_num at h0 h1 h2 h3 h4 h5 h6 h7 ⊢
  omega

def message : Nat → Byte := fun i =>
  if i < 16 * ((len.toNat + 15) / 16) then padded cipher len.toNat i
  else lengths len (i - 16 * ((len.toNat + 15) / 16))

theorem block_message {i : Nat} (inside : i < (len.toNat + 15) / 16 + 1) :
    block (message cipher len) i = tagBlocks cipher len.toNat i := by
  rw [tagBlocks]
  split
  · apply number_congr
    intro j small
    rw [message, if_pos (by omega)]
  · rw [← lengths_number]
    apply number_congr
    intro j small
    rw [message, if_neg (by omega)]
    congr 1
    omega

theorem polyBlocks_h (p : Poly) (m : Nat → Byte) (n : Nat) :
    polyBlocks p m (16 * n) false = { p with h := polyLoop hibit p.r n m p.h } := by
  rw [polyBlocks, Nat.mul_div_cancel_left n (by omega)]
  rfl

theorem tagWith_message : tagWith otk cipher len =
    polyFinish (polyBlocks (polyInit otk) (message cipher len) (16 * ((len.toNat + 15) / 16 + 1)) false)
      (fun _ => 0) 0 := by
  have behind : ∀ i < 16, message cipher len (16 * ((len.toNat + 15) / 16) + i) = lengths len i := by
    intro i small
    rw [message, if_neg (by omega), Nat.add_sub_cancel_left]
  have single : ∀ (h : Limbs) (m : Nat → Byte), polyBlocks { polyInit otk with h := h } m 16 false =
      { polyInit otk with h := polyLoop hibit (polyInit otk).r 1 m h } := fun h m =>
    polyBlocks_h { polyInit otk with h := h } m 1
  have ends : ∀ h, polyLoop hibit (polyInit otk).r 1
      (fun i => message cipher len (16 * ((len.toNat + 15) / 16) + i)) h =
        polyLoop hibit (polyInit otk).r 1 (lengths len) h := fun h =>
    polyLoop_congr hibit behind
  rw [tagWith, polyBlocks_h, polyLoop_append, ends]
  simp only [full_toNat, left_toNat, polyBlocks_h]
  by_cases whole : len.toNat % 16 = 0
  · rw [if_pos whole, single]
    have blocks : (len.toNat + 15) / 16 = len.toNat / 16 := by omega
    have front : ∀ i < 16 * (len.toNat / 16), message cipher len i = cipher i := by
      intro i small
      rw [message, if_pos (by omega), padded, if_pos (by omega)]
    have starts : ∀ h, polyLoop hibit (polyInit otk).r _ (message cipher len) h =
        polyLoop hibit (polyInit otk).r _ cipher h := fun h => polyLoop_congr hibit front
    rw [blocks, starts]
  · rw [if_neg whole, single, single]
    have blocks : (len.toNat + 15) / 16 = len.toNat / 16 + 1 := by omega
    have front : ∀ i < 16 * (len.toNat / 16), message cipher len i = cipher i := by
      intro i small
      rw [message, if_pos (by omega), padded, if_pos (by omega)]
    have last : ∀ i < 16, message cipher len (16 * (len.toNat / 16) + i) =
        padBlock cipher (16 * (len.toNat / 16)) (len.toNat % 16) i := by
      intro i small
      rw [message, if_pos (by omega), padded, padBlock]
      congr 1
      simp only [eq_iff_iff]
      omega
    have starts : ∀ h, polyLoop hibit (polyInit otk).r _ (message cipher len) h =
        polyLoop hibit (polyInit otk).r _ cipher h := fun h => polyLoop_congr hibit front
    have fills : ∀ h, polyLoop hibit (polyInit otk).r 1
        (fun i => message cipher len (16 * (len.toNat / 16) + i)) h =
          polyLoop hibit (polyInit otk).r 1 (padBlock cipher (16 * (len.toNat / 16)) (len.toNat % 16)) h :=
      fun h => polyLoop_congr hibit last
    rw [blocks, polyLoop_append, starts, fills]

theorem weighed_congr {r n : Nat} {blocks others : Nat → Nat}
    (same : ∀ i < n, blocks i = others i) : weighed r blocks n = weighed r others n := by
  apply Finset.sum_congr rfl
  intro i inside
  rw [same i (Finset.mem_range.mp inside)]

/-- The limbs lose nothing: the tag is the weighted sum of the blocks by the prime, and the
second half of the one-time key on top. -/
theorem tag_exact : tagWith otk cipher len =
    littleEndian (poly1305 (clamp (number otk 16)) (number (fun i => otk (16 + i)) 16)
      (tagBlocks cipher len.toNat) ((len.toNat + 15) / 16 + 1)) 16 := by
  obtain ⟨clamped, value⟩ := polyInit_spec otk
  have start : (polyInit otk).h.Small := by
    constructor <;> simp [polyInit]
  obtain ⟨small, sum⟩ := polyLoop_spec clamped ((len.toNat + 15) / 16 + 1) (message cipher len) start
  obtain ⟨rest, exact⟩ := reduced_spec small
  obtain ⟨w0, w1, w2, w3, packed, tag⟩ := pack_spec rest (word otk 16) (word otk 20) (word otk 24)
    (word otk 28)
  have zero : (polyInit otk).h.value = 0 := rfl
  have pads : number (fun i => otk (16 + i)) 16 = (word otk 16).toNat + 2 ^ 32 * (word otk 20).toNat +
      2 ^ 64 * (word otk 24).toNat + 2 ^ 96 * (word otk 28).toNat := number_words fun i => otk (16 + i)
  have finished : tagWith otk cipher len = [w0, w1, w2, w3].flatMap bytesOf := by
    rw [tagWith_message, polyBlocks_h, ← packed]
    rfl
  have blocks : weighed (clamp (number otk 16)) (block (message cipher len)) ((len.toNat + 15) / 16 + 1) =
      weighed (clamp (number otk 16)) (tagBlocks cipher len.toNat) ((len.toNat + 15) / 16 + 1) :=
    weighed_congr fun _ => block_message cipher len
  rw [zero, Nat.zero_mul, Nat.zero_add, value, blocks] at sum
  rw [finished, words_bytes, tag, exact, sum, poly1305, pads]

theorem tagWith_congr {other : Nat → Byte} (same : ∀ i < len.toNat, cipher i = other i) :
    tagWith otk cipher len = tagWith otk other len := by
  have pad : padded cipher len.toNat = padded other len.toNat := by
    funext i
    simp only [padded]
    split
    · next inside => exact same i inside
    · rfl
  have text : message cipher len = message other len := by
    funext i
    simp only [message, pad]
  rw [tagWith_message, tagWith_message, text]

end Tags

/-- Two buffers a stream may run over: the same one, or apart. What is read must not have
been written before, so the target may also begin below the source. -/
def Beside (source target len : Nat) : Prop := target ≤ source ∨ source + len ≤ target

theorem xorInto_apply {block : Nat → Byte} {source target n : Nat} (beside : Beside source target n)
    (m : Memory) (a : Nat) : xorInto block source target n m a =
      if target ≤ a ∧ a < target + n then m (source + (a - target)) ^^^ block (a - target)
      else m a := by
  induction n generalizing a with
  | zero => rw [if_neg (by omega)]; rfl
  | succ n ih =>
    have before : Beside source target n := by
      rw [Beside] at beside ⊢
      omega
    have unread : xorInto block source target n m (source + n) = m (source + n) := by
      rw [ih before, if_neg (by rw [Beside] at beside; omega)]
    rw [xorInto, update_apply]
    by_cases here : a = target + n
    · rw [if_pos here, unread, if_pos (by omega), here, Nat.add_sub_cancel_left]
    · rw [if_neg here, ih before]
      congr 1
      simp only [eq_iff_iff]
      omega

def stream (key : Nat → Byte) (counter : U32) (nonce : Nat → Byte) (i : Nat) : Byte :=
  chachaBlock key (counter + BitVec.ofNat 32 (i / 64)) nonce (i % 64)

section Streams
variable (key nonce : Nat → Byte)

theorem stream_first (counter : U32) {i : Nat} (small : i < 64) :
    stream key counter nonce i = chachaBlock key counter nonce i := by
  rw [stream, Nat.div_eq_of_lt small, Nat.mod_eq_of_lt small]
  simp

theorem stream_next (counter : U32) (i : Nat) :
    stream key (counter + 1) nonce i = stream key counter nonce (64 + i) := by
  have block : (64 + i) / 64 = 1 + i / 64 := by omega
  rw [stream, stream, block, Nat.add_mod_left, BitVec.ofNat_add, ← BitVec.add_assoc]
  rfl

theorem chachaXor_apply (counter : U32) {source target len : Nat} (beside : Beside source target len)
    (m : Memory) (a : Nat) : chachaXor key counter nonce source target len m a =
      if target ≤ a ∧ a < target + len then
        m (source + (a - target)) ^^^ stream key counter nonce (a - target)
      else m a := by
  -- By the length: the bytes of this block, and the blocks behind it.
  induction len using Nat.strong_induction_on generalizing counter source target m with
  | _ len ih =>
  rw [chachaXor]
  split
  · next empty => rw [if_neg (by omega)]
  · next some =>
    have first : Beside source target (min len 64) := by
      rw [Beside] at beside ⊢
      omega
    have rest : Beside (source + min len 64) (target + min len 64) (len - min len 64) := by
      rw [Beside] at beside ⊢
      omega
    rw [ih _ (by omega) _ rest]
    by_cases behind : target + min len 64 ≤ a ∧ a < target + len
    · have long : min len 64 = 64 := by omega
      have read : source + min len 64 + (a - (target + min len 64)) = source + (a - target) := by omega
      have position : 64 + (a - (target + min len 64)) = a - target := by omega
      rw [if_pos (by omega), if_pos (by omega), stream_next, read, position, xorInto_apply first,
        if_neg (by rw [Beside] at beside; omega)]
    · rw [if_neg (by omega), xorInto_apply first]
      by_cases inside : target ≤ a ∧ a < target + min len 64
      · rw [if_pos inside, if_pos (by omega), stream_first key nonce counter (by omega)]
      · rw [if_neg inside, if_neg (by omega)]

end Streams

theorem gathered (f : Nat → Byte) (l : List Nat) (d : Byte) :
    l.foldl (fun d i => d ||| f i) d = 0 ↔ d = 0 ∧ ∀ i ∈ l, f i = 0 := by
  induction l generalizing d with
  | nil => simp
  | cons i l ih =>
    have both : d ||| f i = 0 ↔ d = 0 ∧ f i = 0 := BitVec.or_eq_zero_iff
    rw [List.foldl_cons, ih, both, List.forall_mem_cons, and_assoc]

theorem diff_zero (want tag : List Byte) :
    diff want tag = 0 ↔ ∀ i < 16, want.getD i 0 = tag.getD i 0 := by
  rw [diff, gathered]
  simp [BitVec.xor_eq_zero_iff]

section Sealed
variable (key nonce : Nat → Byte) {plain cipher back : Nat} {len : U32}

theorem sealed_byte (there : Beside plain cipher len.toNat) (m : Memory) {i : Nat}
    (inside : i < len.toNat) : (ubiqosSeal key nonce plain cipher len m).1 (cipher + i) =
      m (plain + i) ^^^ stream key 1 nonce i := by
  have byte := chachaXor_apply key nonce 1 there m (cipher + i)
  rw [if_pos (by omega), Nat.add_sub_cancel_left] at byte
  exact byte

theorem unseal_true {tag : List Byte} {m : Memory}
    (same : tagOf key nonce (bytesFrom m cipher) len = tag) :
    ubiqosUnseal key nonce cipher back len tag m =
      (true, chachaXor key 1 nonce cipher back len.toNat m) := by
  have none : diff (tagOf key nonce (bytesFrom m cipher) len) tag = 0 :=
    (diff_zero _ _).mpr fun i _ => by rw [same]
  rw [ubiqosUnseal, if_neg (not_not_intro none)]

/-- What was sealed comes back and nothing else changes, whatever is rejected leaves the
memory as it was, and a message sealed in place is the one sealed elsewhere. -/
theorem seal_unseal (there : Beside plain cipher len.toNat) (again : Beside cipher back len.toNat)
    (m : Memory) :
    (let sealed := ubiqosSeal key nonce plain cipher len m
      ∃ m', ubiqosUnseal key nonce cipher back len sealed.2 sealed.1 = (true, m') ∧
        ∀ a, m' a = if back ≤ a ∧ a < back + len.toNat then m (plain + (a - back)) else sealed.1 a) ∧
    (∀ (m : Memory) (tag : List Byte),
      (∃ i < 16, (tagOf key nonce (bytesFrom m cipher) len).getD i 0 ≠ tag.getD i 0) →
        ubiqosUnseal key nonce cipher back len tag m = (false, m)) ∧
    (ubiqosSeal key nonce plain plain len m).2 = (ubiqosSeal key nonce plain cipher len m).2 ∧
    ∀ i < len.toNat, (ubiqosSeal key nonce plain plain len m).1 (plain + i) =
      (ubiqosSeal key nonce plain cipher len m).1 (cipher + i) := by
  have inPlace : Beside plain plain len.toNat := Or.inl le_rfl
  have bytes : ∀ i < len.toNat, (ubiqosSeal key nonce plain plain len m).1 (plain + i) =
      (ubiqosSeal key nonce plain cipher len m).1 (cipher + i) := by
    intro i inside
    rw [sealed_byte key nonce inPlace m inside, sealed_byte key nonce there m inside]
  refine ⟨⟨_, unseal_true key nonce rfl, ?_⟩, ?_, tagWith_congr _ _ _ bytes, bytes⟩
  · intro a
    rw [chachaXor_apply key nonce 1 again]
    split
    · next inside =>
      rw [sealed_byte key nonce there m (by omega), BitVec.xor_assoc, BitVec.xor_self, BitVec.xor_zero]
    · rfl
  · rintro m tag ⟨i, small, differ⟩
    have some : diff (tagOf key nonce (bytesFrom m cipher) len) tag ≠ 0 := fun none =>
      differ ((diff_zero _ _).mp none i small)
    rw [ubiqosUnseal, if_pos some]

/-- Only what seal makes is taken: sealed again under the same key and nonce, a message that was
unsealed is the same ciphertext with the same tag. -/
theorem unseal_reseals {place : Nat} (there : Beside cipher back len.toNat)
    (again : Beside back place len.toNat) {tag : List Byte} {m m' : Memory}
    (taken : ubiqosUnseal key nonce cipher back len tag m = (true, m')) :
    (∀ i < len.toNat, (ubiqosSeal key nonce back place len m').1 (place + i) = m (cipher + i)) ∧
      ∀ i < 16, (ubiqosSeal key nonce back place len m').2.getD i 0 = tag.getD i 0 := by
  rw [ubiqosUnseal] at taken
  split at taken
  · cases taken
  · next same =>
    rw [not_not, diff_zero] at same
    obtain ⟨-, rfl⟩ := Prod.ext_iff.mp taken
    have bytes : ∀ i < len.toNat,
        (ubiqosSeal key nonce back place len (chachaXor key 1 nonce cipher back len.toNat m)).1 (place + i) =
          m (cipher + i) := by
      intro i inside
      have opened := sealed_byte key nonce there m inside
      rw [sealed_byte key nonce again _ inside, show chachaXor _ _ _ _ _ _ m (back + i) = _ from opened,
        BitVec.xor_assoc, BitVec.xor_self, BitVec.xor_zero]
    have tags : (ubiqosSeal key nonce back place len (chachaXor key 1 nonce cipher back len.toNat m)).2 =
        tagOf key nonce (bytesFrom m cipher) len := tagWith_congr _ _ _ bytes
    exact ⟨bytes, fun i small => tags ▸ same i small⟩

end Sealed

theorem seal_unseal_three :
    ∃ m', ubiqosUnseal (fun _ => 1) (fun _ => 2) 100 200 3
        (ubiqosSeal (fun _ => 1) (fun _ => 2) 0 100 3 fun _ => 7).2
        (ubiqosSeal (fun _ => 1) (fun _ => 2) 0 100 3 fun _ => 7).1 = (true, m') ∧
      ∀ i < 3, m' (200 + i) = 7 := by
  have there : Beside 0 100 (3 : U32).toNat := Or.inr (by decide)
  have again : Beside 100 200 (3 : U32).toNat := Or.inr (by decide)
  obtain ⟨⟨m', unsealed, restored⟩, -⟩ := seal_unseal (fun _ => 1) (fun _ => 2) there again fun _ => 7
  refine ⟨m', unsealed, ?_⟩
  intro i small
  have three : (3 : U32).toNat = 3 := rfl
  rw [restored, if_pos (by omega)]

def ones : Nat → Byte := fun _ => 1

def note : Memory × List Byte := ubiqosSeal ones ones 0 100 3 fun _ => 7

theorem note_opens : (ubiqosUnseal ones ones 100 200 3 note.2 note.1).1 = true :=
  congrArg Prod.fst (unseal_true ones ones rfl)

def read : Memory := (ubiqosUnseal ones ones 100 200 3 note.2 note.1).2

theorem unseal_reseals_three :
    (∀ i < 3, (ubiqosSeal ones ones 200 300 3 read).1 (300 + i) = note.1 (100 + i)) ∧
      ∀ i < 16, (ubiqosSeal ones ones 200 300 3 read).2.getD i 0 = note.2.getD i 0 := by
  have there : Beside 100 200 (3 : U32).toNat := Or.inr (by decide)
  have again : Beside 200 300 (3 : U32).toNat := Or.inr (by decide)
  have taken {x : Bool × Memory} (opens : x.1 = true) : x = (true, x.2) := by rw [← opens]
  exact unseal_reseals ones ones there again (taken note_opens)

end Ubiqos.Crypto
