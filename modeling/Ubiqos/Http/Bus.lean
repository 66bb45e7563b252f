import Ubiqos.Http.Server

/-!
`/api/i2c`: the transaction that a query spells, and what is written to the bus for the part of the
query that was kept.
-/

namespace Ubiqos.Http

/-- What `api_i2c` writes to `/dev/i2c`, in order. -/
def i2cWrites (env : Around) (query : Text) : List Text :=
  match env.bus with
  | none => []
  | some _ =>
    match param query (ascii "addr") with
    | none => (List.range' 0x08 0x70).map fun addr => [BitVec.ofNat 8 addr, 0, 1, 0]
    | some address =>
      match i2cRequest query address with
      | none => []
      | some (addr, bytes, count) =>
        [[BitVec.ofNat 8 addr, BitVec.ofNat 8 bytes.length, BitVec.ofNat 8 count, 0] ++ bytes]

structure Transaction where
  addr : Nat
  bytes : Text
  count : Nat
  deriving DecidableEq

/-- `x[0]` to `x[3]` and the bytes after them. -/
def Transaction.message (tx : Transaction) : Text :=
  [BitVec.ofNat 8 tx.addr, BitVec.ofNat 8 tx.bytes.length, BitVec.ofNat 8 tx.count, 0] ++ tx.bytes

def HexOf (s : Text) (v : Nat) : Prop :=
  ∃ digits, (s = digits ∨ s = ascii "0x" ++ digits ∨ s = ascii "0X" ++ digits) ∧
    digits ≠ [] ∧ digits.length ≤ 8 ∧ hexDigits digits 0 = some v

def HexBytesOf (s bytes : Text) : Prop :=
  s.map hexval = bytes.flatMap fun b => [some (b.toNat / 16), some (b.toNat % 16)]

def decimalFrom : Text → Nat → Option Nat
  | [], v => some v
  | c :: rest, v =>
    if 0x30 ≤ c ∧ c ≤ 0x39 then decimalFrom rest (v * 10 + (c.toNat - 0x30)) else none

/-- An address and bytes that are in order, and a count whatever its size. -/
structure Written (query : Text) (tx : Transaction) : Prop where
  addr : ∃ address, param query (ascii "addr") = some address ∧ HexOf address tx.addr
  low : tx.addr ≤ 0x7f
  bytes : HexBytesOf ((param query (ascii "w")).getD []) tx.bytes
  few : tx.bytes.length ≤ i2cWriteMax
  count : decimalFrom ((param query (ascii "n")).getD []) 0 = some tx.count

structure Spelled (query : Text) (tx : Transaction) : Prop extends Written query tx where
  most : tx.count ≤ i2cMaxRead
  does : tx.bytes ≠ [] ∨ tx.count ≠ 0

def Wraps (query : Text) : Prop :=
  ∃ tx, Written query tx ∧ 2 ^ 32 ≤ tx.count ∧ tx.count % 2 ^ 32 ≤ i2cMaxRead ∧
    (tx.bytes ≠ [] ∨ tx.count % 2 ^ 32 ≠ 0)

theorem hexval_lt {c : Byte} {d : Nat} (digit : hexval c = some d) : d < 16 := by
  have upper : ∀ {a : Byte} {n : Nat}, a ≤ BitVec.ofNat 8 n → a.toNat ≤ n % 256 := fun le => le
  unfold hexval at digit
  split at digit
  · rename_i range
    have high := upper (n := 0x39) range.2
    simp only [Option.some.injEq] at digit
    omega
  · split at digit
    · rename_i range
      have high := upper (n := 0x66) range.2
      simp only [Option.some.injEq] at digit
      omega
    · split at digit
      · rename_i range
        have high := upper (n := 0x46) range.2
        simp only [Option.some.injEq] at digit
        omega
      · exact absurd digit (by simp)

theorem hexDigits_marked (rest : Text) (v : Nat) :
    hexDigits (ascii "0x" ++ rest) v = none ∧ hexDigits (ascii "0X" ++ rest) v = none :=
  ⟨rfl, rfl⟩

theorem parseHex_iff {s : Text} {v : Nat} : parseHex s = some v ↔ HexOf s v := by
  unfold parseHex HexOf
  dsimp only
  constructor
  · intro reads
    split at reads
    · rename_i marked
      split at reads
      · exact absurd reads (by simp)
      · rename_i fits
        rw [not_or, Nat.not_lt] at fits
        refine ⟨s.drop 2, ?_, fits.1, fits.2, reads⟩
        rw [Bool.or_eq_true, List.isPrefixOf_iff_prefix, List.isPrefixOf_iff_prefix] at marked
        rcases marked with ⟨rest, rfl⟩ | ⟨rest, rfl⟩
        · exact Or.inr (Or.inl rfl)
        · exact Or.inr (Or.inr rfl)
    · split at reads
      · exact absurd reads (by simp)
      · rename_i fits
        rw [not_or, Nat.not_lt] at fits
        exact ⟨s, Or.inl rfl, fits.1, fits.2, reads⟩
  · rintro ⟨digits, form, some', few, reads⟩
    have fits : ¬ (digits = [] ∨ 8 < digits.length) := not_or.mpr ⟨some', Nat.not_lt.mpr few⟩
    rcases form with rfl | rfl | rfl
    · have unmarked : ¬ ((ascii "0x").isPrefixOf s || (ascii "0X").isPrefixOf s) = true := by
        rw [Bool.or_eq_true, List.isPrefixOf_iff_prefix, List.isPrefixOf_iff_prefix]
        rintro (⟨rest, rfl⟩ | ⟨rest, rfl⟩)
        · rw [(hexDigits_marked rest 0).1] at reads
          exact absurd reads (by simp)
        · rw [(hexDigits_marked rest 0).2] at reads
          exact absurd reads (by simp)
      rw [if_neg unmarked, if_neg fits]
      exact reads
    · have marked : ((ascii "0x").isPrefixOf (ascii "0x" ++ digits) ||
          (ascii "0X").isPrefixOf (ascii "0x" ++ digits)) = true := rfl
      have rest : (ascii "0x" ++ digits).drop 2 = digits := rfl
      rw [if_pos marked, rest, if_neg fits]
      exact reads
    · have marked : ((ascii "0x").isPrefixOf (ascii "0X" ++ digits) ||
          (ascii "0X").isPrefixOf (ascii "0X" ++ digits)) = true := rfl
      have rest : (ascii "0X" ++ digits).drop 2 = digits := rfl
      rw [if_pos marked, rest, if_neg fits]
      exact reads

theorem byte_digits {hi lo : Nat} (high : hi < 16) (low : lo < 16) :
    (BitVec.ofNat 8 (hi * 16 + lo)).toNat / 16 = hi ∧ (BitVec.ofNat 8 (hi * 16 + lo)).toNat % 16 = lo := by
  rw [BitVec.toNat_ofNat]
  omega

theorem digits_byte (b : Byte) : BitVec.ofNat 8 (b.toNat / 16 * 16 + b.toNat % 16) = b := by
  rw [Nat.div_add_mod', BitVec.ofNat_toNat, BitVec.setWidth_eq]

theorem hexBytes_iff : ∀ {s bytes : Text},
    s.length % 2 = 0 ∧ hexBytes s = some bytes ↔ HexBytesOf s bytes
  | [], [] => by simp [HexBytesOf, hexBytes]
  | [], b :: bytes => by simp [HexBytesOf, hexBytes]
  | [c], [] => by simp [HexBytesOf]
  | [c], b :: bytes => by simp [HexBytesOf]
  | hi :: lo :: rest, [] => by
    have never : hexBytes (hi :: lo :: rest) ≠ some [] := by
      rw [hexBytes]
      split <;> simp
    simp [HexBytesOf, never]
  | hi :: lo :: rest, b :: bytes => by
    have ih := (@hexBytes_iff rest bytes)
    have even : (hi :: lo :: rest).length % 2 = 0 ↔ rest.length % 2 = 0 := by
      simp only [List.length_cons]
      omega
    have front : HexBytesOf (hi :: lo :: rest) (b :: bytes) ↔
        hexval hi = some (b.toNat / 16) ∧ hexval lo = some (b.toNat % 16) ∧ HexBytesOf rest bytes := by
      simp [HexBytesOf]
    rw [even, front, ← ih, hexBytes]
    constructor
    · rintro ⟨evenly, reads⟩
      split at reads
      · rename_i h l more isHigh isLow tail
        obtain ⟨high, low⟩ := byte_digits (hexval_lt isHigh) (hexval_lt isLow)
        obtain ⟨rfl, rfl⟩ := List.cons_eq_cons.mp (Option.some.inj reads)
        exact ⟨by rw [high, isHigh], by rw [low, isLow], evenly, tail⟩
      · exact absurd reads (by simp)
    · rintro ⟨isHigh, isLow, evenly, tail⟩
      rw [isHigh, isLow, tail]
      dsimp only
      rw [digits_byte]
      exact ⟨evenly, rfl⟩

theorem countOf_eq (s : Text) (v : Nat) :
    countOf s (v % 2 ^ 32) = (decimalFrom s v).map (· % 2 ^ 32) := by
  induction s generalizing v with
  | nil => rfl
  | cons c rest ih =>
    rw [countOf, decimalFrom]
    split
    · rw [← ih (v * 10 + (c.toNat - 0x30))]
      congr 1
      rw [Nat.add_mod, Nat.mul_mod, Nat.mod_mod, ← Nat.mul_mod, ← Nat.add_mod]
    · rfl

theorem HexBytesOf.length {s bytes : Text} (reads : HexBytesOf s bytes) :
    s.length = 2 * bytes.length := by
  have same := congrArg List.length reads
  rw [List.length_map, List.length_flatMap] at same
  rw [same]
  simp [Nat.mul_comm]

theorem i2cRequest_iff {query address : Text} (given : param query (ascii "addr") = some address)
    {addr count : Nat} {bytes : Text} : i2cRequest query address = some (addr, bytes, count) ↔
      ∃ number, Written query ⟨addr, bytes, number⟩ ∧ count = number % 2 ^ 32 ∧ count ≤ i2cMaxRead ∧
        (bytes ≠ [] ∨ count ≠ 0) := by
  have counted := countOf_eq ((param query (ascii "n")).getD []) 0
  rw [Nat.zero_mod] at counted
  constructor
  · intro good
    unfold i2cRequest at good
    dsimp only at good
    split at good
    · exact absurd good (by simp)
    · rename_i a isAddr
      split at good
      · rename_i fits
        split at good
        · rename_i bs c isBytes isCount
          split at good
          · exact absurd good (by simp)
          · rename_i does
            obtain ⟨rfl, rfl, rfl⟩ : a = addr ∧ bs = bytes ∧ c = count := by simpa using good
            have reads := hexBytes_iff.mp ⟨fits.2.1, isBytes⟩
            have length := reads.length
            rw [counted] at isCount
            obtain ⟨number, isNumber, rfl⟩ := Option.map_eq_some_iff.mp isCount
            rw [not_or, Nat.not_lt] at does
            refine ⟨number, ⟨⟨address, given, parseHex_iff.mp isAddr⟩, fits.1, reads, ?_, isNumber⟩, rfl,
              does.1, ?_⟩
            · have few := fits.2.2
              dsimp only
              omega
            · by_contra idle
              rw [not_or, not_not, not_not] at idle
              refine does.2 ⟨?_, idle.2⟩
              rwa [idle.1, List.length_nil, Nat.mul_zero, List.length_eq_zero_iff] at length
        · exact absurd good (by simp)
      · exact absurd good (by simp)
  · rintro ⟨number, written, rfl, most, does⟩
    obtain ⟨⟨address', given', isAddr⟩, low, reads, few, isNumber⟩ := written
    obtain rfl : address' = address := Option.some.inj (given'.symm.trans given)
    obtain ⟨even, isBytes⟩ := hexBytes_iff.mpr reads
    have length : _ = 2 * bytes.length := reads.length
    have isCount : countOf ((param query (ascii "n")).getD []) 0 = some (number % 2 ^ 32) := by
      rw [counted, isNumber]
      rfl
    have fits : addr ≤ 0x7f ∧ ((param query (ascii "w")).getD []).length % 2 = 0 ∧
        ((param query (ascii "w")).getD []).length / 2 ≤ i2cWriteMax := by
      refine ⟨low, even, ?_⟩
      rw [length, Nat.mul_div_cancel_left _ (by decide)]
      exact few
    have busy : ¬ (i2cMaxRead < number % 2 ^ 32 ∨
        (param query (ascii "w")).getD [] = [] ∧ number % 2 ^ 32 = 0) := by
      rintro (excess | ⟨none, zero⟩)
      · omega
      · rw [none, List.length_nil] at length
        have empty : bytes = [] := List.length_eq_zero_iff.mp (by omega)
        exact does.elim (· empty) (· zero)
    unfold i2cRequest
    rw [parseHex_iff.mpr isAddr]
    dsimp only
    rw [if_pos fits, isBytes, isCount]
    exact if_neg busy

theorem i2cWrites_good {env : Around} {bus : Bus} (onBoard : env.bus = some bus) {query address : Text}
    (given : param query (ascii "addr") = some address) {tx : Transaction}
    (good : i2cRequest query address = some (tx.addr, tx.bytes, tx.count)) :
    i2cWrites env query = [tx.message] ∧ (i2cReply env query).1 = ascii "200 OK" := by
  unfold i2cWrites i2cReply
  rw [onBoard]
  dsimp only
  rw [given]
  dsimp only
  rw [good]
  dsimp only
  refine ⟨rfl, ?_⟩
  split <;> rfl

theorem i2cWrites_bad {env : Around} {bus : Bus} (onBoard : env.bus = some bus) {query address : Text}
    (given : param query (ascii "addr") = some address) (bad : i2cRequest query address = none) :
    i2cWrites env query = [] ∧ (i2cReply env query).1 = ascii "400 Bad Request" := by
  unfold i2cWrites i2cReply
  rw [onBoard]
  dsimp only
  rw [given]
  dsimp only
  rw [bad]
  exact ⟨rfl, rfl⟩

theorem i2cWrites_scan {env : Around} {bus : Bus} (onBoard : env.bus = some bus) {query : Text}
    (given : param query (ascii "addr") = none) : i2cWrites env query ≠ [] := by
  unfold i2cWrites
  rw [onBoard]
  dsimp only
  rw [given]
  exact List.cons_ne_nil _ _

/-- A request for `/api/i2c` with an address: its query, and what follows the target. -/
structure BusRequest where
  query : Text
  after : Text
  target : 0x20 ∉ query ∧ 0x0d ∉ query
  ended : ∃ rest, after = 0x20 :: rest ∨ after = 0x0d :: rest
  addressed : (param query (ascii "addr")).isSome
  whole : IsRequest (ascii "GET /api/i2c?" ++ query ++ after)

def BusRequest.text (r : BusRequest) : Text := ascii "GET /api/i2c?" ++ r.query ++ r.after

def BusRequest.kept (r : BusRequest) : Text := (r.query.takeWhile (· ≠ 0)).take 118

theorem takeWhile_first {query after : Text} (target : 0x20 ∉ query ∧ 0x0d ∉ query)
    (ended : ∃ rest, after = 0x20 :: rest ∨ after = 0x0d :: rest) :
    (query ++ after).takeWhile (fun c => c ≠ 0 ∧ c ≠ 0x20 ∧ c ≠ 0x0d) = query.takeWhile (· ≠ 0) := by
  induction query with
  | nil => obtain ⟨rest, rfl | rfl⟩ := ended <;> rfl
  | cons c query ih =>
    obtain ⟨noSpace, noReturn⟩ := target
    rw [List.mem_cons, not_or] at noSpace noReturn
    have rest := ih ⟨noSpace.2, noReturn.2⟩
    rw [List.cons_append]
    by_cases zero : c = 0
    · rw [List.takeWhile_cons_of_neg (by simp [zero]), List.takeWhile_cons_of_neg (by simp [zero])]
    · have passes : c ≠ 0 ∧ c ≠ 0x20 ∧ c ≠ 0x0d := ⟨zero, Ne.symm noSpace.1, Ne.symm noReturn.1⟩
      rw [List.takeWhile_cons, List.takeWhile_cons, rest, if_pos (decide_eq_true passes),
        if_pos (decide_eq_true zero)]

theorem BusRequest.path (r : BusRequest) :
    pathOf (r.text.take (reqMax - 1)) = ascii "/api/i2c?" ++ r.kept := by
  have cut : (r.text.take (reqMax - 1)).drop 4 =
      (ascii "/api/i2c?" ++ (r.query ++ r.after)).take 251 := by
    rw [BusRequest.text, List.append_assoc]
    rfl
  have front : ∀ rest : Text, (ascii "/api/i2c?" ++ rest).takeWhile (fun c => c ≠ 0 ∧ c ≠ 0x20 ∧ c ≠ 0x0d) =
      ascii "/api/i2c?" ++ rest.takeWhile (fun c => c ≠ 0 ∧ c ≠ 0x20 ∧ c ≠ 0x0d) := fun _ => rfl
  rw [pathOf, cut, ← List.take_takeWhile, front, takeWhile_first r.target r.ended, List.take_take]
  rfl

theorem BusRequest.served (r : BusRequest) (client : Client) (pages : Pages) (env : Around) (line : Line) :
    serve client pages env (r.text.take (reqMax - 1)) line = apiI2c client env r.kept line := by
  have get : (ascii "GET ").isPrefixOf (r.text.take (reqMax - 1)) = true := by
    rw [BusRequest.text, List.append_assoc]
    rfl
  unfold serve
  rw [get, r.path]
  rfl

def BusRequest.Kept (r : BusRequest) : Prop := r.kept = r.query

/-- The bus does what the whole query spells, or the answer is 400 and nothing is written. Without a bus
nothing can be. -/
def Follows (env : Around) (r : BusRequest) : Prop :=
  match env.bus with
  | none => i2cWrites env r.kept = []
  | some _ =>
    (∀ tx, Spelled r.query tx → r.Kept → i2cWrites env r.kept = [tx.message]) ∧
    (¬ (r.Kept ∧ ∃ tx, Spelled r.query tx) →
      i2cWrites env r.kept = [] ∧ (i2cReply env r.kept).1 = ascii "400 Bad Request")

/-- No count is wrapped into a good one; and a query that is cut has its address in what is left, and no
transaction. -/
def BusRequest.Sound (r : BusRequest) : Prop :=
  ¬ Wraps r.kept ∧
    (r.kept ≠ r.query → (param r.kept (ascii "addr")).isSome ∧ ¬ ∃ tx, Spelled r.kept tx)

theorem HexOf.unique {s : Text} {v v' : Nat} (one : HexOf s v) (other : HexOf s v') : v = v' :=
  Option.some.inj ((parseHex_iff.mpr one).symm.trans (parseHex_iff.mpr other))

theorem Written.unique {query : Text} {tx tx' : Transaction} (one : Written query tx)
    (other : Written query tx') : tx = tx' := by
  obtain ⟨⟨address, given, isAddr⟩, -, isBytes, -, isCount⟩ := one
  obtain ⟨⟨address', given', isAddr'⟩, -, isBytes', -, isCount'⟩ := other
  obtain rfl : address = address' := Option.some.inj (given.symm.trans given')
  have addr := isAddr.unique isAddr'
  have bytes := Option.some.inj ((hexBytes_iff.mpr isBytes).2.symm.trans (hexBytes_iff.mpr isBytes').2)
  have count := Option.some.inj (isCount.symm.trans isCount')
  cases tx
  cases tx'
  dsimp only at addr bytes count
  rw [addr, bytes, count]

theorem taken_iff {query address : Text} (given : param query (ascii "addr") = some address) :
    (i2cRequest query address).isSome ↔ (∃ tx, Spelled query tx) ∨ Wraps query := by
  rw [Option.isSome_iff_exists]
  constructor
  · rintro ⟨⟨addr, bytes, count⟩, good⟩
    obtain ⟨number, written, rfl, most, does⟩ := (i2cRequest_iff given).mp good
    by_cases small : number < 2 ^ 32
    · rw [Nat.mod_eq_of_lt small] at most does
      exact Or.inl ⟨_, written, most, does⟩
    · exact Or.inr ⟨_, written, Nat.le_of_not_lt small, most, does⟩
  · rintro (⟨tx, spelled⟩ | ⟨tx, written, _, most, does⟩)
    · have most := spelled.most
      have small : tx.count % 2 ^ 32 = tx.count := by
        unfold i2cMaxRead at most
        omega
      exact ⟨(tx.addr, tx.bytes, tx.count), (i2cRequest_iff given).mpr
        ⟨tx.count, spelled.toWritten, small.symm, most, spelled.does⟩⟩
    · exact ⟨(tx.addr, tx.bytes, tx.count % 2 ^ 32), (i2cRequest_iff given).mpr
        ⟨tx.count, written, rfl, most, does⟩⟩

theorem i2cRequest_spelled {query address : Text} (given : param query (ascii "addr") = some address)
    {tx : Transaction} (spelled : Spelled query tx) :
    i2cRequest query address = some (tx.addr, tx.bytes, tx.count) := by
  have most := spelled.most
  have small : tx.count % 2 ^ 32 = tx.count := by
    unfold i2cMaxRead at most
    omega
  exact (i2cRequest_iff given).mpr ⟨tx.count, spelled.toWritten, small.symm, most, spelled.does⟩

theorem Wraps.unspelled {query : Text} (wraps : Wraps query) : ¬ ∃ tx, Spelled query tx := by
  rintro ⟨tx, spelled⟩
  obtain ⟨tx', written, high, -⟩ := wraps
  have most := spelled.most
  rw [spelled.toWritten.unique written] at most
  unfold i2cMaxRead at most
  omega

theorem follows_iff (env : Around) (r : BusRequest) :
    Follows env r ↔ env.bus.isSome → r.Sound := by
  unfold Follows
  split
  · rename_i isNone
    rw [isNone]
    refine iff_of_true ?_ nofun
    unfold i2cWrites
    rw [isNone]
  · rename_i bus onBoard
    rw [onBoard]
    simp only [Option.isSome_some, forall_const]
    unfold BusRequest.Sound BusRequest.Kept
    cases isAddr : param r.kept (ascii "addr") with
    | none =>
      -- the address was cut off, and what is done is a scan
      have cut : r.kept ≠ r.query := by
        intro whole
        have addressed := r.addressed
        rw [← whole, isAddr] at addressed
        exact Bool.false_ne_true addressed
      refine iff_of_false (fun follows => ?_) (fun sound => ?_)
      · exact i2cWrites_scan onBoard isAddr (follows.2 fun both => cut both.1).1
      · exact Bool.false_ne_true (sound.2 cut).1
    | some address =>
      have taken := taken_iff isAddr
      by_cases isSpelled : ∃ tx, Spelled r.kept tx
      · obtain ⟨tx, spelled⟩ := isSpelled
        have wrote := (i2cWrites_good onBoard isAddr (i2cRequest_spelled isAddr spelled)).1
        have sane : ¬ Wraps r.kept := fun wraps => wraps.unspelled ⟨tx, spelled⟩
        by_cases whole : r.kept = r.query
        · refine iff_of_true ⟨fun other spelled' _ => ?_, fun never => ?_⟩ ⟨sane, fun cut => absurd whole cut⟩
          · rw [← whole] at spelled'
            rw [wrote, spelled.toWritten.unique spelled'.toWritten]
          · exact absurd ⟨whole, tx, whole ▸ spelled⟩ never
        · refine iff_of_false (fun follows => ?_) (fun sound => ?_)
          · rw [(follows.2 fun both => whole both.1).1] at wrote
            exact absurd wrote (by simp)
          · exact (sound.2 whole).2 ⟨tx, spelled⟩
      · by_cases wraps : Wraps r.kept
        · refine iff_of_false (fun follows => ?_) (fun sound => sound.1 wraps)
          obtain ⟨⟨addr, bytes, count⟩, good⟩ := Option.isSome_iff_exists.mp (taken.mpr (Or.inr wraps))
          have wrote := (@i2cWrites_good _ _ onBoard _ _ isAddr ⟨addr, bytes, count⟩ good).1
          rw [(follows.2 fun both => isSpelled (both.1.symm ▸ both.2)).1] at wrote
          exact absurd wrote (by simp)
        · have bad : i2cRequest r.kept address = none := by
            rw [← Option.not_isSome_iff_eq_none, taken]
            exact not_or.mpr ⟨isSpelled, wraps⟩
          refine iff_of_true ⟨fun tx spelled whole => ?_, fun _ => i2cWrites_bad onBoard isAddr bad⟩
            ⟨wraps, fun _ => ⟨rfl, isSpelled⟩⟩
          rw [← whole] at spelled
          exact absurd ⟨tx, spelled⟩ isSpelled

/-- Heard byte by byte, a request is answered for what was kept of its query, and the bus follows the
whole query exactly when that is sound. -/
theorem bus_follows_url (r : BusRequest) (client : Client) (pages : Pages) (around : Nat → Around)
    (count : Nat) (line : Line) :
    r.text.foldl (takeByte client pages around) ⟨.fresh, count, line⟩ =
        ⟨.fresh, count + 1, apiI2c client (around count) r.kept line⟩ ∧
      (Follows (around count) r ↔ (around count).bus.isSome → r.Sound) := by
  have whole : IsRequest r.text := r.whole
  refine ⟨?_, follows_iff (around count) r⟩
  rw [hear_request whole, r.served]

def wired : Around := { holding true [] with bus := some ⟨fun _ => true, fun n => some (List.replicate n 0)⟩ }

def wrapped : BusRequest where
  query := ascii "addr=77&n=4294967297"
  after := ascii " HTTP/1.1\r\n\r\n"
  target := by decide
  ended := ⟨_, Or.inl rfl⟩
  addressed := by decide
  whole := by decide +kernel

def clipped : BusRequest where
  query := List.replicate 106 0x78 ++ ascii "&addr=77&n=64"
  after := ascii " HTTP/1.1\r\n\r\n"
  target := by decide
  ended := ⟨_, Or.inl rfl⟩
  addressed := by decide +kernel
  whole := by decide +kernel

/-- A count of 4294967297 reads one byte, and a query that is cut reads six for 64. -/
theorem count_becomes_another :
    (i2cWrites wired wrapped.kept = [[0x77, 0, 1, 0]] ∧ ¬ Follows wired wrapped) ∧
      i2cWrites wired clipped.kept = [[0x77, 0, 6, 0]] ∧ ¬ Follows wired clipped := by
  have wraps : Wraps wrapped.query := by
    have addr : HexOf (ascii "77") 0x77 := parseHex_iff.mp (by decide)
    have bytes : HexBytesOf ((param wrapped.query (ascii "w")).getD []) [] := by
      unfold HexBytesOf
      decide +kernel
    exact ⟨⟨0x77, [], 4294967297⟩, ⟨⟨ascii "77", by decide +kernel, addr⟩, by decide, bytes, by decide,
      by decide +kernel⟩, by decide +kernel⟩
  have first : i2cWrites wired wrapped.kept = [[0x77, 0, 1, 0]] := by decide +kernel
  have second : i2cWrites wired clipped.kept = [[0x77, 0, 6, 0]] := by decide +kernel
  refine ⟨⟨first, fun follows => ?_⟩, second, fun follows => ?_⟩
  · rw [(follows.2 fun both => wraps.unspelled both.2).1] at first
    exact absurd first (by decide)
  · have cut : clipped.kept ≠ clipped.query := by decide +kernel
    rw [(follows.2 fun both => cut both.1).1] at second
    exact absurd second (by decide)

end Ubiqos.Http
