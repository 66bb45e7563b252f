import Ubiqos.Lib.Words
import Ubiqos.Radio.Parsers

/-!
Messages as they are sent: numbers of up to ten bytes, and fields of four kinds. What the `put`
functions of `ehspi.c` and `ehrpc.c` write is such a message, and each program's walk is followed
over it field by field.
-/

namespace Ubiqos.Radio

open Cells

def more (group : BitVec 7) : Byte := group.setWidth 8 ||| 0x80

structure Varint where
  front : List (BitVec 7)
  last : BitVec 7
  ten : front.length < 10

def groupsValue : List (BitVec 7) → Nat
  | [] => 0
  | g :: rest => g.toNat + 128 * groupsValue rest

def Varint.bytes (v : Varint) : List Byte := v.front.map more ++ [v.last.setWidth 8]

def Varint.value (v : Varint) : Nat := groupsValue (v.front ++ [v.last])

def Varint.size (v : Varint) : Nat := v.front.length + 1

@[simp] theorem Varint.bytes_length (v : Varint) : v.bytes.length = v.size := by
  simp [Varint.bytes, Varint.size]

theorem more_toNat (g : BitVec 7) : (more g).toNat = g.toNat + 128 := by
  revert g
  decide

theorem last_toNat (g : BitVec 7) : (g.setWidth 8).toNat = g.toNat := by
  rw [BitVec.toNat_setWidth]
  exact Nat.mod_eq_of_lt (g.isLt.trans (by decide))

/-- How many of so many bytes are read, when `done` have been. -/
def consumed (cut : Bool) (done size : Nat) : Nat := if cut then min size (5 - done) else size

section Numbers
variable {cut : Bool} {mem : Memory} {base len : Nat}

theorem getVarint_place (front : List (BitVec 7)) (last : BitVec 7) (v : U32) {done place : Nat}
    (early : cut = true → done ≤ 4)
    (sits : Sits mem (base + place) (front.map more ++ [last.setWidth 8]))
    (fits : place + front.length < len) :
    (getVarint cut mem base len v (7 * done) place).2 =
      place + consumed cut done (front.length + 1) := by
  induction front generalizing v done place with
  | nil =>
    have small := last.isLt
    have ends := (last_byte (last.setWidth 8)).mpr (by rw [last_toNat]; exact small)
    rw [getVarint, if_pos (by simpa using fits), (sits_cons.mp sits).1]
    simp only
    rw [if_pos ends]
    cases cut with
    | false => rfl
    | true =>
      have := early rfl
      simp only [consumed, List.length_nil, ↓reduceIte]
      omega
  | cons g front ih =>
    rw [List.map_cons, List.cons_append, sits_cons] at sits
    rw [List.length_cons] at fits
    have goes : more g &&& 0x80 ≠ 0 := mt (last_byte (more g)).mp (by rw [more_toNat]; omega)
    rw [getVarint, if_pos (by omega), sits.1]
    simp only
    rw [if_neg goes]
    by_cases five : cut ∧ 28 < 7 * done + 7
    · have := early five.1
      rw [if_pos five]
      simp only [consumed, five.1, ↓reduceIte, List.length_cons]
      omega
    · have room : cut = true → done + 1 ≤ 4 := fun yes => by
        have := early yes
        have : ¬ 28 < 7 * done + 7 := fun excess => five ⟨yes, excess⟩
        omega
      rw [if_neg five, show 7 * done + 7 = 7 * (done + 1) by omega, ih _ room sits.2 (by omega)]
      cases cut with
      | false =>
        simp only [consumed, List.length_cons, Bool.false_eq_true, ↓reduceIte]
        omega
      | true =>
        have := room rfl
        simp only [consumed, List.length_cons, ↓reduceIte]
        omega

theorem encoded_value (front : List (BitVec 7)) (last : BitVec 7) {place : Nat}
    (sits : Sits mem (base + place) (front.map more ++ [last.setWidth 8]))
    (fits : place + front.length < len) :
    encoded mem base len place = groupsValue (front ++ [last]) := by
  induction front generalizing place with
  | nil =>
    have here := (sits_cons.mp sits).1
    have small := last.isLt
    rw [encoded, if_pos (by simpa using fits), here]
    simp only [last_toNat, List.nil_append, groupsValue]
    rw [if_pos small]
    omega
  | cons g front ih =>
    rw [List.map_cons, List.cons_append, sits_cons] at sits
    rw [List.length_cons] at fits
    rw [encoded, if_pos (by omega), sits.1, ih sits.2 (by omega)]
    have small := g.isLt
    simp only [more_toNat, List.cons_append, groupsValue]
    rw [if_neg (by omega)]
    omega

theorem getVarint_varint (v : Varint) {place : Nat} (sits : Sits mem (base + place) v.bytes)
    (fits : place + v.size ≤ len) :
    getVarint cut mem base len 0 0 place = (BitVec.ofNat 32 v.value, place + consumed cut 0 v.size) := by
  have room : place + v.front.length < len := by
    rw [Varint.size] at fits
    omega
  have value := (@getVarint_value cut mem base len) place
  rw [encoded_value v.front v.last sits room] at value
  refine Prod.ext (BitVec.eq_of_toNat_eq ?_) ?_
  · rw [value, BitVec.toNat_ofNat]
    rfl
  · exact @getVarint_place cut mem base len v.front v.last 0 0 place (fun _ => Nat.zero_le 4) sits room

end Numbers

structure Tag (wire : Nat) where
  code : Varint
  number : Nat
  some : 0 < number
  small : number < 2 ^ 29
  value : code.value = 8 * number + wire

inductive Field where
  | varint (tag : Tag 0) (value : Varint)
  | bytes (tag : Tag 2) (length : Varint) (content : List Byte) (sent : length.value = content.length)
  | fixed64 (tag : Tag 1) (content : List Byte) (eight : content.length = 8)
  | fixed32 (tag : Tag 5) (content : List Byte) (four : content.length = 4)

def Field.sent : Field → List Byte
  | .varint tag value => tag.code.bytes ++ value.bytes
  | .bytes tag length content _ => tag.code.bytes ++ (length.bytes ++ content)
  | .fixed64 tag content _ | .fixed32 tag content _ => tag.code.bytes ++ content

def message (fields : List Field) : List Byte := fields.flatMap Field.sent

def Field.piece (place : Nat) : Field → Option Piece
  | .varint tag value => some (.varint tag.number (BitVec.ofNat 32 value.value))
  | .bytes tag length content _ =>
    some (.bytes tag.number (place + tag.code.size + length.size) (BitVec.ofNat 32 content.length))
  | .fixed64 .. | .fixed32 .. => none

def Field.Short : Field → Prop
  | .varint tag value => tag.code.size ≤ 5 ∧ value.size ≤ 5
  | .bytes tag length _ _ => tag.code.size ≤ 5 ∧ length.size ≤ 5
  | .fixed64 tag _ _ | .fixed32 tag _ _ => tag.code.size ≤ 5

def Field.Fixed : Field → Prop
  | .fixed64 .. | .fixed32 .. => True
  | .varint .. | .bytes .. => False

def putVarint (v : U32) : List Byte :=
  if 0x80 ≤ v.toNat then (v ||| 0x80).setWidth 8 :: putVarint (v >>> 7) else [v.setWidth 8]
termination_by v.toNat
decreasing_by
  rw [BitVec.toNat_ushiftRight, Nat.shiftRight_eq_div_pow]
  exact Nat.div_lt_self (by omega) (by decide)

/-- The `put_field` of `ehspi.c`. -/
def putField (field v : U32) : List Byte := putVarint (field <<< 3) ++ putVarint v

/-- The `put_field` of `ehrpc.c`. -/
def putFieldWire (field wire v : U32) : List Byte := putVarint (field <<< 3 ||| wire) ++ putVarint v

/-- The `put_bytes` of both. -/
def putBytes (field : U32) (b : List Byte) : List Byte :=
  putVarint (field <<< 3 ||| 2) ++ putVarint (BitVec.ofNat 32 b.length) ++ b

theorem more_low (v : U32) : (v ||| 0x80).setWidth 8 = more (v.setWidth 7) := by
  have byte : ∀ b : Byte, b ||| 0x80 = more (b.setWidth 7) := by decide
  have low : (v.setWidth 8).setWidth 7 = v.setWidth 7 := BitVec.setWidth_setWidth_of_le v (by decide)
  rw [BitVec.setWidth_or, ← low]
  exact byte (v.setWidth 8)

theorem low_group (v : U32) : (v.setWidth 7).toNat = v.toNat % 128 := BitVec.toNat_setWidth 7 v

theorem next_groups (v : U32) : (v >>> 7).toNat = v.toNat / 128 := by
  rw [BitVec.toNat_ushiftRight, Nat.shiftRight_eq_div_pow]

theorem putVarint_last {v : U32} (small : v.toNat < 128) : putVarint v = [(v.setWidth 7).setWidth 8] := by
  have byte : v.setWidth 8 = (v.setWidth 7).setWidth 8 := by
    refine BitVec.eq_of_toNat_eq ?_
    rw [last_toNat, low_group, BitVec.toNat_setWidth]
    omega
  rw [putVarint, if_neg (by omega), byte]

theorem putVarint_groups (k : Nat) (v : U32) (small : v.toNat < 2 ^ (7 * (k + 1))) :
    ∃ front last, putVarint v = front.map more ++ [BitVec.setWidth 8 last] ∧
      groupsValue (front ++ [last]) = v.toNat ∧ front.length ≤ k := by
  induction k generalizing v with
  | zero =>
    exact ⟨[], v.setWidth 7, putVarint_last small, by simp [groupsValue]; omega, Nat.le_refl 0⟩
  | succ k ih =>
    have last := low_group v
    by_cases done : v.toNat < 128
    · exact ⟨[], v.setWidth 7, putVarint_last done, by simp [groupsValue]; omega, Nat.zero_le _⟩
    · have next := next_groups v
      have width : 2 ^ (7 * (k + 1 + 1)) = 2 ^ (7 * (k + 1)) * 128 := pow_add 2 (7 * (k + 1)) 7
      obtain ⟨front, final, written, value, short⟩ := ih (v >>> 7) (by omega)
      refine ⟨v.setWidth 7 :: front, final, ?_, ?_, Nat.succ_le_succ short⟩
      · rw [putVarint, if_pos (by omega), more_low, written]
        rfl
      · rw [List.cons_append, groupsValue, value]
        omega

theorem putVarint_varint (v : U32) :
    ∃ x : Varint, x.bytes = putVarint v ∧ x.value = v.toNat ∧ x.size ≤ 5 := by
  have big := v.isLt
  obtain ⟨front, last, written, value, short⟩ := putVarint_groups 4 v (by omega)
  exact ⟨⟨front, last, by omega⟩, written.symm, value, Nat.succ_le_succ short⟩

/-- The fields that a walk reports, each with where it goes on from, and where the turn that ended it
began; nothing when it has not ended after so many turns. -/
def walked (style : Style) (mem : Memory) (len : Nat) : Nat → Nat → Option (List (Nat × Piece) × Nat)
  | 0, _ => none
  | fuel + 1, place =>
    match turn style mem 0 len place (Run.begin ()) with
    | .ends _ => some ([], place)
    | .goes next piece _ => (walked style mem len fuel next).map fun rest =>
      ((piece.map (next, ·)).toList ++ rest.1, rest.2)

def Turn.step {σ : Type} : Turn σ → Option (Nat × Option Piece)
  | .ends _ => none
  | .goes next piece _ => some (next, piece)

def placed (bytes : List Byte) : Memory := fun i => bytes.getD i 0

def decode (style : Style) (bytes : List Byte) : Option (List (Nat × Piece) × Nat) :=
  walked style (placed bytes) bytes.length (bytes.length + 1) 0

section Turns
variable {σ : Type} {style : Style} {mem : Memory} {len place : Nat} {r : Run σ} {wire : Nat}

theorem Tag.read {tag : Tag wire} (cut : Bool) (low : wire < 8) (sits : Sits mem place tag.code.bytes)
    (fits : place + tag.code.size ≤ len) :
    ∃ v : U32, getVarint cut mem 0 len 0 0 place = (v, place + consumed cut 0 tag.code.size) ∧
      v.toNat / 8 = tag.number ∧ v.toNat % 8 = wire ∧ 0 < v.toNat / 8 ∧ place < len := by
  have small := tag.small
  have value := tag.value
  have named := tag.some
  have occupied : 0 < tag.code.size := Nat.succ_pos _
  refine ⟨BitVec.ofNat 32 tag.code.value, getVarint_varint tag.code (by rwa [Nat.zero_add]) fits, ?_⟩
  rw [BitVec.toNat_ofNat, Nat.mod_eq_of_lt (by omega)]
  omega

theorem turn_more {v : U32} {after : Nat} (read : getVarint style.cut mem 0 len 0 0 place = (v, after))
    (some : 0 < v.toNat / 8) (inside : place < len) : (turn style mem 0 len place r).step =
      if v.toNat % 8 = 0 then
        let w := getVarint style.cut mem 0 len 0 0 after
        .some (w.2, .some (.varint (v.toNat / 8) w.1))
      else if v.toNat % 8 = 2 then
        let k := getVarint style.cut mem 0 len 0 0 after
        let next := (k.2 + k.1.toNat) % 2 ^ 32
        if style.check.passes k.2 k.1.toNat len then .some (next, .some (.bytes (v.toNat / 8) k.2 k.1))
        else if style.check = .none then .some (next, none)
        else none
      else if style.fixed ∧ v.toNat % 8 = 5 then .some ((after + 4) % 2 ^ 32, none)
      else if style.fixed ∧ v.toNat % 8 = 1 then .some ((after + 8) % 2 ^ 32, none)
      else none := by
  have named : ¬ (style.zeroEnds = true ∧ v.toNat / 8 = 0) := fun zero => by omega
  unfold turn
  simp only [inside, read, ↓reduceIte, named, Nat.zero_add]
  split_ifs <;> rfl

theorem consumed_whole {cut : Bool} {size : Nat} (whole : cut = true → size ≤ 5) : consumed cut 0 size = size := by
  cases cut with
  | false => rfl
  | true => exact Nat.min_eq_left (whole rfl)

theorem turn_bytes {v : U32} {after place' length : Nat} (small : len < 2 ^ 32) (sum : style.check = .sum)
    (read : getVarint style.cut mem 0 len 0 0 place = (v, after)) (some : 0 < v.toNat / 8)
    (inside : place < len) (kind : v.toNat % 8 = 2)
    (value : getVarint style.cut mem 0 len 0 0 after = (BitVec.ofNat 32 length, place'))
    (fits : place' + length ≤ len) :
    (turn style mem 0 len place r).step =
      .some (place' + length, .some (.bytes (v.toNat / 8) place' (BitVec.ofNat 32 length))) := by
  have whole : (BitVec.ofNat 32 length).toNat = length := by
    rw [BitVec.toNat_ofNat]
    exact Nat.mod_eq_of_lt (by omega)
  have exact : (place' + length) % 2 ^ 32 = place' + length := Nat.mod_eq_of_lt (by omega)
  rw [turn_more read some inside, if_neg (by omega), if_pos kind]
  simp only [value, whole, exact, sum]
  rw [if_pos (passes_inside small fits)]

theorem turn_whole (f : Field) (small : len < 2 ^ 32) (sum : style.check = .sum)
    (whole : style.cut = true → f.Short) (sits : Sits mem place f.sent)
    (fits : place + f.sent.length ≤ len) : (turn style mem 0 len place r).step =
      match f with
      | .varint .. | .bytes .. => some (place + f.sent.length, f.piece place)
      | .fixed64 .. | .fixed32 .. => if style.fixed then some (place + f.sent.length, none) else none := by
  cases f with
  | varint tag value =>
    rw [Field.sent, List.length_append, Varint.bytes_length, Varint.bytes_length] at fits ⊢
    obtain ⟨first, second⟩ := sits_append.mp sits
    rw [Varint.bytes_length] at second
    have long : place + tag.code.size ≤ len := by omega
    obtain ⟨v, read, number, kind, some, inside⟩ := tag.read style.cut (by decide) first long
    rw [consumed_whole fun yes => (whole yes).1] at read
    rw [turn_more read some inside, if_pos kind, getVarint_varint value (by rwa [Nat.zero_add]) (by omega),
      consumed_whole fun yes => (whole yes).2, number, Field.piece, Nat.add_assoc]
  | bytes tag length content sent =>
    rw [Field.sent, List.length_append, List.length_append, Varint.bytes_length,
      Varint.bytes_length] at fits ⊢
    obtain ⟨first, second⟩ := sits_append.mp sits
    rw [Varint.bytes_length] at second
    have long : place + tag.code.size ≤ len := by omega
    obtain ⟨v, read, number, kind, some, inside⟩ := tag.read style.cut (by decide) first long
    rw [consumed_whole fun yes => (whole yes).1] at read
    have value : getVarint style.cut mem 0 len 0 0 (place + tag.code.size) =
        (BitVec.ofNat 32 content.length, place + tag.code.size + length.size) := by
      rw [getVarint_varint length (by rw [Nat.zero_add]; exact (sits_append.mp second).1) (by omega),
        consumed_whole fun yes => (whole yes).2, sent]
    rw [turn_bytes small sum read some inside kind value (by omega), number, Field.piece]
    simp only [Nat.add_assoc]
  | fixed64 tag content eight =>
    rw [Field.sent, List.length_append, Varint.bytes_length, eight] at fits ⊢
    obtain ⟨first, -⟩ := sits_append.mp sits
    have long : place + tag.code.size ≤ len := by omega
    obtain ⟨v, read, number, kind, some, inside⟩ := tag.read style.cut (by decide) first long
    rw [consumed_whole fun yes => whole yes] at read
    have exact : (place + tag.code.size + 8) % 2 ^ 32 = place + (tag.code.size + 8) := by
      rw [Nat.add_assoc]
      exact Nat.mod_eq_of_lt (by omega)
    rw [turn_more read some inside, kind, exact]
    cases style.fixed <;> simp
  | fixed32 tag content four =>
    rw [Field.sent, List.length_append, Varint.bytes_length, four] at fits ⊢
    obtain ⟨first, -⟩ := sits_append.mp sits
    have long : place + tag.code.size ≤ len := by omega
    obtain ⟨v, read, number, kind, some, inside⟩ := tag.read style.cut (by decide) first long
    rw [consumed_whole fun yes => whole yes] at read
    have exact : (place + tag.code.size + 4) % 2 ^ 32 = place + (tag.code.size + 4) := by
      rw [Nat.add_assoc]
      exact Nat.mod_eq_of_lt (by omega)
    rw [turn_more read some inside, kind, exact]
    cases style.fixed <;> simp

theorem groupsValue_append (a b : List (BitVec 7)) :
    groupsValue (a ++ b) = groupsValue a + 128 ^ a.length * groupsValue b := by
  induction a with
  | nil => simp [groupsValue]
  | cons g a ih =>
    rw [List.cons_append, groupsValue, groupsValue, ih, List.length_cons, pow_succ]
    ring

theorem Tag.rest {tag : Tag wire} (cut : Bool) (low : wire < 8) (long : 5 < tag.code.size)
    (sits : Sits mem place tag.code.bytes) (fits : place + tag.code.size ≤ len) :
    getVarint cut mem 0 len 0 0 (place + 5) = (0, place + tag.code.size) := by
  have small := tag.small
  have value := tag.value
  have ten := tag.code.ten
  rw [Varint.size] at long fits ⊢
  have parts : tag.code.front = tag.code.front.take 5 ++ tag.code.front.drop 5 :=
    (List.take_append_drop 5 _).symm
  have five : (tag.code.front.take 5).length = 5 := by
    rw [List.length_take]
    omega
  let rest : Varint := ⟨tag.code.front.drop 5, tag.code.last, by rw [List.length_drop]; omega⟩
  have there : Sits mem (place + 5) rest.bytes := by
    rw [Varint.bytes, parts, List.map_append, List.append_assoc, sits_append, List.length_map, five] at sits
    exact sits.2
  have size : rest.size = tag.code.front.length + 1 - 5 := by
    simp only [Varint.size, rest, List.length_drop]
    omega
  have whole : tag.code.value = groupsValue (tag.code.front.take 5) + 128 ^ 5 * rest.value := by
    conv_lhs => rw [Varint.value, parts, List.append_assoc, groupsValue_append, five]
    rfl
  have none : rest.value = 0 := by
    by_contra some
    have : 128 ^ 5 ≤ 128 ^ 5 * rest.value := Nat.le_mul_of_pos_right _ (Nat.pos_of_ne_zero some)
    omega
  have read : getVarint cut mem 0 len 0 0 (place + 5) =
      (BitVec.ofNat 32 rest.value, place + 5 + consumed cut 0 rest.size) :=
    getVarint_varint rest (by rwa [Nat.zero_add]) (by omega)
  rw [none, consumed_whole fun _ => by omega] at read
  rw [read]
  refine Prod.ext rfl ?_
  dsimp only
  omega

theorem consumed_long {size : Nat} (long : 5 < size) : consumed true 0 size = 5 := by
  simp only [consumed, ↓reduceIte]
  omega

theorem turn_long {f : Field} (small : len < 2 ^ 32) (sum : style.check = .sum) (cut : style.cut = true)
    (long : ¬ f.Short) (plain : ¬ f.Fixed) (sits : Sits mem place f.sent)
    (fits : place + f.sent.length ≤ len) :
    ∃ next piece, (turn style mem 0 len place r).step = some (next, some piece) ∧
      next < place + f.sent.length := by
  cases f with
  | varint tag value =>
    have occupied : 0 < value.size := Nat.succ_pos _
    rw [Field.sent, List.length_append, Varint.bytes_length, Varint.bytes_length] at fits ⊢
    obtain ⟨first, second⟩ := sits_append.mp sits
    rw [Varint.bytes_length] at second
    have within : place + tag.code.size ≤ len := by omega
    obtain ⟨v, read, number, kind, some, inside⟩ := tag.read style.cut (by decide) first within
    rw [turn_more read some inside, if_pos kind]
    refine ⟨_, _, rfl, ?_⟩
    by_cases five : tag.code.size ≤ 5
    · have cuts : 5 < value.size := Nat.lt_of_not_le fun short => long ⟨five, short⟩
      rw [consumed_whole fun _ => five, getVarint_varint value (by rwa [Nat.zero_add]) (by omega), cut,
        consumed_long cuts]
      dsimp only
      omega
    · rw [cut, consumed_long (by omega), tag.rest true (by decide) (by omega) first within]
      dsimp only
      omega
  | bytes tag length content sent =>
    have occupied : 0 < length.size := Nat.succ_pos _
    rw [Field.sent, List.length_append, List.length_append, Varint.bytes_length,
      Varint.bytes_length] at fits ⊢
    obtain ⟨first, second⟩ := sits_append.mp sits
    rw [Varint.bytes_length] at second
    have within : place + tag.code.size ≤ len := by omega
    obtain ⟨v, read, number, kind, some, inside⟩ := tag.read style.cut (by decide) first within
    by_cases five : tag.code.size ≤ 5
    · have cuts : 5 < length.size := Nat.lt_of_not_le fun short => long ⟨five, short⟩
      rw [consumed_whole fun _ => five] at read
      have value : getVarint style.cut mem 0 len 0 0 (place + tag.code.size) =
          (BitVec.ofNat 32 content.length, place + tag.code.size + 5) := by
        rw [getVarint_varint length (by rw [Nat.zero_add]; exact (sits_append.mp second).1) (by omega),
          cut, consumed_long cuts, sent]
      rw [turn_bytes small sum read some inside kind value (by omega)]
      exact ⟨_, _, rfl, by omega⟩
    · rw [cut, consumed_long (by omega), ← cut] at read
      have value : getVarint style.cut mem 0 len 0 0 (place + 5) =
          (BitVec.ofNat 32 0, place + tag.code.size) :=
        tag.rest style.cut (by decide) (by omega) first within
      rw [turn_bytes small sum read some inside kind value (by omega)]
      exact ⟨_, _, rfl, by omega⟩
  | fixed64 tag content eight => exact absurd trivial plain
  | fixed32 tag content four => exact absurd trivial plain

theorem turn_fixed {f : Field} (steps : style.fixed = true) (fixed : f.Fixed) (sits : Sits mem place f.sent)
    (fits : place + f.sent.length ≤ len) :
    ∃ next, (turn style mem 0 len place r).step = some (next, none) := by
  cases f with
  | varint tag value => exact fixed.elim
  | bytes tag length content sent => exact fixed.elim
  | fixed64 tag content eight =>
    rw [Field.sent, List.length_append, Varint.bytes_length] at fits
    obtain ⟨v, read, number, kind, some, inside⟩ := tag.read style.cut (by decide)
      (sits_append.mp sits).1 (Nat.le_trans (by omega) fits)
    rw [turn_more read some inside, kind]
    simp [steps]
  | fixed32 tag content four =>
    rw [Field.sent, List.length_append, Varint.bytes_length] at fits
    obtain ⟨v, read, number, kind, some, inside⟩ := tag.read style.cut (by decide)
      (sits_append.mp sits).1 (Nat.le_trans (by omega) fits)
    rw [turn_more read some inside, kind]
    simp [steps]

end Turns

end Ubiqos.Radio
