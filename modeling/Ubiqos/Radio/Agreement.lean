import Ubiqos.Radio.Messages

/-!
The two decoders on one message. Both read what the `put` functions write; on other messages they
agree as long as no number is longer than five bytes and no field is of fixed size.
-/

namespace Ubiqos.Radio

open Cells

section Walks
variable {σ : Type} {style : Style} {mem : Memory} {len place : Nat}

theorem walked_succ (fuel : Nat) : walked style mem len (fuel + 1) place =
    match (turn style mem 0 len place (Run.begin ())).step with
    | none => some ([], place)
    | some (next, piece) => (walked style mem len fuel next).map fun rest =>
      ((piece.map (next, ·)).toList ++ rest.1, rest.2) := by
  rw [walked]
  cases turn style mem 0 len place (Run.begin ()) <;> rfl

theorem walked_end {fuel place q : Nat} {pieces : List (Nat × Piece)}
    (ends : walked style mem len fuel place = some (pieces, q)) :
    (turn style mem 0 len q (Run.begin ())).step = none := by
  induction fuel generalizing place pieces with
  | zero => cases ends
  | succ fuel ih =>
    rw [walked_succ] at ends
    cases step : (turn style mem 0 len place (Run.begin ())).step with
    | none =>
      rw [step] at ends
      cases ends
      exact step
    | some goes =>
      rw [step] at ends
      obtain ⟨rest, later, same⟩ := Option.map_eq_some_iff.mp ends
      obtain ⟨reported, final⟩ := rest
      cases same
      exact ih later

theorem turn_begin (place : Nat) (r : Run σ) :
    (turn style mem 0 len place r).step = (turn style mem 0 len place (Run.begin ())).step ∧
      (turn style mem 0 len place r).run.data = r.data := by
  simp only [turn]
  split_ifs <;> exact ⟨rfl, rfl⟩

theorem loop_walked (f : σ → Piece → σ) (fuel place : Nat) (r : Run σ) :
    (loop style mem 0 len (plain f) fuel place r).map Run.data =
      (walked style mem len fuel place).map fun found => (found.1.map Prod.snd).foldl f r.data := by
  induction fuel generalizing place r with
  | zero => rfl
  | succ fuel ih =>
    obtain ⟨same, keeps⟩ := @turn_begin _ style mem len place r
    rw [loop, walked_succ, ← same]
    cases turned : turn style mem 0 len place r with
    | ends last =>
      rw [turned] at keeps
      simp only [Turn.step, Option.map_some, List.map_nil, List.foldl_nil]
      rw [← keeps]
      rfl
    | goes next piece later =>
      rw [turned] at keeps
      rw [← keeps]
      cases piece with
      | none => simpa [Turn.step, visited, Turn.run, Function.comp_def] using ih next later
      | some piece =>
        simpa [Turn.step, visited, plain, Turn.run, Function.comp_def] using
          ih next { later with data := f later.data piece }

/-- What `walk` hands to its function are the fields that `decode` reports. -/
theorem walk_decode (bytes : List Byte) (fits : bytes.length ≤ ehBuf) (fn : σ → Piece → σ) (arg : σ) :
    (walk ⟨placed bytes, bytes.length, fits⟩ fn arg (bytes.length + 1)).map Run.data =
      (decode walkStyle bytes).map fun found => (found.1.map Prod.snd).foldl fn arg :=
  loop_walked fn (bytes.length + 1) 0 (Run.begin arg)

end Walks

def reports : Nat → List Field → List (Nat × Piece)
  | _, [] => []
  | place, f :: rest =>
    ((f.piece place).map (place + f.sent.length, ·)).toList ++ reports (place + f.sent.length) rest

theorem message_cons (f : Field) (rest : List Field) : message (f :: rest) = f.sent ++ message rest := rfl

section Fields
variable {style : Style} {mem : Memory} {len : Nat}

theorem step_end (place : Nat) (excess : len ≤ place) :
    (turn style mem 0 len place (Run.begin ())).step = none := by
  rw [turn, if_neg (Nat.not_lt.mpr excess)]
  rfl

theorem walked_whole (fields : List Field) (small : len < 2 ^ 32) (sum : style.check = .sum)
    (whole : ∀ f ∈ fields, (style.cut = true → f.Short) ∧ (f.Fixed → style.fixed = true)) {place fuel : Nat}
    (sits : Sits mem place (message fields)) (fits : place + (message fields).length = len)
    (enough : fields.length < fuel) :
    walked style mem len fuel place = some (reports place fields, len) := by
  induction fields generalizing place fuel with
  | nil =>
    obtain ⟨fuel, rfl⟩ := Nat.exists_eq_add_of_lt enough
    have here : place = len := by simpa [message] using fits
    rw [walked_succ, step_end place here.ge, here]
    rfl
  | cons f rest ih =>
    obtain ⟨fuel, rfl⟩ := Nat.exists_eq_succ_of_ne_zero (Nat.ne_of_gt (Nat.zero_lt_of_lt enough))
    rw [message_cons] at sits fits
    rw [List.length_append] at fits
    obtain ⟨own, others⟩ := List.forall_mem_cons.mp whole
    obtain ⟨first, later⟩ := sits_append.mp sits
    have step := turn_whole (r := Run.begin ()) f small sum own.1 first (by omega)
    have on := ih others later (by omega) (Nat.lt_of_succ_lt_succ enough)
    rw [walked_succ, step]
    cases f with
    | varint tag value => simp only [on, Option.map_some, reports]
    | bytes tag length content sent => simp only [on, Option.map_some, reports]
    | fixed64 tag content eight => simp [on, reports, own.2 trivial, Field.piece]
    | fixed32 tag content four => simp [on, reports, own.2 trivial, Field.piece]

theorem map_step_inj {piece : Option (Nat × Piece)} {a b : Option (List (Nat × Piece) × Nat)} :
    (a.map fun rest => (piece.toList ++ rest.1, rest.2)) = (b.map fun rest => (piece.toList ++ rest.1, rest.2)) ↔
      a = b := by
  refine ⟨fun same => Option.map_injective ?_ same, congrArg _⟩
  rintro ⟨x, m⟩ ⟨y, n⟩ same
  rw [Prod.mk.injEq, List.append_cancel_left_eq] at same
  exact Prod.ext same.1 same.2

theorem walked_ap (fields : List Field) (small : len < 2 ^ 32) {place fuel : Nat}
    (sits : Sits mem place (message fields)) (fits : place + (message fields).length = len)
    (enough : fields.length < fuel) : walked apStyle mem len fuel place ≠ none := by
  induction fields generalizing place fuel with
  | nil =>
    rw [walked_whole [] small rfl (by simp) sits fits enough]
    simp
  | cons f rest ih =>
    obtain ⟨fuel, rfl⟩ := Nat.exists_eq_succ_of_ne_zero (Nat.ne_of_gt (Nat.zero_lt_of_lt enough))
    rw [message_cons] at sits fits
    rw [List.length_append] at fits
    obtain ⟨first, later⟩ := sits_append.mp sits
    have room : place + f.sent.length ≤ len := by omega
    have step : (turn apStyle mem 0 len place (Run.begin ())).step = _ :=
      turn_whole f small rfl (by simp [apStyle]) first room
    have on := ih later (by omega) (Nat.lt_of_succ_lt_succ enough)
    rw [walked_succ, step]
    cases f with
    | varint tag value => simpa using on
    | bytes tag length content sent => simpa using on
    | fixed64 tag content eight => simp [apStyle]
    | fixed32 tag content four => simp [apStyle]

theorem walked_agree (fields : List Field) (small : len < 2 ^ 32) {place fuel : Nat}
    (sits : Sits mem place (message fields)) (fits : place + (message fields).length = len)
    (enough : fields.length < fuel) :
    walked apStyle mem len fuel place = walked walkStyle mem len fuel place ↔
      ∀ f ∈ fields, f.Short ∧ ¬ f.Fixed := by
  induction fields generalizing place fuel with
  | nil =>
    rw [walked_whole [] small rfl (by simp) sits fits enough,
      walked_whole [] small rfl (by simp) sits fits enough]
    simp
  | cons f rest ih =>
    obtain ⟨fuel, rfl⟩ := Nat.exists_eq_succ_of_ne_zero (Nat.ne_of_gt (Nat.zero_lt_of_lt enough))
    rw [message_cons] at sits fits
    rw [List.length_append] at fits
    obtain ⟨first, later⟩ := sits_append.mp sits
    have room : place + f.sent.length ≤ len := by omega
    have ap : (turn apStyle mem 0 len place (Run.begin ())).step = _ :=
      turn_whole f small rfl (by simp [apStyle]) first room
    have total := walked_ap rest small later (by omega) (Nat.lt_of_succ_lt_succ enough)
    have on := ih later (by omega) (Nat.lt_of_succ_lt_succ enough)
    rw [List.forall_mem_cons]
    by_cases fixed : f.Fixed
    · -- One ends here, and the other does not.
      refine iff_of_false (fun same => ?_) (fun all => all.1.2 fixed)
      have goes : ∃ next, (turn walkStyle mem 0 len place (Run.begin ())).step = some (next, none) :=
        turn_fixed rfl fixed first room
      obtain ⟨next, step⟩ := goes
      have ended : walked apStyle mem len (fuel + 1) place = some ([], place) := by
        rw [walked_succ, ap]
        cases f with
        | varint tag value => exact fixed.elim
        | bytes tag length content sent => exact fixed.elim
        | fixed64 tag content eight => rfl
        | fixed32 tag content four => rfl
      have stopped := walked_end (same.symm.trans ended)
      rw [step] at stopped
      cases stopped
    · have reported : (turn apStyle mem 0 len place (Run.begin ())).step =
          some (place + f.sent.length, f.piece place) := by
        cases f with
        | varint tag value => exact ap
        | bytes tag length content sent => exact ap
        | fixed64 tag content eight => exact absurd trivial fixed
        | fixed32 tag content four => exact absurd trivial fixed
      by_cases short : f.Short
      · have walk : (turn walkStyle mem 0 len place (Run.begin ())).step =
            some (place + f.sent.length, f.piece place) := by
          rw [turn_whole (r := Run.begin ()) f small rfl (fun _ => short) first room]
          cases f with
          | varint tag value => rfl
          | bytes tag length content sent => rfl
          | fixed64 tag content eight => exact absurd trivial fixed
          | fixed32 tag content four => exact absurd trivial fixed
        rw [walked_succ, walked_succ, reported, walk]
        dsimp only
        rw [map_step_inj, on]
        simp [short, fixed]
      -- A long number is cut after five bytes, and the next piece starts inside it.
      · refine iff_of_false (fun same => ?_) (fun all => short all.1.1)
        have cuts : ∃ next piece, (turn walkStyle mem 0 len place (Run.begin ())).step =
            some (next, some piece) ∧ next < place + f.sent.length :=
          turn_long small rfl rfl short fixed first room
        obtain ⟨next, piece, step, before⟩ := cuts
        rw [walked_succ, walked_succ, reported, step] at same
        dsimp only at same
        obtain ⟨there, found⟩ := Option.ne_none_iff_exists'.mp total
        rw [found] at same
        obtain ⟨other, -, equal⟩ := Option.map_eq_some_iff.mp same.symm
        rw [Prod.mk.injEq] at equal
        cases f with
        | varint tag value =>
          have heads := congrArg List.head? equal.1
          simp [Field.piece] at heads
          omega
        | bytes tag length content sent =>
          have heads := congrArg List.head? equal.1
          simp [Field.piece] at heads
          omega
        | fixed64 tag content eight => exact absurd trivial fixed
        | fixed32 tag content four => exact absurd trivial fixed

end Fields

inductive Item where
  | varint (number : Nat) (v : U32)
  | bytes (number : Nat) (content : List Byte)

def Item.number : Item → Nat
  | .varint number _ | .bytes number _ => number

/-- As `ehspi.c` writes it. -/
def Item.put : Item → List Byte
  | .varint number v => putField (BitVec.ofNat 32 number) v
  | .bytes number content => putBytes (BitVec.ofNat 32 number) content

/-- As `ehrpc.c` does. -/
def Item.putWire : Item → List Byte
  | .varint number v => putFieldWire (BitVec.ofNat 32 number) 0 v
  | .bytes number content => putBytes (BitVec.ofNat 32 number) content

def Piece.item (mem : Memory) : Piece → Item
  | .varint number v => .varint number v
  | .bytes number start k => .bytes number (copy mem start k.toNat)

structure Packet where
  items : List Item
  named : ∀ item ∈ items, 0 < item.number ∧ item.number < 2 ^ 29
  small : (items.flatMap Item.put).length < 2 ^ 32

structure Message where
  fields : List Field
  small : (message fields).length < 2 ^ 32

def Message.sent (m : Message) : List Byte := message m.fields

def ReadsBack (style : Style) (bytes : List Byte) (items : List Item) : Prop :=
  (decode style bytes).map (fun d => (d.1.map fun report => report.2.item (placed bytes), d.2)) =
    some (items, bytes.length)

theorem or_none (x : U32) : x ||| 0 = x := BitVec.or_zero

theorem Item.put_wire (item : Item) : item.putWire = item.put := by
  cases item with
  | bytes number content => rfl
  | varint number v => rw [Item.putWire, putFieldWire, or_none]; rfl

theorem tag_value {number : Nat} (small : number < 2 ^ 29) (wire : U32) (low : wire.toNat < 8) :
    (BitVec.ofNat 32 number <<< 3 ||| wire).toNat = 8 * number + wire.toNat := by
  have word : (BitVec.ofNat 32 number).toNat = number := by
    rw [BitVec.toNat_ofNat]
    exact Nat.mod_eq_of_lt (by omega)
  have shifted : (BitVec.ofNat 32 number <<< 3).toNat = number <<< 3 := by
    rw [BitVec.toNat_shiftLeft, word, Nat.shiftLeft_eq]
    exact Nat.mod_eq_of_lt (by omega)
  rw [BitVec.toNat_or, shifted, ← Nat.shiftLeft_add_eq_or_of_lt (by simpa using low), Nat.shiftLeft_eq]
  omega

theorem tag_written {number : Nat} (some : 0 < number) (small : number < 2 ^ 29) (wire : U32)
    (low : wire.toNat < 8) : ∃ tag : Tag wire.toNat, tag.number = number ∧ tag.code.size ≤ 5 ∧
      tag.code.bytes = putVarint (BitVec.ofNat 32 number <<< 3 ||| wire) := by
  obtain ⟨code, written, value, short⟩ := putVarint_varint (BitVec.ofNat 32 number <<< 3 ||| wire)
  exact ⟨⟨code, number, some, small, value.trans (tag_value small wire low)⟩, rfl, short, written⟩

theorem copy_sits {mem : Memory} {place : Nat} {bytes : List Byte} (sits : Sits mem place bytes) :
    copy mem place bytes.length = bytes := sits_read sits

theorem Item.field (item : Item) (named : 0 < item.number ∧ item.number < 2 ^ 29)
    (small : item.put.length < 2 ^ 32) : ∃ f : Field, f.sent = item.put ∧ f.Short ∧ ¬ f.Fixed ∧
      ∀ mem place, Sits mem place f.sent → (f.piece place).map (Piece.item mem) = some item := by
  cases item with
  | varint number v =>
    obtain ⟨tag, rfl, short, code⟩ := tag_written named.1 named.2 0 (by decide)
    obtain ⟨x, written, value, five⟩ := putVarint_varint v
    refine ⟨.varint tag x, ?_, ⟨short, five⟩, id, fun mem place _ => ?_⟩
    · rw [Field.sent, code, written, or_none]
      rfl
    · simp [Field.piece, Piece.item, value]
  | bytes number content =>
    obtain ⟨tag, rfl, short, code⟩ := tag_written named.1 named.2 2 (by decide)
    obtain ⟨x, written, value, five⟩ := putVarint_varint (BitVec.ofNat 32 content.length)
    have fits : content.length < 2 ^ 32 := by
      rw [Item.put, putBytes, List.length_append] at small
      omega
    have whole : x.value = content.length := by
      rw [value, BitVec.toNat_ofNat]
      exact Nat.mod_eq_of_lt fits
    refine ⟨.bytes tag x content whole, ?_, ⟨short, five⟩, id, fun mem place sits => ?_⟩
    · rw [Field.sent, code, written, ← List.append_assoc]
      rfl
    · have there := (sits_append.mp (sits_append.mp sits).2).2
      rw [Varint.bytes_length, Varint.bytes_length] at there
      simp only [Field.piece, Option.map_some, Piece.item, BitVec.toNat_ofNat, Nat.mod_eq_of_lt fits]
      rw [copy_sits there]

theorem items_message (items : List Item) (named : ∀ item ∈ items, 0 < item.number ∧ item.number < 2 ^ 29)
    (small : (items.flatMap Item.put).length < 2 ^ 32) : ∃ fields, message fields = items.flatMap Item.put ∧
      (∀ f ∈ fields, f.Short ∧ ¬ f.Fixed) ∧
      ∀ mem place, Sits mem place (message fields) →
        (reports place fields).map (fun report => report.2.item mem) = items := by
  induction items with
  | nil => exact ⟨[], rfl, by simp, fun _ _ _ => rfl⟩
  | cons item items ih =>
    rw [List.flatMap_cons, List.length_append] at small
    obtain ⟨own, others⟩ := List.forall_mem_cons.mp named
    obtain ⟨f, sent, short, plain, reads⟩ := item.field own (by omega)
    obtain ⟨rest, written, all, back⟩ := ih others (by omega)
    refine ⟨f :: rest, ?_, List.forall_mem_cons.mpr ⟨⟨short, plain⟩, all⟩, fun mem place sits => ?_⟩
    · rw [message_cons, sent, written, List.flatMap_cons]
    · obtain ⟨first, later⟩ := sits_append.mp sits
      have here := reads mem place first
      rw [reports, List.map_append, back mem _ later]
      cases found : f.piece place with
      | none => simp [found] at here
      | some piece =>
        rw [found, Option.map_some, Option.some.injEq] at here
        simp [here]

theorem sits_placed (bytes : List Byte) : Sits (placed bytes) 0 bytes := sits_getD bytes 0

theorem message_size (fields : List Field) : fields.length ≤ (message fields).length := by
  induction fields with
  | nil => exact Nat.le_refl 0
  | cons f rest ih =>
    have some : 0 < f.sent.length := by
      cases f <;> simp [Field.sent, Varint.size]
    rw [message_cons, List.length_append, List.length_cons]
    omega

theorem packet_reads (packet : Packet) {style : Style} (sum : style.check = .sum) :
    ReadsBack style (packet.items.flatMap Item.put) packet.items := by
  obtain ⟨fields, written, short, back⟩ := items_message packet.items packet.named packet.small
  have small := packet.small
  have sits := sits_placed (message fields)
  have size := message_size fields
  rw [ReadsBack, ← written] at *
  have whole : ∀ f ∈ fields, (style.cut = true → f.Short) ∧ (f.Fixed → style.fixed = true) :=
    fun f member => ⟨fun _ => (short f member).1, fun fixed => absurd fixed (short f member).2⟩
  rw [decode, walked_whole fields small sum whole sits (by omega) (by omega), Option.map_some,
    back _ 0 sits]

/-- What either program writes both read back, and they agree on a message just when none of its
numbers is longer than five bytes and none of its fields is of fixed size. -/
theorem decoders_agree (packet : Packet) (m : Message) :
    (∀ bytes ∈ [packet.items.flatMap Item.put, packet.items.flatMap Item.putWire],
      ReadsBack apStyle bytes packet.items ∧ ReadsBack walkStyle bytes packet.items) ∧
    (decode apStyle m.sent = decode walkStyle m.sent ↔ ∀ f ∈ m.fields, f.Short ∧ ¬ f.Fixed) := by
  constructor
  · intro bytes member
    have same : packet.items.flatMap Item.putWire = packet.items.flatMap Item.put :=
      List.flatMap_congr fun item _ => item.put_wire
    rw [same] at member
    obtain rfl : bytes = packet.items.flatMap Item.put := by simpa using member
    exact ⟨packet_reads packet rfl, packet_reads packet rfl⟩
  · have size := message_size m.fields
    exact walked_agree m.fields m.small (sits_placed m.sent) (Nat.zero_add _) (Nat.lt_succ_of_le size)

/-- An access point's `rssi` of -60, as ten bytes. -/
def farAway : Message where
  fields := [.varint ⟨⟨[], 40, by decide⟩, 5, by decide, by decide, by decide⟩
    ⟨[0x44, 0x7f, 0x7f, 0x7f, 0x7f, 0x7f, 0x7f, 0x7f, 0x7f], 1, by decide⟩]
  small := by decide

/-- One reads a field of eleven bytes, the other goes on from its sixth value byte. -/
theorem negative_number : decode apStyle farAway.sent ≠ decode walkStyle farAway.sent := by
  intro same
  have size := message_size farAway.fields
  have short := (walked_agree farAway.fields farAway.small (sits_placed farAway.sent) (Nat.zero_add _)
    (Nat.lt_succ_of_le size)).mp same
  exact absurd (short _ List.mem_cons_self).1.2 (by decide)

end Ubiqos.Radio
