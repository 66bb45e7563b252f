import Mathlib.Data.BitVec
import Mathlib.Tactic.Ring

/-!
The fields of a message of the radio's co-processor, as `modules/ehspi/ehspi.c` and
`modules/ehrpc/ehrpc.c` walk over them. A tag is a number, shifted up three, with a wire type
below it; what follows is a number of as many bytes as it takes, or a length and that many
bytes. The walks differ in where they end and in how they look at a length, which is a word of
32 bits whatever was sent.
-/

namespace Ubiqos.Radio

abbrev Byte := BitVec 8
abbrev U32 := BitVec 32
abbrev Memory := Nat → Byte

/-- `get_varint`, with what it has so far; the one of `ehrpc.c` takes five bytes at most. -/
def getVarint (cut : Bool) (mem : Memory) (base len : Nat) (v : U32) (shift place : Nat) : U32 × Nat :=
  if place < len then
    let b := mem (base + place)
    let v := if shift < 32 then v ||| (b &&& 0x7f).setWidth 32 <<< shift else v
    if b &&& 0x80 = 0 then (v, place + 1)
    else if cut ∧ 28 < shift + 7 then (v, place + 1)
    else getVarint cut mem base len v (shift + 7) (place + 1)
  else (v, place)
termination_by len - place

def encoded (mem : Memory) (base len place : Nat) : Nat :=
  if place < len then
    let b := (mem (base + place)).toNat
    b % 128 + if b < 128 then 0 else 128 * encoded mem base len (place + 1)
  else 0
termination_by len - place

/-- How a walk looks at a length: `at + k > len`, `k > len - at`, or not at all. -/
inductive Check
  | sum
  | room
  | none
  deriving DecidableEq

structure Style where
  cut : Bool
  zeroEnds : Bool
  fixed : Bool
  check : Check

def Check.passes (check : Check) (place length len : Nat) : Bool :=
  match check with
  | .sum => (place + length) % 2 ^ 32 ≤ len
  | .room => length % 2 ^ 32 ≤ len - place
  | .none => (place + length) % 2 ^ 32 ≤ len

inductive Piece
  | varint (number : Nat) (v : U32)
  | bytes (number start : Nat) (length : U32)

/-- A field that was taken as present: where it starts, the length that was sent, and where the
bytes it lies in end. -/
structure Span where
  start : Nat
  length : Nat
  stop : Nat

structure Run (σ : Type) where
  reads : List (Nat × Nat)
  present : List Span
  data : σ

def Run.read {σ : Type} (r : Run σ) (start count : Nat) : Run σ := { r with reads := (start, count) :: r.reads }

def Run.take {σ : Type} (r : Run σ) (span : Span) : Run σ := { r with present := span :: r.present }

variable {σ : Type}

/-- What one turn of a walk comes to: its end, or a place to go on from and a field for the
walk's own code. -/
inductive Turn (σ : Type)
  | ends (r : Run σ)
  | goes (next : Nat) (piece : Option Piece) (r : Run σ)

def Turn.run {σ : Type} : Turn σ → Run σ
  | .ends r => r
  | .goes _ _ r => r

def turn (style : Style) (mem : Memory) (base len place : Nat) (r : Run σ) : Turn σ :=
  if place < len then
    let tag := getVarint style.cut mem base len 0 0 place
    let r := r.read (base + place) (tag.2 - place)
    let number := tag.1.toNat / 8
    let wire := tag.1.toNat % 8
    if style.zeroEnds ∧ number = 0 then .ends r
    else if wire = 0 then
      let v := getVarint style.cut mem base len 0 0 tag.2
      .goes v.2 (some (.varint number v.1)) (r.read (base + tag.2) (v.2 - tag.2))
    else if wire = 2 then
      let k := getVarint style.cut mem base len 0 0 tag.2
      let r := r.read (base + tag.2) (k.2 - tag.2)
      let next := (k.2 + k.1.toNat) % 2 ^ 32
      if style.check.passes k.2 k.1.toNat len then
        .goes next (some (.bytes number (base + k.2) k.1))
          (r.take ⟨base + k.2, encoded mem base len tag.2, base + len⟩)
      else if style.check = .none then .goes next none r
      else .ends r
    else if style.fixed ∧ wire = 5 then .goes ((tag.2 + 4) % 2 ^ 32) none r
    else if style.fixed ∧ wire = 1 then .goes ((tag.2 + 8) % 2 ^ 32) none r
    else .ends r
  else .ends r

def visited (visit : Piece → Run σ → Option (Run σ)) : Option Piece → Run σ → Option (Run σ)
  | none, r => some r
  | some piece, r => visit piece r

/-- `while (at < len)`: nothing when it has not ended after so many turns. -/
def loop (style : Style) (mem : Memory) (base len : Nat) (visit : Piece → Run σ → Option (Run σ)) :
    Nat → Nat → Run σ → Option (Run σ)
  | 0, _, _ => none
  | fuel + 1, place, r =>
    match turn style mem base len place r with
    | .ends r => some r
    | .goes next piece r => (visited visit piece r).bind (loop style mem base len visit fuel next)

section Varint
variable {cut : Bool} {mem : Memory} {base len : Nat}

theorem getVarint_stays (v : U32) (shift : Nat) {place : Nat} (inside : place ≤ len) :
    place ≤ (getVarint cut mem base len v shift place).2 ∧ (getVarint cut mem base len v shift place).2 ≤ len := by
  induction v, shift, place using getVarint.induct cut mem base len with
  | case1 v shift place more b last =>
    rw [getVarint, if_pos more]
    simp only
    rw [if_pos last]
    exact ⟨Nat.le_succ _, more⟩
  | case2 v shift place more b on stop =>
    rw [getVarint, if_pos more]
    simp only
    rw [if_neg on, if_pos stop]
    exact ⟨Nat.le_succ _, more⟩
  | case3 v shift place more b w on go ih =>
    obtain ⟨low, high⟩ := ih more
    rw [getVarint, if_pos more]
    simp only
    rw [if_neg on, if_neg go]
    exact ⟨(Nat.le_succ _).trans low, high⟩
  | case4 v shift place excess =>
    rw [getVarint, if_neg excess]
    exact ⟨le_rfl, inside⟩

theorem getVarint_goes (v : U32) (shift : Nat) {place : Nat} (inside : place < len) :
    place < (getVarint cut mem base len v shift place).2 := by
  rw [getVarint, if_pos inside]
  simp only
  split
  · exact Nat.lt_succ_self _
  · split
    · exact Nat.lt_succ_self _
    · exact (getVarint_stays _ _ inside).1

theorem low_bits (b : Byte) : (b &&& 0x7f).toNat = b.toNat % 128 := by
  revert b
  decide

theorem last_byte (b : Byte) : b &&& 0x80 = 0 ↔ b.toNat < 128 := by
  revert b
  decide

theorem or_shift {v : U32} {shift : Nat} (small : v.toNat < 2 ^ shift) (fits : shift < 32) (x : U32) :
    (v ||| x <<< shift).toNat = (v.toNat + 2 ^ shift * x.toNat) % 2 ^ 32 := by
  have split : 2 ^ 32 = 2 ^ shift * 2 ^ (32 - shift) := by
    rw [← pow_add]
    congr 1
    omega
  have high : x.toNat <<< shift % 2 ^ 32 = (x.toNat % 2 ^ (32 - shift)) <<< shift := by
    rw [Nat.shiftLeft_eq, Nat.shiftLeft_eq, split, Nat.mul_comm x.toNat, Nat.mul_mod_mul_left, Nat.mul_comm]
  have joined := Nat.shiftLeft_add_eq_or_of_lt small (x.toNat % 2 ^ (32 - shift))
  have value : (v ||| x <<< shift).toNat = v.toNat + 2 ^ shift * (x.toNat % 2 ^ (32 - shift)) := by
    rw [BitVec.toNat_or, BitVec.toNat_shiftLeft, high, Nat.or_comm, ← joined, Nat.shiftLeft_eq, Nat.add_comm,
      Nat.mul_comm]
  rw [← Nat.mod_eq_of_lt (v ||| x <<< shift).isLt, value, ← Nat.mul_mod_mul_left, ← split, Nat.add_mod_mod]

theorem added_value {v : U32} {shift : Nat} (small : shift < 32 → v.toNat < 2 ^ shift) (b : Byte) :
    (if shift < 32 then v ||| (b &&& 0x7f).setWidth 32 <<< shift else v).toNat =
      (v.toNat + 2 ^ shift * (b.toNat % 128)) % 2 ^ 32 := by
  split
  · rename_i fits
    have byte : ((b &&& 0x7f).setWidth 32).toNat = b.toNat % 128 := by
      rw [BitVec.toNat_setWidth, low_bits, Nat.mod_eq_of_lt (by omega)]
    rw [or_shift (small fits) fits, byte]
  · rename_i beyond
    obtain ⟨k, rfl⟩ := Nat.exists_eq_add_of_le (Nat.not_lt.mp beyond)
    rw [pow_add, Nat.mul_assoc, Nat.add_mul_mod_self_left, Nat.mod_eq_of_lt v.isLt]

theorem getVarint_from (v : U32) (shift place : Nat) (small : shift < 32 → v.toNat < 2 ^ shift)
    (five : cut = true → shift % 7 = 0 ∧ shift ≤ 28) :
    (getVarint cut mem base len v shift place).1.toNat =
      (v.toNat + 2 ^ shift * encoded mem base len place) % 2 ^ 32 := by
  induction v, shift, place using getVarint.induct cut mem base len with
  | case1 v shift place more b last =>
    rw [getVarint, if_pos more, encoded, if_pos more]
    simp only
    rw [if_pos last, if_pos ((last_byte b).mp last), Nat.add_zero]
    exact added_value small b
  | case2 v shift place more b on stop =>
    have last : shift = 28 := by
      have := five stop.1
      omega
    rw [getVarint, if_pos more, encoded, if_pos more]
    simp only
    rw [if_neg on, if_pos stop, if_neg (mt (last_byte b).mpr on)]
    -- what is behind the fifth byte is above the word
    have above (e : Nat) : v.toNat + 2 ^ shift * (b.toNat % 128 + 128 * e) =
        v.toNat + 2 ^ shift * (b.toNat % 128) + 2 ^ 32 * (8 * e) := by
      rw [last]
      ring
    rw [above, Nat.add_mul_mod_self_left]
    exact added_value small b
  | case3 v shift place more b w on go ih =>
    have value : w.toNat = (v.toNat + 2 ^ shift * (b.toNat % 128)) % 2 ^ 32 := added_value small b
    have next : shift + 7 < 32 → w.toNat < 2 ^ (shift + 7) := by
      intro fits
      have low := small (by omega)
      have byte : 2 ^ shift * (b.toNat % 128) ≤ 2 ^ shift * 127 := Nat.mul_le_mul_left _ (by omega)
      have whole : 2 ^ (shift + 7) = 2 ^ shift * 128 := pow_add 2 shift 7
      rw [value]
      exact (Nat.mod_le _ _).trans_lt (by omega)
    have room : cut = true → (shift + 7) % 7 = 0 ∧ shift + 7 ≤ 28 := by
      intro yes
      have := five yes
      exact ⟨by omega, Nat.not_lt.mp fun excess => go ⟨yes, excess⟩⟩
    have on' : (getVarint cut mem base len v shift place) = getVarint cut mem base len w (shift + 7) (place + 1) := by
      rw [getVarint, if_pos more]
      simp only
      rw [if_neg on, if_neg go]
      rfl
    have sent : encoded mem base len place = b.toNat % 128 + 128 * encoded mem base len (place + 1) := by
      rw [encoded, if_pos more]
      simp only
      rw [if_neg (mt (last_byte b).mpr on)]
    rw [on', ih next room, value, Nat.mod_add_mod, sent]
    congr 1
    ring
  | case4 v shift place excess =>
    rw [getVarint, if_neg excess, encoded, if_neg excess, Nat.mul_zero, Nat.add_zero, Nat.mod_eq_of_lt v.isLt]

theorem getVarint_value (place : Nat) :
    (getVarint cut mem base len 0 0 place).1.toNat = encoded mem base len place % 2 ^ 32 := by
  have value := (@getVarint_from cut mem base len) 0 0 place
    (fun _ => by decide) (fun _ => by decide)
  rw [value, pow_zero, Nat.one_mul]
  congr 1
  exact Nat.zero_add _

end Varint

section Walk
variable {style : Style} {mem : Memory} {base len : Nat}

/-- The fields that a walk meets when lengths are what was sent: those that lie in the frame up
to the end of the walk, and the one that ends it by running past the frame. A field starts where the
walk's own number ended: a length of more bytes than `ehrpc.c` takes, `0a 82 80 80 80 80 00 41`, is
whole, and its field is `00 41`. -/
def fields (style : Style) (mem : Memory) (base len place : Nat) : List Piece × Option (Nat × Nat) :=
  if more : place < len then
    let tag := getVarint style.cut mem base len 0 0 place
    let number := tag.1.toNat / 8
    let wire := tag.1.toNat % 8
    if style.zeroEnds ∧ number = 0 then ([], none)
    else if wire = 0 then
      let v := getVarint style.cut mem base len 0 0 tag.2
      let rest := fields style mem base len v.2
      (.varint number v.1 :: rest.1, rest.2)
    else if wire = 2 then
      let k := getVarint style.cut mem base len 0 0 tag.2
      let length := encoded mem base len tag.2
      if k.2 + length ≤ len then
        let rest := fields style mem base len (k.2 + length)
        (.bytes number (base + k.2) k.1 :: rest.1, rest.2)
      else ([], some (k.2, length))
    else if style.fixed ∧ wire = 5 then fields style mem base len (tag.2 + 4)
    else if style.fixed ∧ wire = 1 then fields style mem base len (tag.2 + 8)
    else ([], none)
  else ([], none)
termination_by len - place
decreasing_by
  all_goals
    have goes := (@getVarint_goes style.cut mem base) 0 0 more
    have inside := ((@getVarint_stays style.cut mem base) 0 0 more.le).2
    have stays := ((@getVarint_stays style.cut mem base) 0 0 inside).1
    omega

def Stops (style : Style) (mem : Memory) (base len place : Nat) : Prop :=
  ∀ past ∈ (fields style mem base len place).2, style.check.passes past.1 past.2 len = false

/-- Every read lies in the frame, and so does every field that was taken as present. -/
structure Run.Good (total : Nat) (r : Run σ) : Prop where
  reads : ∀ read ∈ r.reads, read.1 + read.2 ≤ total
  present : ∀ span ∈ r.present, span.start + span.length ≤ span.stop

variable {total : Nat} {r : Run σ}

theorem Run.good_read {start count : Nat} :
    (r.read start count).Good total ↔ start + count ≤ total ∧ r.Good total := by
  constructor
  · rintro ⟨reads, present⟩
    obtain ⟨here, others⟩ := List.forall_mem_cons.mp reads
    exact ⟨here, others, present⟩
  · rintro ⟨here, reads, present⟩
    exact ⟨List.forall_mem_cons.mpr ⟨here, reads⟩, present⟩

theorem Run.good_take {span : Span} :
    (r.take span).Good total ↔ span.start + span.length ≤ span.stop ∧ r.Good total := by
  constructor
  · rintro ⟨reads, present⟩
    obtain ⟨here, others⟩ := List.forall_mem_cons.mp present
    exact ⟨here, reads, others⟩
  · rintro ⟨here, reads, present⟩
    exact ⟨reads, List.forall_mem_cons.mpr ⟨here, present⟩⟩

theorem passes_mod (check : Check) (place length len : Nat) :
    check.passes place (length % 2 ^ 32) len = check.passes place length len := by
  cases check <;> simp [Check.passes]

theorem passes_inside {check : Check} {place length len : Nat} (small : len < 2 ^ 32)
    (inside : place + length ≤ len) : check.passes place length len = true := by
  have sum : (place + length) % 2 ^ 32 = place + length := Nat.mod_eq_of_lt (by omega)
  have room : length % 2 ^ 32 = length := Nat.mod_eq_of_lt (by omega)
  cases check with
  | sum => simp only [Check.passes, sum, inside, decide_true]
  | room =>
    simp only [Check.passes, room, decide_eq_true_eq]
    omega
  | none => simp only [Check.passes, sum, inside, decide_true]

/-- What a turn does, and what it has to do with the fields of the frame. -/
inductive TurnOf (style : Style) (mem : Memory) (base len place : Nat) (r : Run σ) : Turn σ → Prop
  | ends {r' : Run σ} (none : fields style mem base len place = ([], .none))
      (same : r'.data = r.data) (good : ∀ total, base + len ≤ total → (r'.Good total ↔ r.Good total)) :
      TurnOf style mem base len place r (.ends r')
  | field {r' : Run σ} {next : Nat} {piece : Piece} (more : place < len) (goes : place < next)
      (first : fields style mem base len place =
        (piece :: (fields style mem base len next).1, (fields style mem base len next).2))
      (same : r'.data = r.data) (good : ∀ total, base + len ≤ total → (r'.Good total ↔ r.Good total)) :
      TurnOf style mem base len place r (.goes next (some piece) r')
  | skipped {r' : Run σ} {next : Nat} (more : place < len) (goes : place < next)
      (later : fields style mem base len place = fields style mem base len next)
      (same : r'.data = r.data) (good : ∀ total, base + len ≤ total → (r'.Good total ↔ r.Good total)) :
      TurnOf style mem base len place r (.goes next .none r')
  | stopped {r' : Run σ} {past : Nat × Nat} (found : fields style mem base len place = ([], some past))
      (seen : style.check.passes past.1 past.2 len = false) (same : r'.data = r.data)
      (good : ∀ total, base + len ≤ total → (r'.Good total ↔ r.Good total)) :
      TurnOf style mem base len place r (.ends r')
  | left {r' : Run σ} {next : Nat} {past : Nat × Nat} (more : place < len)
      (found : fields style mem base len place = ([], some past))
      (seen : style.check.passes past.1 past.2 len = false) (excess : len ≤ next) (same : r'.data = r.data)
      (good : ∀ total, base + len ≤ total → (r'.Good total ↔ r.Good total)) :
      TurnOf style mem base len place r (.goes next .none r')
  | fooled {r' : Run σ} {next : Nat} {piece : Piece} {past : Nat × Nat}
      (found : fields style mem base len place = ([], some past))
      (unseen : style.check.passes past.1 past.2 len = true) (bad : ∀ total, ¬ r'.Good total) :
      TurnOf style mem base len place r (.goes next (some piece) r')

theorem turn_of (small : len + 8 < 2 ^ 32) (place : Nat) (r : Run σ) :
    TurnOf style mem base len place r (turn style mem base len place r) := by
  by_cases more : place < len
  · have goes := (@getVarint_goes style.cut mem base) 0 0 more
    have inside := ((@getVarint_stays style.cut mem base) 0 0 more.le).2
    have after := (@getVarint_stays style.cut mem base) 0 0 inside
    have value := (@getVarint_value style.cut mem base len)
      (getVarint style.cut mem base len 0 0 place).2
    have found := fields.eq_def style mem base len place
    rw [dif_pos more] at found
    rw [turn, if_pos more]
    simp only at found ⊢
    generalize getVarint style.cut mem base len 0 0 place = tag at *
    generalize getVarint style.cut mem base len 0 0 tag.2 = second at *
    generalize encoded mem base len tag.2 = length at *
    have first : ∀ total, base + len ≤ total →
        ((r.read (base + place) (tag.2 - place)).Good total ↔ r.Good total) := by
      intro total fits
      exact Run.good_read.trans (and_iff_right (by omega))
    have both : ∀ total, base + len ≤ total →
        (((r.read (base + place) (tag.2 - place)).read (base + tag.2) (second.2 - tag.2)).Good total ↔
          r.Good total) := by
      intro total fits
      exact Run.good_read.trans ((and_iff_right (by omega)).trans (first total fits))
    -- The tests of `turn` and of `fields` side by side: `split` takes the code, `found` follows.
    split
    · rename_i zero
      rw [if_pos zero] at found
      exact .ends found rfl first
    · rename_i some
      rw [if_neg some] at found
      split
      · rename_i number
        rw [if_pos number] at found
        exact .field more (goes.trans_le after.1) found rfl both
      · rename_i notNumber
        rw [if_neg notNumber] at found
        split
        · rename_i bytes
          rw [if_pos bytes] at found
          rw [value, passes_mod]
          -- The code compares a sum modulo 2^32, so a length may pass that does not lie inside.
          by_cases lies : second.2 + length ≤ len
          · rw [if_pos lies] at found
            have exact : (second.2 + length % 2 ^ 32) % 2 ^ 32 = second.2 + length := by
              rw [Nat.add_mod_mod]
              exact Nat.mod_eq_of_lt (by omega)
            rw [if_pos (passes_inside (by omega) lies), exact]
            refine .field more (by omega) found rfl fun total fits => ?_
            exact Run.good_take.trans ((and_iff_right (by dsimp only; omega)).trans (both total fits))
          · rw [if_neg lies] at found
            split
            · rename_i fooled
              refine .fooled found fooled fun total good => ?_
              have within := (Run.good_take.mp good).1
              dsimp only at within
              omega
            · rename_i seen
              have seen : style.check.passes second.2 length len = false := by simpa using seen
              split
              · rename_i unasked
                have excess : len ≤ (second.2 + length % 2 ^ 32) % 2 ^ 32 := by
                  rw [unasked] at seen
                  simp only [Check.passes, decide_eq_false_iff_not, not_le] at seen
                  rw [Nat.add_mod_mod]
                  exact seen.le
                exact .left more found seen excess rfl both
              · exact .stopped found seen rfl both
        · rename_i notBytes
          rw [if_neg notBytes] at found
          split
          · rename_i four
            rw [if_pos four] at found
            have exact : (tag.2 + 4) % 2 ^ 32 = tag.2 + 4 := Nat.mod_eq_of_lt (by omega)
            rw [exact]
            exact .skipped more (by omega) found rfl first
          · rename_i notFour
            rw [if_neg notFour] at found
            split
            · rename_i eight
              rw [if_pos eight] at found
              have exact : (tag.2 + 8) % 2 ^ 32 = tag.2 + 8 := Nat.mod_eq_of_lt (by omega)
              rw [exact]
              exact .skipped more (by omega) found rfl first
            · rename_i other
              rw [if_neg other] at found
              exact .ends found rfl first
  · have found := fields.eq_def style mem base len place
    rw [dif_neg more] at found
    rw [turn, if_neg more]
    exact .ends found rfl fun _ _ => Iff.rfl

theorem fields_over {place : Nat} (excess : len ≤ place) : fields style mem base len place = ([], none) := by
  rw [fields, dif_neg (Nat.not_lt.mpr excess)]

theorem loop_good {visit : Piece → Run σ → Option (Run σ)} (small : len + 8 < 2 ^ 32)
    (inside : base + len ≤ total) {fuel place : Nat} (stops : Stops style mem base len place)
    (visits : ∀ piece ∈ (fields style mem base len place).1, ∀ r : Run σ, r.Good total →
      ∃ r', visit piece r = some r' ∧ r'.Good total)
    (enough : len - place < fuel) (good : r.Good total) :
    ∃ r', loop style mem base len visit fuel place r = some r' ∧ r'.Good total := by
  induction fuel generalizing place r with
  | zero => exact absurd enough (Nat.not_lt_zero _)
  | succ fuel ih =>
    have turns := (@turn_of _ style mem base) small place r
    rw [loop]
    generalize turn style mem base len place r = t at turns
    cases turns with
    | ends none same keeps => exact ⟨_, rfl, (keeps total inside).mpr good⟩
    | @field r' next piece more goes first same keeps =>
      rw [Stops, first] at stops
      rw [first] at visits
      obtain ⟨r'', found, good''⟩ := visits piece List.mem_cons_self r' ((keeps total inside).mpr good)
      obtain ⟨last, ends, well⟩ := ih stops
        (fun piece member => visits piece (List.mem_cons_of_mem _ member)) (by omega) good''
      exact ⟨last, by simp only [visited, found, Option.bind_some, ends], well⟩
    | @skipped r' next more goes later same keeps =>
      rw [Stops, later] at stops
      rw [later] at visits
      obtain ⟨last, ends, well⟩ := ih stops visits (by omega) ((keeps total inside).mpr good)
      exact ⟨last, by simp only [visited, Option.bind_some, ends], well⟩
    | stopped found seen same keeps => exact ⟨_, rfl, (keeps total inside).mpr good⟩
    | @left r' next past more found seen excess same keeps =>
      have rest := (@fields_over style mem base) excess
      obtain ⟨last, ends, well⟩ := @ih r' next
        (by rw [Stops, rest]; simp) (by rw [rest]; simp) (by omega) ((keeps total inside).mpr good)
      exact ⟨last, by simp only [visited, Option.bind_some, ends], well⟩
    | @fooled r' next piece past found unseen bad =>
      have seen := stops past (by rw [found]; rfl)
      rw [seen] at unseen
      cases unseen

theorem turn_back (place : Nat) (good : (turn style mem base len place r).run.Good total) : r.Good total := by
  have read {start count : Nat} {r : Run σ} (good : (r.read start count).Good total) : r.Good total :=
    (Run.good_read.mp good).2
  have take {span : Span} {r : Run σ} (good : (r.take span).Good total) : r.Good total := (Run.good_take.mp good).2
  revert good
  unfold turn
  simp only
  split_ifs
  · exact read
  · exact fun good => read (read good)
  · exact fun good => read (read (take good))
  · exact fun good => read (read good)
  · exact fun good => read (read good)
  · exact read
  · exact read
  · exact read
  · exact id

theorem loop_back {visit : Piece → Run σ → Option (Run σ)}
    (back : ∀ piece (r r' : Run σ), visit piece r = some r' → r'.Good total → r.Good total)
    {fuel place : Nat} {r' : Run σ} (ends : loop style mem base len visit fuel place r = some r')
    (good : r'.Good total) : r.Good total := by
  induction fuel generalizing place r with
  | zero => cases ends
  | succ fuel ih =>
    apply (@turn_back _ style mem base len) place
    rw [loop] at ends
    generalize turn style mem base len place r = t at ends
    cases t with
    | ends last =>
      cases ends
      exact good
    | goes next piece last =>
      obtain ⟨middle, found, on⟩ := Option.bind_eq_some_iff.mp ends
      cases piece with
      | none =>
        cases found
        exact ih on
      | some piece => exact back piece _ _ found (ih on)

theorem loop_stops {visit : Piece → Run σ → Option (Run σ)} {Fit : Piece → Prop} (small : len + 8 < 2 ^ 32)
    (back : ∀ piece (r r' : Run σ), visit piece r = some r' → r'.Good total → r.Good total)
    {fuel place : Nat}
    (fits : ∀ piece ∈ (fields style mem base len place).1, ∀ r r' : Run σ, visit piece r = some r' →
      r'.Good total → Fit piece)
    {r' : Run σ} (ends : loop style mem base len visit fuel place r = some r') (good : r'.Good total) :
    Stops style mem base len place ∧ ∀ piece ∈ (fields style mem base len place).1, Fit piece := by
  induction fuel generalizing place r with
  | zero => cases ends
  | succ fuel ih =>
    have turns := (@turn_of _ style mem base) small place r
    rw [loop] at ends
    generalize turn style mem base len place r = t at turns ends
    cases turns with
    | ends none same keeps =>
      rw [Stops, none]
      exact ⟨by simp, by simp⟩
    | @field last next piece more goes first same keeps =>
      obtain ⟨middle, found, on⟩ := Option.bind_eq_some_iff.mp ends
      rw [first] at fits
      obtain ⟨stops, later⟩ := ih (fun piece member => fits piece (List.mem_cons_of_mem _ member)) on
      have fit := fits piece List.mem_cons_self _ _ found (loop_back back on good)
      rw [Stops, first]
      exact ⟨stops, List.forall_mem_cons.mpr ⟨fit, later⟩⟩
    | @skipped last next more goes later same keeps =>
      rw [later] at fits
      rw [Stops, later]
      exact ih fits (by simpa [visited] using ends)
    | stopped found seen same keeps =>
      rw [Stops, found]
      refine ⟨fun past member => ?_, by simp⟩
      cases member
      exact seen
    | left more found seen excess same keeps =>
      rw [Stops, found]
      refine ⟨fun past member => ?_, by simp⟩
      cases member
      exact seen
    | @fooled last next piece past found unseen bad =>
      obtain ⟨middle, visited, on⟩ := Option.bind_eq_some_iff.mp ends
      exact absurd (back piece _ _ visited (loop_back back on good)) (bad total)

theorem fields_inside {place : Nat} (small : len < 2 ^ 32) {number start : Nat} {k : U32}
    (member : Piece.bytes number start k ∈ (fields style mem base len place).1) : start + k.toNat ≤ base + len := by
  induction place using fields.induct style mem base len with
  | case1 place more tag n zero =>
    rw [fields, dif_pos more] at member
    simp only at member
    rw [if_pos zero] at member
    cases member
  | case2 place more tag n wire some number v ih =>
    rw [fields, dif_pos more] at member
    simp only at member
    rw [if_neg some, if_pos number] at member
    rcases List.mem_cons.mp member with same | later
    · cases same
    · exact ih later
  | case3 place more tag n wire some notNumber bytes k length lies ih =>
    rw [fields, dif_pos more] at member
    simp only at member
    rw [if_neg some, if_neg notNumber, if_pos bytes, if_pos lies] at member
    rcases List.mem_cons.mp member with same | later
    · have value := (@getVarint_value style.cut mem base len) tag.2
      have sent : encoded mem base len tag.2 % 2 ^ 32 = encoded mem base len tag.2 := Nat.mod_eq_of_lt (by omega)
      have small' : k.1.toNat = length := value.trans sent
      cases same
      change base + k.2 + k.1.toNat ≤ base + len
      omega
    · exact ih later
  | case4 place more tag n wire some notNumber bytes k length excess =>
    rw [fields, dif_pos more] at member
    simp only at member
    rw [if_neg some, if_neg notNumber, if_pos bytes, if_neg excess] at member
    cases member
  | case5 place more tag n wire some notNumber notBytes four ih =>
    rw [fields, dif_pos more] at member
    simp only at member
    rw [if_neg some, if_neg notNumber, if_neg notBytes, if_pos four] at member
    exact ih member
  | case6 place more tag n wire some notNumber notBytes notFour eight ih =>
    rw [fields, dif_pos more] at member
    simp only at member
    rw [if_neg some, if_neg notNumber, if_neg notBytes, if_neg notFour, if_pos eight] at member
    exact ih member
  | case7 place more tag n wire some notNumber notBytes notFour other =>
    rw [fields, dif_pos more] at member
    simp only at member
    rw [if_neg some, if_neg notNumber, if_neg notBytes, if_neg notFour, if_neg other] at member
    cases member
  | case8 place excess =>
    rw [fields, dif_neg excess] at member
    cases member

def plain (f : σ → Piece → σ) (piece : Piece) (r : Run σ) : Option (Run σ) := some { r with data := f r.data piece }

theorem plain_good {f : σ → Piece → σ} {piece : Piece} (good : r.Good total) :
    ∃ r', plain f piece r = some r' ∧ r'.Good total := ⟨_, rfl, good.reads, good.present⟩

theorem plain_back {f : σ → Piece → σ} {piece : Piece} {r' : Run σ} (found : plain f piece r = some r')
    (good : r'.Good total) : r.Good total := by
  cases found
  exact ⟨good.reads, good.present⟩

theorem loop_plain {f : σ → Piece → σ} (small : len + 8 < 2 ^ 32) {fuel place : Nat}
    {r' : Run σ} (ends : loop style mem base len (plain f) fuel place r = some r') (good : r'.Good total) :
    r'.data = (fields style mem base len place).1.foldl f r.data := by
  induction fuel generalizing place r with
  | zero => cases ends
  | succ fuel ih =>
    have turns := (@turn_of _ style mem base) small place r
    rw [loop] at ends
    generalize turn style mem base len place r = t at turns ends
    cases turns with
    | ends none same keeps =>
      cases ends
      rw [none, same]
      rfl
    | field more goes first same keeps => rw [ih ends, first, same, List.foldl_cons]
    | skipped more goes later same keeps => rw [ih ends, later, same]
    | stopped found seen same keeps =>
      cases ends
      rw [found, same]
      rfl
    | left more found seen excess same keeps => rw [ih ends, fields_over excess, found, same]
    | fooled found unseen bad =>
      have begun := loop_back (fun _ _ _ => plain_back) ends good
      exact absurd ⟨begun.reads, begun.present⟩ (bad total)

end Walk

end Ubiqos.Radio
