import Ubiqos.Shell.Editor

/-!
UTF-8 text on the shell's line. A character's bytes come one at a time, each for itself, so a
character is whole on the line when all of its bytes got there.
-/

namespace Ubiqos.Shell

open Function
open Glyphs (Whole Shaped back)
open List (forall_mem_cons forall_mem_nil)

abbrev Text : List Byte → Prop := Whole String.utf8EncodeChar

theorem cont_tail : ∀ x < 64, utf8Cont (UInt8.ofNat (x + 0x80)) = true := by decide

theorem cont_ascii : ∀ x < 128, utf8Cont (UInt8.ofNat x) = false := by decide

theorem cont_lead : ∀ x < 0x38, utf8Cont (UInt8.ofNat (x + 0xc0)) = false := by decide

theorem utf8_shaped : Shaped utf8Cont String.utf8EncodeChar := by
  intro c
  have tail : ∀ v : Nat, utf8Cont (UInt8.ofNat (v % 0x40 + 0x80)) = true :=
    fun v => cont_tail (v % 64) (Nat.mod_lt _ (by decide))
  have two : ∀ v : Nat, utf8Cont (UInt8.ofNat (v % 0x20 + 0xc0)) = false :=
    fun v => cont_lead (v % 32) (by omega)
  have three : ∀ v : Nat, utf8Cont (UInt8.ofNat (v % 0x10 + 0xe0)) = false :=
    fun v => cont_lead (v % 16 + 0x20) (by omega)
  have four : ∀ v : Nat, utf8Cont (UInt8.ofNat (v % 0x08 + 0xf0)) = false :=
    fun v => cont_lead (v % 8 + 0x30) (by omega)
  rw [String.utf8EncodeChar]
  split
  · next small =>
      exact ⟨_, [], rfl, cont_ascii _ (Nat.lt_succ_of_le small), fun b member => by simp at member⟩
  split
  · exact ⟨_, _, rfl, two _, forall_mem_cons.mpr ⟨tail _, forall_mem_nil _⟩⟩
  split
  · exact ⟨_, _, rfl, three _,
      forall_mem_cons.mpr ⟨tail _, forall_mem_cons.mpr ⟨tail _, forall_mem_nil _⟩⟩⟩
  · exact ⟨_, _, rfl, four _, forall_mem_cons.mpr ⟨tail _,
      forall_mem_cons.mpr ⟨tail _, forall_mem_cons.mpr ⟨tail _, forall_mem_nil _⟩⟩⟩⟩

theorem high_byte : ∀ x < 128, (0x80 : Byte) ≤ UInt8.ofNat (x + 0x80) := by decide

theorem one_byte (c : Char) : c.utf8Size = 1 ↔ c.val.toNat ≤ 0x7f :=
  Char.utf8Size_eq_one_iff.trans UInt32.le_iff_toNat_le

theorem utf8_low {c : Char} (one : c.utf8Size = 1) :
    ∃ b < 0x80, String.utf8EncodeChar c = [b] ∧ b.toNat = c.val.toNat := by
  have small := (one_byte c).mp one
  have same : c.val.toUInt8.toNat = c.val.toNat := by
    rw [UInt32.toNat_toUInt8, Nat.mod_eq_of_lt (by omega)]
  refine ⟨c.val.toUInt8, ?_, String.utf8EncodeChar_eq_singleton one, same⟩
  rw [UInt8.lt_iff_toNat_lt, same]
  exact Nat.lt_succ_of_le small

theorem utf8_high {c : Char} (more : c.utf8Size ≠ 1) : ∀ b ∈ String.utf8EncodeChar c, 0x80 ≤ b := by
  have large : ¬ c.val.toNat ≤ 0x7f := fun small => more ((one_byte c).mpr small)
  have tail : ∀ v : Nat, (0x80 : Byte) ≤ UInt8.ofNat (v % 0x40 + 0x80) :=
    fun v => high_byte (v % 64) (by omega)
  have two : ∀ v : Nat, (0x80 : Byte) ≤ UInt8.ofNat (v % 0x20 + 0xc0) :=
    fun v => high_byte (v % 32 + 0x40) (by omega)
  have three : ∀ v : Nat, (0x80 : Byte) ≤ UInt8.ofNat (v % 0x10 + 0xe0) :=
    fun v => high_byte (v % 16 + 0x60) (by omega)
  have four : ∀ v : Nat, (0x80 : Byte) ≤ UInt8.ofNat (v % 0x08 + 0xf0) :=
    fun v => high_byte (v % 8 + 0x70) (by omega)
  rw [String.utf8EncodeChar, if_neg large]
  split
  · exact forall_mem_cons.mpr ⟨two _, forall_mem_cons.mpr ⟨tail _, forall_mem_nil _⟩⟩
  split
  · exact forall_mem_cons.mpr ⟨three _,
      forall_mem_cons.mpr ⟨tail _, forall_mem_cons.mpr ⟨tail _, forall_mem_nil _⟩⟩⟩
  · exact forall_mem_cons.mpr ⟨four _, forall_mem_cons.mpr ⟨tail _,
      forall_mem_cons.mpr ⟨tail _, forall_mem_cons.mpr ⟨tail _, forall_mem_nil _⟩⟩⟩⟩

theorem glyphic_text : Glyphic Text where
  nil := Glyphs.whole_nil
  append := fun _ _ left right => left.append right
  ascii := by
    intro b low
    have scalar : (UInt8.toUInt32 b).isValidChar := by
      rw [UInt8.lt_iff_toNat_lt] at low
      exact Or.inl (low.trans (by decide))
    have one : (Char.mk b.toUInt32 scalar).utf8Size = 1 := by
      rw [one_byte]
      exact Nat.le_of_lt_succ (UInt8.lt_iff_toNat_lt.mp low)
    have written := String.utf8EncodeChar_eq_singleton one
    exact ⟨[⟨b.toUInt32, scalar⟩], by rw [List.flatMap_singleton, written]; simp⟩
  back := by
    intro l whole some
    obtain ⟨before, c, last⟩ := whole.back utf8_shaped some
    exact ⟨before, last ▸ Glyphs.whole_char c⟩
  front := fun _ _ whole => whole.front utf8_shaped

def bytes (c : Around × Char) : List (Around × Byte) :=
  (String.utf8EncodeChar c.2).map fun b => (c.1, b)

/-- A character of several bytes comes outside an escape sequence and fits, or the line is full
before it comes; and the longest beginning that the names under the cursor share goes on with whole
characters as far as there is room. -/
structure Fits (s : Loop) (c : Around × Char) : Prop where
  fits : c.2.utf8Size = 1 ∨ s.editor.len = room ∨
    s.state = .text ∧ s.editor.len + c.2.utf8Size ≤ room
  tab : s.state = .text → c.2 = '\t' → ∀ p, Longest (hits c.1 s.editor) p →
    Text ((p.drop (lookUp c.1 s.editor).1.length).take (room - s.editor.len))

def Fitting (s : Loop) : List (Around × Char) → Prop
  | [] => True
  | c :: rest => Fits s c ∧ ∀ s', run s (bytes c) = some s' → Fitting s' rest

variable {e : Editor} {w : Around} {s s' : Loop}

theorem run_append (s : Loop) (l r : List (Around × Byte)) :
    run s (l ++ r) = (run s l).bind fun s' => run s' r := by
  rw [run, List.foldlM_append]
  rfl

variable {b : Byte}

theorem textKey_high (high : 0x80 ≤ b) (w : Around) (e : Editor) :
    textKey w e b = insert e b := by
  have other : ∀ n < 0x80, b ≠ n := fun n low same => absurd (same ▸ low) (UInt8.not_lt.mpr high)
  have above : ¬ b < 0x7f := fun low => other b (UInt8.lt_trans low (by decide)) rfl
  simp [textKey, other, above, high]

theorem key_text (high : 0x80 ≤ b) (text : s.state = .text) :
    key w s b = some { s with editor := insert s.editor b } := by
  have other : ∀ n < 0x80, b ≠ n := fun n low same => absurd (same ▸ low) (UInt8.not_lt.mpr high)
  simp [key, text, other, textKey_high high]

theorem run_one (w : Around) (s : Loop) (b : Byte) : run s [(w, b)] = key w s b := by
  rw [run, List.foldlM_cons]
  cases key w s b <;> rfl

theorem run_high (w : Around) (bs : List Byte) (high : ∀ b ∈ bs, 0x80 ≤ b) (text : s.state = .text) :
    run s (bs.map fun b => (w, b)) = some { s with editor := insertStr s.editor bs } := by
  induction bs generalizing s with
  | nil => rfl
  | cons b bs ih =>
    rw [List.map_cons, run, List.foldlM_cons, key_text (high b List.mem_cons_self) text]
    exact ih (fun c member => high c (List.mem_cons_of_mem b member)) text

theorem key_escaped (high : 0x80 ≤ b) (inside : s.state ≠ .text) :
    ∃ s', key w s b = some s' ∧ s'.state = .text ∧ s'.editor = s.editor := by
  have other : ∀ n < 0x80, b ≠ n := fun n low same => absurd (same ▸ low) (UInt8.not_lt.mpr high)
  have digit : ¬ b ≤ 0x39 := fun low => other b (UInt8.lt_of_le_of_lt low (by decide)) rfl
  rw [key]
  split
  · exact ⟨_, rfl, by simp [other], rfl⟩
  · refine ⟨{ s with state := .text }, ?_, rfl, rfl⟩
    simp [csiKey, other, digit]
  · next text => exact absurd text inside

theorem bytes_take (c : Around × Char) (k : Nat) :
    (bytes c).take k = ((String.utf8EncodeChar c.2).take k).map fun b => (c.1, b) :=
  List.map_take.symm

variable {c : Around × Char}

theorem part_typed (kept : Kept Text s.editor) (more : c.2.utf8Size ≠ 1)
    (fits : Fits s c) (k : Nat) (ran : run s ((bytes c).take k) = some s') :
    Past Text s'.editor.toHistory ∧ ∃ l m r, Parted s'.editor (l ++ m) r ∧ Text l ∧ Text r ∧
      m <+: String.utf8EncodeChar c.2 ∧ (c.2.utf8Size ≤ k → Text m) := by
  obtain ⟨past, l, r, parted, left, right⟩ := kept
  have high : ∀ b ∈ (String.utf8EncodeChar c.2).take k, 0x80 ≤ b :=
    fun b member => utf8_high more b (List.mem_of_mem_take member)
  have plain : ∀ bs : List Byte, (∀ b ∈ bs, 0x80 ≤ b) → (0 : Byte) ∉ bs :=
    fun bs above member => absurd (above 0 member) (by decide)
  have room := parted.shows.len
  rw [bytes_take] at ran
  generalize cut : (String.utf8EncodeChar c.2).take k = bs at ran high
  have begins : bs <+: String.utf8EncodeChar c.2 := cut ▸ List.take_prefix k _
  by_cases text : s.state = .text
  · rw [run_high c.1 bs high text] at ran
    cases ran
    refine ⟨(insertStr_history bs s.editor).symm ▸ past, l, _, r,
      insertStr_parted parted (plain bs high), left, right, (List.take_prefix _ _).trans begins, ?_⟩
    intro whole
    rcases fits.fits with one | full | ⟨-, fit⟩
    · exact absurd one more
    · rw [← room, full, Nat.sub_self, List.take_zero]
      exact Glyphs.whole_nil
    · have all : bs = String.utf8EncodeChar c.2 := by
        rw [← cut, List.take_of_length_le (by rwa [String.length_utf8EncodeChar])]
      rw [all, List.take_of_length_le (by rw [String.length_utf8EncodeChar]; omega)]
      exact Glyphs.whole_char c.2
  · have full : s.editor.len = Shell.room := by
      rcases fits.fits with one | full | ⟨inside, -⟩
      · exact absurd one more
      · exact full
      · exact absurd inside text
    cases bs with
    | nil =>
      cases ran
      exact ⟨past, l, [], r, by rwa [List.append_nil], left, right, List.nil_prefix,
        fun _ => Glyphs.whole_nil⟩
    | cons b bs =>
      obtain ⟨s₁, stepped, outside, same⟩ := key_escaped (w := c.1) (high b List.mem_cons_self) text
      rw [List.map_cons, run, List.foldlM_cons, stepped] at ran
      have rest : ∀ c ∈ bs, 0x80 ≤ c := fun c member => high c (List.mem_cons_of_mem b member)
      have later := run_high c.1 bs rest outside
      rw [same] at later
      obtain rfl := Option.some.inj (later.symm.trans ran)
      have kept := insertStr_parted parted (plain bs rest)
      rw [← room, full, Nat.sub_self, List.take_zero] at kept
      exact ⟨(insertStr_history bs s.editor).symm ▸ past, l, [], r, kept, left, right,
        List.nil_prefix, fun _ => Glyphs.whole_nil⟩

theorem one_typed (kept : Kept Text s.editor) (one : c.2.utf8Size = 1)
    (fits : Fits s c) (k : Nat) (ran : run s ((bytes c).take k) = some s') : Kept Text s'.editor := by
  obtain ⟨b, low, written, same⟩ := utf8_low one
  rw [bytes_take, written] at ran
  cases k with
  | zero =>
    cases ran
    exact kept
  | succ k =>
    rw [List.take_succ_cons, List.take_nil, List.map_singleton, run_one] at ran
    refine key_kept glyphic_text kept (fun _ high => absurd low (UInt8.not_lt.mpr high))
      (fun text tab => complete_kept glyphic_text kept (fits.tab text ?_)) ran
    rw [tab] at same
    exact Char.ext (UInt32.toNat_inj.mp same.symm)

theorem char_kept (kept : Kept Text s.editor) (fits : Fits s c)
    (ran : run s (bytes c) = some s') : Kept Text s'.editor := by
  have all : (bytes c).take c.2.utf8Size = bytes c :=
    List.take_of_length_le (by simp [bytes])
  rw [← all] at ran
  by_cases one : c.2.utf8Size = 1
  · exact one_typed kept one fits _ ran
  · obtain ⟨past, l, m, r, parted, left, right, -, whole⟩ := part_typed kept one fits _ ran
    exact ⟨past, l ++ m, r, parted, left.append (whole le_rfl), right⟩

theorem led_append {l r : List Byte} (left : Glyphs.Led utf8Cont l) (right : Glyphs.Led utf8Cont r) :
    Glyphs.Led utf8Cont (l ++ r) := by
  cases l with
  | nil => exact right
  | cons a l => exact left

theorem visible_of {l r : List Byte} (parted : Parted e l r) (led : Glyphs.Led utf8Cont (l ++ r))
    (edge : Glyphs.Led utf8Cont r) : Visible e := by
  refine Or.inr ⟨(joined_at parted.shows 0).mp ?_, Or.inr ((joined_at parted.shows e.pos).mp ?_)⟩
  · rw [← List.head?_eq_getElem?]
    exact led
  · rw [parted.pos, List.getElem?_append_right le_rfl, Nat.sub_self, ← List.head?_eq_getElem?]
    exact edge

theorem Kept.visible (kept : Kept Text e) : Visible e := by
  obtain ⟨-, l, r, parted, left, right⟩ := kept
  exact visible_of parted ((left.append right).led utf8_shaped) (right.led utf8_shaped)

theorem part_visible (kept : Kept Text s.editor) (fits : Fits s c) (k : Nat)
    (ran : run s ((bytes c).take k) = some s') : Visible s'.editor := by
  by_cases one : c.2.utf8Size = 1
  · exact (one_typed kept one fits k ran).visible
  · obtain ⟨-, l, m, r, parted, left, right, begins, -⟩ := part_typed kept one fits k ran
    have lead : Glyphs.Led utf8Cont m := by
      have whole := (Glyphs.whole_char c.2).led utf8_shaped
      obtain ⟨rest, eq⟩ := begins
      intro a first
      refine whole a ?_
      rw [← eq, List.head?_append, Option.mem_def.mp first]
      rfl
    exact visible_of parted
      (led_append (led_append (left.led utf8_shaped) lead) (right.led utf8_shaped))
      (right.led utf8_shaped)

theorem chars_kept (kept : Kept Text s.editor) (chars : List (Around × Char))
    (fitting : Fitting s chars) (ran : run s (chars.flatMap bytes) = some s') :
    Kept Text s'.editor := by
  induction chars generalizing s with
  | nil =>
    cases ran
    exact kept
  | cons c rest ih =>
    rw [List.flatMap_cons, run_append] at ran
    obtain ⟨s₁, first, later⟩ := Option.bind_eq_some_iff.mp ran
    exact ih (char_kept kept fitting.1 first) (fitting.2 s₁ first) later

theorem Fitting.parts {chars : List (Around × Char)}
    (fitting : Fitting s (chars ++ [c])) : Fitting s chars ∧
      ∀ s', run s (chars.flatMap bytes) = some s' → Fits s' c := by
  induction chars generalizing s with
  | nil =>
    refine ⟨trivial, fun s' ran => ?_⟩
    cases ran
    exact fitting.1
  | cons d rest ih =>
    refine ⟨⟨fitting.1, fun s' ran => (ih (fitting.2 s' ran)).1⟩, fun s' ran => ?_⟩
    rw [List.flatMap_cons, run_append] at ran
    obtain ⟨s₁, first, later⟩ := Option.bind_eq_some_iff.mp ran
    exact (ih (fitting.2 s₁ first)).2 s' later

structure Formed (e : Editor) : Prop where
  pos : e.pos ≤ e.len
  len : e.len ≤ lineMax - 1
  ended : e.line e.len = 0

def WholeLine (e : Editor) : Prop :=
  ∃ cs ds : List Char, (List.range e.len).map e.line = (cs ++ ds).flatMap String.utf8EncodeChar ∧
    e.pos = (cs.flatMap String.utf8EncodeChar).length

variable {P : List Byte → Prop}

theorem Kept.formed (kept : Kept P e) : Formed e := by
  obtain ⟨-, l, r, ⟨shows, pos⟩, -, -⟩ := kept
  refine ⟨?_, shows.len.trans_le shows.room, shows.len ▸ shows.close⟩
  rw [pos, shows.len, List.length_append]
  exact Nat.le_add_right _ _

theorem Kept.wholeLine (kept : Kept Text e) : WholeLine e := by
  obtain ⟨-, l, r, ⟨shows, pos⟩, ⟨cs, left⟩, ⟨ds, right⟩⟩ := kept
  have text := shows.take e.len
  rw [Nat.min_self, shows.len, List.take_length] at text
  exact ⟨cs, ds, by rw [shows.len, ← text, List.flatMap_append, ← left, ← right], left ▸ pos⟩

theorem start_kept (glyphic : Glyphic P) (raw : Editor) (hist : Option Memory)
    (width : Nat) (cwd : Memory) : Kept P (start raw hist width cwd).editor := by
  refine Kept.buildPrompt ⟨⟨Nat.zero_le _, Nat.succ_pos 15, le_rfl, fun _ _ k positive none => ?_, ?_⟩, [],
    [], ⟨⟨?_, rfl, Nat.zero_le _⟩, rfl⟩, glyphic.nil, glyphic.nil⟩ cwd
  · exact absurd none (Nat.not_le.mpr positive)
  · exact ⟨[], Stored.Holds.nil (update_self 0 0 raw.stash), Nat.zero_le _, glyphic.nil⟩
  · exact Stored.Holds.nil (update_self 0 0 raw.line)

theorem stream_kept (kept : Kept (fun _ => True) s.editor) (stream : List (Around × Byte))
    (ran : run s stream = some s') : Kept (fun _ => True) s'.editor := by
  induction stream generalizing s with
  | nil =>
    cases ran
    exact kept
  | cons b rest ih =>
    rw [run, List.foldlM_cons] at ran
    obtain ⟨s₁, first, later⟩ := Option.bind_eq_some_iff.mp ran
    refine ih (key_kept glyphic_any kept (fun _ high => ?_) (fun _ _ => ?_) first) later
    · have some : b.2 ≠ 0 := fun none => absurd (none ▸ high) (by decide)
      exact kept.insert glyphic_any some trivial
    · exact complete_kept glyphic_any kept fun _ _ => trivial

/-- After every byte of every stream the cursor is in the line, the line in its buffer and the
slice that is drawn in the line, with the cursor in it exactly when the line is `Visible`. While
what is typed is characters that fit, the line is whole characters after each of them with the
cursor between two, and the cursor is in the slice after each of their bytes. -/
theorem line_stays (raw : Editor) (hist : Option Memory) (width : Nat) (cwd : Memory) :
    (∀ stream s, run (start raw hist width cwd) stream = some s →
      Formed s.editor ∧ ∀ d, redraw s.editor = some d →
        d.start + d.shown ≤ s.editor.len ∧ (CursorInside s.editor d ↔ Visible s.editor)) ∧
    ∀ chars c k s, Fitting (start raw hist width cwd) (chars ++ [c]) →
      run (start raw hist width cwd) (chars.flatMap bytes ++ (bytes c).take k) = some s →
      (k = 0 ∨ c.2.utf8Size ≤ k → WholeLine s.editor) ∧
        ∀ d, redraw s.editor = some d → CursorInside s.editor d := by
  constructor
  · intro stream s ran
    have kept := stream_kept (start_kept glyphic_any raw hist width cwd) stream ran
    refine ⟨kept.formed, fun d drawn => ?_⟩
    obtain ⟨-, l, r, parted, -, -⟩ := kept
    refine ⟨?_, cursorInside_iff parted drawn⟩
    rw [(redraw_eq parted drawn).2.1, parted.shows.len]
    exact Glyphs.stop_le _ _ _
  · intro chars c k s fitting ran
    obtain ⟨before, last⟩ := fitting.parts
    rw [run_append] at ran
    obtain ⟨s₁, first, later⟩ := Option.bind_eq_some_iff.mp ran
    have kept := chars_kept (start_kept glyphic_text raw hist width cwd) chars before first
    have fits := last s₁ first
    constructor
    · rintro (none | all)
      · subst none
        cases later
        exact kept.wholeLine
      · rw [List.take_of_length_le (by simpa [bytes] using all)] at later
        exact (char_kept kept fits later).wholeLine
    · intro d drawn
      have any := stream_kept (start_kept glyphic_any raw hist width cwd) _ first
      obtain ⟨-, l, r, parted, -, -⟩ := stream_kept any _ later
      exact (cursorInside_iff parted drawn).mpr (part_visible kept fits k later)

def zeros : Memory := fun _ => 0

def unset : Editor where
  hist := none
  histCount := 0
  histNext := 0
  browse := 0
  stash := zeros
  prompt := zeros
  promptLen := 0
  width := 0
  line := zeros
  len := 0
  pos := 0
  quiet := false

def alone : Around where
  modules := []
  listing := fun _ => []
  ran := id
  cwd := zeros

def fresh : Loop := start unset none 80 zeros

/-- A program of the name `åb`. -/
def named : Around := { alone with modules := [⟨0, String.utf8EncodeChar 'å' ++ [0x62]⟩] }

theorem fitting_tab : Fitting fresh [(named, 'å'), (named, '\t')] := by
  refine ⟨⟨.inr (.inr ⟨rfl, by decide⟩), fun _ tab => absurd tab (by decide)⟩, fun s' ran => ?_⟩
  have found : hits named s'.editor = [String.utf8EncodeChar 'å' ++ [0x62]] ∧
      (lookUp named s'.editor).1 = String.utf8EncodeChar 'å' ∧ s'.editor.len = 2 := by
    cases ran
    decide +kernel
  obtain ⟨one, leaf, len⟩ := found
  refine ⟨⟨.inl rfl, fun _ _ p longest => ?_⟩, fun _ _ => trivial⟩
  rw [one] at longest
  have front := (longest p).mpr List.prefix_rfl _ List.mem_cons_self
  have back := (longest (String.utf8EncodeChar 'å' ++ [0x62])).mp (by simp)
  rw [leaf, len, front.eq_of_length_le back.length_le]
  exact ⟨['b'], by decide⟩

theorem line_stays_tab : ∃ s, run fresh ([(named, 'å'), (named, '\t')].flatMap bytes) = some s ∧
    s.editor.len = 4 ∧ WholeLine s.editor := by
  have ends : ((run fresh ([(named, 'å'), (named, '\t')].flatMap bytes)).map (·.editor.len)) = some 4 := by
    decide +kernel
  obtain ⟨s, ran, len⟩ := Option.map_eq_some_iff.mp ends
  have whole := ((line_stays unset none 80 zeros).2 [(named, 'å')] (named, '\t') 1 s fitting_tab ran).1
  exact ⟨s, ran, len, whole (.inr (by decide))⟩
def tooLong : List (Around × Char) := (List.replicate 126 'a' ++ ['å']).map fun c => (alone, c)

theorem text_last {l : List Byte} (text : Text (l ++ [b])) : utf8Cont b ∨ b < 0x80 := by
  cases lead : utf8Cont b with
  | true => exact Or.inl rfl
  | false =>
    obtain ⟨-, c, last⟩ := text.back utf8_shaped (by simp)
    rw [Glyphs.back_concat, lead, if_neg Bool.false_ne_true, List.drop_left] at last
    have one : c.utf8Size = 1 := by
      rw [← String.length_utf8EncodeChar, ← last]
      rfl
    obtain ⟨a, low, written, -⟩ := utf8_low one
    rw [written] at last
    cases last
    exact Or.inr low

theorem half_character : ∃ s, run fresh (tooLong.flatMap bytes) = some s ∧ ¬ WholeLine s.editor := by
  have ends : ((run fresh (tooLong.flatMap bytes)).map fun s =>
      ((List.range s.editor.len).map s.editor.line).getLast?) = some (some 0xc3) := by
    decide +kernel
  obtain ⟨s, ran, last⟩ := Option.map_eq_some_iff.mp ends
  refine ⟨s, ran, fun whole => ?_⟩
  obtain ⟨cs, ds, text, -⟩ := whole
  obtain ⟨l, split⟩ := List.getLast?_eq_some_iff.mp last
  rcases text_last (show Text (l ++ [0xc3]) from ⟨cs ++ ds, split ▸ text⟩) with cont | low
  · exact absurd cont (by decide)
  · exact absurd low (by decide)

end Ubiqos.Shell
