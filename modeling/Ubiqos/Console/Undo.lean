import Ubiqos.Console.Grid
import Ubiqos.Lib.Typewriter

/-!
Backspace in `kernel/console.c`. The screen shows rows of a strip of cells, one behind the other,
and the strip moves up by a row at each scroll. A character types on the strip and a backspace goes
back on it, in either form that the end of a line has.
-/

namespace Ubiqos.Console

open Function
open Typewriter (Tape)

/-- The rows from `k` on are on the screen. Those from `first` to the cursor's ended because the
text ran off the edge. -/
structure Shows (cols rows : Word) (ink : Byte → Cell) (first k : Nat) (s : Screen) (t : Tape Cell) : Prop where
  sane : s.Sane
  sameCols : s.cols = cols
  sameRows : s.rows = rows
  inks : ∀ c, s.cell c = ink c
  place : s.wrapPending = false → t.pen = (s.curRow.toNat + k) * cols.toNat + s.curCol.toNat
  held : s.wrapPending = true → t.pen = (s.curRow.toNat + k + 1) * cols.toNat
  cells : ∀ row col : Word, row < rows → col < cols →
    s.cells row col = t.cell ((row.toNat + k) * cols.toNat + col.toNat)
  below : ∀ x, (rows.toNat + k) * cols.toNat ≤ x → t.cell x = ink 32
  wrapped : ∀ row : Word, row < s.curRow → first ≤ row.toNat + k → s.rowWrapped row = true

theorem place_inj {width row col row' col' : Nat} (same : row * width + col = row' * width + col')
    (inside : col < width) (inside' : col' < width) : row = row' ∧ col = col' := by
  have rows : row = row' := by
    have quotients := congrArg (· / width) same
    simpa [Nat.mul_comm _ width, Nat.mul_add_div (Nat.zero_lt_of_lt inside), Nat.div_eq_of_lt inside,
      Nat.div_eq_of_lt inside'] using quotients
  subst rows
  exact ⟨rfl, Nat.add_left_cancel same⟩

section Steps
variable {cols rows : Word} {ink : Byte → Cell} {first k : Nat} {s : Screen} {t : Tape Cell}

theorem cells_draw {cells : Word → Word → Cell}
    (shown : ∀ row col : Word, row < rows → col < cols →
      cells row col = t.cell ((row.toNat + k) * cols.toNat + col.toNat))
    {col row : Word} (inCol : col < cols) (a : Cell) {here : Nat}
    (place : here = (row.toNat + k) * cols.toNat + col.toNat) {row' col' : Word} (inRow' : row' < rows)
    (inCol' : col' < cols) :
    update cells row (update (cells row) col a) row' col' =
      update t.cell here a ((row'.toNat + k) * cols.toNat + col'.toNat) := by
  by_cases atRow : row' = row
  · subst atRow
    rw [update_self]
    by_cases atCol : col' = col
    · subst atCol
      rw [update_self, place, update_self]
    · have apart : (row'.toNat + k) * cols.toNat + col'.toNat ≠ here := by
        intro same
        have cols_ := (place_inj (same.trans place) inCol' inCol).2
        exact atCol (BitVec.eq_of_toNat_eq cols_)
      rw [update_of_ne atCol, update_of_ne apart, shown row' col' inRow' inCol']
  · have apart : (row'.toNat + k) * cols.toNat + col'.toNat ≠ here := by
      intro same
      have rows_ := (place_inj (same.trans place) inCol' inCol).1
      exact atRow (BitVec.eq_of_toNat_eq (by omega))
    rw [update_of_ne atRow, update_of_ne apart, shown row' col' inRow' inCol']

theorem place_above {row col : Word} (inRow : row < rows) (inCol : col < cols) :
    (row.toNat + k) * cols.toNat + col.toNat < (rows.toNat + k) * cols.toNat := by
  have next : (row.toNat + k + 1) * cols.toNat ≤ (rows.toNat + k) * cols.toNat :=
    Nat.mul_le_mul_right _ (by have small := BitVec.lt_def.mp inRow; omega)
  have small := BitVec.lt_def.mp inCol
  rw [Nat.add_one_mul] at next
  omega

theorem below_draw (below : ∀ x, (rows.toNat + k) * cols.toNat ≤ x → t.cell x = ink 32) {here : Nat} (a : Cell)
    (above : here < (rows.toNat + k) * cols.toNat) {x : Nat} (under : (rows.toNat + k) * cols.toNat ≤ x) :
    update t.cell here a x = ink 32 := by
  rw [update_of_ne (by omega), below x under]

theorem Shows.put (shows_ : Shows cols rows ink first k s t) (free : s.wrapPending = false) (c : Byte) :
    Shows cols rows ink first k (s.put c) (Typewriter.type t (ink c)) := by
  obtain ⟨sane, rfl, rfl, inks, place, -, cells, below, wrapped⟩ := shows_
  have here := place free
  have kept : (s.put c).Sane := (Drawn.Good.put (d := ⟨s, False⟩) ⟨sane, id⟩ free c).sane
  have wide := sane.wide
  have inCol := BitVec.lt_def.mp sane.col
  have above := here ▸ place_above (k := k) sane.row sane.col
  by_cases last : s.cols ≤ s.curCol + 1
  · rw [Drawn.put_last last] at kept ⊢
    have final : s.curCol.toNat + 1 = s.cols.toNat := by bv_omega
    refine ⟨kept, rfl, rfl, inks, ?_, ?_, ?_, ?_, wrapped⟩
    · intro held
      cases held
    · intro _
      show t.pen + 1 = _
      rw [here, Nat.add_one_mul]
      simp only [Screen.drawGlyph]
      omega
    · intro row col inRow inCol
      rw [← inks c]
      exact cells_draw cells sane.col _ here inRow inCol
    · intro x under
      exact below_draw below _ above under
  · rw [Drawn.put_on last] at kept ⊢
    have next : (s.curCol + 1).toNat = s.curCol.toNat + 1 := by bv_omega
    refine ⟨kept, rfl, rfl, inks, ?_, ?_, ?_, ?_, wrapped⟩
    · intro _
      show t.pen + 1 = _ + (s.curCol + 1).toNat
      rw [here, next]
      rfl
    · intro held
      cases free.symm.trans held
    · intro row col inRow inCol
      rw [← inks c]
      exact cells_draw cells sane.col _ here inRow inCol
    · intro x under
      exact below_draw below _ above under

def Bottom (rows : Word) (k : Nat) (s : Screen) : Prop := k = 0 ∨ s.curRow = rows - 1

theorem newline_over {s : Screen} (excess : s.rows ≤ s.curRow + 1) :
    s.newline = Screen.clearRows { s with
      curCol := 0
      curRow := s.rows - 1
      cells := fun row => s.cells (row + 1)
      rowWrapped := fun row => if row < s.rows - 1 then s.rowWrapped (row + 1) else s.rowWrapped row }
        (fun row => row = s.rows - 1) :=
  if_pos excess

theorem newline_within {s : Screen} (within : ¬ s.rows ≤ s.curRow + 1) :
    s.newline = { s with curCol := 0, curRow := s.curRow + 1 } :=
  if_neg within

def Past (s : Screen) : Prop := s.wrapPending = true ∨ 0 < s.curCol.toNat

theorem Shows.wrap (shows_ : Shows cols rows ink first k s t) (bottom : Bottom rows k s) :
    ∃ k', Shows cols rows ink first k' s.wrap t ∧ Bottom rows k' s.wrap := by
  by_cases pending : s.wrapPending
  · have kept : s.wrap.Sane := Drawn.wrap_screen ⟨s, False⟩ ▸ (Drawn.Good.wrap (d := ⟨s, False⟩) ⟨shows_.sane, id⟩).sane
    have free := Drawn.wrap_free s
    obtain ⟨sane, rfl, rfl, inks, -, held, cells, below, wrapped⟩ := shows_
    have here := held pending
    have tall : s.rows.toNat ≤ 40 := sane.tall
    have inRow := BitVec.lt_def.mp sane.row
    simp only [Screen.wrap, if_pos pending] at kept free ⊢
    by_cases excess : s.rows ≤ s.curRow + 1
    · rw [newline_over (s := { s with wrapPending := false, rowWrapped := update s.rowWrapped s.curRow true }) excess]
        at kept free ⊢
      have final : s.curRow = s.rows - 1 := by bv_omega
      have last : s.curRow.toNat + 1 = s.rows.toNat := by bv_omega
      refine ⟨k + 1, ⟨kept, rfl, rfl, inks, ?_, ?_, ?_, ?_, ?_⟩, .inr rfl⟩
      · intro _
        show t.pen = ((s.rows - 1).toNat + (k + 1)) * s.cols.toNat + 0
        rw [here, ← final]
        rfl
      · intro held
        cases held
      · intro row col inRow' inCol'
        simp only [Screen.clearRows, decide_eq_true_eq]
        by_cases new : row = s.rows - 1
        · rw [if_pos new, below _ ?_]
          · exact inks 32
          · rw [new, ← final, ← last, ← Nat.add_assoc, Nat.add_right_comm]
            exact Nat.le_add_right _ _
        · have up : (row + 1).toNat = row.toNat + 1 := by bv_omega
          have stays : row + 1 < s.rows := by bv_omega
          rw [if_neg new, cells (row + 1) col stays inCol', up, Nat.add_right_comm, Nat.add_assoc]
      · intro x under
        refine below x (Nat.le_trans (Nat.mul_le_mul_right _ ?_) under)
        exact Nat.add_le_add_left (Nat.le_succ k) _
      · intro row above deep
        have small : row < s.rows - 1 := above
        have up : (row + 1).toNat = row.toNat + 1 := by bv_omega
        simp only [Screen.clearRows, decide_eq_true_eq]
        rw [if_neg (by bv_omega), if_pos small]
        by_cases held : row + 1 = s.curRow
        · rw [held, update_self]
        · rw [update_of_ne held]
          exact wrapped (row + 1) (by bv_omega) (by omega)
    · rw [newline_within (s := { s with wrapPending := false, rowWrapped := update s.rowWrapped s.curRow true }) excess]
        at kept free ⊢
      have next : (s.curRow + 1).toNat = s.curRow.toNat + 1 := by bv_omega
      refine ⟨k, ⟨kept, rfl, rfl, inks, ?_, ?_, cells, below, ?_⟩, ?_⟩
      · intro _
        show t.pen = ((s.curRow + 1).toNat + k) * s.cols.toNat + 0
        rw [here, next, Nat.add_right_comm]
        rfl
      · intro held
        cases held
      · intro row above deep
        show update s.rowWrapped s.curRow true row = true
        by_cases held : row = s.curRow
        · rw [held, update_self]
        · rw [update_of_ne held]
          exact wrapped row (by bv_omega) deep
      · rcases bottom with none | final
        · exact .inl none
        · bv_omega
  · have same : s.wrap = s := by simp [Screen.wrap, pending]
    exact ⟨k, same.symm ▸ shows_, same.symm ▸ bottom⟩

theorem Shows.typed (shows_ : Shows cols rows ink first k s t) (bottom : Bottom rows k s) {c : Byte}
    (printable : 32 ≤ c) :
    ∃ k', Shows cols rows ink first k' (s.drawChar c) (Typewriter.type t (ink c)) ∧
      Bottom rows k' (s.drawChar c) ∧ Past (s.drawChar c) := by
  obtain ⟨k', wrapped, bottom'⟩ := shows_.wrap bottom
  have drawn : s.drawChar c = s.wrap.put c := by
    unfold Screen.drawChar
    rw [if_neg (by bv_omega), if_neg (by bv_omega), if_neg (by bv_omega), if_neg (by bv_omega), if_neg (by bv_omega)]
  have sane := wrapped.sane
  have wide := sane.wide
  have inCol := BitVec.lt_def.mp sane.col
  rw [drawn]
  refine ⟨k', wrapped.put (Drawn.wrap_free s) c, ?_⟩
  by_cases last : s.wrap.cols ≤ s.wrap.curCol + 1
  · rw [Drawn.put_last last]
    exact ⟨bottom', .inl rfl⟩
  · rw [Drawn.put_on last]
    refine ⟨bottom', .inr ?_⟩
    show 0 < (s.wrap.curCol + 1).toNat
    bv_omega

theorem Shows.back (shows_ : Shows cols rows ink first k s t) (top : k ≤ first) (more : first * cols.toNat < t.pen) :
    Shows cols rows ink first k (s.drawChar 0x08) (Typewriter.back (ink 32) t) ∧
      (s.drawChar 0x08).wrapPending = false := by
  have kept : (s.drawChar 0x08).Sane :=
    Drawn.drawChar_screen ⟨s, False⟩ 0x08 ▸ (Drawn.Good.drawChar (d := ⟨s, False⟩) ⟨shows_.sane, id⟩ 0x08).sane
  obtain ⟨sane, rfl, rfl, inks, place, held, cells, below, wrapped⟩ := shows_
  have wide := sane.wide
  have inCol := BitVec.lt_def.mp sane.col
  have erases {col row : Word} (inRow : row < s.rows) (inCol : col < s.cols) {here : Nat}
      (at_ : here = (row.toNat + k) * s.cols.toNat + col.toNat) :
      (∀ row' col' : Word, row' < s.rows → col' < s.cols →
        update s.cells row (update (s.cells row) col (s.cell 32)) row' col' =
          update t.cell here (ink 32) ((row'.toNat + k) * s.cols.toNat + col'.toNat)) ∧
      ∀ x, (s.rows.toNat + k) * s.cols.toNat ≤ x → update t.cell here (ink 32) x = ink 32 :=
    ⟨fun row' col' inRow' inCol' => inks 32 ▸ cells_draw cells inCol _ at_ inRow' inCol',
      fun x under => below_draw below _ (at_ ▸ place_above inRow inCol) under⟩
  by_cases pending : s.wrapPending
  · have drawn : s.drawChar 0x08 = { s with wrapPending := false }.drawGlyph s.curCol s.curRow 32 := by
      unfold Screen.drawChar
      rw [if_neg (by decide), if_neg (by decide), if_pos rfl, if_pos pending]
    rw [drawn] at kept ⊢
    have last : s.curCol.toNat = s.cols.toNat - 1 := by
      have final := sane.wrap pending
      bv_omega
    have here : t.pen - 1 = (s.curRow.toNat + k) * s.cols.toNat + s.curCol.toNat := by
      rw [held pending, Nat.add_one_mul, last]
      omega
    obtain ⟨erased, under⟩ := erases sane.row sane.col here
    exact ⟨⟨kept, rfl, rfl, inks, fun _ => here, fun held => (by cases held), erased, under, wrapped⟩, rfl⟩
  have free : s.wrapPending = false := by simpa using pending
  have here := place free
  by_cases left : s.curCol ≠ 0
  · have drawn : s.drawChar 0x08 = { s with curCol := s.curCol - 1 }.drawGlyph (s.curCol - 1) s.curRow 32 := by
      unfold Screen.drawChar
      rw [if_neg (by decide), if_neg (by decide), if_pos rfl, if_neg pending, if_pos left]
    rw [drawn] at kept ⊢
    have before : (s.curCol - 1).toNat = s.curCol.toNat - 1 := by bv_omega
    have some_ : 0 < s.curCol.toNat := by bv_omega
    have at_ : t.pen - 1 = (s.curRow.toNat + k) * s.cols.toNat + (s.curCol - 1).toNat := by
      rw [here, before]
      omega
    obtain ⟨erased, under⟩ := erases sane.row (kept.col : s.curCol - 1 < s.cols) at_
    exact ⟨⟨kept, rfl, rfl, inks, fun _ => at_, fun held => absurd held pending, erased, under, wrapped⟩, free⟩
  · have edge : s.curCol = 0 := by simpa using left
    have row : t.pen = (s.curRow.toNat + k) * s.cols.toNat := by simpa [edge] using here
    have deep : first < s.curRow.toNat + k := Nat.lt_of_mul_lt_mul_right (row ▸ more)
    have above : (s.curRow - 1).toNat = s.curRow.toNat - 1 := by bv_omega
    have up : s.curRow ≠ 0 ∧ s.rowWrapped (s.curRow - 1) = true :=
      ⟨by bv_omega, wrapped (s.curRow - 1) (by bv_omega) (by omega)⟩
    have drawn : s.drawChar 0x08 = { s with
        curRow := s.curRow - 1
        curCol := s.cols - 1
        rowWrapped := update s.rowWrapped (s.curRow - 1) false }.drawGlyph (s.cols - 1) (s.curRow - 1) 32 := by
      unfold Screen.drawChar
      rw [if_neg (by decide), if_neg (by decide), if_pos rfl, if_neg pending, if_neg left, if_pos up]
    rw [drawn] at kept ⊢
    have last : (s.cols - 1).toNat = s.cols.toNat - 1 := by bv_omega
    have at_ : t.pen - 1 = ((s.curRow - 1).toNat + k) * s.cols.toNat + (s.cols - 1).toNat := by
      have count : s.curRow.toNat + k = (s.curRow.toNat - 1 + k) + 1 := by omega
      rw [row, above, last, count, Nat.add_one_mul]
      omega
    obtain ⟨erased, under⟩ := erases kept.row kept.col at_
    refine ⟨⟨kept, rfl, rfl, inks, fun _ => at_, fun held => absurd held pending, erased, under, ?_⟩, free⟩
    intro row' before deep'
    have before : row' < s.curRow - 1 := before
    show update s.rowWrapped (s.curRow - 1) false row' = true
    rw [update_of_ne (by bv_omega)]
    exact wrapped row' (by bv_omega) deep'

def Aside (s s' : Screen) : Prop :=
  ∃ shown cp need, s' = { s with shown := shown, utf8Cp := cp, utf8Need := need }

theorem Shows.aside {s' : Screen} (shows_ : Shows cols rows ink first k s t) (aside : Aside s s') :
    Shows cols rows ink first k s' t := by
  obtain ⟨shown, cp, need, rfl⟩ := aside
  obtain ⟨⟨row, col, wrap, tall, wide⟩, sameCols, sameRows, inks, place, held, cells, below, wrapped⟩ := shows_
  exact ⟨⟨row, col, wrap, tall, wide⟩, sameCols, sameRows, inks, place, held, cells, below, wrapped⟩

theorem Bottom.aside {s' : Screen} (bottom : Bottom rows k s) (aside : Aside s s') : Bottom rows k s' := by
  obtain ⟨shown, cp, need, rfl⟩ := aside
  exact bottom

end Steps

/-- UTF-8, with a character above U+00FF drawn as a question mark, or a byte that begins nothing. -/
inductive Character
  | utf8 (cp : Nat) (printable : 32 ≤ cp) (scalar : cp < 0x110000)
  | raw (c : Byte) (begins : c &&& 0xc0 = 0x80 ∨ c &&& 0xf8 = 0xf8)

def encode (cp : Nat) : List Byte :=
  if cp < 0x80 then [BitVec.ofNat 8 cp]
  else if cp < 0x800 then [BitVec.ofNat 8 (0xc0 + cp / 64), BitVec.ofNat 8 (0x80 + cp % 64)]
  else if cp < 0x10000 then
    [BitVec.ofNat 8 (0xe0 + cp / 4096), BitVec.ofNat 8 (0x80 + cp / 64 % 64), BitVec.ofNat 8 (0x80 + cp % 64)]
  else
    [BitVec.ofNat 8 (0xf0 + cp / 262144), BitVec.ofNat 8 (0x80 + cp / 4096 % 64), BitVec.ofNat 8 (0x80 + cp / 64 % 64),
      BitVec.ofNat 8 (0x80 + cp % 64)]

def Character.bytes : Character → List Byte
  | .utf8 cp _ _ => encode cp
  | .raw c _ => [c]

def Character.drawn : Character → Byte
  | .utf8 cp _ _ => if cp < 256 then BitVec.ofNat 8 cp else 0x3f
  | .raw c _ => c

def Screen.feed (s : Screen) (c : Byte) : Screen := (s.cursor false).feedText c

section Characters
variable {s : Screen}

theorem lead_two : ∀ n < 32, ¬ BitVec.ofNat 8 (0xc0 + n) < 0x80 ∧ BitVec.ofNat 8 (0xc0 + n) &&& 0xe0 = 0xc0 ∧
    (BitVec.ofNat 8 (0xc0 + n) &&& 0x1f).setWidth 32 = BitVec.ofNat 32 n := by decide +kernel

theorem lead_three : ∀ n < 16, ¬ BitVec.ofNat 8 (0xe0 + n) < 0x80 ∧ ¬ BitVec.ofNat 8 (0xe0 + n) &&& 0xe0 = 0xc0 ∧
    BitVec.ofNat 8 (0xe0 + n) &&& 0xf0 = 0xe0 ∧
    (BitVec.ofNat 8 (0xe0 + n) &&& 0x0f).setWidth 32 = BitVec.ofNat 32 n := by decide +kernel

theorem lead_four : ∀ n < 8, ¬ BitVec.ofNat 8 (0xf0 + n) < 0x80 ∧ ¬ BitVec.ofNat 8 (0xf0 + n) &&& 0xe0 = 0xc0 ∧
    ¬ BitVec.ofNat 8 (0xf0 + n) &&& 0xf0 = 0xe0 ∧ BitVec.ofNat 8 (0xf0 + n) &&& 0xf8 = 0xf0 ∧
    (BitVec.ofNat 8 (0xf0 + n) &&& 0x07).setWidth 32 = BitVec.ofNat 32 n := by decide +kernel

theorem continuation : ∀ n < 64, BitVec.ofNat 8 (0x80 + n) &&& 0xc0 = 0x80 ∧
    (BitVec.ofNat 8 (0x80 + n) &&& 0x3f).setWidth 32 = BitVec.ofNat 32 n := by decide +kernel

theorem begins_nothing : ∀ c : Byte, c &&& 0xc0 = 0x80 ∨ c &&& 0xf8 = 0xf8 → ¬ c < 0x80 ∧ ¬ c &&& 0xe0 = 0xc0 ∧
    ¬ c &&& 0xf0 = 0xe0 ∧ ¬ c &&& 0xf8 = 0xf0 ∧ 32 ≤ c := by decide +kernel

theorem push_bits {a b : Nat} (low : b < 64) (high : a < 2 ^ 26) :
    (BitVec.ofNat 32 a <<< 6 ||| BitVec.ofNat 32 b : Word) = BitVec.ofNat 32 (a * 64 + b) := by
  apply BitVec.eq_of_toNat_eq
  have sum : a <<< 6 ||| b = a * 64 + b := by
    rw [← Nat.shiftLeft_add_eq_or_of_lt low, Nat.shiftLeft_eq]
  rw [BitVec.toNat_or, BitVec.toNat_shiftLeft, BitVec.toNat_ofNat, BitVec.toNat_ofNat, BitVec.toNat_ofNat,
    Nat.mod_eq_of_lt (by omega : a < 2 ^ 32), Nat.mod_eq_of_lt (by omega : b < 2 ^ 32), Nat.shiftLeft_eq,
    Nat.mod_eq_of_lt (by omega), Nat.mod_eq_of_lt (by omega), ← sum, Nat.shiftLeft_eq]

def Screen.holds (s : Screen) (cp need : Nat) : Screen :=
  { s with shown := none, utf8Cp := BitVec.ofNat 32 cp, utf8Need := need }

theorem lifted (s : Screen) : s.cursor false = { s with shown := none } := by
  obtain ⟨⟩ := s
  rename_i shown _ _ _
  cases shown <;> rfl

theorem feedText_begin {s : Screen} (whole : s.utf8Need = 0) (c : Byte) :
    s.feedText c =
      if c < 0x80 then s.drawChar c
      else if c &&& 0xe0 = 0xc0 then { s with utf8Cp := (c &&& 0x1f).setWidth 32, utf8Need := 1 }
      else if c &&& 0xf0 = 0xe0 then { s with utf8Cp := (c &&& 0x0f).setWidth 32, utf8Need := 2 }
      else if c &&& 0xf8 = 0xf0 then { s with utf8Cp := (c &&& 0x07).setWidth 32, utf8Need := 3 }
      else s.drawChar c :=
  if_pos whole

theorem feedText_more {s : Screen} {need : Nat} (more : s.utf8Need = need + 1 + 1) {c : Byte}
    (follows : c &&& 0xc0 = 0x80) :
    s.feedText c =
      { s with utf8Cp := s.utf8Cp <<< 6 ||| (c &&& 0x3f).setWidth 32, utf8Need := s.utf8Need - 1 } :=
  (if_neg (by omega)).trans ((if_pos follows).trans (if_pos (by simp only; omega)))

theorem feedText_last {s : Screen} (one : s.utf8Need = 1) {c : Byte} (follows : c &&& 0xc0 = 0x80) :
    s.feedText c =
      Screen.drawChar { s with utf8Cp := s.utf8Cp <<< 6 ||| (c &&& 0x3f).setWidth 32, utf8Need := s.utf8Need - 1 }
        (if s.utf8Cp <<< 6 ||| (c &&& 0x3f).setWidth 32 < 256
          then (s.utf8Cp <<< 6 ||| (c &&& 0x3f).setWidth 32).setWidth 8 else 0x3f) :=
  (if_neg (by omega)).trans ((if_pos follows).trans (if_neg (by simp only; omega)))

theorem feed_more {cp need n : Nat} (low : n < 64) (high : cp < 2 ^ 26) :
    (s.holds cp (need + 1 + 1)).feed (BitVec.ofNat 8 (0x80 + n)) = s.holds (cp * 64 + n) (need + 1) := by
  obtain ⟨follows, bits⟩ := continuation n low
  rw [Screen.feed, lifted, (@feedText_more _ need) rfl follows, bits]
  simp only [Screen.holds, push_bits low high]
  rfl

theorem feed_last {cp n : Nat} (low : n < 64) (high : cp < 2 ^ 26) :
    (s.holds cp 1).feed (BitVec.ofNat 8 (0x80 + n)) =
      (s.holds (cp * 64 + n) 0).drawChar (if cp * 64 + n < 256 then BitVec.ofNat 8 (cp * 64 + n) else 0x3f) := by
  obtain ⟨follows, bits⟩ := continuation n low
  have small : (BitVec.ofNat 32 (cp * 64 + n)).toNat = cp * 64 + n := by
    rw [BitVec.toNat_ofNat, Nat.mod_eq_of_lt (by omega)]
  have narrow : (BitVec.ofNat 32 (cp * 64 + n) < 256) ↔ cp * 64 + n < 256 := by
    rw [BitVec.lt_def, small]
    rfl
  have byte : (BitVec.ofNat 32 (cp * 64 + n)).setWidth 8 = BitVec.ofNat 8 (cp * 64 + n) := by
    apply BitVec.eq_of_toNat_eq
    rw [BitVec.toNat_setWidth, small, BitVec.toNat_ofNat]
  rw [Screen.feed, lifted, feedText_last rfl follows, bits]
  simp only [Screen.holds, push_bits low high, narrow, byte]

theorem holds_aside (cp need : Nat) : Aside s (s.holds cp need) := ⟨_, _, _, rfl⟩

theorem feed_character (whole : s.utf8Need = 0) (ch : Character) :
    ∃ s', Aside s s' ∧ s'.utf8Need = 0 ∧ ch.bytes.foldl Screen.feed s = s'.drawChar ch.drawn := by
  have starts : ({ s with shown := none } : Screen).utf8Need = 0 := whole
  cases ch with
  | raw c begins =>
    obtain ⟨high, two, three, four, -⟩ := begins_nothing c begins
    refine ⟨{ s with shown := none }, ⟨none, s.utf8Cp, s.utf8Need, rfl⟩, whole, ?_⟩
    simp only [Character.bytes, Character.drawn, List.foldl_cons, List.foldl_nil, Screen.feed, lifted]
    rw [feedText_begin starts, if_neg high, if_neg two, if_neg three, if_neg four]
  | utf8 cp printable scalar =>
    simp only [Character.bytes, Character.drawn, encode]
    split
    · rename_i ascii
      have low : (BitVec.ofNat 8 cp : Byte) < 0x80 := by bv_omega
      refine ⟨{ s with shown := none }, ⟨none, s.utf8Cp, s.utf8Need, rfl⟩, whole, ?_⟩
      rw [if_pos (by omega)]
      simp only [List.foldl_cons, List.foldl_nil, Screen.feed, lifted]
      rw [feedText_begin starts, if_pos low]
    split
    · obtain ⟨high, two, bits⟩ := lead_two (cp / 64) (by omega)
      have first : s.feed (BitVec.ofNat 8 (0xc0 + cp / 64)) = s.holds (cp / 64) 1 := by
        rw [Screen.feed, lifted, feedText_begin starts, if_neg high, if_pos two, bits]
        rfl
      have sum : cp / 64 * 64 + cp % 64 = cp := by omega
      refine ⟨s.holds cp 0, holds_aside _ _, rfl, ?_⟩
      rw [List.foldl_cons, List.foldl_cons, List.foldl_nil, first, feed_last (by omega) (by omega), sum]
    split
    · obtain ⟨high, two, three, bits⟩ := lead_three (cp / 4096) (by omega)
      have first : s.feed (BitVec.ofNat 8 (0xe0 + cp / 4096)) = s.holds (cp / 4096) 2 := by
        rw [Screen.feed, lifted, feedText_begin starts, if_neg high, if_neg two, if_pos three, bits]
        rfl
      have sum : (cp / 4096 * 64 + cp / 64 % 64) * 64 + cp % 64 = cp := by omega
      refine ⟨s.holds cp 0, holds_aside _ _, rfl, ?_⟩
      rw [List.foldl_cons, List.foldl_cons, List.foldl_cons, List.foldl_nil, first,
        feed_more (by omega) (by omega), feed_last (by omega) (by omega), sum]
    · obtain ⟨high, two, three, four, bits⟩ := lead_four (cp / 262144) (by omega)
      have first : s.feed (BitVec.ofNat 8 (0xf0 + cp / 262144)) = s.holds (cp / 262144) 3 := by
        rw [Screen.feed, lifted, feedText_begin starts, if_neg high, if_neg two, if_neg three, if_pos four, bits]
        rfl
      have sum : ((cp / 262144 * 64 + cp / 4096 % 64) * 64 + cp / 64 % 64) * 64 + cp % 64 = cp := by omega
      refine ⟨s.holds cp 0, holds_aside _ _, rfl, ?_⟩
      rw [List.foldl_cons, List.foldl_cons, List.foldl_cons, List.foldl_cons, List.foldl_nil, first,
        feed_more (by omega) (by omega), feed_more (by omega) (by omega),
        feed_last (by omega) (by omega), sum]

theorem Character.drawn_printable (ch : Character) : 32 ≤ ch.drawn := by
  cases ch with
  | raw c begins => exact (begins_nothing c begins).2.2.2.2
  | utf8 cp printable scalar =>
    simp only [Character.drawn]
    split
    · bv_omega
    · decide

theorem newline_need (s : Screen) : s.newline.utf8Need = s.utf8Need := by
  simp only [Screen.newline, Screen.clearRows, apply_ite Screen.utf8Need, ite_self]

theorem wrap_need (s : Screen) : s.wrap.utf8Need = s.utf8Need := by
  simp only [Screen.wrap, newline_need, apply_ite Screen.utf8Need, ite_self]

theorem put_need (s : Screen) (c : Byte) : (s.put c).utf8Need = s.utf8Need := by
  by_cases last : s.cols ≤ s.curCol + 1
  · rw [Drawn.put_last last]
    rfl
  · rw [Drawn.put_on last]
    rfl

theorem tab_need (turns : Nat) (s : Screen) : (s.tab turns).utf8Need = s.utf8Need := by
  induction turns generalizing s with
  | zero => rfl
  | succ turns ih => simp only [Screen.tab, apply_ite Screen.utf8Need, ih, put_need, wrap_need, ite_self]

theorem drawChar_need (s : Screen) (c : Byte) : (s.drawChar c).utf8Need = s.utf8Need := by
  simp only [Screen.drawChar, Screen.drawGlyph, apply_ite Screen.utf8Need, newline_need, tab_need, put_need,
    wrap_need, ite_self]

theorem encode_plain {cp : Nat} (printable : 32 ≤ cp) (scalar : cp < 0x110000) : ∀ c ∈ encode cp, c ≠ 0x1b := by
  unfold encode
  intro c member
  split at member
  · simp only [List.mem_singleton] at member
    bv_omega
  split at member
  · simp only [List.mem_cons, List.not_mem_nil, or_false] at member
    rcases member with rfl | rfl <;> bv_omega
  split at member
  · simp only [List.mem_cons, List.not_mem_nil, or_false] at member
    rcases member with rfl | rfl | rfl <;> bv_omega
  · simp only [List.mem_cons, List.not_mem_nil, or_false] at member
    rcases member with rfl | rfl | rfl | rfl <;> bv_omega

theorem Character.plain (ch : Character) : ∀ c ∈ ch.bytes, c ≠ 0x1b := by
  cases ch with
  | utf8 cp printable scalar => exact encode_plain printable scalar
  | raw c begins =>
    intro c' member
    rw [List.mem_singleton.mp member]
    have high := (begins_nothing c begins).1
    bv_omega

end Characters

section Runs
variable {k : Terminal} {s : Screen} {cols rows : Word} {ink : Byte → Cell} {first j : Nat} {t : Tape Cell}

theorem feed_plain (rests : Rests k s) {bytes : List Byte} (plain : ∀ c ∈ bytes, c ≠ 0x1b) :
    Rests (bytes.foldl consoleFeed k) (bytes.foldl Screen.feed s) := by
  induction bytes generalizing k s with
  | nil => exact rests
  | cons c rest ih =>
    exact ih (feed_text rests (plain c List.mem_cons_self)) fun b member => plain b (List.mem_cons_of_mem c member)

structure Stands (cols rows : Word) (ink : Byte → Cell) (first j : Nat) (k : Terminal) (t : Tape Cell) : Prop where
  rests : Rests k k.screen
  whole : k.screen.utf8Need = 0
  shows_ : Shows cols rows ink first j k.screen t

theorem Stands.typed (stands : Stands cols rows ink first j k t) (bottom : Bottom rows j k.screen) (ch : Character) :
    ∃ j', Stands cols rows ink first j' (ch.bytes.foldl consoleFeed k) (Typewriter.type t (ink ch.drawn)) ∧
      Bottom rows j' (ch.bytes.foldl consoleFeed k).screen ∧ Past (ch.bytes.foldl consoleFeed k).screen := by
  obtain ⟨ready, state, fed⟩ := feed_plain stands.rests ch.plain
  obtain ⟨s', aside, whole, drawn⟩ := feed_character stands.whole ch
  obtain ⟨j', shown, bottom', past⟩ :=
    (stands.shows_.aside aside).typed (bottom.aside aside) ch.drawn_printable
  have screen : (ch.bytes.foldl consoleFeed k).screen = s'.drawChar ch.drawn := fed.trans drawn
  refine ⟨j', ⟨⟨ready, state, rfl⟩, ?_, ?_⟩, ?_, ?_⟩
  · rw [screen, drawChar_need, whole]
  all_goals rw [screen]
  · exact shown
  · exact bottom'
  · exact past

theorem Stands.types (stands : Stands cols rows ink first j k t) (bottom : Bottom rows j k.screen)
    (text : List Character) :
    ∃ j', Stands cols rows ink first j' ((text.flatMap Character.bytes).foldl consoleFeed k)
        ((text.map fun ch => ink ch.drawn).foldl Typewriter.type t) ∧
      Bottom rows j' ((text.flatMap Character.bytes).foldl consoleFeed k).screen ∧
      (text ≠ [] → Past ((text.flatMap Character.bytes).foldl consoleFeed k).screen) := by
  induction text generalizing j k t with
  | nil => exact ⟨j, stands, bottom, by simp⟩
  | cons ch rest ih =>
    obtain ⟨j', next, bottom', past⟩ := stands.typed bottom ch
    obtain ⟨j'', others, bottom'', past'⟩ := ih next bottom'
    rw [List.flatMap_cons, List.foldl_append]
    refine ⟨j'', others, bottom'', fun _ => ?_⟩
    cases rest with
    | nil => exact past
    | cons ch' rest => exact past' (List.cons_ne_nil _ _)

theorem Stands.back (stands : Stands cols rows ink first j k t) (top : j ≤ first)
    (more : first * cols.toNat < t.pen) :
    Stands cols rows ink first j (consoleFeed k 0x08) (Typewriter.back (ink 32) t) ∧
      (consoleFeed k 0x08).screen.wrapPending = false := by
  obtain ⟨ready, state, fed⟩ := feed_text stands.rests (c := 0x08) (by decide)
  have whole : ({ k.screen with shown := none } : Screen).utf8Need = 0 := stands.whole
  have screen : (consoleFeed k 0x08).screen = ({ k.screen with shown := none } : Screen).drawChar 0x08 := by
    rw [fed, lifted, feedText_begin whole, if_pos (by decide)]
  have aside : Aside k.screen { k.screen with shown := none } := ⟨_, k.screen.utf8Cp, k.screen.utf8Need, rfl⟩
  obtain ⟨shown, free⟩ := (stands.shows_.aside aside).back top more
  refine ⟨⟨⟨ready, state, rfl⟩, ?_, ?_⟩, ?_⟩
  · rw [screen, drawChar_need, whole]
  all_goals rw [screen]
  · exact shown
  · exact free

theorem Stands.backs (stands : Stands cols rows ink first j k t) (top : j ≤ first) (n : Nat)
    (more : first * cols.toNat + n ≤ t.pen) :
    Stands cols rows ink first j ((List.replicate n 0x08).foldl consoleFeed k) ((Typewriter.back (ink 32))^[n] t) ∧
      (n ≠ 0 → ((List.replicate n 0x08).foldl consoleFeed k).screen.wrapPending = false) := by
  induction n generalizing k t with
  | zero => exact ⟨stands, by simp⟩
  | succ n ih =>
    obtain ⟨next, free⟩ := stands.back top (by omega)
    obtain ⟨others, free'⟩ := ih next (by simp only [Typewriter.back]; omega)
    rw [List.replicate_succ, List.foldl_cons, Function.iterate_succ_apply]
    refine ⟨others, fun _ => ?_⟩
    cases n with
    | zero => exact free
    | succ n => exact free' (Nat.succ_ne_zero n)

end Runs

/-- Where the next character goes, counted along the rows: behind a wrap that is held back, the row
below. -/
def Screen.place (s : Screen) : Nat :=
  if s.wrapPending then (s.curRow.toNat + 1) * s.cols.toNat else s.curRow.toNat * s.cols.toNat + s.curCol.toNat

def Screen.scrolls (s : Screen) (n : Nat) : Nat := (s.place + n - 1) / s.cols.toNat + 1 - s.rows.toNat

def Screen.tape (s : Screen) : Tape Cell where
  cell x :=
    if x / s.cols.toNat < s.rows.toNat then
      s.cells (BitVec.ofNat 32 (x / s.cols.toNat)) (BitVec.ofNat 32 (x % s.cols.toNat))
    else s.cell 32
  pen := s.place

section Console
variable {s : Screen}

theorem tape_at {row col : Nat} (inCol : col < s.cols.toNat) :
    s.tape.cell (row * s.cols.toNat + col) =
      if row < s.rows.toNat then s.cells (BitVec.ofNat 32 row) (BitVec.ofNat 32 col) else s.cell 32 := by
  have quotient : (row * s.cols.toNat + col) / s.cols.toNat = row := by
    rw [Nat.mul_comm, Nat.mul_add_div (Nat.zero_lt_of_lt inCol), Nat.div_eq_of_lt inCol, Nat.add_zero]
  have remainder : (row * s.cols.toNat + col) % s.cols.toNat = col := by
    rw [Nat.mul_comm, Nat.mul_add_mod, Nat.mod_eq_of_lt inCol]
  simp only [Screen.tape, quotient, remainder]

theorem shows_tape (sane : s.Sane) : Shows s.cols s.rows s.cell (s.place / s.cols.toNat) 0 s s.tape := by
  have inCol := BitVec.lt_def.mp sane.col
  have some_ : 0 < s.cols.toNat := Nat.zero_lt_of_lt inCol
  refine ⟨sane, rfl, rfl, fun _ => rfl, ?_, ?_, ?_, ?_, ?_⟩
  · intro free
    simp [Screen.tape, Screen.place, free]
  · intro held
    simp [Screen.tape, Screen.place, held]
  · intro row col inRow inCol
    rw [Nat.add_zero, tape_at (BitVec.lt_def.mp inCol), if_pos (BitVec.lt_def.mp inRow)]
    simp
  · intro x under
    have out : ¬ x / s.cols.toNat < s.rows.toNat := by
      rw [Nat.not_lt, Nat.le_div_iff_mul_le some_]
      simpa using under
    simp only [Screen.tape, if_neg out]
  · intro row above deep
    have small := BitVec.lt_def.mp above
    have least : s.curRow.toNat ≤ s.place / s.cols.toNat := by
      rw [Nat.le_div_iff_mul_le some_, Screen.place]
      split
      · exact Nat.mul_le_mul_right _ (Nat.le_succ _)
      · exact Nat.le_add_right _ _
    omega

theorem scrolls_of {cols rows : Word} {ink : Byte → Cell} {first j n : Nat} {s' : Screen} {t : Tape Cell}
    (shows_ : Shows cols rows ink first j s' t) (bottom : Bottom rows j s') (past : Past s') (same : s.cols = cols)
    (same' : s.rows = rows) (pen : t.pen = s.place + n) : j = s.scrolls n := by
  obtain ⟨sane, rfl, rfl, -, place, held, -, -, -⟩ := shows_
  have inRow := BitVec.lt_def.mp sane.row
  have inCol := BitVec.lt_def.mp sane.col
  have tall : s'.rows.toNat ≤ 40 := sane.tall
  have row : (s.place + n - 1) / s.cols.toNat = s'.curRow.toNat + j := by
    rw [← pen, same]
    by_cases pending : s'.wrapPending
    · have count : t.pen - 1 = s'.cols.toNat * (s'.curRow.toNat + j) + (s'.cols.toNat - 1) := by
        rw [held pending, Nat.mul_comm, Nat.mul_add_one]
        omega
      rw [count, Nat.mul_add_div (by omega), Nat.div_eq_of_lt (by omega), Nat.add_zero]
    · have here := place (by simpa using pending)
      have behind := past.resolve_left pending
      have count : t.pen - 1 = s'.cols.toNat * (s'.curRow.toNat + j) + (s'.curCol.toNat - 1) := by
        rw [here, Nat.mul_comm]
        omega
      rw [count, Nat.mul_add_div (by omega), Nat.div_eq_of_lt (by omega), Nat.add_zero]
  rw [Screen.scrolls, row, same']
  rcases bottom with none | final
  · omega
  · have last : s'.curRow.toNat + 1 = s'.rows.toNat := by bv_omega
    omega

/-- As many backspaces as characters: the cursor is where the first one was drawn, their cells are
blank, and every other cell is what it was. -/
def Undone (k : Terminal) (text : List Character) : Prop :=
  let s := k.screen
  let up := s.scrolls text.length
  let s' := ((text.flatMap Character.bytes ++ List.replicate text.length 0x08).foldl consoleFeed k).screen
  s'.wrapPending = false ∧ s'.curRow.toNat + up = s.place / s.cols.toNat ∧ s'.curCol.toNat = s.place % s.cols.toNat ∧
  ∀ row col : Word, row < s.rows → col < s.cols →
    let x := (row.toNat + up) * s.cols.toNat + col.toNat
    s'.cells row col =
      if s.place ≤ x ∧ x < s.place + text.length then s.cell 32
      else if row.toNat + up < s.rows.toNat then s.cells (BitVec.ofNat 32 (row.toNat + up)) col
      else s.cell 32

theorem typed_undone {k : Terminal} (ready : k.ready = true) (between : k.escState = .normal)
    (whole : k.screen.utf8Need = 0) (sane : k.screen.Sane) (text : List Character) (some_ : text ≠ [])
    (top : k.screen.scrolls text.length ≤ k.screen.place / k.screen.cols.toNat) : Undone k text := by
  unfold Undone
  intro s up s'
  have stands : Stands s.cols s.rows s.cell (s.place / s.cols.toNat) 0 k s.tape :=
    ⟨⟨ready, between, rfl⟩, whole, shows_tape sane⟩
  obtain ⟨j, typed, bottom, past⟩ := stands.types (.inl rfl) text
  have pen : ((text.map fun ch => s.cell ch.drawn).foldl Typewriter.type s.tape).pen = s.place + text.length := by
    rw [Typewriter.types_pen, List.length_map]
    rfl
  have rises : j = up := scrolls_of (s := s) typed.shows_ bottom (past some_) rfl rfl pen
  subst rises
  have least : s.place / s.cols.toNat * s.cols.toNat ≤ s.place := Nat.div_mul_le_self _ _
  obtain ⟨done, free⟩ := typed.backs top text.length (by rw [pen]; omega)
  have undone := (@Typewriter.typed_back _ s.tape (s.cell 32)) (text.map fun ch => s.cell ch.drawn)
  rw [List.length_map] at undone
  rw [undone, ← List.foldl_append] at done
  have held := free (fun none => some_ (List.length_eq_zero_iff.mp none))
  rw [← List.foldl_append] at held
  obtain ⟨sane', sameCols, -, -, place, -, cells, -, -⟩ := done.shows_
  have here := place held
  have inCol := BitVec.lt_def.mp sane'.col
  rw [sameCols] at inCol
  have at_ : s.place = s.cols.toNat * (s'.curRow.toNat + up) + s'.curCol.toNat := by
    rw [Nat.mul_comm]
    exact here
  refine ⟨held, ?_, ?_, ?_⟩
  · rw [at_, Nat.mul_add_div (Nat.zero_lt_of_lt inCol), Nat.div_eq_of_lt inCol, Nat.add_zero]
  · rw [at_, Nat.mul_add_mod, Nat.mod_eq_of_lt inCol]
  · intro row col inRow inCol'
    rw [cells row col inRow inCol']
    simp only
    by_cases written : s.place ≤ (row.toNat + up) * s.cols.toNat + col.toNat ∧
        (row.toNat + up) * s.cols.toNat + col.toNat < s.place + text.length
    · rw [if_pos written]
      exact if_pos written
    · rw [if_neg written]
      refine (if_neg written).trans ?_
      rw [tape_at (BitVec.lt_def.mp inCol')]
      simp

end Console

/-- In every run the cursor stays in the grid, a wrap is held back in the last column only, the
parameters have room and nothing outside the grid is touched; and between sequences and characters
backspace takes back what is typed, so long as the first character is still on the screen. -/
theorem cursor_stays :
    (∀ display f s (events : List Watched.Event),
      let w := events.foldl (Watched.step display) (Watched.begin display f s)
      w.k.screen.Sane ∧ w.k.nparams ≤ maxParams ∧ ¬ w.strayed) ∧
    ∀ k : Terminal, k.ready = true → k.screen.Sane → k.escState = .normal → k.screen.utf8Need = 0 →
      ∀ text : List Character, text ≠ [] →
        k.screen.scrolls text.length ≤ k.screen.place / k.screen.cols.toNat → Undone k text := by
  constructor
  · intro display f s events
    have good := Watched.run_good display f s events
    exact ⟨good.sane, good.params, good.inside⟩
  · intro k ready sane between whole text some_ top
    exact typed_undone ready between whole sane text some_ top

def fresh : Terminal := (Watched.begin .dvi .f8x16 cleared.screen).k

theorem cursor_stays_fresh : Undone fresh [.utf8 0x61 (by decide) (by decide), .utf8 0xe9 (by decide) (by decide)] :=
  cursor_stays.2 fresh rfl (Watched.setGrid_sane .dvi .f8x16 _) rfl rfl _ (List.cons_ne_nil _ _) (by decide)

/-- After an escape the next character is no text, and the backspace behind it takes another one. -/
theorem half_sequence :
    let k := [0x78, 0x1b].foldl consoleFeed fresh
    let k' := [0x61, 0x08].foldl consoleFeed k
    k.screen.Sane ∧ (k.screen.curRow, k.screen.curCol) = (0, 1) ∧ k.screen.cells 0 0 = k.screen.cell 0x78 ∧
      (k'.screen.curRow, k'.screen.curCol) = (0, 0) ∧ k'.screen.cells 0 0 = k.screen.cell 32 := by
  refine ⟨⟨?_, ?_, ?_, ?_, ?_⟩, ?_, ?_, ?_, ?_⟩
  all_goals decide +kernel

end Ubiqos.Console
