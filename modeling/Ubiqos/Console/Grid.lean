import Ubiqos.Console.Escapes

/-!
The grid of `kernel/console.c`: `set_grid`, which a change of font goes through, and what every
byte draws or erases. A function that draws has a second form here, which also keeps whether a cell
outside the grid was touched; what it does to the screen is the same.
-/

namespace Ubiqos.Console

open Function

inductive Display
  | dvi
  | rgb

def Display.hActive : Display → Nat
  | .dvi => 640
  | .rgb => 800

def vActive : Nat := 480
def rowsMax : Nat := vActive / 12

inductive Font
  | f8x16
  | f6x12

def Font.w : Font → Nat
  | .f8x16 => 8
  | .f6x12 => 6

def Font.h : Font → Nat
  | .f8x16 => 16
  | .f6x12 => 12

/-- `set_grid`: the screen is cleared, and every row that there is begins anew. -/
def Screen.setGrid (display : Display) (f : Font) (s : Screen) : Screen :=
  let rows := BitVec.ofNat 32 (min (vActive / f.h) rowsMax)
  { s with
    cols := BitVec.ofNat 32 (display.hActive / f.w)
    rows := rows
    cells := fun _ _ => s.cell 32
    rowWrapped := fun row => if row < rows then false else s.rowWrapped row
    curCol := 0
    curRow := 0
    wrapPending := false
    shown := none }

structure Drawn where
  screen : Screen
  strayed : Prop

namespace Drawn

def map (f : Screen → Screen) (d : Drawn) : Drawn := { d with screen := f d.screen }

def glyph (col row : Word) (c : Byte) (d : Drawn) : Drawn where
  screen := d.screen.drawGlyph col row c
  strayed := d.strayed ∨ ¬ (col < d.screen.cols ∧ row < d.screen.rows)

def clearRows (meant : Word → Bool) (d : Drawn) : Drawn where
  screen := d.screen.clearRows meant
  strayed := d.strayed ∨ ∃ row, meant row ∧ ¬ row < d.screen.rows

def eraseCells (row first last : Word) (d : Drawn) : Drawn where
  screen := d.screen.eraseCells row first last
  strayed := d.strayed ∨ ¬ (d.screen.rows ≤ row ∨ last < first) ∧ ¬ first < d.screen.cols

def cursor (drawn : Bool) (d : Drawn) : Drawn where
  screen := d.screen.cursor drawn
  strayed := d.strayed ∨ drawn ≠ d.screen.shown.isSome ∧
    ¬ (d.screen.curCol < d.screen.cols ∧ d.screen.curRow < d.screen.rows)

def newline (d : Drawn) : Drawn :=
  let d := d.map fun s => { s with curCol := 0, curRow := s.curRow + 1 }
  if d.screen.rows ≤ d.screen.curRow then
    let d := d.map fun s => { s with
      curRow := s.rows - 1
      cells := fun row => s.cells (row + 1)
      rowWrapped := fun row => if row < s.rows - 1 then s.rowWrapped (row + 1) else s.rowWrapped row }
    d.clearRows (fun row => row = d.screen.rows - 1)
  else d

def wrap (d : Drawn) : Drawn :=
  if d.screen.wrapPending then
    (d.map fun s => { s with wrapPending := false, rowWrapped := update s.rowWrapped s.curRow true }).newline
  else d

def put (c : Byte) (d : Drawn) : Drawn :=
  (d.glyph d.screen.curCol d.screen.curRow c).map fun s =>
    if s.cols ≤ s.curCol + 1 then { s with curCol := s.cols - 1, wrapPending := true }
    else { s with curCol := s.curCol + 1 }

def tab : Nat → Drawn → Drawn
  | 0, d => d
  | turns + 1, d =>
    let d := d.wrap.put 32
    if d.screen.curCol % 8 = 0 then d else tab turns d

def drawChar (c : Byte) (d : Drawn) : Drawn :=
  if c = 0x0a then
    (d.map fun s => { s with wrapPending := false, rowWrapped := update s.rowWrapped s.curRow false }).newline
  else if c = 0x0d then d.map fun s => { s with wrapPending := false, curCol := 0 }
  else if c = 0x08 then
    if d.screen.wrapPending then
      (d.map fun s => { s with wrapPending := false }).glyph d.screen.curCol d.screen.curRow 32
    else if d.screen.curCol ≠ 0 then
      (d.map fun s => { s with curCol := s.curCol - 1 }).glyph (d.screen.curCol - 1) d.screen.curRow 32
    else if d.screen.curRow ≠ 0 ∧ d.screen.rowWrapped (d.screen.curRow - 1) then
      (d.map fun s => { s with
        curRow := s.curRow - 1
        curCol := s.cols - 1
        rowWrapped := update s.rowWrapped (s.curRow - 1) false }).glyph
          (d.screen.cols - 1) (d.screen.curRow - 1) 32
    else d
  else if c = 0x09 then tab 16 d
  else if c < 32 then d
  else d.wrap.put c

def feedText (c : Byte) (d : Drawn) : Drawn :=
  let begin (d : Drawn) : Drawn :=
    if c < 0x80 then d.drawChar c
    else if c &&& 0xe0 = 0xc0 then d.map fun s => { s with utf8Cp := (c &&& 0x1f).setWidth 32, utf8Need := 1 }
    else if c &&& 0xf0 = 0xe0 then d.map fun s => { s with utf8Cp := (c &&& 0x0f).setWidth 32, utf8Need := 2 }
    else if c &&& 0xf8 = 0xf0 then d.map fun s => { s with utf8Cp := (c &&& 0x07).setWidth 32, utf8Need := 3 }
    else d.drawChar c
  if d.screen.utf8Need = 0 then begin d
  else if c &&& 0xc0 = 0x80 then
    let d := d.map fun s => { s with
      utf8Cp := s.utf8Cp <<< 6 ||| (c &&& 0x3f).setWidth 32
      utf8Need := s.utf8Need - 1 }
    if d.screen.utf8Need ≠ 0 then d
    else d.drawChar (if d.screen.utf8Cp < 256 then d.screen.utf8Cp.setWidth 8 else 0x3f)
  else begin ((d.map fun s => { s with utf8Need := 0 }).drawChar 0x3f)

def erase (ps : List Word) (final : Byte) (d : Drawn) : Drawn :=
  let s := d.screen
  let n := Screen.param ps 0 0
  if final = 0x4a then
    if n = 0 then
      (d.eraseCells s.curRow s.curCol (s.cols - 1)).clearRows (fun row => s.curRow < row ∧ row < s.rows)
    else if n = 1 then (d.clearRows (fun row => row < s.curRow)).eraseCells s.curRow 0 s.curCol
    else d.clearRows (fun row => row < s.rows)
  else if final = 0x4b then
    if n = 0 then d.eraseCells s.curRow s.curCol (s.cols - 1)
    else if n = 1 then d.eraseCells s.curRow 0 s.curCol
    else d.eraseCells s.curRow 0 (s.cols - 1)
  else d

def doCsi (ps : List Word) (final : Byte) (d : Drawn) : Drawn where
  screen := d.screen.doCsi ps final
  strayed := (d.erase ps final).strayed

variable (d : Drawn)

theorem newline_screen : d.newline.screen = d.screen.newline := by
  simp only [newline, apply_ite Drawn.screen]
  rfl

theorem wrap_screen : d.wrap.screen = d.screen.wrap := by
  simp only [wrap, apply_ite Drawn.screen, newline_screen]
  rfl

theorem put_screen (c : Byte) : (d.put c).screen = d.screen.put c := rfl

theorem tab_screen (turns : Nat) : (d.tab turns).screen = d.screen.tab turns := by
  induction turns generalizing d with
  | zero => rfl
  | succ turns ih => simp only [tab, Screen.tab, apply_ite Drawn.screen, ih, put_screen, wrap_screen]

theorem drawChar_screen (c : Byte) : (d.drawChar c).screen = d.screen.drawChar c := by
  simp only [drawChar, apply_ite Drawn.screen, newline_screen, tab_screen, put_screen, wrap_screen]
  rfl

theorem feedText_screen (c : Byte) : (d.feedText c).screen = d.screen.feedText c := by
  have mapped (f : Screen → Screen) (d : Drawn) : (d.map f).screen = f d.screen := rfl
  simp only [feedText, apply_ite Drawn.screen, mapped, drawChar_screen]
  rfl

def Recoloured (s s' : Screen) : Prop :=
  ∃ fg bg reverse, s' = { s with fgIndex := fg, bgIndex := bg, reverseVideo := reverse }

theorem Recoloured.ite {s t t' : Screen} {p : Prop} [Decidable p] (yes : Recoloured s t) (no : Recoloured s t') :
    Recoloured s (if p then t else t') := by
  split
  · exact yes
  · exact no

theorem setGraphic_recoloured (s : Screen) (v : Word) : Recoloured s (s.setGraphic v) := by
  unfold Screen.setGraphic
  repeat' apply Recoloured.ite
  all_goals exact ⟨_, _, _, rfl⟩

theorem setGraphics_recoloured (s : Screen) (ps : List Word) : Recoloured s (s.setGraphics ps) := by
  unfold Screen.setGraphics
  generalize (if ps = [] then [0] else ps) = values
  induction values generalizing s with
  | nil => exact ⟨_, _, _, rfl⟩
  | cons v rest ih =>
    obtain ⟨_, _, _, first⟩ := setGraphic_recoloured s v
    obtain ⟨fg, bg, reverse, others⟩ := ih (s.setGraphic v)
    rw [first] at others
    refine ⟨fg, bg, reverse, ?_⟩
    rw [List.foldl_cons, first, others]

end Drawn

/-- The cursor is in the grid, and a wrap is held back in the last column only. -/
structure Screen.Sane (s : Screen) : Prop where
  row : s.curRow < s.rows
  col : s.curCol < s.cols
  wrap : s.wrapPending = true → s.curCol = s.cols - 1
  tall : s.rows.toNat ≤ rowsMax
  wide : s.cols.toNat ≤ 800

structure Drawn.Good (d : Drawn) : Prop where
  sane : d.screen.Sane
  inside : ¬ d.strayed

namespace Drawn

variable {d : Drawn}

theorem Good.map (good : d.Good) {f : Screen → Screen} (sane : (f d.screen).Sane) : (d.map f).Good :=
  ⟨sane, good.inside⟩

theorem Good.glyph (good : d.Good) (c : Byte) {col row : Word} (inCol : col < d.screen.cols)
    (inRow : row < d.screen.rows) :
    (d.glyph col row c).Good := by
  refine ⟨⟨good.sane.row, good.sane.col, good.sane.wrap, good.sane.tall, good.sane.wide⟩, ?_⟩
  rintro (before | now)
  · exact good.inside before
  · exact now ⟨inCol, inRow⟩

theorem Good.clearRows (good : d.Good) {meant : Word → Bool} (inRows : ∀ row, meant row = true → row < d.screen.rows) :
    (d.clearRows meant).Good := by
  refine ⟨⟨good.sane.row, good.sane.col, good.sane.wrap, good.sane.tall, good.sane.wide⟩, ?_⟩
  rintro (before | ⟨row, is, out⟩)
  · exact good.inside before
  · exact out (inRows row is)

variable {s : Screen}

theorem eraseCells_sane (sane : s.Sane) (row first last : Word) : (s.eraseCells row first last).Sane := by
  unfold Screen.eraseCells
  split
  · exact sane
  · exact ⟨sane.row, sane.col, sane.wrap, sane.tall, sane.wide⟩

theorem Good.eraseCells (good : d.Good) (row : Word) {first last : Word} (inCol : first < d.screen.cols) :
    (d.eraseCells row first last).Good := by
  refine ⟨eraseCells_sane good.sane row first last, ?_⟩
  rintro (before | ⟨-, out⟩)
  · exact good.inside before
  · exact out inCol

theorem Good.cursor (good : d.Good) (drawn : Bool) : (d.cursor drawn).Good := by
  refine ⟨?_, ?_⟩
  · simp only [Drawn.cursor, Screen.cursor]
    split
    · exact good.sane
    · exact ⟨good.sane.row, good.sane.col, good.sane.wrap, good.sane.tall, good.sane.wide⟩
  · rintro (before | ⟨-, out⟩)
    · exact good.inside before
    · exact out ⟨good.sane.col, good.sane.row⟩

theorem newline_over (excess : d.screen.rows ≤ d.screen.curRow + 1) :
    d.newline = (d.map fun s => { s with
      curCol := 0
      curRow := s.rows - 1
      cells := fun row => s.cells (row + 1)
      rowWrapped := fun row =>
        if row < s.rows - 1 then s.rowWrapped (row + 1) else s.rowWrapped row }).clearRows
          (fun row => row = d.screen.rows - 1) :=
  if_pos excess

theorem newline_within (within : ¬ d.screen.rows ≤ d.screen.curRow + 1) :
    d.newline = d.map fun s => { s with curCol := 0, curRow := s.curRow + 1 } :=
  if_neg within

theorem Good.newline (good : d.Good) (free : d.screen.wrapPending = false) : d.newline.Good := by
  obtain ⟨row, col, wrap, tall, wide⟩ := good.sane
  have few : d.screen.rows.toNat ≤ 40 := tall
  by_cases excess : d.screen.rows ≤ d.screen.curRow + 1
  · rw [newline_over excess]
    refine (good.map ⟨?_, ?_, fun pending => ?_, tall, wide⟩).clearRows fun row' is => ?_
    · show d.screen.rows - 1 < d.screen.rows
      bv_omega
    · show 0 < d.screen.cols
      bv_omega
    · cases free.symm.trans pending
    · have last : row' = d.screen.rows - 1 := by simpa using is
      show row' < d.screen.rows
      bv_omega
  · rw [newline_within excess]
    refine good.map ⟨?_, ?_, fun pending => ?_, tall, wide⟩
    · show d.screen.curRow + 1 < d.screen.rows
      bv_omega
    · show 0 < d.screen.cols
      bv_omega
    · cases free.symm.trans pending

theorem Good.wrap (good : d.Good) : d.wrap.Good := by
  obtain ⟨row, col, wrap, tall, wide⟩ := good.sane
  unfold Drawn.wrap
  split
  · exact (good.map (f := fun s => { s with wrapPending := false, rowWrapped := update s.rowWrapped s.curRow true })
      ⟨row, col, by simp, tall, wide⟩).newline rfl
  · exact good

theorem newline_pending (s : Screen) : s.newline.wrapPending = s.wrapPending := by
  simp only [Screen.newline, Screen.clearRows, apply_ite Screen.wrapPending, ite_self]

theorem wrap_free (s : Screen) : s.wrap.wrapPending = false := by
  unfold Screen.wrap
  split
  · exact newline_pending _
  · rename_i free
    simpa using free

theorem put_last (last : s.cols ≤ s.curCol + 1) (c : Byte) :
    s.put c = { s.drawGlyph s.curCol s.curRow c with curCol := s.cols - 1, wrapPending := true } :=
  if_pos last

theorem put_on (room : ¬ s.cols ≤ s.curCol + 1) (c : Byte) :
    s.put c = { s.drawGlyph s.curCol s.curRow c with curCol := s.curCol + 1 } :=
  if_neg room

theorem Good.put (good : d.Good) (free : d.screen.wrapPending = false) (c : Byte) : (d.put c).Good := by
  obtain ⟨row, col, wrap, tall, wide⟩ := good.sane
  refine ⟨?_, (good.glyph c col row).inside⟩
  rw [put_screen]
  by_cases last : d.screen.cols ≤ d.screen.curCol + 1
  · rw [put_last last]
    refine ⟨row, ?_, fun _ => rfl, tall, wide⟩
    show d.screen.cols - 1 < d.screen.cols
    bv_omega
  · rw [put_on last]
    refine ⟨row, ?_, fun pending => ?_, tall, wide⟩
    · show d.screen.curCol + 1 < d.screen.cols
      bv_omega
    · cases free.symm.trans pending

theorem Good.tab (turns : Nat) (good : d.Good) : (d.tab turns).Good := by
  induction turns generalizing d with
  | zero => exact good
  | succ turns ih =>
    have next : (d.wrap.put 32).Good := good.wrap.put (by rw [wrap_screen, wrap_free]) 32
    simp only [Drawn.tab]
    split
    · exact next
    · exact ih next

theorem Good.drawChar (good : d.Good) (c : Byte) : (d.drawChar c).Good := by
  obtain ⟨row, col, wrap, tall, wide⟩ := good.sane
  simp only [Drawn.drawChar]
  split
  · exact (good.map (f := fun s => { s with wrapPending := false, rowWrapped := update s.rowWrapped s.curRow false })
      ⟨row, col, by simp, tall, wide⟩).newline rfl
  split
  · exact good.map ⟨row, by simp only; bv_omega, by simp, tall, wide⟩
  split
  · split
    · exact (good.map (f := fun s => { s with wrapPending := false }) ⟨row, col, by simp, tall, wide⟩).glyph 32 col row
    split
    · rename_i held moved
      have left : d.screen.curCol - 1 < d.screen.cols := by bv_omega
      exact (good.map (f := fun s => { s with curCol := s.curCol - 1 })
        ⟨row, left, fun pending => absurd pending held, tall, wide⟩).glyph 32 left row
    split
    · rename_i held first up
      have above : d.screen.curRow - 1 < d.screen.rows := by
        have some_ := up.1
        bv_omega
      have last : d.screen.cols - 1 < d.screen.cols := by bv_omega
      exact (good.map (f := fun s => { s with
        curRow := s.curRow - 1, curCol := s.cols - 1, rowWrapped := update s.rowWrapped (s.curRow - 1) false })
        ⟨above, last, fun _ => rfl, tall, wide⟩).glyph 32 last above
    · exact good
  split
  · exact good.tab 16
  split
  · exact good
  · exact good.wrap.put (by rw [wrap_screen, wrap_free]) c

theorem Good.feedText (good : d.Good) (c : Byte) : (d.feedText c).Good := by
  have same {d : Drawn} (good : d.Good) (cp : Word) (need : Nat) :
      (d.map fun s => { s with utf8Cp := cp, utf8Need := need }).Good :=
    good.map ⟨good.sane.row, good.sane.col, good.sane.wrap, good.sane.tall, good.sane.wide⟩
  have begins {d : Drawn} (good : d.Good) :
      (if c < 0x80 then d.drawChar c
        else if c &&& 0xe0 = 0xc0 then d.map fun s => { s with utf8Cp := (c &&& 0x1f).setWidth 32, utf8Need := 1 }
        else if c &&& 0xf0 = 0xe0 then d.map fun s => { s with utf8Cp := (c &&& 0x0f).setWidth 32, utf8Need := 2 }
        else if c &&& 0xf8 = 0xf0 then d.map fun s => { s with utf8Cp := (c &&& 0x07).setWidth 32, utf8Need := 3 }
        else d.drawChar c).Good := by
    split_ifs
    · exact good.drawChar c
    · exact same good _ 1
    · exact same good _ 2
    · exact same good _ 3
    · exact good.drawChar c
  simp only [Drawn.feedText]
  split
  · exact begins good
  split
  · have next := same good (d.screen.utf8Cp <<< 6 ||| (c &&& 0x3f).setWidth 32) (d.screen.utf8Need - 1)
    split
    · exact next
    · exact next.drawChar _
  · exact begins ((same good d.screen.utf8Cp 0).drawChar 0x3f)

theorem eraseCells_rows (s : Screen) (row first last : Word) : (s.eraseCells row first last).rows = s.rows := by
  unfold Screen.eraseCells
  split <;> rfl

theorem clearRows_sane (sane : s.Sane) (meant : Word → Bool) : (s.clearRows meant).Sane :=
  ⟨sane.row, sane.col, sane.wrap, sane.tall, sane.wide⟩

theorem Good.erase (good : d.Good) (ps : List Word) (final : Byte) : (d.erase ps final).Good := by
  obtain ⟨row, col, wrap, tall, wide⟩ := good.sane
  have first : 0 < d.screen.cols := by bv_omega
  simp only [Drawn.erase]
  split
  · split
    · refine (good.eraseCells _ col).clearRows fun row' is => ?_
      have under : d.screen.curRow < row' ∧ row' < d.screen.rows := by simpa using is
      exact (eraseCells_rows d.screen _ _ _).symm ▸ under.2
    split
    · refine (good.clearRows fun row' is => ?_).eraseCells _ first
      have before : row' < d.screen.curRow := by simpa using is
      bv_omega
    · exact good.clearRows fun row' is => by simpa using is
  split
  · split
    · exact good.eraseCells _ col
    split
    · exact good.eraseCells _ first
    · exact good.eraseCells _ first
  · exact good

theorem sane_free (row : s.curRow < s.rows) (col : s.curCol < s.cols) (tall : s.rows.toNat ≤ rowsMax)
    (wide : s.cols.toNat ≤ 800) : Screen.Sane { s with wrapPending := false } :=
  ⟨row, col, fun pending => (by cases pending), tall, wide⟩

theorem moved_lt {bound : Word} (some_ : 0 < bound) (n : Word) : Screen.moved bound n < bound := by
  unfold Screen.moved
  split
  · bv_omega
  · bv_omega

theorem up_lt {bound here : Word} (inside : here < bound) (n : Word) :
    (if here < n then 0 else here - n) < bound := by
  split
  · bv_omega
  · bv_omega

theorem csi_graphics (s : Screen) (ps : List Word) : s.doCsi ps 0x6d = s.setGraphics ps := rfl

theorem csi_save (s : Screen) (ps : List Word) :
    s.doCsi ps 0x73 = { s with savedCol := s.curCol, savedRow := s.curRow } := rfl

theorem doCsi_sane (sane : s.Sane) (ps : List Word) (final : Byte) : (s.doCsi ps final).Sane := by
  obtain ⟨row, col, wrap, tall, wide⟩ := sane
  have some_ : 0 < s.rows := by bv_omega
  have some_' : 0 < s.cols := by bv_omega
  by_cases graphics : final = 0x6d
  · obtain ⟨_, _, _, same⟩ := setGraphics_recoloured s ps
    rw [graphics, csi_graphics, same]
    exact ⟨row, col, wrap, tall, wide⟩
  by_cases save : final = 0x73
  · rw [save, csi_save]
    exact ⟨row, col, wrap, tall, wide⟩
  have sane : s.Sane := ⟨row, col, wrap, tall, wide⟩
  have erased {t : Screen} (erased : t.Sane) : Screen.Sane { t with wrapPending := false } :=
    sane_free erased.row erased.col erased.tall erased.wide
  unfold Screen.doCsi
  rw [if_pos ⟨graphics, save⟩]
  split
  · exact sane_free (up_lt row _) col tall wide
  · exact sane_free (moved_lt some_ _) col tall wide
  · exact sane_free row (moved_lt some_' _) tall wide
  · exact sane_free row (up_lt col _) tall wide
  · exact sane_free row (moved_lt some_' _) tall wide
  · exact sane_free (moved_lt some_ _) (moved_lt some_' _) tall wide
  · exact sane_free (moved_lt some_ _) (moved_lt some_' _) tall wide
  · simp only
    split
    · exact erased (clearRows_sane (eraseCells_sane sane _ _ _) _)
    split
    · exact erased (eraseCells_sane (clearRows_sane sane _) _ _ _)
    · exact erased (clearRows_sane sane _)
  · simp only
    split
    · exact erased (eraseCells_sane sane _ _ _)
    split
    · exact erased (eraseCells_sane sane _ _ _)
    · exact erased (eraseCells_sane sane _ _ _)
  · obtain ⟨_, _, _, same⟩ := setGraphics_recoloured s ps
    rw [same]
    exact sane_free row col tall wide
  · split
    · exact sane_free row col tall wide
    · exact sane_free row col tall wide
  · exact sane_free row col tall wide
  · exact sane_free (moved_lt some_ _) (moved_lt some_' _) tall wide
  · exact sane_free row col tall wide

theorem Good.doCsi (good : d.Good) (ps : List Word) (final : Byte) : (d.doCsi ps final).Good :=
  ⟨doCsi_sane good.sane ps final, (good.erase ps final).inside⟩

end Drawn

structure Watched where
  k : Terminal
  strayed : Prop

namespace Watched

def draw (f : Drawn → Drawn) (w : Watched) : Watched where
  k := { w.k with screen := (f ⟨w.k.screen, w.strayed⟩).screen }
  strayed := (f ⟨w.k.screen, w.strayed⟩).strayed

def feedCsi (w : Watched) (c : Byte) : Watched where
  k := Console.feedCsi w.k c
  strayed := if 0x40 ≤ c ∧ c ≤ 0x7e then (Drawn.doCsi w.k.taken c ⟨w.k.screen, w.strayed⟩).strayed else w.strayed

def consoleFeed (w : Watched) (c : Byte) : Watched :=
  if !w.k.ready then w
  else
    let w := w.draw (Drawn.cursor false)
    match w.k.escState with
    | .normal =>
      if c = 0x1b then
        { w with k := { w.k with screen := { w.k.screen with utf8Need := 0 }, escState := .esc } }
      else w.draw (Drawn.feedText c)
    | .esc =>
      { w with k :=
          if c = 0x5b then { w.k with escState := .csi, nparams := 0, params := update w.k.params 0 0 }
          else { w.k with escState := .normal } }
    | .csi => w.feedCsi c

theorem consoleFeed_k (w : Watched) (c : Byte) : (w.consoleFeed c).k = Console.consoleFeed w.k c := by
  simp only [consoleFeed, Console.consoleFeed]
  split
  · rfl
  · cases state : w.k.escState with
    | normal =>
      simp only [draw, state]
      split
      · rfl
      · simp only [Drawn.feedText_screen]
        rfl
    | esc => simp only [draw, state]; rfl
    | csi => simp only [draw, state]; rfl

structure Good (w : Watched) : Prop where
  sane : w.k.screen.Sane
  params : w.k.nparams ≤ maxParams
  inside : ¬ w.strayed

variable {w : Watched}

theorem Good.draw (good : w.Good) {f : Drawn → Drawn} (keeps : ∀ d : Drawn, d.Good → (f d).Good) : (w.draw f).Good :=
  have drawn := keeps ⟨w.k.screen, w.strayed⟩ ⟨good.sane, good.inside⟩
  ⟨drawn.sane, good.params, drawn.inside⟩

theorem Good.feedCsi (good : w.Good) (c : Byte) : (w.feedCsi c).Good := by
  have drawn : (Drawn.doCsi w.k.taken c ⟨w.k.screen, w.strayed⟩).Good :=
    Drawn.Good.doCsi ⟨good.sane, good.inside⟩ w.k.taken c
  have params := good.params
  have some_ : 1 ≤ maxParams := by decide
  refine ⟨?_, ?_, ?_⟩
  · simp only [Watched.feedCsi, Console.feedCsi]
    split
    · exact good.sane
    split
    · split <;> exact good.sane
    split
    · exact drawn.sane
    split <;> exact good.sane
  · simp only [Watched.feedCsi, Console.feedCsi]
    split
    · simp only
      split <;> omega
    split
    · split
      · exact ‹w.k.nparams < maxParams›
      · exact params
    split
    · exact params
    split <;> exact params
  · simp only [Watched.feedCsi]
    split
    · exact drawn.inside
    · exact good.inside

theorem Good.consoleFeed (good : w.Good) (c : Byte) : (w.consoleFeed c).Good := by
  have lifted : (w.draw (Drawn.cursor false)).Good := good.draw fun _ drawn => drawn.cursor false
  simp only [Watched.consoleFeed]
  split
  · exact good
  split
  · split
    · exact ⟨⟨lifted.sane.row, lifted.sane.col, lifted.sane.wrap, lifted.sane.tall, lifted.sane.wide⟩,
        lifted.params, lifted.inside⟩
    · exact lifted.draw fun _ drawn => drawn.feedText c
  · split
    · exact ⟨lifted.sane, Nat.zero_le _, lifted.inside⟩
    · exact ⟨lifted.sane, lifted.params, lifted.inside⟩
  · exact lifted.feedCsi c

/-- A byte of the stream, the cursor's return when there is nothing more, or a change of font. -/
inductive Event
  | byte (c : Byte)
  | drawn
  | font (f : Font)

def step (display : Display) (w : Watched) : Event → Watched
  | .byte c => w.consoleFeed c
  | .drawn => w.draw (Drawn.cursor true)
  | .font f => { w with k := { w.k with screen := w.k.screen.setGrid display f } }

/-- `ubiqos_console_init`, whatever was on the screen. -/
def begin (display : Display) (f : Font) (s : Screen) : Watched :=
  ⟨⟨true, .normal, fun _ => 0, 0, s.setGrid display f⟩, False⟩

theorem setGrid_sane (display : Display) (f : Font) (s : Screen) : (s.setGrid display f).Sane := by
  have rows : (0 : Word) < BitVec.ofNat 32 (min (vActive / f.h) rowsMax) ∧
      (BitVec.ofNat 32 (min (vActive / f.h) rowsMax)).toNat ≤ rowsMax := by
    cases f <;> decide
  have cols : (0 : Word) < BitVec.ofNat 32 (display.hActive / f.w) ∧
      (BitVec.ofNat 32 (display.hActive / f.w)).toNat ≤ 800 := by
    cases display <;> cases f <;> decide
  exact ⟨rows.1, cols.1, fun pending => (by cases pending), rows.2, cols.2⟩

theorem Good.step {display : Display} (good : w.Good) (e : Event) : (w.step display e).Good := by
  cases e with
  | byte c => exact good.consoleFeed c
  | drawn => exact good.draw fun _ drawn => drawn.cursor true
  | font f => exact ⟨setGrid_sane display f _, good.params, good.inside⟩

theorem run_good (display : Display) (f : Font) (s : Screen) (events : List Event) :
    (events.foldl (step display) (begin display f s)).Good := by
  have keeps {w : Watched} (good : w.Good) : (events.foldl (step display) w).Good := by
    induction events generalizing w with
    | nil => exact good
    | cons e rest ih => exact ih (good.step e)
  exact keeps ⟨setGrid_sane display f s, Nat.zero_le _, id⟩

end Watched

end Ubiqos.Console
