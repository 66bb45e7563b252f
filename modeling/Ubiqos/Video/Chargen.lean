import Mathlib.Data.BitVec
import Ubiqos.Lib.Interchange

/-!
The character generator of `kernel/chargen.c`, as the display's pump uses it. It
draws one scanline, or the sixteen of a row of glyphs at once with the cells in
the outer loop. Both keep the colour words from one cell to the next and rebuild
them when the attribute changes. What they draw is the same picture, given here
word by word without that shortcut.

Memory is counted in words of four pixels, from the first line buffer on. `width` is `UBIQOS_H_ACTIVE`,
which a build has from its display.
-/

namespace Ubiqos.Video

open Function Interchange

abbrev Word := BitVec 32

/-- `UBIQOS_CELL_H`. -/
def cellH : Nat := 16
/-- The width of a picture that goes out by DVI. -/
def hActive : Nat := 640
/-- `UBIQOS_CELL_COLS`. -/
def cellCols (width : Nat) : Nat := width / 8
/-- The words of a line: `UBIQOS_H_ACTIVE / 4`. -/
def lineWords (width : Nat) : Nat := width / 4
/-- `UBIQOS_CELL_BLANK`. -/
def cellBlank : Nat := 0

/-- A glyph's index into the font, the foreground in the high half of the
attribute and the background in the low. -/
structure Cell where
  ch : BitVec 8
  attr : BitVec 8

/-- What the generator reads. `viewAt` is the row of the ring or of the history
that stands at a row of the screen. -/
structure Screen where
  viewAt : Nat → Nat → Cell
  curOn : Bool
  viewBack : Nat
  curRow : Nat
  curCol : Nat
  palette : Nat → BitVec 8
  expand : Nat → Word
  font : Nat → Nat → BitVec 8

variable (width : Nat) (screen : Screen)

def attrAt (crow col : Nat) : Word :=
  let attr := (screen.viewAt crow col).attr.setWidth 32
  if (screen.curOn && screen.viewBack == 0 && crow == screen.curRow) && col == screen.curCol then
    (attr &&& 0x0f) <<< 4 ||| attr >>> 4
  else attr

def colour (index : Word) : Word := (screen.palette index.toNat).setWidth 32 * 0x01010101

/-- The colour words and the attribute they were built for; `0x100` is none. -/
structure Paint where
  last : Word
  fgw : Word
  bgw : Word

def Paint.none : Paint := ⟨0x100, 0, 0⟩

def Paint.change (paint : Paint) (attr : Word) : Paint :=
  if attr ≠ paint.last then ⟨attr, colour screen (attr >>> 4), colour screen (attr &&& 0x0f)⟩
  else paint

def Paint.mix (paint : Paint) (nibble : BitVec 8) : Word :=
  let m := screen.expand nibble.toNat
  paint.fgw &&& m ||| paint.bgw &&& ~~~m

abbrev Memory := Nat → Word

/-- One turn of the loop of `ubiqos_chargen_line`. -/
def lineCell (y base : Nat) (state : Paint × Memory) (col : Nat) : Paint × Memory :=
  let crow := y / cellH
  let gy := y % cellH
  let paint := state.1.change screen (attrAt screen crow col)
  let ch := (screen.viewAt crow col).ch.toNat
  let out := base + col * 2
  if ch = cellBlank then
    (paint, update (update state.2 out paint.bgw) (out + 1) paint.bgw)
  else
    let bits := screen.font ch gy
    (paint, update (update state.2 out (paint.mix screen (bits >>> 4))) (out + 1)
      (paint.mix screen (bits &&& 0x0f)))

/-- `ubiqos_chargen_line`: one scanline at `base`. -/
def chargenLine (y base : Nat) (mem : Memory) : Memory :=
  ((List.range (cellCols width)).foldl (lineCell screen y base) (Paint.none, mem)).2

def bandCell (crow base : Nat) (state : Paint × Memory) (col : Nat) : Paint × Memory :=
  let paint := state.1.change screen (attrAt screen crow col)
  let ch := (screen.viewAt crow col).ch.toNat
  if ch = cellBlank then
    (paint, (List.range cellH).foldl (fun mem gy =>
      let out := base + col * 2 + gy * lineWords width
      update (update mem out paint.bgw) (out + 1) paint.bgw) state.2)
  else
    (paint, (List.range cellH).foldl (fun mem gy =>
      let out := base + col * 2 + gy * lineWords width
      let bits := screen.font ch gy
      update (update mem out (paint.mix screen (bits >>> 4))) (out + 1)
        (paint.mix screen (bits &&& 0x0f))) state.2)

/-- `ubiqos_chargen_band`: a whole row of glyphs, sixteen scanlines from `base` on. -/
def chargenBand (y0 base : Nat) (mem : Memory) : Memory :=
  ((List.range (cellCols width)).foldl (bandCell width screen (y0 / cellH) base) (Paint.none, mem)).2

/-- The picture: the word at `x` of scanline `y`. -/
def scanline (y x : Nat) : Word :=
  let crow := y / cellH
  let col := x / 2
  let attr := attrAt screen crow col
  let paint : Paint := ⟨attr, colour screen (attr >>> 4), colour screen (attr &&& 0x0f)⟩
  let ch := (screen.viewAt crow col).ch.toNat
  if ch = cellBlank then paint.bgw
  else
    let bits := screen.font ch (y % cellH)
    paint.mix screen (if x % 2 = 0 then bits >>> 4 else bits &&& 0x0f)

def sixteen (line : Nat → Nat → Memory → Memory) (words y0 base : Nat) (mem : Memory) : Memory :=
  (List.range cellH).foldl (fun mem gy => line (y0 + gy) (base + gy * words) mem) mem

section Picture
variable {width : Nat} {screen : Screen} {y base : Nat} {mem : Memory} {paint : Paint}

def Paint.Right (screen : Screen) (paint : Paint) : Prop :=
  paint.last ≠ 0x100 →
    paint.fgw = colour screen (paint.last >>> 4) ∧ paint.bgw = colour screen (paint.last &&& 0x0f)

theorem attrAt_ne (crow col : Nat) : attrAt screen crow col ≠ 0x100 := by
  have byte : ∀ attr : BitVec 8, attr.setWidth 32 ≠ 0x100#32 ∧
      (attr.setWidth 32 &&& 0x0f#32) <<< 4 ||| attr.setWidth 32 >>> 4 ≠ 0x100#32 := by decide
  unfold attrAt
  dsimp only
  split
  · exact (byte _).2
  · exact (byte _).1

def fresh (screen : Screen) (attr : Word) : Paint :=
  ⟨attr, colour screen (attr >>> 4), colour screen (attr &&& 0x0f)⟩

theorem Paint.Right.change (right : paint.Right screen) {attr : Word} (proper : attr ≠ 0x100) :
    paint.change screen attr = fresh screen attr := by
  unfold Paint.change
  split
  · rfl
  · rename_i same
    have same : attr = paint.last := not_not.mp same
    subst same
    obtain ⟨fgw, bgw⟩ := right proper
    rw [fresh, ← fgw, ← bgw]

theorem fresh_right (attr : Word) : (fresh screen attr).Right screen := fun _ => ⟨rfl, rfl⟩

theorem lay_two (w : Nat → Word) (out : Nat) :
    lay 2 w out mem = update (update mem out (w 0)) (out + 1) (w 1) := rfl

theorem lineCell_eq (right : paint.Right screen) (col : Nat) :
    lineCell screen y base (paint, mem) col =
      (fresh screen (attrAt screen (y / cellH) col),
        lay 2 (fun j => scanline screen y (col * 2 + j)) (base + col * 2) mem) := by
  have first : (col * 2 + 0) / 2 = col := by omega
  have second : (col * 2 + 1) / 2 = col := by omega
  have even : (col * 2 + 0) % 2 = 0 := by omega
  have odd : (col * 2 + 1) % 2 ≠ 0 := by omega
  unfold lineCell scanline
  dsimp only
  rw [right.change (attrAt_ne _ _), lay_two, first, second, if_pos even, if_neg odd]
  split <;> rfl

theorem bandCell_eq (right : paint.Right screen) (crow col : Nat) :
    bandCell width screen crow base (paint, mem) col =
      (fresh screen (attrAt screen crow col), (List.range cellH).foldl (fun mem gy =>
        lay 2 (fun j => scanline screen (crow * cellH + gy) (col * 2 + j)) (base + col * 2 + gy * lineWords width) mem)
        mem) := by
  have first : (col * 2 + 0) / 2 = col := by omega
  have second : (col * 2 + 1) / 2 = col := by omega
  have even : (col * 2 + 0) % 2 = 0 := by omega
  have odd : (col * 2 + 1) % 2 ≠ 0 := by omega
  have row : ∀ gy ∈ List.range cellH, (crow * cellH + gy) / cellH = crow ∧
      (crow * cellH + gy) % cellH = gy := by
    intro gy member
    have below := List.mem_range.mp member
    unfold cellH at *
    omega
  unfold bandCell
  dsimp only
  rw [right.change (attrAt_ne _ _)]
  generalize List.range cellH = gys at row ⊢
  split
  · rename_i blank
    rw [Prod.mk.injEq]
    refine ⟨rfl, List.foldl_ext _ _ _ ?_⟩
    intro mem gy member
    rw [lay_two, scanline, scanline, (row gy member).1, first, second, if_pos blank, if_pos blank]
    rfl
  · rename_i drawn
    rw [Prod.mk.injEq]
    refine ⟨rfl, List.foldl_ext _ _ _ ?_⟩
    intro mem gy member
    rw [lay_two, scanline, scanline, (row gy member).1, (row gy member).2, first, second, if_neg drawn,
      if_neg drawn]
    dsimp only
    rw [if_pos even, if_neg odd]
    rfl

theorem none_right : Paint.none.Right screen := fun proper => absurd rfl proper

theorem chargenLine_eq : chargenLine width screen y base mem =
    (List.range (cellCols width)).foldl (fun mem col =>
      lay 2 (fun j => scanline screen y (col * 2 + j)) (base + col * 2) mem) mem := by
  refine (@foldl_cached _ _ _ (Paint.Right screen)) (fun paint mem col right => ?_) _ none_right mem
  rw [lineCell_eq right]
  exact ⟨fresh_right _, rfl⟩

theorem chargenLine_apply (i : Nat) : chargenLine width screen y base mem i =
    if base ≤ i ∧ i < base + cellCols width * 2 then scanline screen y (i - base) else mem i := by
  rw [chargenLine_eq, row_apply (by decide), Nat.div_add_mod']

theorem chargenBand_lines {y0 : Nat} (aligned : y0 % cellH = 0) :
    chargenBand width screen y0 base mem = sixteen (chargenLine width screen) (lineWords width) y0 base mem := by
  have row : y0 / cellH * cellH = y0 := Nat.div_mul_cancel (Nat.dvd_of_mod_eq_zero aligned)
  have fits : cellCols width * 2 ≤ lineWords width := by
    unfold cellCols lineWords
    omega
  have columns : chargenBand width screen y0 base mem = (List.range (cellCols width)).foldl (fun mem col =>
      (List.range cellH).foldl (fun mem gy => lay 2 (fun j => scanline screen (y0 + gy) (col * 2 + j))
        (base + col * 2 + gy * lineWords width) mem) mem) mem := by
    refine (@foldl_cached _ _ _ (Paint.Right screen)) (fun paint mem col right => ?_) _ none_right mem
    rw [bandCell_eq right, row]
    exact ⟨fresh_right _, rfl⟩
  rw [columns, columns_rows fits]
  exact List.foldl_ext _ _ _ fun mem gy _ => chargenLine_eq.symm

end Picture

end Ubiqos.Video
