import Ubiqos.Video.Chargen

/-!
The two renderers of `kernel/chargen.c` for pixels of two bytes, beside the two for pixels of one: four
loops that draw one picture.
-/

namespace Ubiqos.Video

open Function Interchange

/-- `to565`: of three bits of red, three of green and two of blue. -/
def to565 (c : BitVec 8) : BitVec 16 :=
  let r := (c >>> 5 &&& 7).setWidth 32
  let g := (c >>> 2 &&& 7).setWidth 32
  let b := (c &&& 3).setWidth 32
  let r5 : Word := r <<< 2 ||| r >>> 1
  let g6 : Word := g <<< 3 ||| g
  let b5 : Word := b <<< 3 ||| b <<< 1 ||| b >>> 1
  (r5 <<< 11 ||| g6 <<< 5 ||| b5).setWidth 16

def expand4 : Nat → Word := fun i => [
  0x00000000, 0xff000000, 0x00ff0000, 0xffff0000,
  0x0000ff00, 0xff00ff00, 0x00ffff00, 0xffffff00,
  0x000000ff, 0xff0000ff, 0x00ff00ff, 0xffff00ff,
  0x0000ffff, 0xff00ffff, 0x00ffffff, 0xffffffff].getD i 0

def expand2 : Nat → Word := fun i => [0x00000000, 0xffff0000, 0x0000ffff, 0xffffffff].getD i 0

structure Surface where
  screen : Screen
  pal16 : Nat → BitVec 16

/-- The tables as `ubiqos_chargen_init` makes them. -/
def Surface.init (ansiColour : Nat → BitVec 8) (d : Surface) : Surface where
  screen := { d.screen with
    palette := fun i => if i < 16 then ansiColour i else d.screen.palette i
    expand := fun i => if i < 16 then expand4 i else d.screen.expand i }
  pal16 := fun i => if i < 16 then to565 (ansiColour i) else d.pal16 i

/-- `UBIQOS_H_ACTIVE / 2`. -/
def lineWords16 (width : Nat) : Nat := width / 2

section Sixteen
variable (width : Nat) (d : Surface)

def colour16 (index : Word) : Word := (d.pal16 index.toNat).setWidth 32 * 0x00010001

def Paint.change16 (paint : Paint) (attr : Word) : Paint :=
  if attr ≠ paint.last then ⟨attr, colour16 d (attr >>> 4), colour16 d (attr &&& 0x0f)⟩ else paint

def Paint.mix16 (paint : Paint) (pair : BitVec 8) : Word :=
  let m := expand2 pair.toNat
  paint.fgw &&& m ||| paint.bgw &&& ~~~m

def four (out : Nat) (w0 w1 w2 w3 : Word) (mem : Memory) : Memory :=
  update (update (update (update mem out w0) (out + 1) w1) (out + 2) w2) (out + 3) w3

def Paint.glyph16 (paint : Paint) (bits : BitVec 8) (out : Nat) (mem : Memory) : Memory :=
  four out (paint.mix16 (bits >>> 6 &&& 3)) (paint.mix16 (bits >>> 4 &&& 3)) (paint.mix16 (bits >>> 2 &&& 3))
    (paint.mix16 (bits &&& 3)) mem

/-- One turn of the loop of `ubiqos_chargen_line16`. -/
def lineCell16 (y base : Nat) (state : Paint × Memory) (col : Nat) : Paint × Memory :=
  let crow := y / cellH
  let gy := y % cellH
  let paint := state.1.change16 d (attrAt d.screen crow col)
  let ch := (d.screen.viewAt crow col).ch.toNat
  let out := base + col * 4
  if ch = cellBlank then (paint, four out paint.bgw paint.bgw paint.bgw paint.bgw state.2)
  else (paint, paint.glyph16 (d.screen.font ch gy) out state.2)

/-- `ubiqos_chargen_line16`. -/
def chargenLine16 (y base : Nat) (mem : Memory) : Memory :=
  ((List.range (cellCols width)).foldl (lineCell16 d y base) (Paint.none, mem)).2

def bandCell16 (crow base : Nat) (state : Paint × Memory) (col : Nat) : Paint × Memory :=
  let paint := state.1.change16 d (attrAt d.screen crow col)
  let ch := (d.screen.viewAt crow col).ch.toNat
  if ch = cellBlank then
    (paint, (List.range cellH).foldl (fun mem gy =>
      four (base + col * 4 + gy * lineWords16 width) paint.bgw paint.bgw paint.bgw paint.bgw mem) state.2)
  else
    (paint, (List.range cellH).foldl (fun mem gy =>
      paint.glyph16 (d.screen.font ch gy) (base + col * 4 + gy * lineWords16 width) mem) state.2)

/-- `ubiqos_chargen_band16`. -/
def chargenBand16 (y0 base : Nat) (mem : Memory) : Memory :=
  ((List.range (cellCols width)).foldl (bandCell16 width d (y0 / cellH) base) (Paint.none, mem)).2

end Sixteen

def pixel8 (mem : Memory) (base x : Nat) : BitVec 8 := (mem (base + x / 4) >>> (8 * (x % 4))).setWidth 8

def pixel16 (mem : Memory) (base x : Nat) : BitVec 16 := (mem (base + x / 2) >>> (16 * (x % 2))).setWidth 16

def ink (screen : Screen) (y x : Nat) : Word :=
  let attr := attrAt screen (y / cellH) (x / 8)
  let ch := (screen.viewAt (y / cellH) (x / 8)).ch.toNat
  if ch ≠ cellBlank ∧ (screen.font ch (y % cellH)).getLsbD (7 - x % 8) then attr >>> 4 else attr &&& 0x0f

section Bytes
variable {width y base : Nat} {d : Surface} {ansiColour : Nat → BitVec 8} {screen : Screen} {paint : Paint}
  {mem : Memory}

theorem attrAt_byte (crow col : Nat) : (attrAt screen crow col).toNat < 256 := by
  have byte : ∀ attr : BitVec 8, (attr.setWidth 32).toNat < 256 ∧
      ((attr.setWidth 32 &&& 0x0f#32) <<< 4 ||| attr.setWidth 32 >>> 4).toNat < 256 := by decide +kernel
  unfold attrAt
  dsimp only
  split
  · exact (byte _).2
  · exact (byte _).1

theorem mix_part {width : Nat} (fgw bgw m : Word) (shift : Nat) (inside : shift + width ≤ 32) :
    ((fgw &&& m ||| bgw &&& ~~~m) >>> shift).setWidth width =
      ((fgw >>> shift).setWidth width &&& (m >>> shift).setWidth width) |||
        ((bgw >>> shift).setWidth width &&& ~~~(m >>> shift).setWidth width) := by
  ext i less
  have low : shift + i < 32 := by omega
  simp [BitVec.getLsbD_ushiftRight, low]

theorem pick {width : Nat} (fg bg : BitVec width) (lit : Bool) :
    (fg &&& if lit then BitVec.allOnes width else BitVec.ofNat width 0) |||
      (bg &&& ~~~(if lit then BitVec.allOnes width else BitVec.ofNat width 0)) = if lit then fg else bg := by
  cases lit with
  | false => simp
  | true => simp

def pairOf (bits : BitVec 8) : Nat → BitVec 8
  | 0 => bits >>> 6 &&& 3
  | 1 => bits >>> 4 &&& 3
  | 2 => bits >>> 2 &&& 3
  | _ => bits &&& 3

theorem mask8 : ∀ (bits : BitVec 8) (i : Fin 8),
    (expand4 (if i.val / 4 % 2 = 0 then bits >>> 4 else bits &&& 0x0f).toNat >>> (8 * (i.val % 4))).setWidth 8 =
      if bits.getLsbD (7 - i.val) then BitVec.allOnes 8 else 0#8 := by
  decide +kernel

theorem mask16 : ∀ (bits : BitVec 8) (i : Fin 8),
    (expand2 (pairOf bits (i.val / 2)).toNat >>> (16 * (i.val % 2))).setWidth 16 =
      if bits.getLsbD (7 - i.val) then BitVec.allOnes 16 else 0#16 := by
  decide +kernel

theorem spread8 : ∀ (c : BitVec 8) (i : Fin 4), ((c.setWidth 32 * 0x01010101#32) >>> (8 * i.val)).setWidth 8 = c := by
  decide +kernel

theorem spread16 (c : BitVec 16) {i : Nat} (inside : i < 2) :
    ((c.setWidth 32 * 0x00010001#32) >>> (16 * i)).setWidth 16 = c := by
  have bound := c.isLt
  have whole : (c.setWidth 32 * 0x00010001#32).toNat = c.toNat * 65537 := by
    rw [BitVec.toNat_mul, BitVec.toNat_setWidth, BitVec.toNat_ofNat, Nat.mod_eq_of_lt (by omega : c.toNat < 2 ^ 32)]
    omega
  apply BitVec.eq_of_toNat_eq
  rw [BitVec.toNat_setWidth, BitVec.toNat_ushiftRight, whole, Nat.shiftRight_eq_div_pow]
  obtain rfl | rfl : i = 0 ∨ i = 1 := by omega
  · omega
  · have half : 2 ^ (16 * 1) = 65536 := rfl
    have apart : c.toNat * 65537 = c.toNat + 65536 * c.toNat := by omega
    rw [half, apart, Nat.add_mul_div_left _ _ (by decide), Nat.div_eq_of_lt bound, Nat.zero_add]
    exact Nat.mod_eq_of_lt bound

variable {attr : Word}

theorem init_palette (low : attr.toNat < 16) :
    (d.init ansiColour).screen.palette attr.toNat = ansiColour attr.toNat := if_pos low

theorem colour_part (low : attr.toNat < 16) {i : Nat} (inside : i < 4) :
    (colour (d.init ansiColour).screen attr >>> (8 * i)).setWidth 8 = ansiColour attr.toNat := by
  unfold colour
  rw [init_palette low]
  exact spread8 _ ⟨i, inside⟩

theorem nibble_lt (bits : BitVec 8) : (bits >>> 4).toNat < 16 ∧ (bits &&& 0x0f).toNat < 16 := by
  refine ⟨?_, ?_⟩
  · rw [BitVec.toNat_ushiftRight, Nat.shiftRight_eq_div_pow]
    omega
  · rw [BitVec.toNat_and]
    exact Nat.lt_of_le_of_lt Nat.and_le_right (by decide)

theorem attr_halves (crow col : Nat) :
    (attrAt screen crow col >>> 4).toNat < 16 ∧ (attrAt screen crow col &&& 0x0f).toNat < 16 := by
  have byte := (@attrAt_byte screen) crow col
  refine ⟨?_, ?_⟩
  · rw [BitVec.toNat_ushiftRight, Nat.shiftRight_eq_div_pow]
    omega
  · rw [BitVec.toNat_and]
    exact Nat.lt_of_le_of_lt Nat.and_le_right (by decide)

theorem scanline_pixel (y x : Nat) :
    (scanline (d.init ansiColour).screen y (x / 4) >>> (8 * (x % 4))).setWidth 8 =
      ansiColour (ink (d.init ansiColour).screen y x).toNat := by
  have col : x / 4 / 2 = x / 8 := by omega
  have inside : x % 4 < 4 := Nat.mod_lt x (by decide)
  obtain ⟨fore, back⟩ := (@attr_halves ((d.init ansiColour).screen)) (y / cellH) (x / 8)
  unfold scanline ink
  dsimp only
  rw [col]
  generalize attrAt (d.init ansiColour).screen (y / cellH) (x / 8) = attr at *
  generalize ((d.init ansiColour).screen.viewAt (y / cellH) (x / 8)).ch.toNat = ch
  by_cases blank : ch = cellBlank
  · rw [if_pos blank, if_neg fun drawn => drawn.1 blank]
    exact colour_part back inside
  · rw [if_neg blank]
    generalize (d.init ansiColour).screen.font ch (y % cellH) = bits
    have mask := mask8 bits ⟨x % 8, Nat.mod_lt x (by decide)⟩
    have even : x % 8 / 4 % 2 = x / 4 % 2 := by omega
    have part : x % 8 % 4 = x % 4 := by omega
    dsimp only at mask
    rw [even, part] at mask
    have table : ∀ nibble : BitVec 8, nibble.toNat < 16 →
        (d.init ansiColour).screen.expand nibble.toNat = expand4 nibble.toNat := fun _ low => if_pos low
    have low : (if x / 4 % 2 = 0 then bits >>> 4 else bits &&& 0x0f).toNat < 16 := by
      split
      · exact (nibble_lt bits).1
      · exact (nibble_lt bits).2
    unfold Paint.mix
    dsimp only
    rw [table _ low, mix_part _ _ _ _ (by omega), mask, colour_part fore inside, colour_part back inside, pick]
    by_cases lit : bits.getLsbD (7 - x % 8) = true
    · rw [if_pos lit, if_pos ⟨blank, lit⟩]
    · rw [if_neg lit, if_neg fun drawn => lit drawn.2]

theorem line_pixel8 {x : Nat} (inside : x < 8 * cellCols width) :
    pixel8 (chargenLine width (d.init ansiColour).screen y base mem) base x =
      ansiColour (ink (d.init ansiColour).screen y x).toNat := by
  unfold pixel8
  rw [chargenLine_apply, if_pos (by omega), Nat.add_sub_cancel_left]
  exact scanline_pixel y x

def word16 (d : Surface) (y col j : Nat) : Word :=
  let attr := attrAt d.screen (y / cellH) col
  let ch := (d.screen.viewAt (y / cellH) col).ch.toNat
  let paint : Paint := ⟨attr, colour16 d (attr >>> 4), colour16 d (attr &&& 0x0f)⟩
  if ch = cellBlank then paint.bgw else paint.mix16 (pairOf (d.screen.font ch (y % cellH)) j)

def Paint.Right16 (d : Surface) (paint : Paint) : Prop :=
  paint.last ≠ 0x100 →
    paint.fgw = colour16 d (paint.last >>> 4) ∧ paint.bgw = colour16 d (paint.last &&& 0x0f)

def fresh16 (d : Surface) (attr : Word) : Paint := ⟨attr, colour16 d (attr >>> 4), colour16 d (attr &&& 0x0f)⟩

theorem Paint.Right16.change (right : paint.Right16 d) (proper : attr ≠ 0x100) :
    paint.change16 d attr = fresh16 d attr := by
  unfold Paint.change16
  split
  · rfl
  · rename_i same
    have same : attr = paint.last := not_not.mp same
    subst same
    obtain ⟨fgw, bgw⟩ := right proper
    rw [fresh16, ← fgw, ← bgw]

theorem none_right16 : Paint.none.Right16 d := fun proper => absurd rfl proper

theorem four_lay (w : Nat → Word) (out : Nat) : four out (w 0) (w 1) (w 2) (w 3) mem = lay 4 w out mem := rfl

theorem lineCell16_eq (right : paint.Right16 d) (col : Nat) :
    lineCell16 d y base (paint, mem) col =
      (fresh16 d (attrAt d.screen (y / cellH) col), lay 4 (word16 d y col) (base + col * 4) mem) := by
  unfold lineCell16
  dsimp only
  rw [right.change (attrAt_ne _ _), ← four_lay]
  unfold word16
  dsimp only
  split
  · rfl
  · rfl

theorem bandCell16_eq (right : paint.Right16 d) (crow col : Nat) :
    bandCell16 width d crow base (paint, mem) col =
      (fresh16 d (attrAt d.screen crow col), (List.range cellH).foldl (fun mem gy =>
        lay 4 (word16 d (crow * cellH + gy) col) (base + col * 4 + gy * lineWords16 width) mem) mem) := by
  have row : ∀ gy ∈ List.range cellH, (crow * cellH + gy) / cellH = crow ∧ (crow * cellH + gy) % cellH = gy := by
    intro gy member
    have below := List.mem_range.mp member
    unfold cellH at *
    omega
  unfold bandCell16
  dsimp only
  rw [right.change (attrAt_ne _ _)]
  generalize List.range cellH = gys at row ⊢
  split
  · rename_i blank
    rw [Prod.mk.injEq]
    refine ⟨rfl, List.foldl_ext _ _ _ fun mem gy member => ?_⟩
    rw [← four_lay]
    unfold word16
    dsimp only
    rw [(row gy member).1, if_pos blank, if_pos blank, if_pos blank, if_pos blank]
    rfl
  · rename_i drawn
    rw [Prod.mk.injEq]
    refine ⟨rfl, List.foldl_ext _ _ _ fun mem gy member => ?_⟩
    rw [← four_lay]
    unfold word16
    dsimp only
    rw [(row gy member).1, (row gy member).2, if_neg drawn, if_neg drawn, if_neg drawn, if_neg drawn]
    rfl

theorem chargenLine16_eq : chargenLine16 width d y base mem =
    (List.range (cellCols width)).foldl (fun mem col => lay 4 (word16 d y col) (base + col * 4) mem) mem := by
  refine (@foldl_cached _ _ _ (Paint.Right16 d)) (fun paint mem col right => ?_) _ none_right16 mem
  rw [lineCell16_eq right]
  exact ⟨fun _ => ⟨rfl, rfl⟩, rfl⟩

theorem colour16_part (low : attr.toNat < 16) {i : Nat} (inside : i < 2) :
    (colour16 (d.init ansiColour) attr >>> (16 * i)).setWidth 16 = to565 (ansiColour attr.toNat) := by
  have table : (d.init ansiColour).pal16 attr.toNat = to565 (ansiColour attr.toNat) := if_pos low
  unfold colour16
  rw [table]
  exact spread16 _ inside

theorem word16_pixel (y x : Nat) :
    (word16 (d.init ansiColour) y (x / 8) (x % 8 / 2) >>> (16 * (x % 2))).setWidth 16 =
      to565 (ansiColour (ink (d.init ansiColour).screen y x).toNat) := by
  have inside : x % 2 < 2 := Nat.mod_lt x (by decide)
  obtain ⟨fore, back⟩ := (@attr_halves ((d.init ansiColour).screen)) (y / cellH) (x / 8)
  unfold word16 ink
  dsimp only
  generalize attrAt (d.init ansiColour).screen (y / cellH) (x / 8) = attr at *
  generalize ((d.init ansiColour).screen.viewAt (y / cellH) (x / 8)).ch.toNat = ch
  by_cases blank : ch = cellBlank
  · rw [if_pos blank, if_neg fun drawn => drawn.1 blank]
    exact colour16_part back inside
  · rw [if_neg blank]
    generalize (d.init ansiColour).screen.font ch (y % cellH) = bits
    have mask := mask16 bits ⟨x % 8, Nat.mod_lt x (by decide)⟩
    have part : x % 8 % 2 = x % 2 := by omega
    dsimp only at mask
    rw [part] at mask
    unfold Paint.mix16
    dsimp only
    rw [mix_part _ _ _ _ (by omega), mask, colour16_part fore inside, colour16_part back inside, pick]
    by_cases lit : bits.getLsbD (7 - x % 8) = true
    · rw [if_pos lit, if_pos ⟨blank, lit⟩]
    · rw [if_neg lit, if_neg fun drawn => lit drawn.2]

theorem line_pixel16 {x : Nat} (inside : x < 8 * cellCols width) :
    pixel16 (chargenLine16 width (d.init ansiColour) y base mem) base x =
      to565 (ansiColour (ink (d.init ansiColour).screen y x).toNat) := by
  have col : x / 2 / 4 = x / 8 := by omega
  have word : x / 2 % 4 = x % 8 / 2 := by omega
  unfold pixel16
  rw [chargenLine16_eq, row_apply (by decide), if_pos (by omega), Nat.add_sub_cancel_left, col, word]
  exact word16_pixel y x

theorem chargenBand16_lines {y0 : Nat} (aligned : y0 % cellH = 0) :
    chargenBand16 width d y0 base mem = sixteen (chargenLine16 width d) (lineWords16 width) y0 base mem := by
  have row : y0 / cellH * cellH = y0 := Nat.div_mul_cancel (Nat.dvd_of_mod_eq_zero aligned)
  have fits : cellCols width * 4 ≤ lineWords16 width := by
    unfold cellCols lineWords16
    omega
  have columns : chargenBand16 width d y0 base mem = (List.range (cellCols width)).foldl (fun mem col =>
      (List.range cellH).foldl (fun mem gy =>
        lay 4 (word16 d (y0 + gy) col) (base + col * 4 + gy * lineWords16 width) mem) mem) mem := by
    refine (@foldl_cached _ _ _ (Paint.Right16 d)) (fun paint mem col right => ?_) _ none_right16 mem
    rw [bandCell16_eq right, row]
    exact ⟨fun _ => ⟨rfl, rfl⟩, rfl⟩
  rw [columns, columns_rows fits]
  exact List.foldl_ext _ _ _ fun mem gy _ => chargenLine16_eq.symm

/-- The bands are sixteen lines each, and the pixels of two bytes are those of one as `to565` has them. -/
theorem renderers_agree (width : Nat) (d : Surface) (ansiColour : Nat → BitVec 8) (y0 base : Nat) (mem : Memory)
    (aligned : y0 % cellH = 0) :
    chargenBand width (d.init ansiColour).screen y0 base mem =
        sixteen (chargenLine width (d.init ansiColour).screen) (lineWords width) y0 base mem ∧
      chargenBand16 width (d.init ansiColour) y0 base mem =
        sixteen (chargenLine16 width (d.init ansiColour)) (lineWords16 width) y0 base mem ∧
      ∀ y base' mem' x, x < 8 * cellCols width →
        pixel16 (chargenLine16 width (d.init ansiColour) y base mem) base x =
          to565 (pixel8 (chargenLine width (d.init ansiColour).screen y base' mem') base' x) := by
  refine ⟨chargenBand_lines aligned, chargenBand16_lines aligned, fun y base' mem' x inside => ?_⟩
  rw [line_pixel16 inside, line_pixel8 inside]

def oneCell : Surface where
  screen := { viewAt := fun row col => if row = 1 ∧ col = 2 then ⟨33, 0x70⟩ else ⟨0, 0x07⟩
              curOn := true, viewBack := 0, curRow := 1, curCol := 2
              palette := fun _ => 0, expand := fun _ => 0, font := fun _ gy => BitVec.ofNat 8 (gy + 60) }
  pal16 := fun _ => 0

theorem renderers_agree_oneCell :
    chargenBand16 800 (oneCell.init fun i => BitVec.ofNat 8 (i * 17)) 16 0 (fun _ => 0) =
      sixteen (chargenLine16 800 (oneCell.init fun i => BitVec.ofNat 8 (i * 17))) (lineWords16 800) 16 0 fun _ => 0 :=
  (renderers_agree 800 oneCell (fun i => BitVec.ofNat 8 (i * 17)) 16 0 (fun _ => 0) (by decide)).2.1

end Bytes

end Ubiqos.Video
