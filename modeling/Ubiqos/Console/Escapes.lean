import Mathlib.Data.BitVec
import Mathlib.Data.List.Basic
import Mathlib.Logic.Function.Basic

/-!
The text console of `kernel/console.c` as far as its cells: what a character
draws, what UTF-8 comes to, and what the escape sequences it knows do.
-/

namespace Ubiqos.Console

open Function

abbrev Byte := BitVec 8
abbrev Word := BitVec 32

structure Cell where
  char : Byte
  fg : Byte
  bg : Byte
  deriving DecidableEq

def defaultFg : Byte := 15
def defaultBg : Byte := 0

structure Screen where
  cols : Word
  rows : Word
  cells : Word → Word → Cell
  curCol : Word
  curRow : Word
  wrapPending : Bool
  rowWrapped : Word → Bool
  fgIndex : Byte
  bgIndex : Byte
  reverseVideo : Bool
  savedCol : Word
  savedRow : Word
  shown : Option (Word × Word)
  utf8Cp : Word
  utf8Need : Nat
  pushed : List Byte

namespace Screen

def cell (s : Screen) (c : Byte) : Cell where
  char := if c < 32 then 32 else c
  fg := if s.reverseVideo then s.bgIndex else s.fgIndex
  bg := if s.reverseVideo then s.fgIndex else s.bgIndex

def drawGlyph (s : Screen) (col row : Word) (c : Byte) : Screen :=
  { s with cells := update s.cells row (update (s.cells row) col (s.cell c)) }

/-- `clear_row`, for all the rows that are meant. -/
def clearRows (s : Screen) (meant : Word → Bool) : Screen :=
  { s with
    cells := fun row col => if meant row then s.cell 32 else s.cells row col
    rowWrapped := fun row => if meant row then false else s.rowWrapped row }

def eraseCells (s : Screen) (row first last : Word) : Screen :=
  if s.rows ≤ row ∨ last < first then s
  else
    let last := if s.cols ≤ last then s.cols - 1 else last
    { s with cells := fun r c =>
        if r = row ∧ first ≤ c ∧ c ≤ last then s.cell 32 else s.cells r c }

def cursor (s : Screen) (drawn : Bool) : Screen :=
  if drawn = s.shown.isSome then s
  else { s with shown := if drawn then some (s.curRow, s.curCol) else none }

def newline (s : Screen) : Screen :=
  let s := { s with curCol := 0, curRow := s.curRow + 1 }
  if s.rows ≤ s.curRow then
    let s := { s with
      curRow := s.rows - 1
      cells := fun row => s.cells (row + 1)
      rowWrapped := fun row => if row < s.rows - 1 then s.rowWrapped (row + 1) else s.rowWrapped row }
    s.clearRows (fun row => row = s.rows - 1)
  else s

def wrap (s : Screen) : Screen :=
  if s.wrapPending then
    newline { s with wrapPending := false, rowWrapped := update s.rowWrapped s.curRow true }
  else s

def put (s : Screen) (c : Byte) : Screen :=
  let s := s.drawGlyph s.curCol s.curRow c
  if s.cols ≤ s.curCol + 1 then { s with curCol := s.cols - 1, wrapPending := true }
  else { s with curCol := s.curCol + 1 }

def tab : Nat → Screen → Screen
  | 0, s => s
  | turns + 1, s =>
    let s := s.wrap.put 32
    if s.curCol % 8 = 0 then s else tab turns s

def drawChar (s : Screen) (c : Byte) : Screen :=
  if c = 0x0a then
    newline { s with wrapPending := false, rowWrapped := update s.rowWrapped s.curRow false }
  else if c = 0x0d then { s with wrapPending := false, curCol := 0 }
  else if c = 0x08 then
    if s.wrapPending then { s with wrapPending := false }.drawGlyph s.curCol s.curRow 32
    else if s.curCol ≠ 0 then
      { s with curCol := s.curCol - 1 }.drawGlyph (s.curCol - 1) s.curRow 32
    else if s.curRow ≠ 0 ∧ s.rowWrapped (s.curRow - 1) then
      { s with
        curRow := s.curRow - 1
        curCol := s.cols - 1
        rowWrapped := update s.rowWrapped (s.curRow - 1) false }.drawGlyph
          (s.cols - 1) (s.curRow - 1) 32
    else s
  else if c = 0x09 then
    -- no more than sixteen for 80 columns or for 106
    tab 16 s
  else if c < 32 then s
  else s.wrap.put c

/-- `feed_text`: a character above U+00FF, or one that was cut short, is drawn as
a question mark, and a byte that begins nothing as itself. -/
def feedText (s : Screen) (c : Byte) : Screen :=
  let begin (s : Screen) : Screen :=
    if c < 0x80 then s.drawChar c
    else if c &&& 0xe0 = 0xc0 then { s with utf8Cp := (c &&& 0x1f).setWidth 32, utf8Need := 1 }
    else if c &&& 0xf0 = 0xe0 then { s with utf8Cp := (c &&& 0x0f).setWidth 32, utf8Need := 2 }
    else if c &&& 0xf8 = 0xf0 then { s with utf8Cp := (c &&& 0x07).setWidth 32, utf8Need := 3 }
    else s.drawChar c
  if s.utf8Need = 0 then begin s
  else if c &&& 0xc0 = 0x80 then
    let s := { s with
      utf8Cp := s.utf8Cp <<< 6 ||| (c &&& 0x3f).setWidth 32
      utf8Need := s.utf8Need - 1 }
    if s.utf8Need ≠ 0 then s
    else s.drawChar (if s.utf8Cp < 256 then s.utf8Cp.setWidth 8 else 0x3f)
  else begin ({ s with utf8Need := 0 }.drawChar 0x3f)

/-- `param`: a parameter that is absent, empty or zero takes the default. -/
def param (ps : List Word) (i : Nat) (dflt : Word) : Word :=
  match ps[i]? with
  | some v => if v ≠ 0 then v else dflt
  | none => dflt

def setGraphic (s : Screen) (v : Word) : Screen :=
  if v = 0 then { s with fgIndex := defaultFg, bgIndex := defaultBg, reverseVideo := false }
  else if v = 1 then { s with fgIndex := s.fgIndex ||| 8 }
  else if v = 7 then { s with reverseVideo := true }
  else if v = 22 then { s with fgIndex := s.fgIndex &&& 7 }
  else if v = 27 then { s with reverseVideo := false }
  else if 30 ≤ v ∧ v ≤ 37 then { s with fgIndex := (v - 30).setWidth 8 }
  else if v = 39 then { s with fgIndex := defaultFg }
  else if 40 ≤ v ∧ v ≤ 47 then { s with bgIndex := (v - 40).setWidth 8 }
  else if v = 49 then { s with bgIndex := defaultBg }
  else if 90 ≤ v ∧ v ≤ 97 then { s with fgIndex := (v - 90 + 8).setWidth 8 }
  else if 100 ≤ v ∧ v ≤ 107 then { s with bgIndex := (v - 100 + 8).setWidth 8 }
  else s

/-- `set_graphics`: no parameters are one that is zero. -/
def setGraphics (s : Screen) (ps : List Word) : Screen :=
  (if ps = [] then [0] else ps).foldl setGraphic s

def decimal (n : Nat) : List Byte := (Nat.toDigits 10 n).map (fun c => BitVec.ofNat 8 c.toNat)

/-- `ESC [ row ; col R`, to whoever reads the keyboard. -/
def reportPosition (s : Screen) : Screen :=
  { s with pushed := s.pushed ++ [0x1b, 0x5b] ++ decimal (s.curRow + 1).toNat ++ [0x3b] ++
      decimal (s.curCol + 1).toNat ++ [0x52] }

def moved (bound n : Word) : Word := if bound ≤ n then bound - 1 else n

def doCsi (s : Screen) (ps : List Word) (final : Byte) : Screen :=
  let done : Screen :=
    match Char.ofNat final.toNat with
    | 'A' =>
      let n := param ps 0 1
      { s with curRow := if s.curRow < n then 0 else s.curRow - n }
    | 'B' => { s with curRow := moved s.rows (s.curRow + param ps 0 1) }
    | 'C' => { s with curCol := moved s.cols (s.curCol + param ps 0 1) }
    | 'D' =>
      let n := param ps 0 1
      { s with curCol := if s.curCol < n then 0 else s.curCol - n }
    | 'G' => { s with curCol := moved s.cols (param ps 0 1 - 1) }
    | 'H' | 'f' =>
      { s with
        curRow := moved s.rows (param ps 0 1 - 1)
        curCol := moved s.cols (param ps 1 1 - 1) }
    | 'J' =>
      let n := param ps 0 0
      if n = 0 then
        (s.eraseCells s.curRow s.curCol (s.cols - 1)).clearRows
          (fun row => s.curRow < row ∧ row < s.rows)
      else if n = 1 then
        (s.clearRows (fun row => row < s.curRow)).eraseCells s.curRow 0 s.curCol
      else s.clearRows (fun row => row < s.rows)
    | 'K' =>
      let n := param ps 0 0
      if n = 0 then s.eraseCells s.curRow s.curCol (s.cols - 1)
      else if n = 1 then s.eraseCells s.curRow 0 s.curCol
      else s.eraseCells s.curRow 0 (s.cols - 1)
    | 'm' => s.setGraphics ps
    | 'n' => if param ps 0 0 = 6 then s.reportPosition else s
    | 's' => { s with savedCol := s.curCol, savedRow := s.curRow }
    | 'u' => { s with curCol := moved s.cols s.savedCol, curRow := moved s.rows s.savedRow }
    | _ => s
  -- moving the cursor by hand ends a wrap that was held back
  if final ≠ 0x6d ∧ final ≠ 0x73 then { done with wrapPending := false } else done

end Screen

end Ubiqos.Console

/-!
The parser of escape sequences in `kernel/console.c`, a byte at a time, and the
sequences it is for: each is taken out of what is drawn, and a known one acts
with its parameters.
-/

namespace Ubiqos.Console

open Function

inductive EscState where
  | normal | esc | csi
  deriving DecidableEq

def maxParams : Nat := 8

structure Terminal where
  ready : Bool
  escState : EscState
  params : Nat → Word
  nparams : Nat
  screen : Screen

def Terminal.taken (k : Terminal) : List Word := (List.range k.nparams).map k.params

/-- The bytes of a sequence after `ESC [`. -/
def feedCsi (k : Terminal) (c : Byte) : Terminal :=
  if 0x30 ≤ c ∧ c ≤ 0x39 then
    let n := if k.nparams = 0 then 1 else k.nparams
    { k with
      nparams := n
      params := update k.params (n - 1) (k.params (n - 1) * 10 + (c - 0x30).setWidth 32) }
  else if c = 0x3b then
    if k.nparams < maxParams then
      { k with params := update k.params k.nparams 0, nparams := k.nparams + 1 }
    else { k with params := update k.params (maxParams - 1) 0 }
  else if 0x40 ≤ c ∧ c ≤ 0x7e then
    { k with screen := k.screen.doCsi k.taken c, escState := .normal }
  else if c < 0x30 then k
  else { k with escState := .normal }

def consoleFeed (k : Terminal) (c : Byte) : Terminal :=
  if !k.ready then k
  else
    let k := { k with screen := k.screen.cursor false }
    match k.escState with
    | .normal =>
      if c = 0x1b then { k with screen := { k.screen with utf8Need := 0 }, escState := .esc }
      else { k with screen := k.screen.feedText c }
    | .esc =>
      if c = 0x5b then { k with escState := .csi, nparams := 0, params := update k.params 0 0 }
      else { k with escState := .normal }
    | .csi => feedCsi k c

def consoleWrite (k : Terminal) (bytes : List Byte) : Terminal :=
  let k := bytes.foldl consoleFeed k
  { k with screen := k.screen.cursor true }

/-- A parameter: its decimal digits, perhaps none. -/
abbrev Param := List (Fin 10)

def Param.bytes (p : Param) : List Byte := p.map (fun d => BitVec.ofNat 8 (0x30 + d.val))

def Param.value (p : Param) : Word := BitVec.ofNat 32 (p.foldl (fun n d => n * 10 + d.val) 0)

def joined : List Param → List Byte
  | [] => []
  | p :: rest => p.bytes ++ rest.flatMap (fun q => 0x3b :: q.bytes)

/-- What stands between `ESC [` and the last byte of a sequence: parameters, of
which the first is not empty where there are several, and intermediate bytes. -/
structure Body where
  params : List Param
  inter : List Byte
  first : params.head? = some [] → params.length ≤ 1
  isInter : ∀ b ∈ inter, 0x20 ≤ b ∧ b < 0x30

def Body.bytes (b : Body) : List Byte := 0x1b :: 0x5b :: (joined b.params ++ b.inter)

def capped (values : List Word) : List Word :=
  values.dropLast.take (maxParams - 1) ++ values.getLast?.toList

def Body.values (b : Body) : List Word := capped (b.params.map Param.value)

inductive Piece where
  | text (c : Byte) (plain : c ≠ 0x1b)
  | pair (c : Byte) (other : c ≠ 0x5b)
  | csi (body : Body) (final : Byte) (isFinal : 0x40 ≤ final ∧ final ≤ 0x7e)
  | broken (body : Body) (c : Byte) (high : 0x7f ≤ c)

def Piece.bytes : Piece → List Byte
  | .text c _ => [c]
  | .pair c _ => [0x1b, c]
  | .csi body final _ => body.bytes ++ [final]
  | .broken body c _ => body.bytes ++ [c]

inductive Tail where
  | none
  | esc
  | csi (body : Body)

def Tail.bytes : Tail → List Byte
  | .none => []
  | .esc => [0x1b]
  | .csi body => body.bytes

def Screen.cut (s : Screen) : Screen := { s.cursor false with utf8Need := 0 }

def Piece.act (s : Screen) : Piece → Screen
  | .text c _ => (s.cursor false).feedText c
  | .pair _ _ | .broken _ _ _ => s.cut
  | .csi body final _ => s.cut.doCsi body.values final

def Tail.act (s : Screen) : Tail → Screen
  | .none => s
  | .esc | .csi _ => s.cut

section Lifting
variable (s : Screen)

theorem lift_shown : (s.cursor false).shown = none := by
  cases shown : s.shown with
  | none => simp [Screen.cursor, shown]
  | some place => simp [Screen.cursor, shown]

theorem lift_lifted (lifted : s.shown = none) : s.cursor false = s := by
  simp [Screen.cursor, lifted]

@[simp] theorem lift_lift : (s.cursor false).cursor false = s.cursor false :=
  lift_lifted _ (lift_shown s)

@[simp] theorem lift_draw : (s.cursor true).cursor false = s.cursor false := by
  cases shown : s.shown with
  | none =>
    rcases s with ⟨⟩
    cases shown
    rfl
  | some place => simp [Screen.cursor, shown]

end Lifting

structure Rests (k : Terminal) (s : Screen) : Prop where
  ready : k.ready = true
  state : k.escState = .normal
  screen : k.screen = s

structure Escaped (k : Terminal) (s : Screen) : Prop where
  ready : k.ready = true
  state : k.escState = .esc
  screen : k.screen = s
  lifted : s.shown = none

/-- In the parameters of a sequence: the ones that are done, and the value that the
digits of the last have come to. -/
structure Reads (k : Terminal) (s : Screen) (done : List Word) (value : Word) : Prop where
  ready : k.ready = true
  state : k.escState = .csi
  screen : k.screen = s
  lifted : s.shown = none
  few : done.length < maxParams
  count : k.nparams = done.length + 1
  kept : ∀ i, (inside : i < done.length) → k.params i = done[i]
  last : k.params done.length = value

structure Opens (k : Terminal) (s : Screen) : Prop where
  ready : k.ready = true
  state : k.escState = .csi
  screen : k.screen = s
  lifted : s.shown = none
  count : k.nparams = 0
  zero : k.params 0 = 0

section Feeding
variable {k : Terminal} {s : Screen} {c : Byte} {done : List Word} {value : Word}

theorem feed_normal (ready : k.ready = true) (state : k.escState = .normal) :
    consoleFeed k c =
      if c = 0x1b then { k with screen := k.screen.cut, escState := .esc }
      else { k with screen := (k.screen.cursor false).feedText c } := by
  simp only [consoleFeed, ready, state, Bool.not_true, Bool.false_eq_true, if_false]
  rfl

theorem feed_esc (ready : k.ready = true) (state : k.escState = .esc) (lifted : k.screen.shown = none) :
    consoleFeed k c =
      if c = 0x5b then { k with escState := .csi, nparams := 0, params := update k.params 0 0 }
      else { k with escState := .normal } := by
  simp only [consoleFeed, ready, state, lift_lifted _ lifted, Bool.not_true, Bool.false_eq_true,
    if_false]

theorem feed_text (rests : Rests k s) (plain : c ≠ 0x1b) :
    Rests (consoleFeed k c) ((s.cursor false).feedText c) := by
  obtain ⟨ready, state, rfl⟩ := rests
  rw [feed_normal ready state, if_neg plain]
  exact ⟨ready, state, rfl⟩

theorem feed_escape (rests : Rests k s) : Escaped (consoleFeed k 0x1b) s.cut := by
  obtain ⟨ready, state, rfl⟩ := rests
  rw [feed_normal ready state, if_pos rfl]
  exact ⟨ready, rfl, rfl, lift_shown k.screen⟩

theorem feed_other (escaped : Escaped k s) (other : c ≠ 0x5b) : Rests (consoleFeed k c) s := by
  obtain ⟨ready, state, rfl, lifted⟩ := escaped
  rw [feed_esc ready state lifted, if_neg other]
  exact ⟨ready, rfl, rfl⟩

theorem feed_bracket (escaped : Escaped k s) : Opens (consoleFeed k 0x5b) s := by
  obtain ⟨ready, state, rfl, lifted⟩ := escaped
  rw [feed_esc ready state lifted, if_pos rfl]
  exact ⟨ready, rfl, rfl, lifted, rfl, by simp⟩

theorem feed_csi (ready : k.ready = true) (state : k.escState = .csi)
    (lifted : k.screen.shown = none) : consoleFeed k c = feedCsi k c := by
  rcases k with ⟨isReady, escState, params, n, screen⟩
  cases ready
  cases state
  have same : screen.cursor false = screen := lift_lifted _ lifted
  simp only [consoleFeed, same, Bool.not_true, Bool.false_eq_true, if_false]

theorem digit_byte (d : Fin 10) : (0x30 ≤ BitVec.ofNat 8 (0x30 + d) ∧
    BitVec.ofNat 8 (0x30 + d) ≤ 0x39) ∧
    (BitVec.ofNat 8 (0x30 + d) - 0x30).setWidth 32 = BitVec.ofNat 32 d := by
  revert d
  decide

theorem feed_first_digit (opens : Opens k s) (d : Fin 10) :
    Reads (consoleFeed k (BitVec.ofNat 8 (0x30 + d))) s [] (BitVec.ofNat 32 d) := by
  obtain ⟨range, digit⟩ := digit_byte d
  obtain ⟨ready, state, rfl, lifted, count, zero⟩ := opens
  rw [feed_csi ready state lifted, feedCsi, if_pos range, digit]
  simp only [count, if_true]
  constructor
  · exact ready
  · exact state
  · rfl
  · exact lifted
  · decide
  · rfl
  · intro i inside
    cases inside
  · simp [zero]

theorem feed_digit (reads : Reads k s done value) (d : Fin 10) :
    Reads (consoleFeed k (BitVec.ofNat 8 (0x30 + d))) s done (value * 10 + BitVec.ofNat 32 d) := by
  obtain ⟨range, digit⟩ := digit_byte d
  obtain ⟨ready, state, rfl, lifted, few, count, kept, rfl⟩ := reads
  rw [feed_csi ready state lifted, feedCsi, if_pos range, digit]
  simp only [count, Nat.succ_ne_zero, if_false, Nat.add_sub_cancel]
  constructor
  · exact ready
  · exact state
  · rfl
  · exact lifted
  · exact few
  · rfl
  · intro i inside
    simp only [update_of_ne (Nat.ne_of_lt inside)]
    exact kept i inside
  · simp

theorem feed_semicolon (reads : Reads k s done value) :
    Reads (consoleFeed k 0x3b) s ((done ++ [value]).take (maxParams - 1)) 0 := by
  obtain ⟨ready, state, rfl, lifted, few, count, kept, rfl⟩ := reads
  rw [feed_csi ready state lifted, feedCsi, if_neg (by decide), if_pos rfl]
  by_cases room : done.length + 1 < maxParams
  · have whole : (done ++ [k.params done.length]).take (maxParams - 1) =
        done ++ [k.params done.length] := by
      apply List.take_of_length_le
      simp only [List.length_append, List.length_singleton]
      omega
    rw [whole, count, if_pos room]
    constructor
    · exact ready
    · exact state
    · rfl
    · exact lifted
    · simpa using room
    · simp
    · intro i inside
      simp only [List.length_append, List.length_singleton] at inside
      simp only [update_of_ne (Nat.ne_of_lt inside)]
      by_cases earlier : i < done.length
      · rw [List.getElem_append_left earlier]
        exact kept i earlier
      · obtain rfl : i = done.length := by omega
        simp
    · simp
  · have full : done.length = maxParams - 1 := by
      simp only [maxParams] at few room ⊢
      omega
    have first : (done ++ [k.params done.length]).take (maxParams - 1) = done := by
      rw [← full]
      exact List.take_left
    rw [first, count, if_neg room, ← full]
    constructor
    · exact ready
    · exact state
    · rfl
    · exact lifted
    · exact few
    · rfl
    · intro i inside
      simp only [update_of_ne (Nat.ne_of_lt inside)]
      exact kept i inside
    · simp

theorem Reads.taken (reads : Reads k s done value) : k.taken = done ++ [value] := by
  obtain ⟨ready, state, rfl, lifted, few, count, kept, rfl⟩ := reads
  apply List.ext_getElem
  · simp [Terminal.taken, count]
  · intro i inside _
    simp only [Terminal.taken, List.length_map, List.length_range, count] at inside
    simp only [Terminal.taken, List.getElem_map, List.getElem_range]
    by_cases earlier : i < done.length
    · rw [List.getElem_append_left earlier]
      exact kept i earlier
    · obtain rfl : i = done.length := by omega
      simp

structure Within (k : Terminal) (s : Screen) (values : List Word) : Prop where
  ready : k.ready = true
  state : k.escState = .csi
  screen : k.screen = s
  lifted : s.shown = none
  acts : ∀ t : Screen, ∀ final, t.doCsi k.taken final = t.doCsi values final

theorem doCsi_none (t : Screen) (final : Byte) : t.doCsi [] final = t.doCsi [0] final := by
  simp [Screen.doCsi, Screen.param, Screen.setGraphics]

theorem Reads.within (reads : Reads k s done value) : Within k s (done ++ [value]) := by
  refine ⟨reads.ready, reads.state, reads.screen, reads.lifted, ?_⟩
  intro t final
  rw [reads.taken]

theorem Opens.within (opens : Opens k s) : Within k s [] := by
  refine ⟨opens.ready, opens.state, opens.screen, opens.lifted, ?_⟩
  intro t final
  simp [Terminal.taken, opens.count]

variable {values : List Word}

theorem feed_inter (within : Within k s values) (low : c < 0x30) :
    consoleFeed k c = k := by
  obtain ⟨ready, state, rfl, lifted, _⟩ := within
  have digit : ¬ (0x30 ≤ c ∧ c ≤ 0x39) := by bv_omega
  have semicolon : c ≠ 0x3b := by bv_omega
  have final : ¬ (0x40 ≤ c ∧ c ≤ 0x7e) := by bv_omega
  rw [feed_csi ready state lifted, feedCsi, if_neg digit, if_neg semicolon, if_neg final, if_pos low]

theorem feed_final (within : Within k s values)
    (isFinal : 0x40 ≤ c ∧ c ≤ 0x7e) : Rests (consoleFeed k c) (s.doCsi values c) := by
  obtain ⟨ready, state, rfl, lifted, acts⟩ := within
  have digit : ¬ (0x30 ≤ c ∧ c ≤ 0x39) := by bv_omega
  have semicolon : c ≠ 0x3b := by bv_omega
  rw [feed_csi ready state lifted, feedCsi, if_neg digit, if_neg semicolon, if_pos isFinal]
  exact ⟨ready, rfl, acts k.screen c⟩

theorem feed_high (within : Within k s values) (high : 0x7f ≤ c) :
    Rests (consoleFeed k c) s := by
  obtain ⟨ready, state, rfl, lifted, acts⟩ := within
  have digit : ¬ (0x30 ≤ c ∧ c ≤ 0x39) := by bv_omega
  have semicolon : c ≠ 0x3b := by bv_omega
  have final : ¬ (0x40 ≤ c ∧ c ≤ 0x7e) := by bv_omega
  have inter : ¬ c < 0x30 := by bv_omega
  rw [feed_csi ready state lifted, feedCsi, if_neg digit, if_neg semicolon, if_neg final,
    if_neg inter]
  exact ⟨ready, rfl, rfl⟩

theorem feed_digits (reads : Reads k s done value) (digits : Param) :
    Reads (digits.bytes.foldl consoleFeed k) s done
      (digits.foldl (fun n d => n * 10 + BitVec.ofNat 32 d.val) value) := by
  induction digits generalizing k value with
  | nil => exact reads
  | cons d rest ih => exact ih (feed_digit reads d)

theorem value_fold (digits : Param) (n : Nat) :
    digits.foldl (fun n d => n * 10 + BitVec.ofNat 32 d.val) (BitVec.ofNat 32 n) =
      BitVec.ofNat 32 (digits.foldl (fun n d => n * 10 + d.val) n) := by
  induction digits generalizing n with
  | nil => rfl
  | cons d rest ih =>
    have step : BitVec.ofNat 32 n * 10 + BitVec.ofNat 32 d = BitVec.ofNat 32 (n * 10 + d) := by
      rw [BitVec.ofNat_add, BitVec.ofNat_mul]
      rfl
    rw [List.foldl_cons, List.foldl_cons, step, ih]

theorem feed_param (opens : Opens k s) {digits : Param} (given : digits ≠ []) :
    Reads (digits.bytes.foldl consoleFeed k) s [] digits.value := by
  cases digits with
  | nil => exact absurd rfl given
  | cons d rest =>
    have reads := feed_digits (feed_first_digit opens d) rest
    rw [value_fold] at reads
    simpa [Param.value, Param.bytes] using reads

theorem feed_next (reads : Reads k s done value) (digits : Param) :
    Reads ((0x3b :: digits.bytes).foldl consoleFeed k) s ((done ++ [value]).take (maxParams - 1))
      digits.value := by
  have reads := feed_digits (feed_semicolon reads) digits
  have zero : (0 : Word) = BitVec.ofNat 32 0 := rfl
  rw [zero, value_fold] at reads
  exact reads

theorem capped_snoc (values : List Word) (value : Word) :
    capped (values ++ [value]) = values.take (maxParams - 1) ++ [value] := by
  simp [capped]

theorem feed_rest {front : List Word} (reads : Reads k s (front.take (maxParams - 1)) value)
    (rest : List Param) :
    ∃ front' value', front' ++ [value'] = front ++ [value] ++ rest.map Param.value ∧
      Reads ((rest.flatMap (fun q => 0x3b :: q.bytes)).foldl consoleFeed k) s
        (front'.take (maxParams - 1)) value' := by
  induction rest generalizing k front value with
  | nil => exact ⟨front, value, by simp, reads⟩
  | cons q rest ih =>
    have next := feed_next reads q
    have kept : (front.take (maxParams - 1) ++ [value]).take (maxParams - 1) =
        (front ++ [value]).take (maxParams - 1) := by
      rw [List.take_append, List.take_append, List.take_take, Nat.min_self, List.length_take]
      congr 2
      omega
    rw [kept] at next
    obtain ⟨front', value', same, now⟩ := ih next
    refine ⟨front', value', by simpa using same, ?_⟩
    rw [List.flatMap_cons, List.foldl_append]
    exact now

theorem capped_values {front values : List Word} (same : front ++ [value] = values) :
    front.take (maxParams - 1) ++ [value] = capped values := by
  rw [← same, capped_snoc]

theorem feed_body (opens : Opens k s) (params : List Param)
    (first : params.head? = some [] → params.length ≤ 1) :
    Within ((joined params).foldl consoleFeed k) s (capped (params.map Param.value)) := by
  cases params with
  | nil => exact opens.within
  | cons p rest =>
    by_cases empty : p = []
    · -- an empty parameter that stands alone
      subst empty
      have alone : rest = [] := by
        have short := first rfl
        simpa using short
      subst alone
      obtain ⟨ready, state, screen, lifted, acts⟩ := opens.within
      refine ⟨ready, state, screen, lifted, ?_⟩
      intro t final
      exact (acts t final).trans (doCsi_none t final)
    · obtain ⟨front, last, same, reads⟩ :=
        (@feed_rest _ _ _ []) (feed_param opens empty) rest
      rw [joined, List.foldl_append]
      have within := reads.within
      rw [capped_values same] at within
      exact within

theorem feed_inters (within : Within k s values) {inter : List Byte}
    (isInter : ∀ b ∈ inter, 0x20 ≤ b ∧ b < 0x30) : inter.foldl consoleFeed k = k := by
  induction inter with
  | nil => rfl
  | cons b rest ih =>
    rw [List.foldl_cons, feed_inter within (isInter b List.mem_cons_self).2]
    exact ih (fun b' member => isInter b' (List.mem_cons_of_mem b member))

theorem feed_sequence (rests : Rests k s) (body : Body) :
    Within (body.bytes.foldl consoleFeed k) s.cut body.values := by
  have within := feed_body (feed_bracket (feed_escape rests)) body.params body.first
  rw [Body.bytes, List.foldl_cons, List.foldl_cons, List.foldl_append,
    feed_inters within body.isInter]
  exact within

theorem feed_piece (rests : Rests k s) (piece : Piece) :
    Rests (piece.bytes.foldl consoleFeed k) (piece.act s) := by
  cases piece with
  | text c plain => exact feed_text rests plain
  | pair c other => exact feed_other (feed_escape rests) other
  | csi body final isFinal =>
    rw [Piece.bytes, List.foldl_append]
    exact feed_final (feed_sequence rests body) isFinal
  | broken body c high =>
    rw [Piece.bytes, List.foldl_append]
    exact feed_high (feed_sequence rests body) high

theorem feed_pieces (rests : Rests k s) (pieces : List Piece) :
    Rests ((pieces.flatMap Piece.bytes).foldl consoleFeed k) (pieces.foldl Piece.act s) := by
  induction pieces generalizing k s with
  | nil => exact rests
  | cons piece later ih =>
    rw [List.flatMap_cons, List.foldl_append]
    exact ih (feed_piece rests piece)

theorem feed_tail (rests : Rests k s) (tail : Tail) :
    (tail.bytes.foldl consoleFeed k).screen = tail.act s := by
  cases tail with
  | none => exact rests.screen
  | esc => exact (feed_escape rests).screen
  | csi body => exact (feed_sequence rests body).screen

end Feeding

section Splitting
variable {k : Terminal}

def Terminal.lift (k : Terminal) : Terminal := { k with screen := k.screen.cursor false }

theorem feed_lift (ready : k.ready = true) (c : Byte) : consoleFeed k.lift c = consoleFeed k c := by
  simp only [consoleFeed, Terminal.lift, ready, lift_lift, Bool.not_true, Bool.false_eq_true,
    if_false]

theorem feed_ready (ready : k.ready = true) (c : Byte) : (consoleFeed k c).ready = true := by
  simp only [consoleFeed, ready, Bool.not_true, Bool.false_eq_true, if_false]
  split
  · split <;> rfl
  · split <;> rfl
  · simp only [feedCsi]
    split
    · rfl
    · split
      · split <;> rfl
      · split
        · rfl
        · split <;> rfl

theorem feeds_ready (ready : k.ready = true) (bytes : List Byte) :
    (bytes.foldl consoleFeed k).ready = true := by
  induction bytes generalizing k with
  | nil => exact ready
  | cons c rest ih => exact ih (feed_ready ready c)

theorem feeds_lift {t : Terminal} (ready : k.ready = true) (same : t.lift = k.lift)
    (bytes : List Byte) : (bytes.foldl consoleFeed t).lift = (bytes.foldl consoleFeed k).lift := by
  have ready' : t.ready = true := by
    have lifted := congrArg Terminal.ready same
    exact lifted.trans ready
  cases bytes with
  | nil => exact same
  | cons c rest => rw [List.foldl_cons, List.foldl_cons, ← feed_lift ready', same, feed_lift ready]

theorem writes_lift {t : Terminal} (ready : k.ready = true) (same : t.lift = k.lift)
    (chunks : List (List Byte)) :
    (chunks.foldl consoleWrite t).lift = (chunks.flatten.foldl consoleFeed k).lift := by
  induction chunks generalizing k t with
  | nil => exact same
  | cons chunk rest ih =>
    rw [List.foldl_cons, List.flatten_cons, List.foldl_append]
    apply ih (feeds_ready ready chunk)
    have drawn : (consoleWrite t chunk).lift = (chunk.foldl consoleFeed t).lift := by
      simp [consoleWrite, Terminal.lift]
    rw [drawn, feeds_lift ready same]

end Splitting

/-- However a stream is cut into runs, what is on the screen is its text, as the
complete sequences between moved, erased and coloured it. -/
theorem write_strips {k : Terminal} (ready : k.ready = true) (between : k.escState = .normal)
    (pieces : List Piece) (tail : Tail) {chunks : List (List Byte)}
    (stream : chunks.flatten = pieces.flatMap Piece.bytes ++ tail.bytes) :
    (chunks.foldl consoleWrite k).screen.cursor false =
      (tail.act (pieces.foldl Piece.act k.screen)).cursor false := by
  have whole := congrArg Terminal.screen (writes_lift ready rfl chunks)
  have rests := feed_pieces ⟨ready, between, rfl⟩ pieces
  rw [stream, List.foldl_append] at whole
  rw [← feed_tail rests tail]
  exact whole

def cleared : Terminal where
  ready := true
  escState := .normal
  params _ := 0
  nparams := 0
  screen := {
    cols := 80, rows := 30, cells := fun _ _ => ⟨32, defaultFg, defaultBg⟩, curCol := 0, curRow := 0
    wrapPending := false, rowWrapped := fun _ => false, fgIndex := defaultFg, bgIndex := defaultBg
    reverseVideo := false, savedCol := 0, savedRow := 0, shown := none, utf8Cp := 0, utf8Need := 0
    pushed := [] }

/-- `A ESC [ 2 ; 4 H B ESC`, in three runs that break it inside the sequence. -/
theorem write_strips_broken :
    ([[0x41, 0x1b], [0x5b, 0x32, 0x3b], [0x34, 0x48, 0x42, 0x1b]].foldl consoleWrite
        cleared).screen.cursor false =
      (Tail.esc.act ([.text 0x41 (by decide),
        .csi ⟨[[2], [4]], [], by decide, by decide⟩ 0x48 (by decide),
        .text 0x42 (by decide)].foldl Piece.act cleared.screen)).cursor false :=
  write_strips rfl rfl _ _ rfl

/-- An escape before another byte than a bracket takes that byte with it, so that
`ESC A`, which holds no sequence, is not drawn as it stands. -/
theorem escape_undrawn :
    (([0x1b, 0x41] : List Byte).foldl consoleFeed cleared).screen.cells 0 0 ≠
      (([0x1b, 0x41] : List Byte).foldl Screen.feedText cleared.screen).cells 0 0 := by
  decide

end Ubiqos.Console
