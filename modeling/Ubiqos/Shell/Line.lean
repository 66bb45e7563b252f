import Mathlib.Algebra.Group.Nat.Defs
import Ubiqos.Lib.Glyphs

/-!
The line of the shell's editor, `src/modules/sh/sh.c`: a buffer of bytes and a cursor in it, the
history behind it and the window of it that is drawn. Each key's edit is compared with the text
before and after the cursor.
-/

namespace Ubiqos.Shell

open Function

abbrev Byte := UInt8
abbrev Memory := Nat → Byte

def lineMax : Nat := 128
def histLines : Nat := 16
def promptMax : Nat := 80

structure History where
  /-- Slots of `lineMax` bytes, or none where the heap had no room for them. -/
  hist : Option Memory
  histCount : Nat
  histNext : Nat
  browse : Nat
  stash : Memory

/-- `editor_t`. -/
structure Editor extends History where
  prompt : Memory
  promptLen : Nat
  width : Nat
  line : Memory
  len : Nat
  pos : Nat
  quiet : Bool

/-- Where the slot begins, `back = 1` being the newest. -/
def histSlot (h : History) (back : Nat) : Nat :=
  (h.histNext + histLines - back) % histLines * lineMax

def copyStr (dst : Memory) (goal : Nat) (src : Memory) (origin max : Nat) : Memory × Nat :=
  Stored.copy 0 dst goal src origin (max - 1) 0

def literal (text : List Byte) : Memory := fun i => text.getD i 0

def buildPrompt (e : Editor) (cwd : Memory) : Editor :=
  let named := copyStr e.prompt 0 (literal [0x75, 0x62, 0x69, 0x71, 0x6f, 0x73, 0x3a]) 0 promptMax
  let n := named.2
  let placed := copyStr named.1 n (if cwd 0 ≠ 0 then cwd else literal [0x2f]) 0 (promptMax - n)
  let n := n + placed.2
  let closed := copyStr placed.1 n (literal [0x3e, 0x20]) 0 (promptMax - n)
  { e with prompt := closed.1, promptLen := n + closed.2 }

def room : Nat := lineMax - 1

def utf8Cont (c : Byte) : Bool := c &&& 0xc0 == 0x80

def viewWidth (e : Editor) : Nat :=
  if e.width > e.promptLen + 1 then e.width - e.promptLen - 1 else 1

def columnsTo (e : Editor) (here : Nat) : Nat :=
  (List.range (min here e.len)).countP fun i => !utf8Cont (e.line i)

/-- `while (i < e->len && utf8_cont(e->line[i])) i++`, with `left` bytes to go to the end. -/
def skip (line : Memory) (i : Nat) : Nat → Nat
  | 0 => i
  | left + 1 => if utf8Cont (line i) then skip line (i + 1) left else i

def columnLoop (e : Editor) : Nat → Nat → Nat
  | 0, i => i
  | col + 1, i =>
    if i < e.len then columnLoop e col (skip e.line (i + 1) (e.len - (i + 1))) else i

def byteOfColumn (e : Editor) (col : Nat) : Nat := columnLoop e col 0

def viewStart (e : Editor) : Nat :=
  let w := viewWidth e
  let cur := columnsTo e e.pos
  if cur < w then 0 else byteOfColumn e (cur - w + 1)

structure Drawn where
  /-- The first byte of the line that is written, and how many are. -/
  start : Nat
  shown : Nat
  column : Nat

def sub32 (a b : Nat) : Nat := (a + 2 ^ 32 - b) % 2 ^ 32

def redraw (e : Editor) : Option Drawn :=
  if e.quiet then none
  else
    let start := viewStart e
    let w := viewWidth e
    some {
      start := start
      shown := sub32 (byteOfColumn e (columnsTo e start + w)) start
      column := e.promptLen + sub32 (columnsTo e e.pos) (columnsTo e start) + 1 }

def setLine (e : Editor) (src : Memory) (origin : Nat) : Editor :=
  let copied := copyStr e.line 0 src origin lineMax
  if copied.2 > room then
    { e with line := update copied.1 room 0, len := room, pos := room }
  else { e with line := copied.1, len := copied.2, pos := copied.2 }

/-- `for (i = e->len; i > e->pos; i--) e->line[i] = e->line[i - 1]`. -/
def shiftUp (line : Memory) (pos : Nat) : Nat → Memory
  | 0 => line
  | i + 1 => if i + 1 > pos then shiftUp (update line (i + 1) (line i)) pos i else line

def insert (e : Editor) (c : Byte) : Editor :=
  if e.len ≥ room then e
  else
    let line := update (shiftUp e.line e.pos e.len) e.pos c
    { e with line := update line (e.len + 1) 0, len := e.len + 1, pos := e.pos + 1 }

/-- `for (i = at; i < e->len; i++) e->line[i] = e->line[i + 1]`, `left` steps of it. -/
def shiftDown (line : Memory) (i : Nat) : Nat → Memory
  | 0 => line
  | left + 1 => shiftDown (update line i (line (i + 1))) (i + 1) left

def deleteAt (e : Editor) (here : Nat) : Editor :=
  if here ≥ e.len then e
  else { e with line := shiftDown e.line here (e.len - here), len := e.len - 1 }

/-- `while (i < e->len && prev[i] == e->line[i]) i++`. -/
def agree (prev : Memory) (origin : Nat) (line : Memory) (i : Nat) : Nat → Nat
  | 0 => i
  | left + 1 => if prev (origin + i) = line i then agree prev origin line (i + 1) left else i

def remember (e : Editor) : Editor :=
  match e.hist with
  | none => e
  | some hist =>
    let prev := histSlot e.toHistory 1
    let i := agree hist prev e.line 0 e.len
    if e.len = 0 then e
    else if e.histCount ≠ 0 ∧ i = e.len ∧ hist (prev + i) = 0 then e
    else
      { e with
        hist := some (copyStr hist (e.histNext * lineMax) e.line 0 lineMax).1
        histNext := (e.histNext + 1) % histLines
        histCount := if e.histCount < histLines then e.histCount + 1 else e.histCount }

def browseBack (e : Editor) : Editor :=
  match e.hist with
  | none => e
  | some hist =>
    if e.browse ≥ e.histCount then e
    else
      let stash := if e.browse = 0 then (copyStr e.stash 0 e.line 0 lineMax).1 else e.stash
      let e := { e with stash := stash, browse := e.browse + 1 }
      setLine e hist (histSlot e.toHistory e.browse)

def browseForward (e : Editor) : Editor :=
  match e.hist with
  | none => e
  | some hist =>
    if e.browse = 0 then e
    else
      let e := { e with browse := e.browse - 1 }
      if e.browse ≠ 0 then setLine e hist (histSlot e.toHistory e.browse)
      else setLine e e.stash 0

def moveRight (e : Editor) : Editor :=
  if e.pos < e.len then { e with pos := skip e.line (e.pos + 1) (e.len - (e.pos + 1)) } else e

/-- `while (e->pos && utf8_cont(e->line[e->pos])) e->pos--`. -/
def retreat (line : Memory) : Nat → Nat
  | 0 => 0
  | p + 1 => if utf8Cont (line (p + 1)) then retreat line p else p + 1

def moveLeft (e : Editor) : Editor :=
  if e.pos ≠ 0 then { e with pos := retreat e.line (e.pos - 1) } else e

/-- `while (e->pos < e->len && utf8_cont(e->line[e->pos])) delete_at(e, e->pos)`. -/
def deleteRest (e : Editor) : Nat → Editor
  | 0 => e
  | left + 1 =>
    if e.pos < e.len ∧ utf8Cont (e.line e.pos) then deleteRest (deleteAt e e.pos) left else e

def deleteKey (e : Editor) : Editor :=
  let e := deleteAt e e.pos
  deleteRest e e.len

/-- The backspace's loop, from a cursor at `p`. -/
def rubOut (e : Editor) : Nat → Editor
  | 0 => e
  | p + 1 =>
    let more := utf8Cont (e.line p)
    let e := deleteAt { e with pos := p } p
    if more then rubOut e p else e

def backspace (e : Editor) : Editor := rubOut e e.pos

/-- `while (e->pos) { e->pos--; delete_at(e, e->pos); }`. -/
def killLoop (e : Editor) : Nat → Editor
  | 0 => e
  | p + 1 => killLoop (deleteAt { e with pos := p } p) p

def killBack (e : Editor) : Editor := killLoop e e.pos

structure Shows (e : Editor) (s : List Byte) : Prop where
  held : Stored.Holds 0 e.line 0 s
  len : e.len = s.length
  room : s.length ≤ room

structure Parted (e : Editor) (l r : List Byte) : Prop where
  shows : Shows e (l ++ r)
  pos : e.pos = l.length

variable {e : Editor} {s l r : List Byte}

theorem Shows.get (shows : Shows e s) {i : Nat} (inside : i < s.length) :
    s[i]? = some (e.line i) := by
  have cell := shows.held.cells i inside
  rwa [Nat.zero_add] at cell

theorem Shows.close (shows : Shows e s) : e.line s.length = 0 := by
  have closed := shows.held.close
  rwa [Nat.zero_add] at closed

theorem Shows.of_get (cells : ∀ i < s.length, s[i]? = some (e.line i)) (close : e.line s.length = 0)
    (plain : (0 : Byte) ∉ s) (len : e.len = s.length) (small : s.length ≤ Shell.room) :
    Shows e s where
  held := ⟨fun i inside => by rw [Nat.zero_add, cells i inside], by rwa [Nat.zero_add], plain⟩
  len := len
  room := small

variable {t : List Byte} {b : Byte}

theorem Shows.at_cursor (shows : Shows e (l ++ b :: t)) :
    e.line l.length = b := by
  have cell := shows.get (show l.length < (l ++ b :: t).length by simp)
  rw [List.getElem?_append_right le_rfl, Nat.sub_self] at cell
  exact (Option.some.inj cell).symm

theorem shiftUp_apply (line : Memory) (pos i j : Nat) :
    shiftUp line pos i j = if pos < j ∧ j ≤ i then line (j - 1) else line j := by
  induction i generalizing line with
  | zero =>
    rw [if_neg (by omega)]
    rfl
  | succ i ih =>
    rw [shiftUp]
    by_cases more : i + 1 > pos
    · rw [if_pos more, ih]
      by_cases top : j = i + 1
      · subst top
        rw [if_neg (by omega), if_pos (by omega), update_self, Nat.add_sub_cancel]
      · rw [update_of_ne top]
        by_cases moved : pos < j ∧ j ≤ i
        · rw [if_pos moved, if_pos (by omega), update_of_ne (by omega)]
        · rw [if_neg moved, if_neg (by omega)]
    · rw [if_neg more, if_neg (by omega)]

theorem shiftDown_apply (line : Memory) (i left j : Nat) :
    shiftDown line i left j = if i ≤ j ∧ j < i + left then line (j + 1) else line j := by
  induction left generalizing line i with
  | zero =>
    rw [if_neg (by omega)]
    rfl
  | succ left ih =>
    rw [shiftDown, ih]
    by_cases first : j = i
    · subst first
      rw [if_neg (by omega), if_pos (by omega), update_self]
    · rw [update_of_ne first]
      by_cases moved : i + 1 ≤ j ∧ j < i + 1 + left
      · rw [if_pos moved, if_pos (by omega), update_of_ne (by omega)]
      · rw [if_neg moved, if_neg (by omega)]

theorem insert_parted (parted : Parted e l r) {c : Byte} (some : c ≠ 0) :
    Parted (insert e c) (if (l ++ r).length < room then l ++ [c] else l) r := by
  obtain ⟨shows, pos⟩ := parted
  rw [insert, shows.len]
  by_cases full : (l ++ r).length < room
  · rw [if_neg (Nat.not_le.mpr full), if_pos full]
    have length : (l ++ [c] ++ r).length = (l ++ r).length + 1 := by simp; omega
    refine ⟨Shows.of_get (fun i inside => ?_) ?_ ?_ length.symm (by omega), by simp [pos]⟩
    · have before : i ≠ (l ++ r).length + 1 := by omega
      simp only [update_of_ne before]
      rw [← List.append_cons, pos]
      rcases lt_trichotomy i l.length with left | here | right
      · rw [update_of_ne (by omega), shiftUp_apply, if_neg (by omega), ← shows.get (by simp; omega),
          List.getElem?_append_left left, List.getElem?_append_left left]
      · subst here
        rw [update_self, List.getElem?_append_right le_rfl, Nat.sub_self]
        rfl
      · rw [update_of_ne (by omega), shiftUp_apply, if_pos (by omega), ← shows.get (by omega),
          List.getElem?_append_right (by omega), List.getElem?_append_right (by omega),
          show i - l.length = i - 1 - l.length + 1 by omega,
          List.getElem?_cons_succ]
    · rw [length]
      exact update_self _ _ _
    · have plain := shows.held.plain
      simp only [List.mem_append, not_or, List.mem_singleton] at plain ⊢
      exact ⟨⟨plain.1, some.symm⟩, plain.2⟩
  · rw [if_pos (Nat.not_lt.mp full), if_neg full]
    exact ⟨shows, pos⟩

theorem deleteAt_shows (shows : Shows e (l ++ b :: t)) :
    Shows (deleteAt e l.length) (l ++ t) := by
  have length : (l ++ b :: t).length = (l ++ t).length + 1 := by simp; omega
  have within : l.length ≤ (l ++ t).length := by simp
  rw [deleteAt, if_neg (by rw [shows.len]; omega)]
  have cell : ∀ j, shiftDown e.line l.length (e.len - l.length) j =
      if l.length ≤ j ∧ j < (l ++ t).length + 1 then e.line (j + 1) else e.line j := by
    intro j
    rw [shiftDown_apply]
    exact if_congr (by rw [shows.len]; omega) rfl rfl
  refine Shows.of_get (fun i inside => ?_) ?_ ?_ ?_ ?_
  · dsimp only
    rw [cell]
    by_cases left : i < l.length
    · rw [if_neg (by omega), ← shows.get (by omega), List.getElem?_append_left left,
        List.getElem?_append_left left]
    · rw [if_pos (by omega), ← shows.get (by omega), List.getElem?_append_right (by omega),
        List.getElem?_append_right (by omega), show i + 1 - l.length = i - l.length + 1 by omega,
        List.getElem?_cons_succ]
  · dsimp only
    rw [cell, if_pos (by omega), ← length]
    exact shows.close
  · have plain := shows.held.plain
    simp only [List.mem_append, not_or, List.mem_cons] at plain ⊢
    exact ⟨plain.1, plain.2.2⟩
  · change e.len - 1 = _
    rw [shows.len, length, Nat.add_sub_cancel]
  · have small := shows.room
    omega

theorem deleteAt_end (shows : Shows e s) : deleteAt e s.length = e :=
  if_pos shows.len.le

@[simp] theorem deleteAt_pos (e : Editor) (here : Nat) : (deleteAt e here).pos = e.pos := by
  rw [deleteAt]
  split <;> rfl

@[simp] theorem deleteAt_history (e : Editor) (here : Nat) :
    (deleteAt e here).toHistory = e.toHistory := by
  rw [deleteAt]
  split <;> rfl

@[simp] theorem insert_history (e : Editor) (c : Byte) : (insert e c).toHistory = e.toHistory := by
  rw [insert]
  split <;> rfl

open Glyphs (back columns place)

theorem skip_eq (shows : Shows e (l ++ t)) :
    skip e.line l.length t.length = l.length + (t.takeWhile utf8Cont).length := by
  induction t generalizing l with
  | nil => rfl
  | cons b t ih =>
    rw [List.length_cons, skip, shows.at_cursor, List.takeWhile_cons]
    split
    · rw [List.append_cons] at shows
      have later := ih shows
      rw [List.length_append, List.length_singleton] at later
      rw [later, List.length_cons]
      omega
    · rfl

theorem moveRight_parted (parted : Parted e l (b :: t)) :
    Parted (moveRight e) (l ++ b :: t.takeWhile utf8Cont) (t.dropWhile utf8Cont) := by
  obtain ⟨shows, pos⟩ := parted
  have length : e.len = l.length + 1 + t.length := by
    rw [shows.len, List.length_append, List.length_cons]
    omega
  have skipped := skip_eq (List.append_cons l b t ▸ shows)
  rw [List.length_append, List.length_singleton] at skipped
  have moved : skip e.line (e.pos + 1) (e.len - (e.pos + 1)) =
      (l ++ b :: t.takeWhile utf8Cont).length := by
    rw [pos, length, Nat.add_sub_cancel_left, skipped, List.length_append, List.length_cons]
    omega
  rw [moveRight, if_pos (by omega)]
  constructor
  · rw [List.append_assoc, List.cons_append, List.takeWhile_append_dropWhile]
    exact ⟨shows.held, shows.len, shows.room⟩
  · exact moved

theorem moveRight_end (parted : Parted e l []) : moveRight e = e := by
  have length := parted.shows.len
  rw [List.append_nil] at length
  exact if_neg (by rw [parted.pos, length]; exact lt_irrefl _)

theorem retreat_eq (shows : Shows e (l ++ b :: r)) :
    retreat e.line l.length = (back utf8Cont (l ++ [b])).length := by
  induction l using List.reverseRecOn generalizing b r with
  | nil =>
    rw [Glyphs.back_concat]
    split <;> rfl
  | append_singleton l c ih =>
    have here := shows.at_cursor
    rw [List.length_append, List.length_singleton] at here ⊢
    rw [retreat, here, Glyphs.back_concat]
    split
    · rw [← List.append_cons] at shows
      exact ih shows
    · simp

theorem moveLeft_parted (parted : Parted e l r) (some : l ≠ []) :
    Parted (moveLeft e) (back utf8Cont l) (l.drop (back utf8Cont l).length ++ r) := by
  obtain ⟨shows, pos⟩ := parted
  induction l using List.reverseRecOn with
  | nil => exact absurd rfl some
  | append_singleton l b ih =>
    have cut := List.prefix_iff_eq_append.mp (@Glyphs.back_prefix _ utf8Cont (l ++ [b]))
    rw [← List.append_cons] at shows
    rw [List.length_append, List.length_singleton] at pos
    rw [moveLeft, if_pos (by omega), pos, Nat.add_sub_cancel, retreat_eq shows]
    constructor
    · rw [← List.append_assoc, cut, ← List.append_cons]
      exact ⟨shows.held, shows.len, shows.room⟩
    · rfl

theorem moveLeft_start (parted : Parted e [] r) : moveLeft e = e :=
  if_neg (by rw [parted.pos]; exact fun wrong => wrong rfl)

theorem back_turn (shows : Shows e (l ++ b :: r)) :
    Parted (deleteAt { e with pos := l.length } l.length) l r :=
  ⟨deleteAt_shows ⟨shows.held, shows.len, shows.room⟩, deleteAt_pos _ _⟩

theorem rubOut_parted (parted : Parted e l r) :
    Parted (rubOut e l.length) (back utf8Cont l) r := by
  induction l using List.reverseRecOn generalizing e with
  | nil => exact parted
  | append_singleton l b ih =>
    have shows := parted.shows
    rw [← List.append_cons] at shows
    rw [List.length_append, List.length_singleton, rubOut, shows.at_cursor, Glyphs.back_concat]
    have turned := back_turn shows
    cases utf8Cont b with
    | true => exact ih turned
    | false => exact turned

theorem backspace_parted (parted : Parted e l r) :
    Parted (backspace e) (back utf8Cont l) r := by
  rw [backspace, parted.pos]
  exact rubOut_parted parted

theorem killBack_parted (parted : Parted e l r) : Parted (killBack e) [] r := by
  rw [killBack, parted.pos]
  induction l using List.reverseRecOn generalizing e with
  | nil => exact parted
  | append_singleton l b ih =>
    have shows := parted.shows
    rw [← List.append_cons] at shows
    rw [List.length_append, List.length_singleton, killLoop]
    exact ih (back_turn shows)

theorem deleteRest_parted (parted : Parted e l t) {left : Nat}
    (enough : t.length ≤ left) : Parted (deleteRest e left) l (t.dropWhile utf8Cont) := by
  induction left generalizing e t with
  | zero =>
    obtain rfl := List.eq_nil_of_length_eq_zero (Nat.le_zero.mp enough)
    exact parted
  | succ left ih =>
    cases t with
    | nil =>
      have length := parted.shows.len
      rw [List.append_nil] at length
      rw [deleteRest, if_neg (by rw [parted.pos, length]; exact fun both => lt_irrefl _ both.1)]
      exact parted
    | cons b t =>
      have inside : e.pos < e.len := by
        rw [parted.pos, parted.shows.len]
        simp
      rw [deleteRest, parted.pos, parted.shows.at_cursor, List.dropWhile_cons]
      rw [parted.pos] at inside
      simp only [inside, true_and]
      split
      · have deleted : Parted (deleteAt e l.length) l t :=
          ⟨deleteAt_shows parted.shows, (deleteAt_pos _ _).trans parted.pos⟩
        exact ih deleted (Nat.le_of_succ_le_succ enough)
      · exact parted

theorem deleteKey_parted (parted : Parted e l (b :: t)) :
    Parted (deleteKey e) l (t.dropWhile utf8Cont) := by
  rw [deleteKey, parted.pos]
  have deleted : Parted (deleteAt e l.length) l t :=
    ⟨deleteAt_shows parted.shows, (deleteAt_pos _ _).trans parted.pos⟩
  refine deleteRest_parted deleted ?_
  rw [deleted.shows.len, List.length_append]
  omega

theorem deleteKey_end (parted : Parted e l []) : Parted (deleteKey e) l [] := by
  have shows := parted.shows
  rw [List.append_nil] at shows
  rw [deleteKey, parted.pos, deleteAt_end shows]
  exact deleteRest_parted parted (Nat.zero_le _)

theorem setLine_parted {src : Memory} {origin : Nat} (held : Stored.Holds 0 src origin s)
    (small : s.length ≤ room) (e : Editor) : Parted (setLine e src origin) s [] := by
  obtain ⟨count, copied, -⟩ := @Stored.copy_holds _ 0 e.line src 0 origin s _ held _ small
  have short : ¬ (copyStr e.line 0 src origin lineMax).2 > room := by
    rw [copyStr]
    exact Nat.not_lt.mpr (count.trans_le small)
  rw [setLine]
  simp only [if_neg short]
  exact ⟨by rw [List.append_nil]; exact ⟨copied, count, small⟩, count⟩

theorem Shows.take (shows : Shows e s) (here : Nat) :
    s.take here = (List.range (min here e.len)).map e.line := by
  apply List.ext_getElem?
  intro i
  rw [List.getElem?_take, List.getElem?_map]
  by_cases inside : i < min here e.len
  · have cell := shows.get (i := i) (by rw [← shows.len]; omega)
    rw [if_pos (by omega), cell, List.getElem?_range inside]
    rfl
  · have outside : (List.range (min here e.len)).length ≤ i := by
      rw [List.length_range]
      omega
    rw [List.getElem?_eq_none outside]
    split
    · exact List.getElem?_eq_none (by rw [← shows.len]; omega)
    · rfl

theorem columnsTo_eq (shows : Shows e s) (here : Nat) :
    columnsTo e here = columns utf8Cont (s.take here) := by
  rw [columnsTo, shows.take, columns, List.countP_map]
  rfl

theorem columnLoop_eq (shows : Shows e (l ++ t)) (col : Nat) :
    columnLoop e col l.length = l.length + place utf8Cont col t := by
  induction col generalizing l t with
  | zero => rfl
  | succ col ih =>
    have length := shows.len
    rw [List.length_append] at length
    cases t with
    | nil => rw [columnLoop, if_neg (by simp_all), place, Nat.add_zero]
    | cons b t =>
      rw [List.length_cons] at length
      have skipped := skip_eq (List.append_cons l b t ▸ shows)
      rw [List.length_append, List.length_singleton] at skipped
      have past : Shows e ((l ++ b :: t.takeWhile utf8Cont) ++ t.dropWhile utf8Cont) := by
        rwa [List.append_assoc, List.cons_append, List.takeWhile_append_dropWhile]
      have later := ih past
      rw [List.length_append, List.length_cons] at later
      rw [columnLoop, if_pos (by omega), show e.len - (l.length + 1) = t.length by omega,
        skipped, show l.length + 1 + (t.takeWhile utf8Cont).length =
          l.length + ((t.takeWhile utf8Cont).length + 1) by omega, later, place]
      omega

theorem byteOfColumn_eq (shows : Shows e s) (col : Nat) :
    byteOfColumn e col = place utf8Cont col s := by
  have loop := columnLoop_eq (l := []) (t := s) shows col
  rwa [List.length_nil, Nat.zero_add] at loop

theorem viewWidth_pos (e : Editor) : 0 < viewWidth e := by
  rw [viewWidth]
  split <;> omega

theorem sub32_eq {a b : Nat} (le : b ≤ a) (small : a < 2 ^ 32) : sub32 a b = a - b := by
  rw [sub32, Nat.sub_add_comm le, Nat.add_mod_right, Nat.mod_eq_of_lt (by omega)]

theorem viewStart_eq (parted : Parted e l r) :
    viewStart e = Glyphs.start utf8Cont (l ++ r) l.length (viewWidth e) := by
  have shows := parted.shows
  simp only [viewStart, Glyphs.start, columnsTo_eq shows, byteOfColumn_eq shows, parted.pos]

theorem redraw_eq (parted : Parted e l r) {d : Drawn} (drawn : redraw e = some d) :
    d.start = Glyphs.start utf8Cont (l ++ r) l.length (viewWidth e) ∧
      d.start + d.shown = Glyphs.stop utf8Cont (l ++ r) l.length (viewWidth e) ∧
      d.column = e.promptLen + (columnsTo e e.pos - columnsTo e d.start) + 1 := by
  have shows := parted.shows
  have small := shows.room
  have wide := viewWidth_pos e
  have begins := viewStart_eq parted
  have ordered := @Glyphs.start_le_stop _ utf8Cont (l ++ r) l.length _ wide
  have inside := @Glyphs.stop_le _ utf8Cont (l ++ r) l.length (viewWidth e)
  have behind := @Glyphs.columns_start_le _ utf8Cont (l ++ r) l.length _ wide
  rw [redraw] at drawn
  split at drawn
  · cases drawn
  · cases drawn
    have stops : byteOfColumn e (columnsTo e (viewStart e) + viewWidth e) =
        Glyphs.stop utf8Cont (l ++ r) l.length (viewWidth e) := by
      rw [byteOfColumn_eq shows, columnsTo_eq shows, begins]
      rfl
    have cursor : columnsTo e (viewStart e) ≤ columnsTo e e.pos := by
      rwa [columnsTo_eq shows, columnsTo_eq shows, begins, parted.pos]
    have few : columnsTo e e.pos ≤ (l ++ r).length := by
      rw [columnsTo_eq shows]
      exact List.countP_le_length.trans (List.length_take_le' _ _)
    have bound : room < 2 ^ 32 := by decide
    refine ⟨begins, ?_, ?_⟩
    · dsimp only
      rw [stops, begins, sub32_eq ordered (by omega)]
      omega
    · dsimp only
      rw [sub32_eq cursor (by omega)]

/-- The cursor stands in the slice that is written, in the column of its glyph. -/
structure CursorInside (e : Editor) (d : Drawn) : Prop where
  after : d.start ≤ e.pos
  before : e.pos ≤ d.start + d.shown
  column : d.column = e.promptLen + (columnsTo e e.pos - columnsTo e d.start) + 1

/-- The cursor is near the line's beginning, or the line begins a character and the window is
more than a column wide or begins one too. -/
def Visible (e : Editor) : Prop :=
  columnsTo e e.pos < viewWidth e ∨
    ¬ (0 < e.len ∧ utf8Cont (e.line 0)) ∧
      (1 < viewWidth e ∨ ¬ (e.pos < e.len ∧ utf8Cont (e.line e.pos)))

theorem joined_at (shows : Shows e s) (i : Nat) :
    (∀ a ∈ s[i]?, utf8Cont a = false) ↔ ¬ (i < e.len ∧ utf8Cont (e.line i)) := by
  by_cases inside : i < s.length
  · rw [shows.get inside, shows.len]
    simp [inside]
  · rw [List.getElem?_eq_none (Nat.not_lt.mp inside), shows.len]
    simp [inside]

theorem cursorInside_iff (parted : Parted e l r) {d : Drawn} (drawn : redraw e = some d) :
    CursorInside e d ↔ Visible e := by
  have shows := parted.shows
  obtain ⟨begins, ends, column⟩ := redraw_eq parted drawn
  have within := @Glyphs.inside_iff _ utf8Cont (l ++ r) _ _ (viewWidth_pos e)
    (show l.length ≤ (l ++ r).length by simp)
  have led : Glyphs.Led utf8Cont (l ++ r) ↔ ¬ (0 < e.len ∧ utf8Cont (e.line 0)) := by
    rw [← joined_at shows 0, Glyphs.Led, List.head?_eq_getElem?]
  rw [← begins, ← ends, ← parted.pos, ← columnsTo_eq shows, led, joined_at shows] at within
  rw [Visible, ← within]
  exact ⟨fun inside => ⟨inside.after, inside.before⟩, fun both => ⟨both.1, both.2, column⟩⟩

/-- Every line kept is a string that fits the buffer and has the property. -/
structure Past (P : List Byte → Prop) (h : History) : Prop where
  count : h.histCount ≤ histLines
  next : h.histNext < histLines
  browse : h.browse ≤ h.histCount
  slots : ∀ hist, h.hist = some hist → ∀ k, 0 < k → k ≤ h.histCount →
    ∃ s, Stored.Holds 0 hist (histSlot h k) s ∧ s.length ≤ room ∧ P s
  stash : ∃ s, Stored.Holds 0 h.stash 0 s ∧ s.length ≤ room ∧ P s

def Kept (P : List Byte → Prop) (e : Editor) : Prop :=
  Past P e.toHistory ∧ ∃ l r, Parted e l r ∧ P l ∧ P r

variable {P : List Byte → Prop} {h : History}

theorem slots_apart {a b : Nat} (ne : a ≠ b) (len : Nat) (small : len ≤ room) :
    ∀ i ≤ room, ¬ (a * lineMax ≤ b * lineMax + i ∧ b * lineMax + i ≤ a * lineMax + len) := by
  intro i inside both
  have one : room + 1 = lineMax := rfl
  rcases Nat.lt_or_gt_of_ne ne with lt | gt
  · have step := Nat.mul_le_mul_right lineMax (show a + 1 ≤ b from lt)
    rw [Nat.succ_mul] at step
    omega
  · have step := Nat.mul_le_mul_right lineMax (show b + 1 ≤ a from gt)
    rw [Nat.succ_mul] at step
    omega

theorem slot_newest {next : Nat} (inside : next < histLines) :
    ((next + 1) % histLines + histLines - 1) % histLines = next := by
  simp only [histLines] at inside ⊢
  omega

theorem slot_older {next k : Nat} (inside : next < histLines) (more : 1 < k) (few : k ≤ histLines) :
    ((next + 1) % histLines + histLines - k) % histLines = (next + histLines - (k - 1)) % histLines ∧
      next ≠ (next + histLines - (k - 1)) % histLines := by
  simp only [histLines] at inside few ⊢
  omega

theorem remember_past (past : Past P e.toHistory) (shows : Shows e s) (property : P s) :
    Past P (remember e).toHistory ∧ (remember e).browse = e.browse := by
  rw [remember]
  split
  · exact ⟨past, rfl⟩
  · next hist has =>
      dsimp only
      split
      · exact ⟨past, rfl⟩
      split
      · exact ⟨past, rfl⟩
      obtain ⟨-, stored, frame⟩ := @Stored.copy_holds _ 0 hist e.line (e.histNext * lineMax) 0 s _
        shows.held (lineMax - 1) shows.room
      have next := past.next
      have count := past.count
      have browse := past.browse
      refine ⟨⟨?_, Nat.mod_lt _ (by decide), ?_, ?_, past.stash⟩, rfl⟩
      · dsimp only
        split <;> omega
      · dsimp only
        split <;> omega
      · intro kept same k positive within
        cases same
        dsimp only at within
        have few : k ≤ histLines := within.trans (by split <;> omega)
        by_cases newest : k = 1
        · subst newest
          refine ⟨s, ?_, shows.room, property⟩
          rw [histSlot, slot_newest next]
          exact stored
        · obtain ⟨slot, other⟩ := slot_older next (show 1 < k by omega) few
          have older : k - 1 ≤ e.histCount := by
            split at within <;> omega
          obtain ⟨t, held, small, good⟩ := past.slots hist has (k - 1) (by omega) older
          refine ⟨t, held.congr fun i inside => ?_, small, good⟩
          rw [histSlot, slot]
          exact frame _ (slots_apart other s.length shows.room i (inside.trans small))

@[simp] theorem setLine_history (e : Editor) (src : Memory) (origin : Nat) :
    (setLine e src origin).toHistory = e.toHistory := by
  rw [setLine]
  split <;> rfl

theorem shown_kept (none : P []) (past : Past P e.toHistory) {src : Memory} {origin : Nat}
    (held : ∃ s, Stored.Holds 0 src origin s ∧ s.length ≤ room ∧ P s) :
    Kept P (setLine e src origin) := by
  obtain ⟨s, held, small, good⟩ := held
  exact ⟨(setLine_history e src origin).symm ▸ past, s, [], setLine_parted held small e, good, none⟩

theorem browseBack_kept (joined : ∀ l r, P l → P r → P (l ++ r)) (none : P []) (kept : Kept P e) :
    Kept P (browseBack e) := by
  have whole := kept
  obtain ⟨past, l, r, ⟨shows, -⟩, left, right⟩ := kept
  rw [browseBack]
  split
  · exact whole
  · next hist has =>
      split
      · exact whole
      · next more =>
          have stashed : ∃ s, Stored.Holds 0 (if e.browse = 0 then
              (copyStr e.stash 0 e.line 0 lineMax).1 else e.stash) 0 s ∧ s.length ≤ room ∧ P s := by
            split
            · obtain ⟨-, stored, -⟩ := @Stored.copy_holds _ 0 e.stash e.line 0 0 (l ++ r) _ shows.held
                (lineMax - 1) shows.room
              exact ⟨l ++ r, stored, shows.room, joined l r left right⟩
            · exact past.stash
          have further : e.browse + 1 ≤ e.histCount := Nat.lt_of_not_ge more
          have later : Past P { e.toHistory with
              stash := if e.browse = 0 then (copyStr e.stash 0 e.line 0 lineMax).1 else e.stash
              browse := e.browse + 1 } :=
            ⟨past.count, past.next, further, past.slots, stashed⟩
          exact shown_kept none later (past.slots hist has (e.browse + 1) (Nat.succ_pos _) further)

theorem browseForward_kept (none : P []) (kept : Kept P e) : Kept P (browseForward e) := by
  have past := kept.1
  have behind := past.browse
  rw [browseForward]
  split
  · exact kept
  · next hist has =>
      split
      · exact kept
      · have earlier : Past P { e.toHistory with browse := e.browse - 1 } :=
          ⟨past.count, past.next, Nat.le_trans (Nat.sub_le _ _) behind, past.slots, past.stash⟩
        dsimp only
        split
        · next some =>
            exact shown_kept none earlier
              (past.slots hist has (e.browse - 1) (Nat.pos_of_ne_zero some) earlier.browse)
        · exact shown_kept none earlier past.stash

end Ubiqos.Shell
