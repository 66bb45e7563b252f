import Ubiqos.Shell.Line
import Mathlib.Data.List.Infix

/-!
The shell's loop, `module_main` of `src/modules/sh/sh.c`, byte by byte: keys, escape sequences,
completion and the end of a line. The line stays inside its buffer on every stream. Its text stays
whole characters as long as a character comes outside an escape sequence and fits, and what
completion puts in is whole characters too.
-/

namespace Ubiqos.Shell

open Function
open Glyphs (Whole Shaped back)

structure Modinfo where
  type : Nat
  name : List Byte

def typeData : Nat := 3
def nameLen : Nat := 16

structure Around where
  modules : List Modinfo
  /-- The names in a directory as `ubiqos_pretty_name` writes them. -/
  listing : List Byte → List (List Byte)
  ran : Memory → Memory
  cwd : Memory

def wordStart (line : Memory) : Nat → Nat
  | 0 => 0
  | i + 1 => if line i ≠ 0x20 then wordStart line i else i + 1

def firstWord (e : Editor) (start : Nat) : Bool := (List.range start).all fun i => e.line i == 0x20

def cstr (bytes : List Byte) : List Byte := bytes.takeWhile (· ≠ 0)

def lastCut : List Byte → Nat → Nat → Nat
  | [], _, cut => cut
  | c :: rest, n, cut => lastCut rest (n + 1) (if c = 0x2f then n + 1 else cut)

def splitPath (word : List Byte) (dirMax : Nat) : List Byte × List Byte :=
  let cut := lastCut word 0 0
  if cut = 0 then ([0x2e], word)
  else
    let keep := if cut > 1 then cut - 1 else 1
    let keep := if keep ≥ dirMax then dirMax - 1 else keep
    (word.take keep, word.drop cut)

def common : List Byte → List Byte → Nat
  | a :: as, b :: bs => if a = b then common as bs + 1 else 0
  | _, _ => 0

def lookUp (w : Around) (e : Editor) : List Byte × List (List Byte) :=
  let start := wordStart e.line e.pos
  let frag := cstr ((List.range (e.pos - start)).map fun i => e.line (start + i))
  if firstWord e start then
    let programs := w.modules.filter fun m => m.type ≠ typeData
    (frag, programs.map fun m => cstr (m.name.take (nameLen - 1)))
  else
    let (dir, leaf) := splitPath frag 128
    (leaf, (w.listing dir).map cstr)

def consider (leaf : List Byte) (found : List Byte × Nat) (name : List Byte) : List Byte × Nat :=
  if leaf.isPrefixOf name then
    if found.2 = 0 then (name, 1) else (found.1.take (common found.1 name), found.2 + 1)
  else found

def insertStr (e : Editor) (s : List Byte) : Editor := s.foldl insert e

def complete (w : Around) (e : Editor) : Editor :=
  let (leaf, names) := lookUp w e
  let (best, hits) := names.foldl (consider leaf) ([], 0)
  if hits = 0 then e
  else if best.length > leaf.length then
    let e := insertStr e (best.drop leaf.length)
    if hits = 1 then insertStr e [0x20] else e
  -- The choices are printed above the line.
  else e

inductive Mode where
  | text
  | esc
  | csi
  deriving DecidableEq

structure Loop where
  editor : Editor
  state : Mode
  csiNum : Nat
  csiFirst : Nat
  csiCount : Nat

def setWidth (e : Editor) (width : Nat) : Editor :=
  if 20 ≤ width ∧ width ≤ 400 ∧ width ≠ e.width then { e with width := width } else e

def csiKey (s : Loop) (ch : Byte) : Editor :=
  let e := s.editor
  if ch = 0x41 then browseBack e
  else if ch = 0x42 then browseForward e
  else if ch = 0x43 then moveRight e
  else if ch = 0x44 then moveLeft e
  else if ch = 0x52 then setWidth e s.csiNum
  else if ch = 0x74 then if s.csiFirst = 8 ∧ s.csiCount = 2 then setWidth e s.csiNum else e
  else if ch = 0x48 then { e with pos := 0 }
  else if ch = 0x46 then { e with pos := e.len }
  else if ch = 0x7e then
    if s.csiNum = 3 then deleteKey e
    else if s.csiNum = 1 ∨ s.csiNum = 7 then { e with pos := 0 }
    else if s.csiNum = 4 ∨ s.csiNum = 8 then { e with pos := e.len }
    else e
  else e

/-- `e->len = e->pos = e->browse = 0; e->line[0] = 0`. -/
def abandon (e : Editor) : Editor :=
  { e with len := 0, pos := 0, browse := 0, line := update e.line 0 0 }

def enter (w : Around) (e : Editor) : Editor :=
  let e := { e with line := update e.line e.len 0 }
  let e :=
    if e.len ≠ 0 then
      let e := remember e
      { e with line := w.ran e.line }
    else e
  buildPrompt (abandon e) w.cwd

def textKey (w : Around) (e : Editor) (ch : Byte) : Editor :=
  if ch = 0x0d ∨ ch = 0x0a then enter w e
  else if ch = 3 then abandon e
  else if ch = 9 then complete w e
  else if ch = 1 then { e with pos := 0 }
  else if ch = 5 then { e with pos := e.len }
  else if ch = 21 then if e.pos ≠ 0 then killBack e else e
  else if ch = 12 then e
  else if ch = 8 ∨ ch = 127 then if e.pos ≠ 0 then backspace e else e
  else if 0x20 ≤ ch ∧ ch < 0x7f then insert e ch
  else if 0x80 ≤ ch then insert e ch
  else e

def key (w : Around) (s : Loop) (ch : Byte) : Option Loop :=
  match s.state with
  | .esc =>
    some { s with
      state := if ch = 0x5b then .csi else .text
      csiNum := 0
      csiFirst := 0
      csiCount := 0 }
  | .csi =>
    if 0x30 ≤ ch ∧ ch ≤ 0x39 then
      some { s with csiNum := (s.csiNum * 10 + (ch.toNat - 0x30)) % 2 ^ 32 }
    else if ch = 0x3b then
      some { s with
        csiFirst := if s.csiCount = 0 then s.csiNum else s.csiFirst
        csiCount := (s.csiCount + 1) % 2 ^ 32
        csiNum := 0 }
    else some { s with state := .text, editor := csiKey s ch }
  | .text =>
    if ch = 4 then if s.editor.len ≠ 0 then some s else none
    else if ch = 0x1b then some { s with state := .esc }
    else some { s with editor := textKey w s.editor ch }

def start (raw : Editor) (hist : Option Memory) (width : Nat) (cwd : Memory) : Loop where
  editor := buildPrompt { raw with
    len := 0
    pos := 0
    line := update raw.line 0 0
    stash := update raw.stash 0 0
    histCount := 0
    histNext := 0
    browse := 0
    hist := hist
    width := width } cwd
  state := .text
  csiNum := 0
  csiFirst := 0
  csiCount := 0

def run (s : Loop) (stream : List (Around × Byte)) : Option Loop :=
  stream.foldlM (fun s b => key b.1 s b.2) s

structure Glyphic (P : List Byte → Prop) : Prop where
  nil : P []
  append : ∀ l r, P l → P r → P (l ++ r)
  ascii : ∀ b < 0x80, P [b]
  back : ∀ l, P l → l ≠ [] → P (back utf8Cont l) ∧ P (l.drop (back utf8Cont l).length)
  front : ∀ b t, P (b :: t) → P (b :: t.takeWhile utf8Cont) ∧ P (t.dropWhile utf8Cont)

theorem glyphic_any : Glyphic fun _ => True :=
  ⟨trivial, fun _ _ _ _ => trivial, fun _ _ => trivial, fun _ _ _ => ⟨trivial, trivial⟩,
    fun _ _ _ => ⟨trivial, trivial⟩⟩

variable {P : List Byte → Prop} {e : Editor} {w : Around} {s s' : Loop}

theorem rubOut_history (p : Nat) (e : Editor) : (rubOut e p).toHistory = e.toHistory := by
  induction p generalizing e with
  | zero => rfl
  | succ p ih =>
    rw [rubOut]
    split
    · rw [ih, deleteAt_history]
    · rw [deleteAt_history]

theorem killLoop_history (p : Nat) (e : Editor) : (killLoop e p).toHistory = e.toHistory := by
  induction p generalizing e with
  | zero => rfl
  | succ p ih => rw [killLoop, ih, deleteAt_history]

theorem deleteRest_history (left : Nat) (e : Editor) :
    (deleteRest e left).toHistory = e.toHistory := by
  induction left generalizing e with
  | zero => rfl
  | succ left ih =>
    rw [deleteRest]
    split
    · rw [ih, deleteAt_history]
    · rfl

theorem Kept.home (glyphic : Glyphic P) (kept : Kept P e) : Kept P { e with pos := 0 } := by
  obtain ⟨past, l, r, parted, left, right⟩ := kept
  have shows := parted.shows
  exact ⟨past, [], l ++ r, ⟨⟨shows.held, shows.len, shows.room⟩, rfl⟩, glyphic.nil,
    glyphic.append l r left right⟩

theorem Kept.last (glyphic : Glyphic P) (kept : Kept P e) : Kept P { e with pos := e.len } := by
  obtain ⟨past, l, r, parted, left, right⟩ := kept
  have shows := parted.shows
  refine ⟨past, l ++ r, [], ⟨?_, shows.len⟩, glyphic.append l r left right, glyphic.nil⟩
  rw [List.append_nil]
  exact ⟨shows.held, shows.len, shows.room⟩

theorem Kept.setWidth (kept : Kept P e) (width : Nat) : Kept P (setWidth e width) := by
  rw [Shell.setWidth]
  split
  · obtain ⟨past, l, r, ⟨shows, pos⟩, left, right⟩ := kept
    exact ⟨past, l, r, ⟨⟨shows.held, shows.len, shows.room⟩, pos⟩, left, right⟩
  · exact kept

theorem Kept.moveRight (glyphic : Glyphic P) (kept : Kept P e) : Kept P (moveRight e) := by
  have past := kept.1
  obtain ⟨-, l, r, parted, left, right⟩ := kept
  cases r with
  | nil =>
    rw [moveRight_end parted]
    exact ⟨past, l, [], parted, left, right⟩
  | cons b t =>
    obtain ⟨first, rest⟩ := glyphic.front b t right
    refine ⟨?_, _, _, moveRight_parted parted, glyphic.append _ _ left first, rest⟩
    rw [Shell.moveRight]
    split <;> exact past

theorem Kept.moveLeft (glyphic : Glyphic P) (kept : Kept P e) : Kept P (moveLeft e) := by
  have past := kept.1
  obtain ⟨-, l, r, parted, left, right⟩ := kept
  by_cases some : l = []
  · subst some
    rw [moveLeft_start parted]
    exact ⟨past, [], r, parted, left, right⟩
  · obtain ⟨first, rest⟩ := glyphic.back l left some
    refine ⟨?_, _, _, moveLeft_parted parted some, first, glyphic.append _ _ rest right⟩
    rw [Shell.moveLeft]
    split <;> exact past

theorem Kept.deleteKey (glyphic : Glyphic P) (kept : Kept P e) : Kept P (deleteKey e) := by
  have same : (Shell.deleteKey e).toHistory = e.toHistory := by
    rw [Shell.deleteKey, deleteRest_history, deleteAt_history]
  obtain ⟨past, l, r, parted, left, right⟩ := kept
  refine ⟨same ▸ past, ?_⟩
  cases r with
  | nil => exact ⟨l, [], deleteKey_end parted, left, right⟩
  | cons b t => exact ⟨l, _, deleteKey_parted parted, left, (glyphic.front b t right).2⟩

theorem Kept.backspace (glyphic : Glyphic P) (kept : Kept P e) : Kept P (backspace e) := by
  obtain ⟨past, l, r, parted, left, right⟩ := kept
  have same : (Shell.backspace e).toHistory = e.toHistory := rubOut_history e.pos e
  refine ⟨same ▸ past, _, r, backspace_parted parted, ?_, right⟩
  by_cases some : l = []
  · subst some
    exact left
  · exact (glyphic.back l left some).1

theorem Kept.killBack (glyphic : Glyphic P) (kept : Kept P e) : Kept P (killBack e) := by
  obtain ⟨past, l, r, parted, -, right⟩ := kept
  have same : (Shell.killBack e).toHistory = e.toHistory := killLoop_history e.pos e
  exact ⟨same ▸ past, [], r, killBack_parted parted, glyphic.nil, right⟩

theorem Kept.insert {b : Byte} (glyphic : Glyphic P) (kept : Kept P e) (some : b ≠ 0) (one : P [b]) :
    Kept P (insert e b) := by
  obtain ⟨past, l, r, parted, left, right⟩ := kept
  refine ⟨(insert_history e b).symm ▸ past, _, r, insert_parted parted some, ?_, right⟩
  split
  · exact glyphic.append l [b] left one
  · exact left

theorem Kept.abandon (glyphic : Glyphic P) (past : Past P e.toHistory) : Kept P (abandon e) := by
  refine ⟨⟨past.count, past.next, Nat.zero_le _, past.slots, past.stash⟩, [], [], ⟨⟨?_, rfl, ?_⟩, rfl⟩,
    glyphic.nil, glyphic.nil⟩
  · exact Stored.Holds.nil (update_self 0 0 e.line)
  · exact Nat.zero_le _

theorem Kept.buildPrompt (kept : Kept P e) (cwd : Memory) : Kept P (buildPrompt e cwd) := by
  obtain ⟨past, l, r, ⟨shows, pos⟩, left, right⟩ := kept
  exact ⟨past, l, r, ⟨⟨shows.held, shows.len, shows.room⟩, pos⟩, left, right⟩

theorem Kept.enter (glyphic : Glyphic P) (kept : Kept P e) (w : Around) : Kept P (enter w e) := by
  obtain ⟨past, l, r, parted, left, right⟩ := kept
  have shows := parted.shows
  have ended : update e.line e.len 0 = e.line := by
    rw [update_eq_self_iff, shows.len]
    exact shows.close.symm
  rw [Shell.enter]
  simp only [ended]
  refine Kept.buildPrompt (Kept.abandon glyphic ?_) _
  split
  · exact (remember_past past shows (glyphic.append l r left right)).1
  · exact past

theorem Kept.ite {c : Prop} [Decidable c] {a b : Editor} (yes : Kept P a) (no : Kept P b) :
    Kept P (if c then a else b) := by
  split
  · exact yes
  · exact no

theorem csiKey_kept (glyphic : Glyphic P) (kept : Kept P s.editor) (ch : Byte) :
    Kept P (csiKey s ch) := by
  rw [csiKey]
  refine Kept.ite (browseBack_kept glyphic.append glyphic.nil kept) ?_
  refine Kept.ite (browseForward_kept glyphic.nil kept) ?_
  refine Kept.ite (kept.moveRight glyphic) (Kept.ite (kept.moveLeft glyphic) ?_)
  refine Kept.ite (kept.setWidth _) (Kept.ite (Kept.ite (kept.setWidth _) kept) ?_)
  refine Kept.ite (kept.home glyphic) (Kept.ite (kept.last glyphic) (Kept.ite ?_ kept))
  refine Kept.ite (kept.deleteKey glyphic) ?_
  exact Kept.ite (kept.home glyphic) (Kept.ite (kept.last glyphic) kept)

theorem textKey_kept (glyphic : Glyphic P) (kept : Kept P e) {ch : Byte}
    (high : 0x80 ≤ ch → Kept P (insert e ch)) (tab : ch = 9 → Kept P (complete w e)) :
    Kept P (textKey w e ch) := by
  rw [textKey]
  split
  · exact kept.enter glyphic w
  split
  · exact Kept.abandon glyphic kept.1
  split
  · next pressed => exact tab pressed
  split
  · exact kept.home glyphic
  split
  · exact kept.last glyphic
  split
  · split
    · exact kept.killBack glyphic
    · exact kept
  split
  · exact kept
  split
  · split
    · exact kept.backspace glyphic
    · exact kept
  split
  · next printable =>
      have some : ch ≠ 0 := by
        rintro rfl
        exact absurd printable.1 (by decide)
      have low : ch < 0x80 := UInt8.lt_trans printable.2 (by decide)
      exact kept.insert glyphic some (glyphic.ascii ch low)
  split
  · next above => exact high above
  · exact kept

theorem key_kept (glyphic : Glyphic P) (kept : Kept P s.editor) {ch : Byte}
    (high : s.state = .text → 0x80 ≤ ch → Kept P (insert s.editor ch))
    (tab : s.state = .text → ch = 9 → Kept P (complete w s.editor)) (stepped : key w s ch = some s') :
    Kept P s'.editor := by
  rw [key] at stepped
  split at stepped
  · cases stepped
    exact kept
  · split at stepped
    · cases stepped
      exact kept
    split at stepped
    · cases stepped
      exact kept
    · cases stepped
      exact csiKey_kept glyphic kept ch
  · next text =>
      split at stepped
      · split at stepped
        · cases stepped
          exact kept
        · cases stepped
      split at stepped
      · cases stepped
        exact kept
      · cases stepped
        exact textKey_kept glyphic kept (high text) (tab text)

theorem insertStr_history (bs : List Byte) (e : Editor) :
    (insertStr e bs).toHistory = e.toHistory := by
  induction bs generalizing e with
  | nil => rfl
  | cons b bs ih => exact (ih (insert e b)).trans (insert_history e b)

theorem insertStr_parted {l r bs : List Byte} (parted : Parted e l r) (plain : (0 : Byte) ∉ bs) :
    Parted (insertStr e bs) (l ++ bs.take (room - (l ++ r).length)) r := by
  induction bs generalizing e l with
  | nil =>
    rw [List.take_nil, List.append_nil]
    exact parted
  | cons b bs ih =>
    rw [List.mem_cons, not_or] at plain
    have first := insert_parted parted (Ne.symm plain.1)
    have later := ih first plain.2
    have length : (l ++ [b] ++ r).length = (l ++ r).length + 1 := by simp; omega
    split at later
    · next more =>
        rw [length, List.append_assoc, List.singleton_append, ← List.take_succ_cons] at later
        rwa [show room - (l ++ r).length = room - ((l ++ r).length + 1) + 1 by omega]
    · next full =>
        rw [Nat.sub_eq_zero_of_le (Nat.not_lt.mp full), List.take_zero] at later ⊢
        exact later

def Longest (names : List (List Byte)) (p : List Byte) : Prop :=
  ∀ q, (∀ name ∈ names, q <+: name) ↔ q <+: p

theorem prefix_common (a b q : List Byte) : q <+: a ∧ q <+: b ↔ q <+: a.take (common a b) := by
  induction a generalizing b q with
  | nil =>
    rw [List.take_nil, List.prefix_nil]
    exact ⟨And.left, fun none => ⟨none, none ▸ List.nil_prefix⟩⟩
  | cons x a ih =>
    cases q with
    | nil => simp
    | cons y q =>
      cases b with
      | nil => simp [common]
      | cons z b =>
        by_cases same : x = z
        · subst same
          rw [common, if_pos rfl, List.take_succ_cons, List.cons_prefix_cons,
            List.cons_prefix_cons, List.cons_prefix_cons, ← ih]
          exact ⟨fun both => ⟨both.1.1, both.1.2, both.2.2⟩,
            fun both => ⟨⟨both.1, both.2.1⟩, both.1, both.2.2⟩⟩
        · rw [common, if_neg same, List.take_zero, List.cons_prefix_cons,
            List.cons_prefix_cons, List.prefix_nil]
          exact iff_of_false (fun both => same (both.1.1.symm.trans both.2.1))
            (List.cons_ne_nil y q)

theorem consider_all (leaf : List Byte) (names : List (List Byte)) :
    let found := names.foldl (consider leaf) ([], 0)
    let hits := names.filter fun name => leaf.isPrefixOf name
    found.2 = hits.length ∧ (hits ≠ [] → Longest hits found.1) := by
  induction names using List.reverseRecOn with
  | nil => exact ⟨rfl, fun some => absurd rfl some⟩
  | append_singleton names name ih =>
    simp only [List.foldl_append, List.foldl_cons, List.foldl_nil, List.filter_append] at ih ⊢
    obtain ⟨count, longest⟩ := ih
    rw [consider, List.filter_singleton]
    by_cases hit : leaf.isPrefixOf name = true
    · rw [if_pos hit, hit, cond_true, count]
      by_cases first : (names.filter fun name => leaf.isPrefixOf name) = []
      · simp [first, Longest]
      · rw [if_neg (by simpa using first)]
        refine ⟨by simp, fun _ q => ?_⟩
        rw [← prefix_common, ← longest first q]
        simp [or_imp, forall_and]
    · rw [if_neg hit]
      simp only [Bool.not_eq_true] at hit
      rw [hit, cond_false, List.append_nil]
      exact ⟨count, longest⟩

def hits (w : Around) (e : Editor) : List (List Byte) :=
  (lookUp w e).2.filter fun name => (lookUp w e).1.isPrefixOf name

theorem lookUp_plain (w : Around) (e : Editor) : ∀ name ∈ (lookUp w e).2, (0 : Byte) ∉ name := by
  have cut : ∀ bytes : List Byte, (0 : Byte) ∉ cstr bytes := by
    intro bytes member
    simpa using List.mem_takeWhile_imp member
  intro name member
  rw [lookUp] at member
  dsimp only at member
  split at member
  all_goals
    obtain ⟨raw, -, rfl⟩ := List.mem_map.mp member
    exact cut _

theorem complete_kept (glyphic : Glyphic P) (kept : Kept P e)
    (whole : ∀ p, Longest (hits w e) p →
      P ((p.drop (lookUp w e).1.length).take (room - e.len))) : Kept P (complete w e) := by
  obtain ⟨count, longest⟩ := consider_all (lookUp w e).1 (lookUp w e).2
  have same := kept
  obtain ⟨past, l, r, parted, left, right⟩ := kept
  rw [complete]
  generalize found : (lookUp w e).2.foldl (consider (lookUp w e).1) ([], 0) = best at count longest
  simp only [found]
  split
  · exact same
  split
  · next some longer =>
      have agreed : Longest (hits w e) best.1 := longest fun none => some (by rw [count, none]; rfl)
      have plain : (0 : Byte) ∉ best.1.drop (lookUp w e).1.length := by
        intro member
        obtain ⟨name, hit⟩ := List.exists_mem_of_ne_nil _
          (show hits w e ≠ [] from fun none => some (by rw [count, ← hits, none]; rfl))
        have begins := (agreed best.1).mpr (List.prefix_refl _) name hit
        exact lookUp_plain w e name (List.mem_of_mem_filter hit)
          (begins.subset (List.mem_of_mem_drop member))
      have inserted : Kept P (insertStr e (best.1.drop (lookUp w e).1.length)) := by
        refine ⟨(insertStr_history _ e).symm ▸ past, _, r, insertStr_parted parted plain, ?_, right⟩
        rw [← parted.shows.len]
        exact glyphic.append _ _ left (whole best.1 agreed)
      split
      · exact inserted.insert glyphic (by decide) (glyphic.ascii 0x20 (by decide))
      · exact inserted
  · exact same

end Ubiqos.Shell
