import Ubiqos.Video.Chargen
import Ubiqos.Lib.Cyclic
import Ubiqos.Lib.Along

/-!
The cells of `kernel/chargen.c` as a ring of rows, the rows that fall out of it into the bulk memory,
and the view of both; beside them everything the screen has shown, one row below the other.
-/

namespace Ubiqos.Video

open Function Rolling Machine

/-- `UBIQOS_CELL_ROWS`. -/
def cellRows : Nat := 30
/-- `UBIQOS_CELL_RING`. -/
def cellRing : Nat := 256
/-- `MAX_BACK`. -/
def maxBack : Nat := 226
/-- `DEEP_ROWS`. -/
def deepRows : Nat := 4096

abbrev Row := Fin (cellCols hActive) → Cell

def blankRow (attr : BitVec 8) : Row := fun _ => ⟨0, attr⟩

structure Scrollback where
  cells : Nat → Row
  rowOrigin : Nat
  viewBack : Nat
  history : Nat
  deep : Option (Nat → Row)
  deepHead : Nat
  deepCount : Nat
  viewBuf : Nat → Row
  viewDeep : Bool

namespace Scrollback

/-- `ubiqos_chargen_init`. -/
def init (attr : BitVec 8) (deep : Option (Nat → Row)) (viewBuf : Nat → Row) : Scrollback :=
  ⟨fun _ => blankRow attr, 0, 0, 0, deep, 0, 0, viewBuf, false⟩

/-- A row of the live screen, as `cell_at` finds it, is made another. -/
def change (s : Scrollback) (row : Nat) (f : Row → Row) : Scrollback :=
  let r := (s.rowOrigin + row) % cellRing
  { s with cells := update s.cells r (f (s.cells r)) }

def setCell (col : Nat) (c : Cell) (row : Row) : Row := fun i => if i.val = col then c else row i

def setBlank (from' to' : Nat) (attr : BitVec 8) (row : Row) : Row := fun i =>
  if from' ≤ i.val ∧ i.val ≤ to' then ⟨BitVec.ofNat 8 cellBlank, attr⟩ else row i

def put (s : Scrollback) (row col : Nat) (glyph attr : BitVec 8) : Scrollback :=
  if cellRows ≤ row ∨ cellCols hActive ≤ col then s else s.change row (setCell col ⟨glyph, attr⟩)

/-- `row` may be the one just below the screen. -/
def fill (s : Scrollback) (row from' to' : Nat) (attr : BitVec 8) : Scrollback :=
  if cellRows < row ∨ to' < from' then s else s.change row (setBlank from' to' attr)

def clear (s : Scrollback) (attr : BitVec 8) : Scrollback :=
  (List.range cellRows).foldl (fun s r => s.fill r 0 (cellCols hActive - 1) attr) s

def viewAt (s : Scrollback) (row : Nat) : Row :=
  if s.viewDeep then s.viewBuf row else s.cells ((s.rowOrigin + cellRing - s.viewBack + row) % cellRing)

def rowBack (s : Scrollback) (back : Nat) : Row :=
  if back ≤ s.history then s.cells ((s.rowOrigin + cellRing - back) % cellRing)
  else
    let d := back - s.history
    let j := s.deepCount - d
    let slot := (s.deepHead + deepRows - s.deepCount + j) % deepRows
    (s.deep.getD s.cells) slot

def viewRebuild (s : Scrollback) : Scrollback :=
  if s.viewBack ≤ s.history then { s with viewDeep := false }
  else { s with
    viewBuf := fun r => if r < cellRows then s.rowBack (s.viewBack - r) else s.viewBuf r
    viewDeep := true }

/-- `ubiqos_chargen_history`: how far back there is to go. -/
def depth (s : Scrollback) : Nat := (if s.history < maxBack then s.history else maxBack) + s.deepCount

def viewMove (s : Scrollback) (rows : BitVec 32) : Scrollback :=
  let back := (BitVec.ofNat 32 s.viewBack - rows).toInt
  let cap : Int := s.depth
  let back := if back < 0 then 0 else back
  let back := if cap < back then cap else back
  viewRebuild { s with viewBack := back.toNat }

def viewEnd (s : Scrollback) : Scrollback := { s with viewBack := 0, viewDeep := false }

def viewHome (s : Scrollback) : Scrollback := viewRebuild { s with viewBack := s.depth }

def keep (s : Scrollback) : Scrollback :=
  match s.deep with
  | some deep =>
    if maxBack ≤ s.history then { s with
      deep := some (update deep s.deepHead (s.cells ((s.rowOrigin + cellRows) % cellRing)))
      deepHead := (s.deepHead + 1) % deepRows
      deepCount := if s.deepCount < deepRows then s.deepCount + 1 else s.deepCount }
    else s
  | none => s

def follow (s : Scrollback) : Scrollback :=
  if s.viewBack ≠ 0 then
    let s := if s.viewBack < s.depth then { s with viewBack := s.viewBack + 1 } else s
    if s.viewDeep ∨ s.history < s.viewBack then viewRebuild s else s
  else s

def scroll (s : Scrollback) (attr : BitVec 8) : Scrollback :=
  let s := s.keep.fill cellRows 0 (cellCols hActive - 1) attr
  let s := { s with rowOrigin := (s.rowOrigin + 1) % cellRing }
  let s := { s with history := if s.history < maxBack then s.history + 1 else s.history }
  s.follow

end Scrollback

/-- All rows there have been, and which of them is the first of the screen. -/
structure Transcript where
  rows : Nat → Row
  top : Nat

namespace Transcript

def init (attr : BitVec 8) : Transcript := ⟨fun _ => blankRow attr, 0⟩

def change (t : Transcript) (row : Nat) (f : Row → Row) : Transcript :=
  { t with rows := update t.rows (t.top + row) (f (t.rows (t.top + row))) }

end Transcript

inductive Op
  | put (row col : Nat) (glyph attr : BitVec 8)
  | fill (row from' to' : Nat) (attr : BitVec 8)
  | clear (attr : BitVec 8)
  | scroll (attr : BitVec 8)
  | viewMove (rows : BitVec 32)
  | viewHome
  | viewEnd

def Scrollback.step (s : Scrollback) : Op → Scrollback
  | .put row col glyph attr => s.put row col glyph attr
  | .fill row from' to' attr => s.fill row from' to' attr
  | .clear attr => s.clear attr
  | .scroll attr => s.scroll attr
  | .viewMove rows => s.viewMove rows
  | .viewHome => s.viewHome
  | .viewEnd => s.viewEnd

def Transcript.step (t : Transcript) : Op → Transcript
  | .put row col glyph attr =>
    if row < cellRows ∧ col < cellCols hActive then t.change row (Scrollback.setCell col ⟨glyph, attr⟩) else t
  | .fill row from' to' attr =>
    if row < cellRows ∧ from' ≤ to' then t.change row (Scrollback.setBlank from' to' attr) else t
  | .clear attr => (List.range cellRows).foldl (fun t r => t.change r fun _ => blankRow attr) t
  | .scroll attr => { rows := update t.rows (t.top + cellRows) (blankRow attr), top := t.top + 1 }
  | .viewMove _ | .viewHome | .viewEnd => t

def capacity (s : Scrollback) : Nat := if s.deep.isSome then maxBack + deepRows else maxBack

structure Stored (s : Scrollback) (t : Transcript) : Prop where
  origin : s.rowOrigin = t.top % cellRing
  history : s.history = min t.top maxBack
  ring : Stands cellRing s.cells t.rows (t.top - maxBack) (t.top + cellRows)
  count : s.deepCount = if s.deep.isSome then min (t.top - maxBack) deepRows else 0
  head : s.deepHead = if s.deep.isSome then (t.top - maxBack) % deepRows else 0
  deep : ∀ d, s.deep = some d → Stands deepRows d t.rows (t.top - maxBack - deepRows) (t.top - maxBack)

structure Shows (s : Scrollback) (t : Transcript) : Prop where
  stored : Stored s t
  back : s.viewBack ≤ s.depth
  viewDeep : s.viewDeep = decide (s.history < s.viewBack)
  view : s.viewDeep = true → ∀ r < cellRows, s.viewBuf r = t.rows (t.top + r - s.viewBack)

section Rows
variable {s : Scrollback} {t : Transcript}

theorem Stored.depth (stored : Stored s t) : s.depth = min t.top (capacity s) := by
  have history := stored.history
  have count := stored.count
  unfold Scrollback.depth capacity
  unfold maxBack deepRows at *
  split at count
  · rename_i some
    rw [if_pos some]
    split
    · omega
    · omega
  · rename_i none
    rw [if_neg none]
    split
    · omega
    · omega

theorem rowBack_stored (stored : Stored s t) {back : Nat} (some : 0 < back) (within : back ≤ s.depth) :
    s.rowBack back = t.rows (t.top - back) := by
  have depth := stored.depth
  have history := stored.history
  have count := stored.count
  have head := stored.head
  have origin := stored.origin
  unfold Scrollback.rowBack
  split
  · have place : (s.rowOrigin + cellRing - back) % cellRing = (t.top - back) % cellRing := by
      unfold cellRing maxBack at *
      omega
    rw [place]
    exact stored.ring _ (by unfold maxBack at *; omega) (by omega)
  · rename_i beyond
    cases kept : s.deep with
    | none =>
      rw [capacity, kept] at depth
      unfold maxBack at *
      simp only [Option.isSome_none, Bool.false_eq_true, if_false] at depth
      omega
    | some deep =>
      rw [capacity, kept, Option.isSome_some, if_pos rfl] at depth
      rw [kept, Option.isSome_some, if_pos rfl] at count head
      have place : (s.deepHead + deepRows - s.deepCount + (s.deepCount - (back - s.history))) % deepRows =
          (t.top - back) % deepRows := by
        unfold deepRows maxBack at *
        omega
      dsimp only [Option.getD_some]
      rw [place]
      unfold maxBack deepRows at *
      exact stored.deep deep kept _ (by unfold maxBack deepRows; omega) (by unfold maxBack; omega)

theorem viewAt_shows (shows : Shows s t) {r : Nat} (inside : r < cellRows) :
    s.viewAt r = t.rows (t.top + r - s.viewBack) := by
  have stored := shows.stored
  have history := stored.history
  have origin := stored.origin
  unfold Scrollback.viewAt
  split
  · rename_i deep
    exact shows.view deep r inside
  · rename_i near
    have back : s.viewBack ≤ s.history := by
      rw [shows.viewDeep, decide_eq_true_eq] at near
      exact Nat.le_of_not_lt near
    have place : (s.rowOrigin + cellRing - s.viewBack + r) % cellRing = (t.top + r - s.viewBack) % cellRing := by
      unfold cellRing maxBack cellRows at *
      omega
    rw [place]
    exact stored.ring _ (by unfold maxBack at *; omega) (by omega)

theorem viewRebuild_shows (stored : Stored s t) (back : s.viewBack ≤ s.depth) : Shows s.viewRebuild t := by
  unfold Scrollback.viewRebuild
  split
  · rename_i near
    refine ⟨⟨stored.origin, stored.history, stored.ring, stored.count, stored.head, stored.deep⟩, back, ?_,
      fun deep => absurd deep Bool.false_ne_true⟩
    exact (decide_eq_false (Nat.not_lt.mpr near)).symm
  · rename_i beyond
    refine ⟨⟨stored.origin, stored.history, stored.ring, stored.count, stored.head, stored.deep⟩, back, ?_,
      fun _ r inside => ?_⟩
    · exact (decide_eq_true (Nat.lt_of_not_le beyond)).symm
    · have depth := stored.depth
      have history := stored.history
      have count := stored.count
      have far : maxBack < s.viewBack := by
        unfold Scrollback.depth capacity at *
        unfold maxBack deepRows at *
        split at count
        · omega
        · rename_i none
          rw [if_neg none] at depth
          omega
      unfold maxBack cellRows at *
      dsimp only
      rw [if_pos inside, rowBack_stored stored (by omega) (by omega)]
      congr 1
      omega

theorem change_ring (stored : Stored s t) {row : Nat} (inside : row < cellRows) (f : Row → Row) :
    Stored (s.change row f) (t.change row f) := by
  have origin := stored.origin
  have place : (s.rowOrigin + row) % cellRing = (t.top + row) % cellRing := by
    unfold cellRing at *
    omega
  have above : t.top - maxBack ≤ t.top + row := by omega
  have below : t.top + row < t.top + cellRows := by omega
  have room : t.top + cellRows ≤ t.top - maxBack + cellRing := by
    unfold cellRows maxBack cellRing
    omega
  refine ⟨stored.origin, stored.history, ?_, stored.count, stored.head, fun d kept => ?_⟩
  · dsimp only [Scrollback.change, Transcript.change]
    rw [place, stored.ring _ above below]
    exact stored.ring.excess above below room
  · exact (stored.deep d kept).elsewhere (Or.inr above)

theorem change_shows (shows : Shows s t) {row : Nat} (inside : row < cellRows) (f : Row → Row) :
    Shows (s.change row f) (t.change row f) := by
  refine ⟨change_ring shows.stored inside f, shows.back, shows.viewDeep, fun deep r below => ?_⟩
  -- a view that is assembled shows nothing of the screen
  have far := shows.viewDeep.symm.trans deep
  rw [decide_eq_true_eq] at far
  have history := shows.stored.history
  have depth := shows.stored.depth
  have back := shows.back
  have other : t.top + r - s.viewBack ≠ t.top + row := by
    unfold maxBack cellRows at *
    omega
  dsimp only [Scrollback.change, Transcript.change]
  rw [update_of_ne other]
  exact shows.view deep r below

theorem below_shows (shows : Shows s t) (room : s.history < maxBack) (f : Row → Row) :
    Shows (s.change cellRows f) t := by
  have stored := shows.stored
  have origin := stored.origin
  have history := stored.history
  have place : (s.rowOrigin + cellRows) % cellRing = (t.top + cellRows) % cellRing := by
    unfold cellRing at *
    omega
  refine ⟨⟨origin, history, ?_, stored.count, stored.head, stored.deep⟩, shows.back, shows.viewDeep, shows.view⟩
  dsimp only [Scrollback.change]
  rw [place]
  refine stored.ring.spare (Nat.le_refl _) ?_
  unfold cellRows cellRing maxBack at *
  omega

theorem setBlank_whole (attr : BitVec 8) (row : Row) :
    Scrollback.setBlank 0 (cellCols hActive - 1) attr row = blankRow attr := by
  funext i
  have inside := i.isLt
  exact if_pos ⟨Nat.zero_le _, Nat.le_sub_one_of_lt inside⟩

theorem fill_whole {row : Nat} (inside : row ≤ cellRows) (attr : BitVec 8) :
    s.fill row 0 (cellCols hActive - 1) attr = s.change row fun _ => blankRow attr := by
  have whole : Scrollback.setBlank 0 (cellCols hActive - 1) attr = fun _ => blankRow attr :=
    funext fun row => setBlank_whole attr row
  unfold Scrollback.fill
  rw [if_neg (not_or.mpr ⟨Nat.not_lt.mpr inside, Nat.not_lt_zero _⟩), whole]

theorem clear_shows (shows : Shows s t) (attr : BitVec 8) {n : Nat} (inside : n ≤ cellRows) :
    Shows ((List.range n).foldl (fun s r => s.fill r 0 (cellCols hActive - 1) attr) s)
      ((List.range n).foldl (fun t r => t.change r fun _ => blankRow attr) t) := by
  induction n with
  | zero => exact shows
  | succ n ih =>
    rw [List.range_succ, List.foldl_append, List.foldl_append, List.foldl_cons, List.foldl_cons, List.foldl_nil,
      List.foldl_nil]
    rw [fill_whole (Nat.le_of_succ_le inside)]
    exact change_shows (ih (Nat.le_of_succ_le inside)) inside _

structure Fell (s : Scrollback) (rows : Nat → Row) (top : Nat) : Prop where
  count : s.deepCount = if s.deep.isSome then min (top - maxBack) deepRows else 0
  head : s.deepHead = if s.deep.isSome then (top - maxBack) % deepRows else 0
  deep : ∀ d, s.deep = some d → Stands deepRows d rows (top - maxBack - deepRows) (top - maxBack)

theorem keep_fell (stored : Stored s t) : Fell s.keep t.rows (t.top + 1) := by
  have history := stored.history
  have origin := stored.origin
  have count := stored.count
  have head := stored.head
  unfold Scrollback.keep
  split
  · rename_i deep kept
    rw [kept, Option.isSome_some, if_pos rfl] at count head
    split
    · rename_i full
      have place : (s.rowOrigin + cellRows) % cellRing = (t.top - maxBack) % cellRing := by
        unfold cellRows cellRing maxBack at *
        omega
      have oldest : s.cells ((s.rowOrigin + cellRows) % cellRing) = t.rows (t.top - maxBack) := by
        rw [place]
        exact stored.ring _ (Nat.le_refl _) (by unfold cellRows; omega)
      have later : t.top + 1 - maxBack = t.top - maxBack + 1 := by
        unfold maxBack at *
        omega
      refine ⟨?_, ?_, fun d same => ?_⟩
      · dsimp only
        rw [Option.isSome_some, if_pos rfl, count]
        unfold maxBack deepRows at *
        split
        · omega
        · omega
      · dsimp only
        rw [Option.isSome_some, if_pos rfl, head, later, Nat.mod_add_mod]
      · rw [← Option.some.inj same, head, oldest, later]
        have pushed := (@Rolling.Stands.mono _ _ _ _ (t.top - maxBack + 1 - deepRows) _ _ _ (stored.deep deep kept)
          (by omega) (Nat.le_refl _)).push (x := t.rows (t.top - maxBack)) (by unfold deepRows; omega)
            (by unfold deepRows; omega)
        rwa [update_eq_self] at pushed
    · rename_i room
      have same : t.top + 1 - maxBack = t.top - maxBack := by
        unfold maxBack at *
        omega
      refine ⟨?_, ?_, fun d same' => ?_⟩
      · rw [kept, Option.isSome_some, if_pos rfl, count, same]
      · rw [kept, Option.isSome_some, if_pos rfl, head, same]
      · rw [same]
        exact stored.deep d same'
  · rename_i none
    rw [none] at count head
    refine ⟨?_, ?_, fun d some => ?_⟩
    · rw [count, none]
      simp only [Option.isSome_none, Bool.false_eq_true, if_false]
    · rw [head, none]
      simp only [Option.isSome_none, Bool.false_eq_true, if_false]
    · rw [none] at some
      cases some

theorem keep_rest : s.keep.cells = s.cells ∧ s.keep.rowOrigin = s.rowOrigin ∧ s.keep.history = s.history ∧
    s.keep.viewBack = s.viewBack ∧ s.keep.viewBuf = s.viewBuf ∧ s.keep.viewDeep = s.viewDeep := by
  unfold Scrollback.keep
  split
  · split
    · exact ⟨rfl, rfl, rfl, rfl, rfl, rfl⟩
    · exact ⟨rfl, rfl, rfl, rfl, rfl, rfl⟩
  · exact ⟨rfl, rfl, rfl, rfl, rfl, rfl⟩

def moved (s : Scrollback) (attr : BitVec 8) : Scrollback :=
  let s := s.keep.fill cellRows 0 (cellCols hActive - 1) attr
  let s := { s with rowOrigin := (s.rowOrigin + 1) % cellRing }
  { s with history := if s.history < maxBack then s.history + 1 else s.history }

theorem scroll_moved (attr : BitVec 8) : s.scroll attr = (moved s attr).follow := rfl

theorem moved_stored (stored : Stored s t) (attr : BitVec 8) :
    Stored (moved s attr) (t.step (.scroll attr)) := by
  obtain ⟨cells, origin, history, _⟩ := keep_rest (s := s)
  have fell := keep_fell stored
  have start := stored.origin
  have past := stored.history
  unfold moved
  rw [fill_whole (Nat.le_refl _)]
  refine ⟨?_, ?_, ?_, fell.count, fell.head, fun d kept => ?_⟩
  · dsimp only [Scrollback.change, Transcript.step]
    rw [origin, start, Nat.mod_add_mod]
  · change (if s.keep.history < maxBack then s.keep.history + 1 else s.keep.history) = min (t.top + 1) maxBack
    rw [history, past]
    unfold maxBack
    split
    · omega
    · omega
  · have place : (s.keep.rowOrigin + cellRows) % cellRing = (t.top + cellRows) % cellRing := by
      rw [origin, start, Nat.mod_add_mod]
    dsimp only [Scrollback.change, Transcript.step]
    rw [place, cells]
    have pushed := (@Rolling.Stands.mono _ _ _ _ (t.top + 1 - maxBack) _ _ _ stored.ring (by omega)
      (Nat.le_refl _)).push (x := blankRow attr) (by unfold maxBack cellRows; omega)
        (by unfold maxBack cellRows cellRing; omega)
    have high : t.top + 1 + cellRows = t.top + cellRows + 1 := Nat.add_right_comm _ _ _
    rw [high]
    exact pushed
  · dsimp only [Transcript.step]
    refine (fell.deep d kept).elsewhere (Or.inr ?_)
    unfold maxBack cellRows
    omega

theorem moved_view (attr : BitVec 8) : (moved s attr).viewBack = s.viewBack ∧ (moved s attr).viewDeep = s.viewDeep := by
  obtain ⟨_, _, _, back, _, deep⟩ := keep_rest (s := s)
  unfold moved
  rw [fill_whole (Nat.le_refl _)]
  exact ⟨back, deep⟩

theorem viewRebuild_back : s.viewRebuild.viewBack = s.viewBack := by
  unfold Scrollback.viewRebuild
  split
  · rfl
  · rfl

theorem moved_capacity (attr : BitVec 8) : capacity (moved s attr) = capacity s := by
  have same : s.keep.deep.isSome = s.deep.isSome := by
    unfold Scrollback.keep
    split
    · rename_i kept
      split
      · exact (congrArg Option.isSome kept).symm
      · rfl
    · rfl
  unfold moved
  rw [fill_whole (Nat.le_refl _)]
  unfold capacity
  exact if_congr (Iff.of_eq (congrArg (· = true) same)) rfl rfl

theorem scroll_shows (shows : Shows s t) (attr : BitVec 8) :
    Shows (s.scroll attr) (t.step (.scroll attr)) := by
  have stored := moved_stored shows.stored attr
  obtain ⟨back, deep⟩ := moved_view (s := s) attr
  have depth := stored.depth
  have before := shows.stored.depth
  rw [moved_capacity] at depth
  have fits : s.viewBack ≤ (moved s attr).depth := by
    have far := shows.back
    rw [depth]
    dsimp only [Transcript.step]
    omega
  rw [scroll_moved]
  unfold Scrollback.follow
  split
  · rename_i away
    generalize follows : (if (moved s attr).viewBack < (moved s attr).depth then
      { moved s attr with viewBack := (moved s attr).viewBack + 1 } else moved s attr) = next
    have along : Stored next (t.step (.scroll attr)) ∧ next.viewBack ≤ next.depth ∧ next.viewDeep = s.viewDeep := by
      rw [← follows]
      split
      · rename_i less
        exact ⟨⟨stored.origin, stored.history, stored.ring, stored.count, stored.head, stored.deep⟩, less, deep⟩
      · exact ⟨stored, back.symm ▸ fits, deep⟩
    dsimp only
    split
    · exact viewRebuild_shows along.1 along.2.1
    · rename_i near
      obtain ⟨flat, close⟩ := not_or.mp near
      refine ⟨along.1, along.2.1, ?_, fun deep => absurd deep flat⟩
      rw [Bool.eq_false_iff.mpr flat]
      exact (decide_eq_false close).symm
  · rename_i live
    rw [not_not, back] at live
    have flat : s.viewDeep = false := by
      rw [shows.viewDeep, live]
      rfl
    refine ⟨stored, back.symm ▸ fits, ?_, fun now => absurd (deep.symm.trans now) (flat ▸ Bool.false_ne_true)⟩
    rw [deep, flat, back, live]
    rfl

theorem scroll_same (shows : Shows s t) (attr : BitVec 8) (away : 0 < s.viewBack) (room : s.viewBack < capacity s) :
    (s.scroll attr).viewBack = s.viewBack + 1 ∧ ∀ r < cellRows, (s.scroll attr).viewAt r = s.viewAt r := by
  have stored := moved_stored shows.stored attr
  obtain ⟨back, _⟩ := moved_view (s := s) attr
  have depth := stored.depth
  have far := shows.back
  rw [shows.stored.depth] at far
  rw [moved_capacity] at depth
  have less : (moved s attr).viewBack < (moved s attr).depth := by
    rw [depth, back]
    dsimp only [Transcript.step]
    omega
  have next : (s.scroll attr).viewBack = s.viewBack + 1 := by
    rw [scroll_moved]
    unfold Scrollback.follow
    rw [if_pos (by rw [back]; exact Nat.ne_of_gt away)]
    dsimp only
    rw [if_pos less]
    split
    · rw [viewRebuild_back]
      exact congrArg (· + 1) back
    · exact congrArg (· + 1) back
  refine ⟨next, fun r inside => ?_⟩
  rw [viewAt_shows (scroll_shows shows attr) inside, viewAt_shows shows inside, next]
  have index : (t.step (.scroll attr)).top + r - (s.viewBack + 1) = t.top + r - s.viewBack := by
    dsimp only [Transcript.step]
    omega
  rw [index]
  exact update_of_ne (by omega) _ _

def Allowed (s : Scrollback) : Op → Prop
  | .fill row _ _ _ => row = cellRows → s.history < maxBack
  | _ => True

theorem step_shows (shows : Shows s t) {op : Op} (allowed : Allowed s op) : Shows (s.step op) (t.step op) := by
  cases op with
  | put row col glyph attr =>
    dsimp only [Scrollback.step, Transcript.step, Scrollback.put]
    by_cases inside : row < cellRows ∧ col < cellCols hActive
    · rw [if_pos inside, if_neg (by omega)]
      exact change_shows shows inside.1 _
    · rw [if_neg inside, if_pos (by omega)]
      exact shows
  | fill row from' to' attr =>
    dsimp only [Scrollback.step, Transcript.step, Scrollback.fill]
    by_cases refused : cellRows < row ∨ to' < from'
    · rw [if_pos refused, if_neg (by omega)]
      exact shows
    · rw [if_neg refused]
      by_cases inside : row < cellRows
      · rw [if_pos (by omega)]
        exact change_shows shows inside _
      · have below : row = cellRows := by omega
        rw [if_neg (by omega), below]
        exact below_shows shows (allowed below) _
  | clear attr => exact clear_shows shows attr (Nat.le_refl _)
  | scroll attr => exact scroll_shows shows attr
  | viewMove rows =>
    have stored := shows.stored
    refine viewRebuild_shows ⟨stored.origin, stored.history, stored.ring, stored.count, stored.head, stored.deep⟩ ?_
    dsimp only
    change _ ≤ s.depth
    split
    · omega
    · omega
  | viewHome =>
    have stored := shows.stored
    exact viewRebuild_shows ⟨stored.origin, stored.history, stored.ring, stored.count, stored.head, stored.deep⟩
      (Nat.le_refl _)
  | viewEnd =>
    have stored := shows.stored
    exact ⟨⟨stored.origin, stored.history, stored.ring, stored.count, stored.head, stored.deep⟩, Nat.zero_le _, rfl,
      fun deep => absurd deep Bool.false_ne_true⟩

theorem init_shows (attr : BitVec 8) (deep : Option (Nat → Row)) (viewBuf : Nat → Row) :
    Shows (Scrollback.init attr deep viewBuf) (Transcript.init attr) := by
  refine ⟨⟨rfl, rfl, fun _ _ _ => rfl, ?_, ?_, fun _ _ i _ none => ?_⟩, Nat.zero_le _, rfl,
    fun deep => absurd deep Bool.false_ne_true⟩
  · change 0 = if deep.isSome then min (0 - maxBack) deepRows else 0
    rw [Nat.zero_sub, Nat.zero_min, ite_self]
  · change 0 = if deep.isSome then (0 - maxBack) % deepRows else 0
    rw [Nat.zero_sub, Nat.zero_mod, ite_self]
  · exact absurd (Nat.lt_of_lt_of_le none (Nat.le_of_eq (Nat.zero_sub maxBack))) (Nat.not_lt_zero i)

def both (p : Scrollback × Transcript) (op : Op) : Scrollback × Transcript := (p.1.step op, p.2.step op)

/-- The view shows the rows of the transcript that stand as far back as it is, it is never further back than
there are rows kept, and those are the last of the transcript. A line more does not move what a view that is
scrolled back shows until its first row is overwritten. -/
theorem scrollback_exact (attr : BitVec 8) (deep : Option (Nat → Row)) (viewBuf : Nat → Row) (ops : List Op)
    (run : Along both (fun p => Allowed p.1) (Scrollback.init attr deep viewBuf, Transcript.init attr) ops) :
    let p := ops.foldl both (Scrollback.init attr deep viewBuf, Transcript.init attr)
    (∀ r < cellRows, p.1.viewAt r = p.2.rows (p.2.top + r - p.1.viewBack)) ∧
      p.1.viewBack ≤ p.1.depth ∧ p.1.depth = min p.2.top (capacity p.1) ∧
      ∀ attr, 0 < p.1.viewBack → p.1.viewBack < capacity p.1 →
        (p.1.scroll attr).viewBack = p.1.viewBack + 1 ∧
          ∀ r < cellRows, (p.1.scroll attr).viewAt r = p.1.viewAt r := by
  have shows := along_invariant (fun p : Scrollback × Transcript => Shows p.1 p.2) run
    (init_shows attr deep viewBuf) fun p op _ allowed shows => step_shows shows allowed
  exact ⟨fun r inside => viewAt_shows shows inside, shows.back, shows.stored.depth,
    fun attr => scroll_same shows attr⟩

def lookedBack : List Op := [.put 0 0 33 7, .fill 2 0 79 9, .scroll 7, .viewHome, .fill cellRows 3 9 1]

theorem scrollback_exact_lookedBack :
    (lookedBack.foldl both (Scrollback.init 7 none (fun _ => blankRow 0), Transcript.init 7)).1.viewBack ≤
      (lookedBack.foldl both (Scrollback.init 7 none (fun _ => blankRow 0), Transcript.init 7)).1.depth :=
  (scrollback_exact 7 none (fun _ => blankRow 0) lookedBack
    ⟨trivial, fun below => absurd below (by decide), trivial, trivial, fun _ => (by decide : 1 < maxBack), trivial⟩).2.1

/-- A fill of the row below the screen, when the ring is full, is one of the oldest row that is kept. -/
theorem fill_reaches_back :
    let p := (List.replicate maxBack (Op.scroll 7) ++ [Op.fill cellRows 0 0 9, Op.viewHome]).foldl both
      (Scrollback.init 7 none (fun _ => blankRow 0), Transcript.init 7)
    p.1.viewAt 0 ≠ p.2.rows (p.2.top + 0 - p.1.viewBack) := by
  intro p same
  have cell := congrArg (fun row : Row => (row ⟨0, by decide⟩).attr) same
  exact absurd cell (by decide +kernel)

end Rows

end Ubiqos.Video
