import Mathlib.Data.List.Basic
import Mathlib.Data.List.DropRight
import Mathlib.Data.List.Flatten
import Mathlib.Data.List.TakeWhile
import Mathlib.Logic.Function.Basic
import Mathlib.Order.Nat

/-!
Cells that make up glyphs: a glyph is a cell and the cells that join it. Columns are counted in
glyphs and places in cells, and a window of so many columns is cut around a place. A text is whole
when it is the writing of some characters, one glyph each.
-/

universe u v

namespace Glyphs

variable {α : Type u} (joins : α → Bool)

def columns (cells : List α) : Nat := cells.countP fun a => !joins a

/-- Where the cells of the first `k` glyphs end. -/
def place : Nat → List α → Nat
  | 0, _ => 0
  | _ + 1, [] => 0
  | k + 1, _ :: rest => 1 + (rest.takeWhile joins).length + place k (rest.dropWhile joins)

def Led (cells : List α) : Prop := ∀ a ∈ cells.head?, joins a = false

variable {joins} {cells : List α}

theorem led_dropWhile (cells : List α) : Led joins (cells.dropWhile joins) := by
  intro a first
  have stopped := List.head?_dropWhile_not joins cells
  rw [first] at stopped
  simpa using stopped

variable (joins) in
theorem place_le (k : Nat) (cells : List α) : place joins k cells ≤ cells.length := by
  induction k generalizing cells with
  | zero => exact Nat.zero_le _
  | succ k ih =>
    cases cells with
    | nil => exact Nat.zero_le _
    | cons a rest =>
      have parted := congrArg List.length (@List.takeWhile_append_dropWhile α joins rest)
      have later := ih (rest.dropWhile joins)
      rw [List.length_append] at parted
      rw [place, List.length_cons]
      omega

theorem columns_joined (joined : ∀ a ∈ cells, joins a = true) : columns joins cells = 0 :=
  List.countP_eq_zero.mpr fun a member => by simp [joined a member]

theorem columns_take_le (m n : Nat) (le : m ≤ n) :
    columns joins (cells.take m) ≤ columns joins (cells.take n) :=
  (List.take_prefix_take_left le).sublist.countP_le

theorem columns_succ {n : Nat} (inside : n < cells.length) :
    columns joins (cells.take (n + 1)) =
      columns joins (cells.take n) + if joins cells[n] then 0 else 1 := by
  rw [List.take_add_one, columns, List.countP_append, List.getElem?_eq_getElem inside]
  cases joined : joins cells[n] <;> simp [columns, joined]

theorem le_run {k n : Nat} (inside : n ≤ cells.length)
    (later : ∀ m, m ≤ (cells.dropWhile joins).length →
      (m ≤ place joins k (cells.dropWhile joins) ↔
        columns joins ((cells.dropWhile joins).take m) ≤ k)) :
    n ≤ (cells.takeWhile joins).length + place joins k (cells.dropWhile joins) ↔
      columns joins (cells.take n) ≤ k := by
  have parted := @List.takeWhile_append_dropWhile α joins cells
  have lengths := congrArg List.length parted
  rw [List.length_append] at lengths
  have run : columns joins (cells.takeWhile joins) = 0 :=
    columns_joined fun a => List.mem_takeWhile_imp
  rcases Nat.le_total n (cells.takeWhile joins).length with within | beyond
  · have none : columns joins (cells.take n) = 0 := by
      rw [← parted, List.take_append_of_le_length within]
      exact columns_joined fun a member => List.mem_takeWhile_imp (List.mem_of_mem_take member)
    omega
  · have split : columns joins (cells.take n) =
        columns joins ((cells.dropWhile joins).take (n - (cells.takeWhile joins).length)) := by
      conv_lhs => rw [← parted, List.take_append, List.take_of_length_le beyond]
      rw [columns, List.countP_append]
      change columns joins (cells.takeWhile joins) + _ = _
      rw [run, Nat.zero_add]
      rfl
    rw [split, ← later _ (by omega)]
    omega

theorem le_place (led : Led joins cells) (k : Nat) {n : Nat} (inside : n ≤ cells.length) :
    n ≤ place joins k cells ↔ columns joins (cells.take n) ≤ k := by
  induction k generalizing cells n with
  | zero =>
    cases cells with
    | nil => simp_all [place, columns]
    | cons a rest =>
      cases n with
      | zero => simp [place, columns]
      | succ n =>
        have first : joins a = false := led a rfl
        simp [place, columns, first]
  | succ k ih =>
    cases cells with
    | nil => simp_all [place, columns]
    | cons a rest =>
      cases n with
      | zero => simp [columns]
      | succ n =>
        have first : joins a = false := led a rfl
        have run := @le_run α joins rest k n (Nat.le_of_succ_le_succ inside)
          fun m within => ih (led_dropWhile rest) within
        have counted : columns joins ((a :: rest).take (n + 1)) = columns joins (rest.take n) + 1 := by
          simp [columns, first]
        rw [place, counted]
        omega

theorem le_place_joined {a : α} {rest : List α} (joined : joins a = true) (k : Nat) {n : Nat}
    (inside : n ≤ (a :: rest).length) :
    n ≤ place joins (k + 1) (a :: rest) ↔ columns joins ((a :: rest).take n) ≤ k := by
  cases n with
  | zero => simp [columns]
  | succ n =>
    have run := @le_run α joins rest k n (Nat.le_of_succ_le_succ inside)
      fun m within => le_place (led_dropWhile rest) k within
    have counted : columns joins ((a :: rest).take (n + 1)) = columns joins (rest.take n) := by
      simp [columns, joined]
    rw [place, counted]
    omega

variable (joins) in
/-- The window around a place stands at the start until the place is `w` columns away. -/
def start (cells : List α) (here w : Nat) : Nat :=
  let cur := columns joins (cells.take here)
  if cur < w then 0 else place joins (cur - w + 1) cells

variable (joins) in
def stop (cells : List α) (here w : Nat) : Nat :=
  place joins (columns joins (cells.take (start joins cells here w)) + w) cells

variable (joins) in
theorem led_or (cells : List α) :
    Led joins cells ∨ ∃ a rest, cells = a :: rest ∧ joins a = true := by
  cases cells with
  | nil => exact Or.inl fun a first => by simp at first
  | cons a rest =>
    cases first : joins a with
    | false => exact Or.inl fun b same => Option.some.inj same ▸ first
    | true => exact Or.inr ⟨a, rest, rfl, first⟩

variable (joins) in
theorem columns_start (k : Nat) (cells : List α) :
    columns joins (cells.take (place joins (k + 1) cells)) ≤ k + 1 := by
  have inside := place_le joins (k + 1) cells
  rcases led_or joins cells with led | ⟨a, rest, rfl, joined⟩
  · exact (le_place led (k + 1) inside).mp le_rfl
  · exact Nat.le_succ_of_le ((le_place_joined joined k inside).mp le_rfl)

theorem le_columns (led : Led joins cells) {k : Nat} (enough : k ≤ columns joins cells) :
    k ≤ columns joins (cells.take (place joins k cells)) := by
  rcases (place_le joins k cells).lt_or_eq with before | ended
  · -- One cell further there are more than `k` columns, and a cell is one column at most.
    have beyond : k < columns joins (cells.take (place joins k cells + 1)) := by
      by_contra few
      have le := (le_place led k before).mpr (Nat.not_lt.mp few)
      omega
    rw [columns_succ before] at beyond
    split at beyond <;> omega
  · rwa [ended, List.take_length]

theorem start_le_stop (cells : List α) (here : Nat) {w : Nat} (some : 0 < w) :
    start joins cells here w ≤ stop joins cells here w := by
  have inside : start joins cells here w ≤ cells.length := by
    rw [start]
    split
    · exact Nat.zero_le _
    · exact place_le joins _ cells
  rw [stop]
  rcases led_or joins cells with led | ⟨a, rest, rfl, joined⟩
  · exact (le_place led _ inside).mpr (Nat.le_add_right _ _)
  · obtain ⟨w, rfl⟩ := Nat.exists_eq_succ_of_ne_zero (Nat.ne_of_gt some)
    exact (le_place_joined joined _ inside).mpr (Nat.le_add_right _ _)

theorem stop_le (cells : List α) (here w : Nat) : stop joins cells here w ≤ cells.length :=
  place_le joins _ cells

theorem columns_start_le (cells : List α) (here : Nat) {w : Nat} (some : 0 < w) :
    columns joins (cells.take (start joins cells here w)) ≤ columns joins (cells.take here) := by
  rw [start]
  split
  · exact columns_take_le 0 here (Nat.zero_le _)
  · next far =>
      have few := columns_start joins (columns joins (cells.take here) - w) cells
      omega

theorem inside_iff (cells : List α) {here w : Nat} (some : 0 < w) (inside : here ≤ cells.length) :
    start joins cells here w ≤ here ∧ here ≤ stop joins cells here w ↔
      columns joins (cells.take here) < w ∨
        Led joins cells ∧ (1 < w ∨ ∀ a ∈ cells[here]?, joins a = false) := by
  by_cases near : columns joins (cells.take here) < w
  · -- The window begins where the line does.
    have zero : start joins cells here w = 0 := if_pos near
    have none : columns joins (cells.take 0) = 0 := rfl
    refine iff_of_true ⟨zero ▸ Nat.zero_le _, ?_⟩ (Or.inl near)
    rw [stop, zero, none, Nat.zero_add]
    rcases led_or joins cells with led | ⟨a, rest, rfl, joined⟩
    · exact (le_place led w inside).mpr near.le
    · obtain ⟨w, rfl⟩ := Nat.exists_eq_succ_of_ne_zero (Nat.ne_of_gt some)
      exact (le_place_joined joined w inside).mpr (Nat.le_of_lt_succ near)
  · have far : start joins cells here w =
        place joins (columns joins (cells.take here) - w + 1) cells := if_neg near
    rw [or_iff_right near]
    rcases led_or joins cells with led | ⟨a, rest, rfl, joined⟩
    · have whole := @columns_take_le _ joins cells here cells.length inside
      rw [List.take_length] at whole
      have reached := le_columns (k := columns joins (cells.take here) - w + 1) led (by omega)
      have ahead : here ≤ stop joins cells here w := by
        rw [stop, far]
        exact (le_place led _ inside).mpr (by omega)
      rw [and_iff_left ahead, and_iff_right led, far]
      rcases inside.lt_or_eq with before | ended
      · have past := le_place led (columns joins (cells.take here) - w + 1) before
        rw [columns_succ before] at past
        simp only [List.getElem?_eq_getElem before, Option.mem_some_iff, forall_eq']
        cases joined : joins cells[here] with
        | false =>
          rw [joined, if_neg Bool.false_ne_true] at past
          exact iff_of_true (by omega) (Or.inr rfl)
        | true =>
          rw [joined, if_pos rfl] at past
          rw [or_iff_left (by simp)]
          omega
      · simp [ended, place_le]
    · -- The first cells are no column, so the window's end is one glyph short of the place.
      have few := (le_place_joined joined (columns joins ((a :: rest).take here) - w)
        (place_le joins _ (a :: rest))).mp le_rfl
      have short : ¬ here ≤ stop joins (a :: rest) here w := by
        obtain ⟨w, rfl⟩ := Nat.exists_eq_succ_of_ne_zero (Nat.ne_of_gt some)
        rw [stop, far, Nat.add_succ, le_place_joined joined _ inside]
        omega
      refine iff_of_false (fun both => short both.2) fun both => ?_
      rw [both.1 a rfl] at joined
      exact Bool.false_ne_true joined

variable (joins) in
def back (cells : List α) : List α := (cells.rdropWhile joins).dropLast

variable {γ : Type v} {enc : γ → List α}

variable (enc) in
def Whole (cells : List α) : Prop := ∃ chars : List γ, cells = chars.flatMap enc

variable (joins enc) in
def Shaped : Prop := ∀ c, ∃ a rest, enc c = a :: rest ∧ joins a = false ∧ ∀ b ∈ rest, joins b = true

theorem whole_nil : Whole enc [] := ⟨[], rfl⟩

theorem whole_char (c : γ) : Whole enc (enc c) := ⟨[c], by simp⟩

theorem Whole.append {l r : List α} (left : Whole enc l) (right : Whole enc r) :
    Whole enc (l ++ r) := by
  obtain ⟨cs, rfl⟩ := left
  obtain ⟨ds, rfl⟩ := right
  exact ⟨cs ++ ds, List.flatMap_append.symm⟩

theorem Whole.led (shaped : Shaped joins enc) (whole : Whole enc cells) : Led joins cells := by
  obtain ⟨cs, rfl⟩ := whole
  cases cs with
  | nil => exact fun a first => by simp at first
  | cons c cs =>
    obtain ⟨a, rest, written, lead, -⟩ := shaped c
    rw [List.flatMap_cons, written]
    exact fun b first => Option.some.inj first ▸ lead

theorem takeWhile_glyph {t rest : List α} (joined : ∀ a ∈ t, joins a = true) (led : Led joins rest) :
    (t ++ rest).takeWhile joins = t ∧ (t ++ rest).dropWhile joins = rest := by
  induction t with
  | nil =>
    cases rest with
    | nil => exact ⟨rfl, rfl⟩
    | cons a rest => simp [led a rfl]
  | cons a t ih =>
    have later := ih fun b member => joined b (List.mem_cons_of_mem a member)
    simp [joined a List.mem_cons_self, later]

theorem Whole.front (shaped : Shaped joins enc) {a : α} {rest : List α}
    (whole : Whole enc (a :: rest)) :
    Whole enc (a :: rest.takeWhile joins) ∧ Whole enc (rest.dropWhile joins) := by
  obtain ⟨cs, written⟩ := whole
  cases cs with
  | nil => simp at written
  | cons c cs =>
    obtain ⟨b, t, first, -, joined⟩ := shaped c
    rw [List.flatMap_cons, first, List.cons_append] at written
    obtain ⟨rfl, rfl⟩ := List.cons.inj written
    have later : Whole enc (cs.flatMap enc) := ⟨cs, rfl⟩
    obtain ⟨run, left⟩ := takeWhile_glyph joined (later.led shaped)
    rw [run, left]
    exact ⟨first ▸ whole_char c, later⟩

theorem back_glyph {l t : List α} {a : α} (lead : joins a = false)
    (joined : ∀ b ∈ t, joins b = true) : back joins (l ++ a :: t) = l := by
  have run : (l ++ a :: t).rdropWhile joins = l ++ [a] := by
    induction t using List.reverseRecOn with
    | nil => exact List.rdropWhile_concat_neg joins l a (by simp [lead])
    | append_singleton t b ih =>
      rw [← List.cons_append, ← List.append_assoc,
        List.rdropWhile_concat_pos _ _ _ (joined b (by simp))]
      exact ih fun c member => joined c (List.mem_append_left _ member)
  rw [back, run, List.dropLast_concat]

theorem Whole.back (shaped : Shaped joins enc) (whole : Whole enc cells) (some : cells ≠ []) :
    Whole enc (back joins cells) ∧ ∃ c, cells.drop (back joins cells).length = enc c := by
  obtain ⟨cs, rfl⟩ := whole
  induction cs using List.reverseRecOn with
  | nil => exact absurd rfl some
  | append_singleton cs c ih =>
    obtain ⟨a, rest, written, lead, joined⟩ := shaped c
    rw [List.flatMap_append, List.flatMap_singleton, written, back_glyph lead joined,
      List.drop_left]
    exact ⟨⟨cs, rfl⟩, c, written.symm⟩

theorem back_concat (l : List α) (a : α) :
    back joins (l ++ [a]) = if joins a then back joins l else l := by
  cases joined : joins a with
  | true => simp [back, List.rdropWhile_concat_pos _ _ _ joined]
  | false => simp [back, joined]

theorem back_prefix (cells : List α) : back joins cells <+: cells :=
  (List.dropLast_prefix _).trans (List.rdropWhile_prefix joins cells)

end Glyphs

/-!
Strings in a memory of cells, each ended by a cell that no string has. A copy stops at the end of
the string or where its room does.
-/

namespace Stored

open Function

variable {α : Type u} (ended : α)

structure Holds (mem : Nat → α) (base : Nat) (s : List α) : Prop where
  cells : ∀ i < s.length, s[i]? = some (mem (base + i))
  close : mem (base + s.length) = ended
  plain : ended ∉ s

/-- At most `left` further cells are copied, and the end is written after them. -/
def copy [DecidableEq α] (dst : Nat → α) (goal : Nat) (src : Nat → α) (origin : Nat) : Nat → Nat → (Nat → α) × Nat
  | 0, n => (update dst (goal + n) ended, n)
  | left + 1, n =>
    if src (origin + n) = ended then (update dst (goal + n) ended, n)
    else copy (update dst (goal + n) (src (origin + n))) goal src origin left (n + 1)

variable {ended} {mem dst src : Nat → α} {base goal origin : Nat} {s : List α}

theorem Holds.ne (holds : Holds ended mem base s) {i : Nat} (inside : i < s.length) :
    mem (base + i) ≠ ended := by
  intro same
  apply holds.plain
  rw [← same]
  exact List.mem_of_getElem? (holds.cells i inside)

theorem Holds.nil (close : mem base = ended) : Holds ended mem base [] :=
  ⟨fun i inside => absurd inside (Nat.not_lt_zero i), close, List.not_mem_nil⟩

theorem Holds.congr (holds : Holds ended mem base s)
    (same : ∀ i, i ≤ s.length → dst (goal + i) = mem (base + i)) : Holds ended dst goal s where
  cells := fun i inside => by rw [holds.cells i inside, same i inside.le]
  close := by rw [same _ le_rfl, holds.close]
  plain := holds.plain

variable [DecidableEq α]

theorem copy_eq (holds : Holds ended src origin s) (left n : Nat) (before : n ≤ s.length)
    (enough : s.length ≤ n + left) :
    (copy ended dst goal src origin left n).2 = s.length ∧
      ∀ x, (copy ended dst goal src origin left n).1 x =
        if goal + n ≤ x ∧ x ≤ goal + s.length then src (origin + (x - goal)) else dst x := by
  induction left generalizing dst n with
  | zero =>
    obtain rfl : n = s.length := by omega
    refine ⟨rfl, fun x => ?_⟩
    rw [copy, ← holds.close]
    by_cases here : x = goal + s.length
    · subst here
      simp
    · rw [if_neg (by omega)]
      exact update_of_ne here _ _
  | succ left ih =>
    rw [copy]
    rcases before.lt_or_eq with inside | rfl
    · rw [if_neg (holds.ne inside)]
      obtain ⟨count, cells⟩ := @ih (update dst (goal + n) (src (origin + n))) (n + 1) inside (by omega)
      refine ⟨count, fun x => ?_⟩
      rw [cells]
      by_cases here : x = goal + n
      · subst here
        rw [if_neg (by omega), if_pos (by omega), update_self, Nat.add_sub_cancel_left]
      · rw [update_of_ne here]
        exact if_congr (by omega) rfl rfl
    · rw [if_pos holds.close]
      refine ⟨rfl, fun x => ?_⟩
      rw [← holds.close]
      by_cases here : x = goal + s.length
      · subst here
        simp
      · rw [if_neg (by omega)]
        exact update_of_ne here _ _

theorem copy_holds (holds : Holds ended src origin s) {left : Nat} (enough : s.length ≤ left) :
    (copy ended dst goal src origin left 0).2 = s.length ∧
      Holds ended (copy ended dst goal src origin left 0).1 goal s ∧
      ∀ x, ¬ (goal ≤ x ∧ x ≤ goal + s.length) → (copy ended dst goal src origin left 0).1 x = dst x := by
  obtain ⟨count, cells⟩ := @copy_eq α ended dst src goal origin s _ holds left 0 (Nat.zero_le _) (by omega)
  refine ⟨count, holds.congr fun i inside => ?_, fun x outside => ?_⟩
  · rw [cells, if_pos (by omega), Nat.add_sub_cancel_left]
  · rw [cells, if_neg (by omega)]

end Stored
