import Mathlib.Logic.Function.Iterate
import Mathlib.Data.List.Basic

/-!
A strip of cells without an end and a pen on it. Typing writes at the pen and moves it on; going
back moves it back and leaves a blank. As many steps back as were typed take the pen to where it
was, and only the cells that were typed are blank.
-/

namespace Typewriter

open Function

variable {α : Type}

structure Tape (α : Type) where
  cell : Nat → α
  pen : Nat

def type (t : Tape α) (a : α) : Tape α := ⟨update t.cell t.pen a, t.pen + 1⟩

def back (blank : α) (t : Tape α) : Tape α := ⟨update t.cell (t.pen - 1) blank, t.pen - 1⟩

variable {t : Tape α} {blank : α}

theorem types_pen (text : List α) : (text.foldl type t).pen = t.pen + text.length := by
  induction text generalizing t with
  | nil => rfl
  | cons a rest ih =>
    rw [List.foldl_cons, ih, List.length_cons]
    simp only [type]
    omega

theorem types_cell (text : List α) {x : Nat} (outside : ¬ (t.pen ≤ x ∧ x < t.pen + text.length)) :
    (text.foldl type t).cell x = t.cell x := by
  induction text generalizing t with
  | nil => rfl
  | cons a rest ih =>
    rw [List.length_cons] at outside
    rw [List.foldl_cons, ih (by simp only [type]; omega), type]
    exact update_of_ne (by omega) _ _

theorem backs_pen (n : Nat) : ((back blank)^[n] t).pen = t.pen - n := by
  induction n with
  | zero => rfl
  | succ n ih =>
    rw [iterate_succ_apply']
    simp only [back, ih]
    omega

theorem backs_cell (n : Nat) (enough : n ≤ t.pen) (x : Nat) :
    ((back blank)^[n] t).cell x = if t.pen - n ≤ x ∧ x < t.pen then blank else t.cell x := by
  induction n with
  | zero =>
    rw [if_neg (by omega)]
    rfl
  | succ n ih =>
    rw [iterate_succ_apply']
    simp only [back, backs_pen]
    by_cases here : x = t.pen - n - 1
    · rw [here, update_self, if_pos (by omega)]
    · rw [update_of_ne here, ih (by omega)]
      have same : (t.pen - n ≤ x ∧ x < t.pen) ↔ (t.pen - (n + 1) ≤ x ∧ x < t.pen) := by omega
      simp only [same]

theorem typed_back (text : List α) :
    (back blank)^[text.length] (text.foldl type t) =
      ⟨fun x => if t.pen ≤ x ∧ x < t.pen + text.length then blank else t.cell x, t.pen⟩ := by
  have enough : text.length ≤ (text.foldl type t).pen := by
    rw [types_pen]
    omega
  have pen : ((back blank)^[text.length] (text.foldl type t)).pen = t.pen := by
    rw [backs_pen, types_pen]
    omega
  have cell : ((back blank)^[text.length] (text.foldl type t)).cell =
      fun x => if t.pen ≤ x ∧ x < t.pen + text.length then blank else t.cell x := by
    funext x
    rw [backs_cell _ enough, types_pen, Nat.add_sub_cancel]
    by_cases inside : t.pen ≤ x ∧ x < t.pen + text.length
    · rw [if_pos inside, if_pos inside]
    · rw [if_neg inside, if_neg inside, types_cell _ inside]
  exact congrArg₂ Tape.mk cell pen

end Typewriter
