import Mathlib.Data.List.Basic
import Mathlib.Order.Basic

/-!
Moving so many items over a line that does not wait: it takes what it can, and is asked again
after a pause until all have moved, the line has failed, or nothing has moved for too long.
-/

namespace Patience

/-- What the line can take at each call: nothing when it has failed. -/
abbrev Line := Nat → Option Nat

inductive Outcome
  | full
  | quiet
  | lost
  deriving DecidableEq

structure Moved where
  outcome : Outcome
  got : Nat
  clock : Nat

/-- `n` are asked for and there are `stock`; after a call that moved none there is a pause of
five, up to a patience of `ms`. -/
def move (line : Line) (n stock ms got waited clock : Nat) : Moved :=
  if got < n then
    match line clock with
    | none => ⟨.lost, got, clock + 1⟩
    | some room =>
      let r := min room (min n stock - got)
      if none : r = 0 then
        if ended : ms ≤ waited then ⟨.quiet, got, clock + 1⟩
        else move line n stock ms got (waited + 5) (clock + 1)
      else move line n stock ms (got + r) 0 (clock + 1)
  else ⟨.full, got, clock⟩
termination_by (n - got, ms - waited)
decreasing_by
  · exact Prod.Lex.right _ (by omega)
  · exact Prod.Lex.left _ _ (by omega)

variable {line : Line} {n stock ms : Nat}

def Still (line : Line) (left clock : Nat) : Prop := ∃ room, line clock = some room ∧ min room left = 0

def turns (ms : Nat) : Nat := (ms + 4) / 5 + 1

structure Ends (line : Line) (n stock ms got clock : Nat) (moved : Moved) : Prop where
  more : got ≤ moved.got
  inside : moved.got ≤ max got (min n stock)
  later : clock ≤ moved.clock
  full : moved.outcome = .full → n ≤ moved.got
  short : moved.outcome ≠ .full → moved.got < n
  quiet : moved.outcome = .quiet → turns ms ≤ moved.clock ∧
    ∀ call, moved.clock - turns ms ≤ call → call < moved.clock → Still line (min n stock - moved.got) call
  lost : moved.outcome = .lost → clock < moved.clock ∧ line (moved.clock - 1) = none

theorem move_from {got waited clock pauses : Nat} (paused : waited = 5 * pauses) (before : pauses ≤ clock)
    (patient : pauses < turns ms)
    (still : ∀ call, clock - pauses ≤ call → call < clock → Still line (min n stock - got) call) :
    Ends line n stock ms got clock (move line n stock ms got waited clock) := by
  fun_induction move line n stock ms got waited clock generalizing pauses with
  | case1 got waited clock more fails =>
    exact ⟨Nat.le_refl _, Nat.le_max_left _ _, Nat.le_succ _, by simp, fun _ => more, by simp,
      fun _ => ⟨Nat.lt_succ_self _, fails⟩⟩
  | case2 got waited clock more room takes r none =>
    rename_i ended
    have last : pauses + 1 = turns ms := by
      unfold turns at patient ⊢
      omega
    refine ⟨Nat.le_refl _, Nat.le_max_left _ _, Nat.le_succ _, by simp, fun _ => more, fun _ => ?_, by simp⟩
    refine ⟨by simp only; omega, fun call from_ upto => ?_⟩
    simp only at from_ upto
    rcases Nat.lt_succ_iff_lt_or_eq.mp upto with earlier | now
    · exact still call (by omega) earlier
    · exact ⟨room, now ▸ takes, none⟩
  | case3 got waited clock more room takes r none hopes =>
    rename_i ih
    have ends := @ih (pauses + 1) (by omega) (by omega) (by unfold turns; omega) (by
      intro call from_ upto
      rcases Nat.lt_succ_iff_lt_or_eq.mp upto with earlier | now
      · exact still call (by omega) earlier
      · exact ⟨room, now ▸ takes, none⟩)
    exact ⟨ends.more, ends.inside, Nat.le_of_succ_le ends.later, ends.full, ends.short, ends.quiet,
      fun lost => ⟨Nat.lt_of_succ_lt (ends.lost lost).1, (ends.lost lost).2⟩⟩
  | case4 got waited clock more room takes r moves =>
    rename_i ih
    have ends := @ih 0 rfl (Nat.zero_le _) (Nat.succ_pos _) (by omega)
    have first : got + min room (min n stock - got) ≤ min n stock := by omega
    have inside : (move line n stock ms (got + min room (min n stock - got)) 0 (clock + 1)).got ≤ min n stock :=
      Nat.le_trans ends.inside (Nat.max_le.mpr ⟨first, Nat.le_refl _⟩)
    exact ⟨Nat.le_trans (Nat.le_add_right _ _) ends.more, Nat.le_trans inside (Nat.le_max_right _ _),
      Nat.le_of_succ_le ends.later, ends.full, ends.short, ends.quiet,
      fun lost => ⟨Nat.lt_of_succ_lt (ends.lost lost).1, (ends.lost lost).2⟩⟩
  | case5 got waited clock enough =>
    exact ⟨Nat.le_refl _, Nat.le_max_left _ _, Nat.le_refl _, fun _ => Nat.le_of_not_lt enough, by simp, by simp,
      by simp⟩

theorem move_ends (got clock : Nat) : Ends line n stock ms got clock (move line n stock ms got 0 clock) :=
  (@move_from _ _ _ _ _ _ _ 0) rfl (Nat.zero_le _) (Nat.succ_pos _) (by omega)

theorem move_once {got waited clock room : Nat} (more : got < n) (takes : line clock = some room)
    (wide : n - got ≤ room) (enough : n ≤ stock) :
    move line n stock ms got waited clock = ⟨.full, n, clock + 1⟩ := by
  have rest : min room (min n stock - got) = n - got := by omega
  have some_ : ¬ n - got = 0 := by omega
  have all : got + (n - got) = n := by omega
  rw [move, if_pos more, takes]
  simp only [rest, some_, dite_false, all]
  rw [move, if_neg (Nat.lt_irrefl n)]

theorem move_still {got clock : Nat} (more : got < n)
    (still : ∀ call, clock ≤ call → call < clock + turns ms → Still line (min n stock - got) call) :
    move line n stock ms got 0 clock = ⟨.quiet, got, clock + turns ms⟩ := by
  have from_pause : ∀ left waited later, (∃ pauses, waited = 5 * pauses ∧ pauses + left + 1 = turns ms ∧
      later = clock + pauses) →
      move line n stock ms got waited later = ⟨.quiet, got, clock + turns ms⟩ := by
    intro left
    induction left with
    | zero =>
      rintro waited later ⟨pauses, rfl, last, rfl⟩
      obtain ⟨room, takes, none⟩ := still (clock + pauses) (by omega) (by omega)
      have ended : ms ≤ 5 * pauses := by
        unfold turns at last
        omega
      rw [move, if_pos more, takes]
      simp only [none, ended, dite_true, Moved.mk.injEq, true_and]
      omega
    | succ left ih =>
      rintro waited later ⟨pauses, rfl, last, rfl⟩
      obtain ⟨room, takes, none⟩ := still (clock + pauses) (by omega) (by omega)
      have patient : ¬ ms ≤ 5 * pauses := by
        unfold turns at last
        omega
      rw [move, if_pos more, takes]
      simp only [none, patient, dite_true, dite_false]
      exact ih _ _ ⟨pauses + 1, by omega, by omega, by omega⟩
  exact from_pause (turns ms - 1) 0 clock ⟨0, rfl, by unfold turns; omega, rfl⟩

end Patience
