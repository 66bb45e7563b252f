import Mathlib.Data.List.Basic

/-!
A machine that takes items one at a time, keeps those that make no block yet, and folds each
whole block into its state. What it holds depends on the items alone, not on how they come
in pieces; and over whole blocks it is the fold of its compression.
-/

universe u v

namespace Absorb

variable {State : Type u} {Item : Type v}

/-- The state, and the items of the block that is not whole yet. -/
abbrev Machine (State : Type u) (Item : Type v) := State × List Item

def feed (size : Nat) (compress : State → List Item → State) (machine : Machine State Item)
    (item : Item) : Machine State Item :=
  if machine.2.length + 1 = size then (compress machine.1 (machine.2 ++ [item]), [])
  else (machine.1, machine.2 ++ [item])

def absorb (size : Nat) (compress : State → List Item → State) (machine : Machine State Item)
    (items : List Item) : Machine State Item :=
  items.foldl (feed size compress) machine

def chain (size : Nat) (compress : State → List Item → State) (start : State) (items : List Item) :
    Nat → State
  | 0 => start
  | n + 1 => compress (chain size compress start items n) ((items.drop (size * n)).take size)

variable {size : Nat} {compress : State → List Item → State} {machine : Machine State Item}
  {state : State} {pending items : List Item}

theorem absorb_append (first rest : List Item) :
    absorb size compress machine (first ++ rest) =
      absorb size compress (absorb size compress machine first) rest := List.foldl_append

theorem absorb_short (short : pending.length + items.length < size) :
    absorb size compress (state, pending) items = (state, pending ++ items) := by
  induction items generalizing pending with
  | nil => rw [List.append_nil]; rfl
  | cons item rest ih =>
    rw [List.length_cons] at short
    have kept : feed size compress (state, pending) item = (state, pending ++ [item]) := by
      unfold feed
      exact if_neg (by dsimp only; omega)
    have shorter : (pending ++ [item]).length + rest.length < size := by
      rw [List.length_append, List.length_singleton]
      omega
    calc absorb size compress (state, pending) (item :: rest)
        = absorb size compress (state, pending ++ [item]) rest := congrArg (absorb size compress · rest) kept
      _ = (state, pending ++ item :: rest) := by rw [ih shorter, List.append_assoc, List.singleton_append]

theorem absorb_whole (whole : pending.length + items.length = size) (some : items ≠ []) :
    absorb size compress (state, pending) items = (compress state (pending ++ items), []) := by
  obtain ⟨before, last, rfl⟩ := List.eq_nil_or_concat' items |>.resolve_left some
  rw [List.length_append, List.length_singleton] at whole
  have full : (pending ++ before).length + 1 = size := by
    rw [List.length_append]
    omega
  have kept : absorb size compress (state, pending) before = (state, pending ++ before) :=
    absorb_short (by omega)
  rw [absorb_append, kept, ← List.append_assoc]
  exact if_pos full

theorem absorb_pending (short : machine.2.length < size) :
    (absorb size compress machine items).2.length = (machine.2.length + items.length) % size := by
  induction items generalizing machine with
  | nil => exact (Nat.mod_eq_of_lt short).symm
  | cons item rest ih =>
    rw [List.length_cons]
    by_cases full : machine.2.length + 1 = size
    · have whole : feed size compress machine item = (compress machine.1 (machine.2 ++ [item]), []) :=
        if_pos full
      have wrap : machine.2.length + (rest.length + 1) = rest.length + size := by omega
      have next := @ih (feed size compress machine item) (by rw [whole]; exact Nat.zero_lt_of_lt short)
      rw [whole] at next
      rw [wrap, Nat.add_mod_right]
      simpa [absorb, whole] using next
    · have kept : feed size compress machine item = (machine.1, machine.2 ++ [item]) := if_neg full
      have next := @ih (feed size compress machine item)
        (by rw [kept, List.length_append, List.length_singleton]; omega)
      rw [kept, List.length_append, List.length_singleton, Nat.add_assoc, Nat.add_comm 1] at next
      simpa [absorb, kept] using next

theorem absorb_chain {n : Nat} (some : 0 < size) (enough : size * n ≤ items.length) :
    absorb size compress (state, []) (items.take (size * n)) = (chain size compress state items n, []) := by
  induction n with
  | zero => simp [absorb, chain]
  | succ n ih =>
    rw [Nat.mul_succ] at enough
    have block : ((items.drop (size * n)).take size).length = size := by
      rw [List.length_take, List.length_drop]
      omega
    have present : (items.drop (size * n)).take size ≠ [] := by
      intro none
      rw [none] at block
      exact (Nat.ne_of_lt some) block
    rw [Nat.mul_succ, List.take_add, absorb_append, ih (by omega),
      absorb_whole (by rw [block]; exact Nat.zero_add size) present]
    rfl

end Absorb
