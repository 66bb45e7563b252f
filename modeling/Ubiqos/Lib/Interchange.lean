import Mathlib.Logic.Function.Basic
import Mathlib.Data.List.Basic
import Mathlib.Data.List.Nodup
import Mathlib.Data.List.Range

/-!
Two loops, one in the other, that write to places of a memory. The order of the loops is of no account
where no two turns write to one place. What a loop keeps from one turn to the next is of none where it is
always what a turn would have made afresh.
-/

universe u v w

namespace Interchange

open Function

section Folds
variable {S : Type u} {A : Type v} {B : Type w}

theorem foldl_cached {P : Type w} {right : P → Prop} {step : P × S → A → P × S} {draw : S → A → S}
    (turn : ∀ kept state a, right kept → right (step (kept, state) a).1 ∧ (step (kept, state) a).2 = draw state a)
    (as : List A) {kept : P} (start : right kept) (state : S) :
    (as.foldl step (kept, state)).2 = as.foldl draw state := by
  induction as generalizing kept state with
  | nil => rfl
  | cons a rest ih =>
    obtain ⟨next, same⟩ := turn kept state a start
    rw [List.foldl_cons, List.foldl_cons, ← same]
    exact ih next _

variable {f : S → A → B → S}

theorem foldl_past {g : S → B → S} {step : S → S} {bs : List B}
    (comm : ∀ s, ∀ b ∈ bs, step (g s b) = g (step s) b) (s : S) : step (bs.foldl g s) = bs.foldl g (step s) := by
  induction bs generalizing s with
  | nil => rfl
  | cons b rest ih =>
    rw [List.foldl_cons, List.foldl_cons, ih fun s b member => comm s b (List.mem_cons_of_mem _ member)]
    rw [comm s b List.mem_cons_self]

theorem foldl_swap {as : List A} {bs : List B} (once : as.Nodup) (once' : bs.Nodup)
    (comm : ∀ s, ∀ a ∈ as, ∀ a' ∈ as, ∀ b ∈ bs, ∀ b' ∈ bs, a ≠ a' → b ≠ b' →
      f (f s a b) a' b' = f (f s a' b') a b) (s : S) :
    as.foldl (fun s a => bs.foldl (fun s b => f s a b) s) s =
      bs.foldl (fun s b => as.foldl (fun s a => f s a b) s) s := by
  induction as generalizing s with
  | nil =>
    have still : ∀ bs : List B, bs.foldl (fun s _ => s) s = s := fun bs => by
      induction bs with
      | nil => rfl
      | cons _ rest ih => exact ih
    exact (still bs).symm
  | cons a rest ih =>
    obtain ⟨fresh, once⟩ := List.nodup_cons.mp once
    have inner := fun s a₁ m₁ a₂ m₂ b m b' m' =>
      comm s a₁ (List.mem_cons_of_mem a m₁) a₂ (List.mem_cons_of_mem a m₂) b m b' m'
    rw [List.foldl_cons, ih once inner]
    -- the first column is drawn along with the others, row by row
    clear ih inner
    induction bs generalizing s with
    | nil => rfl
    | cons b bs ih' =>
      obtain ⟨fresh', once'⟩ := List.nodup_cons.mp once'
      rw [List.foldl_cons, List.foldl_cons, List.foldl_cons, List.foldl_cons,
        (@foldl_past _ _ _ (fun s => rest.foldl (fun s a => f s a b) s)) ?_,
        ih' once' fun s a₁ m₁ a₂ m₂ b m b' m' =>
          comm s a₁ m₁ a₂ m₂ b (List.mem_cons_of_mem _ m) b' (List.mem_cons_of_mem _ m')]
      intro s b' member
      have other : b' ≠ b := fun same => fresh' (same ▸ member)
      refine ((@foldl_past _ _ (fun s a => f s a b) (fun s => f s a b')) ?_ s).symm
      intro s a' member'
      have apart : a' ≠ a := fun same => fresh (same ▸ member')
      exact comm s a' (List.mem_cons_of_mem _ member') a List.mem_cons_self b List.mem_cons_self b'
        (List.mem_cons_of_mem _ member) apart other.symm

end Folds

section Memory
variable {α : Type u}

/-- `count` values from `out` on. -/
def lay (count : Nat) (value : Nat → α) (out : Nat) (mem : Nat → α) : Nat → α :=
  (List.range count).foldl (fun mem i => update mem (out + i) (value i)) mem

variable {count other out out' : Nat} {value value' : Nat → α} {mem : Nat → α}

theorem lay_apply (i : Nat) :
    lay count value out mem i = if out ≤ i ∧ i < out + count then value (i - out) else mem i := by
  induction count with
  | zero => exact (if_neg (by omega)).symm
  | succ count ih =>
    unfold lay at ih ⊢
    rw [List.range_succ, List.foldl_append, List.foldl_cons, List.foldl_nil]
    by_cases here : i = out + count
    · rw [here, update_self, if_pos (by omega), Nat.add_sub_cancel_left]
    · rw [update_of_ne here, ih]
      exact if_congr (by omega) rfl rfl

theorem lay_comm (apart : out + count ≤ out' ∨ out' + other ≤ out) :
    lay other value' out' (lay count value out mem) = lay count value out (lay other value' out' mem) := by
  funext i
  rw [lay_apply, lay_apply, lay_apply, lay_apply]
  by_cases here : out ≤ i ∧ i < out + count
  · rw [if_pos here, if_neg (by omega), if_pos here]
  · rw [if_neg here, if_neg here]

theorem row_apply {width : Nat} (wide : 0 < width) (piece : Nat → Nat → α) (base n i : Nat) :
    (List.range n).foldl (fun mem col => lay width (piece col) (base + col * width) mem) mem i =
      if base ≤ i ∧ i < base + n * width then piece ((i - base) / width) ((i - base) % width) else mem i := by
  induction n with
  | zero => exact (if_neg (by omega)).symm
  | succ n ih =>
    rw [List.range_succ, List.foldl_append, List.foldl_cons, List.foldl_nil, lay_apply, ih, Nat.succ_mul]
    by_cases here : base + n * width ≤ i ∧ i < base + n * width + width
    · have split : i - base = (i - (base + n * width)) + n * width := by omega
      have within : i - (base + n * width) < width := by omega
      rw [if_pos here, if_pos (by omega), split, Nat.add_mul_div_right _ _ wide, Nat.add_mul_mod_self_right,
        Nat.div_eq_of_lt within, Nat.mod_eq_of_lt within, Nat.zero_add]
    · rw [if_neg here]
      exact if_congr (by omega) rfl rfl

theorem columns_rows {n rows width words : Nat} (fits : n * width ≤ words) (piece : Nat → Nat → Nat → α) (base : Nat) :
    (List.range n).foldl (fun mem col => (List.range rows).foldl (fun mem row =>
        lay width (piece row col) (base + col * width + row * words) mem) mem) mem =
      (List.range rows).foldl (fun mem row => (List.range n).foldl (fun mem col =>
        lay width (piece row col) (base + row * words + col * width) mem) mem) mem := by
  have within : ∀ {col}, col ∈ List.range n → col * width + width ≤ words := by
    intro col inside
    have step := Nat.mul_le_mul_right width (List.mem_range.mp inside)
    rw [Nat.succ_mul] at step
    exact step.trans fits
  refine (foldl_swap List.nodup_range List.nodup_range ?_ mem).trans ?_
  · intro mem col inside col' inside' row _ row' _ _ differ
    have first := within inside
    have second := within inside'
    apply lay_comm
    rcases Nat.lt_or_gt_of_ne differ with before | after
    · have step := Nat.mul_le_mul_right words before
      rw [Nat.succ_mul] at step
      omega
    · have step := Nat.mul_le_mul_right words after
      rw [Nat.succ_mul] at step
      omega
  · refine List.foldl_ext _ _ _ fun mem row _ => List.foldl_ext _ _ _ fun mem col _ => ?_
    rw [Nat.add_right_comm]

end Memory

end Interchange
