import Mathlib.Data.List.Basic

/-!
Output through a buffer of limited size. What does not fit is written out first, and long pieces may
go past the buffer. A step is known by what it adds to the whole output.
-/

universe u

namespace Buffered

variable {α : Type u}

structure Sink (α : Type u) where
  waiting : List α
  count : Nat
  written : List (List α)

def Sink.output (s : Sink α) : List α := s.written.flatten ++ s.waiting

def Sink.total (s : Sink α) : Nat := s.count + s.waiting.length

def flush (s : Sink α) : Sink α :=
  if s.waiting = [] then s
  else ⟨[], s.count + s.waiting.length, s.written ++ [s.waiting]⟩

def push (size : Nat) (s : Sink α) (x : α) : Sink α :=
  let s := if s.waiting.length = size then flush s else s
  { s with waiting := s.waiting ++ [x] }

def pass (s : Sink α) (xs : List α) : Sink α :=
  let s := flush s
  if xs = [] then s else { s with count := s.count + xs.length, written := s.written ++ [xs] }

/-- A step that adds `xs` to the output, wherever the pieces were cut. -/
def Emits (step : Sink α → Sink α) (xs : List α) : Prop :=
  ∀ s, (step s).output = s.output ++ xs ∧ (step s).total = s.total + xs.length

variable {size : Nat} {f g : Sink α → Sink α} {xs ys : List α}

theorem emits_nil : Emits (fun s : Sink α => s) [] := fun s => by simp

theorem Emits.next (first : Emits f xs) (second : Emits g ys) : Emits (fun s => g (f s)) (xs ++ ys) := by
  intro s
  obtain ⟨output, total⟩ := first s
  obtain ⟨output', total'⟩ := second (f s)
  rw [output', total', output, total, List.append_assoc, List.length_append, Nat.add_assoc]
  exact ⟨rfl, rfl⟩

theorem emits_flush : Emits (flush (α := α)) [] := by
  intro s
  unfold flush
  split
  · simp
  · simp [Sink.output, Sink.total]

theorem flush_waiting (s : Sink α) : (flush s).waiting = [] := by
  unfold flush
  split
  · assumption
  · rfl

theorem emits_push (size : Nat) (x : α) : Emits (push size · x) [x] := by
  have add : Emits (fun s : Sink α => { s with waiting := s.waiting ++ [x] }) [x] := fun s => by
    simp [Sink.output, Sink.total, Nat.add_assoc]
  intro s
  by_cases full : s.waiting.length = size
  · simpa only [push, full, ↓reduceIte, List.nil_append] using (emits_flush.next add) s
  · simpa only [push, full, ↓reduceIte] using add s

theorem emits_pass (xs : List α) : Emits (pass · xs) xs := by
  have direct : Emits (fun s : Sink α => pass s xs) ([] ++ xs) := by
    intro s
    obtain ⟨output, total⟩ := emits_flush s
    have empty := flush_waiting s
    rw [List.append_nil] at output
    rw [List.nil_append]
    unfold pass
    split
    · rename_i none
      rw [none]
      exact ⟨by rw [output, List.append_nil], total⟩
    · simp only [Sink.output, Sink.total, empty, List.append_nil, List.length_nil] at output total ⊢
      rw [List.flatten_append, output]
      simp
      omega
  exact direct

theorem emits_foldl {β : Type*} {step : Sink α → β → Sink α} {out : β → List α}
    (each : ∀ b, Emits (step · b) (out b)) (bs : List β) :
    Emits (fun s => bs.foldl step s) (bs.flatMap out) := by
  induction bs with
  | nil => exact emits_nil
  | cons b bs ih => exact (each b).next ih

theorem emits_pushAll (size : Nat) (xs : List α) : Emits (fun s => xs.foldl (push size) s) xs := by
  have all := emits_foldl (emits_push size) xs
  rwa [List.flatMap_singleton'] at all

theorem written_flush (s : Sink α) : (flush s).written.flatten = s.output := by
  have whole := (emits_flush s).1
  rwa [Sink.output, flush_waiting, List.append_nil, List.append_nil] at whole

end Buffered
