import Mathlib.Data.List.Infix
import Mathlib.Data.List.TakeWhile

/-!
A list cut into parts of which each begins with a mark. When every part has one
mark there is only one way to cut it, also among parts that might have more.
-/

namespace Parts

universe u
variable {α : Type u} (mark : α → Bool)

def Begins (part : List α) : Prop := ∃ first rest, part = first :: rest ∧ mark first = true

structure Single (part : List α) : Prop where
  begins : Begins mark part
  once : part.countP mark = 1

variable {mark}

theorem Begins.marked {part : List α} (begins : Begins mark part) : 1 ≤ part.countP mark := by
  obtain ⟨first, rest, rfl, marked⟩ := begins
  simp [marked]

variable {parts : List (List α)}

theorem length_le_marks (begins : ∀ part ∈ parts, Begins mark part) :
    parts.length ≤ parts.flatten.countP mark := by
  induction parts with
  | nil => simp
  | cons part rest ih =>
    have here := (begins part (by simp)).marked
    have later := ih fun other member => begins other (by simp [member])
    simp only [List.flatten_cons, List.countP_append, List.length_cons]
    omega

theorem single_of_marks (begins : ∀ part ∈ parts, Begins mark part)
    (few : parts.flatten.countP mark ≤ parts.length) : ∀ part ∈ parts, Single mark part := by
  induction parts with
  | nil => simp
  | cons part rest ih =>
    have here := (begins part (by simp)).marked
    have later : ∀ other ∈ rest, Begins mark other := fun other member =>
      begins other (by simp [member])
    have least := length_le_marks later
    simp only [List.flatten_cons, List.countP_append, List.length_cons] at few
    intro other member
    rcases List.mem_cons.mp member with rfl | member
    · exact ⟨begins other (by simp), by omega⟩
    · exact ih later (by omega) other member

theorem marks_of_single (single : ∀ part ∈ parts, Single mark part) :
    parts.flatten.countP mark = parts.length := by
  induction parts with
  | nil => rfl
  | cons part rest ih =>
    have here := (single part (by simp)).once
    have later := ih fun other member => single other (by simp [member])
    simp only [List.flatten_cons, List.countP_append, List.length_cons]
    omega

theorem flatten_begins (begins : ∀ part ∈ parts, Begins mark part) :
    parts.flatten = [] ∨ Begins mark parts.flatten := by
  cases parts with
  | nil => exact .inl rfl
  | cons part rest =>
    obtain ⟨first, tail, rfl, marked⟩ := begins part (by simp)
    exact .inr ⟨first, tail ++ rest.flatten, rfl, marked⟩

theorem Single.takeWhile {part more : List α} (single : Single mark part)
    (next : more = [] ∨ Begins mark more) :
    ∃ first, part = first :: (part ++ more).tail.takeWhile (fun a => !mark a) := by
  obtain ⟨⟨first, rest, rfl, marked⟩, once⟩ := single
  refine ⟨first, ?_⟩
  have clear : ∀ a ∈ rest, mark a = false := by
    simp only [List.countP_cons, marked, if_true] at once
    have none' : rest.countP mark = 0 := by omega
    simpa using List.countP_eq_zero.mp none'
  have stops : more.takeWhile (fun a => !mark a) = [] := by
    rcases next with rfl | ⟨later, tail, rfl, marked'⟩
    · rfl
    · simp [marked']
  simp only [List.cons_append, List.tail_cons]
  rw [List.takeWhile_append_of_pos (by simpa using clear), stops, List.append_nil]

theorem parts_unique {parts others : List (List α)}
    (single : ∀ part ∈ parts, Single mark part) (single' : ∀ part ∈ others, Single mark part)
    (same : parts.flatten = others.flatten) : parts = others := by
  have count : parts.length = others.length := by
    rw [← marks_of_single single, ← marks_of_single single', same]
  induction parts generalizing others with
  | nil => exact (List.eq_nil_of_length_eq_zero count.symm).symm
  | cons part rest ih =>
    cases others with
    | nil => cases count
    | cons other rest' =>
      have later : ∀ p ∈ rest, Single mark p := fun p member => single p (by simp [member])
      have later' : ∀ p ∈ rest', Single mark p := fun p member => single' p (by simp [member])
      simp only [List.flatten_cons] at same
      obtain ⟨first, cut⟩ := (single part (by simp)).takeWhile
        (flatten_begins fun p member => (later p member).begins)
      obtain ⟨first', cut'⟩ := (single' other (by simp)).takeWhile
        (flatten_begins fun p member => (later' p member).begins)
      have heads : first = first' := by
        rw [cut, cut'] at same
        exact (List.cons.inj same).1
      have here : part = other := by
        rw [cut, cut', heads, same]
      subst here
      rw [ih later later' (List.append_cancel_left same) (by simpa using count)]

theorem parts_forced {parts others : List (List α)} (begins : ∀ part ∈ parts, Begins mark part)
    (single : ∀ part ∈ others, Single mark part) (count : parts.length = others.length)
    (same : parts.flatten = others.flatten) : parts = others := by
  refine parts_unique (single_of_marks begins ?_) single same
  rw [same, marks_of_single single]
  exact Nat.le_of_eq count.symm

end Parts

/-!
A pattern looked for in a stream that comes one element at a time. The matcher
keeps only how much of the pattern ends what it has seen, so a stream may be cut
anywhere.
-/

namespace Matcher

universe u
variable {α : Type u} {pattern seen : List α} {m : Nat} {a : α}

structure Held (pattern seen : List α) (m : Nat) : Prop where
  within : m ≤ pattern.length
  ends : pattern.take m <:+ seen
  most : ∀ k ≤ pattern.length, pattern.take k <:+ seen → k ≤ m

instance [DecidableEq α] : Decidable (Held pattern seen m) :=
  decidable_of_iff
    (m ≤ pattern.length ∧ pattern.take m <:+ seen ∧
      ∀ k ≤ pattern.length, pattern.take k <:+ seen → k ≤ m)
    ⟨fun held => ⟨held.1, held.2.1, held.2.2⟩, fun held => ⟨held.within, held.ends, held.most⟩⟩

def Exact (pattern : List α) (next : Nat → α → Nat) : Prop :=
  ∀ m < pattern.length, ∀ a, Held pattern (pattern.take m ++ [a]) (next m a)

theorem suffix_snoc {front : List α} {a b : α} :
    front ++ [a] <:+ seen ++ [b] ↔ front <:+ seen ∧ a = b := by
  constructor
  · rintro ⟨before, same⟩
    rw [← List.append_assoc] at same
    obtain ⟨front', last⟩ := List.append_inj' same rfl
    cases last
    exact ⟨⟨before, front'⟩, rfl⟩
  · rintro ⟨⟨before, rfl⟩, rfl⟩
    exact ⟨before, (List.append_assoc ..).symm⟩

theorem Held.next {next : Nat → α → Nat} (held : Held pattern seen m) (short : m < pattern.length)
    (exact : Exact pattern next) : Held pattern (seen ++ [a]) (next m a) := by
  have step := exact m short a
  refine ⟨step.within, ?_, ?_⟩
  · exact step.ends.trans (suffix_snoc.mpr ⟨held.ends, rfl⟩)
  · intro k within ends
    cases k with
    | zero => exact Nat.zero_le _
    | succ k =>
      apply step.most _ within
      rw [List.take_succ_eq_append_getElem within] at ends ⊢
      obtain ⟨front, last⟩ := suffix_snoc.mp ends
      have fits : k ≤ m := held.most k (by omega) front
      have inner : pattern.take k <:+ pattern.take m := by
        apply List.suffix_of_suffix_length_le front held.ends
        simp only [List.length_take]
        omega
      exact suffix_snoc.mpr ⟨inner, last⟩

theorem held_nil : Held pattern [] 0 := by
  refine ⟨Nat.zero_le _, by simp, ?_⟩
  intro k within ends
  have short := List.suffix_nil.mp ends
  rw [List.take_eq_nil_iff] at short
  rcases short with none' | empty
  · omega
  · simp [empty] at within
    omega

theorem Held.whole (held : Held pattern seen m) : m = pattern.length ↔ pattern <:+ seen := by
  constructor
  · rintro rfl
    have ends := held.ends
    rwa [List.take_length] at ends
  · intro ends
    have reached := held.most pattern.length (Nat.le_refl _) (by rwa [List.take_length])
    have within := held.within
    omega

def Unended (pattern seen : List α) : Prop :=
  ∀ front, front <+: seen → front ≠ seen → ¬ pattern <:+ front

instance [DecidableEq α] : Decidable (Unended pattern seen) :=
  decidable_of_iff (∀ front ∈ seen.inits, front ≠ seen → ¬ pattern <:+ front)
    (by simp only [List.mem_inits, Unended])

theorem Unended.front (unended : Unended pattern (seen ++ [a])) :
    Unended pattern seen ∧ ¬ pattern <:+ seen := by
  refine ⟨?_, ?_⟩
  · intro front prior _
    apply unended front (prior.trans (List.prefix_append seen [a]))
    rintro rfl
    have longer := prior.length_le
    simp only [List.length_append, List.length_singleton] at longer
    omega
  · exact unended seen (List.prefix_append seen [a]) (by simp)

theorem foldl_held {next : Nat → α → Nat} (exact : Exact pattern next)
    (unended : Unended pattern seen) : Held pattern seen (seen.foldl next 0) := by
  induction seen using List.reverseRecOn with
  | nil => exact held_nil
  | append_singleton seen a ih =>
    obtain ⟨front, absent⟩ := unended.front
    have held := ih front
    have short : seen.foldl next 0 < pattern.length := by
      apply Nat.lt_of_le_of_ne held.within
      intro whole
      exact absent (held.whole.mp whole)
    rw [List.foldl_append]
    exact held.next short exact

end Matcher
