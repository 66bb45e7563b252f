import Mathlib.Data.List.Basic
import Mathlib.Data.List.Infix

/-!
A list with blanks put in anywhere. What a blank is is given; an entry of the
list that looks like a blank may be taken for one, so the relation is kept as
one and not as a function that deletes.
-/

namespace Blanks

universe u
variable {Entry : Type u} {blank : Entry}

inductive Spaced (blank : Entry) : List Entry → List Entry → Prop
  | nil : Spaced blank [] []
  | blank {words entries : List Entry} : Spaced blank words entries →
      Spaced blank (blank :: words) entries
  | entry {words entries : List Entry} (first : Entry) : Spaced blank words entries →
      Spaced blank (first :: words) (first :: entries)

variable {words more entries others : List Entry}

theorem Spaced.append (front : Spaced blank words entries) (back : Spaced blank more others) :
    Spaced blank (words ++ more) (entries ++ others) := by
  induction front with
  | nil => exact back
  | blank _ ih => exact .blank ih
  | entry first _ ih => exact .entry first ih

theorem Spaced.blanks (only : ∀ word ∈ words, word = blank) : Spaced blank words [] := by
  induction words with
  | nil => exact .nil
  | cons word rest ih =>
    obtain rfl := only word List.mem_cons_self
    exact .blank (ih (fun other later => only other (List.mem_cons_of_mem word later)))

@[simp] theorem nil_iff : Spaced blank [] entries ↔ entries = [] := by
  constructor
  · intro spaced
    cases spaced
    rfl
  · rintro rfl
    exact .nil

theorem Spaced.set_blank (spaced : Spaced blank words entries) (i : Nat) :
    ∃ kept, kept.Sublist entries ∧ Spaced blank (words.set i blank) kept := by
  induction spaced generalizing i with
  | nil => exact ⟨[], List.Sublist.refl _, .nil⟩
  | blank spaced ih =>
    cases i with
    | zero => exact ⟨_, List.Sublist.refl _, .blank spaced⟩
    | succ i =>
      obtain ⟨kept, among, rest⟩ := ih i
      exact ⟨kept, among, .blank rest⟩
  | entry first spaced ih =>
    cases i with
    | zero => exact ⟨_, List.sublist_cons_self _ _, .blank spaced⟩
    | succ i =>
      obtain ⟨kept, among, rest⟩ := ih i
      exact ⟨first :: kept, among.cons_cons first, .entry first rest⟩

theorem Spaced.loud_le [DecidableEq Entry] (spaced : Spaced blank words entries) :
    (words.filter (· ≠ blank)).length ≤ entries.length := by
  induction spaced with
  | nil => exact Nat.le_refl _
  | blank _ ih => simpa using ih
  | entry first _ ih =>
    rw [List.filter_cons]
    split
    · simpa using ih
    · exact ih.trans (Nat.le_succ _)

end Blanks
