import Mathlib.Data.List.Basic

/-!
Records laid one after another into a room that may end inside one of them. A record is begun
only where its head fits; what is cut off is then in the record's body.
-/

universe u

namespace Pages

variable {α : Type u}

def page (head : Nat) : Nat → List (List α) → List α
  | _, [] => []
  | room, r :: rest =>
    if room < head then []
    else if room < r.length then r.take room
    else r ++ page head (room - r.length) rest

def whole : Nat → List (List α) → Nat
  | _, [] => 0
  | room, r :: rest => if room < r.length then 0 else whole (room - r.length) rest + 1

variable {head : Nat}

theorem page_length (room : Nat) (records : List (List α)) : (page head room records).length ≤ room := by
  induction records generalizing room with
  | nil => exact Nat.zero_le _
  | cons r rest ih =>
    rw [page]
    split
    · exact Nat.zero_le _
    · split
      · exact List.length_take_le _ _
      · have tail := ih (room - r.length)
        rw [List.length_append]
        omega

theorem whole_le (room : Nat) (records : List (List α)) : whole room records ≤ records.length := by
  induction records generalizing room with
  | nil => exact Nat.le_refl _
  | cons r rest ih =>
    rw [whole]
    split
    · exact Nat.zero_le _
    · exact Nat.succ_le_succ (ih _)

variable {room : Nat}

theorem whole_pos {r : List α} (rest : List (List α)) (fits : r.length ≤ room) :
    0 < whole room (r :: rest) := by
  rw [whole, if_neg (Nat.not_lt.mpr fits)]
  exact Nat.succ_pos _

variable {records : List (List α)}

theorem page_short (heads : ∀ r ∈ records, head ≤ r.length)
    (short : (page head room records).length < room) :
    whole room records = records.length ∨ room < (page head room records).length + head := by
  induction records generalizing room with
  | nil => exact Or.inl rfl
  | cons r rest ih =>
    obtain ⟨headed, heads⟩ := List.forall_mem_cons.mp heads
    rw [page] at short ⊢
    rw [whole]
    by_cases none : room < head
    · exact Or.inr (Nat.lt_of_lt_of_le none (Nat.le_add_left _ _))
    · rw [if_neg none] at short ⊢
      by_cases cut : room < r.length
      · rw [if_pos cut, List.length_take] at short
        omega
      · rw [if_neg cut, List.length_append] at short
        rw [if_neg cut, if_neg cut, List.length_append, List.length_cons]
        have tail := @ih (room - r.length) heads (by omega)
        omega

theorem page_split (heads : ∀ r ∈ records, head ≤ r.length) :
    ∃ cut, page head room records = (records.take (whole room records)).flatten ++ cut ∧
      (cut = [] ∨ ∃ r ∈ records, cut <+: r ∧ head ≤ cut.length ∧ cut.length < r.length) := by
  induction records generalizing room with
  | nil => exact ⟨[], rfl, Or.inl rfl⟩
  | cons r rest ih =>
    obtain ⟨headed, heads⟩ := List.forall_mem_cons.mp heads
    rw [page, whole]
    by_cases none : room < head
    · rw [if_pos none, if_pos (Nat.lt_of_lt_of_le none headed)]
      exact ⟨[], rfl, Or.inl rfl⟩
    · rw [if_neg none]
      by_cases cut : room < r.length
      · rw [if_pos cut, if_pos cut]
        refine ⟨r.take room, rfl, Or.inr ⟨r, List.mem_cons_self .., List.take_prefix _ _, ?_⟩⟩
        rw [List.length_take]
        omega
      · obtain ⟨cut', same, front⟩ := @ih (room - r.length) heads
        rw [if_neg cut, if_neg cut, same, List.take_succ_cons, List.flatten_cons]
        exact ⟨cut', (List.append_assoc ..).symm,
          front.imp_right fun ⟨r', mem, rest⟩ => ⟨r', List.mem_cons_of_mem _ mem, rest⟩⟩

end Pages
