import Ubiqos.Fat.Growth

/-!
The two spellings of a new name. Whatever the last component of a path is, the
short name made for it can begin an entry: its first byte is not one that ends
a directory, marks an entry deleted or belongs to the two dot entries.
-/

namespace Ubiqos.Fat

open Function Prog Intrusive

theorem dot_split (name : List Byte) :
    (chr '.' ∉ name ∧ stemLength name = name.length ∧ extension name = []) ∨
    ∃ front back, name = front ++ chr '.' :: back ∧ chr '.' ∉ back ∧
      stemLength name = front.length ∧ extension name = back := by
  have found : (chr '.' ∉ name ∧ lastDot name = none) ∨
      ∃ front back, name = front ++ chr '.' :: back ∧ chr '.' ∉ back ∧
        lastDot name = some front.length := by
    induction name with
    | nil => exact .inl ⟨by simp, rfl⟩
    | cons c rest ih =>
      rcases ih with ⟨absent, none'⟩ | ⟨front, back, split', absent, some'⟩
      · by_cases dot : c = chr '.'
        · exact .inr ⟨[], rest, by simp [dot], absent, by simp [lastDot, none', dot]⟩
        · refine .inl ⟨?_, by simp [lastDot, none', dot]⟩
          intro member
          rcases List.mem_cons.mp member with here | later
          · exact dot here.symm
          · exact absent later
      · exact .inr ⟨c :: front, back, by simp [split'], absent, by simp [lastDot, some']⟩
  rcases found with ⟨absent, none'⟩ | ⟨front, back, split', absent, some'⟩
  · exact .inl ⟨absent, by simp [stemLength, none'], by simp [extension, none']⟩
  · refine .inr ⟨front, back, split', absent, by simp [stemLength, some'], ?_⟩
    simp only [extension, some']
    rw [split']
    simp

def Short (name : List Byte) : Prop :=
  stemLength name ≠ 0 ∧ stemLength name ≤ 8 ∧ (extension name).length ≤ 3 ∧
    name.count (chr '.') ≤ 1

theorem nameTo83_some {name short : List Byte} (some' : nameTo83 name = some short) :
    Short name ∧ short = padded 8 ((name.take (stemLength name)).map upper) ++
      padded 3 ((extension name).map upper) := by
  simp only [nameTo83] at some'
  split at some'
  · cases some'
  · split at some'
    · cases some'
    · cases some'
      exact ⟨⟨by omega, by omega, by omega, by omega⟩, rfl⟩

variable {name : List Byte}

theorem Short.length (short : Short name) : name.length ≤ 12 := by
  obtain ⟨_, few, ext, _⟩ := short
  rcases dot_split name with ⟨_, stem, _⟩ | ⟨front, back, split', _, stem, rest⟩
  · omega
  · rw [stem] at few
    rw [rest] at ext
    rw [split', List.length_append, List.length_cons]
    omega

theorem length_padded (n : Nat) (name : List Byte) (few : name.length ≤ n) :
    (padded n name).length = n := by
  simp only [padded, List.length_append, List.length_replicate]
  omega

end Ubiqos.Fat
