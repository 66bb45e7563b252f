import Mathlib.Data.List.Basic

/-!
Values laid over a memory. A patch covers some places and says what stands there
afterwards, whatever stood there before. Patches laid one after the other show
through: at a place the last one that covers it counts, and where no two cover one
place, each is seen whole.
-/

namespace Patches

universe u v
variable {Place : Type u} {Value : Type v}

structure Patch (Place : Type u) (Value : Type v) where
  covers : Place → Bool
  value : Place → Value

def lay (mem : Place → Value) (patch : Patch Place Value) : Place → Value := fun place =>
  if patch.covers place then patch.value place else mem place

def layAll (mem : Place → Value) (patches : List (Patch Place Value)) : Place → Value :=
  patches.foldl lay mem

def Covered (patches : List (Patch Place Value)) (place : Place) : Prop :=
  ∃ patch ∈ patches, patch.covers place = true

def Apart (one other : Patch Place Value) : Prop :=
  ∀ place, one.covers place = true → other.covers place = false

variable {mem other : Place → Value} {patches : List (Patch Place Value)}
  {patch : Patch Place Value} {place : Place}

theorem lay_covered (covers : patch.covers place = true) :
    lay mem patch place = patch.value place := if_pos covers

theorem lay_outside (outside : patch.covers place = false) :
    lay mem patch place = mem place := by simp [lay, outside]

theorem layAll_outside (outside : ¬ Covered patches place) : layAll mem patches place = mem place := by
  induction patches generalizing mem with
  | nil => rfl
  | cons first rest ih =>
    have here : first.covers place = false := by
      cases covers : first.covers place with
      | false => rfl
      | true => exact absurd ⟨first, List.mem_cons_self, covers⟩ outside
    have later : ¬ Covered rest place := by
      rintro ⟨patch, member, covers⟩
      exact outside ⟨patch, List.mem_cons_of_mem first member, covers⟩
    change layAll (lay mem first) rest place = mem place
    rw [ih later, lay_outside here]

theorem layAll_covered (apart : patches.Pairwise Apart) (member : patch ∈ patches)
    (covers : patch.covers place = true) : layAll mem patches place = patch.value place := by
  induction patches generalizing mem with
  | nil => cases member
  | cons first rest ih =>
    obtain ⟨away, apart⟩ := List.pairwise_cons.mp apart
    change layAll (lay mem first) rest place = patch.value place
    rcases List.mem_cons.mp member with rfl | later
    · have outside : ¬ Covered rest place := by
        rintro ⟨next, member, covered⟩
        rw [away next member place covers] at covered
        cases covered
      rw [layAll_outside outside, lay_covered covers]
    · exact ih apart later

theorem layAll_congr (same : ∀ place, ¬ Covered patches place → mem place = other place) :
    layAll mem patches = layAll other patches := by
  induction patches generalizing mem other with
  | nil =>
    funext place
    exact same place (by rintro ⟨_, member, _⟩; cases member)
  | cons first rest ih =>
    apply ih
    intro place outside
    cases covers : first.covers place with
    | true => rw [lay_covered covers, lay_covered covers]
    | false =>
      rw [lay_outside covers, lay_outside covers]
      apply same
      rintro ⟨patch, member, covered⟩
      rcases List.mem_cons.mp member with rfl | later
      · rw [covers] at covered
        cases covered
      · exact outside ⟨patch, later, covered⟩

end Patches
