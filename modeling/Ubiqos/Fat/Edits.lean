import Ubiqos.Fat.Slots

/-!
What the directory functions find and what they write, in terms of slots.
-/

namespace Ubiqos.Fat

open Function Prog Intrusive

def Scan.found {σ ρ : Type} : Scan σ (Option ρ) → Option ρ
  | .stop result => result
  | .more _ => none

/-- `find_entry` as a pass over slots. -/
def lookup (junk : Nat → Byte) (name83 : List Byte) (wantLong : Option (List Byte))
    (slots : List Slot) : Option Entry :=
  (scanSlots (findEntryVisit name83 wantLong) slots
    (lfnReset { name := junk, valid := false })).found

def Entry.plain (e : Entry) : Prop := e.isEnd = false ∧ e.deleted = false ∧ e.fragment = false

/-- The run reported by a search: the fragments right before an entry, and the
entry, with no end of the directory before it. -/
structure FoundIn (slots : List Slot) (f : Found) (e : Entry) : Prop where
  slot : slots[f.last]? = some ⟨f.lba, f.off, e⟩
  plain : e.plain
  before : ∀ j < f.last, ∀ slot : Slot, slots[j]? = some slot → slot.entry.isEnd = false
  ordered : f.first ≤ f.last
  run : ∀ j, f.first ≤ j → j < f.last → ∀ slot : Slot, slots[j]? = some slot →
    slot.entry.fragment = true ∧ slot.entry.deleted = false

section Finding
variable {name83 : List Byte} {wantLong : Option (List Byte)}

end Finding

section Programs
variable {s : Fs} {dir : Nat} {nodes : List Nat}

theorem freshLfn_run (s : Fs) : freshLfn.run s =
    some (lfnReset { name := s.stack s.calls, valid := false }, { s with calls := s.calls + 1 }) := by
  simp [freshLfn]

end Programs

end Ubiqos.Fat
