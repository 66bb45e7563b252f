import Ubiqos.Fat.Edits

/-!
Making room for a new entry: the free slots a directory has, the cluster it
gets when they do not suffice, and the fragments written into them.
-/

namespace Ubiqos.Fat

open Function Prog Intrusive

def Entry.vacant (e : Entry) : Bool := e.isEnd || e.deleted

def Sealed (slots : List Slot) : Prop :=
  ∀ (j k : Nat) (first later : Slot), j ≤ k → slots[j]? = some first → first.entry.isEnd = true →
    slots[k]? = some later → later.entry.vacant = true

/-- Room for `count` entries from slot `f` on. In a directory that is sealed it
lies before or at the end. -/
structure Room (slots : List Slot) (f count : Nat) : Prop where
  fits : f + count ≤ slots.length
  vacant : ∀ (j : Nat) (slot : Slot), f ≤ j → j < f + count → slots[j]? = some slot →
    slot.entry.vacant = true
  front : Sealed slots → ∀ (j : Nat) (slot : Slot), j < f → slots[j]? = some slot →
    slot.entry.isEnd = false

section Gaps
variable {count : Nat}

end Gaps

end Ubiqos.Fat
