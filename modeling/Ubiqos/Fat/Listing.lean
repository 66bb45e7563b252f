import Ubiqos.Fat.Spelling

/-!
A directory read as a list of runs: each run is an entry in use and the
fragments right before it. A search finds the first run that answers to the name.
-/

namespace Ubiqos.Fat

open Function

/-- An entry in use with the fragments before it. `first` and `index` are the
numbers of the run's first slot and of the entry's. -/
structure Run where
  frags : List Entry
  slot : Slot
  first : Nat
  index : Nat

/-- Where a reader of slots is: the next slot's number, and the fragments
directly before it with the number of the first. -/
structure Pass where
  start : Nat
  index : Nat
  frags : List Entry

def Pass.step (p : Pass) (slot : Slot) : Pass :=
  if slot.entry.deleted then ⟨p.index + 1, p.index + 1, []⟩
  else if slot.entry.fragment then ⟨p.start, p.index + 1, p.frags ++ [slot.entry]⟩
  else ⟨p.index + 1, p.index + 1, []⟩

def runsFrom (p : Pass) : List Slot → List Run
  | [] => []
  | slot :: rest =>
    if slot.entry.isEnd then []
    else if slot.entry.deleted || slot.entry.fragment then runsFrom (p.step slot) rest
    else ⟨p.frags, slot, p.start, p.index⟩ :: runsFrom (p.step slot) rest

def runs (slots : List Slot) : List Run := runsFrom ⟨0, 0, []⟩ slots

/-- The accumulator after some fragments, over memory that held `junk`. -/
def gather (junk : Nat → Byte) (frags : List Entry) : Lfn :=
  frags.foldl lfnTake (lfnReset { name := junk, valid := false })

def Run.answers (r : Run) (junk : Nat → Byte) (name83 : List Byte) (wantLong : Option (List Byte)) :
    Bool :=
  answersTo (gather junk r.frags) r.slot.entry name83 wantLong

section Passing
variable {p : Pass} {slots : List Slot}

variable {front back : List Slot}

end Passing

section Searching
variable {name83 : List Byte} {wantLong : Option (List Byte)}

theorem lfnReset_gather (l : Lfn) : lfnReset l = gather l.name [] := rfl

theorem gather_snoc (junk : Nat → Byte) (frags : List Entry) (e : Entry) :
    gather junk (frags ++ [e]) = lfnTake (gather junk frags) e := by
  simp [gather]

/-- A scanner that keeps the accumulator of the reader finds the first run that
answers. What a run is compared with may still hold old bytes. -/
inductive Finds (answers : (Nat → Byte) → Run → Bool) : List Run → Option Run → Prop
  | none : Finds answers [] none
  | here {r : Run} {rest : List Run} {m : Nat → Byte} (yes : answers m r = true) :
      Finds answers (r :: rest) (some r)
  | later {r : Run} {rest : List Run} {found : Option Run} {m : Nat → Byte}
      (no : answers m r = false) (more : Finds answers rest found) :
      Finds answers (r :: rest) found

theorem lookup_finds (junk : Nat → Byte) (slots : List Slot) :
    ∃ found, Finds (fun junk r => r.answers junk name83 wantLong) (runs slots) found ∧
      lookup junk name83 wantLong slots = found.map (fun r => r.slot.entry) := by
  suffices general : ∀ (l : Lfn) (p : Pass) (held : Nat → Byte), l = gather held p.frags →
      ∃ found, Finds (fun junk r => r.answers junk name83 wantLong) (runsFrom p slots) found ∧
        (scanSlots (findEntryVisit name83 wantLong) slots l).found =
          found.map (fun r => r.slot.entry) by
    exact general _ _ junk rfl
  induction slots with
  | nil =>
    intro l p held _
    exact ⟨none, .none, rfl⟩
  | cons slot rest ih =>
    intro l p held lfn
    simp only [scanSlots, findEntryVisit, runsFrom]
    by_cases isEnd : slot.entry.isEnd = true
    · simp only [isEnd, if_true]
      exact ⟨none, .none, rfl⟩
    by_cases deleted : slot.entry.deleted = true
    · simp only [isEnd, deleted, if_true, Bool.true_or]
      refine ih _ _ l.name ?_
      simp [Pass.step, deleted, lfnReset_gather]
    by_cases fragment : slot.entry.fragment = true
    · simp only [isEnd, deleted, fragment, if_true, Bool.or_true]
      refine ih _ _ held ?_
      simp only [Pass.step, deleted, fragment, if_true]
      rw [lfn]
      exact (gather_snoc held p.frags slot.entry).symm
    · simp only [isEnd, deleted, fragment]
      by_cases hit : answersTo l slot.entry name83 wantLong = true
      · refine ⟨some ⟨p.frags, slot, p.start, p.index⟩, .here (m := held) ?_, ?_⟩
        · simp only [Run.answers, ← lfn]
          exact hit
        · simp [hit, Scan.found]
      · obtain ⟨found, finds, same⟩ := ih (lfnReset l) (p.step slot) l.name
          (by simp [Pass.step, deleted, fragment, lfnReset_gather])
        refine ⟨found, .later (m := held) ?_ finds, ?_⟩
        · simp only [Run.answers, ← lfn]
          simpa using hit
        · simpa [hit] using same

def Steady (name83 : List Byte) (wantLong : Option (List Byte)) (slots : List Slot) : Prop :=
  ∀ r ∈ runs slots, ∀ junk junk',
    r.answers junk name83 wantLong = r.answers junk' name83 wantLong

end Searching

end Ubiqos.Fat
