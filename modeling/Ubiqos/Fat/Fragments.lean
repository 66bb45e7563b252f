import Ubiqos.Fat.Searches
import Ubiqos.Lib.Along

/-!
What the accumulator of a long name holds. It is not cleared, so a place that no fragment
has written since the last reset shows what lay there before. Against the memory stands
what the fragments since the reset say of it: a byte, or nothing.
-/

namespace Ubiqos.Fat

open Function Machine

def Entry.seq (e : Entry) : Nat := (e 0 &&& 0x3f).toNat
def Entry.base (e : Entry) : Nat := (e.seq - 1) * 13

def Entry.usable (e : Entry) : Bool := e.seq ≠ 0 ∧ e.base < lfnMax

def Entry.Spans (e : Entry) (i : Nat) : Prop := e.base ≤ i ∧ i < e.base + 13 ∧ i < lfnMax

instance (e : Entry) (i : Nat) : Decidable (e.Spans i) := inferInstanceAs (Decidable (_ ∧ _))

def Entry.writes (e : Entry) (i : Nat) : Option Byte :=
  if e 0 &&& 0x40 ≠ 0 ∧ i = min (e.base + 13) lfnMax then some 0
  else if e.Spans i then some (fragmentChar e (i - e.base))
  else none

/-- What the fragments since a reset say of a place, the last of them first. The reset itself
writes the first byte. -/
def told (taken : List Entry) (i : Nat) : Option Byte :=
  taken.foldl (fun known e => (e.writes i).or known) (if i = 0 then some 0 else none)

def Complete (taken : List Entry) : Prop :=
  ∃ t ≤ lfnMax, told taken t = some 0 ∧ ∀ j < t, (told taken j).isSome

def From (taken : List Entry) (i : Nat) (b : Byte) : Prop :=
  ∃ e ∈ taken, e.Spans i ∧ b = fragmentChar e (i - e.base)

def Sane (taken : List Entry) (l : Lfn) : Prop :=
  ∃ t ≤ lfnMax, l.name t = 0 ∧ ∀ j < t, l.name j ≠ 0 ∧ From taken j (l.name j)

def takenPast (taken : List Entry) (slot : Slot) : List Entry :=
  if slot.entry.deleted then []
  else if slot.entry.fragment then if slot.entry.usable then taken ++ [slot.entry] else []
  else []

section Taking
variable {e : Entry} {l : Lfn} {taken : List Entry} {i : Nat}

theorem told_append (taken : List Entry) (e : Entry) (i : Nat) :
    told (taken ++ [e]) i = (e.writes i).or (told taken i) := by
  rw [told, List.foldl_append]
  rfl

theorem lfnTake_unusable (no : e.usable = false) : lfnTake l e = lfnReset l := by
  have outside : (e 0 &&& 0x3f).toNat = 0 ∨ lfnMax ≤ ((e 0 &&& 0x3f).toNat - 1) * 13 := by
    simpa [Entry.usable, Entry.base, Entry.seq, Classical.or_iff_not_imp_left] using no
  rw [lfnTake, if_pos outside]

theorem lfnTake_usable (yes : e.usable = true) :
    (lfnTake l e).valid = true ∧ ∀ i, (lfnTake l e).name i = (e.writes i).getD (l.name i) := by
  have inside : ¬ ((e 0 &&& 0x3f).toNat = 0 ∨ lfnMax ≤ ((e 0 &&& 0x3f).toNat - 1) * 13) := by
    simpa [Entry.usable, Entry.base, Entry.seq] using yes
  let characters : Nat → Byte := fun i =>
    if e.Spans i then fragmentChar e (i - e.base) else l.name i
  have whole : lfnTake l e =
      { name := if e 0 &&& 0x40 != 0 then update characters (min (e.base + 13) lfnMax) 0 else characters
        valid := true } := if_neg inside
  have spanned : ∀ i, characters i = (if e.Spans i then some (fragmentChar e (i - e.base)) else
      none).getD (l.name i) := by
    intro i
    by_cases spans : e.Spans i
    · simp [characters, spans]
    · simp [characters, spans]
  rw [whole]
  refine ⟨rfl, fun i => ?_⟩
  by_cases last : e 0 &&& 0x40 = 0
  · have writes : e.writes i = if e.Spans i then some (fragmentChar e (i - e.base)) else none :=
      if_neg fun both => both.1 last
    rw [writes, last]
    exact spanned i
  · rw [if_pos (bne_iff_ne.mpr last)]
    by_cases here : i = min (e.base + 13) lfnMax
    · have writes : e.writes i = some 0 := if_pos ⟨last, here⟩
      rw [writes, here]
      exact update_self (min (e.base + 13) lfnMax) 0 characters
    · have writes : e.writes i = if e.Spans i then some (fragmentChar e (i - e.base)) else none :=
        if_neg fun both => here both.2
      rw [writes]
      exact (update_of_ne here 0 characters).trans (spanned i)

theorem told_from {b : Byte} (tells : told taken i = some b) (nonzero : b ≠ 0) : From taken i b := by
  induction taken using List.reverseRecOn with
  | nil =>
    rw [told, List.foldl_nil] at tells
    split at tells
    · cases tells
      exact absurd rfl nonzero
    · cases tells
  | append_singleton front e ih =>
    rw [told_append] at tells
    cases written : e.writes i with
    | none =>
      rw [written, Option.none_or] at tells
      obtain ⟨e', member, spans⟩ := ih tells
      exact ⟨e', List.mem_append_left _ member, spans⟩
    | some c =>
      rw [written] at tells
      cases tells
      refine ⟨e, by simp, ?_⟩
      rw [Entry.writes] at written
      split at written
      · cases written
        exact absurd rfl nonzero
      · split at written
        · next spans =>
          cases written
          exact ⟨spans, rfl⟩
        · cases written

end Taking

/-- The accumulator is valid when there are fragments, and its memory is what they say. -/
structure Holds (taken : List Entry) (l : Lfn) : Prop where
  valid : l.valid = true ↔ taken ≠ []
  known : ∀ i b, told taken i = some b → l.name i = b

theorem Holds.reset (l : Lfn) : Holds [] (lfnReset l) := by
  refine ⟨by simp [lfnReset], ?_⟩
  intro i b tells
  rw [told, List.foldl_nil] at tells
  split at tells
  · next first =>
    cases tells
    rw [first]
    exact update_self 0 0 l.name
  · cases tells

theorem Holds.take {taken : List Entry} {l l' : Lfn} {e : Entry} (holds : Holds taken l)
    (valid : l'.valid = true) (name : ∀ i, l'.name i = (e.writes i).getD (l.name i)) :
    Holds (taken ++ [e]) l' := by
  refine ⟨by simp [valid], ?_⟩
  intro i b tells
  rw [told_append] at tells
  rw [name]
  cases written : e.writes i with
  | none =>
    rw [written, Option.none_or] at tells
    exact holds.known i b tells
  | some c =>
    rw [written] at tells
    exact Option.some.inj tells

theorem Holds.past {taken : List Entry} {l : Lfn} (holds : Holds taken l) (slot : Slot) :
    Holds (takenPast taken slot) (lfnPast l slot) := by
  rw [takenPast, lfnPast]
  split
  · exact .reset l
  · split
    · split
      · next usable =>
        obtain ⟨valid, name⟩ := lfnTake_usable (l := l) usable
        exact holds.take valid name
      · next unusable =>
        rw [lfnTake_unusable (by simpa using unusable)]
        exact .reset l
    · exact .reset l

theorem Holds.sane {taken : List Entry} {l : Lfn} (holds : Holds taken l)
    (complete : Complete taken) : Sane taken l := by
  obtain ⟨t, small, ends, tells⟩ := complete
  have zero : ∃ i, l.name i = 0 := ⟨t, holds.known t 0 ends⟩
  classical
  have first := Nat.find_min' zero (holds.known t 0 ends)
  refine ⟨Nat.find zero, first.trans small, Nat.find_spec zero, ?_⟩
  intro j before
  have nonzero : l.name j ≠ 0 := Nat.find_min zero before
  obtain ⟨b, said⟩ := Option.isSome_iff_exists.mp (tells j (before.trans_le first))
  have same := holds.known j b said
  rw [same] at nonzero ⊢
  exact ⟨nonzero, told_from said nonzero⟩

theorem holds_run {taken : List Entry} {l : Lfn} (holds : Holds taken l) (slots : List Slot) :
    Holds (slots.foldl takenPast taken) (slots.foldl lfnPast l) := by
  induction slots generalizing taken l with
  | nil => exact holds
  | cons slot rest ih => exact ih (holds.past slot)

theorem Sane.within {taken : List Entry} {l : Lfn} (sane : Sane taken l) {i : Nat}
    (reads : ∀ j < i, l.name j ≠ 0) : i ≤ lfnMax := by
  obtain ⟨t, small, zero, _⟩ := sane
  by_contra beyond
  exact reads t (by omega) zero

/-- As long as the fragments taken since the last reset tell each byte up to a zero, the
accumulator of any directory is a name of theirs that ends, and reading it stays in it. -/
theorem lfn_run_sane (stack : Nat → Byte) (slots : List Slot)
    (complete : Along takenPast (fun taken slot => Complete (takenPast taken slot)) [] slots) :
    let l := slots.foldl lfnPast (lfnReset { name := stack, valid := false })
    l.valid = true → Sane (slots.foldl takenPast []) l ∧
      ∀ i, (∀ j < i, l.name j ≠ 0) → i ≤ lfnMax := by
  intro l _
  have none : Complete [] := ⟨0, Nat.zero_le _, rfl, fun _ before => absurd before (Nat.not_lt_zero _)⟩
  have last : Complete (slots.foldl takenPast []) :=
    along_invariant Complete complete none fun _ _ _ allowed _ => allowed
  have sane : Sane (slots.foldl takenPast []) l := (holds_run (.reset _) slots).sane last
  exact ⟨sane, fun _ => sane.within⟩

/-- A name of fourteen letters: the fragment with the last one comes first. -/
def fourteen (seq : Nat) : Slot := ⟨0, 0, fragmentFor (List.replicate 14 (chr 'a')) blank83 2 seq⟩

theorem lfn_run_sane_letters :
    Sane [(fourteen 2).entry, (fourteen 1).entry]
      ([fourteen 2, fourteen 1].foldl lfnPast (lfnReset { name := fun _ => chr 'b', valid := false })) := by
  have first : takenPast [] (fourteen 2) = [(fourteen 2).entry] := rfl
  have second : takenPast [(fourteen 2).entry] (fourteen 1) = [(fourteen 2).entry, (fourteen 1).entry] := rfl
  have begun : Complete (takenPast [] (fourteen 2)) := by
    rw [first]
    exact ⟨0, by decide, by decide, by decide⟩
  have complete : Complete (takenPast (takenPast [] (fourteen 2)) (fourteen 1)) := by
    rw [first, second]
    exact ⟨14, by decide, by decide, by decide +kernel⟩
  have run := (lfn_run_sane (fun _ => chr 'b') [fourteen 2, fourteen 1] ⟨begun, complete, trivial⟩ rfl).1
  rwa [List.foldl_cons, List.foldl_cons, List.foldl_nil, first, second] at run

/-- What lies behind its thirteen characters is taken for the name. -/
theorem unfinished_name : ¬ ∀ (stack : Nat → Byte) (slots : List Slot),
    let l := slots.foldl lfnPast (lfnReset { name := stack, valid := false })
    l.valid = true → Sane (slots.foldl takenPast []) l ∧
      ∀ i, (∀ j < i, l.name j ≠ 0) → i ≤ lfnMax := by
  intro always
  have within := (always (fun _ => chr 'b') [fourteen 1] rfl).2 (lfnMax + 1)
  have reads : ∀ j < lfnMax + 1,
      (lfnPast (lfnReset { name := fun _ => chr 'b', valid := false }) (fourteen 1)).name j ≠ 0 := by
    decide
  exact absurd (within reads) (by decide)

end Ubiqos.Fat
