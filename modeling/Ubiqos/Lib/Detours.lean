import Mathlib.Data.List.FinRange
import Mathlib.Logic.Function.Basic

/-!
Detours: a row of places that name objects, where new objects are put on chosen places for a while.
For each, the object takes the lowest vacant place, what it replaces is copied to the next one, and
both are moved about; afterwards the copies are put back in reverse. Nothing checks that there was
a place for the copy. `Covered` says exactly when the row comes back.
-/

universe u

namespace Detours

open Function

variable {k : Nat} {α : Type u}

abbrev Row (k : Nat) (α : Type u) := Fin k → Option α

def vacant (row : Row k α) : List (Fin k) := (List.finRange k).filter fun p => (row p).isNone

def copyOut (row : Row k α) (fd : Fin k) : Row k α × Option (Fin k) :=
  match row fd, (vacant row).head? with
  | some a, some p => (update row p (some a), some p)
  | _, _ => (row, none)

def copyTo (row : Row k α) (p q : Fin k) : Row k α :=
  match row p with
  | none => row
  | some a => update row q (some a)

def divert (row : Row k α) (fd : Fin k) (a : α) : Option (Row k α × Option (Fin k)) :=
  (vacant row).head?.map fun f =>
    let saved := copyOut (update row f (some a)) fd
    (update (copyTo saved.1 f fd) f none, saved.2)

def restore (row : Row k α) (fd : Fin k) : Option (Fin k) → Row k α
  | none => row
  | some s => update (copyTo row s fd) s none

def detour : List (Fin k × Option α) → Row k α → Row k α
  | [], row => row
  | (_, none) :: _, row => row
  | (fd, some a) :: rest, row =>
    match divert row fd a with
    | none => row
    | some there => restore (detour rest there.1) fd there.2

def arrive : List (Fin k × Option α) → Row k α → Option (Row k α)
  | [], row => some row
  | (_, none) :: _, _ => none
  | (fd, some a) :: rest, row => (divert row fd a).bind fun there => arrive rest there.1

def objects (ds : List (Fin k × Option α)) : List α := ds.filterMap Prod.snd

def Refused (ds : List (Fin k × Option α)) : Prop := ∃ d ∈ ds, d.2 = none

def latest (fd : Fin k) : List (Fin k × Option α) → Option α
  | [] => none
  | (p, a) :: rest => (latest fd rest).or (if p = fd then a else none)

def Effective (ds : List (Fin k × Option α)) (here : Row k α) : Prop :=
  ∀ fd a, latest fd ds = some a → here fd = some a

/-- The row comes back, but for the places in `spare`, and a row that all detours were made in has
the objects where they belong. -/
structure Returns (spare : List (Fin k)) (ds : List (Fin k × Option α)) (row : Row k α) : Prop where
  back : ∀ p ∉ spare, detour ds row p = row p
  effective : ∀ here, arrive ds row = some here → Effective ds here

/-- By the vacant places alone. What is in `spare` will be put back by others. -/
def Covered : List (Fin k) → List (Fin k) → List (Fin k × Option α) → Prop
  | _, _, [] => True
  | [], _, _ :: _ => True
  | _ :: _, _, (_, none) :: _ => True
  | [f], spare, (fd, some _) :: rest =>
    (fd ∈ spare ∨ fd = f ∧ Refused rest) ∧ Covered [f] spare rest
  | f :: s :: free, spare, (fd, some _) :: rest =>
    fd ∉ f :: s :: free ∧ Covered (f :: free) ((if fd ∈ spare then s else fd) :: spare) rest

variable {row here : Row k α} {spare : List (Fin k)} {fd f s p : Fin k} {a o : α} {free : List (Fin k)}
  {ds rest : List (Fin k × Option α)}

@[simp] theorem mem_vacant : p ∈ vacant row ↔ row p = none := by simp [vacant]

theorem vacant_nodup (row : Row k α) : (vacant row).Nodup := (List.nodup_finRange k).filter _

theorem vacant_update (row : Row k α) (p : Fin k) (a : α) :
    vacant (update row p (some a)) = (vacant row).filter (· ≠ p) := by
  rw [vacant, vacant, List.filter_filter]
  refine List.filter_congr ?_
  intro q _
  by_cases same : q = p
  · simp [same]
  · simp [same]

theorem vacant_update_named (named : row fd = some o) (a : α) :
    vacant (update row fd (some a)) = vacant row := by
  rw [vacant_update, List.filter_eq_self]
  intro q member
  have blank := mem_vacant.mp member
  simp only [decide_eq_true_eq]
  rintro rfl
  simp [named] at blank

theorem vacant_head (places : vacant row = f :: free) : row f = none :=
  mem_vacant.mp (by simp [places])

theorem vacant_second (places : vacant row = f :: s :: free) : row s = none :=
  mem_vacant.mp (by simp [places])

theorem vacant_apart (places : vacant row = f :: s :: free) : s ≠ f := by
  have apart := vacant_nodup row
  rw [places] at apart
  rintro rfl
  simp at apart

theorem vacant_update_head (places : vacant row = f :: free) (a : α) :
    vacant (update row f (some a)) = free := by
  have apart := vacant_nodup row
  rw [places, List.nodup_cons] at apart
  rw [vacant_update, places, List.filter_cons_of_neg (by simp), List.filter_eq_self]
  intro q member
  simp only [decide_eq_true_eq]
  rintro rfl
  exact apart.1 member

theorem vacant_update_second (places : vacant row = f :: s :: free) (a : α) :
    vacant (update row s (some a)) = f :: free := by
  have apart := vacant_nodup row
  rw [places, List.nodup_cons, List.nodup_cons] at apart
  have differ := vacant_apart places
  rw [vacant_update, places, List.filter_cons_of_pos (by simp [differ.symm]),
    List.filter_cons_of_neg (by simp), List.cons.injEq, List.filter_eq_self]
  refine ⟨rfl, ?_⟩
  intro q member
  simp only [decide_eq_true_eq]
  rintro rfl
  exact apart.2.1 member

theorem named_ne (named : row p = some o) (blank : row f = none) : p ≠ f := by
  rintro rfl
  simp [named] at blank

theorem divert_full (full : vacant row = []) (fd : Fin k) (a : α) : divert row fd a = none := by
  simp [divert, full]

theorem update_back (blank : row f = none) (a : Option α) : update (update row f a) f none = row := by
  rw [update_idem, ← blank, update_eq_self]

theorem divert_lost (places : vacant row = [f]) (named : row fd = some o) (a : α) :
    divert row fd a = some (update row fd (some a), none) := by
  have blank := vacant_head places
  have apart := named_ne named blank
  have there : update row f (some a) fd = some o := by simp [apart, named]
  simp only [divert, places, List.head?_cons, Option.map_some, copyOut, there,
    vacant_update_head places, List.head?_nil, copyTo, update_self]
  rw [update_comm apart.symm, update_back (by simp [apart.symm, blank])]

theorem divert_gone (places : vacant row = [f]) (a : α) : divert row f a = some (row, none) := by
  have blank := vacant_head places
  simp only [divert, places, List.head?_cons, Option.map_some, copyOut, update_self,
    vacant_update_head places, List.head?_nil, copyTo, update_idem]
  rw [← blank, update_eq_self]

theorem divert_kept (places : vacant row = f :: s :: free) (named : row fd = some o) (a : α) :
    divert row fd a = some (update (update row fd (some a)) s (some o), some s) := by
  have blank := vacant_head places
  have apart := named_ne named blank
  have aside := named_ne named (vacant_second places)
  have differ := vacant_apart places
  have there : update row f (some a) fd = some o := by simp [apart, named]
  have object : update (update row f (some a)) s (some o) f = some a := by simp [differ.symm]
  simp only [divert, places, List.head?_cons, Option.map_some, copyOut, there,
    vacant_update_head places, copyTo, object]
  rw [update_comm apart, update_comm differ, update_back blank, update_comm aside.symm]

theorem divert_swapped (places : vacant row = f :: s :: free) (a : α) :
    divert row f a = some (update row s (some a), some s) := by
  have blank := vacant_head places
  have differ := vacant_apart places
  have object : update (update row f (some a)) s (some a) f = some a := by simp [differ.symm]
  simp only [divert, places, List.head?_cons, Option.map_some, copyOut, update_self,
    vacant_update_head places, copyTo, object]
  rw [update_idem, update_comm differ, update_back blank]

theorem divert_leaked (places : vacant row = f :: free) (blank : row fd = none) (apart : fd ≠ f)
    (a : α) : divert row fd a = some (update row fd (some a), none) := by
  have first := vacant_head places
  have there : update row f (some a) fd = none := by simp [apart, blank]
  simp only [divert, places, List.head?_cons, Option.map_some, copyOut, there, copyTo, update_self]
  rw [update_comm apart.symm, update_back (by simp [apart.symm, first])]

inductive Turn (row : Row k α) (fd : Fin k) (a : α) : Option (Row k α × Option (Fin k)) → Prop where
  | full (places : vacant row = []) : Turn row fd a none
  | lost {f : Fin k} {o : α} (places : vacant row = [f]) (named : row fd = some o) :
      Turn row fd a (some (update row fd (some a), none))
  | gone (places : vacant row = [fd]) : Turn row fd a (some (row, none))
  | kept {f s : Fin k} {free : List (Fin k)} {o : α} (places : vacant row = f :: s :: free)
      (named : row fd = some o) :
      Turn row fd a (some (update (update row fd (some a)) s (some o), some s))
  | swapped {s : Fin k} {free : List (Fin k)} (places : vacant row = fd :: s :: free) :
      Turn row fd a (some (update row s (some a), some s))
  | leaked {f s : Fin k} {free : List (Fin k)} (places : vacant row = f :: s :: free)
      (blank : row fd = none) (apart : fd ≠ f) :
      Turn row fd a (some (update row fd (some a), none))

theorem turn (row : Row k α) (fd : Fin k) (a : α) : Turn row fd a (divert row fd a) := by
  cases places : vacant row with
  | nil => exact divert_full places fd a ▸ .full places
  | cons f free =>
    cases named : row fd with
    | some o =>
      cases free with
      | nil => exact divert_lost places named a ▸ .lost places named
      | cons s free => exact divert_kept places named a ▸ .kept places named
    | none =>
      by_cases same : fd = f
      · subst same
        cases free with
        | nil => exact divert_gone places a ▸ .gone places
        | cons s free => exact divert_swapped places a ▸ .swapped places
      · have member : fd ∈ vacant row := mem_vacant.mpr named
        cases free with
        | nil =>
          rw [places, List.mem_singleton] at member
          exact absurd member same
        | cons s free => exact divert_leaked places named same a ▸ .leaked places named same

theorem restore_named (there : row s = some o) (fd : Fin k) :
    restore row fd (some s) = update (update row fd (some o)) s none := by
  simp [restore, copyTo, there]

theorem detour_named (ds : List (Fin k × Option α)) {row : Row k α} (named : row p = some o) :
    ∃ o', detour ds row p = some o' ∧ (o' = o ∨ p ∈ ds.map Prod.fst ∧ o' ∈ objects ds) := by
  induction ds generalizing row p o with
  | nil => exact ⟨o, named, .inl rfl⟩
  | cons d rest ih =>
    obtain ⟨fd, answer⟩ := d
    cases answer with
    | none => exact ⟨o, named, .inl rfl⟩
    | some a =>
      have later {o'} (found : o' = o ∨ p ∈ rest.map Prod.fst ∧ o' ∈ objects rest) :
          o' = o ∨ p ∈ ((fd, some a) :: rest).map Prod.fst ∧
            o' ∈ objects ((fd, some a) :: rest) := by
        rcases found with same | ⟨own, new⟩
        · exact .inl same
        · exact .inr ⟨List.mem_cons_of_mem _ own, List.mem_cons_of_mem _ new⟩
      -- Where the place is one the detour has just written, what is there is new.
      have replaced {r : Row k α} (put : r = update row fd (some a)) :
          ∃ o', detour rest r p = some o' ∧ (o' = o ∨ p ∈ ((fd, some a) :: rest).map Prod.fst ∧
            o' ∈ objects ((fd, some a) :: rest)) := by
        subst put
        by_cases same : p = fd
        · subst same
          obtain ⟨o', holds, found⟩ := ih (update_self p (some a) row)
          refine ⟨o', holds, .inr ⟨by simp, ?_⟩⟩
          rcases found with rfl | ⟨-, new⟩
          · exact List.mem_cons_self
          · exact List.mem_cons_of_mem _ new
        · obtain ⟨o', holds, found⟩ := ih ((update_of_ne same (some a) row).trans named)
          exact ⟨o', holds, later found⟩
      rw [detour]
      have step := turn row fd a
      generalize divert row fd a = there at step ⊢
      cases step with
      | full => exact ⟨o, named, .inl rfl⟩
      | lost => exact replaced rfl
      | leaked => exact replaced rfl
      | gone =>
        obtain ⟨o', holds, found⟩ := ih named
        exact ⟨o', holds, later found⟩
      | @swapped s free places =>
        have aside := named_ne named (vacant_second places)
        have apart := named_ne named (vacant_head places)
        obtain ⟨copy, there, -⟩ := ih (update_self s (some a) row)
        obtain ⟨o', holds, found⟩ := ih ((update_of_ne aside (some a) row).trans named)
        refine ⟨o', ?_, later found⟩
        dsimp only
        rw [restore_named there, update_of_ne aside, update_of_ne apart, holds]
      | @kept f s free old places held =>
        have aside := named_ne named (vacant_second places)
        obtain ⟨copy, there, source⟩ := ih (update_self s (some old) (update row fd (some a)))
        dsimp only
        rw [restore_named there, update_of_ne aside]
        by_cases same : p = fd
        · subst same
          refine ⟨copy, update_self .., ?_⟩
          rw [held, Option.some.injEq] at named
          rcases source with rfl | ⟨-, new⟩
          · exact .inl named
          · exact .inr ⟨by simp, List.mem_cons_of_mem _ new⟩
        · rw [update_of_ne same]
          have elsewhere : update (update row fd (some a)) s (some old) p = some o := by
            simp [aside, same, named]
          obtain ⟨o', holds, found⟩ := ih elsewhere
          exact ⟨o', holds, later found⟩

theorem arrive_named (ds : List (Fin k × Option α)) {row : Row k α} (named : row p = some o)
    (other : latest p ds = none) (arrives : arrive ds row = some here) : here p = some o := by
  induction ds generalizing row with
  | nil => cases arrives; exact named
  | cons d rest ih =>
    obtain ⟨fd, answer⟩ := d
    cases answer with
    | none => cases arrives
    | some a =>
      rw [latest, Option.or_eq_none_iff, ite_eq_right_iff] at other
      have elsewhere : p ≠ fd := fun same => by simpa using other.2 same.symm
      rw [arrive] at arrives
      have step := turn row fd a
      generalize divert row fd a = there at step arrives
      cases step with
      | full => cases arrives
      | gone => exact ih named other.1 arrives
      | lost => exact ih ((update_of_ne elsewhere _ _).trans named) other.1 arrives
      | leaked => exact ih ((update_of_ne elsewhere _ _).trans named) other.1 arrives
      | @swapped s _ places =>
        have aside := named_ne named (vacant_second places)
        exact ih ((update_of_ne aside _ _).trans named) other.1 arrives
      | @kept _ s _ _ places _ =>
        have aside := named_ne named (vacant_second places)
        exact ih (by simp [aside, elsewhere, named]) other.1 arrives

theorem arrive_single (ds : List (Fin k × Option α)) {row : Row k α} (places : vacant row = [f]) :
    Refused ds ∧ arrive ds row = none ∨ ¬ Refused ds ∧ ∃ here, arrive ds row = some here ∧ here f = none := by
  induction ds generalizing row with
  | nil => exact .inr ⟨by simp [Refused], row, rfl, vacant_head places⟩
  | cons d rest ih =>
    obtain ⟨fd, answer⟩ := d
    cases answer with
    | none => exact .inl ⟨⟨_, List.mem_cons_self, rfl⟩, rfl⟩
    | some a =>
      have same : Refused ((fd, some a) :: rest) ↔ Refused rest := by simp [Refused]
      rw [same, arrive]
      have step := turn row fd a
      generalize divert row fd a = there at step ⊢
      cases step with
      | full none => simp [none] at places
      | gone => exact ih places
      | lost _ named => exact ih ((vacant_update_named named a).trans places)
      | leaked more => simp [more] at places
      | swapped more => simp [more] at places
      | kept more => simp [more] at places

theorem arrive_accepted (ds : List (Fin k × Option α)) {row : Row k α}
    (arrives : arrive ds row = some here) : ¬ Refused ds := by
  induction ds generalizing row with
  | nil => simp [Refused]
  | cons d rest ih =>
    obtain ⟨fd, answer⟩ := d
    cases answer with
    | none => cases arrives
    | some a =>
      rw [arrive] at arrives
      cases step : divert row fd a with
      | none =>
        rw [step] at arrives
        cases arrives
      | some there =>
        rw [step] at arrives
        simpa [Refused] using ih arrives

theorem arrive_some (ds : List (Fin k × Option α)) {row : Row k α} (room : vacant row ≠ [])
    (accepted : ¬ Refused ds) : ∃ here, arrive ds row = some here := by
  induction ds generalizing row with
  | nil => exact ⟨row, rfl⟩
  | cons d rest ih =>
    obtain ⟨fd, answer⟩ := d
    cases answer with
    | none => exact absurd ⟨_, List.mem_cons_self, rfl⟩ accepted
    | some a =>
      have later : ¬ Refused rest := by simpa [Refused] using accepted
      have left {r : Row k α} (q : Fin k) (blank : r q = none) : ∃ here, arrive rest r = some here := by
        refine ih ?_ later
        intro full
        have member : q ∈ vacant r := mem_vacant.mpr blank
        rw [full] at member
        cases member
      rw [arrive]
      have step := turn row fd a
      generalize divert row fd a = there at step ⊢
      cases step with
      | full places => exact absurd places room
      | gone places => exact ih room later
      | @lost f _ places named =>
        have blank := vacant_head places
        exact left f (by simp [(named_ne named blank).symm, blank])
      | @leaked f _ _ places _ apart =>
        exact left f (by simp [apart.symm, vacant_head places])
      | @swapped s _ places =>
        exact left fd (by simp [(vacant_apart places).symm, vacant_head places])
      | @kept f s _ _ places named =>
        have blank := vacant_head places
        exact left f (by simp [(vacant_apart places).symm, (named_ne named blank).symm, blank])

theorem arrive_room (some : ds ≠ []) (arrives : arrive ds row = .some here) : vacant row ≠ [] := by
  intro full
  cases ds with
  | nil => exact some rfl
  | cons d rest =>
    obtain ⟨fd, answer⟩ := d
    cases answer with
    | none => cases arrives
    | some a =>
      rw [arrive, divert_full full] at arrives
      cases arrives

theorem effective_cons (named : row fd = some a) (arrives : arrive rest row = some here) :
    Effective ((fd, some a) :: rest) here ↔ Effective rest here := by
  constructor
  · intro all p b last
    exact all p b (by simp [latest, last])
  · intro all p b last
    rw [latest] at last
    cases later : latest p rest with
    | some c =>
      rw [later, Option.some_or] at last
      exact all p b (later.trans last)
    | none =>
      rw [later, Option.none_or] at last
      split at last
      · rename_i same
        subst same
        rw [← last]
        exact arrive_named rest named later arrives
      · cases last

theorem returns_refused (spare : List (Fin k)) (ends : detour ds row = row) (none : arrive ds row = none) :
    Returns spare ds row := by
  refine ⟨fun p _ => by rw [ends], ?_⟩
  intro here arrives
  rw [none] at arrives
  cases arrives

theorem returns_lost (places : vacant row = [f]) (named : row fd = some o) (own : fd ∈ spare) :
    Returns spare ((fd, some a) :: rest) row ↔ Returns spare rest (update row fd (some a)) := by
  have undone : detour ((fd, some a) :: rest) row = detour rest (update row fd (some a)) := by
    rw [detour, divert_lost places named]
    rfl
  have made : arrive ((fd, some a) :: rest) row = arrive rest (update row fd (some a)) := by
    rw [arrive, divert_lost places named]
    rfl
  have outside {p} (out : p ∉ spare) : update row fd (some a) p = row p :=
    update_of_ne (by rintro rfl; exact out own) _ _
  constructor
  · intro whole
    refine ⟨fun p out => ?_, fun here arrives => ?_⟩
    · rw [← undone, outside out, whole.back p out]
    · exact (effective_cons (update_self ..) arrives).mp (whole.effective here (made.trans arrives))
  · intro later
    refine ⟨fun p out => ?_, fun here arrives => ?_⟩
    · rw [undone, later.back p out, outside out]
    · rw [made] at arrives
      exact (effective_cons (update_self ..) arrives).mpr (later.effective here arrives)

theorem not_returns_lost (places : vacant row = [f]) (named : row fd = some o) (strange : fd ∉ spare)
    (new : o ∉ objects ((fd, some a) :: rest)) : ¬ Returns spare ((fd, some a) :: rest) row := by
  intro whole
  have same := whole.back fd strange
  rw [detour, divert_lost places named] at same
  obtain ⟨o', holds, found⟩ := detour_named rest (update_self fd (some a) row)
  dsimp only [restore] at same
  rw [holds, named, Option.some.injEq] at same
  subst same
  rcases found with rfl | ⟨-, member⟩
  · exact new List.mem_cons_self
  · exact new (List.mem_cons_of_mem _ member)

theorem returns_gone (places : vacant row = [f]) :
    Returns spare ((f, some a) :: rest) row ↔ Refused rest ∧ Returns spare rest row := by
  have undone : detour ((f, some a) :: rest) row = detour rest row := by
    rw [detour, divert_gone places]
    rfl
  have made : arrive ((f, some a) :: rest) row = arrive rest row := by
    rw [arrive, divert_gone places]
    rfl
  constructor
  · intro whole
    rcases arrive_single rest places with ⟨refused, none⟩ | ⟨-, here, arrives, blank⟩
    · refine ⟨refused, fun p out => undone ▸ whole.back p out, fun here arrives => ?_⟩
      rw [none] at arrives
      cases arrives
    · -- The object should be at `f`, which is vacant to the end.
      have last := whole.effective here (made.trans arrives)
      cases later : latest f rest with
      | none => simpa [blank] using last f a (by simp [latest, later])
      | some b => simpa [blank] using last f b (by simp [latest, later])
  · rintro ⟨refused, later⟩
    refine ⟨fun p out => undone ▸ later.back p out, fun here arrives => ?_⟩
    rcases arrive_single rest places with ⟨-, none⟩ | ⟨accepted, -⟩
    · rw [made, none] at arrives
      cases arrives
    · exact absurd refused accepted

theorem back_kept {x : Row k α} {copy : α} (a : α) (holds : x s = some copy) (named : row fd = some o)
    (blank : row s = none) (strange : s ∉ spare) :
    (∀ p ∉ spare, update (update x fd (some copy)) s none p = row p) ↔
      ∀ p ∉ (if fd ∈ spare then s else fd) :: spare,
        x p = update (update row fd (some a)) s (some o) p := by
  have aside := named_ne named blank
  by_cases own : fd ∈ spare
  · simp only [own, ↓reduceIte, List.mem_cons, not_or]
    constructor
    · rintro back p ⟨other, out⟩
      have elsewhere : p ≠ fd := by rintro rfl; exact out own
      simpa [other, elsewhere] using back p out
    · intro back p out
      have elsewhere : p ≠ fd := by rintro rfl; exact out own
      by_cases same : p = s
      · simp [same, blank]
      · simpa [same, elsewhere] using back p ⟨same, out⟩
  · -- The copy goes back to `fd`, so it must be what was there.
    simp only [own, ↓reduceIte, List.mem_cons, not_or]
    constructor
    · rintro back p ⟨elsewhere, out⟩
      by_cases same : p = s
      · have there := back fd own
        rw [update_of_ne aside, update_self, named] at there
        rw [same, holds, there, update_self]
      · simpa [same, elsewhere] using back p out
    · intro back p out
      by_cases same : p = s
      · simp [same, blank]
      · by_cases at_fd : p = fd
        · have there := back s ⟨aside.symm, strange⟩
          rw [holds, update_self] at there
          rw [at_fd, update_of_ne aside, update_self, there, named]
        · simpa [same, at_fd] using back p ⟨at_fd, out⟩

theorem returns_kept (spared : ∀ p ∈ spare, row p ≠ none) (places : vacant row = f :: s :: free)
    (named : row fd = some o) :
    Returns spare ((fd, some a) :: rest) row ↔
      Returns ((if fd ∈ spare then s else fd) :: spare) rest
        (update (update row fd (some a)) s (some o)) := by
  have blank := vacant_second places
  have aside := named_ne named blank
  have strange : s ∉ spare := fun member => spared s member blank
  have there : update (update row fd (some a)) s (some o) fd = some a := by simp [aside]
  obtain ⟨copy, holds, -⟩ := detour_named rest (update_self s (some o) (update row fd (some a)))
  have undone : detour ((fd, some a) :: rest) row =
      update (update (detour rest (update (update row fd (some a)) s (some o))) fd (some copy)) s none := by
    rw [detour, divert_kept places named]
    exact restore_named holds fd
  have made : arrive ((fd, some a) :: rest) row =
      arrive rest (update (update row fd (some a)) s (some o)) := by
    rw [arrive, divert_kept places named]
    rfl
  have back := back_kept a holds named blank strange
  rw [← undone] at back
  constructor
  · intro whole
    refine ⟨back.mp whole.back, fun here arrives => ?_⟩
    exact (effective_cons there arrives).mp (whole.effective here (made.trans arrives))
  · intro later
    refine ⟨back.mpr later.back, fun here arrives => ?_⟩
    rw [made] at arrives
    exact (effective_cons there arrives).mpr (later.effective here arrives)

theorem not_returns_swapped (places : vacant row = f :: s :: free) (strange : f ∉ spare) :
    ¬ Returns spare ((f, some a) :: rest) row := by
  intro whole
  have same := whole.back f strange
  obtain ⟨copy, holds, -⟩ := detour_named rest (update_self s (some a) row)
  rw [detour, divert_swapped places] at same
  dsimp only at same
  rw [restore_named holds, update_of_ne (vacant_apart places).symm, update_self,
    vacant_head places] at same
  cases same

theorem not_returns_leaked (places : vacant row = f :: free) (blank : row fd = none) (apart : fd ≠ f)
    (strange : fd ∉ spare) : ¬ Returns spare ((fd, some a) :: rest) row := by
  intro whole
  have same := whole.back fd strange
  obtain ⟨o', holds, -⟩ := detour_named rest (update_self fd (some a) row)
  rw [detour, divert_leaked places blank apart] at same
  dsimp only [restore] at same
  rw [holds, blank] at same
  cases same

theorem objects_cons (new : (objects ((fd, some a) :: rest)).Nodup) :
    a ∉ objects rest ∧ (objects rest).Nodup := List.nodup_cons.mp new

theorem returns_iff (ds : List (Fin k × Option α)) {row : Row k α} {spare : List (Fin k)}
    (spared : ∀ p ∈ spare, row p ≠ none) (fresh : ∀ a ∈ objects ds, ∀ p, row p ≠ some a)
    (apart : (objects ds).Nodup) : Returns spare ds row ↔ Covered (vacant row) spare ds := by
  induction ds generalizing row spare with
  | nil =>
    have whole : Returns spare [] row := by
      refine ⟨fun p _ => rfl, fun here arrives fd a last => ?_⟩
      cases last
    cases places : vacant row <;> simp [Covered, whole]
  | cons d rest ih =>
    obtain ⟨fd, answer⟩ := d
    cases answer with
    | none =>
      have whole : Returns spare ((fd, none) :: rest) row := returns_refused spare rfl rfl
      cases places : vacant row <;> simp [Covered, whole]
    | some a =>
      obtain ⟨new, apart⟩ := objects_cons apart
      have later : ∀ b ∈ objects rest, ∀ p, row p ≠ some b := fun b member =>
        fresh b (List.mem_cons_of_mem _ member)
      -- Putting the detour's own object on a place keeps the others new.
      have put : ∀ b ∈ objects rest, ∀ p, update row fd (some a) p ≠ some b := by
        intro b member p
        by_cases same : p = fd
        · subst same
          rw [update_self, ne_eq, Option.some.injEq]
          rintro rfl
          exact new member
        · rw [update_of_ne same]
          exact later b member p
      have step := turn row fd a
      generalize result : divert row fd a = there at step
      cases step with
      | full places =>
        have whole : Returns spare ((fd, some a) :: rest) row :=
          returns_refused spare (by rw [detour, result]) (by rw [arrive, result]; rfl)
        rw [places]
        simp [Covered, whole]
      | @lost f o places named =>
        have apart' : fd ≠ f := named_ne named (vacant_head places)
        have blank : ∀ p, update row fd (some a) p = none → row p = none := by
          intro p
          by_cases same : p = fd <;> simp [same]
        rw [places, Covered]
        by_cases own : fd ∈ spare
        · rw [returns_lost places named own,
            ih (fun p member none => spared p member (blank p none)) put apart,
            vacant_update_named named, places]
          simp [own]
        · have strange : o ∉ objects ((fd, some a) :: rest) := fun member => fresh o member fd named
          simp [own, apart', not_returns_lost places named own strange]
      | gone places =>
        have strange : fd ∉ spare := fun member => spared fd member (vacant_head places)
        rw [returns_gone places, ih spared later apart, places, Covered]
        simp [strange]
      | @swapped s free places =>
        have strange : fd ∉ spare := fun member => spared fd member (vacant_head places)
        rw [places, Covered]
        simp [not_returns_swapped places strange]
      | @leaked f s free places blank other =>
        have strange : fd ∉ spare := fun member => spared fd member blank
        have closed : fd ∈ f :: s :: free := places ▸ mem_vacant.mpr blank
        rw [places, Covered]
        simp [not_returns_leaked places blank other strange, closed]
      | @kept f s free o places named =>
        have blank := vacant_second places
        have open' : fd ∉ f :: s :: free := by
          rw [← places, mem_vacant, named]
          simp
        have stays : ∀ p, update (update row fd (some a)) s (some o) p = none → row p = none := by
          intro p gone
          rw [update_apply, update_apply] at gone
          split at gone
          · cases gone
          · split at gone
            · cases gone
            · exact gone
        have written : update (update row fd (some a)) s (some o) fd ≠ none := fun gone => by
          simpa [named] using stays fd gone
        rw [returns_kept spared places named, ih ?_ ?_ apart, places, Covered]
        · have left : vacant (update row fd (some a)) = f :: s :: free := by
            rw [vacant_update_named named, places]
          rw [vacant_update_second left]
          simp [open']
        · intro p member
          rw [List.mem_cons] at member
          rcases member with rfl | member
          · split
            · simp
            · exact written
          · exact fun gone => spared p member (stays p gone)
        · intro b member p
          by_cases same : p = s
          · subst same
            rw [update_self, ← named]
            exact later b member fd
          · rw [update_of_ne same]
            exact put b member p

end Detours
