import Mathlib.Data.List.Basic
import Mathlib.Data.List.Induction

/-!
Runs of a deterministic machine and loops over a fixed list are the same fold.
`Along step allowed state inputs` says that every input of the run is allowed
in the state it meets; the rules below turn a fact about one step into a fact
about the whole run.
-/

namespace Machine

universe u v
variable {State : Type u} {Input : Type v}

def Along (step : State → Input → State) (allowed : State → Input → Prop) :
    State → List Input → Prop
  | _, [] => True
  | state, input :: rest => allowed state input ∧ Along step allowed (step state input) rest

theorem foldl_invariant {step : State → Input → State} (inv : State → Prop)
    {inputs : List Input} {state : State} (start : inv state)
    (keeps : ∀ state, ∀ input ∈ inputs, inv state → inv (step state input)) :
    inv (inputs.foldl step state) := by
  induction inputs generalizing state with
  | nil => exact start
  | cons input rest ih =>
    exact ih (keeps state input List.mem_cons_self start)
      (fun state later member => keeps state later (List.mem_cons_of_mem input member))

theorem foldl_visits {step : State → Input → State} (goal : Input → State → Prop)
    {inputs : List Input} {state : State} (reaches : ∀ state input, goal input (step state input))
    (keeps : ∀ state input other, goal other state → goal other (step state input)) :
    ∀ input ∈ inputs, goal input (inputs.foldl step state) := by
  induction inputs generalizing state with
  | nil => simp
  | cons first rest ih =>
    intro input member
    rcases List.mem_cons.mp member with rfl | later
    · rw [List.foldl_cons]
      exact foldl_invariant (goal input) (reaches state input)
        (fun state other _ done => keeps state other input done)
    · exact ih input later

theorem along_invariant {step : State → Input → State} {allowed : State → Input → Prop}
    (inv : State → Prop) {inputs : List Input} {state : State}
    (run : Along step allowed state inputs) (start : inv state)
    (keeps : ∀ state, ∀ input ∈ inputs, allowed state input → inv state →
      inv (step state input)) :
    inv (inputs.foldl step state) := by
  induction inputs generalizing state with
  | nil => exact start
  | cons input rest ih =>
    exact ih run.2 (keeps state input List.mem_cons_self run.1 start)
      (fun state later member => keeps state later (List.mem_cons_of_mem input member))

theorem along_meanwhile {step : State → Input → State} {allowed holds : State → Input → Prop}
    (inv : State → Prop) {inputs : List Input} {state : State}
    (run : Along step allowed state inputs) (start : inv state)
    (keeps : ∀ state input, allowed state input → inv state → inv (step state input))
    (gives : ∀ state input, allowed state input → inv state → holds state input) :
    Along step holds state inputs := by
  induction inputs generalizing state with
  | nil => trivial
  | cons input rest ih =>
    exact ⟨gives state input run.1 start, ih run.2 (keeps state input run.1 start)⟩

theorem along_append {step : State → Input → State} {allowed : State → Input → Prop}
    {state : State} {front back : List Input} :
    Along step allowed state (front ++ back) ↔
      Along step allowed state front ∧ Along step allowed (front.foldl step state) back := by
  induction front generalizing state with
  | nil => simp [Along]
  | cons input rest ih => simp [Along, ih, and_assoc]

theorem along_mono {step : State → Input → State} {allowed weaker : State → Input → Prop}
    {state : State} {inputs : List Input}
    (implied : ∀ state input, allowed state input → weaker state input)
    (run : Along step allowed state inputs) : Along step weaker state inputs := by
  induction inputs generalizing state with
  | nil => trivial
  | cons input rest ih => exact ⟨implied state input run.1, ih run.2⟩

theorem along_iff {step : State → Input → State} {allowed : State → Input → Prop}
    {inv good : State → Prop} {inputs : List Input} {state : State} (start : inv state) (well : good state)
    (keeps : ∀ state, ∀ input ∈ inputs, inv state → inv (step state input))
    (exact : ∀ state, ∀ input ∈ inputs, inv state → good state →
      (good (step state input) ↔ allowed state input)) :
    (∀ front, front <+: inputs → good (front.foldl step state)) ↔ Along step allowed state inputs := by
  induction inputs generalizing state with
  | nil =>
    refine ⟨fun _ => trivial, fun _ front within => ?_⟩
    rw [List.prefix_nil.mp within]
    exact well
  | cons input rest ih =>
    have first := exact state input List.mem_cons_self start well
    have later := fun next => ih (keeps state input List.mem_cons_self start) next
      (fun state other member => keeps state other (List.mem_cons_of_mem input member))
      (fun state other member => exact state other (List.mem_cons_of_mem input member))
    constructor
    · intro all
      have next : good (step state input) := all [input] (List.cons_prefix_cons.mpr ⟨rfl, List.nil_prefix⟩)
      refine ⟨first.mp next, (later next).mp ?_⟩
      intro front within
      exact all (input :: front) (List.cons_prefix_cons.mpr ⟨rfl, within⟩)
    · rintro ⟨here, on⟩ front within
      cases front with
      | nil => exact well
      | cons other front =>
        obtain ⟨rfl, inside⟩ := List.cons_prefix_cons.mp within
        exact (later (first.mpr here)).mpr on front inside

theorem along_simulates {Other : Type v} {step : State → Input → State}
    {follow : Other → Input → Other} {allowed : Other → Input → Prop} (rel : State → Other → Prop)
    {inputs : List Input} {state : State} {other : Other} (run : Along follow allowed other inputs)
    (start : rel state other)
    (keeps : ∀ state other input, allowed other input → rel state other →
      rel (step state input) (follow other input)) :
    rel (inputs.foldl step state) (inputs.foldl follow other) := by
  induction inputs generalizing state other with
  | nil => exact start
  | cons input rest ih => exact ih run.2 (keeps state other input run.1 start)

/-- Two machines that agree on the inputs allowed are one machine on a run of such inputs. -/
theorem along_agrees {step other : State → Input → State} {allowed : State → Input → Prop}
    (agrees : ∀ state input, allowed state input → step state input = other state input)
    {state : State} {inputs : List Input} (run : Along step allowed state inputs) :
    inputs.foldl step state = inputs.foldl other state ∧
      ∀ rule : State → Input → Prop, Along step rule state inputs ↔ Along other rule state inputs := by
  induction inputs generalizing state with
  | nil => exact ⟨rfl, fun _ => Iff.rfl⟩
  | cons input rest ih =>
    have same := agrees state input run.1
    obtain ⟨reached, rules⟩ := ih run.2
    rw [same] at reached rules
    refine ⟨by rw [List.foldl_cons, same, reached, List.foldl_cons], fun rule => ?_⟩
    rw [Along, Along, same, rules rule]

theorem along_always {step : State → Input → State} {allowed : State → Input → Prop}
    (always : ∀ state input, allowed state input) (state : State) (inputs : List Input) :
    Along step allowed state inputs := by
  induction inputs generalizing state with
  | nil => trivial
  | cons input rest ih => exact ⟨always state input, ih _⟩

instance along_decidable {step : State → Input → State} {allowed : State → Input → Prop}
    [decide : ∀ state input, Decidable (allowed state input)] :
    (state : State) → (inputs : List Input) → Decidable (Along step allowed state inputs)
  | _, [] => isTrue trivial
  | state, input :: rest =>
    have : Decidable (Along step allowed (step state input) rest) := along_decidable _ rest
    inferInstanceAs (Decidable (_ ∧ _))

end Machine

/-!
Programs that act on something outside them. A program reads and changes a state of its
own and performs acts, each of which changes the state and is answered. What the answers
are is left to a `world`, so that a program is the tree of all it may do.
-/

namespace Acting

inductive Tree (A R S α : Type) where
  | done (a : α) (s : S)
  | act (what : A) (s : S) (next : R → S → Tree A R S α)

def Program (A R S α : Type) : Type := S → Tree A R S α

section Programs
variable {A R S α β : Type}

def Tree.bind : Tree A R S α → (α → Program A R S β) → Tree A R S β
  | .done a s, f => f a s
  | .act what s next, f => .act what s (fun r s => (next r s).bind f)

instance : Monad (Program A R S) where
  pure a := fun s => .done a s
  bind x f := fun s => (x s).bind f

def look : Program A R S S := fun s => .done s s

def change (f : S → S) : Program A R S Unit := fun s => .done () (f s)

def perform (what : A) : Program A R S R := fun s => .act what s (fun r s => .done r s)

def Tree.run (world : A → S → R × S) : Tree A R S α → List A × α × S
  | .done a s => ([], a, s)
  | .act what s next =>
    let (r, s) := world what s
    let (acts, last) := (next r s).run world
    (what :: acts, last)

theorem bind_run (x : Program A R S α) (f : α → Program A R S β) (s : S) :
    (x >>= f) s = (x s).bind f := rfl

theorem look_bind (f : S → Program A R S β) (s : S) : (look >>= f) s = f s s := rfl

theorem change_bind (g : S → S) (f : Unit → Program A R S β) (s : S) :
    (change g >>= f) s = f () (g s) := rfl

def Tree.Acts (t : Tree A R S α) : Prop := ∃ what s next, t = .act what s next

theorem Tree.Acts.bind {t : Tree A R S α} (acts : t.Acts) (f : α → Program A R S β) :
    (t.bind f).Acts := by
  obtain ⟨what, s, next, rfl⟩ := acts
  exact ⟨what, s, _, rfl⟩

theorem Tree.Acts.run {t : Tree A R S α} (acts : t.Acts) (world : A → S → R × S) :
    (t.run world).1 ≠ [] := by
  obtain ⟨what, s, next, rfl⟩ := acts
  exact List.cons_ne_nil _ _

end Programs

end Acting
