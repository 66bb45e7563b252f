import Mathlib.Data.BitVec
import Mathlib.Logic.Function.Basic

/-!
Programs over a state that may run for ever. A program gives a value and a new
state, or nothing when it does not end. `Gives x s post` is total correctness:
started in `s` the program ends, with a value and a state of which `post` holds.
-/

universe u v

abbrev Prog (σ : Type u) (α : Type u) : Type u := StateT σ Option α

namespace Prog

variable {σ α β : Type u}

def unending : Prog σ α := fun _ => none

def Gives (x : Prog σ α) (s : σ) (post : α → σ → Prop) : Prop :=
  ∃ a t, x.run s = some (a, t) ∧ post a t

variable {a : α}

theorem gives_run {x : Prog σ α} {s t : σ} {post : α → σ → Prop}
    (runs : x.run s = some (a, t)) (holds : post a t) : Gives x s post :=
  ⟨a, t, runs, holds⟩

theorem Gives.outcome {x : Prog σ α} {s t : σ} {post : α → σ → Prop}
    (gives : Gives x s post) (runs : x.run s = some (a, t)) : post a t := by
  obtain ⟨b, u, other, holds⟩ := gives
  rw [runs] at other
  cases other
  exact holds

theorem Gives.mono {x : Prog σ α} {s : σ} {post other : α → σ → Prop}
    (gives : Gives x s post) (weaker : ∀ a t, post a t → other a t) : Gives x s other := by
  obtain ⟨a, t, runs, holds⟩ := gives
  exact ⟨a, t, runs, weaker a t holds⟩

theorem gives_pure {s : σ} {post : α → σ → Prop} (holds : post a s) :
    Gives (pure a) s post :=
  ⟨a, s, rfl, holds⟩

variable {f : α → Prog σ β}

theorem run_bind_of {x : Prog σ α} {s t : σ}
    (runs : x.run s = some (a, t)) : (x >>= f).run s = (f a).run t := by
  simp [StateT.run_bind, runs]

theorem Gives.bind {x : Prog σ α} {s : σ} {mid : α → σ → Prop}
    {post : β → σ → Prop} (first : Gives x s mid)
    (second : ∀ a t, mid a t → Gives (f a) t post) : Gives (x >>= f) s post := by
  obtain ⟨a, t, runs, reached⟩ := first
  obtain ⟨b, u, ends, holds⟩ := second a t reached
  exact ⟨b, u, (run_bind_of runs).trans ends, holds⟩

theorem run_bind_some {x : Prog σ α} {s u : σ} {b : β}
    (runs : (x >>= f).run s = some (b, u)) :
    ∃ a t, x.run s = some (a, t) ∧ (f a).run t = some (b, u) := by
  rw [StateT.run_bind] at runs
  cases first : x.run s with
  | none => simp [first] at runs
  | some outcome => exact ⟨outcome.1, outcome.2, rfl, by simpa [first] using runs⟩

end Prog

/-!
What a program leaves as it is. `Frames x view` says that wherever the program ends,
`view` shows the same as where it began; nothing is said of a program that goes on.
-/

namespace Prog

variable {σ α β : Type u} {τ : Type v} {view : σ → τ}

def Frames (x : Prog σ α) (view : σ → τ) : Prop :=
  ∀ s a t, x.run s = some (a, t) → view t = view s

theorem frames_pure {a : α} : Frames (pure a : Prog σ α) view := by
  intro s b t runs
  cases runs
  rfl

theorem frames_unending : Frames (unending : Prog σ α) view := by
  intro s a t runs
  cases runs

variable {f : α → Prog σ β}

theorem Frames.bind {x : Prog σ α} (first : Frames x view)
    (second : ∀ a, Frames (f a) view) : Frames (x >>= f) view := by
  intro s b u runs
  obtain ⟨a, t, here, there⟩ := run_bind_some runs
  exact (second a t b u there).trans (first s a t here)

theorem frames_get {f : σ → Prog σ β} (rest : ∀ s, Frames (f s) view) :
    Frames (get >>= f) view := fun s => rest s s

theorem frames_modify {g : σ → σ} (same : ∀ s, view (g s) = view s) :
    Frames (modify g : Prog σ PUnit) view := by
  intro s a t runs
  cases runs
  exact same s

theorem frames_ite {c : Prop} [Decidable c] {x y : Prog σ α} (yes : Frames x view)
    (no : Frames y view) : Frames (if c then x else y) view := by
  split
  · exact yes
  · exact no

theorem Frames.after {x : Prog σ α} {s u : σ} {b : β} {shown : τ}
    (first : ∀ a t, x.run s = some (a, t) → view t = shown) (second : ∀ a, Frames (f a) view)
    (runs : (x >>= f).run s = some (b, u)) : view u = shown := by
  obtain ⟨a, t, here, there⟩ := run_bind_some runs
  exact (second a t b u there).trans (first a t here)

end Prog

/-!
Why a program does not end. `Reaches bad x s` says that running `x` from `s` comes to a part
that is bad in the state it begins in. `Settles bad inv x post` says that from any state with
`inv` the program either comes to such a part or ends, with a value that has `post`, in a
state that has `inv`. Where bad parts do not end, a program that settles ends exactly when it
comes to none.
-/

namespace Prog

variable {σ : Type u}

/-- Programs in the states they begin in. -/
abbrev Parts (σ : Type u) := ∀ α : Type u, Prog σ α → σ → Prop

inductive Reaches (bad : Parts σ) : {α : Type u} → Prog σ α → σ → Prop
  | here {α : Type u} {x : Prog σ α} {s : σ} (is : bad α x s) : Reaches bad x s
  | first {α β : Type u} {x : Prog σ α} {f : α → Prog σ β} {s : σ} (inside : Reaches bad x s) :
      Reaches bad (x >>= f) s
  | later {α β : Type u} {x : Prog σ α} {f : α → Prog σ β} {s t : σ} {a : α}
      (runs : x.run s = some (a, t)) (inside : Reaches bad (f a) t) : Reaches bad (x >>= f) s

def Settles {α : Type u} (bad : Parts σ) (inv : σ → Prop) (x : Prog σ α) (post : α → Prop) : Prop :=
  ∀ s, inv s → Reaches bad x s ∨ Gives x s (fun a t => inv t ∧ post a)

variable {α β : Type u} {bad : Parts σ} {inv : σ → Prop} {x y : Prog σ α} {post : α → Prop} {s : σ}

theorem Reaches.endless (endless : ∀ α x s, bad α x s → x.run s = none) (reaches : Reaches bad x s) :
    x.run s = none := by
  induction reaches with
  | here is => exact endless _ _ _ is
  | first _ ih => rw [StateT.run_bind, ih, Option.bind_eq_bind, Option.bind_none]
  | later runs _ ih => rw [run_bind_of runs, ih]

theorem settles_pure {a : α} (holds : post a) : Settles bad inv (pure a) post :=
  fun _ start => .inr (gives_pure ⟨start, holds⟩)

theorem Settles.bind {f : α → Prog σ β} {after : β → Prop} (first : Settles bad inv x post)
    (second : ∀ a, post a → Settles bad inv (f a) after) : Settles bad inv (x >>= f) after := by
  intro s start
  rcases first s start with reaches | ⟨a, t, runs, holds, value⟩
  · exact .inl reaches.first
  · rcases second a value t holds with reaches | ⟨b, u, ends, last⟩
    · exact .inl (.later runs reaches)
    · exact .inr ⟨b, u, (run_bind_of runs).trans ends, last⟩

theorem Settles.mono {other : α → Prop} (settles : Settles bad inv x post)
    (weaker : ∀ a, post a → other a) : Settles bad inv x other := by
  intro s start
  rcases settles s start with reaches | ends
  · exact .inl reaches
  · exact .inr (ends.mono fun a t both => ⟨both.1, weaker a both.2⟩)

end Prog

/-!
One program run twice. `Twins x R post` says that from two states related by `R` the
program either ends in neither or ends in both with the same value, in states of
which `post` holds. What two related states disagree on then has no part in it.
-/

namespace Prog

variable {σ α β : Type u} {R : σ → σ → Prop}

def Twins (x : Prog σ α) (R : σ → σ → Prop) (post : α → σ → σ → Prop) : Prop :=
  ∀ s t, R s t → (x.run s = none ∧ x.run t = none) ∨
    ∃ a s' t', x.run s = some (a, s') ∧ x.run t = some (a, t') ∧ post a s' t'

/-- The program takes related states to related states. -/
abbrev Keeps (x : Prog σ α) (R : σ → σ → Prop) : Prop := Twins x R fun _ => R

theorem Twins.mono {x : Prog σ α} {post other : α → σ → σ → Prop} (twins : Twins x R post)
    (weaker : ∀ a s t, post a s t → other a s t) : Twins x R other := by
  intro s t related
  rcases twins s t related with endless | ⟨a, s', t', left, right, holds⟩
  · exact .inl endless
  · exact .inr ⟨a, s', t', left, right, weaker a s' t' holds⟩

theorem Twins.narrow {x : Prog σ α} {S : σ → σ → Prop} {post : α → σ → σ → Prop}
    (twins : Twins x R post) (stronger : ∀ s t, S s t → R s t) : Twins x S post :=
  fun s t related => twins s t (stronger s t related)

theorem twins_pure {a : α} {post : α → σ → σ → Prop} (holds : ∀ s t, R s t → post a s t) :
    Twins (pure a) R post :=
  fun s t related => .inr ⟨a, s, t, rfl, rfl, holds s t related⟩

theorem keeps_pure {a : α} : Keeps (pure a) R := twins_pure fun _ _ related => related

theorem twins_self {x : Prog σ α} : Twins x (fun s t => s = t) fun _ s t => s = t := by
  rintro s t rfl
  cases runs : x.run s with
  | none => exact .inl ⟨rfl, rfl⟩
  | some outcome => exact .inr ⟨outcome.1, outcome.2, outcome.2, rfl, rfl, rfl⟩

theorem Twins.reached {x : Prog σ α} {post : α → σ → σ → Prop} (twins : Twins x R post) :
    Twins x R fun a s' t' => post a s' t' ∧ ∃ s t, R s t ∧ x.run s = some (a, s') := by
  intro s t related
  rcases twins s t related with endless | ⟨a, s', t', left, right, holds⟩
  · exact .inl endless
  · exact .inr ⟨a, s', t', left, right, holds, s, t, related, left⟩

theorem Twins.value {x : Prog σ α} {post : α → σ → σ → Prop} (twins : Twins x R post) {s t : σ}
    (related : R s t) : (x.run s).map (·.1) = (x.run t).map (·.1) := by
  rcases twins s t related with ⟨left, right⟩ | ⟨a, s', t', left, right, _⟩
  · rw [left, right]
  · rw [left, right]
    rfl

theorem keeps_unending {post : α → σ → σ → Prop} : Twins (unending : Prog σ α) R post :=
  fun _ _ _ => .inl ⟨rfl, rfl⟩

variable {f : α → Prog σ β}

theorem Twins.bind {x : Prog σ α} {mid : α → σ → σ → Prop}
    {post : β → σ → σ → Prop} (first : Twins x R mid) (second : ∀ a, Twins (f a) (mid a) post) :
    Twins (x >>= f) R post := by
  intro s t related
  rcases first s t related with ⟨left, right⟩ | ⟨a, s', t', left, right, reached⟩
  · exact .inl ⟨by simp [StateT.run_bind, left], by simp [StateT.run_bind, right]⟩
  · rw [run_bind_of left, run_bind_of right]
    exact second a s' t' reached

theorem Keeps.bind {x : Prog σ α} {post : β → σ → σ → Prop}
    (first : Keeps x R) (second : ∀ a, Twins (f a) R post) : Twins (x >>= f) R post :=
  Twins.bind first second

theorem twins_look {f : σ → Prog σ β} {post : β → σ → σ → Prop}
    (agree : ∀ s t, R s t → f s = f t)
    (rest : ∀ s, Twins (f s) (fun s' t' => s' = s ∧ R s' t') post) :
    Twins (get >>= f) R post := by
  intro s t related
  have left : (get >>= f : Prog σ β).run s = (f s).run s := rfl
  have right : (get >>= f : Prog σ β).run t = (f t).run t := rfl
  rw [left, right, ← agree s t related]
  exact rest s s t ⟨rfl, related⟩

theorem twins_get {f : σ → Prog σ β} {post : β → σ → σ → Prop}
    (agree : ∀ s t, R s t → f s = f t) (rest : ∀ s t, R s t → Twins (f s) R post) :
    Twins (get >>= f) R post := by
  apply twins_look agree
  rintro s s' t' ⟨rfl, related⟩
  exact rest s' t' related s' t' related

theorem twins_modify {g : σ → σ} {post : PUnit → σ → σ → Prop}
    (changed : ∀ s t, R s t → post ⟨⟩ (g s) (g t)) : Twins (modify g) R post :=
  fun s t related => .inr ⟨⟨⟩, g s, g t, rfl, rfl, changed s t related⟩

theorem twins_ite {c : Prop} [Decidable c] {x y : Prog σ α} {post : α → σ → σ → Prop}
    (yes : c → Twins x R post) (no : ¬ c → Twins y R post) :
    Twins (if c then x else y) R post := by
  split
  · rename_i holds
    exact yes holds
  · rename_i fails
    exact no fails

def Repeats (x : Prog σ α) (R : σ → σ → Prop) (failed : α → Prop) : Prop :=
  ∀ s t a s', R s t → x.run s = some (a, s') → failed a ∨ ∃ t', x.run t = some (a, t') ∧ R s' t'

variable {failed : α → Prop}

theorem repeats_pure {a : α} : Repeats (pure a) R failed := by
  intro s t b s' related runs
  cases runs
  exact .inr ⟨t, rfl, related⟩

theorem repeats_unending : Repeats unending R failed := by
  intro s t a s' related runs
  cases runs

theorem Repeats.bind {x : Prog σ α} {lost : β → Prop}
    (first : Repeats x R failed)
    (spoils : ∀ a, failed a → ∀ s b u, (f a).run s = some (b, u) → lost b)
    (second : ∀ a, Repeats (f a) R lost) : Repeats (x >>= f) R lost := by
  intro s t b u related runs
  obtain ⟨a, s', begins, ends⟩ := run_bind_some runs
  rcases first s t a s' related begins with fails | ⟨t', again, related'⟩
  · exact .inl (spoils a fails s' b u ends)
  · rw [run_bind_of again]
    exact second a s' t' b u related' ends

theorem repeats_get {f : σ → Prog σ β} {failed : β → Prop} (agree : ∀ s t, R s t → f s = f t)
    (rest : ∀ s, Repeats (f s) R failed) : Repeats (get >>= f) R failed := by
  intro s t b u related runs
  have right : (get >>= f : Prog σ β).run t = (f t).run t := rfl
  rw [right, ← agree s t related]
  exact rest s s t b u related runs

theorem repeats_ite {c : Prop} [Decidable c] {x y : Prog σ α}
    (yes : c → Repeats x R failed) (no : ¬ c → Repeats y R failed) :
    Repeats (if c then x else y) R failed := by
  split
  · rename_i holds
    exact yes holds
  · rename_i fails
    exact no fails

end Prog
