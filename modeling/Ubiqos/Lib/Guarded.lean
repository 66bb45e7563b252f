import Mathlib.Data.List.Basic

/-!
Programs that work in a memory which is not their own, and must check a range
before they touch it. A program gives an outcome, a new state, and what it
checked and touched on the way. A check covers what is reached through the
pointer it was made for: `Source` says where a pointer came from.
-/

universe u

namespace Guarded

structure Range (Source : Type u) where
  source : Source
  start : Nat
  length : Nat

inductive Event (Source : Type u)
  | checked (range : Range Source)
  | touched (range : Range Source)

/-- A program stops early with an `ε`. -/
def Program (Source σ ε α : Type u) : Type u := σ → Except ε α × σ × List (Event Source)

variable {Source σ ε α β : Type u}

namespace Program

def done (a : α) : Program Source σ ε α := fun s => (.ok a, s, [])

def andThen (m : Program Source σ ε α) (f : α → Program Source σ ε β) : Program Source σ ε β :=
  fun s =>
    match m s with
    | (.ok a, t, events) => ((f a t).1, (f a t).2.1, events ++ (f a t).2.2)
    | (.error stop, t, events) => (.error stop, t, events)

instance : Monad (Program Source σ ε) where
  pure := done
  bind := andThen

def stop (e : ε) : Program Source σ ε α := fun s => (.error e, s, [])

def act (f : σ → α × σ) : Program Source σ ε α := fun s => (.ok (f s).1, (f s).2, [])

def touch (range : Range Source) : Program Source σ ε PUnit :=
  fun s => (.ok ⟨⟩, s, [.touched range])

def check (size : Nat) (trap : ε) (range : Range Source) : Program Source σ ε PUnit := fun s =>
  if range.start + range.length ≤ size then (.ok ⟨⟩, s, [.checked range])
  else (.error trap, s, [])

def events (m : Program Source σ ε α) (s : σ) : List (Event Source) := (m s).2.2

end Program

open Program

def Range.Within (inner outer : Range Source) : Prop :=
  inner.source = outer.source ∧ outer.start ≤ inner.start ∧
    inner.start + inner.length ≤ outer.start + outer.length

def Covered (passed : List (Range Source)) (range : Range Source) : Prop :=
  ∃ outer ∈ passed, range.Within outer

def Confined (size : Nat) (events : List (Event Source)) : Prop :=
  ∀ front range back, events = front ++ .touched range :: back →
    range.start + range.length ≤ size ∧ ∃ outer, .checked outer ∈ front ∧ range.Within outer

def Sound (size : Nat) : List (Range Source) → List (Event Source) → Prop
  | _, [] => True
  | passed, .checked range :: rest => Sound size (range :: passed) rest
  | passed, .touched range :: rest =>
    (range.start + range.length ≤ size ∧ Covered passed range) ∧ Sound size passed rest

section Rules
variable {size : Nat} {passed more : List (Range Source)} {events later : List (Event Source)}

variable {range : Range Source}

theorem Covered.mono (covered : Covered passed range)
    (within : passed ⊆ more) : Covered more range := by
  obtain ⟨outer, member, inside⟩ := covered
  exact ⟨outer, within member, inside⟩

theorem Covered.fits (covered : Covered passed range)
    (inside : ∀ range ∈ passed, range.start + range.length ≤ size) :
    range.start + range.length ≤ size ∧ Covered passed range := by
  refine ⟨?_, covered⟩
  obtain ⟨outer, member, within⟩ := covered
  exact Nat.le_trans within.2.2 (inside outer member)

theorem Sound.mono (sound : Sound size passed events) (within : passed ⊆ more) :
    Sound size more events := by
  induction events generalizing passed more with
  | nil => trivial
  | cons event rest ih =>
    cases event with
    | checked range => exact ih sound (List.cons_subset_cons range within)
    | touched range => exact ⟨⟨sound.1.1, sound.1.2.mono within⟩, ih sound.2 within⟩

theorem Sound.append (sound : Sound size passed events) (rest : Sound size passed later) :
    Sound size passed (events ++ later) := by
  induction events generalizing passed with
  | nil => exact rest
  | cons event events ih =>
    cases event with
    | checked range => exact ih sound (rest.mono (List.subset_cons_self range passed))
    | touched range => exact ⟨sound.1, ih sound.2 rest⟩

theorem Sound.front (sound : Sound size passed (events ++ later)) : Sound size passed events := by
  induction events generalizing passed with
  | nil => trivial
  | cons event events ih =>
    cases event with
    | checked range => exact ih sound
    | touched range => exact ⟨sound.1, ih sound.2⟩

theorem Sound.back (touches : ∀ event ∈ events, ∃ range, event = .touched range)
    (sound : Sound size passed (events ++ later)) : Sound size passed later := by
  induction events with
  | nil => exact sound
  | cons event events ih =>
    obtain ⟨range, rfl⟩ := touches event (by simp)
    exact ih (fun other member => touches other (by simp [member])) sound.2

theorem sound_split : Sound size passed events ↔
    ∀ front range back, events = front ++ .touched range :: back →
      range.start + range.length ≤ size ∧
        ∃ outer, (outer ∈ passed ∨ .checked outer ∈ front) ∧ range.Within outer := by
  induction events generalizing passed with
  | nil =>
    refine ⟨fun _ front range back same => ?_, fun _ => trivial⟩
    cases front <;> cases same
  | cons event events ih =>
    cases event with
    | checked first =>
      rw [Sound, ih]
      constructor
      · rintro sound (_ | ⟨head, front⟩) range back same
        · cases same
        · cases same
          obtain ⟨inside, outer, among, within⟩ := sound front range back rfl
          refine ⟨inside, outer, ?_, within⟩
          rcases among with member | member
          · rcases List.mem_cons.mp member with rfl | member
            · exact .inr (by simp)
            · exact .inl member
          · exact .inr (by simp [member])
      · intro sound front range back same
        obtain ⟨inside, outer, among, within⟩ :=
          sound (.checked first :: front) range back (by rw [same]; rfl)
        refine ⟨inside, outer, ?_, within⟩
        simp only [List.mem_cons, Event.checked.injEq] at among ⊢
        tauto
    | touched first =>
      rw [Sound, ih]
      constructor
      · rintro ⟨here, sound⟩ (_ | ⟨head, front⟩) range back same
        · cases same
          obtain ⟨inside, outer, member, within⟩ := here
          exact ⟨inside, outer, .inl member, within⟩
        · cases same
          obtain ⟨inside, outer, among, within⟩ := sound front range back rfl
          exact ⟨inside, outer, among.imp_right (List.mem_cons_of_mem _), within⟩
      · intro sound
        obtain ⟨inside, outer, among, within⟩ := sound [] first events rfl
        refine ⟨⟨inside, outer, among.resolve_right (List.not_mem_nil), within⟩, ?_⟩
        intro front range back same
        obtain ⟨inside, outer, among, within⟩ :=
          sound (.touched first :: front) range back (by rw [same]; rfl)
        refine ⟨inside, outer, ?_, within⟩
        simpa using among

theorem confined_iff : Confined size events ↔ Sound size [] events := by
  rw [sound_split]
  simp [Confined]

def Under (size : Nat) (passed : List (Range Source)) (m : Program Source σ ε α) : Prop :=
  (∀ range ∈ passed, range.start + range.length ≤ size) → ∀ s, Sound size passed (m.events s)

variable {m : Program Source σ ε α} {f : α → Program Source σ ε β}

theorem under_pure (a : α) : Under size passed (pure a : Program Source σ ε α) :=
  fun _ _ => trivial

theorem under_stop (e : ε) : Under size passed (stop e : Program Source σ ε α) :=
  fun _ _ => trivial

theorem under_act (g : σ → α × σ) : Under size passed (act g : Program Source σ ε α) :=
  fun _ _ => trivial

theorem under_inside
    (given : (∀ range ∈ passed, range.start + range.length ≤ size) → Under size passed m) :
    Under size passed m :=
  fun inside => given inside inside

theorem under_touch
    (covered : (∀ range ∈ passed, range.start + range.length ≤ size) → Covered passed range) :
    Under size passed (touch range : Program Source σ ε PUnit) :=
  fun inside _ => ⟨(covered inside).fits inside, trivial⟩

theorem sound_bind {s : σ} (first : Sound size passed (m.events s))
    (inside : ∀ range ∈ passed, range.start + range.length ≤ size)
    (second : ∀ a, Under size passed (f a)) : Sound size passed ((m >>= f).events s) := by
  change Sound size passed (andThen m f s).2.2
  unfold Program.events at first
  unfold andThen
  rcases outcome : m s with ⟨_ | a, t, events⟩
  · rw [outcome] at first
    exact first
  · rw [outcome] at first
    exact first.append (second a inside t)

theorem events_bind (s : σ) :
    (m >>= f).events s = m.events s ++
      match m s with
      | (.ok a, t, _) => (f a).events t
      | (.error _, _, _) => [] := by
  change (andThen m f s).2.2 = (m s).2.2 ++ _
  unfold andThen
  rcases m s with ⟨_ | a, t, events⟩
  · exact (List.append_nil events).symm
  · rfl

theorem under_bind (first : Under size passed m) (second : ∀ a, Under size passed (f a)) :
    Under size passed (m >>= f) :=
  fun inside s => sound_bind (first inside s) inside second

theorem under_act_bind {g : σ → α × σ} (next : ∀ s, Under size passed (f (g s).1)) :
    Under size passed (act g >>= f) :=
  fun inside s => next s inside (g s).2

theorem under_check {trap : ε} {g : PUnit → Program Source σ ε β}
    (next : Under size (range :: passed) (g ⟨⟩)) :
    Under size passed (check size trap range >>= g) := by
  intro inside s
  change Sound size passed (andThen (check size trap range) g s).2.2
  unfold andThen check
  by_cases fits : range.start + range.length ≤ size
  · simp only [if_pos fits]
    apply next _ s
    rintro other (_ | ⟨_, member⟩)
    · exact fits
    · exact inside other member
  · simp only [if_neg fits]
    trivial

end Rules

end Guarded
