import Mathlib.Data.Fintype.EquivFin
import Mathlib.Data.List.Basic
import Mathlib.Logic.Relation

/-!
Walks from one place to the next, until there is no next. A walk goes on for ever
exactly when it comes back to a place, and then no number of turns is enough for
it; where it ends, the places it passes are one list, however it is counted.
-/

namespace Orbit

universe u
variable {Place : Type u} (step : Place → Option Place)

/-- The places from which there is a next, at most `n` turns of the walk and the last
one to see that it ends. -/
def walk : Nat → Place → Option (List Place)
  | 0, _ => none
  | n + 1, p =>
    match step p with
    | none => some []
    | some q => (walk n q).map (p :: ·)

def Leads (p q : Place) : Prop := step p = some q

abbrev Passes : Place → Place → Prop := Relation.ReflTransGen (Leads step)

def Halts (p : Place) : Prop := ∃ n places, walk step n p = some places

def Acyclic (p : Place) : Prop := ∀ q r, Passes step p q → step q = some r → ¬ Passes step r q

def nth : Nat → Place → Place ⊕ Nat
  | 0, p =>
    match step p with
    | none => .inr 0
    | some _ => .inl p
  | i + 1, p =>
    match step p with
    | none => .inr (i + 1)
    | some q => nth i q

variable {step} {p q r : Place} {places others : List Place} {n m : Nat}

theorem walk_stop (stops : step p = none) : walk step (n + 1) p = some [] := by
  rw [walk, stops]

theorem walk_on (leads : step p = some q) : walk step (n + 1) p = (walk step n q).map (p :: ·) := by
  rw [walk, leads]

theorem walk_unique (one : walk step n p = some places) (other : walk step m p = some others) :
    places = others := by
  induction n generalizing p places m others with
  | zero => cases one
  | succ n ih =>
    cases m with
    | zero => cases other
    | succ m =>
      cases found : step p with
      | none =>
        rw [walk_stop found] at one other
        cases one
        cases other
        rfl
      | some q =>
        rw [walk_on found] at one other
        obtain ⟨rest, here, rfl⟩ := Option.map_eq_some_iff.mp one
        obtain ⟨rest', there, rfl⟩ := Option.map_eq_some_iff.mp other
        rw [ih here there]

theorem walk_mono (walked : walk step n p = some places) (more : n ≤ m) :
    walk step m p = some places := by
  induction n generalizing p places m with
  | zero => cases walked
  | succ n ih =>
    obtain ⟨m, rfl⟩ : ∃ k, m = k + 1 := ⟨m - 1, by omega⟩
    cases found : step p with
    | none =>
      rw [walk_stop found] at walked ⊢
      exact walked
    | some q =>
      rw [walk_on found] at walked ⊢
      obtain ⟨rest, there, rfl⟩ := Option.map_eq_some_iff.mp walked
      rw [ih there (by omega)]
      rfl

theorem walk_passes (passes : Passes step p q) (walked : walk step n p = some places) :
    ∃ front m rest, walk step m q = some rest ∧ places = front ++ rest := by
  induction passes using Relation.ReflTransGen.head_induction_on generalizing n places with
  | refl => exact ⟨[], n, places, walked, rfl⟩
  | head leads _ ih =>
    cases n with
    | zero => cases walked
    | succ n =>
      rw [walk_on leads] at walked
      obtain ⟨rest, there, rfl⟩ := Option.map_eq_some_iff.mp walked
      obtain ⟨front, m, back, last, rfl⟩ := ih there
      exact ⟨_ :: front, m, back, last, rfl⟩

theorem Halts.acyclic (halts : Halts step p) : Acyclic step p := by
  intro q r passes leads back
  obtain ⟨n, places, walked⟩ := halts
  obtain ⟨_, m, rest, here, _⟩ := walk_passes passes walked
  cases m with
  | zero => cases here
  | succ m =>
    rw [walk_on leads] at here
    obtain ⟨rest', there, rfl⟩ := Option.map_eq_some_iff.mp here
    obtain ⟨front, m', again, walked', split⟩ := walk_passes back there
    -- the walk from here would be longer than itself
    have same : again = q :: rest' := by
      apply walk_unique walked'
      rw [walk_on leads (n := m), there]
      rfl
    have length := congrArg List.length split
    rw [same] at length
    simp at length
    omega

/-- The places passed in at most `n` turns. -/
def trail (step : Place → Option Place) : Nat → Place → List Place
  | 0, _ => []
  | n + 1, p =>
    match step p with
    | none => []
    | some q => p :: trail step n q

theorem trail_stop (stops : step p = none) : trail step n p = [] := by
  cases n with
  | zero => rfl
  | succ n => rw [trail, stops]

theorem trail_on (leads : step p = some q) : trail step (n + 1) p = p :: trail step n q := by
  rw [trail, leads]

theorem walk_iff_trail : (∃ places, walk step n p = some places) ↔ (trail step n p).length < n := by
  induction n generalizing p with
  | zero => simp [walk]
  | succ n ih =>
    cases found : step p with
    | none => simp [trail_stop found, walk_stop found]
    | some q => simp [trail_on found, walk_on found, ih]

theorem mem_trail (member : q ∈ trail step n p) : Passes step p q ∧ step q ≠ none := by
  induction n generalizing p with
  | zero => cases member
  | succ n ih =>
    cases found : step p with
    | none =>
      rw [trail_stop found] at member
      cases member
    | some r =>
      rw [trail_on found] at member
      rcases List.mem_cons.mp member with rfl | later
      · exact ⟨.refl, by simp [found]⟩
      · obtain ⟨passes, goes⟩ := ih later
        exact ⟨.head found passes, goes⟩

theorem Acyclic.on (acyclic : Acyclic step p) (leads : step p = some q) : Acyclic step q :=
  fun x r passes => acyclic x r (.head leads passes)

theorem trail_nodup (acyclic : Acyclic step p) : (trail step n p).Nodup := by
  induction n generalizing p with
  | zero => exact List.nodup_nil
  | succ n ih =>
    cases found : step p with
    | none =>
      rw [trail_stop found]
      exact List.nodup_nil
    | some q =>
      rw [trail_on found, List.nodup_cons]
      refine ⟨fun member => ?_, ih (acyclic.on found)⟩
      exact acyclic p q .refl found (mem_trail member).1

theorem walk_of_acyclic {room : Finset Place} (acyclic : Acyclic step p)
    (inside : ∀ q, step q ≠ none → q ∈ room) (enough : room.card < n) :
    ∃ places, walk step n p = some places := by
  classical
  rw [walk_iff_trail, ← List.toFinset_card_of_nodup (trail_nodup acyclic)]
  refine Nat.lt_of_le_of_lt (Finset.card_le_card fun q member => ?_) enough
  exact inside q (mem_trail (List.mem_toFinset.mp member)).2

theorem halts_iff_acyclic [Finite Place] : Halts step p ↔ Acyclic step p := by
  refine ⟨Halts.acyclic, fun acyclic => ?_⟩
  have := Fintype.ofFinite Place
  obtain ⟨places, walked⟩ := walk_of_acyclic acyclic (fun q _ => Finset.mem_univ q)
    (Nat.lt_succ_self _)
  exact ⟨_, places, walked⟩

/-- A walk that comes back goes down somewhere, and from there it comes back too. -/
theorem acyclic_of_climbs (rank : Place → Nat)
    (climbs : ∀ q r, Passes step p q → step q = some r → rank q < rank r ∨ ¬ Passes step r q) :
    Acyclic step p := by
  intro q r reached leads back
  have onward : ∀ x, Passes step r x → Passes step x q → rank r ≤ rank x := by
    intro x there
    induction there with
    | refl => exact fun _ => Nat.le_refl _
    | tail before last ih =>
      intro back
      have up := (climbs _ _ ((reached.tail leads).trans before) last).resolve_right
        (not_not.mpr ((back.tail leads).trans before))
      exact (ih (.head last back)).trans up.le
  have up := (climbs q r reached leads).resolve_right (not_not.mpr back)
  exact absurd (onward q back .refl) (Nat.not_le.mpr up)

theorem walk_nth (walked : walk step n p = some places) (i : Nat) :
    nth step i p = if h : i < places.length then .inl places[i] else .inr (i - places.length) := by
  induction n generalizing p places i with
  | zero => cases walked
  | succ n ih =>
    cases found : step p with
    | none =>
      rw [walk_stop found] at walked
      cases walked
      cases i <;> simp [nth, found]
    | some q =>
      rw [walk_on found] at walked
      obtain ⟨rest, there, rfl⟩ := Option.map_eq_some_iff.mp walked
      cases i with
      | zero => simp [nth, found]
      | succ i => simp [nth, found, ih there]

end Orbit
