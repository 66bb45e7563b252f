import Ubiqos.Lib.Tally
import Ubiqos.Node.Promises

/-!
An entry between its ends and its starts: where it stands while it has no process, and
what its window has counted. With the matching of the entries and the processes this
is what the supervisor keeps over a run.
-/

namespace Ubiqos.Node

open Function

structure Entry.Placed (e : Entry) (waiting : Prop) : Prop where
  idle : waiting → e.pid < 0 ∧ e.restartDue = false
  due : e.restartDue = true → e.pid < 0
  kept : e.restart = .always → 0 ≤ e.pid ∨ e.restartDue = true ∨ e.givenUp = true ∨ waiting

/-- The window's count is of the restarts there were, and of the one that is owed. -/
structure Entry.Timed (e : Entry) (owes : Prop) (since now : Nat) (times : List Nat) : Prop where
  window : e.windowStart = BitVec.ofNat 32 since
  owed : owes → ∃ count, e.restarts = count + 1 ∧ count < restartLimit ∧
    Quota.Counted restartLimit restartWindow since now count times
  paid : ¬ owes → Quota.Counted restartLimit restartWindow since now e.restarts times
  gaveUp : e.givenUp = true → ∃ a, restartLimit ≤ Quota.within a restartWindow times

section Entries
variable {e : Entry} {owes : Prop} {since now : Nat} {times : List Nat}

theorem Entry.Timed.later (timed : e.Timed owes since now times) {now' : Nat} (passes : now ≤ now') :
    e.Timed owes since now' times where
  window := timed.window
  owed has := by
    obtain ⟨count, is, less, counted⟩ := timed.owed has
    exact ⟨count, is, less, counted.later passes⟩
  paid none := (timed.paid none).later passes
  gaveUp := timed.gaveUp

theorem Entry.Timed.spread (timed : e.Timed owes since now times) (a : Nat) :
    Quota.within a restartWindow times ≤ restartLimit := by
  by_cases has : owes
  · obtain ⟨count, -, -, counted⟩ := timed.owed has
    exact counted.spread a
  · exact (timed.paid has).spread a

theorem Entry.Timed.again (timed : e.Timed owes since now times) (has : owes) {e' : Entry}
    (window : e'.windowStart = e.windowStart) (restarts : e'.restarts = e.restarts)
    (givenUp : e'.givenUp = e.givenUp) : e'.Timed False since now (now :: times) where
  window := window.trans timed.window
  owed := False.elim
  paid _ := by
    obtain ⟨count, is, less, counted⟩ := timed.owed has
    rw [restarts, is]
    exact counted.spend less
  gaveUp up := by
    obtain ⟨a, many⟩ := timed.gaveUp (givenUp ▸ up)
    refine ⟨a, many.trans ?_⟩
    unfold Quota.within
    rw [List.countP_cons]
    exact Nat.le_add_right _ _

theorem elapsed {since now : Nat} (begun : since ≤ now) (near : now < since + 2 ^ 32) :
    (BitVec.ofNat 32 now - BitVec.ofNat 32 since).toNat = now - since := by
  rw [BitVec.toNat_sub]
  simp only [BitVec.toNat_ofNat]
  omega

theorem Entry.Timed.ended (timed : e.Timed False since now times) (idle : e.restartDue = false)
    (reason : Nat)
    (renewal : e.renews reason (BitVec.ofNat 32 now) = true → ∀ r ∈ times, r + restartWindow < now)
    (near : e.restarts = restartLimit → now < since + 2 ^ 32) :
    (e.ended reason (BitVec.ofNat 32 now)).Timed
      ((e.ended reason (BitVec.ofNat 32 now)).restartDue = true)
      (if e.renews reason (BitVec.ofNat 32 now) then now else since) now times := by
  have counted := timed.paid not_false
  unfold Entry.ended
  by_cases renews : e.renews reason (BitVec.ofNat 32 now) = true
  · have again : e.again reason = true := by
      simp only [Entry.renews, Bool.and_eq_true] at renews
      exact renews.1
    have anew := counted.renew (renewal renews)
    have room : ¬ restartLimit ≤ 0 := by decide
    simp only [renews, again, if_true, Bool.not_true, Bool.false_eq_true, if_false, room]
    constructor
    · rfl
    · exact fun _ => ⟨0, rfl, by decide, anew⟩
    · intro none
      simp at none
    · exact timed.gaveUp
  · simp only [renews, Bool.false_eq_true, if_false]
    by_cases again : e.again reason = true
    · simp only [again, Bool.not_true, Bool.false_eq_true, if_false]
      split
      · -- the limit was reached in a window that is still the present one
        rename_i full
        have limit : e.restarts = restartLimit := le_antisymm counted.limited full
        have young : now ≤ since + restartWindow := by
          simp only [Entry.renews, again, Bool.true_and, decide_eq_true_eq, timed.window,
            elapsed counted.begun (near limit)] at renews
          omega
        constructor
        · exact timed.window
        · intro due
          simp [idle] at due
        · exact fun _ => counted
        · intro _
          rw [limit] at counted
          exact ⟨_, counted.full young⟩
      · rename_i room
        constructor
        · exact timed.window
        · exact fun _ => ⟨e.restarts, rfl, by omega, counted⟩
        · intro none
          simp at none
        · exact timed.gaveUp
    · simp only [again, Bool.not_false, if_true]
      constructor
      · exact timed.window
      · intro due
        simp [idle] at due
      · exact fun _ => counted
      · exact timed.gaveUp

theorem Entry.ended_restart (e : Entry) (reason : Nat) (now : Ticks) :
    (e.ended reason now).restart = e.restart := by
  unfold Entry.ended
  dsimp only
  split
  · split <;> rfl
  · split <;> split <;> rfl

theorem Entry.ended_placed (e : Entry) (reason : Nat) (now : Ticks) :
    (e.ended reason now).Placed False where
  idle := False.elim
  due _ := by
    rw [e.ended_pid]
    decide
  kept always := by
    have same : e.restart = .always := (e.ended_restart reason now).symm.trans always
    have again : e.again reason = true := by simp [Entry.again, same]
    unfold Entry.ended
    simp only [again, Bool.not_true, Bool.false_eq_true, if_false]
    -- the window is the old one or a new one
    split
    · split <;> simp
    · split <;> simp

end Entries

def Owes {n : Nat} (w : World n) (i : Fin n) : Prop :=
  (w.entries i).restartDue = true ∨ ∃ t, w.phase = .restarting i t

structure Kept {n : Nat} (w : World n) : Prop where
  matched : Matched w
  placed : ∀ i, (w.entries i).Placed (Waiting w i)
  timed : ∀ i, (w.entries i).Timed (Owes w i) (w.since i) w.now (w.restartedAt i)

section Keeping
variable {n : Nat} {w v : World n}

theorem Kept.other (kept : Kept w) (matched : Matched v) (entries : v.entries = w.entries)
    (phase : v.phase = w.phase) (since : v.since = w.since)
    (restartedAt : v.restartedAt = w.restartedAt) (now : w.now ≤ v.now) : Kept v where
  matched := matched
  placed i := by
    have placed := kept.placed i
    unfold Waiting at placed ⊢
    rwa [entries, phase]
  timed i := by
    have timed := kept.timed i
    unfold Owes at timed ⊢
    rw [entries, phase, since, restartedAt]
    exact timed.later now

theorem Entry.Placed.of_iff {e : Entry} {waiting waiting' : Prop} (placed : e.Placed waiting)
    (same : waiting' ↔ waiting) : e.Placed waiting' := by
  rwa [show waiting' = waiting from propext same]

theorem Entry.Timed.of_iff {e : Entry} {owes owes' : Prop} {since now : Nat} {times : List Nat}
    (timed : e.Timed owes since now times) (same : owes' ↔ owes) : e.Timed owes' since now times := by
  rwa [show owes' = owes from propext same]

theorem Kept.boot (table : Fin n → Restart) : Kept (boot table) where
  matched := by
    constructor <;> simp [Node.boot, fresh]
  placed i := by
    have waits : Waiting (Node.boot table) i :=
      .inl ⟨⟨0, i.pos⟩, by simp [Node.boot, Phase.before, i.pos], Nat.zero_le _⟩
    constructor
    · exact fun _ => ⟨by simp [Node.boot, fresh], rfl⟩
    · intro due
      cases due
    · exact fun _ => .inr (.inr (.inr waits))
  timed i := by
    have none : ¬ Owes (Node.boot table) i := by
      rintro (due | ⟨t, phase⟩)
      · cases due
      · simp only [Node.boot, Phase.before] at phase
        split at phase <;> cases phase
    constructor
    · rfl
    · exact fun owes => absurd owes none
    · exact fun _ => Quota.Counted.nothing
    · intro up
      cases up

theorem start_entries (w : World n) (i : Fin n) (answer : Option Nat) :
    (w.start i answer).entries = update w.entries i ((w.entries i).started (w.granted answer)) := by
  unfold World.start
  split
  · rename_i pid is
    rw [is]
  · rename_i is
    rw [is]

variable {granted : Option Nat}

theorem Entry.Placed.started {e : Entry} {waiting : Prop} (placed : e.Placed waiting) (waits : waiting)
     (fair : granted = none → e.restart ≠ .always) :
    (e.started granted).Placed False where
  idle := False.elim
  due owed := by
    have none := (placed.idle waits).2
    rw [show (e.started granted).restartDue = e.restartDue from rfl, none] at owed
    cases owed
  kept always := by
    cases granted with
    | none => exact absurd always (fair rfl)
    | some pid => exact .inl (Int.natCast_nonneg pid)

theorem start_rest (w : World n) (i : Fin n) (answer : Option Nat) :
    (w.start i answer).now = w.now ∧ (w.start i answer).since = w.since ∧
      (w.start i answer).restartedAt = w.restartedAt := by
  unfold World.start
  split <;> exact ⟨rfl, rfl, rfl⟩

theorem waiting_before {i : Nat} {v : World n} (phase : v.phase = .before n i) (j : Fin n) :
    Waiting v j ↔ i ≤ j := by
  unfold Waiting
  rw [phase]
  unfold Phase.before
  split
  · rename_i below
    constructor
    · rintro (⟨k, is, le⟩ | ⟨t, is⟩)
      · cases is
        exact le
      · cases is
    · exact fun le => .inl ⟨_, rfl, le⟩
  · constructor
    · rintro (⟨k, is, le⟩ | ⟨t, is⟩) <;> cases is
    · intro le
      exact absurd j.isLt (by omega)

theorem not_waiting (none : v.phase.starts = none) (j : Fin n) : ¬ Waiting v j := by
  rintro (⟨k, is, -⟩ | ⟨t, is⟩) <;> simp [is, Phase.starts] at none

theorem owes_iff (none : v.phase.starts = none) (j : Fin n) :
    Owes v j ↔ (v.entries j).restartDue = true := by
  constructor
  · rintro (due | ⟨t, is⟩)
    · exact due
    · simp [is, Phase.starts] at none
  · exact .inl

theorem Kept.goes (kept : Kept w) (matched : Matched v) (before : w.phase.starts = none)
    (after : v.phase.starts = none) (entries : v.entries = w.entries) (since : v.since = w.since)
    (restartedAt : v.restartedAt = w.restartedAt) (now : v.now = w.now) : Kept v where
  matched := matched
  placed j := by
    rw [entries]
    exact (kept.placed j).of_iff (iff_of_false (not_waiting after j) (not_waiting before j))
  timed j := by
    rw [entries, since, restartedAt, now]
    apply (kept.timed j).of_iff
    rw [owes_iff after, owes_iff before, entries]

theorem Entry.Timed.started {e : Entry} {owes : Prop} {since now : Nat} {times : List Nat}
    (timed : e.Timed owes since now times) (granted : Option Nat) :
    (e.started granted).Timed owes since now times :=
  ⟨timed.window, timed.owed, timed.paid, timed.gaveUp⟩

theorem Kept.starts (kept : Kept w) {i : Fin n} (phase : w.phase = .starting i)
     (fair : granted = none → (w.entries i).restart ≠ .always)
    (matched : Matched v) (entries : v.entries = update w.entries i ((w.entries i).started granted))
    (next : v.phase = .before n (i + 1)) (now : v.now = w.now) (since : v.since = w.since)
    (restartedAt : v.restartedAt = w.restartedAt) : Kept v := by
  have present : ∀ j, Waiting w j ↔ i ≤ j := by
    intro j
    unfold Waiting
    simp [phase]
  have owes : ∀ j, Owes v j ↔ Owes w j := by
    intro j
    have after : ∀ k t, v.phase ≠ .restarting k t := by
      intro k t
      rw [next]
      unfold Phase.before
      split <;> simp
    have due : (v.entries j).restartDue = (w.entries j).restartDue := by
      rw [entries]
      by_cases same : j = i
      · subst same
        rw [update_self]
        rfl
      · rw [update_of_ne same]
    unfold Owes
    simp [after, phase, due]
  constructor
  · exact matched
  · intro j
    rw [entries]
    by_cases same : j = i
    · subst same
      rw [update_self]
      apply ((kept.placed j).started ((present j).mpr (le_refl j)) fair).of_iff
      rw [waiting_before next]
      simp
    · rw [update_of_ne same]
      apply (kept.placed j).of_iff
      rw [waiting_before next, present]
      omega
  · intro j
    rw [entries, now, since, restartedAt]
    by_cases same : j = i
    · subst same
      rw [update_self]
      exact ((kept.timed j).of_iff (owes j)).started granted
    · rw [update_of_ne same]
      exact (kept.timed j).of_iff (owes j)

theorem Kept.restarts (kept : Kept w) {i : Fin n} {t : Ticks} (phase : w.phase = .restarting i t)
     (fair : granted = none → (w.entries i).restart ≠ .always)
    (matched : Matched v) (entries : v.entries = update w.entries i ((w.entries i).started granted))
    (next : v.phase = .checking (i + 1) t) (now : v.now = w.now) (since : v.since = w.since)
    (restartedAt : v.restartedAt = update w.restartedAt i (w.now :: w.restartedAt i)) : Kept v := by
  have waits : Waiting w i := .inr ⟨t, phase⟩
  have others : ∀ j, j ≠ i → ∀ u, w.phase ≠ .restarting j u := by
    intro j apart u is
    rw [phase, Phase.restarting.injEq] at is
    exact apart is.1.symm
  constructor
  · exact matched
  · intro j
    rw [entries]
    by_cases same : j = i
    · subst same
      rw [update_self]
      exact ((kept.placed j).started waits fair).of_iff (iff_false_intro (not_waiting (by rw [next]; rfl) j))
    · rw [update_of_ne same]
      apply (kept.placed j).of_iff
      have before : ¬ Waiting w j := by
        rintro (⟨k, is, -⟩ | ⟨u, is⟩)
        · simp [phase] at is
        · exact others j same u is
      exact iff_of_false (not_waiting (by rw [next]; rfl) j) before
  · intro j
    rw [entries, now, since, restartedAt]
    have owes : Owes v j ↔ (v.entries j).restartDue = true :=
    owes_iff (by rw [next]; rfl) j
    by_cases same : j = i
    · subst same
      rw [update_self, update_self]
      have made : ((w.entries j).started granted).Timed False (w.since j) w.now
          (w.now :: w.restartedAt j) :=
        (kept.timed j).again (.inr ⟨t, phase⟩) rfl rfl rfl
      apply made.of_iff
      rw [owes, entries, update_self]
      have idle := ((kept.placed j).idle waits).2
      simp [Entry.started, idle]
    · rw [update_of_ne same, update_of_ne same]
      apply (kept.timed j).of_iff
      rw [owes, entries, update_of_ne same]
      unfold Owes
      simp [others j same]

theorem Kept.execs (kept : Kept w) (answer : Option Nat) (fair : Fair w (.execs answer)) :
    Kept (w.step (.execs answer)) := by
  unfold World.step
  dsimp only
  split
  · rename_i i phase
    obtain ⟨running, unknown⟩ := fair i (by rw [phase]; rfl)
    have waits : Waiting w i := .inl ⟨i, phase, le_refl i⟩
    obtain ⟨now, since, restartedAt⟩ := start_rest w i answer
    have matched := kept.matched.start ((kept.placed i).idle waits).1 unknown
    exact kept.starts phase running (matched.same (fun _ => rfl) rfl rfl rfl rfl)
      (start_entries w i answer) rfl now since restartedAt
  · rename_i i t phase
    obtain ⟨running, unknown⟩ := fair i (by rw [phase]; rfl)
    have waits : Waiting w i := .inr ⟨t, phase⟩
    obtain ⟨now, since, -⟩ := start_rest w i answer
    have matched := kept.matched.start ((kept.placed i).idle waits).1 unknown
    exact kept.restarts phase running (matched.same (fun _ => rfl) rfl rfl rfl rfl)
      (start_entries w i answer) rfl now since rfl
  · exact kept

theorem Kept.check (kept : Kept w) {i : Nat} {t : Ticks} (phase : w.phase = .checking i t) :
    Kept (w.check i t) := by
  have none : w.phase.starts = none := by rw [phase]; rfl
  have before : ∀ j, Owes w j ↔ (w.entries j).restartDue = true := owes_iff none
  have idle : ∀ j, ¬ Waiting w j := not_waiting none
  unfold World.check
  split
  · rename_i below
    dsimp only
    split
    · rename_i due
      simp only [Entry.isDue, Bool.and_eq_true] at due
      constructor
      · refine kept.matched.same (fun j => ?_) rfl rfl rfl rfl
        by_cases same : j = ⟨i, below⟩
        · subst same
          simp
        · simp [update_of_ne same]
      · intro j
        dsimp only
        by_cases same : j = ⟨i, below⟩
        · subst same
          rw [update_self]
          have stopped := (kept.placed ⟨i, below⟩).due due.1
          have waits : Waiting { w with
              entries := update w.entries ⟨i, below⟩ { w.entries ⟨i, below⟩ with restartDue := false }
              phase := .restarting ⟨i, below⟩ t } ⟨i, below⟩ := .inr ⟨t, rfl⟩
          exact ⟨fun _ => ⟨stopped, rfl⟩, fun _ => stopped, fun _ => .inr (.inr (.inr waits))⟩
        · rw [update_of_ne same]
          apply (kept.placed j).of_iff (iff_of_false _ (idle j))
          rintro (⟨k, is, -⟩ | ⟨u, is⟩)
          · cases is
          · simp only [Phase.restarting.injEq] at is
            exact same is.1.symm
      · intro j
        dsimp only
        by_cases same : j = ⟨i, below⟩
        · subst same
          rw [update_self]
          have timed := kept.timed ⟨i, below⟩
          have owes : Owes w ⟨i, below⟩ := (before ⟨i, below⟩).mpr due.1
          exact ⟨timed.window, fun _ => timed.owed owes, fun none => absurd (.inr ⟨t, rfl⟩) none, timed.gaveUp⟩
        · rw [update_of_ne same]
          apply (kept.timed j).of_iff
          rw [before]
          unfold Owes
          dsimp only
          rw [update_of_ne same]
          constructor
          · rintro (owed | ⟨u, is⟩)
            · exact owed
            · simp only [Phase.restarting.injEq] at is
              exact absurd is.1.symm same
          · exact .inl
    · exact kept.goes (kept.matched.same (fun _ => rfl) rfl rfl rfl rfl) none rfl rfl rfl rfl rfl
  · exact kept.goes (kept.matched.same (fun _ => rfl) rfl rfl rfl rfl) none rfl rfl rfl rfl rfl

theorem Kept.collects (kept : Kept w) (phase : w.phase = .receiving) {i : Fin n} {reason : Nat}
    (running : 0 ≤ (w.entries i).pid)
    (renewal : (w.entries i).renews reason w.ticks = true →
      ∀ r ∈ w.restartedAt i, r + restartWindow < w.now)
    (near : (w.entries i).restarts = restartLimit → w.now < w.since i + 2 ^ 32)
    (matched : Matched v)
    (entries : v.entries = update w.entries i ((w.entries i).ended reason w.ticks))
    (after : v.phase.starts = none) (now : v.now = w.now)
    (since : v.since = if (w.entries i).renews reason w.ticks then update w.since i w.now else w.since)
    (restartedAt : v.restartedAt = w.restartedAt) : Kept v := by
  have before : w.phase.starts = none := by rw [phase]; rfl
  have idle : (w.entries i).restartDue = false := by
    by_contra owed
    have stopped := (kept.placed i).due (by simpa using owed)
    omega
  constructor
  · exact matched
  · intro j
    rw [entries]
    by_cases same : j = i
    · subst same
      rw [update_self]
      exact ((w.entries j).ended_placed reason w.ticks).of_iff (iff_false_intro (not_waiting after j))
    · rw [update_of_ne same]
      exact (kept.placed j).of_iff (iff_of_false (not_waiting after j) (not_waiting before j))
  · intro j
    rw [entries, now, restartedAt]
    by_cases same : j = i
    · subst same
      have paid : ¬ Owes w j := by
        rw [owes_iff before]
        simp [idle]
      have timed := ((kept.timed j).of_iff (iff_false_intro paid).symm).ended idle reason renewal near
      rw [update_self, show v.since j =
        if (w.entries j).renews reason w.ticks then w.now else w.since j by rw [since]; split <;> simp]
      apply timed.of_iff
      rw [owes_iff after, entries, update_self]
      rfl
    · rw [update_of_ne same, show v.since j = w.since j by
        rw [since]
        split <;> simp [update_of_ne same]]
      apply (kept.timed j).of_iff
      rw [owes_iff after, owes_iff before, entries, update_of_ne same]

theorem Kept.receives (kept : Kept w) (takes : Bool) (fair : Fair w (.receives takes)) :
    Kept (w.step (.receives takes)) := by
  unfold World.step
  dsimp only
  split
  · rename_i phase
    have before : w.phase.starts = none := by rw [phase]; rfl
    have matched := kept.matched.receive takes fair
    cases takes with
    | false => exact kept.goes matched before rfl rfl rfl rfl rfl
    | true =>
      cases queued : w.pulses with
      | nil =>
        rw [receive_nil queued] at matched ⊢
        exact kept.goes matched before rfl rfl rfl rfl rfl
      | cons pulse rest =>
        rw [receive_cons queued] at matched ⊢
        split at matched
        · rename_i type
          rw [if_pos type]
          unfold World.ended at matched ⊢
          cases is : found w.entries (endPid pulse.value) with
          | none =>
            rw [is] at matched
            exact kept.goes matched before rfl rfl rfl rfl rfl
          | some i =>
            rw [is] at matched
            obtain ⟨-, counted⟩ := fair pulse (by rw [queued]; rfl) type
            obtain ⟨renewal, near⟩ := counted i is
            have number := found_pid is
            exact kept.collects phase (by omega) renewal near matched rfl rfl rfl rfl rfl
        · rename_i type
          rw [if_neg type]
          exact kept.goes matched before rfl rfl rfl rfl rfl
  · exact kept

theorem Kept.step (kept : Kept w) (step : Step) (fair : Fair w step) : Kept (w.step step) := by
  cases step with
  | passes ms =>
    exact kept.other (kept.matched.same (fun _ => rfl) rfl rfl rfl rfl) rfl rfl rfl rfl
      (Nat.le_add_right _ _)
  | born pid =>
    unfold World.step
    dsimp only
    split
    · rename_i free
      exact kept.other (kept.matched.other free) rfl rfl rfl rfl le_rfl
    · exact kept
  | ends pid reason room =>
    have matched := kept.matched.ends pid reason room fair
    change Kept (w.ends pid reason room)
    unfold World.ends at matched ⊢
    cases alive : w.procs pid with
    | none => exact kept
    | some p =>
      simp only [alive] at matched ⊢
      split at matched <;> rename_i told
      · rw [if_pos told]
        exact kept.other matched rfl rfl rfl rfl le_rfl
      · rw [if_neg told]
        exact kept.other matched rfl rfl rfl rfl le_rfl
  | pulses sender type value =>
    unfold World.step
    dsimp only
    split
    · exact kept
    · rename_i sent
      exact kept.other (kept.matched.pulsed sent rfl) rfl rfl rfl rfl le_rfl
  | execs answer => exact kept.execs answer fair
  | receives takes => exact kept.receives takes fair
  | checks =>
    unfold World.step
    dsimp only
    split
    · rename_i i t phase
      exact kept.check phase
    · exact kept

theorem kept_run (table : Fin n → Restart) (steps : List Step)
    (fair : Machine.Along World.step Fair (boot table) steps) : Kept (run table steps) :=
  Machine.along_invariant Kept fair (Kept.boot table) (fun _ step _ allowed kept => kept.step step allowed)

theorem step_restart (w : World n) (step : Step) (i : Fin n) :
    ((w.step step).entries i).restart = (w.entries i).restart := by
  have placed : ∀ (j : Fin n) (e : Entry), e.restart = (w.entries j).restart →
      (update w.entries j e i).restart = (w.entries i).restart := by
    intro j e same
    by_cases here : i = j
    · subst here
      rw [update_self, same]
    · rw [update_of_ne here]
  have started : ∀ (j : Fin n) (answer : Option Nat),
      ((w.start j answer).entries i).restart = (w.entries i).restart := by
    intro j answer
    rw [start_entries]
    exact placed j _ rfl
  cases step with
  | passes ms => rfl
  | born pid =>
    unfold World.step
    dsimp only
    split <;> rfl
  | ends pid reason room =>
    change ((w.ends pid reason room).entries i).restart = _
    unfold World.ends
    split
    · rfl
    · dsimp only
      split <;> rfl
  | pulses sender type value =>
    unfold World.step
    dsimp only
    split <;> rfl
  | execs answer =>
    unfold World.step
    dsimp only
    split
    · exact started _ answer
    · exact started _ answer
    · rfl
  | receives takes =>
    unfold World.step
    dsimp only
    split
    · cases takes with
      | false => rfl
      | true =>
        cases queued : w.pulses with
        | nil => rw [receive_nil queued]
        | cons pulse rest =>
          rw [receive_cons queued]
          split
          · unfold World.ended
            split
            · rfl
            · exact placed _ _ (Entry.ended_restart _ _ _)
          · rfl
    · rfl
  | checks =>
    unfold World.step
    dsimp only
    split
    · unfold World.check
      split
      · dsimp only
        split
        · exact placed _ _ rfl
        · rfl
      · rfl
    · rfl

theorem run_restart (table : Fin n → Restart) (steps : List Step) (i : Fin n) :
    ((run table steps).entries i).restart = table i :=
  Machine.foldl_invariant (fun w : World n => (w.entries i).restart = table i) rfl
    (fun w step _ same => (step_restart w step i).trans same)

def Running (w : World n) (i : Fin n) : Prop :=
  ∃ (pid : Nat) (q : Nat), (w.entries i).pid = pid ∧ w.current i = some q ∧
    (w.procs pid = some ⟨q, true⟩ ∨ ∃ pulse ∈ w.pulses, pulse.about = some q)

def GivenUp (w : World n) (i : Fin n) : Prop :=
  (w.entries i).givenUp = true ∧
    ∃ a, Quota.within a restartWindow (w.restartedAt i) = restartLimit

/-- In a run of fair steps the supervisor keeps what it promises. -/
theorem run_promises (table : Fin n → Restart) (steps : List Step)
    (fair : Machine.Along World.step Fair (boot table) steps) :
    (∀ front back, steps = front ++ .receives true :: back →
      ∀ pulse ∈ (run table front).pulses.head?, Attributed (run table front) pulse) ∧
    (∀ i, table i = .always → Running (run table steps) i ∨ Owes (run table steps) i ∨
      GivenUp (run table steps) i ∨ Waiting (run table steps) i) ∧
    ∀ i a, Quota.within a restartWindow ((run table steps).restartedAt i) ≤ restartLimit := by
  have kept := kept_run table steps fair
  refine ⟨?_, ?_, fun i a => (kept.timed i).spread a⟩
  · rintro front back rfl pulse first
    obtain ⟨before, next, -⟩ := Machine.along_append.mp fair
    obtain ⟨rest, queued⟩ := List.head?_eq_some_iff.mp first
    exact (kept_run table front before).matched.attributed queued next
  · intro i always
    rcases (kept.placed i).kept ((run_restart table steps i).trans always) with has | due | up | waits
    · exact .inl (kept.matched.running i has)
    · exact .inr (.inl (.inl due))
    · obtain ⟨a, many⟩ := (kept.timed i).gaveUp up
      exact .inr (.inr (.inl ⟨up, a, le_antisymm ((kept.timed i).spread a) many⟩))
    · exact .inr (.inr (.inr waits))

end Keeping

section Runs

def always {n : Nat} : Fin n → Restart := fun _ => .always

def untilStart : List Step :=
  [.ends 1 0 true, .receives true, .checks, .checks, .passes 1000, .receives false, .checks]

def restarted : List Step := untilStart ++ [.execs (some 1), .checks]

def mistaken : List Step :=
  .execs (some 1) :: restarted ++ [.pulses 3 pulseChild 7, .receives true, .checks, .checks] ++ restarted

theorem run_promises_mistaken :
    (Running (run (n := 1) always mistaken) 0 ∨ Owes (run (n := 1) always mistaken) 0 ∨
      GivenUp (run (n := 1) always mistaken) 0 ∨ Waiting (run (n := 1) always mistaken) 0) ∧
    Quota.within 0 restartWindow ((run (n := 1) always mistaken).restartedAt 0) ≤ restartLimit := by
  obtain ⟨-, placed, spread⟩ := run_promises (n := 1) always mistaken (by decide +kernel)
  exact ⟨placed 0 rfl, spread 0 0⟩

def reused : List Step :=
  [.execs (some 1), .execs (some 2), .ends 2 0 true, .receives true, .checks, .checks, .checks,
    .passes 1000, .receives false, .ends 1 0 true, .checks, .checks, .execs (some 1), .checks]

def oftener : List Step :=
  .execs (some 1) :: .passes 55000 :: (List.replicate 5 restarted).flatten ++
    .passes 1 :: (List.replicate 5 restarted).flatten

theorem promises_broken :
    (∃ pulse ∈ (run (n := 2) always reused).pulses.head?,
      (run (n := 2) always reused).current 0 = pulse.about ∧
        found (run (n := 2) always reused).entries (endPid pulse.value) = some 1) ∧
    ¬ (Running (run (n := 1) always (.execs (some 1) :: untilStart ++ [.execs none])) 0 ∨
      Owes (run (n := 1) always (.execs (some 1) :: untilStart ++ [.execs none])) 0 ∨
      GivenUp (run (n := 1) always (.execs (some 1) :: untilStart ++ [.execs none])) 0 ∨
      Waiting (run (n := 1) always (.execs (some 1) :: untilStart ++ [.execs none])) 0) ∧
    Quota.within 56000 restartWindow ((run (n := 1) always oftener).restartedAt 0) = 10 := by
  refine ⟨?_, ?_, by decide +kernel⟩
  · exact ⟨⟨0, pulseChild, endValue 1 0, some 0⟩, by decide +kernel, by decide +kernel, by decide +kernel⟩
  · have stopped : ((run (n := 1) always (.execs (some 1) :: untilStart ++ [.execs none])).entries 0).pid = -1 := by
      decide +kernel
    have settled : (run (n := 1) always (.execs (some 1) :: untilStart ++ [.execs none])).phase.starts = none := by
      decide +kernel
    rintro (⟨pid, q, is, -⟩ | owes | ⟨up, -⟩ | waits)
    · rw [stopped] at is
      omega
    · rw [owes_iff settled] at owes
      exact absurd owes (by decide +kernel)
    · exact absurd up (by decide +kernel)
    · exact not_waiting settled 0 waits

end Runs

end Ubiqos.Node
