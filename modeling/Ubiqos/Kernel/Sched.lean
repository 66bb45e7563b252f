import Ubiqos.Kernel.Moves

/-!
The two lists every process may stand on, and who runs. `Sched` is stated over
the columns it speaks of, so a move that leaves them alone leaves it alone. A
process that is being taken apart is, for the lists, already free: the rules
about `depart` use the column with its state replaced.
-/

namespace Ubiqos

open Function Intrusive Machine
open ReadyQueue (Ready readyEnqueue readyRemove readyTakeHighest since)
open SleepList (Sleep sleepInsert sleepRemove tickHead takeFirst)

variable {n : Nat} [NeZero n]

def Asleep (state : Pid n → ProcState) (timed : Pid n → Bool) (pid : Pid n) : Prop :=
  state pid = .sleeping ∨ (state pid = .waitRecv ∧ timed pid = true)

structure Sched (state : Pid n → ProcState) (current : Pid n) (ready : Ready n) (sleep : Sleep n)
    (timed : Pid n → Bool) : Prop where
  queues : ∃ queue, ReadyQueue.Holds ready (fun pid => state pid = .ready) queue
  sleepers : ∃ sleepers, SleepList.Holds sleep (Asleep state timed) sleepers
  owner : ∀ pid, state pid = .running → pid = current
  idle : state 0 = .ready ∨ state 0 = .running
  timed : ∀ pid, state pid ≠ .free → timed pid = true → state pid = .waitRecv

abbrev Scheduled (s : Kernel n) : Prop := Sched s.state s.current s.ready s.sleep s.recv.timed

variable {state : Pid n → ProcState} {current : Pid n} {ready : Ready n} {sleep : Sleep n}
  {timed : Pid n → Bool}

omit [NeZero n] in
theorem asleep_update_other {pid other : Pid n} (away : other ≠ pid) (now : ProcState) :
    Asleep (update state pid now) timed other ↔ Asleep state timed other := by
  simp [Asleep, away]

omit [NeZero n] in
theorem ready_update {pid : Pid n} {now : ProcState} (was : state pid ≠ .ready)
    (stays : now ≠ .ready) (other : Pid n) :
    update state pid now other = .ready ↔ state other = .ready := by
  by_cases same : other = pid
  · simp [same, was, stays]
  · simp [same]

omit [NeZero n] in
theorem asleep_update {pid : Pid n} {now : ProcState} (was : ¬ Asleep state timed pid)
    (stays : now ≠ .sleeping ∧ (now = .waitRecv → timed pid = false)) (other : Pid n) :
    Asleep (update state pid now) timed other ↔ Asleep state timed other := by
  by_cases same : other = pid
  · subst same
    simp only [was, iff_false]
    intro asleep
    rcases asleep with sleeping | ⟨waiting, late⟩
    · exact stays.1 (by simpa using sleeping)
    · rw [stays.2 (by simpa using waiting)] at late
      exact absurd late (by simp)
  · exact asleep_update_other same _

theorem Sched.change (inv : Sched state current ready sleep timed) {pid : Pid n} {now : ProcState}
    {ready' : Ready n} {sleep' : Sleep n} {timed' : Pid n → Bool}
    (queues : ∃ queue, ReadyQueue.Holds ready' (fun pid' => update state pid now pid' = .ready) queue)
    (sleepers : ∃ sleepers, SleepList.Holds sleep' (Asleep (update state pid now) timed') sleepers)
    (stopped : now ≠ .running) (idle : pid ≠ 0 ∨ now = .ready)
    (others : ∀ other, other ≠ pid → timed' other = timed other)
    (here : now ≠ .free → timed' pid = true → now = .waitRecv) :
    Sched (update state pid now) current ready' sleep' timed' := by
  refine ⟨queues, sleepers, ?_, ?_, ?_⟩
  · intro other running
    by_cases same : other = pid
    · simp [same, stopped] at running
    · exact inv.owner other (by simpa [same] using running)
  · by_cases zero : (0 : Pid n) = pid
    · rw [← zero, update_self]
      exact Or.inl (idle.resolve_left (not_not_intro zero.symm))
    · simpa [zero] using inv.idle
  · intro other there late
    by_cases same : other = pid
    · subst same
      rw [update_self] at there ⊢
      exact here there late
    · rw [others other same] at late
      simpa [same] using inv.timed other (by simpa [same] using there) late

theorem Sched.untimed (inv : Sched state current ready sleep timed) {pid : Pid n}
    (there : state pid ≠ .free) (elsewhere : state pid ≠ .waitRecv) : timed pid = false := by
  by_contra late
  exact elsewhere (inv.timed pid there (by simpa using late))

theorem Sched.first_asleep (inv : Sched state current ready sleep timed) {pid : Pid n}
    (first : sleep.head = some pid) : Asleep state timed pid := by
  obtain ⟨sleepers, list⟩ := inv.sleepers
  apply (list.member pid).mp
  have atHead := linked_head list.linked
  rw [first] at atHead
  exact List.mem_of_head? atHead.symm

theorem Sched.enqueue (inv : Sched state current ready sleep timed) {pid : Pid n}
    (unqueued : state pid ≠ .ready) (awake : ¬ Asleep state timed pid)
    (untimed : timed pid = false) :
    Sched (update state pid .ready) current (readyEnqueue ready pid) sleep timed := by
  obtain ⟨queue, holds⟩ := inv.queues
  obtain ⟨sleepers, asleep⟩ := inv.sleepers
  refine inv.change ⟨_, (ReadyQueue.readyEnqueue_holds holds unqueued).congr ?_⟩
    ⟨sleepers, asleep.congr (asleep_update awake (by simp))⟩ (by simp) (Or.inr rfl)
    (fun _ _ => rfl) (by simp [untimed])
  intro other
  by_cases same : other = pid <;> simp [same]

theorem Sched.rest (inv : Sched state current ready sleep timed) {pid : Pid n} {now : ProcState}
    (idle : pid ≠ 0) (unqueued : state pid ≠ .ready) (awake : ¬ Asleep state timed pid)
    (untimed : timed pid = false)
    (resting : now ≠ .ready ∧ now ≠ .running ∧ now ≠ .sleeping) :
    Sched (update state pid now) current ready sleep timed := by
  obtain ⟨queue, holds⟩ := inv.queues
  obtain ⟨sleepers, asleep⟩ := inv.sleepers
  exact inv.change ⟨queue, holds.congr (ready_update unqueued resting.1)⟩
    ⟨sleepers, asleep.congr (asleep_update awake ⟨resting.2.2, fun _ => untimed⟩)⟩ resting.2.1
    (Or.inl idle) (fun _ _ => rfl) (by simp [untimed])

theorem Sched.fallAsleep (inv : Sched state current ready sleep timed) {pid : Pid n} (ms : U32)
    (idle : pid ≠ 0) (running : state pid = .running) :
    Sched (update state pid .sleeping) current ready (sleepInsert sleep pid ms) timed := by
  obtain ⟨queue, holds⟩ := inv.queues
  obtain ⟨sleepers, asleep⟩ := inv.sleepers
  have awake : ¬ Asleep state timed pid := by simp [Asleep, running]
  have untimed : timed pid = false := inv.untimed (by simp [running]) (by simp [running])
  obtain ⟨front, back, _, _, inserted, _⟩ := SleepList.sleepInsert_holds asleep awake ms
  refine inv.change ⟨queue, holds.congr (ready_update (by simp [running]) (by simp))⟩
    ⟨_, inserted.congr ?_⟩ (by simp) (Or.inl idle) (fun _ _ => rfl) (by simp [untimed])
  intro other
  by_cases same : other = pid
  · simp [same, Asleep]
  · simp [asleep_update_other same, same]

theorem Sched.setDeadline (inv : Sched state current ready sleep timed) {pid : Pid n} (ms : U32)
    (waiting : state pid = .waitRecv) (untimed : timed pid = false) :
    Sched state current ready (sleepInsert sleep pid ms) (update timed pid true) := by
  obtain ⟨sleepers, asleep⟩ := inv.sleepers
  have awake : ¬ Asleep state timed pid := by simp [Asleep, waiting, untimed]
  obtain ⟨front, back, _, _, inserted, _⟩ := SleepList.sleepInsert_holds asleep awake ms
  refine ⟨inv.queues, ⟨_, inserted.congr ?_⟩, inv.owner, inv.idle, ?_⟩
  · intro other
    by_cases same : other = pid
    · simp [same, Asleep, waiting]
    · simp [Asleep, same]
  · intro other there late
    by_cases same : other = pid
    · rw [same]
      exact waiting
    · exact inv.timed other there (by simpa [same] using late)

theorem Sched.unTime (inv : Sched state current ready sleep timed) {pid : Pid n}
    (waiting : state pid = .waitRecv) (late : timed pid = true) :
    Sched state current ready (sleepRemove sleep pid) (update timed pid false) := by
  obtain ⟨sleepers, asleep⟩ := inv.sleepers
  obtain ⟨front, back, _, removed, _⟩ :=
    SleepList.sleepRemove_holds asleep (show Asleep state timed pid from Or.inr ⟨waiting, late⟩)
  refine ⟨inv.queues, ⟨_, removed.congr ?_⟩, inv.owner, inv.idle, ?_⟩
  · intro other
    by_cases same : other = pid
    · simp [same, Asleep, waiting]
    · simp [Asleep, same]
  · intro other there still
    by_cases same : other = pid
    · simp [same] at still
    · exact inv.timed other there (by simpa [same] using still)

theorem Sched.rouse (inv : Sched state current ready sleep timed) {pid : Pid n}
    (first : sleep.head = some pid) :
    Sched (update state pid .ready) current (readyEnqueue ready pid) (takeFirst sleep pid)
      (update timed pid false) := by
  obtain ⟨queue, holds⟩ := inv.queues
  obtain ⟨sleepers, asleep⟩ := inv.sleepers
  obtain ⟨rest, split⟩ : ∃ rest, sleepers = pid :: rest := by
    have head := linked_head asleep.linked
    rw [first] at head
    exact List.head?_eq_some_iff.mp head.symm
  subst split
  have here : Asleep state timed pid := (asleep.member pid).mp List.mem_cons_self
  have unqueued : state pid ≠ .ready := by
    rcases here with sleeping | ⟨waiting, _⟩
    · simp [sleeping]
    · simp [waiting]
  refine inv.change ⟨_, (ReadyQueue.readyEnqueue_holds holds unqueued).congr ?_⟩
    ⟨rest, (SleepList.takeFirst_holds asleep).congr ?_⟩ (by simp) (Or.inr rfl)
    (fun other away => update_of_ne away _ _) (by simp)
  · intro other
    by_cases same : other = pid <;> simp [same]
  · intro other
    by_cases same : other = pid <;> simp [Asleep, same]

theorem Sched.die (inv : Sched state current ready sleep timed) {pid : Pid n} (idle : pid ≠ 0) :
    Sched (update state pid .free) current
      (if state pid = .ready then readyRemove ready pid else ready) (sleepRemove sleep pid) timed := by
  obtain ⟨queue, holds⟩ := inv.queues
  obtain ⟨sleepers, asleep⟩ := inv.sleepers
  refine inv.change ?_ ?_ (by simp) (Or.inl idle) (fun _ _ => rfl) (by simp)
  · by_cases queued : state pid = .ready
    · rw [if_pos queued]
      refine ⟨_, (ReadyQueue.readyRemove_holds holds queued).congr ?_⟩
      intro other
      by_cases same : other = pid <;> simp [same]
    · rw [if_neg queued]
      exact ⟨queue, holds.congr (ready_update queued (by simp))⟩
  · by_cases sleeping : Asleep state timed pid
    · obtain ⟨front, back, _, removed, _⟩ := SleepList.sleepRemove_holds asleep sleeping
      refine ⟨_, removed.congr ?_⟩
      intro other
      by_cases same : other = pid
      · simp [same, Asleep]
      · simp [asleep_update_other same, same]
    · rw [SleepList.sleepRemove_awake asleep sleeping]
      exact ⟨sleepers, asleep.congr (asleep_update sleeping (by simp))⟩

theorem Sched.dispatch (inv : Sched state current ready sleep timed)
    (unowned : state current ≠ .running) {next : Pid n} {rest : Ready n}
    (taken : readyTakeHighest ready = some (next, rest)) :
    state next = .ready ∧ Sched (update state next .running) next rest sleep timed := by
  obtain ⟨queue, holds⟩ := inv.queues
  obtain ⟨sleepers, asleep⟩ := inv.sleepers
  have nobody : ∀ pid, state pid ≠ .running := by
    intro pid running
    rw [inv.owner pid running] at running
    exact unowned running
  have zeroReady : state 0 = .ready := inv.idle.resolve_right (nobody 0)
  obtain ⟨_, pid, after, found, isReady, _, _, left, _⟩ :=
    ReadyQueue.readyTakeHighest_holds holds zeroReady
  rw [taken, Option.some.injEq, Prod.mk.injEq] at found
  obtain ⟨rfl, rfl⟩ := found
  refine ⟨isReady, ⟨_, left.congr ?_⟩, ⟨sleepers, asleep.congr ?_⟩, ?_, ?_, ?_⟩
  · intro other
    by_cases same : other = next
    · simp [same]
    · simp [same]
  · intro other
    by_cases same : other = next
    · subst same
      simp [Asleep, isReady]
    · exact asleep_update_other same _
  · intro other running
    by_cases same : other = next
    · exact same
    · exact absurd (by simpa [same] using running) (nobody other)
  · by_cases zero : (0 : Pid n) = next
    · simp [← zero]
    · simp [zero, zeroReady]
  · intro other there late
    by_cases same : other = next
    · subst same
      have waiting := inv.timed other (by simp [isReady]) late
      rw [isReady] at waiting
      exact absurd waiting (by simp)
    · simpa [same] using inv.timed other (by simpa [same] using there) late

variable {s : Kernel n}

theorem Sched.wake (inv : Sched state current ready sleep timed) {pid : Pid n}
    (elsewhere : state pid ≠ .ready ∧ state pid ≠ .sleeping ∧ state pid ≠ .waitRecv)
    (there : state pid ≠ .free) :
    Sched (update state pid .ready) current (readyEnqueue ready pid) sleep timed := by
  have awake : ¬ Asleep state timed pid := by simp [Asleep, elsewhere]
  exact inv.enqueue elsewhere.1 awake (inv.untimed there elsewhere.2.2)

theorem unTime_scheduled (inv : Scheduled s) {pid : Pid n} (waiting : s.state pid = .waitRecv) :
    Scheduled (unTime s pid) ∧ (unTime s pid).recv.timed pid = false := by
  unfold unTime
  by_cases late : s.recv.timed pid = true
  · rw [if_pos late]
    exact ⟨inv.unTime waiting late, by simp⟩
  · rw [if_neg late]
    exact ⟨inv, by simpa using late⟩

omit [NeZero n] in
@[simp] theorem unTime_state (s : Kernel n) (pid : Pid n) : (unTime s pid).state = s.state := by
  unfold unTime
  split <;> rfl

omit [NeZero n] in
@[simp] theorem unTime_current (s : Kernel n) (pid : Pid n) : (unTime s pid).current = s.current := by
  unfold unTime
  split <;> rfl

theorem handed_scheduled (inv : Scheduled s) {pid : Pid n} (waiting : s.state pid = .waitRecv) :
    Sched (update (unTime s pid).state pid .ready) (unTime s pid).current
      (readyEnqueue (unTime s pid).ready pid) (unTime s pid).sleep (unTime s pid).recv.timed := by
  obtain ⟨kept, untimed⟩ := unTime_scheduled inv waiting
  have stands : (unTime s pid).state pid = .waitRecv := by simpa using waiting
  exact kept.enqueue (by simp [stands]) (by simp [Asleep, stands, untimed]) untimed

theorem pulseDeliver_scheduled (inv : Scheduled s) (raw : Int) (origin : Pid n) (type value : U32) :
    Scheduled (pulseDeliver s raw origin type value).1 := by
  unfold pulseDeliver
  split
  · exact inv
  · rename_i dest _
    dsimp only
    split
    · exact inv
    · split
      · rename_i waiting
        exact handed_scheduled inv waiting
      · split
        · exact inv
        · exact inv

theorem msgSend_scheduled (inv : Scheduled s) (running : s.state s.current = .running)
    (idle : s.current ≠ 0) (server : Pid n) (m : Msg n) :
    Scheduled (setState
      (if s.state server = .waitRecv then msgHand (msgOffer s server m) server s.current
        else msgQueue (msgOffer s server m) server s.current) s.current .waitReply) := by
  have offered : Scheduled (msgOffer s server m) := inv
  by_cases waiting : s.state server = .waitRecv
  · rw [if_pos waiting]
    have handed : Scheduled (msgHand (msgOffer s server m) server s.current) :=
      handed_scheduled offered waiting
    have different : s.current ≠ server := by
      intro same
      rw [← same, running] at waiting
      exact absurd waiting (by simp)
    have still : (msgHand (msgOffer s server m) server s.current).state s.current = .running := by
      simpa [msgHand, makeReady, answer, msgOffer, different] using running
    exact handed.rest idle (by simp [still]) (by simp [Asleep, still])
      (handed.untimed (by simp [still]) (by simp [still])) (by simp)
  · rw [if_neg waiting]
    exact inv.rest idle (by simp [running]) (by simp [Asleep, running])
      (inv.untimed (by simp [running]) (by simp [running])) (by simp)

/-- While `pid` is taken apart the lists treat it as free already. -/
def Departing (s : Kernel n) (pid : Pid n) : Prop :=
  Sched (update s.state pid .free) s.current s.ready s.sleep s.recv.timed ∧
    s.state pid ≠ .waitReply

theorem release_departing {pid : Pid n} (inv : Departing s pid) (client : Pid n) :
    Departing (release s client) pid := by
  unfold release
  by_cases stopped : s.state client = .waitReply
  · rw [if_pos stopped]
    have different : client ≠ pid := by
      rintro rfl
      exact inv.2 stopped
    have seen : update s.state pid .free client = .waitReply := by simp [different, stopped]
    refine ⟨?_, ?_⟩
    · have woken := inv.1.wake (show update s.state pid .free client ≠ .ready ∧ _ by simp [seen])
        (by simp [seen])
      rw [update_comm different.symm] at woken
      exact woken
    · simpa [makeReady, answer, different.symm] using inv.2
  · rw [if_neg stopped]
    exact inv

theorem unlinkQueue_departing {pid : Pid n} (fuel : Nat) (head : Option (Pid n))
    (inv : Departing s pid) : Departing (unlinkQueue fuel s head) pid := by
  induction fuel generalizing s head with
  | zero => exact inv
  | succ fuel ih =>
    cases head with
    | none => exact inv
    | some client =>
      have cut : Departing
          { s with mail := { s.mail with next := update s.mail.next client none } } pid := inv
      exact ih _ (release_departing cut client)

theorem unlinkAside_departing {pid : Pid n} (inv : Departing s pid) (i : Pid n) :
    Departing (unlinkAside pid s i) pid := by
  unfold unlinkAside
  split
  · have cleared : Departing (setDest s i none) pid := inv
    exact release_departing cleared i
  · exact inv

theorem unlinkServing_departing {pid : Pid n} (inv : Departing s pid) :
    Departing (unlinkServing s pid) pid := by
  unfold unlinkServing
  split
  · exact inv
  · have cleared : Departing (setServing s pid none) pid := inv
    exact release_departing cleared _

theorem msgUnlinkAll_departing {pid : Pid n} (inv : Departing s pid) :
    Departing (msgUnlinkAll s pid) pid := by
  have emptied : Departing (emptyQueue (unlinkQueue (n + 1) s (s.mail.head pid)) pid) pid :=
    unlinkQueue_departing (n + 1) _ inv
  exact unlinkServing_departing (foldl_invariant (fun s => Departing s pid) emptied
    (fun _ i _ inv => unlinkAside_departing inv i))

omit [NeZero n] in
@[simp] theorem takeOut_state (s : Kernel n) (pid : Pid n) : (takeOut s pid).state = s.state := by
  unfold takeOut
  split <;> rfl

theorem depart_scheduled (inv : Scheduled s) {pid : Pid n} (idle : pid ≠ 0)
    (moving : s.state pid ≠ .waitReply) : Scheduled (depart s pid) := by
  have off : Departing { takeOut s pid with sleep := sleepRemove (takeOut s pid).sleep pid } pid := by
    refine ⟨?_, by simpa using moving⟩
    have died := inv.die idle
    unfold takeOut
    split
    · rename_i queued
      rwa [if_pos queued] at died
    · rename_i unqueued
      rwa [if_neg unqueued] at died
  exact (msgUnlinkAll_departing off).1

theorem begin_scheduled (inv : Scheduled s) {slot : Pid n} (unused : s.state slot = .free)
    (module : Option Module) (mem code : Addr) (parent : Option (Pid n)) (priority : Level) :
    Scheduled (begin s slot module mem code parent priority) := by
  obtain ⟨queue, holds⟩ := inv.queues
  obtain ⟨sleepers, asleep⟩ := inv.sleepers
  have outside : slot ∉ sleepers := by
    intro member
    have here := (asleep.member slot).mp member
    simp [Asleep, unused] at here
  have base : Sched s.state s.current (ReadyQueue.setPriority s.ready slot priority)
      { s.sleep with next := update s.sleep.next slot none } (update s.recv.timed slot false) := by
    refine ⟨⟨queue, ReadyQueue.setPriority_holds holds (by simp [unused]) priority⟩,
      ⟨sleepers, linked_update_outside _ outside asleep.linked, ?_⟩, inv.owner, inv.idle, ?_⟩
    · intro other
      rw [asleep.member]
      by_cases same : other = slot
      · simp [same, Asleep, unused]
      · simp [Asleep, same]
    · intro other there late
      by_cases same : other = slot
      · simp [same] at late
      · exact inv.timed other there (by simpa [same] using late)
  exact base.enqueue (by simp [unused]) (by simp [Asleep, unused]) (by simp)

theorem tickHead_scheduled (inv : Scheduled s) : Scheduled { s with sleep := tickHead s.sleep } := by
  obtain ⟨sleepers, asleep⟩ := inv.sleepers
  exact { inv with sleepers := ⟨sleepers, SleepList.tickHead_holds asleep⟩ }

theorem rouse_scheduled (inv : Scheduled s) {pid : Pid n} (first : s.sleep.head = some pid) :
    Scheduled (rouse s pid) := by
  have roused := inv.rouse first
  unfold rouse timeOut
  split
  · exact roused
  · rename_i untimed
    have same : update s.recv.timed pid false = s.recv.timed := by
      rw [update_eq_self_iff]
      simpa using untimed
    rw [same] at roused
    exact roused

theorem sleepTick_scheduled (inv : Scheduled s) : Scheduled (sleepTick s) :=
  sleepTick_invariant Scheduled (fun _ inv => tickHead_scheduled inv)
    (fun _ _ first _ inv => rouse_scheduled inv first) inv

variable {d : Discipline n} {s' : Kernel n}

theorem move_scheduled (move : Move d s s') (inv : Scheduled s) : Scheduled s' := by
  -- Moves that touch neither state nor queues keep the invariant as it stands.
  cases move with
  | other => exact inv
  | answer => exact inv
  | wake pid blocked =>
    refine inv.wake ?_ ?_
    · rcases blocked with h | h | h <;> simp [h]
    · rcases blocked with h | h | h <;> simp [h]
  | block state running idle why =>
    refine inv.rest idle (by simp [running]) (by simp [Asleep, running])
      (inv.untimed (by simp [running]) (by simp [running])) ?_
    rcases why with h | h | h <;> simp [h]
  | sleepBegin ms positive running idle rule => exact inv.fallAsleep ms idle running
  | sleepTick => exact sleepTick_scheduled inv
  | deliver raw origin type value => exact pulseDeliver_scheduled inv raw origin type value
  | notify pulse event reason dest there rule =>
    have noted : Scheduled (note s event) := inv
    exact pulseDeliver_scheduled noted _ _ _ _
  | unheard pid => exact inv
  | disarm running => exact inv
  | receiveMsg client out running idle first => exact inv
  | receivePulse _ out running idle taken =>
    unfold pulseTake at taken
    split at taken
    · exact absurd taken (by simp)
    · rw [← Option.some.inj taken]
      exact inv
  | receiveBlock out ms positive running idle noMessage noPulse rule short =>
    have waiting : Sched (update s.state s.current .waitRecv) s.current s.ready s.sleep
        s.recv.timed :=
      inv.rest idle (by simp [running]) (by simp [Asleep, running])
        (inv.untimed (by simp [running]) (by simp [running])) (by simp)
    simp only [msgReceiveTmo, noMessage, noPulse, positive, if_false]
    split
    · exact waiting
    · exact waiting.setDeadline ms (by simp)
        (inv.untimed (by simp [running]) (by simp [running]))
  | send server m running idle dest there rule =>
    rw [msgSend_eq dest there]
    exact msgSend_scheduled inv running idle server m
  | reply client value running idle serving stopped =>
    exact inv.wake (by simp [stopped]) (by simp [stopped])
  | replyNobody => exact inv
  | replyTo client value running idle stopped dest rule =>
    have same : Scheduled (stopServing s client) ∧ (stopServing s client).state = s.state := by
      unfold stopServing
      split
      · exact ⟨inv, rfl⟩
      · exact ⟨inv, rfl⟩
    exact same.1.wake (by simp [same.2, stopped]) (by simp [same.2, stopped])
  | depart pid idle there moving whole rule => exact depart_scheduled inv idle moving
  | replyZombie client running idle serving killed rule =>
    have kept : Scheduled (setServing s s.current none) := inv
    refine depart_scheduled kept ?_ (by simp [setServing, killed])
    rintro rfl
    rcases inv.idle with h | h <;> simp [h] at killed
  | replyToZombie client running idle dest killed rule ends =>
    have same : Scheduled (stopServing s client) ∧ (stopServing s client).state = s.state := by
      unfold stopServing
      split
      · exact ⟨inv, rfl⟩
      · exact ⟨inv, rfl⟩
    exact depart_scheduled same.1 dest (by simp [same.2, killed])
  | killWaiting pid stopped =>
    obtain ⟨sleepers, asleep⟩ := inv.sleepers
    have awake : ¬ Asleep s.state s.recv.timed pid := by simp [Asleep, stopped]
    have idle : pid ≠ 0 := by
      rintro rfl
      rcases inv.idle with h | h <;> simp [h] at stopped
    have kept : SleepList.sleepRemove s.sleep pid = s.sleep :=
      SleepList.sleepRemove_awake asleep awake
    simp only [setState, kept]
    exact inv.rest idle (by simp [stopped]) awake
      (inv.untimed (by simp [stopped]) (by simp [stopped])) (by simp)
  | begin slot module mem code parent priority idle unused =>
    exact begin_scheduled inv unused module mem code parent priority
  | setPrio level running idle =>
    obtain ⟨queue, holds⟩ := inv.queues
    exact { inv with
      queues := ⟨queue, ReadyQueue.setPriority_holds holds (by simp [running]) level⟩ }

theorem yield_scheduled (inv : Scheduled s) : Scheduled (yield s) := by
  unfold yield
  split
  · rename_i running
    exact inv.wake (by simp [running]) (by simp [running])
  · exact inv

omit [NeZero n] in
theorem yield_unowned (s : Kernel n) : (yield s).state (yield s).current ≠ .running := by
  unfold yield
  split
  · simp [makeReady]
  · assumption

theorem yield_ready (inv : Scheduled s) : Scheduled (yield s) ∧ (yield s).state 0 = .ready := by
  have kept := yield_scheduled inv
  refine ⟨kept, kept.idle.resolve_right ?_⟩
  intro running
  have current := kept.owner 0 running
  exact yield_unowned s (by rwa [← current])

theorem switch_spec (inv : Scheduled s) : ∃ next rest, (yield s).state next = .ready ∧
    switch s = { s with ready := rest, current := next,
                        state := update (yield s).state next .running } ∧
    Scheduled (switch s) ∧ (switch s).state (switch s).current = .running := by
  obtain ⟨kept, zeroReady⟩ := yield_ready inv
  obtain ⟨queue, holds⟩ := kept.queues
  obtain ⟨_, next, rest, taken, isReady, _⟩ := ReadyQueue.readyTakeHighest_holds holds zeroReady
  have dispatched := (kept.dispatch (yield_unowned s) taken).2
  have chosen : switch s =
      { yield s with
        ready := rest
        current := next
        state := update (yield s).state next .running } := by simp only [switch, taken]
  refine ⟨next, rest, isReady, ?_, ?_, ?_⟩
  · rw [chosen]
    unfold yield
    split <;> rfl
  · rw [chosen]
    exact dispatched
  · rw [chosen]
    simp

def Runnable (state : ProcState) : Prop := state = .ready ∨ state = .running

theorem switch_frame (inv : Scheduled s) : ∃ state ready current,
    switch s = { s with state := state, ready := ready, current := current } ∧
    ∀ pid, state pid = s.state pid ∨ (Runnable (s.state pid) ∧ Runnable (state pid)) := by
  obtain ⟨next, rest, isReady, chosen, _⟩ := switch_spec inv
  refine ⟨_, _, _, chosen, ?_⟩
  have yielded : ∀ pid, (yield s).state pid = s.state pid ∨
      (Runnable (s.state pid) ∧ Runnable ((yield s).state pid)) := by
    intro pid
    unfold yield
    split
    · rename_i running
      by_cases same : pid = s.current
      · subst same
        exact Or.inr ⟨Or.inr running, Or.inl (by simp [makeReady])⟩
      · exact Or.inl (by simp [makeReady, same])
    · exact Or.inl rfl
  intro pid
  by_cases same : pid = next
  · subst same
    refine Or.inr ⟨?_, Or.inr (by simp)⟩
    rcases yielded pid with kept | ⟨was, _⟩
    · rw [← kept]
      exact Or.inl isReady
    · exact was
  · rw [update_of_ne same]
    exact yielded pid

end Ubiqos
