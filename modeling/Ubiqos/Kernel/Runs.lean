import Ubiqos.Kernel.Sched

/-!
Whole runs. A trap that does not go on to `ubiqos_switch` returns to the process
it came from, which is still the running one; a trap that does finds somebody to
run. So between traps there is always exactly one running process, and every
run is a sequence of moves.
-/

namespace Ubiqos

open Function Machine
open ReadyQueue (Ready readyEnqueue readyRemove readyTakeHighest since)

variable {n : Nat} [NeZero n]

def Settled (s : Kernel n) : Prop := Scheduled s ∧ s.state s.current = .running

def Runs (s : Kernel n) (pid : Pid n) : Prop := s.current = pid ∧ s.state pid = .running

section Returning
variable {s : Kernel n} {pid : Pid n}

omit [NeZero n] in
theorem makeReady_runs (runs : Runs s pid) {other : Pid n} (stopped : s.state other ≠ .running) :
    Runs (makeReady s other) pid := by
  have away : pid ≠ other := by
    rintro rfl
    exact stopped runs.2
  exact ⟨runs.1, by simpa [makeReady, away] using runs.2⟩

omit [NeZero n] in
theorem release_runs (runs : Runs s pid) (client : Pid n) : Runs (release s client) pid := by
  unfold release
  split
  · rename_i stopped
    have answered : Runs (answer s client failed) pid := runs
    exact makeReady_runs answered (by simp [answer, stopped])
  · exact runs

omit [NeZero n] in
theorem unlinkQueue_runs (fuel : Nat) (head : Option (Pid n)) (runs : Runs s pid) :
    Runs (unlinkQueue fuel s head) pid := by
  induction fuel generalizing s head with
  | zero => exact runs
  | succ fuel ih =>
    cases head with
    | none => exact runs
    | some client =>
      have cut : Runs
          { s with mail := { s.mail with next := update s.mail.next client none } } pid := runs
      exact ih _ (release_runs cut client)

theorem msgUnlinkAll_runs (runs : Runs s pid) (gone : Pid n) : Runs (msgUnlinkAll s gone) pid := by
  have emptied : Runs (emptyQueue (unlinkQueue (n + 1) s (s.mail.head gone)) gone) pid :=
    unlinkQueue_runs (n + 1) _ runs
  have turn : ∀ s, ∀ i ∈ slots n, Runs s pid → Runs (unlinkAside gone s i) pid := by
    intro s i _ runs
    unfold unlinkAside
    split
    · exact release_runs (s := setDest s i none) runs i
    · exact runs
  have aside := foldl_invariant (fun s => Runs s pid) emptied turn
  unfold msgUnlinkAll
  dsimp only
  unfold unlinkServing
  split
  · exact aside
  · exact release_runs (s := setServing _ gone none) aside _

omit [NeZero n] in
theorem wakeWaiters_runs (runs : Runs s pid) (gone : Pid n) : Runs (wakeWaiters s gone) pid := by
  refine foldl_invariant (fun s => Runs s pid) runs ?_
  intro s i _ runs
  unfold wakeWaiter
  split
  · rename_i waiting
    exact makeReady_runs runs (by simp [waiting.1])
  · exact runs

omit [NeZero n] in
theorem pulseDeliver_runs (runs : Runs s pid) (raw : Int) (origin : Pid n) (type value : U32) :
    Runs (pulseDeliver s raw origin type value).1 pid := by
  unfold pulseDeliver
  split
  · exact runs
  · rename_i dest _
    dsimp only
    split
    · exact runs
    · split
      · rename_i waiting
        have away : pid ≠ dest := by
          rintro rfl
          rw [runs.2] at waiting
          exact absurd waiting (by simp)
        refine ⟨?_, ?_⟩
        · simpa [pulseHand, makeReady, answer, note, pulseInto] using runs.1
        · simpa [pulseHand, makeReady, answer, note, pulseInto, away] using runs.2
      · split <;> exact runs

theorem killNow_runs (runs : Runs s pid) {gone : Pid n} (away : gone ≠ pid) :
    Runs (killNow s gone) pid := by
  have out : Runs (takeOut s gone) pid := by
    unfold takeOut
    split <;> exact runs
  have unlinked := msgUnlinkAll_runs (s := { takeOut s gone with
    sleep := SleepList.sleepRemove (takeOut s gone).sleep gone }) out gone
  have departed : Runs (depart s gone) pid :=
    ⟨unlinked.1, by simpa [depart, setState, away.symm] using unlinked.2⟩
  have undoneRuns : Runs (undone s gone) pid :=
    wakeWaiters_runs (s := handBack (armsDropFor (leave s gone) gone) gone) departed gone
  rw [killNow_eq]
  unfold tellParent
  dsimp only
  split
  · exact undoneRuns
  · exact pulseDeliver_runs (s := note (noParent (undone s gone) gone) _) undoneRuns _ _ _ _

theorem reap_runs (runs : Runs s pid) {gone : Pid n} (away : gone ≠ pid)
    (unqueued : s.state gone ≠ .ready) : Runs (reap s gone) pid := by
  have killed := killNow_runs runs away
  rwa [killNow, if_neg unqueued] at killed

theorem processKill_runs (runs : Runs s pid) (raw : Int)
    (other : raw ≠ (pid : Nat) ∨ s.life.module pid = none) : Runs (processKill s raw).1 pid := by
  unfold processKill
  split
  · exact runs
  · rename_i victim found
    split
    · exact runs
    · rename_i refused
      have away : victim ≠ pid := by
        rintro rfl
        rcases other with different | thread
        · exact different (pidOf_some found).1
        · exact refused (Or.inr (Or.inr thread))
      have marked : Runs (setEndReason s victim endKilled) pid := runs
      dsimp only
      split
      · refine wakeWaiters_runs ?_ victim
        exact ⟨marked.1, by simpa [setState, away.symm] using marked.2⟩
      · exact killNow_runs marked away

theorem intrRequest_runs (runs : Runs s pid) (raw : Int) : Runs (intrRequest s raw).1 pid := by
  unfold intrRequest
  split
  · exact runs
  · split
    · exact runs
    · exact pulseDeliver_runs (s := Ubiqos.setDeadline s _ _) runs _ _ _ _

theorem interruptNow_runs (runs : Runs s pid) (raw : Int)
    (other : (intrRequest s raw).2 = false → raw ≠ (pid : Nat) ∨ s.life.module pid = none) :
    Runs (interruptNow s raw).1 pid := by
  have asked := intrRequest_runs runs raw
  unfold interruptNow
  split
  · rename_i s' told
    rwa [told] at asked
  · rename_i s' refused
    have spared := other (by rw [refused])
    have same : s' = s := by
      unfold intrRequest at refused
      split at refused
      · exact (Prod.mk.inj refused).1.symm
      · split at refused
        · exact (Prod.mk.inj refused).1.symm
        · exact absurd (Prod.mk.inj refused).2 (by simp)
    subst same
    exact processKill_runs runs raw spared

theorem createProcess_runs (runs : Runs s pid) (module : Module) (parent : Int)
    (mem code : Option Addr) : Runs (createProcess s module parent mem code).1 pid := by
  unfold createProcess
  split
  · exact runs
  · split
    · exact runs
    · exact runs
    · rename_i slot mem found
      have unused := (freeSlot_some found).2
      have begun : ∀ (code : Addr) (owner : Option (Pid n)) (priority : Level),
          Runs (begin s slot (some module) mem code owner priority) pid := by
        intro code owner priority
        have away : pid ≠ slot := by
          rintro rfl
          rw [runs.2] at unused
          exact absurd unused (by simp)
        exact ⟨runs.1, by simpa [begin, makeReady, note, away] using runs.2⟩
      dsimp only
      split
      · split
        · exact runs
        · exact begun _ _ _
      · exact begun _ _ _

end Returning

section Steps
variable {s : Kernel n}

omit [NeZero n] in
theorem answer_runs {pid : Pid n} (runs : Runs s pid) (other : Pid n) (value : U32) :
    Runs (answer s other value) pid := runs

omit [NeZero n] in
theorem makeReady_reply_runs {pid client : Pid n} (runs : Runs s pid) {s' : Kernel n}
    (same : s'.state = s.state ∧ s'.current = s.current) (stopped : s.state client = .waitReply)
    (value : U32) : Runs (makeReady (answer s' client value) client) pid := by
  have moved : Runs (answer s' client value) pid := ⟨same.2.trans runs.1, by
    simpa [answer, same.1] using runs.2⟩
  exact makeReady_runs moved (by simp [answer, same.1, stopped])

omit [NeZero n] in
theorem stopServing_frame (s : Kernel n) (pid : Pid n) :
    (stopServing s pid).state = s.state ∧ (stopServing s pid).current = s.current := by
  unfold stopServing
  split <;> exact ⟨rfl, rfl⟩

theorem msgReply_runs {pid : Pid n} (runs : Runs s pid) (value : U32) :
    Runs (msgReply s value).1 pid := by
  unfold msgReply
  dsimp only
  split
  · exact runs
  · rename_i client _
    have served : Runs (setServing s s.current none) pid := runs
    split
    · rename_i killed
      have away : client ≠ pid := by
        rintro rfl
        rw [served.2] at killed
        exact absurd killed (by simp)
      exact reap_runs served away (by simp [killed])
    · split
      · rename_i stopped
        exact makeReady_reply_runs served ⟨rfl, rfl⟩ stopped value
      · exact served

theorem msgReplyTo_runs {pid : Pid n} (runs : Runs s pid) (raw : Int) (value : U32) :
    Runs (msgReplyTo s raw value).1 pid := by
  unfold msgReplyTo
  split
  · exact runs
  · rename_i client _
    have frame := stopServing_frame s client
    have served : Runs (stopServing s client) pid :=
      ⟨frame.2.trans runs.1, by rw [frame.1]; exact runs.2⟩
    split
    · rename_i killed
      have away : client ≠ pid := by
        rintro rfl
        rw [runs.2] at killed
        exact absurd killed (by simp)
      exact reap_runs served away (by simp [frame.1, killed])
    · split
      · exact runs
      · rename_i stopped
        split
        · exact runs
        · exact makeReady_reply_runs served ⟨rfl, rfl⟩ (by simpa [frame.1] using stopped) value

omit [NeZero n] in
theorem received_runs {pid : Pid n} (runs : Runs s pid) (out : Addr) (ms : U32)
    (returned : (received (msgReceiveTmo s out ms)).2 = false) :
    Runs (received (msgReceiveTmo s out ms)).1 pid := by
  unfold msgReceiveTmo at returned ⊢
  dsimp only at returned ⊢
  split at returned
  · exact runs
  · split at returned
    · rename_i taken
      unfold pulseTake at taken
      split at taken
      · exact absurd taken (by simp)
      · have same := Option.some.inj taken
        simp only [← same]
        exact runs
    · split at returned
      · rename_i poll
        simp only [poll, if_true]
        exact runs
      · split at returned <;> exact absurd returned (by simp [received])

theorem armRead_runs {pid : Pid n} (runs : Runs s pid) (path : Int) (type : U32) :
    Runs (armRead s path type).1 pid := by
  unfold armRead
  split
  · split <;> exact runs
  · split
    · exact runs
    · split <;> exact runs

omit [NeZero n] in
theorem blockOnChild_runs {pid : Pid n} (runs : Runs s pid) (child : Int)
    (returned : (blockOnChild s child).2 = false) : Runs (blockOnChild s child).1 pid := by
  unfold blockOnChild at returned ⊢
  split
  · exact runs
  · rename_i found
    simp only [found] at returned
    split
    · exact runs
    · rename_i there
      rw [if_neg there] at returned
      exact absurd returned (by simp)

theorem setPriority_runs {pid : Pid n} (runs : Runs s pid) (prio : U32) :
    Runs (setPriority s prio).1 pid := by
  unfold setPriority
  split
  · exact runs
  · dsimp only
    split <;> exact runs

theorem intrCatch_runs {pid : Pid n} (runs : Runs s pid) (type : U32) :
    Runs (intrCatch s type).1 pid := by
  unfold intrCatch
  split <;> exact runs

theorem memAlloc_runs {pid : Pid n} (runs : Runs s pid) (size : U32) (block : Option Addr) :
    Runs (memAlloc s size block).1 pid := by
  unfold memAlloc
  split
  · exact runs
  · split <;> exact runs

omit [NeZero n] in
theorem memFree_runs {pid : Pid n} (runs : Runs s pid) (pointer : Addr) :
    Runs (memFree s pointer).1 pid := by
  unfold memFree
  split
  · exact runs
  · dsimp only
    split <;> exact runs

omit [NeZero n] in
theorem msgSend_refused (dest : Int) (m : Option (Msg n)) :
    (msgSend s dest m).2 = false → (msgSend s dest m).1 = s := by
  unfold msgSend
  split
  · split <;> simp
  · simp

theorem syscall_runs {pid : Pid n} (runs : Runs s pid) (call : Call n)
    (returned : (syscall s call).2 = false) : Runs (syscall s call).1 pid := by
  have here := runs.1
  -- A call that returns leaves its caller running; the others contradict `returned`.
  cases call with
  | send dest m =>
    have unchanged := msgSend_refused (s := s) dest m
    simp only [syscall] at returned ⊢
    cases outcome : msgSend s dest m with
    | mk s' sent =>
      rw [outcome] at unchanged
      cases sent with
      | true => simp [outcome] at returned
      | false =>
        have same : s' = s := unchanged rfl
        rw [same]
        exact runs
  | receive out => exact received_runs runs out _ returned
  | receiveTmo out ms => exact received_runs runs out ms returned
  | reply value => exact msgReply_runs runs value
  | replyTo pid value => exact msgReplyTo_runs runs pid value
  | pulse dest type value => exact pulseDeliver_runs runs dest _ type value
  | arm path type => exact armRead_runs runs path type
  | disarm => exact runs
  | sleep ms =>
    simp only [syscall] at returned
    split at returned <;> exact absurd returned (by simp)
  | wait child =>
    simp only [syscall] at returned ⊢
    exact blockOnChild_runs runs child returned
  | readBlocks path => exact absurd returned (by simp [syscall])
  | writeBlocks path => exact absurd returned (by simp [syscall])
  | setPrio prio => exact setPriority_runs runs prio
  | childPulse type => exact runs
  | catchIntr type => exact intrCatch_runs runs type
  | kill victim outright =>
    simp only [syscall] at returned ⊢
    split
    · rename_i self
      rw [if_pos self] at returned
      exact absurd returned (by simp)
    · rename_i other
      rw [here] at other
      split
      · exact answer_runs (processKill_runs runs victim (Or.inl other)) _ _
      · exact answer_runs (interruptNow_runs runs victim (fun _ => Or.inl other)) _ _
  | interrupt victim =>
    simp only [syscall] at returned ⊢
    split
    · exact runs
    · rename_i other
      refine interruptNow_runs runs victim ?_
      intro refused
      rw [endsCaller, here] at other
      by_cases same : victim = (pid : Nat)
      · exact Or.inr (by simpa [same, same ▸ refused] using other)
      · exact Or.inl same
  | alloc size block => exact memAlloc_runs runs size block
  | free pointer => exact memFree_runs runs pointer
  | exit => exact absurd returned (by simp [syscall])
  | fault =>
    simp only [syscall] at returned ⊢
    split
    · rename_i module
      rw [if_pos module] at returned
      exact absurd returned (by simp)
    · exact runs
  | create module parent mem code => exact runs
  | kernelThread mem priority => exact runs
  | tick readable writable => exact runs

theorem trap_runs {pid : Pid n} (runs : Runs s pid) (call : Call n)
    (returned : (trap s call).2 = false) : Runs (trap s call).1 pid := by
  cases call with
  | create module parent mem code =>
    have created := createProcess_runs runs module parent mem code
    simp only [trap, processCreateFor]
    split
    · rename_i outcome
      rwa [outcome] at created
    · rename_i outcome
      rw [outcome] at created
      exact created
  | kernelThread mem priority =>
    simp only [trap, kernelThread]
    split
    · rename_i slot mem found
      have unused := (freeSlot_some found).2
      have away : pid ≠ slot := by
        rintro rfl
        rw [runs.2] at unused
        exact absurd unused (by simp)
      exact ⟨runs.1, by simpa [begin, makeReady, note, away] using runs.2⟩
    · exact runs
  | tick readable writable => exact absurd returned (by simp [trap])
  | _ =>
    simp only [trap] at returned ⊢
    split
    · exact runs
    · rename_i idle
      rw [if_neg idle] at returned
      exact syscall_runs runs _ returned

theorem switch_settled (inv : Scheduled s) : Settled (switch s) := by
  obtain ⟨_, _, _, _, kept, running⟩ := switch_spec inv
  exact ⟨kept, running⟩

theorem trap_scheduled (settled : Settled s) (call : Call n) : Scheduled (trap s call).1 :=
  moves_invariant Scheduled (fun _ _ => move_scheduled)
    (trap_moves (d := Discipline.none n) settled.2 call (meets_none s call)) settled.1

theorem step_settled (settled : Settled s) (call : Call n) : Settled (step s call) := by
  have trapped := trap_scheduled settled call
  have returned := trap_runs ⟨rfl, settled.2⟩ call
  unfold step
  split
  · rename_i s' outcome
    rw [outcome] at trapped
    exact switch_settled trapped
  · rename_i s' outcome
    rw [outcome] at trapped returned
    have runs := returned rfl
    exact ⟨trapped, by rw [runs.1]; exact runs.2⟩

end Steps

theorem init_settled : Settled (schedulerInit n) := by
  have unready : ∀ pid : Pid n, (schedulerInit n).state pid ≠ .ready := by
    intro pid
    by_cases zero : pid = 0 <;> simp [schedulerInit, zero]
  refine ⟨⟨⟨fun _ => [], ?_⟩, ⟨[], ?_⟩, ?_, ?_, ?_⟩, by simp [schedulerInit]⟩
  · refine ⟨fun _ => rfl, fun p nonempty => absurd rfl nonempty, ?_, ?_, fun _ => .nil⟩
    · intro p pid
      simp [unready pid]
    · intro p
      simp [schedulerInit]
  · refine ⟨rfl, ?_⟩
    intro pid
    by_cases zero : pid = 0 <;> simp [Asleep, schedulerInit, zero]
  · intro pid running
    by_contra other
    have nonzero : pid ≠ 0 := other
    simp [schedulerInit, nonzero] at running
  · simp [schedulerInit]
  · intro pid _ late
    simp [schedulerInit] at late

theorem run_settled (calls : List (Call n)) : Settled (run calls) :=
  foldl_invariant Settled init_settled (fun _ call _ settled => step_settled settled call)

theorem step_invariant {d : Discipline n} (inv : Kernel n → Prop)
    (moves : ∀ s s', Move d s s' → Scheduled s → inv s → inv s')
    (switches : ∀ s, Scheduled s → inv s → inv (switch s)) {s : Kernel n} (settled : Settled s)
    (call : Call n) (rule : meets d s call = true) (holds : inv s) :
    inv (trap s call).1 ∧ inv (step s call) := by
  have both : Scheduled (trap s call).1 ∧ inv (trap s call).1 := by
    refine moves_invariant (fun s => Scheduled s ∧ inv s) ?_ (trap_moves settled.2 call rule)
      ⟨settled.1, holds⟩
    intro s s' move ⟨scheduled, holds⟩
    exact ⟨move_scheduled move scheduled, moves s s' move scheduled holds⟩
  refine ⟨both.2, ?_⟩
  unfold step
  split
  · rename_i s' outcome
    rw [outcome] at both
    exact switches s' both.1 both.2
  · rename_i s' outcome
    rw [outcome] at both
    exact both.2

theorem run_invariant {d : Discipline n} (inv : Kernel n → Prop) (start : inv (schedulerInit n))
    (moves : ∀ s s', Move d s s' → Scheduled s → inv s → inv s')
    (switches : ∀ s, Scheduled s → inv s → inv (switch s)) {calls : List (Call n)}
    (follows : Follows d calls) : inv (run calls) := by
  have both : Settled (run calls) ∧ inv (run calls) := by
    refine along_invariant (fun s => Settled s ∧ inv s) follows ⟨init_settled, start⟩ ?_
    intro s call _ rule ⟨settled, holds⟩
    exact ⟨step_settled settled call,
      (step_invariant inv moves switches settled call rule holds).2⟩
  exact both.2

end Ubiqos
