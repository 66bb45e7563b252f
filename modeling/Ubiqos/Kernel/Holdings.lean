import Ubiqos.Kernel.Mailboxes

/-!
What the kernel keeps for each process and who refers to it by number: the
module and the memory it was given, its parent, the watches in its name, those
that wait for its end, and what has been said of the ends so far. A trap either
takes processes apart or is one of the five calls that hand something out, take
one thing back or ask to be told; `trap_endings` and the lemmas after it say
which of these columns each of them moves.
-/

namespace Ubiqos

open Function Machine
open SleepList (sleepRemove tickHead takeFirst)

structure Holdings (n : Nat) where
  live : Pid n → Bool
  module : Pid n → Option Module
  memBase : Pid n → Addr
  codeBase : Pid n → Addr
  allocs : Pid n → List Addr
  parent : Pid n → Option (Pid n)
  asks : Pid n → U32
  reason : Pid n → U32
  watch : Fin 8 → Pid n
  awaits : Pid n → Option Int
  outside : List (Outside n)
  reports : List (Pid n × Option (Pulse n))

variable {n : Nat}

def reports (log : List (PulseEvent n)) : List (Pid n × Option (Pulse n)) :=
  log.filterMap fun event => match event with
    | .reaped pid told => some (pid, told)
    | _ => none

/-- `wait_pid` is read only while its process is stopped on it. -/
def awaited (state : ProcState) (raw : Int) : Option Int :=
  if state = .waitChild then some raw else none

def holdings (s : Kernel n) : Holdings n where
  live := fun pid => s.state pid ≠ .free
  module := s.life.module
  memBase := s.life.memBase
  codeBase := s.life.codeBase
  allocs := s.life.allocs
  parent := s.life.parent
  asks := s.life.childPulse
  reason := s.life.endReason
  watch := fun i => (s.arms i).pid
  awaits := fun pid => awaited (s.state pid) (s.wait.pid pid)
  outside := s.life.outside
  reports := reports s.pulses.log

namespace Holdings

/-- The calls `reap` makes for a process, in its order. -/
def departure (h : Holdings n) (pid : Pid n) : List (Outside n) :=
  [.ioCloseAll pid, .wifiForgetPid pid] ++ (h.module pid).toList.map .moddirUnlink ++
    (h.allocs pid).map .tlsfFree ++ [.tlsfFree (h.memBase pid)] ++
    if h.codeBase pid = 0 then [] else [.tlsfFree (h.codeBase pid)]

def wake (h : Holdings n) (pid : Pid n) : Holdings n :=
  { h with awaits := fun i => if h.awaits i = some ((pid : Nat) : Int) then none else h.awaits i }

def endPulse (h : Holdings n) [NeZero n] (pid parent : Pid n) : Pulse n :=
  ⟨parent, 0, h.asks parent, h.reason pid <<< 16 ||| (pid.word &&& 0xffff)⟩

/-- What its parent is told of the end of `pid`. -/
def report (h : Holdings n) [NeZero n] (pid : Pid n) : Option (Pulse n) :=
  match h.parent pid with
  | none => none
  | some parent =>
    if parent ≠ 0 ∧ parent ≠ pid ∧ h.live parent = true ∧ h.asks parent ≠ 0 then
      some (h.endPulse pid parent)
    else none

def mark (h : Holdings n) (pid : Pid n) (reason : U32) : Holdings n :=
  { h with reason := update h.reason pid reason }

def ask (h : Holdings n) (pid : Pid n) (type : U32) : Holdings n :=
  { h with asks := update h.asks pid type }

def release [NeZero n] (h : Holdings n) (pid : Pid n) : Holdings n :=
  { h with
    live := update h.live pid false
    memBase := update h.memBase pid 0
    codeBase := update h.codeBase pid 0
    allocs := update h.allocs pid []
    parent := update (fun i => if i ≠ 0 ∧ h.parent i = some pid then none else h.parent i) pid none
    watch := fun i => if h.watch i = pid then 0 else h.watch i
    awaits := fun i =>
      if i = pid ∨ h.awaits i = some ((pid : Nat) : Int) then none else h.awaits i
    outside := (h.departure pid).reverse ++ h.outside
    reports := (pid, h.report pid) :: h.reports }

def grow (h : Holdings n) (pid : Pid n) (header : Addr) : Holdings n :=
  { h with allocs := update h.allocs pid (header :: h.allocs pid) }

def shrink (h : Holdings n) (pid : Pid n) (header : Addr) : Holdings n :=
  { h with
    allocs := update h.allocs pid ((h.allocs pid).erase header)
    outside := .tlsfFree header :: h.outside }

def refuse (h : Holdings n) (module : Module) (blocks : List Addr) : Holdings n :=
  { h with outside := .moddirUnlink module :: (blocks.map .tlsfFree ++ h.outside) }

def start (h : Holdings n) (slot : Pid n) (module : Option Module) (mem code : Addr)
    (parent : Option (Pid n)) : Holdings n :=
  { h with
    live := update h.live slot true
    module := update h.module slot module
    memBase := update h.memBase slot mem
    codeBase := update h.codeBase slot code
    allocs := update h.allocs slot []
    parent := update h.parent slot parent
    asks := update h.asks slot 0
    reason := update h.reason slot endExited }

end Holdings

def Plain (state : ProcState) : Prop := state ≠ .free ∧ state ≠ .waitChild

section Same
variable {s t : Kernel n}

theorem holdings_congr (life : holdings { s with life := t.life } = holdings s)
    (told : reports t.pulses.log = reports s.pulses.log) (arms : ∀ i, (t.arms i).pid = (s.arms i).pid)
    (wait : t.wait.pid = s.wait.pid)
    (state : ∀ p, t.state p = s.state p ∨ (Plain (s.state p) ∧ Plain (t.state p))) :
    holdings t = holdings s := by
  have live : (holdings t).live = (holdings s).live := by
    funext p
    rcases state p with same | ⟨before, after⟩
    · simp [holdings, same]
    · simp [holdings, before.1, after.1]
  have awaits : (holdings t).awaits = (holdings s).awaits := by
    funext p
    rcases state p with same | ⟨before, after⟩
    · simp [holdings, same, wait]
    · simp [holdings, awaited, before.2, after.2]
  have watch : (holdings t).watch = (holdings s).watch := funext arms
  rw [← life]
  unfold holdings at live awaits watch ⊢
  simp only at live awaits watch
  rw [live, awaits, watch, told]

variable {pid : Pid n}

theorem setState_plain {now : ProcState} (before : Plain (s.state pid))
    (after : Plain now) (p : Pid n) :
    update s.state pid now p = s.state p ∨
      (Plain (s.state p) ∧ Plain (update s.state pid now p)) := by
  by_cases same : p = pid
  · subst same
    exact Or.inr ⟨before, by simpa using after⟩
  · exact Or.inl (update_of_ne same _ _)

theorem setState_holdings {now : ProcState} (before : Plain (s.state pid))
    (after : Plain now) : holdings (setState s pid now) = holdings s :=
  holdings_congr rfl rfl (fun _ => rfl) rfl (setState_plain before after)

theorem makeReady_holdings (before : Plain (s.state pid)) :
    holdings (makeReady s pid) = holdings s :=
  holdings_congr rfl rfl (fun _ => rfl) rfl (setState_plain before (by simp [Plain]))

theorem unTime_frame (s : Kernel n) (pid : Pid n) :
    (unTime s pid).state = s.state ∧ (unTime s pid).life = s.life ∧
      (unTime s pid).arms = s.arms ∧ (unTime s pid).wait = s.wait := by
  unfold unTime
  split <;> exact ⟨rfl, rfl, rfl, rfl⟩

theorem pulseDeliver_holdings (s : Kernel n) (raw : Int) (origin : Pid n) (type value : U32) :
    holdings (pulseDeliver s raw origin type value).1 = holdings s := by
  unfold pulseDeliver
  split
  · rfl
  · rename_i dest _
    dsimp only
    split
    · rfl
    · split
      · rename_i waits
        obtain ⟨state, life, arms, wait⟩ := unTime_frame s dest
        apply holdings_congr
        · simp [pulseHand, makeReady, answer, note, pulseInto, life]
        · simp [pulseHand, makeReady, answer, note, pulseInto, reports]
        · simp [pulseHand, makeReady, answer, note, pulseInto, arms]
        · simp [pulseHand, makeReady, answer, note, pulseInto, wait]
        · simpa [pulseHand, makeReady, answer, note, pulseInto, state] using
            setState_plain (s := s) (by simp [Plain, waits]) (by simp [Plain] : Plain .ready)
      · split <;> rfl

end Same

section Waking
variable (s : Kernel n)

theorem wakeWaiter_holdings (pid i : Pid n) :
    holdings (wakeWaiter pid s i) =
      { holdings s with
        awaits := fun j =>
          if j = i ∧ (holdings s).awaits j = some ((pid : Nat) : Int) then none
          else (holdings s).awaits j } := by
  have asked : (s.state i = .waitChild ∧ s.wait.pid i = (pid : Nat)) ↔
      (holdings s).awaits i = some ((pid : Nat) : Int) := by
    simp [holdings, awaited]
  unfold wakeWaiter
  split
  · rename_i waiting
    have hit := asked.mp waiting
    unfold holdings at hit ⊢
    simp only [makeReady, Holdings.mk.injEq, true_and, and_true]
    constructor
    · funext j
      by_cases same : j = i
      · subst same
        simp [waiting.1]
      · simp [same]
    · funext j
      by_cases same : j = i
      · subst same
        rw [if_pos ⟨rfl, hit⟩]
        simp [awaited]
      · simp [same]
  · rename_i elsewhere
    have miss := fun hit => elsewhere (asked.mpr hit)
    have same : (fun j => if j = i ∧ (holdings s).awaits j = some ((pid : Nat) : Int) then none
        else (holdings s).awaits j) = (holdings s).awaits := by
      funext j
      rw [if_neg]
      rintro ⟨rfl, hit⟩
      exact miss hit
    rw [same]

theorem wakeWaiters_visit (pid : Pid n) (visited : List (Pid n)) (s : Kernel n) :
    holdings (visited.foldl (wakeWaiter pid) s) =
      { holdings s with
        awaits := fun j =>
          if j ∈ visited ∧ (holdings s).awaits j = some ((pid : Nat) : Int) then none
          else (holdings s).awaits j } := by
  induction visited generalizing s with
  | nil => simp
  | cons i rest ih =>
    rw [List.foldl_cons, ih, wakeWaiter_holdings]
    simp only [Holdings.mk.injEq, true_and, and_true]
    funext j
    by_cases hit : (holdings s).awaits j = some ((pid : Nat) : Int)
    · by_cases here : j = i
      · simp [here]
      · simp [here, hit]
    · simp [hit]

theorem wakeWaiters_holdings (pid : Pid n) :
    holdings (wakeWaiters s pid) = (holdings s).wake pid := by
  unfold wakeWaiters
  rw [wakeWaiters_visit]
  simp [Holdings.wake]

end Waking

variable [NeZero n]

section Quiet
variable {s : Kernel n}

theorem sleepTick_holdings (sched : Scheduled s) : holdings (sleepTick s) = holdings s := by
  have both : Scheduled (sleepTick s) ∧ holdings (sleepTick s) = holdings s := by
    refine sleepTick_invariant (fun t => Scheduled t ∧ holdings t = holdings s) ?_ ?_ ⟨sched, rfl⟩
    · rintro t ⟨sched, same⟩
      exact ⟨tickHead_scheduled sched, same⟩
    · rintro t pid first _ ⟨sched, same⟩
      refine ⟨rouse_scheduled sched first, ?_⟩
      have plain : Plain (t.state pid) := by
        rcases sched.first_asleep first with asleep | ⟨waiting, _⟩
        · simp [Plain, asleep]
        · simp [Plain, waiting]
      have late : (timeOut { t with sleep := takeFirst t.sleep pid } pid).state = t.state ∧
          holdings (timeOut { t with sleep := takeFirst t.sleep pid } pid) = holdings t := by
        unfold timeOut
        split <;> exact ⟨rfl, rfl⟩
      rw [rouse, makeReady_holdings (by rw [late.1]; exact plain), late.2, same]
  exact both.2

theorem switch_holdings (sched : Scheduled s) : holdings (switch s) = holdings s := by
  obtain ⟨state, ready, current, frame, moved⟩ := switch_frame sched
  have plain : ∀ {now : ProcState}, Runnable now → Plain now := by
    rintro now (rfl | rfl) <;> simp [Plain]
  rw [frame]
  refine holdings_congr (s := s) rfl rfl (fun _ => rfl) rfl ?_
  intro p
  rcases moved p with same | ⟨before, after⟩
  · exact Or.inl same
  · exact Or.inr ⟨plain before, plain after⟩

omit [NeZero n] in
theorem wakeReader_holdings (readable writable : Int → Pid n → Bool) (s : Kernel n) (i : Pid n) :
    holdings (wakeReader readable writable s i) = holdings s := by
  unfold wakeReader
  split
  · rename_i waits
    split
    · exact makeReady_holdings (by simp [Plain, waits])
    · rfl
  · rename_i waits
    split
    · exact makeReady_holdings (by simp [Plain, waits])
    · rfl
  · rfl

omit [NeZero n] in
theorem msgSend_holdings (running : s.state s.current = .running) (raw : Int)
    (m : Option (Msg n)) : holdings (msgSend s raw m).1 = holdings s := by
  unfold msgSend
  split
  · rename_i server m found
    split
    · rfl
    · dsimp only
      have offered : holdings (msgOffer s server m) = holdings s := rfl
      have placed : ∀ t : Kernel n, holdings t = holdings s → t.state s.current = .running →
          holdings (setState t s.current .waitReply) = holdings s := by
        intro t same still
        rw [setState_holdings (by simp [Plain, still]) (by simp [Plain]), same]
      split
      · rename_i waits
        have waiting : s.state server = .waitRecv := waits
        have away : s.current ≠ server := by
          intro same
          rw [← same, running] at waiting
          cases waiting
        obtain ⟨state, life, arms, wait⟩ := unTime_frame (msgOffer s server m) server
        apply placed
        · rw [← offered]
          apply holdings_congr
          · simp [msgHand, makeReady, answer, life]
          · simp [msgHand, makeReady, answer]
          · simp [msgHand, makeReady, answer, arms]
          · simp [msgHand, makeReady, answer, wait]
          · simpa [msgHand, makeReady, answer, state] using
              setState_plain (s := msgOffer s server m) (by simp [Plain, waits])
                (by simp [Plain] : Plain .ready)
        · simp [msgHand, makeReady, answer, away, msgOffer, running]
      · exact placed _ rfl running
  · rfl

omit [NeZero n] in
theorem msgReceiveTmo_holdings (running : s.state s.current = .running) (out : Addr) (ms : U32) :
    holdings (msgReceiveTmo s out ms).1 = holdings s := by
  have blocked : holdings (setState s s.current .waitRecv) = holdings s :=
    setState_holdings (by simp [Plain, running]) (by simp [Plain])
  unfold msgReceiveTmo
  dsimp only
  split
  · rfl
  · split
    · rename_i taken
      unfold pulseTake at taken
      split at taken
      · exact absurd taken (by simp)
      · rw [← Option.some.inj taken]
        rfl
    · split
      · rfl
      · split <;> exact blocked

end Quiet

theorem tellParent_holdings (s : Kernel n) (pid : Pid n) :
    holdings (tellParent s pid) =
      { holdings s with
        parent := update (holdings s).parent pid none
        reports := (pid, (supervisor s pid).map (endNote s pid)) :: (holdings s).reports } := by
  unfold tellParent
  dsimp only
  split
  · rename_i silent
    rw [silent]
    rfl
  · rename_i parent known
    rw [known, pulseDeliver_holdings]
    rfl

theorem supervisor_report (s : Kernel n) (pid : Pid n) :
    (supervisor s pid).map (endNote s pid) =
      match (holdings s).parent pid with
      | none => none
      | some parent =>
        if parent ≠ 0 ∧ (holdings s).live parent = true ∧ (holdings s).asks parent ≠ 0 then
          some ((holdings s).endPulse pid parent)
        else none := by
  unfold supervisor
  simp only [holdings]
  cases s.life.parent pid with
  | none => rfl
  | some parent =>
    simp only [decide_eq_true_eq]
    split <;> rfl

theorem killNow_holdings (s : Kernel n) (pid : Pid n) :
    holdings (killNow s pid) = (holdings s).release pid := by
  obtain ⟨⟨state, a0, ready, mail, frame⟩, freed, others⟩ := depart_frame s pid
  have departed : holdings (depart s pid) =
      { holdings s with
        live := update (holdings s).live pid false
        awaits := update (holdings s).awaits pid none } := by
    rw [frame] at freed others ⊢
    dsimp only at freed others
    simp only [holdings, Holdings.mk.injEq, true_and, and_true]
    constructor
    · funext p
      by_cases here : p = pid
      · subst here
        simp [freed]
      · rcases (others p here).1 with ⟨same, _⟩ | ⟨before, after⟩
        · simp [here, same]
        · simp [here, before, after]
    · funext p
      by_cases here : p = pid
      · subst here
        simp [awaited, freed]
      · rcases (others p here).1 with ⟨same, _⟩ | ⟨before, after⟩
        · simp [here, same]
        · simp [here, before, after, awaited]
  have back : holdings (handBack (armsDropFor (leave s pid) pid) pid) =
      { holdings (depart s pid) with
        memBase := update (holdings s).memBase pid 0
        codeBase := update (holdings s).codeBase pid 0
        allocs := update (holdings s).allocs pid []
        watch := fun i => if (holdings s).watch i = pid then 0 else (holdings s).watch i
        outside := ((holdings s).departure pid).reverse ++ (holdings s).outside } := by
    have life : (depart s pid).life = s.life := by rw [frame]
    have arms : (depart s pid).arms = s.arms := by rw [frame]
    unfold leave
    simp only [holdings, handBack, armsDropFor, pulseDropFor, life, arms, Holdings.departure,
      Holdings.mk.injEq, true_and]
    refine ⟨?_, rfl, rfl⟩
    funext i
    by_cases here : (s.arms i).pid = pid <;> simp [here]
  have orphaned : ∀ t : Kernel n, holdings (orphan t pid) =
      { holdings t with
        parent := fun i =>
          if i ≠ 0 ∧ (holdings t).parent i = some pid then none else (holdings t).parent i } :=
    fun _ => rfl
  have whole : holdings (undone s pid) =
      { (holdings s).release pid with
        parent := fun i =>
          if i ≠ 0 ∧ (holdings s).parent i = some pid then none else (holdings s).parent i
        reports := (holdings s).reports } := by
    rw [undone, orphaned, wakeWaiters_holdings, back, departed]
    simp only [Holdings.release, Holdings.wake, Holdings.mk.injEq, true_and, and_true]
    funext i
    by_cases here : i = pid
    · simp [here]
    · simp [here]
  rw [killNow_eq, tellParent_holdings, supervisor_report, whole]
  simp only [Holdings.release, Holdings.mk.injEq, true_and, List.cons.injEq, Prod.mk.injEq, and_true]
  unfold Holdings.report
  cases known : (holdings s).parent pid with
  | none => simp
  | some parent =>
    by_cases self : parent = pid
    · by_cases idle : pid = 0 <;> simp [self, idle]
    · simp [self, Holdings.endPulse]

theorem reap_holdings {s : Kernel n} {pid : Pid n} (unqueued : s.state pid ≠ .ready) :
    holdings (reap s pid) = (holdings s).release pid := by
  rw [← killNow_holdings, killNow, if_neg unqueued]

inductive Ending : Holdings n → Holdings n → Prop where
  | ends (h : Holdings n) (pid : Pid n) (idle : pid ≠ 0) (there : h.live pid = true) :
      Ending h (h.release pid)
  | marks (h : Holdings n) (pid : Pid n) (reason : U32) (there : h.live pid = true) :
      Ending h (h.mark pid reason)
  | wakes (h : Holdings n) (pid : Pid n) : Ending h (h.wake pid)
  | waits (h : Holdings n) (pid target : Pid n) (there : h.live target = true) :
      Ending h { h with awaits := update h.awaits pid (some ((target : Nat) : Int)) }
  | watches (h : Holdings n) (i : Fin 8) (pid : Pid n) (there : pid = 0 ∨ h.live pid = true) :
      Ending h { h with watch := update h.watch i pid }
  | unwatches (h : Holdings n) (pid : Pid n) :
      Ending h { h with watch := fun i => if h.watch i = pid then 0 else h.watch i }

abbrev Endings : Holdings n → Holdings n → Prop := Relation.ReflTransGen Ending

theorem endings_of_eq {h k : Holdings n} (same : k = h) : Endings h k := by
  rw [same]

section Ends
variable {s : Kernel n}

theorem processKill_endings (s : Kernel n) (raw : Int) :
    Endings (holdings s) (holdings (processKill s raw).1) := by
  unfold processKill
  split
  · exact .refl
  · rename_i pid found
    split
    · exact .refl
    · rename_i refused
      push Not at refused
      have live : (holdings s).live pid = true := by simpa [holdings] using refused.1
      have marked : Ending (holdings s) (holdings (setEndReason s pid endKilled)) :=
        Ending.marks (holdings s) pid endKilled live
      dsimp only
      split
      · rename_i stopped
        have zombie : holdings (setState { setEndReason s pid endKilled with
            sleep := sleepRemove s.sleep pid } pid .zombie) =
              holdings (setEndReason s pid endKilled) := by
          have waiting : s.state pid = .waitReply := stopped
          exact setState_holdings (s := { setEndReason s pid endKilled with
            sleep := sleepRemove s.sleep pid }) (by simp [Plain, setEndReason, waiting])
            (by simp [Plain])
        rw [killWaiting, wakeWaiters_holdings]
        exact .head marked (.single (zombie ▸ Ending.wakes _ pid))
      · rw [killNow_holdings]
        exact .head marked (.single (Ending.ends _ pid (pidOf_ne_zero found) live))

theorem intrRequest_holdings (s : Kernel n) (raw : Int) :
    holdings (intrRequest s raw).1 = holdings s := by
  unfold intrRequest
  split
  · rfl
  · split
    · rfl
    · exact pulseDeliver_holdings (Ubiqos.setDeadline s _ _) _ _ _ _

theorem interruptNow_endings (s : Kernel n) (victim : Int) :
    Endings (holdings s) (holdings (interruptNow s victim).1) := by
  have asked := intrRequest_holdings s victim
  unfold interruptNow
  split
  · rename_i s' told
    rw [told] at asked
    exact endings_of_eq asked
  · rename_i s' refused
    rw [refused] at asked
    rw [← asked]
    exact processKill_endings s' victim

theorem intrTick_endings (s : Kernel n) : Endings (holdings s) (holdings (intrTick s)) := by
  refine foldl_invariant (fun t => Endings (holdings s) (holdings t)) .refl ?_
  intro t i _ soFar
  unfold intrExpire
  split
  · exact soFar.trans (processKill_endings (setDeadline t i failed) _)
  · exact soFar

theorem reap_endings {t : Kernel n} {pid : Pid n} (same : holdings t = holdings s)
    (idle : pid ≠ 0) (there : t.state pid ≠ .free) (unqueued : t.state pid ≠ .ready) :
    Endings (holdings s) (holdings (reap t pid)) := by
  rw [reap_holdings unqueued, same]
  apply Relation.ReflTransGen.single
  apply Ending.ends _ _ idle
  rw [← same]
  simpa [holdings] using there

theorem clearArm_endings (s : Kernel n) (i : Fin 8) :
    Endings (holdings s) (holdings (clearArm s i)) := by
  have cleared : holdings (clearArm s i) =
      { holdings s with watch := update (holdings s).watch i 0 } := by
    simp only [holdings, clearArm, Holdings.mk.injEq, true_and, and_true]
    refine ⟨rfl, ?_⟩
    funext j
    by_cases here : j = i
    · simp [here]
    · simp [here]
  rw [cleared]
  exact .single (Ending.watches _ i 0 (Or.inl rfl))

theorem fireArm_endings (readable : Int → Pid n → Bool) (s : Kernel n) (i : Fin 8) :
    Endings (holdings s) (holdings (fireArm readable s i)) := by
  unfold fireArm
  dsimp only
  split
  · exact .refl
  · split
    · exact clearArm_endings s i
    · split
      · have delivered := pulseDeliver_holdings (note s (.fired (s.arms i).pulse))
          ((s.arms i).pid : Nat) 0 (s.arms i).type (BitVec.ofInt 32 (s.arms i).path)
        have noted : holdings (note s (.fired (s.arms i).pulse)) = holdings s := rfl
        rw [← noted, ← delivered]
        exact clearArm_endings _ i
      · exact .refl

theorem wakeReaders_endings (readable writable : Int → Pid n → Bool) (s : Kernel n) :
    Endings (holdings s) (holdings (wakeReaders readable writable s)) := by
  have readers : holdings ((slots n).foldl (wakeReader readable writable) s) = holdings s :=
    foldl_invariant (fun t => holdings t = holdings s) rfl
      (fun t i _ same => (wakeReader_holdings readable writable t i).trans same)
  unfold wakeReaders
  dsimp only
  refine foldl_invariant (fun t => Endings (holdings s) (holdings t)) (endings_of_eq readers) ?_
  intro t i _ soFar
  exact soFar.trans (fireArm_endings readable t i)

theorem armRead_endings (there : s.state s.current ≠ .free) (path : Int) (type : U32) :
    Endings (holdings s) (holdings (armRead s path type).1) := by
  have armed : ∀ (i : Fin 8) (arm : Arm n), arm.pid = s.current →
      Endings (holdings s) (holdings { s with arms := update s.arms i arm }) := by
    intro i arm mine
    have set : holdings { s with arms := update s.arms i arm } =
        { holdings s with watch := update (holdings s).watch i s.current } := by
      simp only [holdings, Holdings.mk.injEq, true_and, and_true]
      funext j
      by_cases here : j = i
      · simp [here, mine]
      · simp [here]
    rw [set]
    exact .single (Ending.watches _ i s.current (Or.inr (by simpa [holdings] using there)))
  unfold armRead
  split
  · rename_i i found
    have mine := List.find?_some found
    simp only [Bool.decide_and, Bool.and_eq_true, decide_eq_true_eq] at mine
    split
    · exact clearArm_endings s i
    · exact armed i _ mine.1
  · split
    · exact .refl
    · split
      · exact .refl
      · exact armed _ _ rfl

theorem disarmReads_endings (s : Kernel n) :
    Endings (holdings s) (holdings (disarmReads s).1) := by
  have dropped : holdings (disarmReads s).1 =
      { holdings s with
        watch := fun i =>
          if (holdings s).watch i = s.current then 0 else (holdings s).watch i } := by
    simp only [holdings, disarmReads, armsDropFor, Holdings.mk.injEq, true_and]
    refine ⟨?_, rfl⟩
    funext i
    by_cases here : (s.arms i).pid = s.current <;> simp [here]
  rw [dropped]
  exact .single (Ending.unwatches _ s.current)

theorem blockOnChild_endings (running : s.state s.current = .running) (raw : Int) :
    Endings (holdings s) (holdings (blockOnChild s raw).1) := by
  unfold blockOnChild
  split
  · exact .refl
  · rename_i target found
    split
    · exact .refl
    · rename_i there
      have blocked : holdings { setState s s.current .waitChild with
            wait := { s.wait with pid := update s.wait.pid s.current raw } } =
          { holdings s with
            awaits := update (holdings s).awaits s.current (some ((target : Nat) : Int)) } := by
        simp only [holdings, setState, Holdings.mk.injEq, true_and, and_true]
        constructor
        · funext p
          by_cases here : p = s.current
          · simp [here, running]
          · simp [here]
        · funext p
          by_cases here : p = s.current
          · simp [here, awaited, (pidOf_some found).1]
          · simp [here]
      rw [blocked]
      exact .single (Ending.waits _ s.current target (by simpa [holdings] using there))

theorem msgReply_endings (sched : Scheduled s) (value : U32) :
    Endings (holdings s) (holdings (msgReply s value).1) := by
  unfold msgReply
  dsimp only
  split
  · exact .refl
  · rename_i client _
    have served : holdings (setServing s s.current none) = holdings s := rfl
    split
    · rename_i killed
      have zombie : s.state client = .zombie := killed
      have idle : client ≠ 0 := by
        rintro rfl
        rcases sched.idle with idle | idle <;> rw [idle] at zombie <;> cases zombie
      exact reap_endings served idle (by simp [killed]) (by simp [killed])
    · split
      · rename_i stopped
        have plain : Plain ((answer (setServing s s.current none) client value).state client) := by
          simp [Plain, answer, stopped]
        exact endings_of_eq (makeReady_holdings plain)
      · exact .refl

theorem msgReplyTo_endings (raw : Int) (value : U32) :
    Endings (holdings s) (holdings (msgReplyTo s raw value).1) := by
  unfold msgReplyTo
  split
  · exact .refl
  · rename_i client found
    have frame := (stopServing_frame s client).1
    have served : holdings (stopServing s client) = holdings s := by
      unfold stopServing
      split <;> rfl
    split
    · rename_i killed
      exact reap_endings served (pidOf_ne_zero found) (by simp [frame, killed])
        (by simp [frame, killed])
    · split
      · exact .refl
      · rename_i stopped
        split
        · exact .refl
        · push Not at stopped
          have plain : Plain ((answer (setDest (stopServing s client) client none) client
              value).state client) := by
            simp [Plain, answer, setDest, frame, stopped]
          exact endings_of_eq ((makeReady_holdings plain).trans served)

end Ends

def Deals : Call n → Prop
  | .alloc .. | .free .. | .create .. | .kernelThread .. | .childPulse _ => True
  | _ => False

section Traps
variable {s : Kernel n} (running : s.state s.current = .running) (sched : Scheduled s)
include running sched

theorem syscall_endings (call : Call n) (ends : ¬ Deals call) (idle : s.current ≠ 0) :
    Endings (holdings s) (holdings (syscall s call).1) := by
  have there : s.state s.current ≠ .free := by simp [running]
  have plain : Plain (s.state s.current) := by simp [Plain, running]
  -- A call that only moves a process along leaves the holdings equal; the rest end somebody.
  cases call with
  | send dest m =>
    have sent := msgSend_holdings running dest m
    simp only [syscall]
    split
    · rename_i t outcome
      rw [outcome] at sent
      exact endings_of_eq sent
    · rename_i t outcome
      rw [outcome] at sent
      exact endings_of_eq (k := holdings t) sent
  | receive out =>
    have taken := msgReceiveTmo_holdings running out timeoutForever
    simp only [syscall, received, msgReceive]
    split
    · rename_i t value outcome
      rw [outcome] at taken
      exact endings_of_eq (k := holdings t) taken
    · rename_i t outcome
      rw [outcome] at taken
      exact endings_of_eq taken
  | receiveTmo out ms =>
    have taken := msgReceiveTmo_holdings running out ms
    simp only [syscall, received]
    split
    · rename_i t value outcome
      rw [outcome] at taken
      exact endings_of_eq (k := holdings t) taken
    · rename_i t outcome
      rw [outcome] at taken
      exact endings_of_eq taken
  | reply value => exact msgReply_endings sched value
  | replyTo pid value => exact msgReplyTo_endings pid value
  | pulse dest type value => exact endings_of_eq (pulseDeliver_holdings s dest s.current type value)
  | arm path type => exact armRead_endings there path type
  | disarm => exact disarmReads_endings s
  | sleep ms =>
    simp only [syscall]
    split
    · exact .refl
    · exact endings_of_eq (setState_holdings (s := answer s s.current 0) plain (by simp [Plain]))
  | wait pid => exact blockOnChild_endings running pid
  | readBlocks path => exact endings_of_eq (setState_holdings plain (by simp [Plain]))
  | writeBlocks path => exact endings_of_eq (setState_holdings plain (by simp [Plain]))
  | setPrio prio =>
    apply endings_of_eq
    simp only [syscall, setPriority]
    split
    · rfl
    · split <;> rfl
  | childPulse type => exact absurd trivial ends
  | catchIntr type =>
    apply endings_of_eq
    simp only [syscall, intrCatch]
    split <;> rfl
  | kill victim outright =>
    simp only [syscall]
    split
    · rw [processExit, if_neg idle]
      exact reap_endings rfl idle there (by simp [running])
    · split
      · exact processKill_endings s victim
      · exact interruptNow_endings s victim
  | interrupt victim =>
    simp only [syscall]
    split
    · exact .refl
    · exact interruptNow_endings s victim
  | exit =>
    rw [syscall, processExit, if_neg idle]
    exact reap_endings rfl idle there (by simp [running])
  | fault =>
    simp only [syscall]
    split
    · rw [processFaultExit, if_neg idle]
      have live : (holdings s).live s.current = true := by simpa [holdings] using there
      exact .head (Ending.marks (holdings s) s.current endFaulted live)
        (reap_endings (t := setEndReason s s.current endFaulted) rfl idle there
          (by simp [setEndReason, running]))
    · exact .refl
  | tick readable writable => exact .refl
  | alloc size block => exact absurd trivial ends
  | free pointer => exact absurd trivial ends
  | create module parent mem code => exact absurd trivial ends
  | kernelThread mem priority => exact absurd trivial ends

theorem trap_endings (call : Call n) (ends : ¬ Deals call) :
    Endings (holdings s) (holdings (trap s call).1) := by
  cases call with
  | create module parent mem code => exact absurd trivial ends
  | kernelThread mem priority => exact absurd trivial ends
  | childPulse type => exact absurd trivial ends
  | tick readable writable =>
    have counted : holdings { s with ticks := s.ticks + 1 } = holdings s := rfl
    have woken := wakeReaders_endings readable writable { s with ticks := s.ticks + 1 }
    have kept : Scheduled (wakeReaders readable writable { s with ticks := s.ticks + 1 }) := by
      have rule := meets_none s (.tick readable writable)
      simp only [meets, meetsTick, Bool.and_eq_true, decide_eq_true_eq] at rule
      exact moves_invariant Scheduled (fun _ _ => move_scheduled)
        (wakeReaders_moves readable writable _ rule.1) sched
    have ticked := sleepTick_holdings kept
    have expired := intrTick_endings
      (sleepTick (wakeReaders readable writable { s with ticks := s.ticks + 1 }))
    rw [ticked] at expired
    rw [← counted]
    exact woken.trans expired
  | _ =>
    simp only [trap]
    split
    · exact .refl
    · rename_i idle
      exact syscall_endings running sched _ ends idle

end Traps

def brought : Call n → List Module
  | .create module _ _ _ => [module]
  | _ => []

def granted (s : Kernel n) : Call n → List Addr
  | .alloc size block => if s.current = 0 ∨ size = 0 then [] else block.toList
  | .kernelThread mem _ => if (freeSlot s).isSome then mem.toList else []
  | .create module _ mem code =>
    if alreadyRunning s module ∨ freeSlot s = none then []
    else
      -- the copy is asked for only when there is an area to go with it
      match mem with
      | none => []
      | some mem =>
        mem :: if module.needsCopy then code.toList.filter (· ≠ 0) else []
  | _ => []

inductive Dealt (h : Holdings n) : List Module → List Addr → Holdings n → Prop where
  | nothing : Dealt h [] [] h
  | grows (pid : Pid n) (header : Addr) (idle : pid ≠ 0) (there : h.live pid = true) :
      Dealt h [] [header] (h.grow pid header)
  | shrinks (pid : Pid n) (header : Addr) (idle : pid ≠ 0) (there : h.live pid = true)
      (own : header ∈ h.allocs pid) : Dealt h [] [] (h.shrink pid header)
  | refuses (module : Module) (blocks : List Addr) :
      Dealt h [module] blocks (h.refuse module blocks)
  | asks (pid : Pid n) (type : U32) : Dealt h [] [] (h.ask pid type)
  | begins (slot : Pid n) (module : Option Module) (mem code : Addr) (parent : Option (Pid n))
      (idle : slot ≠ 0) (unused : h.live slot = false) :
      Dealt h module.toList (mem :: [code].filter (· ≠ 0)) (h.start slot module mem code parent)

section Deals
variable {s : Kernel n}

omit [NeZero n] in
theorem begin_holdings {slot : Pid n} (unused : s.state slot = .free) (module : Option Module)
    (mem code : Addr) (parent : Option (Pid n)) (priority : Level) :
    holdings (begin s slot module mem code parent priority) =
      (holdings s).start slot module mem code parent := by
  simp only [holdings, begin, makeReady, note, Holdings.start, Holdings.mk.injEq, true_and]
  refine ⟨?_, ?_, rfl⟩
  · funext p
    by_cases here : p = slot <;> simp [here]
  · funext p
    by_cases here : p = slot
    · simp [here, awaited, unused]
    · simp [here]

theorem create_dealt (module : Module) (parent : Int) (mem code : Option Addr) :
    Dealt (holdings s) [module] (granted s (.create module parent mem code))
      (holdings (processCreateFor s module parent mem code).1) := by
  unfold processCreateFor createProcess granted
  by_cases once : alreadyRunning s module = true
  · simp only [once, true_or, if_true]
    exact Dealt.refuses module []
  · simp only [once, false_or, Bool.false_eq_true, if_false]
    cases found : freeSlot s with
    | none =>
      simp only [if_true]
      exact Dealt.refuses module []
    | some slot =>
      obtain ⟨idle, unused⟩ := freeSlot_some found
      have empty : (holdings s).live slot = false := by simp [holdings, unused]
      simp only [reduceCtorEq, if_false]
      cases mem with
      | none => exact Dealt.refuses module []
      | some mem =>
        by_cases copied : module.needsCopy = true
        · simp only [copied, if_true]
          cases code with
          | none => exact Dealt.refuses module [mem]
          | some copy =>
            simp only [begin_holdings unused]
            exact Dealt.begins slot (some module) mem copy _ idle empty
        · simp only [copied, Bool.false_eq_true, if_false, begin_holdings unused]
          exact Dealt.begins slot (some module) mem 0 _ idle empty

theorem trap_dealt (running : s.state s.current = .running)
    (tidy : ∀ slot, s.state slot = .free → s.life.codeBase slot = 0) (call : Call n)
    (deals : Deals call) :
    Dealt (holdings s) (brought call) (granted s call) (holdings (trap s call).1) := by
  have live : (holdings s).live s.current = true := by simp [holdings, running]
  cases call with
  | create module parent mem code => exact create_dealt module parent mem code
  | kernelThread mem priority =>
    simp only [trap, kernelThread, granted]
    cases found : freeSlot s with
    | none => exact Dealt.nothing
    | some slot =>
      obtain ⟨idle, unused⟩ := freeSlot_some found
      cases mem with
      | none => exact Dealt.nothing
      | some mem =>
        -- the field a kernel thread inherits has been cleared
        simp only [begin_holdings unused, tidy slot unused]
        exact Dealt.begins slot none mem 0 none idle (by simp [holdings, unused])
  | alloc size block =>
    simp only [trap, granted, syscall, memAlloc]
    by_cases idle : s.current = 0
    · simp only [idle, true_or, if_true]
      exact Dealt.nothing
    · by_cases empty : size = 0
      · simp only [idle, empty, or_true, if_true, if_false]
        exact Dealt.nothing
      · simp only [idle, empty, or_self, if_false]
        cases block with
        | none => exact Dealt.nothing
        | some header => exact Dealt.grows s.current header idle live
  | free pointer =>
    simp only [trap, granted, syscall, memFree]
    by_cases idle : s.current = 0
    · simp only [idle, if_true]
      exact Dealt.nothing
    · simp only [idle, if_false]
      by_cases null : pointer = 0
      · simp only [null, if_true]
        exact Dealt.nothing
      · simp only [null, if_false]
        by_cases own : pointer - 16 ∈ s.life.allocs s.current
        · simp only [own, if_true]
          exact Dealt.shrinks s.current (pointer - 16) idle live own
        · simp only [own, if_false]
          exact Dealt.nothing
  | childPulse type =>
    simp only [trap, granted]
    split
    · exact Dealt.nothing
    · exact Dealt.asks s.current type
  | _ => exact absurd deals id

end Deals

end Ubiqos
