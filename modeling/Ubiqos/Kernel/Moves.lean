import Ubiqos.Kernel.Scheduler
import Mathlib.Logic.Relation

/-!
Every trap is a sequence of a few kinds of move. `Move` lists them with what is
true when each is made, `trap_moves` says once that nothing else happens, and
an invariant of the kernel is then a fact about single moves.

Some results hold only while callers keep to a rule. A `Discipline` names the
rule, `meets` says that a call keeps it in the state it finds, and the moves
carry it to the place it is needed.
-/

namespace Ubiqos

open Function Machine
open ReadyQueue (readyEnqueue readyRemove readyTakeHighest)
open SleepList (sleepInsert sleepRemove tickHead takeFirst)

structure Discipline (n : Nat) where
  ticks : U32 → Bool
  buffer : Addr → Bool
  sends : Kernel n → Pid n → Bool
  /-- The stopped process a `reply_to` reaches. -/
  answers : Kernel n → Pid n → Bool
  ends : Kernel n → Pid n → Bool
  notifies : Kernel n → Pulse n → Bool

def Discipline.none (n : Nat) : Discipline n :=
  ⟨fun _ => true, fun _ => true, fun _ _ => true, fun _ _ => true, fun _ _ => true,
    fun _ _ => true⟩

variable {n : Nat}

@[simp] theorem none_ticks (ms : U32) : (Discipline.none n).ticks ms = true := rfl

@[simp] theorem none_buffer (out : Addr) : (Discipline.none n).buffer out = true := rfl

@[simp] theorem none_answers (s : Kernel n) (pid : Pid n) :
    (Discipline.none n).answers s pid = true := rfl

@[simp] theorem none_notifies (s : Kernel n) (pulse : Pulse n) :
    (Discipline.none n).notifies s pulse = true := rfl

variable [NeZero n]

def takeOut (s : Kernel n) (pid : Pid n) : Kernel n :=
  if s.state pid = .ready then { s with ready := readyRemove s.ready pid } else s

def depart (s : Kernel n) (pid : Pid n) : Kernel n :=
  let s := takeOut s pid
  setState (msgUnlinkAll { s with sleep := sleepRemove s.sleep pid } pid) pid .free

def leave (s : Kernel n) (pid : Pid n) : Kernel n := pulseDropFor (depart s pid) pid

/-- Everything `reap` does before it turns to the parent. -/
def undone (s : Kernel n) (pid : Pid n) : Kernel n :=
  orphan (wakeWaiters (handBack (armsDropFor (leave s pid) pid) pid) pid) pid

theorem killNow_eq (s : Kernel n) (pid : Pid n) :
    killNow s pid = tellParent (undone s pid) pid := rfl

theorem reap_eq {s : Kernel n} {pid : Pid n} (unqueued : s.state pid ≠ .ready) :
    reap s pid = tellParent (undone s pid) pid := by
  rw [← killNow_eq, killNow, if_neg unqueued]

/-- What letting the clients of `pid` go may do: processes that waited for an
answer become ready, and the rest of the message columns stay as they are but
for links and for whom `pid` was serving. -/
structure LetsGo (pid : Pid n) (s s' : Kernel n) : Prop where
  frame : ∃ state a0 ready mail,
    s' = { s with state := state, a0 := a0, ready := ready, mail := mail }
  state : ∀ p, s'.state p = s.state p ∨ (s.state p = .waitReply ∧ s'.state p = .ready)
  kept : ∀ p, s'.state p = s.state p → s'.a0 p = s.a0 p ∧ s'.mail.dest p = s.mail.dest p
  head : ∀ p, p ≠ pid → s'.mail.head p = s.mail.head p
  log : s'.mail.log = s.mail.log

section LetsGo
variable {s t u : Kernel n} {pid : Pid n}

omit [NeZero n] in
theorem LetsGo.mail (s : Kernel n) (pid : Pid n) {mail : Mail n}
    (head : ∀ p, p ≠ pid → mail.head p = s.mail.head p) (dest : mail.dest = s.mail.dest)
    (log : mail.log = s.mail.log) : LetsGo pid s { s with mail := mail } :=
  ⟨⟨_, _, _, _, rfl⟩, fun _ => Or.inl rfl, fun _ _ => ⟨rfl, by rw [dest]⟩, head, log⟩

omit [NeZero n] in
theorem LetsGo.trans (first : LetsGo pid s t) (second : LetsGo pid t u) : LetsGo pid s u := by
  refine ⟨?_, ?_, ?_, fun p away => (second.head p away).trans (first.head p away),
    second.log.trans first.log⟩
  · obtain ⟨_, _, _, _, rfl⟩ := first.frame
    obtain ⟨state, a0, ready, mail, rfl⟩ := second.frame
    exact ⟨state, a0, ready, mail, rfl⟩
  · intro p
    rcases first.state p with same | ⟨was, now⟩
    · rw [← same]
      exact second.state p
    · rcases second.state p with kept | ⟨again, _⟩
      · exact Or.inr ⟨was, kept.trans now⟩
      · exact absurd (now.symm.trans again) (by simp)
  · intro p kept
    rcases first.state p with same | ⟨was, now⟩
    · obtain ⟨a0, dest⟩ := second.kept p (kept.trans same.symm)
      obtain ⟨a0Before, destBefore⟩ := first.kept p same
      exact ⟨a0.trans a0Before, dest.trans destBefore⟩
    · rcases second.state p with same | ⟨again, _⟩
      · exact absurd ((same.trans now).symm.trans (kept.trans was)) (by simp)
      · exact absurd (now.symm.trans again) (by simp)

omit [NeZero n] in
theorem release_letsGo (s : Kernel n) (pid client : Pid n) : LetsGo pid s (release s client) := by
  unfold release
  split
  · rename_i stopped
    refine ⟨⟨_, _, _, _, rfl⟩, ?_, ?_, fun _ _ => rfl, rfl⟩
    · intro p
      by_cases same : p = client
      · subst same
        exact Or.inr ⟨stopped, by simp [makeReady]⟩
      · exact Or.inl (by simp [makeReady, answer, same])
    · intro p kept
      have different : p ≠ client := by
        rintro rfl
        rw [stopped] at kept
        exact absurd kept (by simp [makeReady])
      simp [makeReady, answer, different]
  · exact LetsGo.mail s pid (fun _ _ => rfl) rfl rfl

omit [NeZero n] in
theorem unlinkQueue_letsGo (fuel : Nat) (s : Kernel n) (pid : Pid n) (head : Option (Pid n)) :
    LetsGo pid s (unlinkQueue fuel s head) := by
  induction fuel generalizing s head with
  | zero => exact LetsGo.mail s pid (fun _ _ => rfl) rfl rfl
  | succ fuel ih =>
    cases head with
    | none => exact LetsGo.mail s pid (fun _ _ => rfl) rfl rfl
    | some client =>
      have cut : LetsGo pid s
          { s with mail := { s.mail with next := update s.mail.next client none } } :=
        LetsGo.mail s pid (fun _ _ => rfl) rfl rfl
      exact (cut.trans (release_letsGo _ pid client)).trans (ih _ _)

omit [NeZero n] in
theorem unlinkAside_letsGo (s : Kernel n) (pid i : Pid n) : LetsGo pid s (unlinkAside pid s i) := by
  unfold unlinkAside
  split
  · rename_i waiting
    have released := release_letsGo (setDest s i none) pid i
    refine ⟨?_, released.state, ?_, released.head, released.log⟩
    · obtain ⟨state, a0, ready, mail, frame⟩ := released.frame
      exact ⟨state, a0, ready, mail, by rw [frame]; rfl⟩
    · intro p kept
      have different : p ≠ i := by
        rintro rfl
        have stopped : (setDest s p none).state p = .waitReply := waiting.1
        rw [waiting.1, release, if_pos stopped] at kept
        exact absurd kept (by simp [makeReady])
      obtain ⟨a0, dest⟩ := released.kept p kept
      exact ⟨a0, dest.trans (by simp [setDest, different])⟩
  · exact LetsGo.mail s pid (fun _ _ => rfl) rfl rfl

theorem msgUnlinkAll_letsGo (s : Kernel n) (pid : Pid n) : LetsGo pid s (msgUnlinkAll s pid) := by
  have emptied : LetsGo pid s (emptyQueue (unlinkQueue (n + 1) s (s.mail.head pid)) pid) :=
    (unlinkQueue_letsGo _ s pid _).trans
      (LetsGo.mail _ pid (fun p away => update_of_ne away _ _) rfl rfl)
  have turn : ∀ t, ∀ i ∈ slots n, LetsGo pid s t → LetsGo pid s (unlinkAside pid t i) := by
    intro t i _ soFar
    exact soFar.trans (unlinkAside_letsGo t pid i)
  have aside := foldl_invariant (fun t => LetsGo pid s t) emptied turn
  unfold msgUnlinkAll unlinkServing
  dsimp only
  split
  · exact aside
  · have cleared : ∀ t : Kernel n, LetsGo pid t (setServing t pid none) :=
      fun t => LetsGo.mail t pid (fun _ _ => rfl) rfl rfl
    exact aside.trans ((cleared _).trans (release_letsGo _ pid _))

theorem depart_frame (s : Kernel n) (pid : Pid n) :
    (∃ state a0 ready mail, depart s pid =
      { s with state := state, a0 := a0, ready := ready, mail := mail,
               sleep := sleepRemove s.sleep pid }) ∧
    (depart s pid).state pid = .free ∧
    ∀ p, p ≠ pid →
      ((depart s pid).state p = s.state p ∧ (depart s pid).a0 p = s.a0 p ∨
        (s.state p = .waitReply ∧ (depart s pid).state p = .ready)) ∧
      (depart s pid).mail.head p = s.mail.head p := by
  obtain ⟨ready, taken⟩ : ∃ ready, takeOut s pid = { s with ready := ready } := by
    unfold takeOut
    split <;> exact ⟨_, rfl⟩
  have gone := msgUnlinkAll_letsGo { s with ready := ready, sleep := sleepRemove s.sleep pid } pid
  have unfolded : depart s pid = setState (msgUnlinkAll
      { s with ready := ready, sleep := sleepRemove s.sleep pid } pid) pid .free := by
    simp only [depart, taken]
  refine ⟨?_, by simp [depart, setState], ?_⟩
  · obtain ⟨_, _, _, _, unlinked⟩ := gone.frame
    rw [unfolded, unlinked]
    exact ⟨_, _, _, _, rfl⟩
  · intro p away
    rw [unfolded]
    refine ⟨?_, gone.head p away⟩
    simp only [setState, update_of_ne away]
    rcases gone.state p with same | released
    · exact Or.inl ⟨same, (gone.kept p same).1⟩
    · exact Or.inr released

end LetsGo

theorem msgSend_eq {s : Kernel n} {server : Pid n} (dest : server ≠ 0)
    (there : s.state server ≠ .free) (m : Msg n) :
    (msgSend s (server : Nat) (some m)).1 =
      setState (if s.state server = .waitRecv then msgHand (msgOffer s server m) server s.current
        else msgQueue (msgOffer s server m) server s.current) s.current .waitReply := by
  simp only [msgSend, pidOf_coe dest, there, if_false]
  rfl

section Meets
variable (d : Discipline n)

def meetsReap (s : Kernel n) (pid : Pid n) : Bool :=
  d.ends s pid &&
    match supervisor (undone s pid) pid with
    | none => true
    | some parent => d.notifies (noParent (undone s pid) pid) (endNote (undone s pid) pid parent)

def meetsKill (s : Kernel n) (raw : Int) : Bool :=
  match pidOf n raw with
  | none => true
  | some pid =>
    if s.state pid = .free ∨ s.state pid = .zombie ∨ s.life.module pid = none then true
    else if s.state pid = .waitReply then true
    else meetsReap d (setEndReason s pid endKilled) pid

def meetsInterrupt (s : Kernel n) (victim : Int) : Bool :=
  match intrRequest s victim with
  | (_, true) => true
  | (s, false) => meetsKill d s victim

def meetsReply (s : Kernel n) : Bool :=
  match s.mail.serving s.current with
  | none => true
  | some client =>
    if s.state client = .zombie then meetsReap d (setServing s s.current none) client else true

def meetsReplyTo (s : Kernel n) (raw : Int) : Bool :=
  match pidOf n raw with
  | none => true
  | some pid =>
    if s.state pid = .zombie then d.answers s pid && meetsReap d (stopServing s pid) pid
    else if s.state pid = .waitReply ∧ s.mail.dest pid = some s.current then d.answers s pid
    else true

def meetsSend (s : Kernel n) (raw : Int) : Bool :=
  match pidOf n raw with
  | none => true
  | some server => d.sends s server

def meetsFire (readable : Int → Pid n → Bool) (s : Kernel n) (i : Fin 8) : Bool :=
  if (s.arms i).pid = 0 ∨ s.state (s.arms i).pid = .free then true
  else if readable (s.arms i).path (s.arms i).pid then d.notifies s (s.arms i).pulse
  else true

def meetsExpire (s : Kernel n) (i : Pid n) : Bool :=
  if overdue s i then meetsKill d (setDeadline s i failed) (i : Nat) else true

def meetsTick (readable writable : Int → Pid n → Bool) (s : Kernel n) : Bool :=
  let s := { s with ticks := s.ticks + 1 }
  decide (Along (fireArm readable) (fun s i => meetsFire d readable s i = true)
    ((slots n).foldl (wakeReader readable writable) s) (List.finRange 8)) &&
  decide (Along intrExpire (fun s i => meetsExpire d s i = true)
    (sleepTick (wakeReaders readable writable s)) (slots n))

def meetsSyscall (s : Kernel n) : Call n → Bool
  | .send dest _ => meetsSend d s dest
  | .receive out => d.buffer out
  | .receiveTmo out ms => d.buffer out && (ms = timeoutForever || d.ticks ms)
  | .sleep ms => d.ticks ms
  | .reply _ => meetsReply d s
  | .replyTo pid _ => meetsReplyTo d s pid
  | .exit => meetsReap d s s.current
  | .fault =>
    if (s.life.module s.current).isSome then
      meetsReap d (setEndReason s s.current endFaulted) s.current
    else true
  | .kill victim outright =>
    if victim = (s.current : Nat) then meetsReap d s s.current
    else if outright then meetsKill d s victim
    else meetsInterrupt d s victim
  | .interrupt victim => if endsCaller s victim then true else meetsInterrupt d s victim
  | _ => true

def meets (s : Kernel n) : Call n → Bool
  | .tick readable writable => meetsTick d readable writable s
  | call => if s.current = 0 then true else meetsSyscall d s call

/-- Every call of the run keeps to the rule where it is made. -/
abbrev Follows (calls : List (Call n)) : Prop :=
  Along step (fun s call => meets d s call = true) (schedulerInit n) calls

end Meets

/-- `begin` is called on a free slot, a message goes to a process that is there:
each move comes with what its callers have checked. `other` is a change that
touches neither a list nor a state nor a frame. -/
inductive Move (d : Discipline n) : Kernel n → Kernel n → Prop where
  | other (s : Kernel n) (arms : Fin 8 → Arm n) (wait : Wait n) (life : Life n) (intr : Intr n)
      (ticks : U32) :
      Move d s { s with arms := arms, wait := wait, life := life, intr := intr, ticks := ticks }
  | answer (s : Kernel n) (value : U32) : Move d s (answer s s.current value)
  | wake (s : Kernel n) (pid : Pid n)
      (blocked : s.state pid = .waitRead ∨ s.state pid = .waitWrite ∨ s.state pid = .waitChild) :
      Move d s (makeReady s pid)
  | block (s : Kernel n) (state : ProcState)
      (running : s.state s.current = .running) (idle : s.current ≠ 0)
      (why : state = .waitRead ∨ state = .waitWrite ∨ state = .waitChild) :
      Move d s (setState s s.current state)
  | sleepBegin (s : Kernel n) (ms : U32) (positive : ms ≠ 0)
      (running : s.state s.current = .running) (idle : s.current ≠ 0) (rule : d.ticks ms = true) :
      Move d s (sleepBegin s ms)
  | sleepTick (s : Kernel n) : Move d s (sleepTick s)
  | deliver (s : Kernel n) (raw : Int) (origin : Pid n) (type value : U32) :
      Move d s (pulseDeliver s raw origin type value).1
  | notify (s : Kernel n) (pulse : Pulse n) (event : PulseEvent n)
      (reason : event = .fired pulse ∨ ∃ pid, event = .reaped pid pulse) (dest : pulse.dest ≠ 0)
      (there : s.state pulse.dest ≠ .free) (rule : d.notifies s pulse = true) :
      Move d s (pulseDeliver (note s event) (pulse.dest : Nat) pulse.origin pulse.type
        pulse.value).1
  | unheard (s : Kernel n) (pid : Pid n) : Move d s (note s (.reaped pid none))
  | disarm (s : Kernel n) (running : s.state s.current = .running) : Move d s (disarmReads s).1
  | receiveMsg (s : Kernel n) (client : Pid n) (out : Addr)
      (running : s.state s.current = .running) (idle : s.current ≠ 0)
      (first : s.mail.head s.current = some client) : Move d s (msgTake s client out)
  | receivePulse (s s' : Kernel n) (out : Addr)
      (running : s.state s.current = .running) (idle : s.current ≠ 0)
      (taken : pulseTake s s.current out = some s') : Move d s s'
  | receiveBlock (s : Kernel n) (out : Addr) (ms : U32) (positive : ms ≠ 0)
      (running : s.state s.current = .running) (idle : s.current ≠ 0)
      (noMessage : s.mail.head s.current = none)
      (noPulse : pulseTake s s.current out = none)
      (rule : d.buffer out = true) (short : ms = timeoutForever ∨ d.ticks ms = true) :
      Move d s (msgReceiveTmo s out ms).1
  | send (s : Kernel n) (server : Pid n) (m : Msg n)
      (running : s.state s.current = .running) (idle : s.current ≠ 0) (dest : server ≠ 0)
      (there : s.state server ≠ .free) (rule : d.sends s server = true) :
      Move d s (msgSend s (server : Nat) (some m)).1
  | reply (s : Kernel n) (client : Pid n) (value : U32)
      (running : s.state s.current = .running) (idle : s.current ≠ 0)
      (serving : s.mail.serving s.current = some client)
      (stopped : s.state client = .waitReply) :
      Move d s (makeReady (answer (setServing s s.current none) client value) client)
  | replyNobody (s : Kernel n) : Move d s (setServing s s.current none)
  | replyTo (s : Kernel n) (client : Pid n) (value : U32)
      (running : s.state s.current = .running) (idle : s.current ≠ 0)
      (stopped : s.state client = .waitReply) (dest : s.mail.dest client = some s.current)
      (rule : d.answers s client = true) :
      Move d s (makeReady (answer (setDest (stopServing s client) client none) client value) client)
  | depart (s : Kernel n) (pid : Pid n) (idle : pid ≠ 0) (there : s.state pid ≠ .free)
      (moving : s.state pid ≠ .waitReply) (whole : s.state pid ≠ .zombie)
      (rule : d.ends s pid = true) : Move d s (leave s pid)
  | replyZombie (s : Kernel n) (client : Pid n)
      (running : s.state s.current = .running) (idle : s.current ≠ 0)
      (serving : s.mail.serving s.current = some client) (killed : s.state client = .zombie)
      (rule : d.ends (setServing s s.current none) client = true) :
      Move d s (leave (setServing s s.current none) client)
  | replyToZombie (s : Kernel n) (client : Pid n)
      (running : s.state s.current = .running) (idle : s.current ≠ 0) (dest : client ≠ 0)
      (killed : s.state client = .zombie) (rule : d.answers s client = true)
      (ends : d.ends (stopServing s client) client = true) :
      Move d s (leave (stopServing s client) client)
  | killWaiting (s : Kernel n) (pid : Pid n) (stopped : s.state pid = .waitReply) :
      Move d s (setState { s with sleep := sleepRemove s.sleep pid } pid .zombie)
  | begin (s : Kernel n) (slot : Pid n) (module : Option Module) (mem code : Addr)
      (parent : Option (Pid n)) (priority : Level) (idle : slot ≠ 0)
      (unused : s.state slot = .free) : Move d s (begin s slot module mem code parent priority)
  | setPrio (s : Kernel n) (level : Level) (running : s.state s.current = .running)
      (idle : s.current ≠ 0) :
      Move d s { s with ready := ReadyQueue.setPriority s.ready s.current level }

abbrev Moves (d : Discipline n) : Kernel n → Kernel n → Prop := Relation.ReflTransGen (Move d)

variable {d : Discipline n}

theorem moves_fold {Index : Type} {turn : Kernel n → Index → Kernel n}
    (allowed : Kernel n → Index → Prop)
    (each : ∀ s i, allowed s i → Moves d s (turn s i)) {s : Kernel n} {visited : List Index}
    (along : Along turn allowed s visited) : Moves d s (visited.foldl turn s) := by
  induction visited generalizing s with
  | nil => exact .refl
  | cons i rest ih => exact (each s i along.1).trans (ih along.2)

theorem moves_invariant (inv : Kernel n → Prop) (keeps : ∀ s s', Move d s s' → inv s → inv s')
    {s s' : Kernel n} (moves : Moves d s s') (start : inv s) : inv s' := by
  induction moves with
  | refl => exact start
  | tail _ last ih => exact keeps _ _ last ih

theorem life_move (s : Kernel n) (life : Life n) : Move d s { s with life := life } :=
  Move.other s s.arms s.wait life s.intr s.ticks

theorem arms_move (s : Kernel n) (arms : Fin 8 → Arm n) : Move d s { s with arms := arms } :=
  Move.other s arms s.wait s.life s.intr s.ticks

theorem intr_move (s : Kernel n) (intr : Intr n) : Move d s { s with intr := intr } :=
  Move.other s s.arms s.wait s.life intr s.ticks

theorem wakeReader_moves (readable writable : Int → Pid n → Bool) (s : Kernel n) (i : Pid n) :
    Moves d s (wakeReader readable writable s i) := by
  unfold wakeReader
  split
  · rename_i waiting
    split
    · exact .single (Move.wake s i (Or.inl waiting))
    · exact .refl
  · rename_i waiting
    split
    · exact .single (Move.wake s i (Or.inr (Or.inl waiting)))
    · exact .refl
  · exact .refl

theorem fireArm_moves (readable : Int → Pid n → Bool) (s : Kernel n) (i : Fin 8)
    (rule : meetsFire d readable s i = true) : Moves d s (fireArm readable s i) := by
  unfold fireArm
  by_cases unused : (s.arms i).pid = 0
  · simp only [unused, if_true]
    exact .refl
  by_cases gone : s.state (s.arms i).pid = .free
  · simp only [unused, gone, if_true, if_false]
    exact .single (arms_move s _)
  by_cases fires : readable (s.arms i).path (s.arms i).pid = true
  · simp only [meetsFire, unused, gone, fires, or_self, if_true, if_false] at rule
    simp only [unused, gone, fires, if_true, if_false]
    have told := Move.notify (d := d) s (s.arms i).pulse _ (Or.inl rfl) unused gone rule
    exact (Relation.ReflTransGen.single told).tail (arms_move _ _)
  · simp only [unused, gone, fires, if_false]
    exact .refl

theorem wakeReaders_moves (readable writable : Int → Pid n → Bool) (s : Kernel n)
    (rule : Along (fireArm readable) (fun s i => meetsFire d readable s i = true)
      ((slots n).foldl (wakeReader readable writable) s) (List.finRange 8)) :
    Moves d s (wakeReaders readable writable s) := by
  have readers : Moves d s ((slots n).foldl (wakeReader readable writable) s) :=
    moves_fold (fun _ _ => True) (fun s i _ => wakeReader_moves readable writable s i)
      (along_always (fun _ _ => trivial) s (slots n))
  exact readers.trans (moves_fold _ (fun s i allowed => fireArm_moves readable s i allowed) rule)

omit [NeZero n] in
theorem sleepTick_invariant (inv : Kernel n → Prop)
    (ticked : ∀ s, inv s → inv { s with sleep := tickHead s.sleep })
    (roused : ∀ s pid, s.sleep.head = some pid → s.sleep.delta pid = 0 → inv s → inv (rouse s pid))
    {s : Kernel n} (start : inv s) : inv (sleepTick s) := by
  have loop : ∀ fuel s, inv s → inv (rouseDue fuel s) := by
    intro fuel
    induction fuel with
    | zero => exact fun s start => start
    | succ fuel ih =>
      intro s start
      rw [rouseDue]
      split
      · exact start
      · rename_i pid first
        split
        · rename_i due
          exact ih _ (roused s pid first due start)
        · exact start
  exact loop (n + 1) _ (ticked s start)

theorem wakeWaiters_moves (s : Kernel n) (pid : Pid n) : Moves d s (wakeWaiters s pid) := by
  refine moves_fold (fun _ _ => True) ?_ (along_always (fun _ _ => trivial) _ _)
  intro s i _
  unfold wakeWaiter
  split
  · rename_i waiting
    exact .single (Move.wake s i (Or.inr (Or.inr waiting.1)))
  · exact .refl

theorem tellParent_moves {s s' : Kernel n} {pid : Pid n} (left : Moves d s' (leave s pid))
    (rule : meetsReap d s pid = true) : Moves d s' (tellParent (undone s pid) pid) := by
  have back := (left.tail (arms_move _ (armsDropFor (leave s pid) pid).arms)).tail
    (life_move _ (handBack (armsDropFor (leave s pid) pid) pid).life)
  have waiters := back.trans (wakeWaiters_moves _ pid)
  have all : Moves d s' (undone s pid) := waiters.tail (life_move _ (undone s pid).life)
  have alone : Moves d s' (noParent (undone s pid) pid) := all.tail (life_move _ _)
  unfold meetsReap at rule
  unfold tellParent
  cases told : supervisor (undone s pid) pid with
  | none => exact alone.tail (Move.unheard _ pid)
  | some parent =>
    simp only [told, Bool.and_eq_true] at rule
    have chosen : parent ≠ 0 ∧ (undone s pid).state parent ≠ .free := by
      unfold supervisor at told
      split at told
      · exact absurd told (by simp)
      · split at told
        · rename_i asked
          rw [← Option.some.inj told]
          exact ⟨asked.1, asked.2.1⟩
        · exact absurd told (by simp)
    exact alone.tail (Move.notify (d := d) (noParent (undone s pid) pid)
      (endNote (undone s pid) pid parent) _ (Or.inr ⟨pid, rfl⟩) chosen.1 chosen.2 rule.2)

theorem killNow_moves {s : Kernel n} {pid : Pid n} (idle : pid ≠ 0) (there : s.state pid ≠ .free)
    (moving : s.state pid ≠ .waitReply) (whole : s.state pid ≠ .zombie)
    (rule : meetsReap d s pid = true) : Moves d s (killNow s pid) := by
  have ends : d.ends s pid = true := by
    unfold meetsReap at rule
    simp only [Bool.and_eq_true] at rule
    exact rule.1
  rw [killNow_eq]
  exact tellParent_moves (.single (Move.depart s pid idle there moving whole ends)) rule

theorem reap_running_moves {s : Kernel n} {pid : Pid n} (idle : pid ≠ 0)
    (running : s.state pid = .running) (rule : meetsReap d s pid = true) :
    Moves d s (reap s pid) := by
  have moves := killNow_moves idle (by simp [running]) (by simp [running]) (by simp [running]) rule
  rwa [killNow, if_neg (by simp [running])] at moves

theorem processKill_moves (s : Kernel n) (raw : Int) (rule : meetsKill d s raw = true) :
    Moves d s (processKill s raw).1 := by
  unfold processKill
  unfold meetsKill at rule
  cases found : pidOf n raw with
  | none => exact .refl
  | some pid =>
    simp only [found] at rule ⊢
    by_cases refused : s.state pid = .free ∨ s.state pid = .zombie ∨ s.life.module pid = none
    · rw [if_pos refused]
    · rw [if_neg refused] at rule ⊢
      have marked : Move d s (setEndReason s pid endKilled) := life_move s _
      have same : (setEndReason s pid endKilled).state = s.state := rfl
      push Not at refused
      rw [same]
      by_cases stopped : s.state pid = .waitReply
      · rw [if_pos stopped]
        have zombie := Move.killWaiting (d := d) (setEndReason s pid endKilled) pid stopped
        exact .head marked (.head zombie (wakeWaiters_moves _ pid))
      · rw [if_neg stopped] at rule ⊢
        exact .head marked
          (killNow_moves (pidOf_ne_zero found) refused.1 stopped refused.2.1 rule)

theorem intrRequest_moves (s : Kernel n) (raw : Int) : Moves d s (intrRequest s raw).1 := by
  unfold intrRequest
  split
  · exact .refl
  · split
    · exact .refl
    · exact .head (intr_move s _) (.single (Move.deliver _ _ _ _ _))

theorem interruptNow_moves (s : Kernel n) (victim : Int) (rule : meetsInterrupt d s victim = true) :
    Moves d s (interruptNow s victim).1 := by
  have asked := intrRequest_moves (d := d) s victim
  unfold interruptNow
  unfold meetsInterrupt at rule
  cases request : intrRequest s victim with
  | mk s' told =>
    rw [request] at asked rule
    cases told with
    | true => exact asked
    | false => exact asked.trans (processKill_moves s' victim rule)

theorem intrTick_moves (s : Kernel n)
    (rule : Along intrExpire (fun s i => meetsExpire d s i = true) s (slots n)) :
    Moves d s (intrTick s) := by
  refine moves_fold _ ?_ rule
  intro s i allowed
  unfold intrExpire
  unfold meetsExpire at allowed
  split
  · rename_i late
    rw [if_pos late] at allowed
    exact .head (intr_move s _) (processKill_moves _ _ allowed)
  · exact .refl

section Calls
variable {s : Kernel n} (running : s.state s.current = .running) (idle : s.current ≠ 0)
include running idle

theorem msgSend_moves (raw : Int) (m : Option (Msg n)) (rule : meetsSend d s raw = true) :
    Moves d s (msgSend s raw m).1 := by
  unfold meetsSend at rule
  cases found : pidOf n raw with
  | none => simp [msgSend, found, Relation.ReflTransGen.refl]
  | some server =>
    cases m with
    | none => simp [msgSend, found, Relation.ReflTransGen.refl]
    | some m =>
      by_cases gone : s.state server = .free
      · simp [msgSend, found, gone, Relation.ReflTransGen.refl]
      · simp only [found] at rule
        have dest := pidOf_ne_zero found
        have place := (pidOf_some found).1
        rw [place]
        exact .single (Move.send s server m running idle dest gone rule)

theorem msgReceiveTmo_moves (out : Addr) (ms : U32) (rule : d.buffer out = true)
    (short : ms = timeoutForever ∨ d.ticks ms = true) :
    Moves d s (msgReceiveTmo s out ms).1 := by
  cases queued : s.mail.head s.current with
  | some client =>
    simp only [msgReceiveTmo, queued]
    exact .single (Move.receiveMsg s client out running idle queued)
  | none =>
    cases pulse : pulseTake s s.current out with
    | some s' =>
      simp only [msgReceiveTmo, queued, pulse]
      exact .single (Move.receivePulse s s' out running idle pulse)
    | none =>
      by_cases poll : ms = 0
      · simp only [msgReceiveTmo, queued, pulse, poll, if_true]
        exact .refl
      · exact .single (Move.receiveBlock s out ms poll running idle queued pulse rule short)

theorem msgReply_moves (value : U32) (rule : meetsReply d s = true) :
    Moves d s (msgReply s value).1 := by
  unfold msgReply
  unfold meetsReply at rule
  cases serving : s.mail.serving s.current with
  | none =>
    simp only [serving]
    exact .refl
  | some client =>
    simp only [serving] at rule ⊢
    have same : (setServing s s.current none).state = s.state := rfl
    simp only [same]
    by_cases killed : s.state client = .zombie
    · rw [if_pos killed] at rule ⊢
      have ends : d.ends (setServing s s.current none) client = true := by
        unfold meetsReap at rule
        simp only [Bool.and_eq_true] at rule
        exact rule.1
      rw [reap_eq (by simp [same, killed])]
      exact tellParent_moves
        (.single (Move.replyZombie s client running idle serving killed ends)) rule
    · rw [if_neg killed]
      by_cases stopped : s.state client = .waitReply
      · rw [if_pos stopped]
        exact .single (Move.reply s client value running idle serving stopped)
      · rw [if_neg stopped]
        exact .single (Move.replyNobody s)

theorem msgReplyTo_moves (raw : Int) (value : U32) (rule : meetsReplyTo d s raw = true) :
    Moves d s (msgReplyTo s raw value).1 := by
  unfold msgReplyTo
  unfold meetsReplyTo at rule
  cases found : pidOf n raw with
  | none => exact .refl
  | some pid =>
    simp only [found] at rule ⊢
    by_cases killed : s.state pid = .zombie
    · rw [if_pos killed] at rule ⊢
      simp only [Bool.and_eq_true] at rule
      have same : (stopServing s pid).state = s.state := by
        unfold stopServing
        split <;> rfl
      have ends : d.ends (stopServing s pid) pid = true := by
        have whole := rule.2
        unfold meetsReap at whole
        simp only [Bool.and_eq_true] at whole
        exact whole.1
      rw [reap_eq (by simp [same, killed])]
      exact tellParent_moves (.single (Move.replyToZombie s pid running idle
        (pidOf_ne_zero found) killed rule.1 ends)) rule.2
    · rw [if_neg killed] at rule ⊢
      by_cases stopped : s.state pid = .waitReply
      · by_cases dest : s.mail.dest pid = some s.current
        · rw [if_pos ⟨stopped, dest⟩] at rule
          simp only [stopped, dest, ne_eq, not_true_eq_false, if_false]
          exact .single (Move.replyTo s pid value running idle stopped dest rule)
        · simp only [stopped, dest, ne_eq, not_true_eq_false, not_false_eq_true, if_true, if_false]
          exact .refl
      · simp only [stopped, ne_eq, not_false_eq_true, if_true]
        exact .refl

omit running idle in
theorem returns_moves {s' : Kernel n} (value : U32) (moves : Moves d s s') :
    Moves d s (returns s' value).1 := moves.tail (Move.answer _ _)

omit running idle in
theorem received_moves {result : Kernel n × Option U32} (moves : Moves d s result.1) :
    Moves d s (received result).1 := by
  obtain ⟨s', value⟩ := result
  cases value with
  | none => exact moves
  | some value => exact moves.tail (Move.answer _ _)

theorem blockOn_moves (state : ProcState) (wait : Wait n)
    (why : state = .waitRead ∨ state = .waitWrite ∨ state = .waitChild) :
    Moves d s { setState s s.current state with wait := wait } := by
  have blocked : Move d s (setState s s.current state) := Move.block s state running idle why
  exact .head blocked (.single (Move.other _ _ wait _ _ _))

theorem processExit_moves (rule : meetsReap d s s.current = true) :
    Moves d s (processExit s) := by
  unfold processExit
  rw [if_neg idle]
  exact reap_running_moves idle running rule

omit running idle in
theorem armRead_moves (path : Int) (type : U32) : Moves d s (armRead s path type).1 := by
  unfold armRead
  split
  · split
    · exact .single (arms_move s _)
    · exact .single (arms_move s _)
  · split
    · exact .refl
    · split
      · exact .refl
      · exact .single (arms_move s _)

theorem blockOnChild_moves (pid : Int) : Moves d s (blockOnChild s pid).1 := by
  unfold blockOnChild
  split
  · exact .refl
  · split
    · exact .refl
    · exact blockOn_moves running idle _ _ (Or.inr (Or.inr rfl))

theorem setPriority_moves (prio : U32) : Moves d s (setPriority s prio).1 := by
  unfold setPriority
  rw [if_neg idle]
  dsimp only
  split
  · exact .refl
  · exact .single (Move.setPrio s _ running idle)

omit running in
theorem intrCatch_moves (type : U32) : Moves d s (intrCatch s type).1 := by
  unfold intrCatch
  rw [if_neg idle]
  exact .single (intr_move s _)

omit running idle in
theorem memAlloc_moves (size : U32) (block : Option Addr) : Moves d s (memAlloc s size block).1 := by
  unfold memAlloc
  split
  · exact .refl
  · split
    · exact .refl
    · exact .single (life_move s _)

omit running idle in
theorem memFree_moves (pointer : Addr) : Moves d s (memFree s pointer).1 := by
  unfold memFree
  split
  · exact .refl
  · dsimp only
    split
    · exact .single (life_move s _)
    · exact .refl

theorem processFaultExit_moves (rule : meetsReap d (setEndReason s s.current endFaulted) s.current = true) :
    Moves d s (processFaultExit s) := by
  unfold processFaultExit
  rw [if_neg idle]
  have marked : Move d s (setEndReason s s.current endFaulted) := life_move s _
  exact .head marked (reap_running_moves idle running rule)

theorem syscall_moves (call : Call n) (rule : meetsSyscall d s call = true) :
    Moves d s (syscall s call).1 := by
  cases call with
  | send dest m =>
    have sent := msgSend_moves (d := d) running idle dest m rule
    simp only [syscall]
    split
    · rename_i s' sentIs
      rwa [sentIs] at sent
    · rename_i s' sentIs
      rw [sentIs] at sent
      exact returns_moves failed sent
  | receive out => exact received_moves (msgReceiveTmo_moves running idle out _ rule (Or.inl rfl))
  | receiveTmo out ms =>
    simp only [meetsSyscall, Bool.and_eq_true, Bool.or_eq_true, decide_eq_true_eq] at rule
    exact received_moves (msgReceiveTmo_moves running idle out ms rule.1 rule.2)
  | reply value => exact returns_moves _ (msgReply_moves running idle value rule)
  | replyTo pid value => exact returns_moves _ (msgReplyTo_moves running idle pid value rule)
  | pulse dest type value => exact returns_moves _ (.single (Move.deliver s dest _ type value))
  | arm path type => exact returns_moves _ (armRead_moves path type)
  | disarm => exact returns_moves _ (.single (Move.disarm s running))
  | sleep ms =>
    have zeroed : Move d s (answer s s.current 0) := Move.answer s 0
    simp only [syscall]
    split
    · exact .single zeroed
    · rename_i positive
      exact .head zeroed (.single (Move.sleepBegin _ ms positive running idle rule))
  | wait pid => exact (blockOnChild_moves running idle pid).tail (Move.answer _ _)
  | readBlocks path => exact blockOn_moves running idle _ _ (Or.inl rfl)
  | writeBlocks path => exact blockOn_moves running idle _ _ (Or.inr (Or.inl rfl))
  | setPrio prio => exact returns_moves _ (setPriority_moves running idle prio)
  | childPulse type => exact returns_moves _ (.single (life_move s _))
  | catchIntr type => exact returns_moves _ (intrCatch_moves idle type)
  | kill victim outright =>
    simp only [syscall]
    simp only [meetsSyscall] at rule
    split
    · rename_i self
      rw [if_pos self] at rule
      exact processExit_moves running idle rule
    · rename_i other
      rw [if_neg other] at rule
      split
      · rename_i hard
        rw [if_pos hard] at rule
        exact returns_moves _ (processKill_moves s victim rule)
      · rename_i soft
        rw [if_neg soft] at rule
        exact returns_moves _ (interruptNow_moves s victim rule)
  | interrupt victim =>
    simp only [syscall]
    simp only [meetsSyscall] at rule
    split
    · exact .refl
    · rename_i other
      rw [if_neg other] at rule
      exact interruptNow_moves s victim rule
  | alloc size block => exact returns_moves _ (memAlloc_moves size block)
  | free pointer => exact returns_moves _ (memFree_moves pointer)
  | exit => exact processExit_moves running idle rule
  | fault =>
    simp only [syscall]
    simp only [meetsSyscall] at rule
    split
    · rename_i module
      rw [if_pos module] at rule
      exact processFaultExit_moves running idle rule
    · exact .refl
  | create module parent mem code => exact .refl
  | kernelThread mem priority => exact .refl
  | tick readable writable => exact .refl

end Calls

theorem freeSlot_some {s : Kernel n} {slot : Pid n} (found : freeSlot s = some slot) :
    slot ≠ 0 ∧ s.state slot = .free := by
  unfold freeSlot at found
  have member := List.mem_of_find?_eq_some found
  have free := List.find?_some found
  exact ⟨mem_slots.mp member, by simpa using free⟩

theorem createProcess_moves (s : Kernel n) (module : Module) (parent : Int)
    (mem code : Option Addr) : Moves d s (createProcess s module parent mem code).1 := by
  unfold createProcess
  split
  · exact .refl
  · split
    · exact .refl
    · exact .refl
    · rename_i slot mem found
      obtain ⟨idle, unused⟩ := freeSlot_some found
      dsimp only
      split
      · split
        · exact .single (life_move s _)
        · exact .single (Move.begin s slot _ _ _ _ _ idle unused)
      · exact .single (Move.begin s slot _ _ _ _ _ idle unused)

theorem trap_moves {s : Kernel n} (running : s.state s.current = .running) (call : Call n)
    (rule : meets d s call = true) : Moves d s (trap s call).1 := by
  cases call with
  | create module parent mem code =>
    have created := createProcess_moves (d := d) s module parent mem code
    simp only [trap, processCreateFor]
    split
    · rename_i s' slot outcome
      rwa [outcome] at created
    · rename_i s' refusal outcome
      rw [outcome] at created
      exact created.tail (life_move s' _)
  | kernelThread mem priority =>
    simp only [trap, kernelThread]
    split
    · rename_i slot mem found
      obtain ⟨idle, unused⟩ := freeSlot_some found
      exact .single (Move.begin s slot _ _ _ _ _ idle unused)
    · exact .refl
  | tick readable writable =>
    simp only [meets, meetsTick, Bool.and_eq_true, decide_eq_true_eq] at rule
    have counted : Move d s { s with ticks := s.ticks + 1 } :=
      Move.other s s.arms s.wait s.life s.intr (s.ticks + 1)
    exact .head counted ((wakeReaders_moves readable writable _ rule.1).trans
      (.head (Move.sleepTick _) (intrTick_moves _ rule.2)))
  | _ =>
    simp only [meets] at rule
    simp only [trap]
    split
    · exact .refl
    · rename_i idle
      rw [if_neg idle] at rule
      exact syscall_moves running idle _ rule

theorem meets_none (s : Kernel n) (call : Call n) : meets (Discipline.none n) s call = true := by
  have reaps : ∀ s pid, meetsReap (Discipline.none n) s pid = true := by
    intro s pid
    unfold meetsReap
    split <;> rfl
  have kills : ∀ s raw, meetsKill (Discipline.none n) s raw = true := by
    intro s raw
    unfold meetsKill
    split
    · rfl
    · simp [reaps]
  have interrupts : ∀ s victim, meetsInterrupt (Discipline.none n) s victim = true := by
    intro s victim
    unfold meetsInterrupt
    split
    · rfl
    · exact kills _ _
  have fires : ∀ readable s i, meetsFire (Discipline.none n) readable s i = true := by
    intro readable s i
    simp [meetsFire]
  have expires : ∀ s i, meetsExpire (Discipline.none n) s i = true := by
    intro s i
    simp [meetsExpire, kills]
  have sends : ∀ s raw, meetsSend (Discipline.none n) s raw = true := by
    intro s raw
    unfold meetsSend
    split <;> rfl
  have replies : ∀ s, meetsReply (Discipline.none n) s = true := by
    intro s
    unfold meetsReply
    split
    · rfl
    · simp [reaps]
  have repliesTo : ∀ s raw, meetsReplyTo (Discipline.none n) s raw = true := by
    intro s raw
    unfold meetsReplyTo
    split
    · rfl
    · simp [reaps]
  cases call with
  | tick readable writable =>
    simp only [meets, meetsTick, Bool.and_eq_true, decide_eq_true_eq]
    exact ⟨along_always (fun s i => fires readable s i) _ _, along_always expires _ _⟩
  | _ => simp [meets, meetsSyscall, reaps, kills, interrupts, sends, replies, repliesTo]

theorem follows_none (calls : List (Call n)) : Follows (Discipline.none n) calls :=
  along_always meets_none _ _

end Ubiqos
