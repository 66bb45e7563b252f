import Ubiqos.Kernel.ReadyQueue
import Ubiqos.Kernel.SleepList
import Ubiqos.Lib.Along

/-!
The scheduler's own state: the process table of `kernel/scheduler.c`, column by
column, with the lists threaded through it. Columns that one group of functions
works on stand together in a record of their own. What the scheduler keeps
about text, stacks and directories it neither branches on nor hands out, and is
not here. The logs are history only; no function reads one.
-/

namespace Ubiqos

open Function
open ReadyQueue (Ready readyEnqueue readyRemove readyTakeHighest)
open SleepList (Sleep sleepInsert sleepRemove tickHead takeFirst)

inductive MailEvent (n : Nat) where
  | sent (client server : Pid n)
  | received (server client : Pid n)
  deriving DecidableEq

/-- The message columns. `msg` is what a stopped sender is offering. -/
structure Mail (n : Nat) where
  next : Pid n → Option (Pid n)
  head : Pid n → Option (Pid n)
  tail : Pid n → Option (Pid n)
  serving : Pid n → Option (Pid n)
  dest : Pid n → Option (Pid n)
  msg : Pid n → Msg n
  log : List (MailEvent n)

/-- `recv_timed` and `msg_out`; a null pointer is address zero. -/
structure Recv (n : Nat) where
  timed : Pid n → Bool
  out : Pid n → Addr

/-- `fired` is a watch whose descriptor has become readable, `reaped` the end of
a process with the pulse its parent is to get, if that one is there and asked. -/
inductive PulseEvent (n : Nat) where
  | began (pid : Pid n)
  | ended (pid : Pid n)
  | fired (pulse : Pulse n)
  | reaped (pid : Pid n) (told : Option (Pulse n))
  | accepted (pulse : Pulse n)
  | taken (pulse : Pulse n)
  | disarmed (pid : Pid n)
  deriving DecidableEq

structure Pulses (n : Nat) where
  ring : Compact.Packed (Pulse n)
  log : List (PulseEvent n)

/-- `wait_path` and `wait_pid`. -/
structure Wait (n : Nat) where
  path : Pid n → Int
  pid : Pid n → Int

inductive Outside (n : Nat) where
  | ioCloseAll (pid : Pid n)
  | wifiForgetPid (pid : Pid n)
  | moddirUnlink (module : Module)
  | tlsfFree (block : Addr)

structure Life (n : Nat) where
  module : Pid n → Option Module
  memBase : Pid n → Addr
  codeBase : Pid n → Addr
  allocs : Pid n → List Addr
  parent : Pid n → Option (Pid n)
  childPulse : Pid n → U32
  endReason : Pid n → U32
  outside : List (Outside n)

structure Intr (n : Nat) where
  pulse : Pid n → U32
  deadline : Pid n → U32

structure Kernel (n : Nat) where
  current : Pid n
  state : Pid n → ProcState
  a0 : Pid n → U32
  ready : Ready n
  sleep : Sleep n
  mail : Mail n
  recv : Recv n
  store : Addr → Msg n
  pulses : Pulses n
  arms : Fin 8 → Arm n
  wait : Wait n
  life : Life n
  intr : Intr n
  ticks : U32

def maxPulses : Nat := 24
def intrGraceTicks : U32 := 500
def prioDefault : Level := 16
def endExited : U32 := 0
def endKilled : U32 := 1
def endFaulted : U32 := 2

section Boot
variable (n : Nat) [NeZero n]

/-- `ubiqos_scheduler_init` on the zeroed table. The fields it does not set keep
their zeroes, so a link reads as process zero until its slot is first used. -/
def schedulerInit : Kernel n where
  current := 0
  state := update (fun _ => .free) 0 .running
  a0 := fun _ => 0
  ready :=
    { head := fun _ => none
      tail := fun _ => none
      bitmap := 0
      next := fun _ => none
      priority := update (fun _ => prioDefault) 0 0
      log := [] }
  sleep := { head := none, next := fun _ => none, delta := fun _ => 0, log := [] }
  mail :=
    { next := fun _ => some 0
      head := fun _ => some 0
      tail := fun _ => some 0
      serving := fun _ => some 0
      dest := fun _ => some 0
      msg := fun _ => ⟨0, 0, 0, 0⟩
      log := [] }
  recv := { timed := fun _ => false, out := fun _ => 0 }
  store := fun _ => ⟨0, 0, 0, 0⟩
  pulses := { ring := { slot := fun _ => ⟨0, 0, 0, 0⟩, count := 0 }, log := [] }
  arms := fun _ => ⟨0, 0, 0⟩
  wait := { path := fun _ => 0, pid := fun _ => 0 }
  life :=
    { module := fun _ => none
      memBase := fun _ => 0
      codeBase := fun _ => 0
      allocs := fun _ => []
      parent := fun _ => some 0
      childPulse := fun _ => 0
      endReason := fun _ => 0
      outside := [] }
  intr := { pulse := fun _ => 0, deadline := fun _ => 0 }
  ticks := 0

end Boot

/-- The slots `for (i = 1; i < MAX_PROCESSES; i++)` visits, in order. -/
def slots (n : Nat) [NeZero n] : List (Pid n) := (List.finRange n).filter (fun pid => pid ≠ 0)

theorem mem_slots {n : Nat} [NeZero n] {pid : Pid n} : pid ∈ slots n ↔ pid ≠ 0 := by
  simp [slots]

theorem slots_nodup (n : Nat) [NeZero n] : (slots n).Nodup := (List.nodup_finRange n).filter _

variable {n : Nat}

def setState (s : Kernel n) (pid : Pid n) (state : ProcState) : Kernel n :=
  { s with state := update s.state pid state }

/-- `state = PROC_STATE_READY; ready_enqueue(pid)`, as a dozen places write it. -/
def makeReady (s : Kernel n) (pid : Pid n) : Kernel n :=
  { s with state := update s.state pid .ready, ready := readyEnqueue s.ready pid }

def answer (s : Kernel n) (pid : Pid n) (value : U32) : Kernel n :=
  { s with a0 := update s.a0 pid value }

end Ubiqos

/-!
The functions of `kernel/scheduler.c`, in its order and under its names. A call
that may block or fail returns what the C function returns beside the new
state. A loop over the table is a fold over its slots; a loop that only clears
a field of the slots it matches is written as that field's new column.
-/

namespace Ubiqos

open Function
open ReadyQueue (readyEnqueue readyRemove readyTakeHighest)
open SleepList (sleepInsert sleepRemove tickHead takeFirst)

variable {n : Nat}

def isModule (s : Kernel n) (raw : Int) : Bool :=
  match pidOf n raw with
  | none => false
  | some pid => (s.life.module pid).isSome

def blockOnRead (s : Kernel n) (path : Int) : Kernel n :=
  { setState s s.current .waitRead with
    wait := { s.wait with path := update s.wait.path s.current path } }

def blockOnWrite (s : Kernel n) (path : Int) : Kernel n :=
  { setState s s.current .waitWrite with
    wait := { s.wait with path := update s.wait.path s.current path } }

def blockOnChild (s : Kernel n) (raw : Int) : Kernel n × Bool :=
  match pidOf n raw with
  | none => (s, false)
  | some pid =>
    if s.state pid = .free then (s, false)
    else
      ({ setState s s.current .waitChild with
         wait := { s.wait with pid := update s.wait.pid s.current raw } }, true)

def setPriority [NeZero n] (s : Kernel n) (prio : U32) : Kernel n × U32 :=
  if s.current = 0 then (s, 0)
  else
    let was := BitVec.ofNat 32 (s.ready.priority s.current)
    if prio = 0 then (s, was)
    else
      let level : Level := if inside : prio.toNat < 32 then ⟨prio.toNat, inside⟩ else 31
      ({ s with ready := ReadyQueue.setPriority s.ready s.current level }, was)

def sleepBegin (s : Kernel n) (ticks : U32) : Kernel n :=
  { setState s s.current .sleeping with sleep := sleepInsert s.sleep s.current ticks }

def timeOut (s : Kernel n) (pid : Pid n) : Kernel n :=
  if s.recv.timed pid then
    { s with
      recv := { timed := update s.recv.timed pid false, out := update s.recv.out pid 0 }
      a0 := update s.a0 pid recvTimeout }
  else s

def rouse (s : Kernel n) (pid : Pid n) : Kernel n :=
  makeReady (timeOut { s with sleep := takeFirst s.sleep pid } pid) pid

def rouseDue : Nat → Kernel n → Kernel n
  | 0, s => s
  | fuel + 1, s =>
    match s.sleep.head with
    | none => s
    | some pid => if s.sleep.delta pid = 0 then rouseDue fuel (rouse s pid) else s

def sleepTick (s : Kernel n) : Kernel n :=
  rouseDue (n + 1) { s with sleep := tickHead s.sleep }

/-- `alloc_from`, given the block the pool found, if it found one. -/
def memAlloc [NeZero n] (s : Kernel n) (size : U32) (block : Option Addr) : Kernel n × Addr :=
  if size = 0 ∨ s.current = 0 then (s, 0)
  else
    match block with
    | none => (s, 0)
    | some header =>
      let own := header :: s.life.allocs s.current
      ({ s with life := { s.life with allocs := update s.life.allocs s.current own } },
        header + 16)

def memFree (s : Kernel n) (pointer : Addr) : Kernel n × U32 :=
  if pointer = 0 then (s, 0)
  else
    let header := pointer - 16
    if header ∈ s.life.allocs s.current then
      let own := (s.life.allocs s.current).erase header
      ({ s with
         life :=
           { s.life with
             allocs := update s.life.allocs s.current own
             outside := .tlsfFree header :: s.life.outside } }, 0)
    else (s, failed)

def pulseInto (s : Kernel n) (out : Addr) (pulse : Pulse n) : Kernel n :=
  { s with store := update s.store out ⟨pulse.type, pulse.value, 0, pulse.origin⟩ }

def note (s : Kernel n) (event : PulseEvent n) : Kernel n :=
  { s with pulses := { s.pulses with log := event :: s.pulses.log } }

def pulseTake (s : Kernel n) (pid : Pid n) (out : Addr) : Option (Kernel n) :=
  match Compact.find s.pulses.ring (fun pulse => pulse.dest = pid) with
  | none => none
  | some index =>
    let pulse := s.pulses.ring.slot index
    let s := pulseInto s out pulse
    some { s with
      pulses :=
        { ring := Compact.removeAt s.pulses.ring index
          log := .taken pulse :: s.pulses.log } }

/-- A receiver with a deadline is on the sleep list as well, and comes off it
before anything else can wake it. -/
def unTime (s : Kernel n) (pid : Pid n) : Kernel n :=
  if s.recv.timed pid then
    { s with
      sleep := sleepRemove s.sleep pid
      recv := { s.recv with timed := update s.recv.timed pid false } }
  else s

def pulseHand (s : Kernel n) (dest : Pid n) (pulse : Pulse n) : Kernel n :=
  let s := unTime s dest
  let s := pulseInto s (s.recv.out dest) pulse
  let s := { s with recv := { s.recv with out := update s.recv.out dest 0 } }
  let s := note (note s (.accepted pulse)) (.taken pulse)
  makeReady (answer s dest 0) dest

def pulseQueue (s : Kernel n) (pulse : Pulse n) : Kernel n :=
  { s with
    pulses :=
      { ring := Compact.push s.pulses.ring pulse
        log := .accepted pulse :: s.pulses.log } }

def pulseDeliver (s : Kernel n) (raw : Int) (origin : Pid n) (type value : U32) :
    Kernel n × Bool :=
  match pidOf n raw with
  | none => (s, false)
  | some dest =>
    let pulse : Pulse n := ⟨dest, origin, type, value⟩
    if s.state dest = .free then (s, false)
    else if s.state dest = .waitRecv then (pulseHand s dest pulse, true)
    else if maxPulses ≤ s.pulses.ring.count then (s, false)
    else (pulseQueue s pulse, true)

def pulseSend (s : Kernel n) (raw : Int) (type value : U32) : Kernel n × Bool :=
  pulseDeliver s raw s.current type value

section Slots
variable [NeZero n]

def clearArm (s : Kernel n) (i : Fin 8) : Kernel n :=
  { s with arms := update s.arms i { s.arms i with pid := 0 } }

def wakeReader (readable writable : Int → Pid n → Bool) (s : Kernel n) (i : Pid n) : Kernel n :=
  match s.state i with
  | .waitRead => if readable (s.wait.path i) i then makeReady s i else s
  | .waitWrite => if writable (s.wait.path i) i then makeReady s i else s
  | _ => s

def Arm.pulse (arm : Arm n) : Pulse n := ⟨arm.pid, 0, arm.type, BitVec.ofInt 32 arm.path⟩

def fireArm (readable : Int → Pid n → Bool) (s : Kernel n) (i : Fin 8) : Kernel n :=
  let arm := s.arms i
  if arm.pid = 0 then s
  else if s.state arm.pid = .free then clearArm s i
  else if readable arm.path arm.pid then
    let s := note s (.fired arm.pulse)
    clearArm (pulseDeliver s (arm.pid : Nat) 0 arm.type (BitVec.ofInt 32 arm.path)).1 i
  else s

def wakeReaders (readable writable : Int → Pid n → Bool) (s : Kernel n) : Kernel n :=
  let s := (slots n).foldl (wakeReader readable writable) s
  (List.finRange 8).foldl (fireArm readable) s

def armRead (s : Kernel n) (path : Int) (type : U32) : Kernel n × Bool :=
  match (List.finRange 8).find? (fun i => (s.arms i).pid = s.current ∧ (s.arms i).path = path) with
  | some i =>
    if type = 0 then (clearArm s i, true)
    else ({ s with arms := update s.arms i { s.arms i with type := type } }, true)
  | none =>
    if type = 0 then (s, true)
    else
      match (List.finRange 8).find? (fun i => (s.arms i).pid = 0) with
      | none => (s, false)
      | some i => ({ s with arms := update s.arms i ⟨s.current, path, type⟩ }, true)

def armsDropFor (s : Kernel n) (pid : Pid n) : Kernel n :=
  { s with
    arms := fun i => if (s.arms i).pid = pid then { s.arms i with pid := 0 } else s.arms i }

def disarmReads (s : Kernel n) : Kernel n × U32 :=
  let watches := ((List.finRange 8).filter (fun i => (s.arms i).pid = s.current)).length
  let dropped : Pulse n → Bool := fun pulse => pulse.dest = s.current ∧ pulse.origin = 0
  let ring := Compact.sweep dropped s.pulses.ring
  let s' := armsDropFor s s.current
  ({ s' with pulses := { ring := ring, log := .disarmed s.current :: s.pulses.log } },
    BitVec.ofNat 32 (watches + (s.pulses.ring.count - ring.count)))

def pulseDropFor (s : Kernel n) (pid : Pid n) : Kernel n :=
  { s with
    pulses :=
      { ring := Compact.sweep (fun pulse => pulse.dest = pid) s.pulses.ring
        log := .ended pid :: s.pulses.log } }

def msgHand (s : Kernel n) (server : Pid n) (me : Pid n) : Kernel n :=
  let s := unTime s server
  let s :=
    { s with
      store := update s.store (s.recv.out server) (s.mail.msg me)
      recv := { s.recv with out := update s.recv.out server 0 }
      mail :=
        { s.mail with
          serving := update s.mail.serving server (some me)
          log := .received server me :: s.mail.log } }
  makeReady (answer s server me.word) server

def msgQueue (s : Kernel n) (server me : Pid n) : Kernel n :=
  { s with
    mail :=
      match s.mail.tail server with
      | none =>
        { s.mail with
          head := update s.mail.head server (some me)
          tail := update s.mail.tail server (some me) }
      | some last =>
        { s.mail with
          next := update s.mail.next last (some me)
          tail := update s.mail.tail server (some me) } }

def msgOffer (s : Kernel n) (server : Pid n) (m : Msg n) : Kernel n :=
  let me := s.current
  { s with
    mail :=
      { s.mail with
        msg := update s.mail.msg me { m with sender := me }
        next := update s.mail.next me none
        dest := update s.mail.dest me (some server)
        log := .sent me server :: s.mail.log } }

def msgSend (s : Kernel n) (raw : Int) (m : Option (Msg n)) : Kernel n × Bool :=
  match pidOf n raw, m with
  | some server, some m =>
    if s.state server = .free then (s, false)
    else
      let me := s.current
      let s := msgOffer s server m
      let s := if s.state server = .waitRecv then msgHand s server me else msgQueue s server me
      (setState s me .waitReply, true)
  | _, _ => (s, false)

def msgTake (s : Kernel n) (client : Pid n) (out : Addr) : Kernel n :=
  let me := s.current
  let rest := s.mail.next client
  { s with
    store := update s.store out (s.mail.msg client)
    mail :=
      { s.mail with
        head := update s.mail.head me rest
        tail := if rest = none then update s.mail.tail me none else s.mail.tail
        next := update s.mail.next client none
        serving := update s.mail.serving me (some client)
        log := .received me client :: s.mail.log } }

/-- `none` is the C's `-1`: the caller has been put to sleep. -/
def msgReceiveTmo (s : Kernel n) (out : Addr) (ms : U32) : Kernel n × Option U32 :=
  let me := s.current
  match s.mail.head me with
  | some client => (msgTake s client out, some client.word)
  | none =>
    match pulseTake s me out with
    | some s => (s, some 0)
    | none =>
      if ms = 0 then (s, some recvTimeout)
      else
        let s := { setState s me .waitRecv with
          recv := { s.recv with out := update s.recv.out me out } }
        if ms = timeoutForever then (s, none)
        else
          ({ s with
             sleep := sleepInsert s.sleep me ms
             recv := { s.recv with timed := update s.recv.timed me true } }, none)

def msgReceive (s : Kernel n) (out : Addr) : Kernel n × Option U32 :=
  msgReceiveTmo s out timeoutForever

def setServing (s : Kernel n) (pid : Pid n) (client : Option (Pid n)) : Kernel n :=
  { s with mail := { s.mail with serving := update s.mail.serving pid client } }

def setDest (s : Kernel n) (pid : Pid n) (server : Option (Pid n)) : Kernel n :=
  { s with mail := { s.mail with dest := update s.mail.dest pid server } }

def release (s : Kernel n) (client : Pid n) : Kernel n :=
  if s.state client = .waitReply then makeReady (answer s client failed) client else s

/-- The queue of a dying server, one sender at a time. Each visit clears the
link it came through, so even a damaged queue ends within `n + 1` visits. -/
def unlinkQueue : Nat → Kernel n → Option (Pid n) → Kernel n
  | 0, s, _ => s
  | _ + 1, s, none => s
  | fuel + 1, s, some client =>
    let rest := s.mail.next client
    let s := { s with mail := { s.mail with next := update s.mail.next client none } }
    unlinkQueue fuel (release s client) rest

def unlinkAside (pid : Pid n) (s : Kernel n) (i : Pid n) : Kernel n :=
  if s.state i = .waitReply ∧ s.mail.dest i = some pid then release (setDest s i none) i else s

def emptyQueue (s : Kernel n) (pid : Pid n) : Kernel n :=
  { s with
    mail :=
      { s.mail with
        head := update s.mail.head pid none
        tail := update s.mail.tail pid none } }

def unlinkServing (s : Kernel n) (pid : Pid n) : Kernel n :=
  match s.mail.serving pid with
  | none => s
  | some client => release (setServing s pid none) client

def msgUnlinkAll (s : Kernel n) (pid : Pid n) : Kernel n :=
  let s := emptyQueue (unlinkQueue (n + 1) s (s.mail.head pid)) pid
  unlinkServing ((slots n).foldl (unlinkAside pid) s) pid

def wakeWaiter (pid : Pid n) (s : Kernel n) (i : Pid n) : Kernel n :=
  if s.state i = .waitChild ∧ s.wait.pid i = (pid : Nat) then makeReady s i else s

def wakeWaiters (s : Kernel n) (pid : Pid n) : Kernel n :=
  (List.finRange n).foldl (wakeWaiter pid) s

/-- Paths, sockets, the module link and every block go back. The socket server
that only some boards have is told as the radio is and left out. -/
def handBack (s : Kernel n) (pid : Pid n) : Kernel n :=
  let unlink := (s.life.module pid).toList.map Outside.moddirUnlink
  let blocks := (s.life.allocs pid).map Outside.tlsfFree
  let code := if s.life.codeBase pid = 0 then [] else [Outside.tlsfFree (s.life.codeBase pid)]
  let calls := [.ioCloseAll pid, .wifiForgetPid pid] ++ unlink ++ blocks ++
    [.tlsfFree (s.life.memBase pid)] ++ code
  { s with
    life :=
      { s.life with
        allocs := update s.life.allocs pid []
        codeBase := update s.life.codeBase pid 0
        memBase := update s.life.memBase pid 0
        outside := calls.reverse ++ s.life.outside } }

def orphan (s : Kernel n) (pid : Pid n) : Kernel n :=
  { s with
    life :=
      { s.life with
        parent := fun i => if i ≠ 0 ∧ s.life.parent i = some pid then none else s.life.parent i } }

def endNote (s : Kernel n) (pid parent : Pid n) : Pulse n :=
  ⟨parent, 0, s.life.childPulse parent, s.life.endReason pid <<< 16 ||| (pid.word &&& 0xffff)⟩

def supervisor (s : Kernel n) (pid : Pid n) : Option (Pid n) :=
  match s.life.parent pid with
  | none => none
  | some parent =>
    if parent ≠ 0 ∧ s.state parent ≠ .free ∧ s.life.childPulse parent ≠ 0 then some parent
    else none

def noParent (s : Kernel n) (pid : Pid n) : Kernel n :=
  { s with life := { s.life with parent := update s.life.parent pid none } }

def tellParent (s : Kernel n) (pid : Pid n) : Kernel n :=
  let told := supervisor s pid
  let s := noParent s pid
  match told with
  | none => note s (.reaped pid none)
  | some parent =>
    let pulse := endNote s pid parent
    (pulseDeliver (note s (.reaped pid pulse)) (parent : Nat) 0 pulse.type pulse.value).1

def reap (s : Kernel n) (pid : Pid n) : Kernel n :=
  let s := { s with sleep := sleepRemove s.sleep pid }
  let s := msgUnlinkAll s pid
  let s := armsDropFor (pulseDropFor s pid) pid
  let s := setState (handBack s pid) pid .free
  tellParent (orphan (wakeWaiters s pid) pid) pid

def setEndReason (s : Kernel n) (pid : Pid n) (reason : U32) : Kernel n :=
  { s with life := { s.life with endReason := update s.life.endReason pid reason } }

def processExit (s : Kernel n) : Kernel n :=
  if s.current = 0 then s else reap s s.current

def processFaultExit (s : Kernel n) : Kernel n :=
  if s.current = 0 then s else reap (setEndReason s s.current endFaulted) s.current

def processChildPulse (s : Kernel n) (type : U32) : Kernel n :=
  { s with life := { s.life with childPulse := update s.life.childPulse s.current type } }

/-- A client that is stopped on a server may not be taken apart while the
server can still write to its memory, so it becomes a zombie. -/
def killWaiting (s : Kernel n) (pid : Pid n) : Kernel n :=
  let s := { s with sleep := sleepRemove s.sleep pid }
  wakeWaiters (setState s pid .zombie) pid

def killNow (s : Kernel n) (pid : Pid n) : Kernel n :=
  let s := if s.state pid = .ready then { s with ready := readyRemove s.ready pid } else s
  reap s pid

def processKill (s : Kernel n) (raw : Int) : Kernel n × Bool :=
  match pidOf n raw with
  | none => (s, false)
  | some pid =>
    if s.state pid = .free ∨ s.state pid = .zombie ∨ s.life.module pid = none then (s, false)
    else
      let s := setEndReason s pid endKilled
      if s.state pid = .waitReply then (killWaiting s pid, true) else (killNow s pid, true)

def msgReply (s : Kernel n) (status : U32) : Kernel n × Bool :=
  let me := s.current
  match s.mail.serving me with
  | none => (s, false)
  | some client =>
    let s := setServing s me none
    if s.state client = .zombie then (reap s client, true)
    else if s.state client = .waitReply then (makeReady (answer s client status) client, true)
    else (s, true)

/-- `if (msg_serving == pid) msg_serving = -1`. -/
def stopServing (s : Kernel n) (pid : Pid n) : Kernel n :=
  if s.mail.serving s.current = some pid then setServing s s.current none else s

def msgReplyTo (s : Kernel n) (raw : Int) (status : U32) : Kernel n × Bool :=
  match pidOf n raw with
  | none => (s, false)
  | some pid =>
    if s.state pid = .zombie then (reap (stopServing s pid) pid, true)
    else if s.state pid ≠ .waitReply then (s, false)
    else if s.mail.dest pid ≠ some s.current then (s, false)
    else
      let s := setDest (stopServing s pid) pid none
      (makeReady (answer s pid status) pid, true)

def intrCatch (s : Kernel n) (type : U32) : Kernel n × Bool :=
  if s.current = 0 then (s, false)
  else ({ s with intr := { s.intr with pulse := update s.intr.pulse s.current type } }, true)

def setDeadline (s : Kernel n) (pid : Pid n) (deadline : U32) : Kernel n :=
  { s with intr := { s.intr with deadline := update s.intr.deadline pid deadline } }

def intrRequest (s : Kernel n) (raw : Int) : Kernel n × Bool :=
  match pidOf n raw with
  | none => (s, false)
  | some pid =>
    if s.state pid = .free ∨ s.intr.pulse pid = 0 ∨ 0 ≤ (s.intr.deadline pid).toInt then (s, false)
    else
      let deadline := s.ticks + intrGraceTicks
      let s := setDeadline s pid (if deadline = 0 then 1 else deadline)
      ((pulseDeliver s (pid : Nat) 0 (s.intr.pulse pid) 0).1, true)

def overdue (s : Kernel n) (i : Pid n) : Bool :=
  s.state i ≠ .free ∧ s.intr.pulse i ≠ 0 ∧ 0 < (s.intr.deadline i).toInt ∧
    0 ≤ (s.ticks - s.intr.deadline i).toInt

def intrExpire (s : Kernel n) (i : Pid n) : Kernel n :=
  if overdue s i then (processKill (setDeadline s i failed) (i : Nat)).1 else s

def intrTick (s : Kernel n) : Kernel n := (slots n).foldl intrExpire s

def freeSlot (s : Kernel n) : Option (Pid n) :=
  (slots n).find? (fun i => s.state i = .free)

def begin (s : Kernel n) (slot : Pid n) (module : Option Module) (mem code : Addr)
    (parent : Option (Pid n)) (priority : Level) : Kernel n :=
  let s :=
    { s with
      life :=
        { s.life with
          parent := update s.life.parent slot parent
          childPulse := update s.life.childPulse slot 0
          endReason := update s.life.endReason slot endExited
          module := update s.life.module slot module
          memBase := update s.life.memBase slot mem
          codeBase := update s.life.codeBase slot code
          allocs := update s.life.allocs slot [] }
      mail :=
        { s.mail with
          next := update s.mail.next slot none
          head := update s.mail.head slot none
          tail := update s.mail.tail slot none
          serving := update s.mail.serving slot none
          dest := update s.mail.dest slot none }
      recv := { timed := update s.recv.timed slot false, out := update s.recv.out slot 0 }
      intr :=
        { pulse := update s.intr.pulse slot 0
          deadline := update s.intr.deadline slot failed }
      sleep := { s.sleep with next := update s.sleep.next slot none }
      ready := ReadyQueue.setPriority s.ready slot priority }
  makeReady (note s (.began slot)) slot

/-- `code_base` is the one field a kernel thread inherits from the slot. -/
def kernelThread (s : Kernel n) (mem : Option Addr) (priority : Level) : Kernel n × Option (Pid n) :=
  match freeSlot s, mem with
  | some slot, some mem =>
    (begin s slot none mem (s.life.codeBase slot) none priority, some slot)
  | _, _ => (s, none)

inductive Refusal where
  | running | noSlot | noMemory
  deriving DecidableEq

def alreadyRunning (s : Kernel n) (module : Module) : Bool :=
  !module.reentrant ∧ (slots n).any (fun i => s.state i ≠ .free ∧ s.life.module i = some module)

/-- `mem` and `code` are what the pool answers for the data area and for the
copy of the image, which only some modules need. -/
def createProcess (s : Kernel n) (module : Module) (parent : Int) (mem code : Option Addr) :
    Kernel n × Except Refusal (Pid n) :=
  if alreadyRunning s module then (s, .error .running)
  else
    match freeSlot s, mem with
    | none, _ => (s, .error .noSlot)
    | some _, none => (s, .error .noMemory)
    | some slot, some mem =>
      let owner := if isModule s parent then pidOf n parent else none
      let priority :=
        match owner with
        | some parent => s.ready.priority parent
        | none => prioDefault
      if module.needsCopy then
        match code with
        | none =>
          ({ s with life := { s.life with outside := .tlsfFree mem :: s.life.outside } },
            .error .noMemory)
        | some copy => (begin s slot (some module) mem copy owner priority, .ok slot)
      else (begin s slot (some module) mem 0 owner priority, .ok slot)

def processCreateFor (s : Kernel n) (module : Module) (parent : Int) (mem code : Option Addr) :
    Kernel n × Except Refusal (Pid n) :=
  match createProcess s module parent mem code with
  | (s, .ok slot) => (s, .ok slot)
  | (s, .error refusal) =>
    ({ s with life := { s.life with outside := .moddirUnlink module :: s.life.outside } },
      .error refusal)

end Slots

def yield (s : Kernel n) : Kernel n :=
  if s.state s.current = .running then makeReady s s.current else s

def switch (s : Kernel n) : Kernel n :=
  let s := yield s
  match readyTakeHighest s.ready with
  | none => s
  | some (next, ready) =>
    { s with ready := ready, current := next, state := update s.state next .running }

end Ubiqos

/-!
The trap handler of `kernel/syscalls.c`, as far as it reaches the scheduler. A
call is what the running process, a kernel thread or the timer asks for; the
whole machine is a fold of calls over the state `schedulerInit` leaves. What
drivers and memory pools answer comes with the call: nothing is assumed of it.
The idle process makes no system calls, so what is asked in its name changes
nothing, except that it creates the first processes.

A process that names itself the foreground of its own pipe and then interrupts
it is reaped inside its own trap, and runs on in an empty slot. `step` does not
take that call, `stepAll` does; the two agree on every call its caller survives.

A call is one step. For `ubiqos_lwip_serve` that is an assumption: it makes
these calls from a thread, with interrupts on, so a tick can come between.
-/

namespace Ubiqos

open Function

inductive Call (n : Nat) where
  | send (dest : Int) (m : Option (Msg n))
  | receive (out : Addr)
  | receiveTmo (out : Addr) (ms : U32)
  | reply (status : U32)
  | replyTo (pid : Int) (status : U32)
  | pulse (dest : Int) (type value : U32)
  | arm (path : Int) (type : U32)
  | disarm
  | sleep (ms : U32)
  | wait (pid : Int)
  | readBlocks (path : Int)
  | writeBlocks (path : Int)
  | setPrio (prio : U32)
  | childPulse (type : U32)
  | catchIntr (type : U32)
  | kill (victim : Int) (outright : Bool)
  | interrupt (victim : Int)
  | alloc (size : U32) (block : Option Addr)
  | free (pointer : Addr)
  | exit
  | fault
  | create (module : Module) (parent : Int) (mem code : Option Addr)
  | kernelThread (mem : Option Addr) (priority : Level)
  | tick (readable writable : Int → Pid n → Bool)

variable {n : Nat} [NeZero n]

def returns (s : Kernel n) (value : U32) : Kernel n × Bool := (answer s s.current value, false)

/-- `0` or `-1`. -/
def status (done : Bool) : U32 := if done then 0 else failed

def received : Kernel n × Option U32 → Kernel n × Bool
  | (s, some value) => returns s value
  | (s, none) => (s, true)

def interruptNow (s : Kernel n) (victim : Int) : Kernel n × Bool :=
  match intrRequest s victim with
  | (s, true) => (s, true)
  | (s, false) => processKill s victim

/-- `ubiqos_io_interrupt_path` finds the caller itself in the foreground, and it
catches no interrupts. -/
def endsCaller (s : Kernel n) (victim : Int) : Bool :=
  victim = (s.current : Nat) ∧ (s.life.module s.current).isSome ∧ (intrRequest s victim).2 = false

/-- What the running process asks for. The flag is whether the handler goes on
to `ubiqos_switch`. -/
def syscall (s : Kernel n) : Call n → Kernel n × Bool
  | .send dest m =>
    match msgSend s dest m with
    | (s, true) => (s, true)
    | (s, false) => returns s failed
  | .receive out => received (msgReceive s out)
  | .receiveTmo out ms => received (msgReceiveTmo s out ms)
  | .reply value =>
    match msgReply s value with
    | (s, done) => returns s (status done)
  | .replyTo pid value =>
    match msgReplyTo s pid value with
    | (s, done) => returns s (status done)
  | .pulse dest type value =>
    match pulseSend s dest type value with
    | (s, done) => returns s (status done)
  | .arm path type =>
    match armRead s path type with
    | (s, done) => returns s (status done)
  | .disarm =>
    match disarmReads s with
    | (s, count) => returns s count
  | .sleep ms =>
    let s := answer s s.current 0
    if ms = 0 then (s, true) else (sleepBegin s ms, true)
  | .wait pid =>
    match blockOnChild s pid with
    | (s, blocked) => (answer s s.current 0, blocked)
  | .readBlocks path => (blockOnRead s path, true)
  | .writeBlocks path => (blockOnWrite s path, true)
  | .setPrio prio =>
    match setPriority s prio with
    | (s, was) => returns s was
  | .childPulse type => returns (processChildPulse s type) 0
  | .catchIntr type =>
    match intrCatch s type with
    | (s, done) => returns s (status done)
  | .kill victim outright =>
    if victim = (s.current : Nat) then (processExit s, true)
    else if outright then
      match processKill s victim with
      | (s, done) => returns s (status done)
    else
      match interruptNow s victim with
      | (s, done) => returns s (status done)
  | .interrupt victim =>
    -- a process that ends itself so is left to `stepAll`
    if endsCaller s victim then (s, false) else ((interruptNow s victim).1, false)
  | .alloc size block =>
    match memAlloc s size block with
    | (s, pointer) => returns s (BitVec.ofNat 32 pointer)
  | .free pointer =>
    match memFree s pointer with
    | (s, done) => returns s done
  | .exit => (processExit s, true)
  | .fault =>
    -- a fault in a kernel thread stops the machine
    if (s.life.module s.current).isSome then (processFaultExit s, true) else (s, false)
  | _ => (s, false)

def trap (s : Kernel n) : Call n → Kernel n × Bool
  | .create module parent mem code => ((processCreateFor s module parent mem code).1, false)
  | .kernelThread mem priority => ((kernelThread s mem priority).1, false)
  | .tick readable writable =>
    let s := { s with ticks := s.ticks + 1 }
    (intrTick (sleepTick (wakeReaders readable writable s)), true)
  | call => if s.current = 0 then (s, false) else syscall s call

def step (s : Kernel n) (call : Call n) : Kernel n :=
  match trap s call with
  | (s, true) => switch s
  | (s, false) => s

def run (calls : List (Call n)) : Kernel n := calls.foldl step (schedulerInit n)

/-- With the call that ends its own caller: nothing is switched to, and the
process runs on. -/
def stepAll (s : Kernel n) : Call n → Kernel n
  | .interrupt victim => if s.current = 0 then s else (interruptNow s victim).1
  | call => step s call

def runAll (calls : List (Call n)) : Kernel n := calls.foldl stepAll (schedulerInit n)

def survives (s : Kernel n) : Call n → Bool
  | .interrupt victim => !endsCaller s victim
  | _ => true

theorem stepAll_eq {s : Kernel n} {call : Call n} (outlived : survives s call = true) :
    stepAll s call = step s call := by
  cases call with
  | interrupt victim =>
    have other : endsCaller s victim = false := by simpa [survives] using outlived
    by_cases idle : s.current = 0
    · simp [stepAll, step, trap, idle]
    · simp [stepAll, step, trap, syscall, idle, other]
  | _ => rfl

end Ubiqos
