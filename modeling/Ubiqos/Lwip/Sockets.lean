import Mathlib.Data.BitVec
import Mathlib.Data.List.FinRange
import Mathlib.Logic.Function.Basic

/-!
The sockets of `kernel/lwipsock.c`. What lwIP or the pool answers is an argument of
the function that asks. A chain of buffers is the list of what each of them holds,
and the empty chain stands for none. The calls that leave the table as it is (send,
state, owner, port, peer) and the datagrams are left out.
-/

namespace Ubiqos.Lwip

open Function

abbrev Byte := BitVec 8
abbrev Port := BitVec 16
abbrev Chain := List (List Byte)

def nsock : Nat := 8
def npending : Nat := 4
def tcpMss : Nat := 1460
def tcpWnd : Nat := 2 * tcpMss
def rxring : Nat := tcpWnd

abbrev Slot := Fin nsock

def ownerDead : Int := -2

/-- `sock_t`. A control block of lwIP is known by a number. -/
structure Sock where
  pcb : Option Nat
  udp : Option Nat
  rx : Chain
  owner : Int
  port : Port
  used : Bool
  gone : Bool
  connecting : Bool
  wantPort : Port
  pending : List Slot
  ring : Option (Nat → Byte)
  rhead : Nat
  rcount : Nat

def zeroed : Sock := ⟨none, none, [], 0, 0, false, false, false, 0, [], none, 0, 0⟩

abbrev Table := Slot → Sock

def allocSock (sk : Table) : Option Slot :=
  (List.finRange nsock).find? fun i => !(sk i).used

def Sock.giveRing (s : Sock) (pool : Option (Nat → Byte)) : Sock :=
  { s with ring := pool, rhead := 0, rcount := 0 }

def Sock.free (s : Sock) : Sock :=
  { s with udp := none, ring := none, rcount := 0, rx := [], used := false, pcb := none }

section Stream

/-- A chain's `tot_len` has 16 bits. -/
def totLen (p : Chain) : Nat := p.flatten.length % 2 ^ 16

def copied (buf : Nat → Byte) (start : Nat) (bytes : List Byte) (i : Nat) : Byte :=
  if start ≤ i then (bytes[i - start]?).getD (buf i) else buf i

def ringPut (buf : Nat → Byte) (tail : Nat) (bytes : List Byte) : Nat → Byte :=
  let first := if bytes.length < rxring - tail then bytes.length else rxring - tail
  let buf := copied buf tail (bytes.take first)
  if first < bytes.length then copied buf 0 (bytes.drop first) else buf

def ringTake (buf : Nat → Byte) (head n : Nat) : List Byte :=
  let first := if n < rxring - head then n else rxring - head
  (List.range first).map (fun i => buf (head + i)) ++
    if first < n then (List.range (n - first)).map buf else []

/-- `on_recv`. No buffer means that the peer closed. -/
def Sock.onRecv (s : Sock) (p : Chain) (err : Bool) : Sock :=
  if err then s
  else if p = [] then { s with gone := true }
  else
    match s.ring with
    | some buf =>
      if s.rx = [] ∧ totLen p ≤ rxring - s.rcount then
        { s with
          ring := some (ringPut buf ((s.rhead + s.rcount) % rxring) (p.flatten.take (totLen p)))
          rcount := s.rcount + totLen p }
      else { s with rx := s.rx ++ p }
    | none => { s with rx := s.rx ++ p }

def Sock.onErr (s : Sock) : Sock := { s with pcb := none, gone := true, connecting := false }

def Sock.onConnected (s : Sock) (err : Bool) : Sock :=
  if s.used then { s with connecting := false, gone := s.gone || err } else s

/-- `pbuf_free_header`: a buffer is given back when all of it has been taken. -/
def freeHeader : Chain → Nat → Chain
  | [], _ => []
  | p :: rest, n =>
    if n = 0 then p :: rest
    else if p.length ≤ n then freeHeader rest (n - p.length)
    else p.drop n :: rest

inductive Received
  | bytes (got : List Byte)
  | nothing
  | ended
  deriving DecidableEq

/-- `do_recv`, and how many bytes it reports to lwIP as consumed. -/
def Sock.doRecv (s : Sock) (len : Nat) : Received × Nat × Sock :=
  if !s.used then (.ended, 0, s)
  else if s.rcount ≠ 0 then
    let n := if len < s.rcount then len else s.rcount
    let got := ringTake (s.ring.getD fun _ => 0) s.rhead n
    (.bytes got, if s.pcb.isSome then n else 0,
      { s with rhead := (s.rhead + n) % rxring, rcount := s.rcount - n })
  else if s.rx = [] then (if !s.gone then .nothing else .ended, 0, s)
  else
    let n := min (if len > 0xffff then 0xffff else len) (totLen s.rx)
    (.bytes (s.rx.flatten.take n), if s.pcb.isSome then n else 0, { s with rx := freeHeader s.rx n })

end Stream

/-- One of lwIP's control blocks. Its argument is the slot its callbacks are about,
and nobody is called back once it has been cleared. -/
structure Pcb where
  listening : Bool
  arg : Option Slot
  deriving DecidableEq

def Pcb.letGo (p : Pcb) : Option Pcb := if p.listening then none else some { p with arg := none }

structure Lookup where
  request : Nat
  slot : Slot
  deriving DecidableEq

/-- A call of `tcp_connect`: for which request the socket was, and whose look-up the
address came from. -/
structure Opening (Addr : Type) where
  request : Option Nat
  answered : Nat
  addr : Addr
  port : Port
  deriving DecidableEq

/-- The table and what lwIP keeps of it. The last five fields are history: nothing
that the code does depends on them. -/
structure Net (Addr : Type) where
  sk : Table
  pcbs : Nat → Option Pcb
  made : Nat
  lookups : List Lookup
  alive : Nat → Bool
  handed : Slot → Bool
  current : Slot → Option Nat
  requests : Nat
  ports : Nat → Port
  opened : List (Opening Addr)

def boot (Addr : Type) : Net Addr :=
  ⟨fun _ => zeroed, fun _ => none, 0, [], fun _ => false, fun _ => false, fun _ => none, 0,
    fun _ => 0, []⟩

section Table
variable {Addr : Type} (n : Net Addr)

def Net.take (i : Slot) (s : Sock) : Net Addr :=
  { n with
    sk := update n.sk i { s with used := true }
    handed := update n.handed i false
    current := update n.current i none }

def Net.edit (i : Slot) (f : Sock → Sock) : Net Addr := { n with sk := update n.sk i (f (n.sk i)) }

def Net.freeSock (i : Slot) : Net Addr :=
  { n.edit i Sock.free with
    handed := update n.handed i false
    current := update n.current i none }

def Net.attach (i : Slot) (listening : Bool) : Net Addr :=
  { n.edit i fun s => { s with pcb := some n.made } with
    pcbs := update n.pcbs n.made (some ⟨listening, some i⟩)
    made := n.made + 1 }

def Net.hand (i : Slot) : Net Addr := { n with handed := update n.handed i true }

/-- `on_accept`; when it refuses, lwIP drops what came. -/
def Net.onAccept (server : Slot) (pool : Option (Nat → Byte)) : Net Addr :=
  if npending ≤ (n.sk server).pending.length then n
  else
    match allocSock n.sk with
    | none => n
    | some i =>
      let n := n.take i ((zeroed.giveRing pool))
      let n := n.attach i false
      let n := n.edit i fun s => { s with owner := (n.sk server).owner }
      n.edit server fun s => { s with pending := s.pending ++ [i] }

inductive Outcome
  | noPcb
  | refused
  | started
  deriving DecidableEq

/-- The look-up of `answered` gave the address. -/
def Net.startConnect (i : Slot) (answered : Nat) (addr : Addr) : Outcome → Net Addr
  | .noPcb => n.edit i fun s => { s with connecting := false, gone := true }
  | outcome =>
    let n := { n.attach i false with
      opened := ⟨n.current i, answered, addr, (n.sk i).wantPort⟩ :: n.opened }
    if outcome = .refused then n.edit i fun s => { s with connecting := false, gone := true } else n

def Net.onResolved (lookup : Lookup) (addr : Option Addr) (outcome : Outcome) : Net Addr :=
  let s := n.sk lookup.slot
  if !s.used || !s.connecting then n
  else
    match addr with
    | none => n.edit lookup.slot fun s => { s with connecting := false, gone := true }
    | some addr => n.startConnect lookup.slot lookup.request addr outcome

/-- What `dns_gethostbyname` says at once. -/
inductive Dns (Addr : Type)
  | known (addr : Addr)
  | later
  | unknown

def Net.doConnect (host : List Byte) (port : Port) (owner : Nat) (pool : Option (Nat → Byte))
    (dns : Dns Addr) (outcome : Outcome) : Option Slot × Net Addr :=
  if port = 0 ∨ host = [] then (none, n)
  else
    match allocSock n.sk with
    | none => (none, n)
    | some i =>
      let request := n.requests
      let n := n.take i { zeroed.giveRing pool with
        owner := owner, wantPort := port, connecting := true }
      let n := { n with
        current := update n.current i (some request)
        requests := request + 1
        ports := update n.ports request port }
      match dns with
      | .known addr => (some i, n.startConnect i request addr outcome)
      | .later => (some i, { n with lookups := n.lookups ++ [⟨request, i⟩] })
      | .unknown => (none, n.freeSock i)

def Net.doListen (port : Port) (owner : Nat) (listens : Bool) : Option Slot × Net Addr :=
  match allocSock n.sk with
  | none => (none, n)
  | some i =>
    let n := n.take i zeroed
    if listens then
      (some i, (n.attach i true).edit i fun s => { s with port := port, owner := owner })
    else (none, n.freeSock i)

def Net.doUdp (owner : Nat) (pool : Option (Nat → Byte)) (bound : Option (Nat × Port)) :
    Option Slot × Net Addr :=
  match allocSock n.sk with
  | none => (none, n)
  | some i =>
    let n := n.take i (zeroed.giveRing pool)
    match pool, bound with
    | some _, some (udp, port) =>
      (some i, n.edit i fun s => { s with udp := some udp, owner := owner, port := port })
    | _, _ => (none, n.freeSock i)

def slotOf (i : Nat) : Option Slot := if h : i < nsock then some ⟨i, h⟩ else none

def Net.doAccept (i : Nat) : Option Slot × Net Addr :=
  match slotOf i with
  | none => (none, n)
  | some i =>
    match (n.sk i).used, (n.sk i).pending with
    | true, c :: rest => (some c, n.edit i fun s => { s with pending := rest })
    | _, _ => (none, n)

def Net.shut (i : Slot) : Net Addr :=
  let n := match (n.sk i).pcb with
    | none => n
    | some p => { n with pcbs := update n.pcbs p ((n.pcbs p).bind Pcb.letGo) }
  n.freeSock i

def Net.doClose (i : Nat) : Net Addr :=
  match slotOf i with
  | none => n
  | some i => if (n.sk i).used then n.shut i else n

def Net.forgetPid (pid : Nat) : Net Addr :=
  { n with sk := fun i =>
      if (n.sk i).used ∧ (n.sk i).owner = pid then { n.sk i with owner := ownerDead } else n.sk i }

def Net.reapSlot (i : Slot) : Net Addr :=
  if (n.sk i).used ∧ (n.sk i).owner = ownerDead then n.shut i else n

def Net.reap : Net Addr := (List.finRange nsock).foldl Net.reapSlot n

end Table

inductive Call (Addr : Type)
  | listen (port : Port) (listens : Bool)
  | accept (i : Nat)
  | recv (i len : Nat)
  | close (i : Nat)
  | connect (host : List Byte) (port : Port) (pool : Option (Nat → Byte)) (dns : Dns Addr)
      (outcome : Outcome)
  | udp (pool : Option (Nat → Byte)) (bound : Option (Nat × Port))

/-- A turn of the task that has lwIP, with or without a message, a callback of lwIP, or
a process that starts or ends. -/
inductive Step (Addr : Type)
  | turn
  | serve (caller : Nat) (call : Call Addr)
  | incoming (p : Nat) (pool : Option (Nat → Byte))
  | received (p : Nat) (buffers : Chain)
  | failed (p : Nat)
  | connected (p : Nat)
  | resolved (lookup : Lookup) (addr : Option Addr) (outcome : Outcome)
  | started (pid : Nat)
  | ended (pid : Nat)

section Steps
variable {Addr : Type}

def handOut : Option Slot × Net Addr → Net Addr
  | (some i, n) => n.hand i
  | (none, n) => n

def Net.sockHandle (n : Net Addr) (caller : Nat) : Call Addr → Net Addr
  | .listen port listens => handOut (n.doListen port caller listens)
  | .accept i => handOut (n.doAccept i)
  | .recv i len =>
    match slotOf i with
    | none => n
    | some i => n.edit i fun s => (s.doRecv len).2.2
  | .close i => n.doClose i
  | .connect host port pool dns outcome => handOut (n.doConnect host port caller pool dns outcome)
  | .udp pool bound => handOut (n.doUdp caller pool bound)

def Net.connection (n : Net Addr) (p : Nat) : Option Slot :=
  match n.pcbs p with
  | some ⟨false, arg⟩ => arg
  | _ => none

def Net.step (n : Net Addr) : Step Addr → Net Addr
  | .turn => n.reap
  | .serve caller call => if n.reap.alive caller then n.reap.sockHandle caller call else n.reap
  | .incoming p pool =>
    match n.pcbs p with
    | some ⟨true, some server⟩ => n.onAccept server pool
    | _ => n
  | .received p buffers =>
    match n.connection p with
    | some i => n.edit i fun s => s.onRecv buffers false
    | none => n
  | .failed p =>
    match n.connection p with
    | some i => { n.edit i Sock.onErr with pcbs := update n.pcbs p none }
    | none => n
  | .connected p =>
    match n.connection p with
    | some i => n.edit i fun s => s.onConnected false
    | none => n
  | .resolved lookup addr outcome =>
    if lookup ∈ n.lookups then
      { n with lookups := n.lookups.erase lookup }.onResolved lookup addr outcome
    else n
  | .started pid => { n with alive := update n.alive pid true }
  | .ended pid => { n.forgetPid pid with alive := update n.alive pid false }

def run (steps : List (Step Addr)) : Net Addr := steps.foldl Net.step (boot Addr)

end Steps

end Ubiqos.Lwip
