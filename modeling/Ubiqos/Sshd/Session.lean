import Ubiqos.Sshd.Wire

/-!
A session of `modules/sshd/sshd.c`: `do_session`, and `send_channel_data` inside
it, which reads packets of its own while the client's window is shut. The session
stops where it waits for the shell, the link or the process table, so that one
step is what it does between two answers.
-/

namespace Ubiqos.Sshd

def CHAN_WINDOW : Nat := 2048
def CHAN_PACKET : Nat := 1024

inductive Reply where
  | kexinit (cookie : List Byte)
  | disconnect (reason : Nat) (why : String)
  | ecdhReply (made : List Byte)
  | newkeys
  | serviceAccept
  | authSuccess
  | authFailure
  | openConfirmation (sender : Nat)
  | openFailure (sender : Nat)
  | channelSuccess (chan : Nat)
  | channelFailure (chan : Nat)
  | windowAdjust (chan given : Nat)
  | channelData (chan : Nat) (data : List Byte)
  | exitStatus (chan : Nat)
  | channelEof (chan : Nat)
  | channelClose (chan : Nat)
  | unimplemented (seq : Nat)
  deriving DecidableEq

inductive Event where
  | sent (reply : Reply)
  | shell                                            -- `start_shell` was asked
  | wrote (bytes : List Byte)                        -- from `tosh`, to the shell's end
  | report (rows cols : Nat) (bytes : List Byte)     -- of a size report, to the shell's end
  -- What was read, for the record: typed bytes and what is left of them, the
  -- channel's first window and what was added to it.
  | typed (d kept : List Byte)
  | opened (window : Nat)
  | granted (more : Nat)
  deriving DecidableEq

/-- The next packet, as `recv_packet` finds it. -/
inductive Arrival where
  | quiet
  | gone
  | packet (seq : Nat) (payload : Memory) (n : Nat)

/-- The other end of a pipe: the room in it, unless nobody reads it any more. -/
abbrev PipeEnd := Option Nat

structure Moment where
  heard : Bool := true            -- a packet's length has come
  goes : Bool := true             -- a send reaches the socket
  said : List Byte := []          -- a read of the shell's output
  alive : Bool := true
  ends : List PipeEnd := []       -- met by each write of `tosh`
  pipe : PipeEnd := some 0        -- met by a size report
  interrupts : List Bool := []    -- for each byte: was there a command to end?
  starts : Bool := true           -- `start_shell`

inductive Place where
  | draining (moved : Bool)
  | sending (rest : List Byte) (echo moved : Bool)
  | checking (moved : Bool)
  | listening (moved : Bool)
  | ended
  deriving DecidableEq

structure Session where
  place : Place
  running : Bool
  idle : Nat
  chan_id : Nat
  chan_window : Nat
  tosh : List Byte
  size_rows : Nat
  size_cols : Nat
  size_pending : Bool
  intr_bytes : Nat
  intr_echo : Bool
  deriving DecidableEq

namespace Session

def enter (chan_id chan_window size_rows size_cols : Nat) : Session :=
  ⟨.listening false, false, 0, chan_id, chan_window, [], size_rows, size_cols, false, 0, false⟩

def go (s : Session) (place : Place) : Session := { s with place := place }

def pass (s : Session) : Session := s.go (if s.running then .draining false else .listening false)

def consumed (c : Byte) (answers : List Bool) : Bool := c == 3 && answers.headD false

def spared : List Byte → List Bool → List Byte
  | [], _ => []
  | c :: d, answers => if consumed c answers then spared d answers.tail else c :: spared d answers.tail

def queue_input (s : Session) : List Byte → List Bool → Session
  | [], _ => s
  | c :: d, answers =>
    if consumed c answers then
      queue_input { s with intr_bytes := s.intr_bytes + 1, intr_echo := true } d answers.tail
    else if CHAN_WINDOW ≤ s.tosh.length then s
    else queue_input { s with tosh := s.tosh ++ [c] } d answers.tail

/-- `ubiqos_writable`: a pipe nobody reads is writable, and the write fails. -/
def writable (e : PipeEnd) : Bool := e != some 0

def write_some (e : PipeEnd) (len : Nat) : Int :=
  if len = 0 || !writable e then 0
  else match e with
    | some room => min room len
    | none => -1

/-- What the shell takes of `tosh`, and what stays there. -/
def pour : List Byte → List PipeEnd → List Byte × List Byte
  | [], _ => ([], [])
  | tosh, [] => ([], tosh)
  | tosh, e :: ends =>
    let k := write_some e tosh.length
    if k ≤ 0 then ([], tosh)
    else
      let (taken, left) := pour (tosh.drop k.toNat) ends
      (tosh.take k.toNat ++ taken, left)

def size_report (rows cols : Nat) : List Byte :=
  ascii ("\x1b[8;" ++ toString rows ++ ";" ++ toString cols ++ "t")

def tell_size (m : Moment) (s : Session) : Session × List Event :=
  if s.tosh.isEmpty && s.size_pending then
    let rep := size_report s.size_rows s.size_cols
    let k := write_some m.pipe rep.length
    ({ s with size_pending := !(writable m.pipe && k == rep.length) },
      if k ≤ 0 then [] else [.report s.size_rows s.size_cols (rep.take k.toNat)])
  else (s, [])

def credit (m : Moment) (given : Nat) (s : Session) : Session × List Event :=
  let given := given + s.intr_bytes
  let s := { s with intr_bytes := 0 }
  if given = 0 then (s, [])
  else if m.goes then (s, [.sent (.windowAdjust s.chan_id given)])
  else (s.go .ended, [])

def feed_shell (m : Moment) (s : Session) : Session × List Event :=
  let (taken, left) := pour s.tosh m.ends
  let (s, told) := tell_size m { s with tosh := left }
  let (s, credited) := credit m taken.length s
  (s, (if taken.isEmpty then [] else [.wrote taken]) ++ told ++ credited)

def crlf (cap : Nat) : List Byte → Byte → Nat → List Byte
  | [], _, _ => []
  | c :: rest, prev, k =>
    if cap < k + 2 then []
    else if c == 0x0a && prev != 0x0d then 0x0d :: c :: crlf cap rest c (k + 2)
    else c :: crlf cap rest c (k + 1)

def send (m : Moment) (s : Session) (reply : Reply) : Session × List Event :=
  if m.goes then (s, [.sent reply]) else (s.go .ended, [])

def channel_data : Reading (Option (List Byte)) := do
  let _ ← r_u32
  let d ← r_str
  let ended ← r_over
  return if ended then none else some d

def adjust (s : Session) : Reading (Session × List Event) := do
  let _ ← r_u32
  let more ← r_u32
  return ({ s with chan_window := (s.chan_window + more) % 2 ^ 32 }, [.granted more])

/-- Typed while `send_channel_data` waits for room: queued, not pushed. -/
def typed_meanwhile (m : Moment) (s : Session) : Reading (Session × List Event) := do
  match ← channel_data with
  | none => return (s, [])
  | some d => return (s.queue_input d m.interrupts, [.typed d (spared d m.interrupts)])

/-- A packet met inside `send_channel_data`. -/
def meanwhile (m : Moment) (s : Session) (msg : Byte) : Reading (Session × List Event) :=
  if msg = 93 then s.adjust
  else if msg = 94 then s.typed_meanwhile m
  else if msg = 97 || msg = 1 then return (s.go .ended, [])
  else return (s, [])

def channel_open (m : Moment) (s : Session) : Reading (Session × List Event) := do
  let type ← r_str
  let sender ← r_u32
  let window ← r_u32
  let _ ← r_u32
  let s := { s with chan_window := window }
  if !r_is type "session" then
    return (s.pass, if m.goes then [.sent (.openFailure sender)] else [])
  let (s, out) := send m { s with chan_id := sender }.pass (.openConfirmation sender)
  return (s, .opened window :: out)

def window_change (s : Session) (cols rows : Nat) (ended : Bool) : Session :=
  if s.running && !ended && 20 ≤ cols && 4 ≤ rows && cols ≤ 1000 && rows ≤ 1000 then
    { s with size_rows := rows, size_cols := cols, size_pending := true }
  else s

def reply_to (m : Moment) (s : Session) (want : Byte) (ok : Bool) : Session × List Event :=
  if want = 0 then (s.pass, [])
  else send m s.pass (if ok then .channelSuccess s.chan_id else .channelFailure s.chan_id)

def channel_request (m : Moment) (s : Session) : Reading (Session × List Event) := do
  let _ ← r_u32
  let type ← r_str
  let want ← r_byte
  if r_is type "pty-req" then return reply_to m s want true
  if r_is type "window-change" then
    let cols ← r_u32
    let rows ← r_u32
    let ended ← r_over
    return reply_to m (s.window_change cols rows ended) want true
  if r_is type "shell" then
    let (s, out) := reply_to m { s with running := m.starts } want m.starts
    return (s, .shell :: out)
  return reply_to m s want false

def channel_data_in (m : Moment) (s : Session) : Reading (Session × List Event) := do
  match ← channel_data with
  | none => return (s.pass, [])
  | some d =>
    let heard := Event.typed d (spared d m.interrupts)
    if s.running && !d.isEmpty then
      let (s, out) := feed_shell m (s.queue_input d m.interrupts).pass
      return (s, heard :: out)
    return (s.pass, [heard])

def global_request (m : Moment) (s : Session) (seq : Nat) : Reading (Session × List Event) := do
  let _ ← r_str
  let want ← r_byte
  return (s.pass, if want ≠ 0 && m.goes then [.sent (.unimplemented seq)] else [])

def handle (m : Moment) (s : Session) (seq : Nat) (msg : Byte) : Reading (Session × List Event) :=
  if msg = 90 then s.channel_open m
  else if msg = 98 then s.channel_request m
  else if msg = 94 then s.channel_data_in m
  else if msg = 93 then s.pass.adjust
  else if msg = 96 || msg = 97 || msg = 1 then return (s.go .ended, [])
  else if msg = 80 then s.global_request m seq
  else return (s.pass, [])

def channel_eof_and_close (m : Moment) (s : Session) : Session × List Event :=
  (s.go .ended, if m.goes then
    [.sent (.exitStatus s.chan_id), .sent (.channelEof s.chan_id), .sent (.channelClose s.chan_id)] else [])

def drain (m : Moment) (s : Session) (moved : Bool) : Session × List Event :=
  let out := m.said.take 512
  if !out.isEmpty then (s.go (.sending (crlf 1024 out 0 0) false moved), [])
  else if s.intr_echo then
    ({ s with intr_echo := false, place := .sending [0x5e, 0x43, 0x0d, 0x0a] true moved }, [])
  else (s.go (.checking moved), [])

def part (rest : List Byte) : Nat := min rest.length CHAN_PACKET

def send_channel_data (m : Moment) (s : Session) (rest : List Byte) (echo moved : Bool) :
    Session × List Event :=
  if rest.isEmpty then (s.go (if echo then .checking moved else .draining true), [])
  else
    send m { s with
      chan_window := s.chan_window - part rest, place := .sending (rest.drop (part rest)) echo moved }
      (.channelData s.chan_id (rest.take (part rest)))

def check (m : Moment) (s : Session) (moved : Bool) : Session × List Event :=
  if moved then feed_shell m (s.go (.listening moved))
  else if 20 ≤ s.idle + 1 then
    if m.alive then feed_shell m ({ s with idle := 0 }.go (.listening moved))
    else channel_eof_and_close m { s with idle := 0 }
  else feed_shell m ({ s with idle := s.idle + 1 }.go (.listening moved))

/-- At a `recv_packet`: the loop's, or the one that waits for the client's window. -/
def waits (s : Session) : Bool :=
  match s.place with
  | .listening _ => true
  | .sending rest _ _ => !rest.isEmpty && s.chan_window < part rest
  | _ => false

def hear (m : Moment) (s : Session) (seq : Nat) (msg : Byte) : Reading (Session × List Event) :=
  match s.place with
  | .listening _ => s.handle m seq msg
  | _ => s.meanwhile m msg

def unheard (s : Session) (gone : Bool) : Session :=
  match s.place with
  | .listening _ => if s.running && !gone then s.pass else s.go .ended
  | _ => s.go .ended

def advance (m : Moment) (s : Session) : Session × List Event :=
  match s.place with
  | .draining moved => s.drain m moved
  | .sending rest echo moved => s.send_channel_data m rest echo moved
  | .checking moved => s.check m moved
  | _ => (s, [])

def step (m : Moment) (a : Arrival) (s : Session) : Session × List Event :=
  if s.waits then
    match a with
    | .packet seq payload n => (s.hear m seq (payload 0) (reader payload n 1)).1
    | .quiet => (s.unheard false, [])
    | .gone => (s.unheard true, [])
  else s.advance m

end Session

end Ubiqos.Sshd
