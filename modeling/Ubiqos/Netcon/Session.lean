import Mathlib.Data.BitVec
import Ubiqos.Lib.Along

/-!
The telnet filter of `modules/netcon/netcon.c`, and the grammar it recognises.
The filter takes one byte at a time and keeps its state in a static variable,
because a command can be split over two packets. The grammar says of a whole
stream what was typed; it begins outside every command.
-/

namespace Ubiqos.Netcon

abbrev Byte := BitVec 8

def IAC : Byte := 255
def DONT : Byte := 254
def DO : Byte := 253
def WONT : Byte := 252
def WILL : Byte := 251
def SB : Byte := 250
def SE : Byte := 240
def optEcho : Byte := 1
def optSga : Byte := 3

def isVerb (c : Byte) : Bool := c == DO || c == DONT || c == WILL || c == WONT

def afterSub : List Byte → List Byte
  | [] => []
  | c :: rest =>
    if c = IAC then
      match rest with
      | [] => []
      | d :: more => if d = SE then more else afterSub more
    else afterSub rest

theorem length_afterSub (stream : List Byte) : (afterSub stream).length ≤ stream.length := by
  fun_induction afterSub stream <;> simp only [List.length_cons, List.length_nil] <;> omega

def plain : List Byte → List Byte
  | [] => []
  | c :: rest =>
    if c = IAC then
      match rest with
      | [] => []
      | d :: more =>
        if d = IAC then IAC :: plain more
        else if d = SB then plain (afterSub more)
        else if isVerb d then plain (more.drop 1)
        else plain more
    else c :: plain rest
termination_by stream => stream.length
decreasing_by
  all_goals simp only [List.length_cons, List.length_drop]
  all_goals try have := length_afterSub more
  all_goals omega

inductive State
  | data
  | iac
  | option
  | sub
  | subIac
  deriving DecidableEq

/-- The static variables of `strip_telnet` and `telnet_seen`. -/
structure Filter where
  state : State
  verb : Byte
  seen : Bool
  deriving DecidableEq

structure Turn where
  filter : Filter
  typed : List Byte
  said : List (List Byte)

/-- `offer_char_mode`, the first time a command is seen. -/
def offer (seen : Bool) : List (List Byte) :=
  if seen then [] else [[IAC, WILL, optEcho, IAC, WILL, optSga]]

def answer (verb c : Byte) : List (List Byte) :=
  if verb = DO then [[IAC, if c = optEcho ∨ c = optSga then WILL else WONT, c]]
  else if verb = WILL then [[IAC, DONT, c]]
  else []

/-- One turn of the loop of `strip_telnet`. -/
def stripByte (f : Filter) (c : Byte) : Turn :=
  match f.state with
  | .data => if c = IAC then ⟨{ f with state := .iac }, [], []⟩ else ⟨f, [c], []⟩
  | .iac =>
    let said := offer f.seen
    let f := { f with seen := true }
    if c = IAC then ⟨{ f with state := .data }, [IAC], said⟩
    else if c = SB then ⟨{ f with state := .sub }, [], said⟩
    else if isVerb c then ⟨{ f with verb := c, state := .option }, [], said⟩
    else ⟨{ f with state := .data }, [], said⟩
  | .option => ⟨{ f with state := .data }, [], answer f.verb c⟩
  | .sub => ⟨if c = IAC then { f with state := .subIac } else f, [], []⟩
  | .subIac => ⟨{ f with state := if c = SE then .data else .sub }, [], []⟩

/-- `strip_telnet`. -/
def strip : Filter → List Byte → Turn
  | f, [] => ⟨f, [], []⟩
  | f, c :: rest =>
    let first := stripByte f c
    let later := strip first.filter rest
    ⟨later.filter, first.typed ++ later.typed, first.said ++ later.said⟩

section Grammar
variable {f : Filter} {c : Byte} {rest stream more : List Byte}

theorem strip_append (f : Filter) (front back : List Byte) :
    (strip f (front ++ back)).filter = (strip (strip f front).filter back).filter ∧
      (strip f (front ++ back)).typed =
        (strip f front).typed ++ (strip (strip f front).filter back).typed := by
  induction front generalizing f with
  | nil => exact ⟨rfl, rfl⟩
  | cons c rest ih =>
    obtain ⟨filter, typed⟩ := ih (stripByte f c).filter
    refine ⟨filter, ?_⟩
    simp only [List.cons_append, strip]
    rw [typed, List.append_assoc]

@[simp] theorem plain_nil : plain [] = [] := by
  rw [plain]

theorem plain_data (data : c ≠ IAC) : plain (c :: rest) = c :: plain rest := by
  rw [plain.eq_def]
  exact if_neg data

@[simp] theorem plain_begun : plain [IAC] = [] := by
  rw [plain, if_pos rfl]

@[simp] theorem plain_literal : plain (IAC :: IAC :: more) = IAC :: plain more := by
  rw [plain, if_pos rfl, if_pos rfl]

@[simp] theorem plain_sub : plain (IAC :: SB :: more) = plain (afterSub more) := by
  rw [plain, if_pos rfl, if_neg (by decide), if_pos rfl]

theorem plain_verb (verb : isVerb c = true) : plain (IAC :: c :: more) = plain (more.drop 1) := by
  have notIac : c ≠ IAC := by
    rintro rfl
    exact absurd verb (by decide)
  have notSb : c ≠ SB := by
    rintro rfl
    exact absurd verb (by decide)
  rw [plain, if_pos rfl, if_neg notIac, if_neg notSb, if_pos verb]

theorem plain_other (notIac : c ≠ IAC) (notSb : c ≠ SB) (verb : isVerb c = false) :
    plain (IAC :: c :: more) = plain more := by
  rw [plain, if_pos rfl, if_neg notIac, if_neg notSb, if_neg (by simp [verb])]

theorem afterSub_inside (inside : c ≠ IAC) : afterSub (c :: rest) = afterSub rest := by
  rw [afterSub.eq_def]
  exact if_neg inside

@[simp] theorem afterSub_ends : afterSub (IAC :: SE :: more) = more := by
  rw [afterSub, if_pos rfl, if_pos rfl]

theorem afterSub_goes (goes : c ≠ SE) : afterSub (IAC :: c :: more) = afterSub more := by
  rw [afterSub, if_pos rfl, if_neg goes]

def State.unfinished : State → List Byte
  | .data => []
  | .iac => [IAC]
  | .option => [IAC, DO]
  | .sub => [IAC, SB]
  | .subIac => [IAC, SB, IAC]

theorem stripByte_plain (f : Filter) (c : Byte) (rest : List Byte) :
    plain (f.state.unfinished ++ c :: rest) =
      (stripByte f c).typed ++ plain ((stripByte f c).filter.state.unfinished ++ rest) := by
  have anOption : ∀ more, plain (IAC :: DO :: more) = plain (more.drop 1) :=
    fun _ => plain_verb (by decide)
  unfold stripByte
  cases state : f.state with
  | data =>
    by_cases iac : c = IAC
    · simp [iac, State.unfinished]
    · simp [iac, state, State.unfinished, plain_data iac]
  | iac =>
    by_cases iac : c = IAC
    · simp [iac, State.unfinished]
    · by_cases sb : c = SB
      · subst sb
        simp [iac, State.unfinished]
      · by_cases verb : isVerb c = true
        · simp [iac, sb, verb, State.unfinished, plain_verb verb, anOption]
        · have other := Bool.eq_false_iff.mpr verb
          simp [iac, sb, verb, State.unfinished, plain_other iac sb other]
  | option => simp [State.unfinished, anOption]
  | sub =>
    by_cases iac : c = IAC
    · simp [iac, State.unfinished]
    · simp [iac, state, State.unfinished, afterSub_inside iac]
  | subIac =>
    by_cases se : c = SE
    · simp [se, State.unfinished]
    · simp [se, State.unfinished, afterSub_goes se]

theorem strip_plain (f : Filter) (stream : List Byte) :
    (strip f stream).typed = plain (f.state.unfinished ++ stream) := by
  induction stream generalizing f with
  | nil =>
    have anOption : plain [IAC, DO] = [] := (plain_verb (by decide)).trans plain_nil
    cases state : f.state <;> simp [strip, State.unfinished, anOption, afterSub]
  | cons c rest ih =>
    rw [stripByte_plain, strip, ih]

end Grammar

end Ubiqos.Netcon

/-!
A session of `modules/netcon/netcon.c`. It carries the client's keys from the
socket to the shell and the shell's output from the pipe pair to the socket. A
write to the pair and a send on the socket may each take only a part. Every call
of the kernel is a step here, answered by whoever is on the other side, and the
shell may write or exit between any two of them.

`moved` is left out: it decides only whether the loop sleeps before it turns.
-/

namespace Ubiqos.Netcon

open Machine

def LF : Byte := 10
def CR : Byte := 13
def ctrlC : Byte := 3

/-- `BUFSZ`. -/
def bufSz : Nat := 256

def text (s : String) : List Byte := s.toList.map fun c => BitVec.ofNat 8 c.toNat

/-- `crlf`: `out` is what was put so far, `cap` the size of the buffer. -/
def crlf (cap : Nat) : Byte → List Byte → List Byte → List Byte
  | _, out, [] => out
  | prev, out, c :: rest =>
    if out.length + 2 ≤ cap then
      crlf cap c ((if c = LF ∧ prev ≠ CR then out ++ [CR] else out) ++ [c]) rest
    else out

/-- The keys that go on to the shell: a Ctrl-C is asked about, and consumed when
the answer is that something was in front. -/
def keep : List Byte → List Bool → List Byte
  | [], _ => []
  | c :: rest, answers =>
    if c = ctrlC then
      if answers.head? = some true then keep rest (answers.drop 1)
      else c :: keep rest (answers.drop 1)
    else c :: keep rest answers

def asked : List Byte → List Bool → List Bool
  | [], _ => []
  | c :: rest, answers =>
    if c = ctrlC then answers.headD false :: asked rest (answers.drop 1)
    else asked rest answers

/-- Where the loop of `session` is. -/
inductive Pc
  | keys
  | receive
  | drain
  | check
  | ended
  deriving DecidableEq

structure Relay where
  filter : Filter
  pc : Pc
  held : List Byte
  shellAlive : Bool
  pending : List Byte
  gone : Bool
  received : List Byte
  interrupts : List Bool
  given : List Byte
  written : List Byte
  drained : List Byte
  sent : List Byte
  said : List (List Byte)

/-- `netcon` before its first client. -/
def boot : Relay :=
  ⟨⟨.data, 0, false⟩, .ended, [], false, [], false, [], [], [], [], [], [], []⟩

/-- The calls of the session with their answers, and what the shell does meanwhile. -/
inductive Input
  | accept (shell : Bool)
  | shellWrites (bytes : List Byte)
  | shellExits
  | wrote (k : Int)
  | received (got : Option (List Byte)) (answers : List Bool) (k : Int)
  | drained (n : Nat) (k : Int)
  | checked

/-- The beginning of `session`. The filter's state is static and stays as it was. -/
def accept (r : Relay) (shell : Bool) : Relay :=
  if shell then
    { boot with
      filter := { r.filter with seen := false }
      pc := .keys
      shellAlive := true }
  else { boot with filter := r.filter, said := [text "netcon: no shell on this machine\r\n"] }

def writeHeld (r : Relay) (k : Int) : Relay :=
  let took := min k.toNat r.held.length
  let held := r.held.drop took
  { r with
    given := r.given ++ r.held.take took
    held := held
    pc := if held = [] then .receive else .drain }

def receive (r : Relay) (got : Option (List Byte)) (answers : List Bool) (k : Int) : Relay :=
  match got with
  | none => { r with pc := .ended, gone := true }
  | some got =>
    let buf := got.take bufSz
    let turn := strip r.filter buf
    let kept := keep turn.typed answers
    let took := min k.toNat kept.length
    let interrupts := asked turn.typed answers
    { r with
      filter := turn.filter
      received := r.received ++ buf
      interrupts := r.interrupts ++ interrupts
      given := r.given ++ kept.take took
      held := kept.drop took
      said := r.said ++ turn.said ++ (interrupts.filter id).map fun _ => text "^C\r\n"
      pc := .drain }

def chunk (r : Relay) (n : Nat) : List Byte := r.pending.take (max 1 (min n bufSz))

def drain (r : Relay) (n : Nat) (k : Int) : Relay :=
  if r.pending = [] then { r with pc := .check }
  else
    let buf := chunk r n
    let wire := crlf (bufSz * 2) 0 [] buf
    let r := { r with pending := r.pending.drop buf.length, drained := r.drained ++ buf }
    if k < 0 then { r with pc := .ended, gone := true }
    else { r with sent := r.sent ++ wire.take k.toNat }

def step (r : Relay) : Input → Relay
  | .accept shell => if r.pc = .ended then accept r shell else r
  | .shellWrites bytes =>
    if r.shellAlive ∧ r.pc ≠ .ended then
      { r with pending := r.pending ++ bytes, written := r.written ++ bytes }
    else r
  | .shellExits => { r with shellAlive := false }
  | .wrote k => if r.pc = .keys then writeHeld r k else r
  | .received got answers k => if r.pc = .receive then receive r got answers k else r
  | .drained n k => if r.pc = .drain then drain r n k else r
  | .checked => if r.pc = .check then { r with pc := if r.shellAlive then .keys else .ended } else r

/-- What the socket should be given for what the shell wrote: a line feed that
does not follow a carriage return gets one. -/
def translate : Byte → List Byte → List Byte
  | _, [] => []
  | prev, c :: rest => (if c = LF ∧ prev ≠ CR then [CR, c] else [c]) ++ translate c rest

structure Exact (r : Relay) : Prop where
  keys : r.given ++ r.held = keep (plain r.received) r.interrupts
  asked : r.interrupts.length = (plain r.received).count ctrlC
  read : r.drained ++ r.pending = r.written
  sent : r.gone = false → r.sent = translate 0 r.drained
  cut : r.sent <+: translate 0 r.drained
  ended : r.pc = .ended → r.gone = false → r.pending = []

/-- A session begins outside every command; the socket takes all it is offered,
and no piece begins between a carriage return and its line feed; the shell
leaves nothing unread behind it. -/
def Orderly (r : Relay) : Input → Prop
  | .accept _ => r.pc = .ended → r.filter.state = .data
  | .drained n k => r.pc = .drain → k < 0 ∨ ((crlf (bufSz * 2) 0 [] (chunk r n)).length ≤ k ∧
      ¬ ((chunk r n).head? = some LF ∧ r.drained.getLast? = some CR))
  | .checked => r.pc = .check → r.shellAlive = false → r.pending = []
  | _ => True

instance (r : Relay) : (input : Input) → Decidable (Orderly r input)
  | .accept _ => inferInstanceAs (Decidable (_ → _))
  | .drained _ _ => inferInstanceAs (Decidable (_ → _))
  | .checked => inferInstanceAs (Decidable (_ → _))
  | .shellWrites _ => isTrue trivial
  | .shellExits => isTrue trivial
  | .wrote _ => isTrue trivial
  | .received _ _ _ => isTrue trivial

section Streams

theorem crlf_eq {cap : Nat} {prev : Byte} {out rest : List Byte}
    (room : out.length + 2 * rest.length ≤ cap) :
    crlf cap prev out rest = out ++ translate prev rest := by
  induction rest generalizing prev out with
  | nil => simp [crlf, translate]
  | cons c rest ih =>
    rw [List.length_cons] at room
    rw [crlf, if_pos (by omega), translate]
    split
    · rw [ih (by simp only [List.length_append, List.length_singleton]; omega)]
      simp
    · rw [ih (by simp only [List.length_append, List.length_singleton]; omega)]
      simp

theorem translate_append (prev : Byte) (front back : List Byte) :
    translate prev (front ++ back) =
      translate prev front ++ translate (front.getLast?.getD prev) back := by
  induction front generalizing prev with
  | nil => rfl
  | cons c rest ih =>
    rw [List.cons_append, translate, translate, ih, List.append_assoc]
    cases rest with
    | nil => rfl
    | cons d more =>
      have last := List.getLast?_eq_some_getLast (List.cons_ne_nil d more)
      rw [List.getLast?_cons_cons, last]
      rfl

theorem translate_piece {prev : Byte} {piece : List Byte}
    (whole : ¬ (piece.head? = some LF ∧ prev = CR)) : translate prev piece = translate 0 piece := by
  cases piece with
  | nil => rfl
  | cons c rest =>
    have zero : (0 : Byte) ≠ CR := by decide
    rw [translate, translate]
    by_cases feed : c = LF
    · have other : prev ≠ CR := fun same => whole ⟨by rw [feed]; rfl, same⟩
      rw [if_pos ⟨feed, other⟩, if_pos ⟨feed, zero⟩]
    · rw [if_neg fun both => feed both.1, if_neg fun both => feed both.1]

theorem keep_append (front back : List Byte) (first later : List Bool)
    (enough : first.length = front.count ctrlC) :
    keep (front ++ back) (first ++ later) = keep front first ++ keep back later := by
  induction front generalizing first with
  | nil =>
    obtain rfl := List.length_eq_zero_iff.mp enough
    rfl
  | cons c rest ih =>
    rw [List.cons_append, keep, keep]
    by_cases key : c = ctrlC
    · subst key
      rw [List.count_cons_self] at enough
      cases first with
      | nil => simp at enough
      | cons answer more =>
        have next := ih more (by simpa using enough)
        simp only [List.cons_append, List.head?_cons, List.drop_succ_cons, List.drop_zero, next]
        cases answer <;> simp
    · rw [List.count_cons_of_ne key] at enough
      rw [if_neg key, if_neg key, ih first enough, List.cons_append]

theorem length_asked (typed : List Byte) (answers : List Bool) :
    (asked typed answers).length = typed.count ctrlC := by
  induction typed generalizing answers with
  | nil => rfl
  | cons c rest ih =>
    rw [asked]
    by_cases key : c = ctrlC
    · rw [if_pos key, key, List.count_cons_self, List.length_cons, ih]
    · rw [if_neg key, List.count_cons_of_ne key, ih]

theorem keep_asked (typed : List Byte) (answers : List Bool) :
    keep typed (asked typed answers) = keep typed answers := by
  induction typed generalizing answers with
  | nil => rfl
  | cons c rest ih =>
    rw [keep, keep, asked]
    by_cases key : c = ctrlC
    · simp only [if_pos key, List.head?_cons, List.drop_succ_cons, List.drop_zero, ih]
      cases answers with
      | nil => simp
      | cons answer more => simp
    · simp only [if_neg key, ih]

end Streams

structure Kept (r : Relay) : Prop extends Exact r where
  filter : ∃ f : Filter, f.state = .data ∧ (strip f r.received).filter = r.filter
  waits : r.pc = .receive → r.held = []
  live : r.pc ≠ .ended → r.gone = false

section Steps
variable {r : Relay}

theorem begun_kept {f : Filter} (fresh : f.state = .data) (pc : Pc) (alive : Bool)
    (said : List (List Byte)) :
    Kept ⟨f, pc, [], alive, [], false, [], [], [], [], [], [], said⟩ where
  keys := by simp [keep]
  asked := by simp
  read := rfl
  sent := fun _ => rfl
  cut := List.prefix_refl _
  ended := fun _ _ => rfl
  filter := ⟨f, fresh, rfl⟩
  waits := fun _ => rfl
  live := fun _ => rfl

theorem accept_kept (fresh : r.filter.state = .data) (shell : Bool) : Kept (accept r shell) := by
  cases shell with
  | true => exact begun_kept (f := { r.filter with seen := false }) fresh .keys true []
  | false => exact begun_kept fresh .ended false _

theorem writeHeld_kept (kept : Kept r) (live : r.pc ≠ .ended) (k : Int) : Kept (writeHeld r k) := by
  have whole := List.take_append_drop (min k.toNat r.held.length) r.held
  simp only [writeHeld]
  refine ⟨⟨?_, kept.asked, kept.read, kept.sent, kept.cut, ?_⟩, kept.filter, ?_, fun _ => kept.live live⟩
  · dsimp only
    rw [List.append_assoc, whole]
    exact kept.keys
  · intro ends
    dsimp only at ends
    split at ends <;> cases ends
  · intro waits
    dsimp only at waits ⊢
    split at waits
    · assumption
    · cases waits

theorem strip_received (kept : Kept r) (buf : List Byte) :
    plain (r.received ++ buf) = plain r.received ++ (strip r.filter buf).typed ∧
      ∃ f : Filter, f.state = .data ∧
        (strip f (r.received ++ buf)).filter = (strip r.filter buf).filter := by
  obtain ⟨f, data, reaches⟩ := kept.filter
  obtain ⟨filter, typed⟩ := strip_append f r.received buf
  have fromData : ∀ stream, (strip f stream).typed = plain stream := by
    intro stream
    rw [strip_plain, data]
    rfl
  rw [reaches] at filter typed
  rw [fromData, fromData] at typed
  exact ⟨typed, f, data, filter⟩

theorem receive_kept (kept : Kept r) (waiting : r.pc = .receive) (got : Option (List Byte))
    (answers : List Bool) (k : Int) : Kept (receive r got answers k) := by
  cases got with
  | none =>
    exact ⟨⟨kept.keys, kept.asked, kept.read, by simp [receive], kept.cut, by simp [receive]⟩,
      kept.filter, by simp [receive], by simp [receive]⟩
  | some got =>
    obtain ⟨typed, filter⟩ := strip_received kept (got.take bufSz)
    have nothing := kept.waits waiting
    have keys := kept.keys
    have soFar := kept.asked
    rw [nothing, List.append_nil] at keys
    have whole := fun n => List.take_append_drop n
      (keep (strip r.filter (got.take bufSz)).typed answers)
    refine ⟨⟨?_, ?_, kept.read, kept.sent, kept.cut, by simp [receive]⟩, filter, by simp [receive],
      fun _ => kept.live (by simp [waiting])⟩
    · simp only [receive]
      rw [List.append_assoc, whole, typed, keep_append _ _ _ _ soFar, keep_asked, keys]
    · simp only [receive]
      rw [typed, List.length_append, List.count_append, length_asked, soFar]

theorem drain_kept (kept : Kept r) (draining : r.pc = .drain) (n : Nat) (k : Int)
    (orderly : Orderly r (.drained n k)) : Kept (drain r n k) := by
  have live : r.gone = false := kept.live (by simp [draining])
  have sent := kept.sent live
  unfold drain
  by_cases none : r.pending = []
  · rw [if_pos none]
    exact ⟨⟨kept.keys, kept.asked, kept.read, kept.sent, kept.cut, by simp⟩, kept.filter, by simp,
      fun _ => live⟩
  · rw [if_neg none]
    dsimp only
    have small : (chunk r n).length ≤ bufSz := by
      have length := List.length_take_le (max 1 (min n bufSz)) r.pending
      unfold chunk bufSz at *
      omega
    have wire : crlf (bufSz * 2) 0 [] (chunk r n) = translate 0 (chunk r n) :=
      crlf_eq (by simp only [List.length_nil]; omega)
    have taken : chunk r n ++ r.pending.drop (chunk r n).length = r.pending :=
      (List.prefix_iff_eq_append.mp (List.take_prefix _ _))
    have read : (r.drained ++ chunk r n) ++ r.pending.drop (chunk r n).length = r.written := by
      rw [List.append_assoc, taken]
      exact kept.read
    have longer := translate_append 0 r.drained (chunk r n)
    split
    · refine ⟨⟨kept.keys, kept.asked, read, by simp, ?_, by simp⟩, kept.filter, by simp, by simp⟩
      exact kept.cut.trans (longer ▸ List.prefix_append _ _)
    · rename_i sends
      obtain failed | ⟨all, piece⟩ := orderly draining
      · exact absurd failed sends
      · -- the socket took the whole piece, and the piece begins on its own
        have joins : ¬ ((chunk r n).head? = some LF ∧ r.drained.getLast?.getD 0 = CR) := by
          rintro ⟨feed, returned⟩
          cases last : r.drained.getLast? with
          | none =>
            rw [last] at returned
            exact absurd returned (by decide)
          | some c =>
            rw [last] at returned
            exact piece ⟨feed, by rw [last]; exact congrArg some returned⟩
        have sends' : r.sent ++ (crlf (bufSz * 2) 0 [] (chunk r n)).take k.toNat =
            translate 0 (r.drained ++ chunk r n) := by
          rw [List.take_of_length_le (by omega), wire, longer, translate_piece joins, sent]
        exact ⟨⟨kept.keys, kept.asked, read, fun _ => sends', sends' ▸ List.prefix_refl _,
          by simp [draining]⟩, kept.filter, by simp [draining], fun _ => live⟩

theorem step_kept (kept : Kept r) (input : Input) (orderly : Orderly r input) :
    Kept (step r input) := by
  cases input with
  | accept shell =>
    rw [step]
    split
    · rename_i ends
      exact accept_kept (orderly ends) shell
    · exact kept
  | shellWrites bytes =>
    rw [step]
    split
    · rename_i writes
      refine ⟨⟨kept.keys, kept.asked, ?_, kept.sent, kept.cut, fun ends => absurd ends writes.2⟩,
        kept.filter, kept.waits, kept.live⟩
      rw [← kept.read, List.append_assoc]
    · exact kept
  | shellExits =>
    exact ⟨⟨kept.keys, kept.asked, kept.read, kept.sent, kept.cut, kept.ended⟩, kept.filter,
      kept.waits, kept.live⟩
  | wrote k =>
    rw [step]
    split
    · rename_i turn
      exact writeHeld_kept kept (by simp [turn]) k
    · exact kept
  | received got answers k =>
    rw [step]
    split
    · rename_i waiting
      exact receive_kept kept waiting got answers k
    · exact kept
  | drained n k =>
    rw [step]
    split
    · rename_i draining
      exact drain_kept kept draining n k orderly
    · exact kept
  | checked =>
    rw [step]
    split
    · rename_i checks
      have live : r.gone = false := kept.live (by simp [checks])
      refine ⟨⟨kept.keys, kept.asked, kept.read, kept.sent, kept.cut, ?_⟩, kept.filter, ?_,
        fun _ => live⟩
      · intro ends _
        dsimp only at ends ⊢
        split at ends
        · cases ends
        · rename_i dead
          exact orderly checks (Bool.eq_false_iff.mpr dead)
      · intro waits
        dsimp only at waits
        split at waits <;> cases waits
    · exact kept

end Steps

/-- In a run of orderly steps every session carries its bytes exactly, at every moment. -/
theorem sessions_exact (inputs : List Input) (run : Along step Orderly boot inputs) :
    Exact (inputs.foldl step boot) :=
  (along_invariant Kept run (begun_kept rfl .ended false [])
    (fun _ input _ orderly kept => step_kept kept input orderly)).toExact

/-- A key, a command, a Ctrl-C and two lines, one of which the shell ended itself. -/
theorem sessions_exact_short : Exact ([
    .accept true, .wrote 0, .received (some [97, 255, 253, 1, 3]) [true] 1,
    .shellWrites [98, 13, 10, 99, 10], .drained 256 300, .drained 0 0, .checked].foldl step boot) :=
  sessions_exact _ (by decide +kernel)

/-- A socket that takes one of two bytes: the other one is never sent. -/
theorem partial_send_loses : ¬ Exact ([
    .accept true, .shellWrites [97, 98], .wrote 0, .received (some []) [] 0,
    .drained 256 1].foldl step boot) := by
  intro carried
  exact absurd (carried.sent (by decide)) (by decide)

end Ubiqos.Netcon
