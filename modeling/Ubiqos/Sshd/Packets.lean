import Ubiqos.Lib.Odometer
import Ubiqos.Lib.Patience
import Ubiqos.Sshd.Wire

/-!
The packets of `modules/sshd/sshd.c` on a socket that does not wait: `write_all` and
`send_packet`, `read_exact` and `recv_packet`, and `bump`, which counts packets in the nonce. What
mbedTLS makes of its arguments is a parameter, and so is what the socket takes or has at each call.
-/

namespace Ubiqos.Sshd.Packets

open Patience (Line move turns)

abbrev Iv := Fin 12 → Byte

def counting : List (Fin 12) := [11, 10, 9, 8, 7, 6, 5, 4]

def bump (iv : Iv) : Iv := Odometer.carry counting iv

theorem bump_eq_iff (iv : Iv) (n k : Nat) : bump^[n] iv = bump^[k] iv ↔ n ≡ k [MOD 2 ^ 64] :=
  Odometer.iterate_eq_iff (by decide) n k

structure Cipher (Key : Type) where
  /-- `mbedtls_gcm_crypt_and_tag`: what stays in the clear is the head. -/
  crypt_and_tag : Key → Iv → List Byte → List Byte → Option (List Byte × List Byte)
  /-- `mbedtls_gcm_auth_decrypt`: the head, the tag and the body. -/
  auth_decrypt : Key → Iv → List Byte → List Byte → List Byte → Option (List Byte)

def Cipher.Decrypts {Key : Type} (cipher : Cipher Key) : Prop :=
  ∀ key iv head plain body tag, cipher.crypt_and_tag key iv head plain = some (body, tag) →
    body.length = plain.length ∧ tag.length = 16 ∧ cipher.auth_decrypt key iv head tag body = some plain

variable {Key : Type}

structure Sent (Key : Type) where
  pad : Nat
  len : Nat
  lock : Option (Key × Iv)

structure Sender (Key : Type) where
  encrypted : Bool
  gcm_out : Key
  iv_out : Iv
  seq_out : Nat
  peer_gone : Bool
  wire : List Byte
  clock : Nat
  sent : List (Sent Key)

def write_all (line : Line) (p : List Byte) (s : Sender Key) : Bool × Sender Key :=
  let moved := move line p.length p.length 30000 0 0 s.clock
  (moved.outcome = .full,
    { s with
      wire := s.wire ++ p.take moved.got, clock := moved.clock,
      peer_gone := s.peer_gone || moved.outcome = .quiet })

def padding (encrypted : Bool) (n : Nat) : Nat :=
  let block := if encrypted then 16 else 8
  let pad := block - (if encrypted then (1 + n) % 2 ^ 32 else (4 + 1 + n) % 2 ^ 32) % block
  if pad < 4 then pad + block else pad

/-- A payload, and the random bytes for its padding when there are any to be had. -/
structure Attempt where
  pl : List Byte
  random : Option (Nat → Byte)

def send_packet (cipher : Cipher Key) (line : Line) (a : Attempt) (s : Sender Key) : Bool × Sender Key :=
  let pad := padding s.encrypted a.pl.length
  let len := (1 + a.pl.length + pad) % 2 ^ 32
  if PKT_MAX < (4 + len + 16) % 2 ^ 32 then (false, s)
  else
    match a.random with
    | none => (false, s)
    | some random =>
      let head := w_u32 len
      let body := (BitVec.ofNat 8 pad :: a.pl ++ (List.range pad).map random).take len
      let s := { s with seq_out := (s.seq_out + 1) % 2 ^ 32 }
      if !s.encrypted then write_all line (head ++ body) { s with sent := s.sent ++ [⟨pad, len, none⟩] }
      else
        match cipher.crypt_and_tag s.gcm_out s.iv_out head body with
        | none => (false, s)
        | some (out, tag) =>
          write_all line (head ++ (out ++ tag))
            { s with
              iv_out := bump s.iv_out, sent := s.sent ++ [⟨pad, len, some (s.gcm_out, s.iv_out)⟩] }

def send_all (cipher : Cipher Key) (line : Line) : List Attempt → Sender Key → Bool × Sender Key
  | [], s => (true, s)
  | a :: rest, s =>
    let first := send_packet cipher line a s
    let others := send_all cipher line rest first.2
    (first.1 && others.1, others.2)

def Sender.begin (key : Key) (iv : Iv) : Sender Key := ⟨false, key, iv, 0, false, [], 0, []⟩

def Sender.newkeys (key : Key) (iv : Iv) (s : Sender Key) : Sender Key :=
  { s with encrypted := true, gcm_out := key, iv_out := iv }

structure Receiver (Key : Type) where
  encrypted : Bool
  gcm_in : Key
  iv_in : Iv
  seq_in : Nat
  /-- `head`, so far as `head_n` says. -/
  head : List Byte
  peer_gone : Bool
  stream : List Byte
  clock : Nat

structure Filled (Key : Type) where
  outcome : Patience.Outcome
  bytes : List Byte
  rest : Receiver Key

/-- Reads behind `start` up to `n` bytes. -/
def fill (line : Line) (n ms : Nat) (start : List Byte) (r : Receiver Key) : Filled Key :=
  let moved := move line n (start.length + r.stream.length) ms start.length 0 r.clock
  let took := moved.got - start.length
  ⟨moved.outcome, start ++ r.stream.take took, { r with stream := r.stream.drop took, clock := moved.clock }⟩

def Receiver.gone (r : Receiver Key) : Option (List Byte) × Receiver Key := (none, { r with peer_gone := true })

def read_exact (line : Line) (n ms : Nat) (r : Receiver Key) : Option (List Byte) × Receiver Key :=
  let got := fill line n ms [] r
  match got.outcome with
  | .full => (some got.bytes, got.rest)
  | .quiet => (none, got.rest)
  | .lost => got.rest.gone

def unpad (len : Nat) (plain : List Byte) : Option (List Byte) :=
  let pad := ((plain[0]?).getD 0).toNat
  if len < pad + 1 then none else some ((plain.drop 1).take (len - pad - 1))

def deliver (len : Nat) (plain : List Byte) (r : Receiver Key) : Option (List Byte) × Receiver Key :=
  match unpad len plain with
  | none => r.gone
  | some payload => (some payload, { r with seq_in := (r.seq_in + 1) % 2 ^ 32 })

def body_packet (cipher : Cipher Key) (line : Line) (head : List Byte) (r : Receiver Key) :
    Option (List Byte) × Receiver Key :=
  let len := Memory.word (fun i => (head[i]?).getD 0) 0
  if len < 8 ∨ PKT_MAX - 32 < len then r.gone
  else
    match read_exact line len 5000 r with
    | (none, r) => r.gone
    | (some rxbuf, r) =>
      if !r.encrypted then deliver len rxbuf r
      else
        match read_exact line 16 5000 r with
        | (none, r) => r.gone
        | (some tag, r) =>
          match cipher.auth_decrypt r.gcm_in r.iv_in head tag rxbuf with
          | none => r.gone
          | some plain => deliver len plain { r with iv_in := bump r.iv_in }

def recv_packet (cipher : Cipher Key) (line : Line) (ms : Nat) (r : Receiver Key) :
    Option (List Byte) × Receiver Key :=
  let got := fill line 4 ms r.head r
  match got.outcome with
  | .lost => { got.rest with head := got.bytes }.gone
  | .quiet => (none, { got.rest with head := got.bytes })
  | .full => body_packet cipher line got.bytes { got.rest with head := [] }

def Receiver.begin (key : Key) (iv : Iv) (stream : List Byte) : Receiver Key :=
  ⟨false, key, iv, 0, [], false, stream, 0⟩

def Receiver.newkeys (key : Key) (iv : Iv) (r : Receiver Key) : Receiver Key :=
  { r with encrypted := true, gcm_in := key, iv_in := iv }

structure Inbox (Key : Type) where
  r : Receiver Key
  got : List (List Byte)

def Inbox.keyed (key : Key) (iv : Iv) (clear : Nat) (t : Inbox Key) : Receiver Key :=
  if !t.r.encrypted && t.got.length = clear then t.r.newkeys key iv else t.r

/-- A call of `recv_packet`, when the connection is not over. -/
def Inbox.call (cipher : Cipher Key) (line : Line) (key : Key) (iv : Iv) (clear : Nat) (t : Inbox Key) (ms : Nat) :
    Inbox Key :=
  if t.r.peer_gone then t
  else
    let out := recv_packet cipher line ms (t.keyed key iv clear)
    ⟨out.2, t.got ++ out.1.toList⟩

/-- The length of a packet that holds a payload, and the packet's own bytes. -/
structure Plain (len : Nat) (payload plain : List Byte) : Prop where
  least : 8 ≤ len
  most : len ≤ PKT_MAX - 32
  whole : plain.length = len
  holds : unpad len plain = some payload

inductive Opens (cipher : Cipher Key) : Option (Key × Iv) → List Byte → List Byte → Prop
  | clear {len payload plain} (fits : Plain len payload plain) : Opens cipher none payload (w_u32 len ++ plain)
  | locked {len payload plain key iv body tag} (fits : Plain len payload plain) (long : body.length = len)
      (tagged : tag.length = 16) (opened : cipher.auth_decrypt key iv (w_u32 len) tag body = some plain) :
      Opens cipher (some (key, iv)) payload (w_u32 len ++ (body ++ tag))

def advance (lock : Option (Key × Iv)) : Option (Key × Iv) := lock.map fun l => (l.1, bump l.2)

inductive Carries (cipher : Cipher Key) : Option (Key × Iv) → List (List Byte) → List Byte → Prop
  | nil {lock} : Carries cipher lock [] []
  | cons {lock payload rest bytes ws} (opens : Opens cipher lock payload bytes)
      (others : Carries cipher (advance lock) rest ws) : Carries cipher lock (payload :: rest) (bytes ++ ws)

def Sender.lock (s : Sender Key) : Option (Key × Iv) := if s.encrypted then some (s.gcm_out, s.iv_out) else none

def Receiver.lock (r : Receiver Key) : Option (Key × Iv) := if r.encrypted then some (r.gcm_in, r.iv_in) else none

section Reads
variable {line : Line} {n ms : Nat} {start : List Byte} {r : Receiver Key}

/-- Nothing came at the last `k` calls. -/
def Silent (line : Line) (k clock : Nat) : Prop :=
  k ≤ clock ∧ ∀ call, clock - k ≤ call → call < clock → line call = some 0

structure Fills (line : Line) (n ms : Nat) (start : List Byte) (r : Receiver Key) (f : Filled Key) : Prop where
  same : f.rest = { r with stream := f.rest.stream, clock := f.rest.clock }
  split : f.bytes ++ f.rest.stream = start ++ r.stream
  full : f.outcome = .full → f.bytes.length = n
  short : f.outcome ≠ .full → f.bytes.length < n
  quiet : f.outcome = .quiet → n ≤ start.length + r.stream.length → Silent line (turns ms) f.rest.clock
  lost : f.outcome = .lost → line (f.rest.clock - 1) = none

theorem fill_fills (room : start.length ≤ n) : Fills line n ms start r (fill line n ms start r) := by
  have ends := (@Patience.move_ends line n (start.length + r.stream.length) ms)
    start.length r.clock
  have more := ends.more
  have inside := ends.inside
  have count : (fill line n ms start r).bytes.length =
      (move line n (start.length + r.stream.length) ms start.length 0 r.clock).got := by
    simp only [fill, List.length_append, List.length_take]
    omega
  refine ⟨rfl, ?_, ?_, ?_, ?_, ?_⟩
  · simp [fill]
  · intro full
    have enough := ends.full full
    omega
  · intro short
    have less := ends.short short
    omega
  · intro quiet enough
    obtain ⟨long, still⟩ := ends.quiet quiet
    refine ⟨long, fun call from_ upto => ?_⟩
    obtain ⟨room, takes, none⟩ := still call from_ upto
    have less := ends.short (fun full => by cases quiet.symm.trans full)
    have zero : room = 0 := by omega
    rw [takes, zero]
  · intro lost
    exact (ends.lost lost).2

theorem Fills.front {f : Filled Key} (fills : Fills line n ms start r f) (full : f.outcome = .full)
    {front back : List Byte} (split : start ++ r.stream = front ++ back) (long : front.length = n) :
    f.bytes = front ∧ f.rest.stream = back :=
  List.append_inj (fills.split.trans split) ((fills.full full).trans long.symm)

end Reads

section Calls
variable {cipher : Cipher Key} {line : Line} {ms : Nat} {r : Receiver Key}

def Broken (line : Line) (clock : Nat) : Prop := line (clock - 1) = none ∨ Silent line (turns 5000) clock

theorem read_exact_next {n : Nat} {front back : List Byte} (split : r.stream = front ++ back)
    (long : front.length = n) :
    (∃ clock, read_exact line n 5000 r = (some front, { r with stream := back, clock := clock })) ∨
      ∃ r', read_exact line n 5000 r = (none, r') ∧ Broken line r'.clock := by
  have fills := (@fill_fills _ line n 5000 [] r) (Nat.zero_le n)
  cases outcome : (fill line n 5000 [] r).outcome with
  | full =>
    obtain ⟨bytes, rest⟩ := @Fills.front _ _ _ _ _ _ _ fills outcome _ _ split long
    have same := fills.same
    rw [rest] at same
    exact .inl ⟨(fill line n 5000 [] r).rest.clock, by simp only [read_exact, outcome, bytes, ← same]⟩
  | quiet =>
    have enough : n ≤ ([] : List Byte).length + r.stream.length := by
      rw [split, List.length_append]
      omega
    simp only [read_exact, outcome]
    exact .inr ⟨_, rfl, .inr (fills.quiet outcome enough)⟩
  | lost =>
    simp only [read_exact, outcome]
    exact .inr ⟨_, rfl, .inl (fills.lost outcome)⟩

structure After (r : Receiver Key) (ws : List Byte) (r' : Receiver Key) : Prop where
  head : r'.head = []
  stream : r'.stream = ws
  encrypted : r'.encrypted = r.encrypted
  lock : r'.lock = advance r.lock
  gone : r'.peer_gone = r.peer_gone

theorem word_head {len : Nat} (small : len ≤ PKT_MAX - 32) :
    Memory.word (fun i => ((w_u32 len)[i]?).getD 0) 0 = len := by
  unfold PKT_MAX at small
  simp only [Memory.word, w_u32]
  simp
  omega

theorem Plain.delivers {len : Nat} {payload plain : List Byte} (fits : Plain len payload plain) (r : Receiver Key) :
    deliver len plain r = (some payload, { r with seq_in := (r.seq_in + 1) % 2 ^ 32 }) := by
  simp only [deliver, fits.holds]

theorem body_next {head body payload ws : List Byte} (opens : Opens cipher r.lock payload (head ++ body))
    (long : head.length = 4) (none : r.head = []) (split : r.stream = body ++ ws) :
    ((body_packet cipher line head r).1 = some payload ∧ After r ws (body_packet cipher line head r).2) ∨
      ((body_packet cipher line head r).1 = Option.none ∧ (body_packet cipher line head r).2.peer_gone = true ∧
        Broken line (body_packet cipher line head r).2.clock) := by
  generalize locked : r.lock = lock at opens
  generalize whole : head ++ body = bytes at opens
  cases opens with
  | @clear len _ plain fits =>
    obtain ⟨rfl, rfl⟩ := List.append_inj whole long
    have plainly : r.encrypted = false := by
      by_contra sealed
      rw [Receiver.lock, if_pos (by simpa using sealed)] at locked
      cases locked
    have inside : ¬ (len < 8 ∨ PKT_MAX - 32 < len) := by
      have least := fits.least
      have most := fits.most
      omega
    rcases (@read_exact_next _ line) split fits.whole with ⟨clock, read⟩ | ⟨r', read, broken⟩
    · refine .inl ?_
      simp only [body_packet, word_head fits.most, if_neg inside, read, plainly, Bool.not_false, if_true,
        fits.delivers]
      exact ⟨trivial, none, rfl, plainly.symm, by simp [Receiver.lock, advance, plainly], rfl⟩
    · refine .inr ?_
      simp only [body_packet, word_head fits.most, if_neg inside, read]
      exact ⟨rfl, rfl, broken⟩
  | @locked len _ plain key iv sealed tag fits full tagged opened =>
    obtain ⟨rfl, rfl⟩ := List.append_inj whole long
    have locks : r.encrypted = true ∧ r.gcm_in = key ∧ r.iv_in = iv := by
      by_cases encrypted : r.encrypted
      · rw [Receiver.lock, if_pos encrypted] at locked
        cases locked
        exact ⟨encrypted, rfl, rfl⟩
      · rw [Receiver.lock, if_neg encrypted] at locked
        cases locked
    obtain ⟨encrypted, rfl, rfl⟩ := locks
    have inside : ¬ (len < 8 ∨ PKT_MAX - 32 < len) := by
      have least := fits.least
      have most := fits.most
      omega
    rw [List.append_assoc] at split
    rcases (@read_exact_next _ line) split full with ⟨clock, read⟩ | ⟨r', read, broken⟩
    · rcases (@read_exact_next _ line { r with stream := tag ++ ws, clock := clock }) rfl tagged with
        ⟨clock', closed⟩ | ⟨r', closed, broken⟩
      · refine .inl ?_
        rw [encrypted] at closed
        simp only [body_packet, word_head fits.most, if_neg inside, read, encrypted, Bool.not_true,
          Bool.false_eq_true, if_false, closed, opened, fits.delivers]
        exact ⟨trivial, none, rfl, encrypted.symm, by simp [Receiver.lock, advance, encrypted], rfl⟩
      · refine .inr ?_
        rw [encrypted] at closed
        simp only [body_packet, word_head fits.most, if_neg inside, read, encrypted, Bool.not_true,
          Bool.false_eq_true, if_false, closed]
        exact ⟨rfl, rfl, broken⟩
    · refine .inr ?_
      simp only [body_packet, word_head fits.most, if_neg inside, read]
      exact ⟨rfl, rfl, broken⟩

theorem Opens.head {lock : Option (Key × Iv)} {payload bytes : List Byte} (opens : Opens cipher lock payload bytes) :
    ∃ head body, bytes = head ++ body ∧ head.length = 4 := by
  cases opens with
  | clear => exact ⟨_, _, rfl, rfl⟩
  | locked => exact ⟨_, _, rfl, rfl⟩

/-- Packets that are on their way: those of now, and those behind the next keys. -/
structure Awaits (cipher : Cipher Key) (key : Key) (iv : Iv) (r : Receiver Key) (now later : List (List Byte)) :
    Prop where
  short : r.head.length < 4
  stream : ∃ ws ws', r.head ++ r.stream = ws ++ ws' ∧ Carries cipher r.lock now ws ∧
    Carries cipher (some (key, iv)) later ws'

/-- How a call of `recv_packet` ends. -/
inductive Answer (cipher : Cipher Key) (line : Line) (key : Key) (iv : Iv) (ms : Nat) (r : Receiver Key) :
    List (List Byte) → List (List Byte) → Option (List Byte) × Receiver Key → Prop
  | next {payload now later r'} (awaits : Awaits cipher key iv r' now later) (same : r'.encrypted = r.encrypted)
      (stays : r'.peer_gone = r.peer_gone) : Answer cipher line key iv ms r (payload :: now) later (some payload, r')
  | notYet {now later r'} (awaits : Awaits cipher key iv r' now later) (same : r'.encrypted = r.encrypted)
      (stays : r'.peer_gone = r.peer_gone) (silent : now ≠ [] → Silent line (turns ms) r'.clock) :
      Answer cipher line key iv ms r now later (none, r')
  | excess {now later r'} (gone : r'.peer_gone = true) (broken : Broken line r'.clock) :
      Answer cipher line key iv ms r now later (none, r')

theorem recv_answer {key : Key} {iv : Iv} {now later : List (List Byte)} (awaits : Awaits cipher key iv r now later)
    (first : now = [] → later = []) :
    Answer cipher line key iv ms r now later (recv_packet cipher line ms r) := by
  obtain ⟨short, ws, ws', split, mine, others⟩ := awaits
  have fills := (@fill_fills _ line _ ms _ r) short.le
  have same := fills.same
  have keeps : (fill line 4 ms r.head r).outcome ≠ .full → Awaits cipher key iv
      { (fill line 4 ms r.head r).rest with head := (fill line 4 ms r.head r).bytes } now later := by
    intro part
    refine ⟨fills.short part, ws, ws', fills.split.trans split, ?_, others⟩
    rw [same]
    exact mine
  cases outcome : (fill line 4 ms r.head r).outcome with
  | quiet =>
    simp only [recv_packet, outcome]
    refine .notYet (keeps (by simp [outcome])) (by rw [same]) (by rw [same]) ?_
    intro some
    cases mine with
    | nil => exact absurd rfl some
    | cons opens rest =>
      obtain ⟨head, body, rfl, long⟩ := opens.head
      have enough := congrArg List.length split
      simp only [List.length_append] at enough
      exact fills.quiet outcome (by omega)
  | lost =>
    simp only [recv_packet, outcome]
    exact .excess rfl (.inl (fills.lost outcome))
  | full =>
    simp only [recv_packet, outcome]
    cases mine with
    | nil =>
      cases first rfl
      cases others
      have none := congrArg List.length (fills.split.trans split)
      have all := fills.full outcome
      simp only [List.append_nil, List.length_append, List.length_nil] at none
      omega
    | @cons _ payload rest bytes ws opens after =>
      obtain ⟨head, body, rfl, long⟩ := opens.head
      rw [List.append_assoc, List.append_assoc] at split
      obtain ⟨taken, left⟩ := fills.front outcome split long
      have behind : { (fill line 4 ms r.head r).rest with head := [] }.lock = r.lock := by
        rw [same]
        rfl
      rw [taken]
      rcases (@body_next _ _ line { (fill line 4 ms r.head r).rest with head := [] })
          (behind ▸ opens) long rfl left with ⟨answer, next⟩ | ⟨answer, gone, broken⟩
      · rw [← Prod.eta (body_packet ..), answer]
        refine .next ⟨by simp [next.head], ws, ws', ?_, ?_, others⟩ ?_ ?_
        · rw [next.head, next.stream, List.nil_append]
        · rw [next.lock, behind]
          exact after
        · rw [next.encrypted, same]
        · rw [next.gone, same]
      · rw [← Prod.eta (body_packet ..), answer]
        exact .excess gone broken

end Calls

/-- Every call hands over the next payload, gives up after as long a silence as it was asked to
wait for, or ends a connection that is broken. -/
inductive Inbox.Step (line : Line) (payloads : List (List Byte)) (ms : Nat) (t t' : Inbox Key) : Prop
  | next {payload} (head : payloads[t.got.length]? = some payload) (got : t'.got = t.got ++ [payload])
      (stays : t'.r.peer_gone = false)
  | notYet (got : t'.got = t.got) (stays : t'.r.peer_gone = false)
      (silent : t.got ≠ payloads → Silent line (turns ms) t'.r.clock)
  | excess (got : t'.got = t.got) (gone : t'.r.peer_gone = true) (broken : Broken line t'.r.clock)

section Runs
variable {cipher : Cipher Key} {line : Line} {key : Key} {iv : Iv} {clear sealed : List (List Byte)} {t : Inbox Key}

structure Inbox.Follows (cipher : Cipher Key) (key : Key) (iv : Iv) (clear sealed : List (List Byte)) (t : Inbox Key) :
    Prop where
  arrived : t.got <+: clear ++ sealed
  awaits : t.r.peer_gone = false → ∃ now later, Awaits cipher key iv t.r now later ∧
    t.got ++ (now ++ later) = clear ++ sealed ∧ later = if t.r.encrypted then [] else sealed

theorem Inbox.Follows.turn (follows : t.Follows cipher key iv clear sealed) (goes : t.r.peer_gone = false) :
    (t.keyed key iv clear.length).peer_gone = false ∧
      ∃ now later, Awaits cipher key iv (t.keyed key iv clear.length) now later ∧
        t.got ++ (now ++ later) = clear ++ sealed ∧ (now = [] → later = []) ∧
        later = if (t.keyed key iv clear.length).encrypted then [] else sealed := by
  obtain ⟨now, later, awaits, all, ahead⟩ := follows.awaits goes
  by_cases encrypted : t.r.encrypted
  · have same : t.keyed key iv clear.length = t.r := by simp [Inbox.keyed, encrypted]
    rw [if_pos encrypted] at ahead
    rw [same, if_pos encrypted]
    exact ⟨goes, now, later, awaits, all, fun _ => ahead, ahead⟩
  · rw [if_neg encrypted] at ahead
    rw [ahead, ← List.append_assoc] at all
    have first := List.append_cancel_right all
    have count := congrArg List.length first
    rw [List.length_append] at count
    by_cases last : t.got.length = clear.length
    · have turned : t.keyed key iv clear.length = t.r.newkeys key iv := by simp [Inbox.keyed, encrypted, last]
      have none : now = [] := List.length_eq_zero_iff.mp (by omega)
      obtain ⟨short, ws, ws', split, mine, others⟩ := awaits
      rw [none] at mine
      cases mine
      rw [turned]
      refine ⟨goes, sealed, [], ⟨short, ws', [], ?_, ahead ▸ others, .nil⟩, ?_, fun _ => rfl, rfl⟩
      · rw [List.append_nil]
        exact split
      · rw [← first, none]
        simp
    · have same : t.keyed key iv clear.length = t.r := by simp [Inbox.keyed, last]
      rw [same, if_neg encrypted]
      refine ⟨goes, now, later, awaits, by rw [ahead, ← List.append_assoc, all], ?_, ahead⟩
      intro none
      rw [none, List.length_nil] at count
      omega

theorem Inbox.Follows.call (follows : t.Follows cipher key iv clear sealed) (ms : Nat) :
    (t.call cipher line key iv clear.length ms).Follows cipher key iv clear sealed ∧
      (t.r.peer_gone = false →
        t.Step line (clear ++ sealed) ms (t.call cipher line key iv clear.length ms)) := by
  by_cases gone : t.r.peer_gone
  · simp [Inbox.call, gone, follows]
  · have goes : t.r.peer_gone = false := by simpa using gone
    obtain ⟨stays, now, later, awaits, all, first, ahead⟩ := follows.turn goes
    have answer := (@recv_answer _ _ line ms) awaits first
    have called : t.call cipher line key iv clear.length ms =
        ⟨(recv_packet cipher line ms (t.keyed key iv clear.length)).2,
          t.got ++ (recv_packet cipher line ms (t.keyed key iv clear.length)).1.toList⟩ := by
      simp only [Inbox.call, goes, Bool.false_eq_true, if_false]
    rw [called]
    generalize recv_packet cipher line ms (t.keyed key iv clear.length) = out at answer
    cases answer with
    | @next payload now _ r' awaits same still =>
      have more : t.got ++ [payload] ++ (now ++ later) = clear ++ sealed := by simpa using all
      refine ⟨⟨⟨_, more⟩, fun _ => ⟨now, later, awaits, more, by rw [ahead, same]⟩⟩, fun _ => .next ?_ rfl ?_⟩
      · rw [← all]
        simp
      · exact still.trans stays
    | notYet awaits same still silent =>
      simp only [Option.toList_none, List.append_nil]
      refine ⟨⟨follows.arrived, fun _ => ⟨now, later, awaits, all, by rw [ahead, same]⟩⟩, fun _ =>
        .notYet rfl (still.trans stays) ?_⟩
      intro more
      apply silent
      intro none
      rw [none, first none] at all
      exact more (by simpa using all)
    | excess gone broken =>
      simp only [Option.toList_none, List.append_nil]
      refine ⟨⟨follows.arrived, fun goes => ?_⟩, fun _ => .excess rfl gone broken⟩
      cases gone.symm.trans goes

theorem Inbox.Follows.calls (follows : t.Follows cipher key iv clear sealed) (calls : List Nat) :
    (calls.foldl (Inbox.call cipher line key iv clear.length) t).Follows cipher key iv clear sealed := by
  induction calls generalizing t with
  | nil => exact follows
  | cons ms rest ih => exact ih (follows.call ms).1

end Runs

section Sends
variable {cipher : Cipher Key} {line : Line} {s : Sender Key}

theorem padding_rule (encrypted : Bool) (n : Nat) : 4 ≤ padding encrypted n ∧ padding encrypted n < 20 ∧
    if encrypted then 16 ∣ (1 + n + padding encrypted n) % 2 ^ 32
    else 8 ∣ 4 + (1 + n + padding encrypted n) % 2 ^ 32 := by
  cases encrypted with
  | true =>
    simp only [padding, if_true]
    split <;> omega
  | false =>
    simp only [padding, Bool.false_eq_true, if_false]
    split <;> omega

def Fits (encrypted : Bool) (pl : List Byte) : Prop := 1 + pl.length + padding encrypted pl.length ≤ PKT_MAX - 32

instance (encrypted : Bool) (pl : List Byte) : Decidable (Fits encrypted pl) := inferInstanceAs (Decidable (_ ≤ _))

theorem body_plain {encrypted : Bool} {pl : List Byte} (fits : Fits encrypted pl) (random : Nat → Byte) :
    (1 + pl.length + padding encrypted pl.length) % 2 ^ 32 = 1 + pl.length + padding encrypted pl.length ∧
    Plain (1 + pl.length + padding encrypted pl.length) pl
      ((BitVec.ofNat 8 (padding encrypted pl.length) :: pl ++
        (List.range (padding encrypted pl.length)).map random).take (1 + pl.length + padding encrypted pl.length)) := by
  obtain ⟨least, most, blocks⟩ := padding_rule encrypted pl.length
  have limit := fits
  unfold Fits PKT_MAX at limit
  have word : (1 + pl.length + padding encrypted pl.length) % 2 ^ 32 = 1 + pl.length + padding encrypted pl.length :=
    Nat.mod_eq_of_lt (by omega)
  have long : (BitVec.ofNat 8 (padding encrypted pl.length) :: pl ++
      (List.range (padding encrypted pl.length)).map random).length = 1 + pl.length + padding encrypted pl.length := by
    simp only [List.length_append, List.length_cons, List.length_map, List.length_range]
    omega
  rw [word] at blocks
  refine ⟨word, ?_, fits, ?_, ?_⟩
  · split at blocks <;> omega
  · rw [List.length_take, long, Nat.min_self]
  · rw [← long, List.take_length]
    have byte : (BitVec.ofNat 8 (padding encrypted pl.length)).toNat = padding encrypted pl.length :=
      (BitVec.toNat_ofNat ..).trans (Nat.mod_eq_of_lt (by omega))
    have room : ¬ 1 + pl.length + padding encrypted pl.length < padding encrypted pl.length + 1 := by omega
    have count : 1 + pl.length + padding encrypted pl.length - padding encrypted pl.length - 1 = pl.length := by omega
    rw [long]
    simp only [unpad, List.cons_append, List.getElem?_cons_zero, Option.getD_some, byte, if_neg room, count,
      List.drop_succ_cons, List.drop_zero, List.take_left]

theorem write_all_true {p : List Byte} (sent : (write_all line p s).1 = true) :
    (write_all line p s).2.wire = s.wire ++ p := by
  have ends := (@Patience.move_ends line p.length p.length 30000) 0 s.clock
  simp only [write_all, decide_eq_true_eq] at sent ⊢
  rw [List.take_of_length_le (ends.full sent)]

theorem send_opens (decrypts : cipher.Decrypts) {a : Attempt} (fits : Fits s.encrypted a.pl)
    (sent : (send_packet cipher line a s).1 = true) :
    ∃ bytes, (send_packet cipher line a s).2.wire = s.wire ++ bytes ∧ Opens cipher s.lock a.pl bytes ∧
      (send_packet cipher line a s).2.lock = advance s.lock ∧
      (send_packet cipher line a s).2.encrypted = s.encrypted := by
  obtain ⟨pl, random⟩ := a
  cases random with
  | none =>
    simp only [send_packet] at sent
    split at sent <;> cases sent
  | some random =>
    obtain ⟨word, plain⟩ := body_plain fits random
    have goes : ¬ PKT_MAX < (4 + (1 + pl.length + padding s.encrypted pl.length) + 16) % 2 ^ 32 := by
      have limit := fits
      unfold Fits PKT_MAX at limit
      unfold PKT_MAX
      simp only at limit
      omega
    simp only [send_packet, word, if_neg goes] at sent ⊢
    by_cases encrypted : s.encrypted
    · simp only [encrypted, Bool.not_true, Bool.false_eq_true, if_false] at sent plain ⊢
      cases sealed : cipher.crypt_and_tag s.gcm_out s.iv_out
          (w_u32 (1 + pl.length + padding true pl.length))
          ((BitVec.ofNat 8 (padding true pl.length) :: pl ++ (List.range (padding true pl.length)).map random).take
            (1 + pl.length + padding true pl.length)) with
      | none =>
        simp only [sealed] at sent
        cases sent
      | some parts =>
        obtain ⟨body, tag⟩ := parts
        simp only [sealed] at sent ⊢
        obtain ⟨long, tagged, opened⟩ := decrypts _ _ _ _ _ _ sealed
        refine ⟨_, write_all_true sent, ?_, ?_, ?_⟩
        · rw [Sender.lock, if_pos encrypted]
          exact .locked plain (long.trans plain.whole) tagged opened
        · simp [write_all, Sender.lock, encrypted, advance]
        · simp [write_all]
    · simp only [encrypted, Bool.not_false, if_true] at sent plain ⊢
      refine ⟨_, write_all_true sent, ?_, ?_, ?_⟩
      · rw [Sender.lock, if_neg encrypted]
        exact .clear plain
      · simp [write_all, Sender.lock, encrypted, advance]
      · simp [write_all]

theorem send_all_carries (decrypts : cipher.Decrypts) {attempts : List Attempt}
    (fits : ∀ a ∈ attempts, Fits s.encrypted a.pl) (sent : (send_all cipher line attempts s).1 = true) :
    ∃ ws, (send_all cipher line attempts s).2.wire = s.wire ++ ws ∧
      Carries cipher s.lock (attempts.map Attempt.pl) ws := by
  induction attempts generalizing s with
  | nil => exact ⟨[], by simp [send_all], .nil⟩
  | cons a rest ih =>
    simp only [send_all, Bool.and_eq_true] at sent ⊢
    obtain ⟨bytes, wire, opens, lock, same⟩ := send_opens decrypts (fits a List.mem_cons_self) sent.1
    obtain ⟨ws, wires, others⟩ := ih (fun b member => same ▸ fits b (List.mem_cons_of_mem a member)) sent.2
    refine ⟨bytes ++ ws, by rw [wires, wire, List.append_assoc], .cons opens ?_⟩
    rw [← lock]
    exact others

theorem send_logs (a : Attempt) :
    (send_packet cipher line a s).2.encrypted = s.encrypted ∧
    (((send_packet cipher line a s).1 = false ∧ (send_packet cipher line a s).2.sent = s.sent ∧
        (send_packet cipher line a s).2.lock = s.lock) ∨
      ((send_packet cipher line a s).2.sent = s.sent ++ [⟨padding s.encrypted a.pl.length,
          (1 + a.pl.length + padding s.encrypted a.pl.length) % 2 ^ 32, s.lock⟩] ∧
        (send_packet cipher line a s).2.lock = advance s.lock)) := by
  obtain ⟨pl, random⟩ := a
  by_cases long : PKT_MAX < (4 + (1 + pl.length + padding s.encrypted pl.length) % 2 ^ 32 + 16) % 2 ^ 32
  · simp only [send_packet, if_pos long]
    exact ⟨trivial, .inl ⟨trivial, trivial, trivial⟩⟩
  cases random with
  | none =>
    simp only [send_packet, if_neg long]
    exact ⟨trivial, .inl ⟨trivial, trivial, trivial⟩⟩
  | some random =>
    by_cases encrypted : s.encrypted
    · have locked : s.lock = some (s.gcm_out, s.iv_out) := by rw [Sender.lock, if_pos encrypted]
      rw [encrypted] at long
      simp only [send_packet, encrypted, if_neg long, Bool.not_true, Bool.false_eq_true, if_false]
      split
      · exact ⟨rfl, .inl ⟨rfl, rfl, by simp [Sender.lock, encrypted]⟩⟩
      · exact ⟨rfl, .inr ⟨by rw [locked]; rfl, by rw [locked]; simp [write_all, Sender.lock, advance]⟩⟩
    · have clear : s.lock = none := by rw [Sender.lock, if_neg encrypted]
      rw [Bool.not_eq_true] at encrypted
      rw [encrypted] at long
      simp only [send_packet, encrypted, if_neg long, Bool.not_false, if_true]
      exact ⟨rfl, .inr ⟨by rw [clear]; rfl, by rw [clear]; simp [write_all, Sender.lock, advance]⟩⟩

theorem send_all_logs (attempts : List Attempt) (s : Sender Key) :
    (send_all cipher line attempts s).2.encrypted = s.encrypted ∧
    ∃ k, (send_all cipher line attempts s).2.sent.map Sent.lock =
        s.sent.map Sent.lock ++ (List.range k).map (fun i => advance^[i] s.lock) ∧
      ((send_all cipher line attempts s).1 = true → k = attempts.length) := by
  induction attempts generalizing s with
  | nil => exact ⟨rfl, 0, by simp [send_all], fun _ => rfl⟩
  | cons a rest ih =>
    obtain ⟨same, logged⟩ := (@send_logs _ cipher line s) a
    obtain ⟨others, k, locks, all⟩ := ih (send_packet cipher line a s).2
    refine ⟨others.trans same, ?_⟩
    simp only [send_all]
    rcases logged with ⟨refused, sent, lock⟩ | ⟨sent, lock⟩
    · exact ⟨k, by rw [locks, sent, lock], by simp [refused]⟩
    · refine ⟨k + 1, ?_, fun accepted => ?_⟩
      · rw [locks, sent, lock, List.range_succ_eq_map, List.map_append, List.append_assoc]
        simp only [List.map_cons, List.map_nil, List.map_map, List.cons_append, List.nil_append]
        rfl
      · rw [all (by simp_all), List.length_cons]

theorem advance_iterate (key : Key) (iv : Iv) (n : Nat) : advance^[n] (some (key, iv)) = some (key, bump^[n] iv) := by
  induction n with
  | zero => rfl
  | succ n ih => rw [Function.iterate_succ_apply', Function.iterate_succ_apply', ih]; rfl

theorem advance_none (n : Nat) : advance^[n] (none : Option (Key × Iv)) = none := by
  induction n with
  | zero => rfl
  | succ n ih => rw [Function.iterate_succ_apply', ih]; rfl

def Sent.Padded (p : Sent Key) : Prop :=
  4 ≤ p.pad ∧ (p.lock = none → 8 ∣ 4 + p.len) ∧ (p.lock ≠ none → 16 ∣ p.len)

theorem send_all_padded (attempts : List Attempt) (padded : ∀ p ∈ s.sent, p.Padded) :
    ∀ p ∈ (send_all cipher line attempts s).2.sent, p.Padded := by
  induction attempts generalizing s with
  | nil => exact padded
  | cons a rest ih =>
    refine ih ?_
    rcases ((@send_logs _ cipher line s) a).2 with ⟨_, sent, _⟩ | ⟨sent, _⟩
    · rw [sent]
      exact padded
    · rw [sent]
      intro p member
      rcases List.mem_append.mp member with old | new
      · exact padded p old
      · obtain ⟨least, _, blocks⟩ := padding_rule s.encrypted a.pl.length
        rw [List.mem_singleton.mp new]
        refine ⟨least, ?_, ?_⟩
        · intro clear
          rw [if_neg (fun encrypted => by simp [Sender.lock, encrypted] at clear)] at blocks
          exact blocks
        · intro locked
          rw [if_pos (by by_contra clear; simp [Sender.lock, clear] at locked)] at blocks
          exact blocks

end Sends

section Connection

/-- One half of it sends, first in the clear; before the keys there is something else in their place. -/
def sending (cipher : Cipher Key) (line : Line) (old : Key × Iv) (key : Key) (iv : Iv) (clear sealed : List Attempt) :
    Bool × Sender Key :=
  let first := send_all cipher line clear (Sender.begin old.1 old.2)
  let second := send_all cipher line sealed (first.2.newkeys key iv)
  (first.1 && second.1, second.2)

def receiving (cipher : Cipher Key) (line : Line) (old : Key × Iv) (key : Key) (iv : Iv) (clear : Nat)
    (stream : List Byte) (calls : List Nat) : Inbox Key :=
  calls.foldl (Inbox.call cipher line key iv clear) ⟨Receiver.begin old.1 old.2 stream, []⟩

def Sender.locks (s : Sender Key) : List (Key × Iv) := s.sent.filterMap Sent.lock

variable {cipher : Cipher Key}

theorem sending_carries (decrypts : cipher.Decrypts) {line : Line} {old : Key × Iv} {key : Key} {iv : Iv}
    {clear sealed : List Attempt} (accepted : (sending cipher line old key iv clear sealed).1 = true)
    (small : ∀ a ∈ clear, Fits false a.pl) (small' : ∀ a ∈ sealed, Fits true a.pl) :
    ∃ ws ws', (sending cipher line old key iv clear sealed).2.wire = ws ++ ws' ∧
      Carries cipher none (clear.map Attempt.pl) ws ∧
      Carries cipher (some (key, iv)) (sealed.map Attempt.pl) ws' := by
  simp only [sending, Bool.and_eq_true] at accepted ⊢
  obtain ⟨ws, wire, first⟩ := send_all_carries (s := Sender.begin old.1 old.2) decrypts small accepted.1
  obtain ⟨ws', wire', second⟩ := send_all_carries decrypts small' accepted.2
  exact ⟨ws, ws', wire'.trans (congrArg (· ++ ws') (wire.trans (List.nil_append ws))), first, second⟩

theorem sending_locks (line : Line) (old : Key × Iv) (key : Key) (iv : Iv) (clear sealed : List Attempt) :
    ∃ k, (sending cipher line old key iv clear sealed).2.locks = (List.range k).map (fun i => (key, bump^[i] iv)) ∧
      ((sending cipher line old key iv clear sealed).1 = true → k = sealed.length) := by
  obtain ⟨_, n, first, _⟩ := (@send_all_logs _ cipher line) clear (Sender.begin old.1 old.2)
  obtain ⟨_, k, second, all⟩ := (@send_all_logs _ cipher line) sealed
    ((send_all cipher line clear (Sender.begin old.1 old.2)).2.newkeys key iv)
  refine ⟨k, ?_, fun accepted => all (by simp [sending] at accepted; exact accepted.2)⟩
  have plain : (send_all cipher line clear (Sender.begin old.1 old.2)).2.sent.map Sent.lock =
      (List.range n).map (fun _ => none) := by
    rw [first]
    exact (List.nil_append _).trans (List.map_congr_left fun i _ => advance_none i)
  have locked : (sending cipher line old key iv clear sealed).2.sent.map Sent.lock =
      (List.range n).map (fun _ => none) ++ (List.range k).map (fun i => some (key, bump^[i] iv)) := by
    rw [← plain]
    refine second.trans (congrArg _ (List.map_congr_left fun i _ => ?_))
    exact advance_iterate key iv i
  have only : (sending cipher line old key iv clear sealed).2.locks =
      ((sending cipher line old key iv clear sealed).2.sent.map Sent.lock).filterMap id := by
    rw [List.filterMap_map]
    rfl
  rw [only, locked, List.filterMap_append, List.filterMap_map, List.filterMap_map]
  simp

theorem sending_padded (line : Line) (old : Key × Iv) (key : Key) (iv : Iv) (clear sealed : List Attempt) :
    ∀ p ∈ (sending cipher line old key iv clear sealed).2.sent, p.Padded := by
  have first : ∀ p ∈ (send_all cipher line clear (Sender.begin old.1 old.2)).2.sent, p.Padded :=
    send_all_padded clear (by simp [Sender.begin])
  exact send_all_padded sealed first

theorem receiving_follows {line : Line} {old : Key × Iv} {key : Key} {iv : Iv} {clear sealed : List (List Byte)}
    {stream ws ws' : List Byte} (split : stream = ws ++ ws') (first : Carries cipher none clear ws)
    (second : Carries cipher (some (key, iv)) sealed ws') (calls : List Nat) :
    (receiving cipher line old key iv clear.length stream calls).Follows cipher key iv clear sealed := by
  apply Inbox.Follows.calls
  refine ⟨List.nil_prefix, fun _ => ⟨clear, sealed, ⟨Nat.zero_lt_succ 3, ws, ws', split, first, second⟩, rfl, rfl⟩⟩

/-- Whatever pieces the stream comes in, every call hands over the next payload, gives up after a
silence of its patience, or ends a connection whose socket failed or was silent for the 1001
calls of five seconds in the middle of a packet. Packets are padded to their blocks, and nonces
under a key come back after 2^64 of them only. -/
theorem packets_arrive (cipher : Cipher Key) (decrypts : cipher.Decrypts) (out line : Line) (old : Key × Iv) (key : Key)
    (iv : Iv) (clear sealed : List Attempt) :
    ((sending cipher out old key iv clear sealed).1 = true → (∀ a ∈ clear, Fits false a.pl) →
      (∀ a ∈ sealed, Fits true a.pl) → ∀ calls ms,
      let t := receiving cipher line old key iv clear.length (sending cipher out old key iv clear sealed).2.wire calls
      t.got <+: (clear ++ sealed).map Attempt.pl ∧
        (t.r.peer_gone = false → t.Step line ((clear ++ sealed).map Attempt.pl) ms
          (t.call cipher line key iv clear.length ms))) ∧
    (∀ p ∈ (sending cipher out old key iv clear sealed).2.sent, p.Padded) ∧
    ∀ i j a b, (sending cipher out old key iv clear sealed).2.locks[i]? = some a →
      (sending cipher out old key iv clear sealed).2.locks[j]? = some b → (a = b ↔ i ≡ j [MOD 2 ^ 64]) := by
  refine ⟨?_, sending_padded out old key iv clear sealed, ?_⟩
  · intro accepted small small' calls ms
    obtain ⟨ws, ws', split, first, second⟩ := sending_carries decrypts accepted small small'
    have follows := (@receiving_follows _ _ line old) split first second calls
    rw [List.length_map] at follows
    have step := ((@Inbox.Follows.call _ _ line) follows ms).2
    rw [List.length_map] at step
    rw [List.map_append]
    exact ⟨follows.arrived, step⟩
  · intro i j a b at_i at_j
    obtain ⟨k, locks, _⟩ := (@sending_locks _ cipher) out old key iv clear sealed
    rw [locks, List.getElem?_map, Option.map_eq_some_iff] at at_i at_j
    obtain ⟨i', is, rfl⟩ := at_i
    obtain ⟨j', js, rfl⟩ := at_j
    obtain ⟨_, same⟩ := List.getElem?_eq_some_iff.mp is
    obtain ⟨_, same'⟩ := List.getElem?_eq_some_iff.mp js
    rw [List.getElem_range] at same same'
    rw [← same, ← same', ← bump_eq_iff iv]
    simp

end Connection

def blank : Iv := fun _ => 0

def hello : List Byte := ascii "hello"

def padded_hello : List Byte := 10 :: hello ++ List.replicate 10 0

def locked_hello : List Byte :=
  [0xc4, 0xcf, 0x25, 0x51, 0x21, 0x0f, 0x6b, 0x6e, 0x07, 0x4e, 0xc5, 0xd3, 0xba, 0xf3, 0x9d, 0x18]

def hello_tag : List Byte :=
  [0x1a, 0x04, 0x76, 0xf3, 0x60, 0x39, 0x65, 0xac, 0x49, 0x96, 0xe9, 0xa0, 0xd5, 0x2f, 0xe7, 0xf1]

def sample : Cipher (BitVec 256) where
  crypt_and_tag key iv head plain :=
    if key = 0 ∧ iv = blank ∧ head = w_u32 16 ∧ plain = padded_hello then some (locked_hello, hello_tag)
    else some (plain, List.replicate 16 0)
  auth_decrypt key iv head tag body :=
    if key = 0 ∧ iv = blank ∧ head = w_u32 16 ∧ tag = hello_tag then
      if body = locked_hello then some padded_hello else none
    else some body

theorem sample_decrypts : sample.Decrypts := by
  intro key iv head plain body tag sealed
  simp only [sample] at sealed ⊢
  split at sealed
  · rename_i hit
    obtain ⟨rfl, rfl, rfl, rfl⟩ := hit
    cases sealed
    exact ⟨rfl, rfl, by simp⟩
  · cases sealed
    refine ⟨rfl, rfl, if_neg ?_⟩
    rintro ⟨-, -, -, same⟩
    exact absurd same (by decide)

def newkeysAttempt : Attempt := ⟨[21], some fun _ => 0⟩

def helloAttempt : Attempt := ⟨hello, some fun _ => 0⟩

def wide : Line := fun _ => some PKT_MAX

theorem write_all_wide {p : List Byte} (s : Sender Key) (some_ : 0 < p.length) (small : p.length ≤ PKT_MAX) :
    write_all wide p s = (true, { s with wire := s.wire ++ p, clock := s.clock + 1 }) := by
  have moves := (@Patience.move_once wide _ _ 30000 _ 0 s.clock) some_ rfl small le_rfl
  simp [write_all, moves]

theorem send_wide {cipher : Cipher Key} {a : Attempt} {random : Nat → Byte} (s : Sender Key)
    (given : a.random = some random) (small : Fits s.encrypted a.pl)
    (seals : ∀ key iv head plain, ∃ out tag, cipher.crypt_and_tag key iv head plain = some (out, tag) ∧
      out.length = plain.length ∧ tag.length = 16) :
    (send_packet cipher wide a s).1 = true := by
  obtain ⟨pl, random'⟩ := a
  cases given
  obtain ⟨word, plain⟩ := body_plain small random
  have whole := plain.whole
  have limit := small
  unfold Fits PKT_MAX at limit
  simp only at limit
  have goes : ¬ PKT_MAX < (4 + (1 + pl.length + padding s.encrypted pl.length) + 16) % 2 ^ 32 := by
    unfold PKT_MAX
    omega
  simp only [send_packet, word, if_neg goes]
  split
  · rw [write_all_wide]
    · simp [w_u32]
    · rw [List.length_append, whole]
      simp only [w_u32, List.length_cons, List.length_nil, PKT_MAX]
      omega
  · obtain ⟨out, tag, sealed, long, tagged⟩ := seals s.gcm_out s.iv_out
      (w_u32 (1 + pl.length + padding s.encrypted pl.length))
      ((BitVec.ofNat 8 (padding s.encrypted pl.length) :: pl ++
        (List.range (padding s.encrypted pl.length)).map random).take (1 + pl.length + padding s.encrypted pl.length))
    rw [sealed]
    simp only
    rw [write_all_wide]
    · simp [w_u32]
    · rw [List.length_append, List.length_append, long, whole, tagged]
      simp only [w_u32, List.length_cons, List.length_nil, PKT_MAX]
      omega

theorem sample_seals (key : BitVec 256) (iv : Iv) (head plain : List Byte) :
    ∃ out tag, sample.crypt_and_tag key iv head plain = some (out, tag) ∧
      out.length = plain.length ∧ tag.length = 16 := by
  simp only [sample]
  split
  · rename_i hit
    obtain ⟨-, -, -, rfl⟩ := hit
    exact ⟨_, _, rfl, rfl, rfl⟩
  · exact ⟨_, _, rfl, rfl, rfl⟩

theorem hello_accepted (n : Nat) (s : Sender (BitVec 256)) (encrypted : s.encrypted = true) :
    (send_all sample wide (List.replicate n helloAttempt) s).1 = true := by
  induction n generalizing s with
  | zero => rfl
  | succ n ih =>
    have fits : Fits s.encrypted hello := by
      rw [encrypted]
      decide
    have first := send_wide s (a := helloAttempt) rfl fits sample_seals
    have same := ((@send_logs _ sample wide s) helloAttempt).1
    simp only [List.replicate_succ, send_all, Bool.and_eq_true]
    exact ⟨first, ih _ (same.trans encrypted)⟩

def greeting (n : Nat) : Bool × Sender (BitVec 256) :=
  sending sample wide (0, blank) 0 blank [newkeysAttempt] (List.replicate n helloAttempt)

theorem greeting_accepted (n : Nat) : (greeting n).1 = true := by
  have first := send_wide (Sender.begin (0 : BitVec 256) blank) (a := newkeysAttempt) rfl (by decide) sample_seals
  simp only [greeting, sending, send_all, Bool.and_true, Bool.and_eq_true]
  exact ⟨first, hello_accepted n _ rfl⟩

theorem packets_arrive_hello :
    (greeting 1).1 = true ∧
      (receiving sample (fun _ => some 3) (0, blank) 0 blank 1 (greeting 1).2.wire [0, 0]).got <+: [[21], hello] :=
  ⟨greeting_accepted 1,
    ((packets_arrive sample sample_decrypts wide (fun _ => some 3) (0, blank) 0 blank [newkeysAttempt]
      [helloAttempt]).1 (greeting_accepted 1) (by decide) (by decide) [0, 0] 0).1⟩

def stalled : Line := fun call => if call = 0 then some 4 else if call ≤ 1200 then some 0 else some PKT_MAX

def newkeysPacket : List Byte := w_u32 12 ++ (10 :: 21 :: List.replicate 10 0)

theorem newkeys_sent : send_packet sample wide newkeysAttempt (Sender.begin 0 blank) =
    (true, { Sender.begin 0 blank with
      seq_out := 1, wire := newkeysPacket, clock := 1, sent := [⟨10, 12, none⟩] }) := by
  have body : ((BitVec.ofNat 8 10 :: [21] ++ (List.range 10).map fun _ => 0).take 12 : List Byte) =
      10 :: 21 :: List.replicate 10 0 := by decide
  have pad : padding false 1 = 10 := by decide
  have small : ¬ PKT_MAX < 32 := by decide
  simp only [send_packet, newkeysAttempt, Sender.begin, List.length_singleton, pad]
  simp only [Nat.reduceAdd, Nat.reducePow, Nat.reduceMod, if_neg small, body, Bool.not_false, if_true]
  rw [write_all_wide _ (by decide) (by decide)]
  rfl

theorem stalled_end (stream : List Byte) (long : stream.length = 12) :
    body_packet sample stalled (w_u32 12) { Receiver.begin 0 blank stream with clock := 1 } =
      (none, { Receiver.begin 0 blank stream with clock := 1002, peer_gone := true }) := by
  have still := (@Patience.move_still stalled 12 12 5000 0 1)
    (by decide) (by
      intro call from_ upto
      have quiet : stalled call = some 0 := by
        unfold Patience.turns at upto
        simp only [stalled]
        rw [if_neg (by omega), if_pos (by omega)]
      exact ⟨0, quiet, Nat.zero_min _⟩)
  have word : Memory.word (fun i => ((w_u32 12)[i]?).getD 0) 0 = 12 := by decide
  have nothing : read_exact stalled 12 5000 { Receiver.begin (0 : BitVec 256) blank stream with clock := 1 } =
      (none, { Receiver.begin 0 blank stream with clock := 1002 }) := by
    simp only [read_exact, fill, Receiver.begin, List.length_nil, Nat.zero_add, long, still]
    rfl
  simp only [body_packet, word, nothing]
  rfl

theorem Inbox.calls_gone {cipher : Cipher Key} {line : Line} {key : Key} {iv : Iv} {clear : Nat} {t : Inbox Key}
    (gone : t.r.peer_gone = true) (calls : List Nat) : calls.foldl (Inbox.call cipher line key iv clear) t = t := by
  induction calls with
  | nil => rfl
  | cons ms rest ih =>
    rw [List.foldl_cons, Inbox.call, if_pos gone]
    exact ih

theorem stalled_lost (calls : List Nat) :
    (receiving sample stalled (0, blank) 0 blank 1 (greeting 0).2.wire (0 :: calls)).got = [] := by
  have wire : (greeting 0).2.wire = newkeysPacket := by
    simp only [greeting, sending, send_all, newkeys_sent, Sender.newkeys, List.replicate_zero]
  have filled : fill stalled 4 0 [] (Receiver.begin (0 : BitVec 256) blank newkeysPacket) =
      ⟨.full, w_u32 12, { Receiver.begin 0 blank (newkeysPacket.drop 4) with clock := 1 }⟩ := by
    have moves := (@Patience.move_once stalled 4 newkeysPacket.length 0 0 0 0) (by decide) rfl le_rfl (by decide)
    simp only [fill, Receiver.begin, List.length_nil, Nat.zero_add, moves]
    rfl
  have first : Inbox.call sample stalled 0 blank 1 ⟨Receiver.begin 0 blank newkeysPacket, []⟩ 0 =
      ⟨{ Receiver.begin 0 blank (newkeysPacket.drop 4) with clock := 1002, peer_gone := true }, []⟩ := by
    have keyed : Inbox.keyed 0 blank 1 ⟨Receiver.begin (0 : BitVec 256) blank newkeysPacket, []⟩ =
        Receiver.begin 0 blank newkeysPacket := rfl
    have ended := stalled_end (newkeysPacket.drop 4) (by decide)
    simp only [Receiver.begin] at filled ended keyed
    simp only [Inbox.call, Receiver.begin, Bool.false_eq_true, if_false, keyed, recv_packet, filled, ended]
    rfl
  rw [wire, receiving, List.foldl_cons, first, Inbox.calls_gone rfl]

theorem hello_locks (n : Nat) :
    (greeting n).2.locks = (List.range n).map fun i => ((0 : BitVec 256), bump^[i] blank) := by
  obtain ⟨k, locks, all⟩ := (@sending_locks _ sample) wide (0, blank) 0 blank [newkeysAttempt]
    (List.replicate n helloAttempt)
  rw [greeting, locks, all (greeting_accepted n), List.length_replicate]

/-- A packet may come too late, the whole of a sealed packet is no number of blocks, and a nonce
comes back in the end. -/
theorem packets_astray :
    ((greeting 0).1 = true ∧ ∀ calls,
      (receiving sample stalled (0, blank) 0 blank 1 (greeting 0).2.wire (0 :: calls)).got = []) ∧
    (∃ p ∈ (greeting 1).2.sent, ¬ 16 ∣ 4 + p.len + 16 ∧ ¬ 16 ∣ 4 + p.len) ∧
    ∃ a, (greeting (2 ^ 64 + 1)).2.locks[0]? = some a ∧ (greeting (2 ^ 64 + 1)).2.locks[2 ^ 64]? = some a := by
  refine ⟨⟨greeting_accepted 0, stalled_lost⟩, ?_, (0, blank), ?_, ?_⟩
  · have locks := hello_locks 1
    have some_ : ∃ p ∈ (greeting 1).2.sent, p.lock = some (0, blank) := by
      have member : ((0 : BitVec 256), blank) ∈ (greeting 1).2.locks := by
        rw [locks]
        exact List.mem_cons_self
      exact List.mem_filterMap.mp member
    obtain ⟨p, member, lock⟩ := some_
    have blocks := (sending_padded wide (0, blank) 0 blank [newkeysAttempt] _ p member).2.2 (by simp [lock])
    exact ⟨p, member, by omega, by omega⟩
  · rw [hello_locks, List.getElem?_map, List.getElem?_range (Nat.succ_pos _)]
    rfl
  · have round : bump^[2 ^ 64] blank = blank := (bump_eq_iff blank (2 ^ 64) 0).mpr rfl
    rw [hello_locks, List.getElem?_map, List.getElem?_range (Nat.lt_succ_self _), Option.map_some, round]

end Ubiqos.Sshd.Packets
