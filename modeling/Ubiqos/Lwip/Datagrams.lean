import Mathlib.Data.Fintype.Pi
import Ubiqos.Lwip.Stream

/-!
The datagrams of `kernel/lwipsock.c`. A datagram goes into its socket's ring as a
record, a head and the bytes, and a receive of datagrams takes a record out again. A
receive of bytes takes from the same ring, and the ring goes on holding records as long
as it takes whole ones.
-/

namespace Ubiqos.Lwip

/-- `ubiqos_sockaddr_t`. -/
structure Sockaddr where
  family : Byte
  zone : Byte
  port : Port
  addr : Fin 16 → Byte
  deriving DecidableEq

/-- `ip_addr_t`. -/
inductive IpAddr
  | v4 (addr : Fin 4 → Byte)
  | v6 (addr : Fin 16 → Byte) (zone : Byte)
  deriving DecidableEq

def afInet : Byte := 4
def afInet6 : Byte := 6

/-- `to_sockaddr`. -/
def toSockaddr (a : IpAddr) (port : Port) : Sockaddr :=
  match a with
  | .v6 addr zone => ⟨afInet6, zone, port, addr⟩
  | .v4 addr => ⟨afInet, 0, port, fun k => if h : k.val < 4 then addr ⟨k, h⟩ else 0⟩

/-- `dgram_head_t`. -/
structure DgramHead where
  len : BitVec 16
  sender : Sockaddr
  deriving DecidableEq

/-- `sizeof(dgram_head_t)`. -/
def headSize : Nat := 22

def low (w : BitVec 16) : Byte := w.setWidth 8
def high (w : BitVec 16) : Byte := (w >>> 8).setWidth 8

def DgramHead.bytes (h : DgramHead) : List Byte :=
  [low h.len, high h.len, h.sender.family, h.sender.zone, low h.sender.port, high h.sender.port] ++
    List.ofFn h.sender.addr

def DgramHead.ofBytes (b : List Byte) : DgramHead where
  len := (b.getD 1 0) ++ (b.getD 0 0)
  sender :=
    { family := b.getD 2 0
      zone := b.getD 3 0
      port := (b.getD 5 0) ++ (b.getD 4 0)
      addr := fun k => b.getD (6 + k) 0 }

@[simp] theorem DgramHead.length_bytes (h : DgramHead) : h.bytes.length = headSize := by
  simp [DgramHead.bytes, headSize]

theorem high_low (w : BitVec 16) : high w ++ low w = w := by
  apply BitVec.eq_of_toNat_eq
  have small := w.isLt
  simp only [high, low, BitVec.toNat_append, BitVec.toNat_setWidth, BitVec.toNat_ushiftRight,
    Nat.shiftRight_eq_div_pow]
  rw [Nat.shiftLeft_eq, Nat.mul_comm, ← Nat.two_pow_add_eq_or_of_lt (Nat.mod_lt _ (by decide))]
  omega

theorem DgramHead.ofBytes_bytes (h : DgramHead) : DgramHead.ofBytes h.bytes = h := by
  have words : ∀ w : BitVec 16, high w ++ low w = w := high_low
  have addr : ∀ k : Fin 16, h.bytes.getD (6 + k) 0 = h.sender.addr k := by
    intro k
    rw [DgramHead.bytes, List.getD_eq_getElem?_getD, List.getElem?_append_right (by simp)]
    have place : 6 + k.val - 6 = k.val := Nat.add_sub_cancel_left 6 k.val
    simp only [List.length_cons, List.length_nil, Nat.reduceAdd, place, List.getElem?_ofFn, k.isLt,
      dite_true, Option.getD_some]
  cases h with
  | mk len sender =>
    simp only [DgramHead.ofBytes, addr]
    simp only [DgramHead.bytes, List.cons_append, List.getD_cons_zero, List.getD_cons_succ, words]

section Calls

/-- `pbuf_copy_partial`: so many bytes of a chain from a place of it on. -/
def copyPartial (p : Chain) (len offset : Nat) : List Byte := (p.flatten.drop offset).take len

/-- `ring_put`. -/
def Sock.ringPut (s : Sock) (src : List Byte) : Sock :=
  { s with
    ring := s.ring.map fun buf => Lwip.ringPut buf ((s.rhead + s.rcount) % rxring) src
    rcount := (s.rcount + src.length) % 2 ^ 16 }

/-- `ring_take`; the caller may throw the bytes away. -/
def Sock.ringTake (s : Sock) (n : Nat) : List Byte × Sock :=
  (Lwip.ringTake (s.ring.getD fun _ => 0) s.rhead n,
    { s with rhead := (s.rhead + n) % rxring, rcount := (s.rcount + (2 ^ 16 - n)) % 2 ^ 16 })

structure Letter where
  chain : Chain
  addr : IpAddr
  port : Port
  small : chain.flatten.length < 2 ^ 16

/-- `on_dgram`, and whether it counted the datagram as dropped. -/
def Sock.onDgram (s : Sock) (d : Letter) : Bool × Sock :=
  if !s.used || s.ring.isNone then (false, s)
  else
    let h : DgramHead := ⟨BitVec.ofNat 16 (totLen d.chain), toSockaddr d.addr d.port⟩
    if headSize + h.len.toNat > rxring - s.rcount then (true, s)
    else
      let s := s.ringPut h.bytes
      let tail := (s.rhead + s.rcount) % rxring
      let first := if h.len.toNat < rxring - tail then h.len.toNat else rxring - tail
      (false,
        { s with
          ring := s.ring.map fun buf =>
            let buf := copied buf tail (copyPartial d.chain first 0)
            -- the two halves of a wrap
            if first < h.len.toNat then
              copied buf 0 (copyPartial d.chain (h.len.toNat - first) first)
            else buf
          rcount := (s.rcount + h.len.toNat) % 2 ^ 16 })

/-- What a receive of a datagram comes to: it is refused, there is none, or there is one,
which may be empty. -/
inductive Recvfrom
  | refused
  | none
  | datagram (data : List Byte) (sender : Sockaddr)
  deriving DecidableEq

/-- `do_recvfrom` with room for `len` bytes. -/
def Sock.doRecvfrom (s : Sock) (len : Nat) : Recvfrom × Sock :=
  if !s.used || s.udp.isNone || s.ring.isNone then (.refused, s)
  else if s.rcount < headSize then (.none, s)
  else
    let (bytes, s) := s.ringTake headSize
    let h := DgramHead.ofBytes bytes
    let n := if h.len.toNat < len then h.len.toNat else len
    let (data, s) := s.ringTake n
    let (_, s) := s.ringTake (h.len.toNat - n)
    (.datagram data h.sender, s)

end Calls

section Records

def Letter.data (d : Letter) : List Byte := d.chain.flatten

def Letter.sender (d : Letter) : Sockaddr := toSockaddr d.addr d.port

def Letter.head (d : Letter) : DgramHead := ⟨BitVec.ofNat 16 (totLen d.chain), d.sender⟩

def Letter.record (d : Letter) : List Byte := d.head.bytes ++ d.data

def records (waiting : List Letter) : List Byte := waiting.flatMap Letter.record

variable (d : Letter)

@[simp] theorem Letter.head_len : d.head.len.toNat = d.data.length := by
  have total : totLen d.chain = d.data.length := Nat.mod_eq_of_lt d.small
  have small : d.data.length < 2 ^ 16 := d.small
  simp only [Letter.head, total, BitVec.toNat_ofNat, Nat.mod_eq_of_lt small]

@[simp] theorem Letter.length_record : d.record.length = headSize + d.data.length := by
  simp [Letter.record]

@[simp] theorem records_cons (rest : List Letter) :
    records (d :: rest) = d.record ++ records rest := List.flatMap_cons

theorem records_append (first second : List Letter) :
    records (first ++ second) = records first ++ records second := List.flatMap_append

theorem copyPartial_first (first : Nat) :
    copyPartial d.chain first 0 = d.data.take first := rfl

theorem copyPartial_second (first : Nat) :
    copyPartial d.chain (d.data.length - first) first = d.data.drop first := by
  rw [copyPartial, ← Letter.data, List.take_of_length_le (by simp)]

end Records

section Ring
variable {s : Sock}

structure Ringed (s : Sock) : Prop where
  ring : s.ring.isSome = true
  rhead : s.rhead < rxring
  rcount : s.rcount ≤ rxring

structure Kept (s t : Sock) : Prop where
  used : t.used = s.used
  udp : t.udp = s.udp
  rx : t.rx = s.rx

theorem Kept.trans {s t u : Sock} (first : Kept s t) (second : Kept t u) : Kept s u :=
  ⟨second.used.trans first.used, second.udp.trans first.udp, second.rx.trans first.rx⟩

theorem laid (src : List Byte) (is : Ringed s) (room : s.rcount + src.length ≤ rxring) :
    let t := { s with
      ring := s.ring.map fun buf => Lwip.ringPut buf ((s.rhead + s.rcount) % rxring) src
      rcount := (s.rcount + src.length) % 2 ^ 16 }
    Ringed t ∧ t.ringed = s.ringed ++ src ∧ t.rcount = s.rcount + src.length ∧ Kept s t := by
  have small : (s.rcount + src.length) % 2 ^ 16 = s.rcount + src.length := by
    have size : rxring = 2920 := rfl
    exact Nat.mod_eq_of_lt (by omega)
  obtain ⟨buf, ring⟩ := Option.isSome_iff_exists.mp is.ring
  refine ⟨⟨by simp [ring], is.rhead, small.le.trans room⟩, ?_, small, ⟨rfl, rfl, rfl⟩⟩
  simp only [Sock.ringed, ring, Option.map_some, Option.getD_some, small]
  rw [ringPut_eq src (Nat.mod_lt _ (by decide)) (by omega), Cyclic.contents_pushAll src room]

theorem ringPut_laid (src : List Byte) (is : Ringed s) (room : s.rcount + src.length ≤ rxring) :
    Ringed (s.ringPut src) ∧ (s.ringPut src).ringed = s.ringed ++ src ∧
      (s.ringPut src).rcount = s.rcount + src.length ∧ Kept s (s.ringPut src) := laid src is room

theorem ringTake_front {front rest : List Byte} (is : Ringed s) (ringed : s.ringed = front ++ rest) :
    let (bytes, t) := s.ringTake front.length
    bytes = front ∧ Ringed t ∧ t.ringed = rest ∧ t.rcount = rest.length ∧ Kept s t := by
  have count : s.rcount = front.length + rest.length := by
    rw [← length_ringed, ringed, List.length_append]
  have within : front.length ≤ s.rcount := by omega
  have size : rxring = 2920 := rfl
  have le := is.rcount
  have left : (s.rcount + (2 ^ 16 - front.length)) % 2 ^ 16 = s.rcount - front.length := by omega
  refine ⟨?_, ⟨is.ring, Nat.mod_lt _ (by decide), ?_⟩, ?_, ?_, rfl, rfl, rfl⟩
  · rw [ringTake_eq is.rhead (by omega), ← Cyclic.contents_take within]
    change s.ringed.take front.length = front
    rw [ringed, List.take_left]
  · change (s.rcount + (2 ^ 16 - front.length)) % 2 ^ 16 ≤ rxring
    omega
  · change Cyclic.contents rxring _ ((s.rhead + front.length) % rxring)
      ((s.rcount + (2 ^ 16 - front.length)) % 2 ^ 16) = rest
    rw [left, ← Cyclic.contents_drop]
    change s.ringed.drop front.length = rest
    rw [ringed, List.drop_left]
  · change (s.rcount + (2 ^ 16 - front.length)) % 2 ^ 16 = rest.length
    omega

variable {d : Letter} {waiting : List Letter}

theorem onDgram_drops (is : Ringed s) (used : s.used = true)
    (full : rxring < s.rcount + d.record.length) : s.onDgram d = (true, s) := by
  have le := is.rcount
  have excess : headSize + d.head.len.toNat > rxring - s.rcount := by
    rw [Letter.length_record] at full
    rw [Letter.head_len]
    omega
  simp only [Sock.onDgram, used, Option.isNone_eq_false_iff.mpr is.ring, Bool.not_true,
    Bool.or_self, Bool.false_eq_true, if_false]
  exact if_pos excess

theorem onDgram_stores (is : Ringed s) (used : s.used = true)
    (room : s.rcount + d.record.length ≤ rxring) :
    let (dropped, t) := s.onDgram d
    dropped = false ∧ Ringed t ∧ t.ringed = s.ringed ++ d.record ∧ Kept s t := by
  rw [Letter.length_record] at room
  have fits : ¬headSize + d.head.len.toNat > rxring - s.rcount := by
    rw [Letter.head_len]
    omega
  obtain ⟨isHead, headed, count, keptHead⟩ :=
    ringPut_laid d.head.bytes is (by rw [DgramHead.length_bytes]; omega)
  rw [DgramHead.length_bytes] at count
  obtain ⟨isWhole, whole, -, keptWhole⟩ := laid d.data isHead (by omega)
  have stored : s.onDgram d = (false,
      { s.ringPut d.head.bytes with
        ring := (s.ringPut d.head.bytes).ring.map fun buf => Lwip.ringPut buf
          (((s.ringPut d.head.bytes).rhead + (s.ringPut d.head.bytes).rcount) % rxring) d.data
        rcount := ((s.ringPut d.head.bytes).rcount + d.data.length) % 2 ^ 16 }) := by
    simp only [Sock.onDgram, used, Option.isNone_eq_false_iff.mpr is.ring, Bool.not_true,
      Bool.or_self, Bool.false_eq_true, if_false]
    refine (if_neg fits).trans ?_
    have len : (BitVec.ofNat 16 (totLen d.chain)).toNat = d.data.length := d.head_len
    simp only [len, copyPartial_first, copyPartial_second, Lwip.ringPut]
    rfl
  rw [stored]
  refine ⟨rfl, isWhole, ?_, keptHead.trans keptWhole⟩
  rw [whole, headed, List.append_assoc, Letter.record]

theorem doRecvfrom_none (is : Ringed s) (used : s.used = true) (udp : s.udp.isSome = true)
    (nothing : s.ringed = []) (len : Nat) : s.doRecvfrom len = (.none, s) := by
  have count : s.rcount = 0 := by rw [← length_ringed, nothing, List.length_nil]
  simp [Sock.doRecvfrom, used, Option.isNone_eq_false_iff.mpr is.ring,
    Option.isNone_eq_false_iff.mpr udp, count, headSize]

theorem doRecvfrom_first (is : Ringed s) (used : s.used = true) (udp : s.udp.isSome = true)
    (ringed : s.ringed = records (d :: waiting)) (len : Nat) :
    let (answer, t) := s.doRecvfrom len
    answer = .datagram (d.data.take len) d.sender ∧ Ringed t ∧ t.ringed = records waiting ∧
      Kept s t := by
  have enough : ¬s.rcount < headSize := by
    rw [← length_ringed, ringed, records_cons, List.length_append, Letter.length_record]
    omega
  rw [records_cons, Letter.record, List.append_assoc] at ringed
  have first := ringTake_front is ringed
  rw [DgramHead.length_bytes] at first
  obtain ⟨head, isBody, body, -, keptHead⟩ := first
  generalize taken : (if d.data.length < len then d.data.length else len) = n
  have within : n ≤ d.data.length := by split at taken <;> omega
  have part : d.data.take len = d.data.take n := by
    split at taken
    · rename_i short
      rw [← taken, List.take_of_length_le short.le, List.take_length]
    · rw [taken]
  have length : (d.data.take n).length = n := by rw [List.length_take, Nat.min_eq_left within]
  rw [← List.take_append_drop n d.data, List.append_assoc] at body
  have second := ringTake_front isBody body
  rw [length] at second
  obtain ⟨data, isRest, rest, -, keptBody⟩ := second
  have third := ringTake_front isRest rest
  rw [List.length_drop] at third
  obtain ⟨-, isLast, last, -, keptRest⟩ := third
  have opened : s.doRecvfrom len = (.datagram (d.data.take len) d.sender,
      (((s.ringTake headSize).2.ringTake n).2.ringTake (d.data.length - n)).2) := by
    have read : DgramHead.ofBytes (s.ringTake headSize).1 = d.head :=
      (congrArg DgramHead.ofBytes head).trans d.head.ofBytes_bytes
    have gives : ((s.ringTake headSize).2.ringTake n).1 = d.data.take n := data
    simp only [Sock.doRecvfrom, used, Option.isNone_eq_false_iff.mpr is.ring,
      Option.isNone_eq_false_iff.mpr udp, Bool.not_true, Bool.or_self, Bool.false_eq_true,
      if_false, if_neg enough, read, Letter.head_len, taken, gives, part]
    rfl
  rw [opened]
  exact ⟨rfl, isLast, last, (keptHead.trans keptBody).trans keptRest⟩

theorem doRecv_front (is : Ringed s) (used : s.used = true) (rx : s.rx = []) (len : Nat) :
    let t := (s.doRecv len).2.2
    Ringed t ∧ t.ringed = s.ringed.drop len ∧ Kept s t := by
  by_cases empty : s.rcount = 0
  · have nothing : s.ringed = [] := by simp [Sock.ringed, empty, Cyclic.contents]
    have same : (s.doRecv len).2.2 = s := by simp [Sock.doRecv, used, empty, rx]
    rw [same]
    exact ⟨is, by rw [nothing, List.drop_nil], rfl, rfl, rfl⟩
  · generalize taken : (if len < s.rcount then len else s.rcount) = n
    have same : (s.doRecv len).2.2 =
        { s with rhead := (s.rhead + n) % rxring, rcount := s.rcount - n } := by
      simp [Sock.doRecv, used, empty, taken]
    rw [same]
    refine ⟨⟨is.ring, Nat.mod_lt _ (by decide), (Nat.sub_le _ _).trans is.rcount⟩, ?_, rfl, rfl, rfl⟩
    change Cyclic.contents rxring _ ((s.rhead + n) % rxring) (s.rcount - n) = _
    rw [← Cyclic.contents_drop]
    change s.ringed.drop n = s.ringed.drop len
    split at taken
    · rw [taken]
    · rename_i long
      rw [← taken, ← length_ringed, List.drop_length,
        List.drop_eq_nil_of_le (by rw [length_ringed]; omega)]

end Ring

section Boxes

/-- What happens to a datagram socket: something arrives, or one of the calls. -/
inductive Use
  | arrives (d : Letter)
  | recvfrom (len : Nat)
  | recv (len : Nat)
  | close

/-- The socket with the counter of dropped datagrams, and what was answered. -/
structure Inbox where
  sock : Sock
  dropped : BitVec 32
  answers : List Recvfrom

def Inbox.step (x : Inbox) : Use → Inbox
  | .arrives d =>
    let (dropped, s) := x.sock.onDgram d
    { x with sock := s, dropped := if dropped then x.dropped + 1 else x.dropped }
  | .recvfrom len =>
    let (answer, s) := x.sock.doRecvfrom len
    { x with sock := s, answers := x.answers ++ [answer] }
  | .recv len => { x with sock := (x.sock.doRecv len).2.2 }
  | .close => { x with sock := if x.sock.used then x.sock.free else x.sock }

def unreadBy : Nat → List Letter → List Letter
  | _, [] => []
  | len, d :: rest =>
    if d.record.length ≤ len then unreadBy (len - d.record.length) rest else d :: rest

def Whole : Nat → List Letter → Prop
  | _, [] => True
  | len, d :: rest =>
    if d.record.length ≤ len then Whole (len - d.record.length) rest else len = 0

/-- What a datagram socket is for. Those that wait are in order of arrival, and one for
which there is no room is lost. -/
structure Box where
  opened : Bool
  waiting : List Letter
  lost : Nat
  answers : List Recvfrom

def Box.new : Box := ⟨true, [], 0, []⟩

def Box.step (b : Box) : Use → Box
  | .arrives d =>
    if !b.opened then b
    else if (records b.waiting).length + d.record.length ≤ rxring then
      { b with waiting := b.waiting ++ [d] }
    else { b with lost := b.lost + 1 }
  | .recvfrom len =>
    if !b.opened then { b with answers := b.answers ++ [.refused] }
    else
      match b.waiting with
      | [] => { b with answers := b.answers ++ [.none] }
      | d :: rest =>
        { b with
          waiting := rest
          answers := b.answers ++ [.datagram (d.data.take len) d.sender] }
  | .recv len => { b with waiting := unreadBy len b.waiting }
  | .close => { b with opened := false, waiting := [] }

def Parted (b : Box) : Use → Prop
  | .recv len => Whole len b.waiting
  | _ => True

instance wholeDecidable : (len : Nat) → (waiting : List Letter) → Decidable (Whole len waiting)
  | _, [] => isTrue trivial
  | len, d :: rest =>
    have : Decidable (Whole (len - d.record.length) rest) := wholeDecidable _ rest
    inferInstanceAs (Decidable
      (if d.record.length ≤ len then Whole (len - d.record.length) rest else len = 0))

variable {waiting : List Letter} {len : Nat}

theorem Whole.drop (whole : Whole len waiting) :
    (records waiting).drop len = records (unreadBy len waiting) := by
  induction waiting generalizing len with
  | nil => exact List.drop_nil
  | cons d rest ih =>
    rw [Whole] at whole
    rw [records_cons, unreadBy]
    by_cases within : d.record.length ≤ len
    · rw [if_pos within] at whole ⊢
      rw [List.drop_append, List.drop_eq_nil_of_le within, List.nil_append]
      exact ih whole
    · rw [if_neg within] at whole ⊢
      rw [whole, List.drop_zero, records_cons]

theorem unreadBy_drop (len : Nat) (waiting : List Letter) :
    ∃ k, unreadBy len waiting = waiting.drop k := by
  induction waiting generalizing len with
  | nil => exact ⟨0, rfl⟩
  | cons d rest ih =>
    rw [unreadBy]
    split
    · obtain ⟨k, same⟩ := ih (len - d.record.length)
      exact ⟨k + 1, same⟩
    · exact ⟨0, rfl⟩

theorem Whole.of_drop {k : Nat} (left : (records waiting).drop len = records (waiting.drop k)) :
    Whole len waiting := by
  induction waiting generalizing len k with
  | nil => trivial
  | cons d rest ih =>
    rw [Whole]
    by_cases within : d.record.length ≤ len
    · rw [if_pos within]
      rw [records_cons, List.drop_append, List.drop_eq_nil_of_le within, List.nil_append] at left
      cases k with
      | zero =>
        have lengths := congrArg List.length left
        rw [List.drop_zero, records_cons, List.length_append, List.length_drop,
          Letter.length_record, headSize] at lengths
        omega
      | succ k => exact ih left
    · rw [if_neg within]
      have lengths := congrArg List.length left
      rw [List.length_drop, records_cons, List.length_append] at lengths
      cases k with
      | zero =>
        rw [List.drop_zero, records_cons, List.length_append] at lengths
        omega
      | succ k =>
        have shorter : (records (rest.drop k)).length ≤ (records rest).length := by
          conv_rhs => rw [← List.take_append_drop k rest, records_append, List.length_append]
          omega
        rw [List.drop_succ_cons] at lengths
        omega

structure Holds (s : Sock) (waiting : List Letter) : Prop where
  is : Ringed s
  used : s.used = true
  udp : s.udp.isSome = true
  rx : s.rx = []
  ringed : s.ringed = records waiting

theorem Holds.kept {s t : Sock} {waiting left : List Letter} (holds : Holds s waiting)
    (kept : Kept s t) (is : Ringed t) (ringed : t.ringed = records left) : Holds t left :=
  ⟨is, kept.used.trans holds.used, kept.udp ▸ holds.udp, kept.rx.trans holds.rx, ringed⟩

theorem Holds.count {s : Sock} {waiting : List Letter} (holds : Holds s waiting) :
    s.rcount = (records waiting).length := by rw [← holds.ringed, length_ringed]

/-- The socket is what the box says, from a count of dropped datagrams on. -/
structure Agrees (before : BitVec 32) (x : Inbox) (b : Box) : Prop where
  answers : x.answers = b.answers
  dropped : x.dropped = before + BitVec.ofNat 32 b.lost
  used : x.sock.used = b.opened
  holds : b.opened = true → Holds x.sock b.waiting
  waiting : b.opened = false → b.waiting = []

variable {before : BitVec 32} {x : Inbox} {b : Box}

theorem Agrees.live (answers : x.answers = b.answers)
    (dropped : x.dropped = before + BitVec.ofNat 32 b.lost) (opened : b.opened = true)
    (holds : Holds x.sock b.waiting) : Agrees before x b :=
  ⟨answers, dropped, holds.used.trans opened.symm, fun _ => holds,
    fun closed => Bool.noConfusion (opened.symm.trans closed)⟩

theorem Agrees.shut (answers : x.answers = b.answers)
    (dropped : x.dropped = before + BitVec.ofNat 32 b.lost) (unused : x.sock.used = false)
    (closed : b.opened = false) (waiting : b.waiting = []) : Agrees before x b :=
  ⟨answers, dropped, unused.trans closed.symm,
    fun opened => Bool.noConfusion (closed.symm.trans opened), fun _ => waiting⟩

theorem Agrees.arrives (agrees : Agrees before x b) (d : Letter) :
    Agrees before (x.step (.arrives d)) (b.step (.arrives d)) := by
  cases here : b.opened with
  | false =>
    have unused := agrees.used.trans here
    simpa [Inbox.step, Box.step, Sock.onDgram, here, unused] using agrees
  | true =>
    have holds := agrees.holds here
    by_cases room : (records b.waiting).length + d.record.length ≤ rxring
    · obtain ⟨kept, is, ringed, same⟩ :=
        onDgram_stores holds.is holds.used (by rw [holds.count]; exact room)
      have after : (x.sock.onDgram d).2.ringed = records (b.waiting ++ [d]) := by
        rw [records_append, ← holds.ringed, records_cons]
        exact ringed.trans (by simp [records])
      have stays : (x.sock.onDgram d).1 = false := kept
      simp only [Inbox.step, Box.step, here, Bool.not_true, Bool.false_eq_true, if_false, if_pos room,
        stays]
      exact .live agrees.answers agrees.dropped rfl (holds.kept same is after)
    · have drops := onDgram_drops holds.is holds.used (d := d) (by rw [holds.count]; omega)
      simp only [Inbox.step, Box.step, here, Bool.not_true, Bool.false_eq_true, if_false, if_neg room,
        drops, if_true]
      refine .live agrees.answers ?_ rfl holds
      change x.dropped + 1 = before + BitVec.ofNat 32 (b.lost + 1)
      rw [agrees.dropped, BitVec.ofNat_add, BitVec.add_assoc]
      rfl

theorem Agrees.recvfrom (agrees : Agrees before x b) (len : Nat) :
    Agrees before (x.step (.recvfrom len)) (b.step (.recvfrom len)) := by
  cases here : b.opened with
  | false =>
    have unused := agrees.used.trans here
    have refused : x.sock.doRecvfrom len = (.refused, x.sock) := by
      simp [Sock.doRecvfrom, unused]
    simp only [Inbox.step, Box.step, here, refused, Bool.not_false, if_true, agrees.answers]
    exact .shut rfl agrees.dropped unused rfl (agrees.waiting here)
  | true =>
    have holds := agrees.holds here
    cases queue : b.waiting with
    | nil =>
      have none := doRecvfrom_none holds.is holds.used holds.udp (by rw [holds.ringed, queue]; rfl) len
      simp only [Inbox.step, Box.step, here, queue, none, Bool.not_true, Bool.false_eq_true, if_false,
        agrees.answers]
      exact .live rfl agrees.dropped rfl (queue ▸ holds)
    | cons d rest =>
      obtain ⟨answer, is, ringed, same⟩ :=
        doRecvfrom_first holds.is holds.used holds.udp (queue ▸ holds.ringed) len
      have gives : (x.sock.doRecvfrom len).1 = .datagram (d.data.take len) d.sender := answer
      simp only [Inbox.step, Box.step, here, queue, Bool.not_true, Bool.false_eq_true, if_false, gives,
        agrees.answers]
      exact .live rfl agrees.dropped rfl (holds.kept same is ringed)

theorem Agrees.recv (agrees : Agrees before x b) {len : Nat} (whole : Whole len b.waiting) :
    Agrees before (x.step (.recv len)) (b.step (.recv len)) := by
  cases here : b.opened with
  | false =>
    have unused := agrees.used.trans here
    have nothing := agrees.waiting here
    simp only [Inbox.step, Box.step, Sock.doRecv, unused, nothing, unreadBy, Bool.not_false, if_true]
    exact .shut agrees.answers agrees.dropped unused here rfl
  | true =>
    have holds := agrees.holds here
    obtain ⟨is, ringed, same⟩ := doRecv_front holds.is holds.used holds.rx len
    have after : (x.sock.doRecv len).2.2.ringed = records (unreadBy len b.waiting) := by
      rw [← whole.drop, ← holds.ringed]
      exact ringed
    exact .live agrees.answers agrees.dropped here (holds.kept same is after)

theorem Agrees.close (agrees : Agrees before x b) : Agrees before (x.step .close) (b.step .close) := by
  refine .shut agrees.answers agrees.dropped ?_ rfl rfl
  change (if x.sock.used then x.sock.free else x.sock).used = false
  split
  · rfl
  · rename_i unused
    simpa using unused

theorem Agrees.step (agrees : Agrees before x b) {use : Use} (parted : Parted b use) :
    Agrees before (x.step use) (b.step use) := by
  cases use with
  | arrives d => exact agrees.arrives d
  | recvfrom len => exact agrees.recvfrom len
  | recv len => exact agrees.recv parted
  | close => exact agrees.close

end Boxes

section Made
variable {Addr : Type} {n m : Net Addr} {owner : Nat} {pool : Option (Nat → Byte)}
  {bound : Option (Nat × Port)} {i : Slot}

theorem doUdp_holds (made : n.doUdp owner pool bound = (some i, m)) : Holds (m.sk i) [] := by
  unfold Net.doUdp at made
  split at made
  · simp at made
  · split at made
    · rename_i udp port
      obtain ⟨same, rfl⟩ := Prod.mk.inj made
      obtain rfl := Option.some.inj same
      simp only [Net.edit, Net.take, Function.update_self]
      exact ⟨⟨rfl, (Nat.zero_lt_succ _ : 0 < rxring), Nat.zero_le _⟩, rfl, rfl, rfl, rfl⟩
    · simp at made

/-- As long as bytes are received as whole datagrams, a datagram socket is its box: each
datagram that is received is the first that waits, with its sender and as much of it as
there is room for, those that did not fit were counted, and the ring holds those that wait.
A receive of bytes that takes part of a datagram ends that. -/
theorem datagrams_kept (made : n.doUdp owner pool bound = (some i, m)) (before : BitVec 32)
    {uses : List Use} (parted : Machine.Along Box.step Parted Box.new uses) :
    let x := uses.foldl Inbox.step ⟨m.sk i, before, []⟩
    let b := uses.foldl Box.step Box.new
    x.answers = b.answers ∧ x.dropped = before + BitVec.ofNat 32 b.lost ∧
      (b.opened = true → x.sock.ringed = records b.waiting ∧
        ∀ len, (∃ k, (x.sock.doRecv len).2.2.ringed = records (b.waiting.drop k)) ↔
          Whole len b.waiting) := by
  intro x b
  have fresh := doUdp_holds made
  have agrees : Agrees before x b :=
    Machine.along_simulates (Agrees before) parted
      ⟨rfl, (BitVec.add_zero before).symm, fresh.used, fun _ => fresh, fun _ => rfl⟩
      (fun _ _ _ fine agrees => agrees.step fine)
  refine ⟨agrees.answers, agrees.dropped, fun opened => ?_⟩
  have holds := agrees.holds opened
  refine ⟨holds.ringed, fun len => ?_⟩
  obtain ⟨-, ringed, -⟩ := doRecv_front holds.is holds.used holds.rx len
  rw [holds.ringed] at ringed
  constructor
  · rintro ⟨k, left⟩
    exact Whole.of_drop (ringed.symm.trans left)
  · intro whole
    obtain ⟨k, same⟩ := unreadBy_drop len b.waiting
    exact ⟨k, ringed.trans (whole.drop.trans (by rw [same]))⟩

def lone : Letter := ⟨[[1, 2, 3, 4, 5, 6, 7, 8]], .v4 (fun _ => 10), 53, by decide⟩

def pair : Letter := ⟨[[9], [10, 11]], .v6 (fun _ => 1) 0, 0x1234, by decide⟩

def dnsNet : Net Unit := ((boot Unit).doUdp 3 (some fun _ => 0) (some (0, 53))).2

/-- After a receive of one byte the next datagram is read out of step: its length comes to
1024 and its family to 0, and the ring counts more bytes than it has. -/
theorem datagram_shifted :
    let x := [.arrives lone, .recv 1, .recvfrom 4].foldl Inbox.step ⟨dnsNet.sk ⟨0, by decide⟩, 0, []⟩
    (∀ d ∈ [lone], x.answers ≠ [.datagram (d.data.take 4) d.sender]) ∧
      x.answers.map (fun a => match a with | .datagram _ sender => sender.family | _ => 4) = [0] ∧
      rxring < x.sock.rcount := by
  decide +kernel

theorem datagrams_kept_two :
    let uses := [.arrives lone, .arrives pair, .recvfrom 4, .recv 25, .arrives lone]
    let x := uses.foldl Inbox.step ⟨dnsNet.sk ⟨0, by decide⟩, 0, []⟩
    x.answers = [.datagram [1, 2, 3, 4] lone.sender] ∧ x.sock.ringed = lone.record := by
  have made : (boot Unit).doUdp 3 (some fun _ => 0) (some (0, 53)) =
      (some ⟨0, by decide⟩, dnsNet) := rfl
  have parted : Machine.Along Box.step Parted Box.new
      [.arrives lone, .arrives pair, .recvfrom 4, .recv 25, .arrives lone] :=
    ⟨trivial, trivial, trivial, (by decide +kernel : Whole 25 [pair]), trivial, trivial⟩
  have kept := datagrams_kept made 0 parted
  exact ⟨kept.1, (kept.2.2 rfl).1.trans (List.append_nil _)⟩

end Made

end Ubiqos.Lwip
