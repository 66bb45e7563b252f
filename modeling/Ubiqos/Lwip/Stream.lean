import Ubiqos.Lib.Along
import Ubiqos.Lib.Cyclic
import Ubiqos.Lwip.Sockets

/-!
What a connection has received. The bytes that are not read yet are those of the ring
and behind them those of the chain, and lwIP is told of each byte that is read as
long as it has the connection.
-/

namespace Ubiqos.Lwip

open Function

/-- A callback of lwIP or a receive of the program. No buffers mean that the peer
closed. -/
inductive Event
  | arrives (p : Chain)
  | fails
  | receives (len : Nat)

/-- A connection, with what lwIP has delivered and been told, and what the program
has been given. -/
structure Flow where
  sock : Sock
  delivered : List Byte
  returned : List Byte
  reported : Nat
  closed : Bool
  failed : Bool

def Received.got : Received → List Byte
  | .bytes got => got
  | _ => []

def Flow.step (f : Flow) : Event → Flow
  | .arrives p => { f with
      sock := f.sock.onRecv p false
      delivered := f.delivered ++ p.flatten
      closed := f.closed || decide (p = []) }
  | .fails => { f with sock := f.sock.onErr, failed := true }
  | .receives len =>
    let answer := f.sock.doRecv len
    { f with
      sock := answer.2.2
      returned := f.returned ++ answer.1.got
      reported := f.reported + answer.2.1 }

def begun (s : Sock) : Flow := ⟨s, [], [], 0, false, false⟩

structure Begun (s : Sock) : Prop where
  used : s.used = true
  pcb : s.pcb.isSome = true
  rx : s.rx = []
  rcount : s.rcount = 0
  rhead : s.rhead < rxring
  gone : s.gone = false

/-- lwIP calls back for a connection it has, and delivers no more than its window
beyond what it was told has been consumed. -/
def Windowed (f : Flow) : Event → Prop
  | .arrives p => f.sock.pcb.isSome = true ∧
      f.delivered.length + p.flatten.length < f.reported + 2 ^ 16
  | _ => True

def Sock.ringed (s : Sock) : List Byte :=
  Cyclic.contents rxring (s.ring.getD fun _ => 0) s.rhead s.rcount

def Sock.unread (s : Sock) : List Byte := s.ringed ++ s.rx.flatten

structure Exact (f : Flow) : Prop where
  used : f.sock.used = true
  rhead : f.sock.rhead < rxring
  rcount : f.sock.rcount ≤ rxring
  noRing : f.sock.ring = none → f.sock.rcount = 0
  chain : f.sock.rx.flatten.length < 2 ^ 16
  stream : f.delivered = f.returned ++ f.sock.unread
  told : f.reported ≤ f.returned.length
  all : f.sock.pcb.isSome = true → f.reported = f.returned.length
  gone : f.sock.gone = true → f.closed = true ∨ f.failed = true
  going : f.failed = false → f.sock.pcb.isSome = true

section Ring
variable {buf : Nat → Byte}

theorem copied_eq (size : Nat) {start : Nat} (bytes : List Byte) (fits : start + bytes.length ≤ size) :
    copied buf start bytes = Cyclic.pushAll size buf start bytes := by
  induction bytes generalizing buf start with
  | nil =>
    funext i
    simp [copied, Cyclic.pushAll]
  | cons b rest ih =>
    rw [List.length_cons] at fits
    rw [Cyclic.pushAll]
    have next : Cyclic.pushAll size (update buf start b) ((start + 1) % size) rest =
        Cyclic.pushAll size (update buf start b) (start + 1) rest := by
      cases rest with
      | nil => rfl
      | cons _ _ => rw [Nat.mod_eq_of_lt (by simp at fits; omega)]
    rw [next, ← ih (by omega)]
    funext i
    simp only [copied]
    rcases Nat.lt_trichotomy i start with before | rfl | after
    · simp [Nat.not_le.mpr before, Nat.not_le.mpr (Nat.lt_succ_of_lt before), before.ne]
    · simp
    · have further : i - start = i - (start + 1) + 1 := by omega
      simp [after.le, Nat.succ_le_of_lt after, further, after.ne']

theorem ringPut_eq {tail : Nat} (bytes : List Byte) (inside : tail < rxring)
    (fits : bytes.length ≤ rxring) :
    ringPut buf tail bytes = Cyclic.pushAll rxring buf tail bytes := by
  simp only [ringPut]
  by_cases straight : bytes.length < rxring - tail
  · simp only [if_pos straight, lt_irrefl, if_false, List.take_length]
    exact copied_eq rxring bytes (by omega)
  · simp only [if_neg straight]
    have first : (bytes.take (rxring - tail)).length = rxring - tail := by
      rw [List.length_take]
      omega
    have turns : (tail + (rxring - tail)) % rxring = 0 := by
      rw [Nat.add_sub_cancel' inside.le, Nat.mod_self]
    have parts := Cyclic.pushAll_append buf tail inside (bytes.take (rxring - tail))
      (bytes.drop (rxring - tail))
    rw [List.take_append_drop, first, turns] at parts
    rw [parts, copied_eq rxring (bytes.take (rxring - tail)) (by omega)]
    split
    · exact copied_eq rxring _ (by rw [List.length_drop]; omega)
    · rename_i whole
      have none : bytes.drop (rxring - tail) = [] := List.drop_eq_nil_of_le (by omega)
      rw [none]
      rfl

theorem ringTake_eq {head n : Nat} (inside : head < rxring) (fits : n ≤ rxring) :
    ringTake buf head n = Cyclic.contents rxring buf head n := by
  simp only [ringTake]
  unfold Cyclic.contents
  by_cases straight : n < rxring - head
  · simp only [if_pos straight, lt_irrefl, if_false, List.append_nil]
    apply List.map_congr_left
    intro i member
    have below : i < n := List.mem_range.mp member
    rw [Nat.mod_eq_of_lt (by omega)]
  · simp only [if_neg straight]
    have whole : n = (rxring - head) + (n - (rxring - head)) := by omega
    have right : (if rxring - head < n then (List.range (n - (rxring - head))).map buf else []) =
        (List.range (n - (rxring - head))).map buf := by
      split
      · rfl
      · rename_i exact
        have none : n - (rxring - head) = 0 := by omega
        simp [none]
    rw [right]
    conv_rhs => rw [whole, List.range_add, List.map_append, List.map_map]
    congr 1
    · apply List.map_congr_left
      intro i member
      have below : i < rxring - head := List.mem_range.mp member
      rw [Nat.mod_eq_of_lt (by omega)]
    · apply List.map_congr_left
      intro i member
      have below : i < n - (rxring - head) := List.mem_range.mp member
      have turns : head + (rxring - head + i) = i + rxring := by omega
      simp only [Function.comp_apply]
      rw [turns, Nat.add_mod_right, Nat.mod_eq_of_lt (by omega)]

end Ring

section Steps
variable {f : Flow}

theorem freeHeader_flatten (p : Chain) (n : Nat) : (freeHeader p n).flatten = p.flatten.drop n := by
  induction p generalizing n with
  | nil => simp [freeHeader]
  | cons b rest ih =>
    rw [freeHeader]
    split
    · rename_i zero
      simp [zero]
    · split
      · rename_i whole
        rw [ih, List.flatten_cons, List.drop_append, List.drop_eq_nil_of_le whole, List.nil_append]
      · rename_i part
        rw [List.flatten_cons, List.flatten_cons, List.drop_append_of_le_length (by omega)]

theorem Exact.start {s : Sock} (fresh : Begun s) : Exact (begun s) where
  used := fresh.used
  rhead := fresh.rhead
  rcount := by simp [begun, fresh.rcount]
  noRing _ := fresh.rcount
  chain := by simp [begun, fresh.rx]
  stream := by simp [begun, Sock.unread, Sock.ringed, fresh.rx, fresh.rcount, Cyclic.contents]
  told := Nat.le_refl _
  all _ := rfl
  gone isGone := by simp [begun, fresh.gone] at isGone
  going _ := fresh.pcb

theorem length_ringed (s : Sock) : s.ringed.length = s.rcount := Cyclic.length_contents _

theorem unread_onRecv {s : Sock} {p : Chain} (rcount : s.rcount ≤ rxring)
    (small : p.flatten.length < 2 ^ 16) :
    (s.onRecv p false).unread = s.unread ++ p.flatten := by
  have total : totLen p = p.flatten.length := Nat.mod_eq_of_lt small
  unfold Sock.onRecv
  by_cases none : p = []
  · simp [none, Sock.unread, Sock.ringed]
  simp only [none, Bool.false_eq_true, if_false]
  have chained : Sock.unread { s with rx := s.rx ++ p } = s.unread ++ p.flatten := by
    simp [Sock.unread, Sock.ringed]
  split
  · rename_i buf ring
    by_cases room : s.rx = [] ∧ totLen p ≤ rxring - s.rcount
    · rw [if_pos room]
      have fits : s.rcount + p.flatten.length ≤ rxring := by
        rw [total] at room
        omega
      simp only [Sock.unread, Sock.ringed, ring, total, List.take_length, Option.getD_some, room.1]
      rw [ringPut_eq _ (Nat.mod_lt _ (by decide)) (by omega), Cyclic.contents_pushAll _ fits]
      simp
    · rw [if_neg room]
      exact chained
  · exact chained

structure Took (s t : Sock) (p : Chain) : Prop where
  used : t.used = s.used
  pcb : t.pcb = s.pcb
  rhead : t.rhead = s.rhead
  rcount : s.rcount ≤ rxring → t.rcount ≤ rxring
  noRing : t.ring = none → s.ring = none ∧ t.rcount = s.rcount
  chain : t.rx.flatten.length ≤ s.rx.flatten.length + p.flatten.length
  gone : t.gone = (s.gone || decide (p = []))

theorem onRecv_took (s : Sock) (p : Chain) : Took s (s.onRecv p false) p := by
  unfold Sock.onRecv
  by_cases none : p = []
  · simp only [none]
    exact ⟨rfl, rfl, rfl, fun le => le, fun noRing => ⟨noRing, rfl⟩, by simp, by simp⟩
  simp only [none, Bool.false_eq_true, if_false]
  have chained : Took s { s with rx := s.rx ++ p } p :=
    ⟨rfl, rfl, rfl, fun le => le, fun noRing => ⟨noRing, rfl⟩, by simp, by simp [none]⟩
  split
  · by_cases room : s.rx = [] ∧ totLen p ≤ rxring - s.rcount
    · rw [if_pos room]
      refine ⟨rfl, rfl, rfl, fun le => ?_, by simp, by simp, by simp [none]⟩
      change s.rcount + totLen p ≤ rxring
      omega
    · rw [if_neg room]
      exact chained
  · exact chained

theorem Exact.arrives (exact : Exact f) (p : Chain) (windowed : Windowed f (.arrives p)) :
    Exact (f.step (.arrives p)) := by
  obtain ⟨has, window⟩ := windowed
  have told := exact.all has
  have unread : f.delivered.length = f.returned.length + (f.sock.rcount + f.sock.rx.flatten.length) := by
    rw [exact.stream, List.length_append, Sock.unread, List.length_append, length_ringed]
  have took := onRecv_took f.sock p
  constructor
  · exact took.used.trans exact.used
  · exact took.rhead ▸ exact.rhead
  · exact took.rcount exact.rcount
  · intro noRing
    obtain ⟨before, same⟩ := took.noRing noRing
    exact same.trans (exact.noRing before)
  · exact lt_of_le_of_lt took.chain (by omega)
  · change f.delivered ++ p.flatten = f.returned ++ (f.sock.onRecv p false).unread
    rw [unread_onRecv exact.rcount (by omega), exact.stream, List.append_assoc]
  · exact exact.told
  · exact fun _ => told
  · intro gone
    change (f.closed || decide (p = [])) = true ∨ f.failed = true
    change (f.sock.onRecv p false).gone = true at gone
    rw [took.gone, Bool.or_eq_true] at gone
    rw [Bool.or_eq_true]
    rcases gone with before | now
    · exact (exact.gone before).imp_left .inl
    · exact .inl (.inr now)
  · exact fun _ => took.pcb.symm ▸ has

theorem Exact.fails (exact : Exact f) : Exact (f.step .fails) where
  used := exact.used
  rhead := exact.rhead
  rcount := exact.rcount
  noRing := exact.noRing
  chain := exact.chain
  stream := exact.stream
  told := exact.told
  all has := by simp [Flow.step, Sock.onErr] at has
  gone _ := .inr rfl
  going notFailed := by simp [Flow.step] at notFailed

structure Gave (s : Sock) (answer : Received × Nat × Sock) : Prop where
  unread : s.unread = answer.1.got ++ answer.2.2.unread
  told : answer.2.1 = if s.pcb.isSome = true then answer.1.got.length else 0
  rhead : answer.2.2.rhead < rxring
  rcount : answer.2.2.rcount ≤ s.rcount
  chain : answer.2.2.rx.flatten.length ≤ s.rx.flatten.length
  used : answer.2.2.used = s.used
  pcb : answer.2.2.pcb = s.pcb
  ring : answer.2.2.ring = s.ring
  gone : answer.2.2.gone = s.gone
  ended : answer.1 = .ended → s.unread = [] ∧ s.gone = true

theorem doRecv_gave {s : Sock} (len : Nat) (rhead : s.rhead < rxring) (rcount : s.rcount ≤ rxring)
    (chain : s.rx.flatten.length < 2 ^ 16) (used : s.used = true) : Gave s (s.doRecv len) := by
  unfold Sock.doRecv
  simp only [used, Bool.not_true, Bool.false_eq_true, if_false]
  by_cases empty : s.rcount = 0
  · simp only [empty, ne_eq, not_true_eq_false, if_false]
    by_cases none : s.rx = []
    · simp only [none, if_true]
      have nothing : s.unread = [] := by
        simp [Sock.unread, Sock.ringed, none, empty, Cyclic.contents]
      refine ⟨?_, ?_, rhead, le_rfl, by simp, rfl, rfl, rfl, rfl, ?_⟩
      · split <;> simp [Received.got, nothing]
      · split <;> simp [Received.got]
      · intro ended
        refine ⟨nothing, ?_⟩
        cases gone : s.gone with
        | true => rfl
        | false => simp [gone] at ended
    · simp only [none, if_false]
      have total : totLen s.rx = s.rx.flatten.length := Nat.mod_eq_of_lt chain
      generalize taken : min (if len > 0xffff then 0xffff else len) (totLen s.rx) = n
      have within : n ≤ s.rx.flatten.length := by omega
      have ringed : s.ringed = [] := by simp [Sock.ringed, empty, Cyclic.contents]
      refine ⟨?_, ?_, rhead, Nat.zero_le _, ?_, used.symm, rfl, rfl, rfl, by simp⟩
      · change s.ringed ++ s.rx.flatten = s.rx.flatten.take n ++ ([] ++ (freeHeader s.rx n).flatten)
        rw [freeHeader_flatten, ringed, List.nil_append, List.nil_append, List.take_append_drop]
      · change _ = if s.pcb.isSome = true then (s.rx.flatten.take n).length else 0
        rw [List.length_take, Nat.min_eq_left within]
      · rw [freeHeader_flatten, List.length_drop]
        omega
  · simp only [empty, ne_eq, not_false_eq_true, if_true]
    generalize taken : (if len < s.rcount then len else s.rcount) = n
    have within : n ≤ s.rcount := by
      split at taken <;> omega
    have got : ringTake (s.ring.getD fun _ => 0) s.rhead n = s.ringed.take n := by
      rw [ringTake_eq rhead (by omega)]
      exact (Cyclic.contents_take within).symm
    refine ⟨?_, ?_, Nat.mod_lt _ (by decide), Nat.sub_le _ _, le_rfl, used.symm, rfl, rfl, rfl, by simp⟩
    · have rest : Cyclic.contents rxring (s.ring.getD fun _ => 0) ((s.rhead + n) % rxring)
          (s.rcount - n) = s.ringed.drop n := Cyclic.contents_drop.symm
      change s.ringed ++ s.rx.flatten = ringTake _ s.rhead n ++ (Cyclic.contents _ _ _ _ ++ s.rx.flatten)
      rw [got, rest, ← List.append_assoc, List.take_append_drop]
    · change _ = if s.pcb.isSome = true then (ringTake _ s.rhead n).length else 0
      rw [got, List.length_take, length_ringed, Nat.min_eq_left within]

theorem Exact.receives (exact : Exact f) (len : Nat) : Exact (f.step (.receives len)) := by
  have gave := doRecv_gave len exact.rhead exact.rcount exact.chain exact.used
  constructor
  · exact gave.used.trans exact.used
  · exact gave.rhead
  · exact gave.rcount.trans exact.rcount
  · intro noRing
    have before := exact.noRing (gave.ring ▸ noRing)
    exact Nat.le_zero.mp (before ▸ gave.rcount)
  · exact lt_of_le_of_lt gave.chain exact.chain
  · change f.delivered = f.returned ++ (f.sock.doRecv len).1.got ++ (f.sock.doRecv len).2.2.unread
    rw [exact.stream, gave.unread, List.append_assoc]
  · change f.reported + (f.sock.doRecv len).2.1 ≤ (f.returned ++ (f.sock.doRecv len).1.got).length
    have told := exact.told
    rw [gave.told, List.length_append]
    split <;> omega
  · intro has
    have has' : f.sock.pcb.isSome = true := gave.pcb ▸ has
    change f.reported + (f.sock.doRecv len).2.1 = (f.returned ++ (f.sock.doRecv len).1.got).length
    rw [gave.told, if_pos has', List.length_append, exact.all has']
  · exact fun gone => exact.gone (gave.gone ▸ gone)
  · exact fun going => gave.pcb.symm ▸ exact.going going

theorem Exact.step (exact : Exact f) (event : Event) (windowed : Windowed f event) :
    Exact (f.step event) := by
  cases event with
  | arrives p => exact exact.arrives p windowed
  | fails => exact exact.fails
  | receives len => exact exact.receives len

end Steps

/-- What is returned is what was delivered, as far as it has been read. lwIP is told
of every byte read until it gives the connection up, and the end is told when all has
been read and the peer has closed, or lwIP has given up. -/
theorem run_streams {s : Sock} (fresh : Begun s) {events : List Event}
    (windowed : Machine.Along Flow.step Windowed (begun s) events) :
    let f := events.foldl Flow.step (begun s)
    f.delivered = f.returned ++ f.sock.unread ∧
      f.reported ≤ f.delivered.length ∧
      (f.failed = false → f.reported = f.returned.length) ∧
      ∀ len, (f.sock.doRecv len).1 = .ended →
        f.returned = f.delivered ∧ (f.closed = true ∨ f.failed = true) := by
  intro f
  have exact : Exact f := Machine.along_invariant Exact windowed (Exact.start fresh)
    (fun _ event _ fine exact => exact.step event fine)
  refine ⟨exact.stream, ?_, fun going => exact.all (exact.going going), ?_⟩
  · rw [exact.stream, List.length_append]
    exact exact.told.trans (Nat.le_add_right _ _)
  · intro len ended
    obtain ⟨unread, gone⟩ :=
      (doRecv_gave len exact.rhead exact.rcount exact.chain exact.used).ended ended
    exact ⟨by rw [exact.stream, unread, List.append_nil], exact.gone gone⟩

section Trials

def accepted : Sock := { zeroed with pcb := some 0, used := true, ring := some fun _ => 0 }

theorem accepted_begun : Begun accepted := ⟨rfl, rfl, rfl, rfl, by decide, rfl⟩

def two : Chain := [[1, 2]]

/-- When lwIP gives the connection up, the two bytes are still read, but lwIP is told of
neither, and the end is reported though the peer has not closed. -/
theorem given_up :
    let f := [.arrives two, .fails, .receives 9].foldl Flow.step (begun accepted)
    f.returned = [1, 2] ∧ f.reported = 0 ∧ (f.sock.doRecv 9).1 = .ended ∧ f.closed = false := by
  decide +kernel

theorem run_streams_two :
    let f := [.arrives two, .receives 9, .arrives []].foldl Flow.step (begun accepted)
    (f.sock.doRecv 9).1 = .ended ∧ f.returned = f.delivered := by
  have windowed : Machine.Along Flow.step Windowed (begun accepted)
      [.arrives two, .receives 9, .arrives []] :=
    ⟨⟨by decide +kernel, by decide +kernel⟩, trivial, ⟨by decide +kernel, by decide +kernel⟩, trivial⟩
  have ended : (([.arrives two, .receives 9, .arrives []].foldl Flow.step
      (begun accepted)).sock.doRecv 9).1 = .ended := by decide +kernel
  exact ⟨ended, ((run_streams accepted_begun windowed).2.2.2 9 ended).1⟩

end Trials

end Ubiqos.Lwip
