import Mathlib.Data.List.Nodup
import Ubiqos.Lib.Along
import Ubiqos.Lwip.Sockets

/-!
Where the connections go that are opened. A look-up's callback has only a slot to go
by, so it is harmless when the socket in the slot is still the one that asked, or is
not connecting.
-/

namespace Ubiqos.Lwip

open Function

variable {Addr : Type}

def Timely (n : Net Addr) : Step Addr → Prop
  | .resolved lookup _ _ =>
    (n.sk lookup.slot).used = true → (n.sk lookup.slot).connecting = true →
      n.current lookup.slot = some lookup.request
  | _ => True

structure Asked (n : Net Addr) : Prop where
  asked : ∀ lookup ∈ n.lookups, lookup.request < n.requests
  apart : (n.lookups.map Lookup.request).Nodup
  current : ∀ i r, n.current i = some r → r < n.requests ∧ (n.sk i).wantPort = n.ports r
  own : ∀ o ∈ n.opened, o.request = some o.answered ∧ o.port = n.ports o.answered ∧
    o.answered < n.requests
  answered : ∀ o ∈ n.opened, o.answered ∉ n.lookups.map Lookup.request
  once : (n.opened.map Opening.answered).Nodup

/-- Nothing is asked, answered or opened, and a socket that goes on has its port. -/
structure Calm (n m : Net Addr) : Prop where
  lookups : m.lookups = n.lookups
  requests : m.requests = n.requests
  ports : m.ports = n.ports
  opened : m.opened = n.opened
  current : ∀ i r, m.current i = some r →
    n.current i = some r ∧ (m.sk i).wantPort = (n.sk i).wantPort

theorem Calm.refl (n : Net Addr) : Calm n n := ⟨rfl, rfl, rfl, rfl, fun _ _ same => ⟨same, rfl⟩⟩

theorem Calm.trans {n m l : Net Addr} (first : Calm n m) (second : Calm m l) : Calm n l where
  lookups := second.lookups.trans first.lookups
  requests := second.requests.trans first.requests
  ports := second.ports.trans first.ports
  opened := second.opened.trans first.opened
  current i r now := by
    obtain ⟨middle, port⟩ := second.current i r now
    obtain ⟨before, port'⟩ := first.current i r middle
    exact ⟨before, port.trans port'⟩

theorem Asked.calm {n m : Net Addr} (asked : Asked n) (calm : Calm n m) : Asked m := by
  obtain ⟨lookups, requests, ports, opened, current⟩ := calm
  constructor
  · rw [lookups, requests]
    exact asked.asked
  · rw [lookups]
    exact asked.apart
  · intro i r now
    obtain ⟨before, port⟩ := current i r now
    rw [requests, ports, port]
    exact asked.current i r before
  · rw [opened, ports, requests]
    exact asked.own
  · rw [opened, lookups]
    exact asked.answered
  · rw [opened]
    exact asked.once

section Calmness
variable {n : Net Addr} {i : Slot}

theorem calm_edit {f : Sock → Sock} (port : ∀ s, (f s).wantPort = s.wantPort) :
    Calm n (n.edit i f) := by
  refine ⟨rfl, rfl, rfl, rfl, fun j r now => ⟨now, ?_⟩⟩
  by_cases same : j = i
  · simp [Net.edit, same, port]
  · simp [Net.edit, same]

theorem Calm.edit {m : Net Addr} (calm : Calm n m) {f : Sock → Sock}
    (port : ∀ s, (f s).wantPort = s.wantPort) : Calm n (m.edit i f) := calm.trans (calm_edit port)

theorem calm_cleared {sk : Table} {handed : Slot → Bool} (elsewhere : ∀ j, j ≠ i → sk j = n.sk j) :
    Calm n { n with sk := sk, handed := handed, current := update n.current i none } := by
  refine ⟨rfl, rfl, rfl, rfl, fun j r now => ?_⟩
  have asked : update n.current i none j = some r := now
  by_cases same : j = i
  · simp [same] at asked
  · rw [update_of_ne same] at asked
    exact ⟨asked, congrArg Sock.wantPort (elsewhere j same)⟩

theorem calm_take (s : Sock) : Calm n (n.take i s) :=
  calm_cleared fun _ apart => update_of_ne apart _ _

theorem calm_free : Calm n (n.freeSock i) :=
  calm_cleared fun _ apart => update_of_ne apart _ _

theorem calm_attach (listening : Bool) : Calm n (n.attach i listening) :=
  let edited : Calm n (n.edit i fun s => { s with pcb := some n.made }) := calm_edit fun _ => by rfl
  ⟨rfl, rfl, rfl, rfl, edited.current⟩

theorem calm_shut : Calm n (n.shut i) := by
  unfold Net.shut
  split
  · exact calm_free
  · rename_i p _
    have letGo : Calm n { n with pcbs := update n.pcbs p ((n.pcbs p).bind Pcb.letGo) } :=
      ⟨rfl, rfl, rfl, rfl, fun _ _ same => ⟨same, rfl⟩⟩
    exact letGo.trans calm_free

theorem calm_close (i : Nat) : Calm n (n.doClose i) := by
  unfold Net.doClose
  split
  · exact .refl n
  · split
    · exact calm_shut
    · exact .refl n

theorem calm_reap : Calm n n.reap := by
  refine Machine.foldl_invariant (Calm n) (.refl n) ?_
  intro m i _ calm
  unfold Net.reapSlot
  split
  · exact calm.trans calm_shut
  · exact calm

theorem calm_handOut {answer : Option Slot × Net Addr} (calm : Calm n answer.2) :
    Calm n (handOut answer) := by
  obtain ⟨none | i, m⟩ := answer
  · exact calm
  · exact ⟨calm.lookups, calm.requests, calm.ports, calm.opened, calm.current⟩

theorem calm_accept (i : Nat) : Calm n (n.doAccept i).2 := by
  unfold Net.doAccept
  split
  · exact .refl n
  · split
    · dsimp only
      exact calm_edit fun _ => by rfl
    · exact .refl n

theorem calm_listen (port : Port) (owner : Nat) (listens : Bool) :
    Calm n (n.doListen port owner listens).2 := by
  unfold Net.doListen
  split
  · exact .refl n
  · split
    · dsimp only
      exact ((calm_take _).trans (calm_attach true)).trans (calm_edit fun _ => by rfl)
    · exact (calm_take _).trans calm_free

theorem calm_udp (owner : Nat) (pool : Option (Nat → Byte)) (bound : Option (Nat × Port)) :
    Calm n (n.doUdp owner pool bound).2 := by
  unfold Net.doUdp
  split
  · exact .refl n
  · split
    · dsimp only
      exact (calm_take _).trans (calm_edit fun _ => by rfl)
    · exact (calm_take _).trans calm_free

theorem calm_incoming (server : Slot) (pool : Option (Nat → Byte)) :
    Calm n (n.onAccept server pool) := by
  unfold Net.onAccept
  split
  · exact .refl n
  · split
    · exact .refl n
    · exact (((calm_take _).trans (calm_attach false)).edit fun _ => by rfl).edit fun _ => by rfl

theorem onRecv_wantPort (s : Sock) (p : Chain) (err : Bool) :
    (s.onRecv p err).wantPort = s.wantPort := by
  unfold Sock.onRecv
  repeat' split
  all_goals rfl

theorem doRecv_wantPort (s : Sock) (len : Nat) : (s.doRecv len).2.2.wantPort = s.wantPort := by
  unfold Sock.doRecv
  repeat' split
  all_goals rfl

theorem calm_forget (pid : Nat) : Calm n (n.forgetPid pid) := by
  refine ⟨rfl, rfl, rfl, rfl, fun i r now => ⟨now, ?_⟩⟩
  simp only [Net.forgetPid]
  split <;> rfl

theorem calm_handle (caller : Nat) (call : Call Addr)
    (other : ∀ host port pool dns outcome, call ≠ .connect host port pool dns outcome) :
    Calm n (n.sockHandle caller call) := by
  cases call with
  | listen port listens => exact calm_handOut (calm_listen port caller listens)
  | accept i => exact calm_handOut (calm_accept i)
  | recv i len =>
    simp only [Net.sockHandle]
    split
    · exact .refl n
    · exact calm_edit fun s => doRecv_wantPort s len
  | close i => exact calm_close i
  | connect host port pool dns outcome => exact absurd rfl (other host port pool dns outcome)
  | udp pool bound => exact calm_handOut (calm_udp caller pool bound)

theorem onConnected_wantPort (s : Sock) (err : Bool) : (s.onConnected err).wantPort = s.wantPort := by
  unfold Sock.onConnected
  split <;> rfl

theorem calm_failed (p : Nat) : Calm n (n.step (.failed p)) := by
  simp only [Net.step]
  split
  · rename_i i _
    have edited : Calm n (n.edit i Sock.onErr) := calm_edit fun _ => rfl
    exact ⟨rfl, rfl, rfl, rfl, edited.current⟩
  · exact .refl n

theorem calm_ended (pid : Nat) : Calm n (n.step (.ended pid)) :=
  let forgot : Calm n (n.forgetPid pid) := calm_forget pid
  ⟨rfl, rfl, rfl, rfl, forgot.current⟩

end Calmness

section Asking
variable {n : Net Addr}

theorem Asked.start (asked : Asked n) {i : Slot} {r : Nat} (addr : Addr) (outcome : Outcome)
    (mine : n.current i = some r) (unopened : r ∉ n.opened.map Opening.answered)
    (answered : r ∉ n.lookups.map Lookup.request) : Asked (n.startConnect i r addr outcome) := by
  have opened : Asked { n.attach i false with
      opened := ⟨n.current i, r, addr, (n.sk i).wantPort⟩ :: n.opened } := by
    obtain ⟨below, port⟩ := asked.current i r mine
    have attached := asked.calm (calm_attach (i := i) false)
    exact {
      asked := attached.asked
      apart := attached.apart
      current := attached.current
      own := by
        intro o member
        rcases List.mem_cons.mp member with rfl | before
        · exact ⟨mine, port, below⟩
        · exact asked.own o before
      answered := by
        intro o member
        rcases List.mem_cons.mp member with rfl | before
        · exact answered
        · exact asked.answered o before
      once := List.nodup_cons.mpr ⟨unopened, asked.once⟩ }
  cases outcome with
  | noPcb =>
    simp only [Net.startConnect]
    exact asked.calm (calm_edit fun _ => by rfl)
  | refused =>
    simp only [Net.startConnect, if_true]
    exact opened.calm (calm_edit fun _ => by rfl)
  | started => exact opened

/-- A request that is new, for the socket in slot `i`. -/
def Net.ask (n : Net Addr) (i : Slot) (port : Port) : Net Addr :=
  { n with
    current := update n.current i (some n.requests)
    requests := n.requests + 1
    ports := update n.ports n.requests port }

theorem Asked.ask (asked : Asked n) {i : Slot} {port : Port} (wants : (n.sk i).wantPort = port) :
    Asked (n.ask i port) where
  asked lookup member := Nat.lt_succ_of_lt (asked.asked lookup member)
  apart := asked.apart
  current j r := by
    intro now
    change update n.current i (some n.requests) j = some r at now
    change r < n.requests + 1 ∧ (n.sk j).wantPort = update n.ports n.requests port r
    by_cases same : j = i
    · subst same
      rw [update_self, Option.some_inj] at now
      subst now
      rw [update_self]
      exact ⟨Nat.lt_succ_self _, wants⟩
    · rw [update_of_ne same] at now
      obtain ⟨below, before⟩ := asked.current j r now
      rw [update_of_ne below.ne]
      exact ⟨Nat.lt_succ_of_lt below, before⟩
  own o member := by
    obtain ⟨own, before, below⟩ := asked.own o member
    refine ⟨own, ?_, Nat.lt_succ_of_lt below⟩
    change o.port = update n.ports n.requests port o.answered
    rw [update_of_ne below.ne, before]
  answered := asked.answered
  once := asked.once

theorem Asked.new (asked : Asked n) :
    n.requests ∉ n.opened.map Opening.answered ∧ n.requests ∉ n.lookups.map Lookup.request := by
  constructor
  · intro member
    obtain ⟨o, opened, same⟩ := List.mem_map.mp member
    exact (asked.own o opened).2.2.ne same
  · intro member
    obtain ⟨lookup, waits, same⟩ := List.mem_map.mp member
    exact (asked.asked lookup waits).ne same

theorem Asked.lookUp (asked : Asked n) {i : Slot} {r : Nat} (below : r < n.requests)
    (unopened : r ∉ n.opened.map Opening.answered)
    (answered : r ∉ n.lookups.map Lookup.request) :
    Asked { n with lookups := n.lookups ++ [⟨r, i⟩] } where
  asked lookup member := by
    rcases List.mem_append.mp member with before | new
    · exact asked.asked lookup before
    · rw [List.mem_singleton.mp new]
      exact below
  apart := by
    rw [List.map_append]
    exact asked.apart.append (List.nodup_singleton r) (by simpa using answered)
  current := asked.current
  own := asked.own
  answered o member := by
    rw [List.map_append, List.mem_append, not_or]
    refine ⟨asked.answered o member, ?_⟩
    intro same
    exact unopened (List.mem_map.mpr ⟨o, member, List.mem_singleton.mp same⟩)
  once := asked.once

theorem Asked.connect (asked : Asked n) (host : List Byte) (port : Port) (owner : Nat)
    (pool : Option (Nat → Byte)) (dns : Dns Addr) (outcome : Outcome) :
    Asked (n.doConnect host port owner pool dns outcome).2 := by
  unfold Net.doConnect
  split
  · exact asked
  split
  · exact asked
  rename_i i _
  let s : Sock := { zeroed.giveRing pool with owner := owner, wantPort := port, connecting := true }
  have taken : Asked (n.take i s) := asked.calm (calm_take s)
  have began : Asked ((n.take i s).ask i port) := taken.ask (by simp [Net.take, s])
  have mine : ((n.take i s).ask i port).current i = some n.requests := by simp [Net.ask, Net.take]
  cases dns with
  | known addr => exact began.start addr outcome mine asked.new.1 asked.new.2
  | later => exact began.lookUp (Nat.lt_succ_self _) asked.new.1 asked.new.2
  | unknown => exact began.calm calm_free

theorem Asked.resolved (asked : Asked n) {lookup : Lookup} (addr : Option Addr) (outcome : Outcome)
    (timely : Timely n (.resolved lookup addr outcome)) :
    Asked (n.step (.resolved lookup addr outcome)) := by
  simp only [Net.step]
  split
  case isFalse => exact asked
  rename_i waits
  have distinct := asked.apart
  have erased : ∀ other ∈ n.lookups.erase lookup, other ∈ n.lookups := fun _ => List.mem_of_mem_erase
  have sublist : List.Sublist ((n.lookups.erase lookup).map Lookup.request)
      (n.lookups.map Lookup.request) := List.erase_sublist.map _
  have rest : Asked { n with lookups := n.lookups.erase lookup } := {
    asked := fun other member => asked.asked other (erased other member)
    apart := distinct.sublist sublist
    current := asked.current
    own := asked.own
    answered := fun o member still => asked.answered o member (sublist.subset still)
    once := asked.once }
  simp only [Net.onResolved]
  split
  · exact rest
  rename_i busy
  cases addr with
  | none => exact rest.calm (calm_edit fun _ => by rfl)
  | some addr =>
    have mine : n.current lookup.slot = some lookup.request := by
      simp only [Bool.or_eq_true, Bool.not_eq_true', not_or, Bool.not_eq_false] at busy
      exact timely busy.1 busy.2
    have isLookup : lookup.request ∈ n.lookups.map Lookup.request := List.mem_map_of_mem waits
    refine rest.start addr outcome mine ?_ ?_
    · intro member
      obtain ⟨o, opened, same⟩ := List.mem_map.mp member
      exact asked.answered o opened (same ▸ isLookup)
    · intro still
      obtain ⟨other, member, same⟩ := List.mem_map.mp still
      obtain rfl := List.inj_on_of_nodup_map distinct (erased other member) waits same
      exact distinct.of_map.not_mem_erase member

end Asking

section Runs

theorem Asked.step {n : Net Addr} (asked : Asked n) (input : Step Addr) (timely : Timely n input) :
    Asked (n.step input) := by
  have reaped : Asked n.reap := asked.calm calm_reap
  cases input with
  | turn => exact reaped
  | serve caller call =>
    simp only [Net.step]
    split
    · cases call with
      | connect host port pool dns outcome =>
        have connected := reaped.connect host port caller pool dns outcome
        exact connected.calm (calm_handOut (.refl _))
      | _ => exact reaped.calm (calm_handle caller _ (by simp))
    · exact reaped
  | incoming p pool =>
    simp only [Net.step]
    split
    · exact asked.calm (calm_incoming _ pool)
    · exact asked
  | received p buffers =>
    simp only [Net.step]
    split
    · exact asked.calm (calm_edit fun s => onRecv_wantPort s buffers false)
    · exact asked
  | failed p => exact asked.calm (calm_failed p)
  | connected p =>
    simp only [Net.step]
    split
    · exact asked.calm (calm_edit fun s => onConnected_wantPort s false)
    · exact asked
  | resolved lookup addr outcome => exact asked.resolved addr outcome timely
  | started pid => exact ⟨asked.asked, asked.apart, asked.current, asked.own, asked.answered, asked.once⟩
  | ended pid => exact asked.calm (calm_ended pid)

theorem asked_boot : Asked (boot Addr) := by
  constructor <;> simp [boot]

/-- Each request opens at most one connection, with its own answer and to its own port,
and a late callback changes nothing but that it has been made. -/
theorem run_connects {steps : List (Step Addr)}
    (timely : Machine.Along Net.step Timely (boot Addr) steps) :
    (∀ o ∈ (run steps).opened, o.request = some o.answered ∧ o.port = (run steps).ports o.answered) ∧
      ((run steps).opened.map Opening.answered).Nodup ∧
      ∀ front lookup addr outcome back, steps = front ++ .resolved lookup addr outcome :: back →
        (run front).current lookup.slot ≠ some lookup.request →
        (run front).step (.resolved lookup addr outcome) =
          { run front with lookups := (run front).lookups.erase lookup } := by
  have asked : Asked (run steps) := Machine.along_invariant Asked timely asked_boot
    (fun _ input _ fine asked => asked.step input fine)
  refine ⟨fun o member => ⟨(asked.own o member).1, (asked.own o member).2.1⟩, asked.once, ?_⟩
  rintro front lookup addr outcome back rfl late
  have now : Timely (run front) (.resolved lookup addr outcome) := (Machine.along_append.mp timely).2.1
  simp only [Net.step]
  split
  · have idle : (!((run front).sk lookup.slot).used || !((run front).sk lookup.slot).connecting) = true := by
      by_contra busy
      simp only [Bool.or_eq_true, Bool.not_eq_true', not_or, Bool.not_eq_false] at busy
      exact late (now busy.1 busy.2)
    simp only [Net.onResolved, idle, if_true]
  · rename_i absent
    rw [List.erase_of_not_mem absent]

end Runs

section Trials

def asks (host : String) (port : Port) : Step Nat :=
  .serve 1 (.connect (host.toList.map fun c => BitVec.ofNat 8 c.toNat) port none .later .noPcb)

def firstSlot : Slot := ⟨0, by decide⟩

def reused : List (Step Nat) :=
  [.started 1, asks "first" 80, .serve 1 (.close 0), asks "second" 22,
    .resolved ⟨0, firstSlot⟩ (some 7) .started, .resolved ⟨1, firstSlot⟩ (some 9) .started]

/-- The second socket goes to what the first asked for, and then a second time. -/
theorem late_answer_opens :
    (run reused).opened = [⟨some 1, 1, 9, 22⟩, ⟨some 1, 0, 7, 22⟩] := by
  decide +kernel

def waited : List (Step Nat) :=
  [.started 1, asks "first" 80, .serve 1 (.close 0), .resolved ⟨0, firstSlot⟩ (some 7) .started,
    asks "second" 22, .resolved ⟨1, firstSlot⟩ (some 9) .started]

theorem run_connects_waited :
    (run waited).opened = [⟨some 1, 1, 9, 22⟩] ∧
      ((run waited).opened.map Opening.answered).Nodup := by
  have timely : Machine.Along Net.step Timely (boot Nat) waited :=
    ⟨trivial, trivial, trivial, fun used => absurd used (by decide +kernel), trivial,
      fun _ _ => by decide +kernel, trivial⟩
  exact ⟨by decide +kernel, (run_connects timely).2.1⟩

end Trials

end Ubiqos.Lwip
