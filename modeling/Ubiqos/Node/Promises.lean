import Mathlib.Data.BitVec
import Mathlib.Data.List.FinRange
import Mathlib.Data.List.Nodup
import Mathlib.Logic.Function.Basic
import Ubiqos.Lib.Along

/-!
The supervisor of `modules/init/init.c`, and the part of the kernel it lives on: the
process slots, the pulses that wait for it and the clock. Reading the table, waiting
for the program an entry comes after and the lines it logs are left out.
-/

namespace Ubiqos.Node

open Function

abbrev Ticks := BitVec 32

def restartDelay : Ticks := 1000
def restartLimit : Nat := 5
def restartWindow : Nat := 60000

def pulseChild : Nat := 0x6e69
def endFaulted : Nat := 2

def maxProcesses : Nat := 24

inductive Restart
  | never
  | fault
  | always
  deriving DecidableEq

/-- `entry_t`, as far as supervising goes. -/
structure Entry where
  restart : Restart
  pid : Int
  due : Ticks
  restartDue : Bool
  givenUp : Bool
  windowStart : Ticks
  restarts : Nat

def Entry.again (e : Entry) (reason : Nat) : Bool :=
  e.restart = .always || e.restart = .fault && reason = endFaulted

def Entry.renews (e : Entry) (reason : Nat) (now : Ticks) : Bool :=
  e.again reason && restartWindow < (now - e.windowStart).toNat

/-- `ended`, for the entry it has found. -/
def Entry.ended (e : Entry) (reason : Nat) (now : Ticks) : Entry :=
  let again := e.again reason
  let e := if e.renews reason now then { e with windowStart := now, restarts := 0 } else e
  let e := { e with pid := -1 }
  if !again then e
  else if restartLimit ≤ e.restarts then { e with givenUp := true }
  else { e with restarts := e.restarts + 1, restartDue := true, due := now + restartDelay }

def Entry.started (e : Entry) (answer : Option Nat) : Entry :=
  { e with pid := match answer with | some pid => pid | none => -1 }

def Entry.isDue (e : Entry) (t : Ticks) : Bool := e.restartDue && 0 ≤ (t - e.due).toInt

def endValue (pid reason : Nat) : Nat := reason * 2 ^ 16 + pid % 2 ^ 16
def endPid (value : Nat) : Nat := value % 2 ^ 16
def endReason (value : Nat) : Nat := value / 2 ^ 16

def found {n : Nat} (entries : Fin n → Entry) (pid : Nat) : Option (Fin n) :=
  (List.finRange n).foldl (fun e i => if (entries i).pid = pid then some i else e) none

/-- A process, by a number that is never used again, and whether it is init's child. -/
structure Proc where
  id : Nat
  ours : Bool
  deriving DecidableEq

/-- The kernel's own pulses have sender zero. `about` is history: the process whose
end a pulse of the kernel tells. -/
structure Pulse where
  sender : Nat
  type : Nat
  value : Nat
  about : Option Nat
  deriving DecidableEq

/-- Where init is. `starting` is before the loop; `restarting` has an entry that was
due and is being started. -/
inductive Phase (n : Nat)
  | starting (i : Fin n)
  | receiving
  | checking (i : Nat) (t : Ticks)
  | restarting (i : Fin n) (t : Ticks)

def Phase.starts {n : Nat} : Phase n → Option (Fin n)
  | .starting i => some i
  | .restarting i _ => some i
  | _ => none

/-- The phase of the first loop before entry `i`. -/
def Phase.before (n i : Nat) : Phase n := if h : i < n then .starting ⟨i, h⟩ else .receiving

/-- Init, the processes, what waits for init and the time. From `births` on the
fields are history: which process is an entry's current one, when its window began
and when it was restarted, latest first. -/
structure World (n : Nat) where
  entries : Fin n → Entry
  phase : Phase n
  procs : Nat → Option Proc
  pulses : List Pulse
  now : Nat
  births : Nat
  current : Fin n → Option Nat
  since : Fin n → Nat
  restartedAt : Fin n → List Nat

def fresh (restart : Restart) : Entry := ⟨restart, -1, 0, false, false, 0, 0⟩

def boot {n : Nat} (table : Fin n → Restart) : World n :=
  ⟨fun i => fresh (table i), .before n 0, fun _ => none, [], 0, 0, fun _ => none, fun _ => 0,
    fun _ => []⟩

section Steps
variable {n : Nat} (w : World n)

def World.ticks : Ticks := BitVec.ofNat 32 w.now

def World.granted (answer : Option Nat) : Option Nat :=
  answer.filter fun pid => 0 < pid && pid < maxProcesses && (w.procs pid).isNone

def World.start (i : Fin n) (answer : Option Nat) : World n :=
  match w.granted answer with
  | some pid => { w with
      entries := update w.entries i ((w.entries i).started (some pid))
      procs := update w.procs pid (some ⟨w.births, true⟩)
      births := w.births + 1
      current := update w.current i (some w.births) }
  | none => { w with
      entries := update w.entries i ((w.entries i).started none)
      current := update w.current i none }

/-- `ended`. -/
def World.ended (pid reason : Nat) : World n :=
  match found w.entries pid with
  | none => w
  | some i => { w with
      entries := update w.entries i ((w.entries i).ended reason w.ticks)
      current := update w.current i none
      since := if (w.entries i).renews reason w.ticks then update w.since i w.now else w.since }

/-- A receive, with the oldest pulse or without one: a message that came first, or
the time that was to be waited. -/
def World.receive (takes : Bool) : World n :=
  let w := { w with phase := .checking 0 w.ticks }
  match takes, w.pulses with
  | true, pulse :: rest =>
    let w := { w with pulses := rest }
    if pulse.type = pulseChild then w.ended (endPid pulse.value) (endReason pulse.value) else w
  | _, _ => w

def World.check (i : Nat) (t : Ticks) : World n :=
  if h : i < n then
    let e := w.entries ⟨i, h⟩
    if e.isDue t then
      { w with
        entries := update w.entries ⟨i, h⟩ { e with restartDue := false }
        phase := .restarting ⟨i, h⟩ t }
    else { w with phase := .checking (i + 1) t }
  else { w with phase := .receiving }

def World.ends (pid reason : Nat) (room : Bool) : World n :=
  match w.procs pid with
  | none => w
  | some p =>
    let w := { w with procs := update w.procs pid none }
    if p.ours && room then
      { w with pulses := w.pulses ++ [⟨0, pulseChild, endValue pid reason, some p.id⟩] }
    else w

/-- Time, the other processes and their pulses, and what init does next. -/
inductive Step
  | passes (ms : Nat)
  | born (pid : Nat)
  | ends (pid reason : Nat) (room : Bool)
  | pulses (sender type value : Nat)
  | execs (answer : Option Nat)
  | receives (takes : Bool)
  | checks

def World.step : Step → World n
  | .passes ms => { w with now := w.now + ms }
  | .born pid =>
    if w.procs pid = none then
      { w with procs := update w.procs pid (some ⟨w.births, false⟩), births := w.births + 1 }
    else w
  | .ends pid reason room => w.ends pid reason room
  | .pulses sender type value =>
    if sender = 0 then w else { w with pulses := w.pulses ++ [⟨sender, type, value, none⟩] }
  | .execs answer =>
    match w.phase with
    | .starting i => { w.start i answer with phase := .before n (i + 1) }
    | .restarting i t => { w.start i answer with
        phase := .checking (i + 1) t
        restartedAt := update w.restartedAt i (w.now :: w.restartedAt i) }
    | _ => w
  | .receives takes =>
    match w.phase with
    | .receiving => w.receive takes
    | _ => w
  | .checks =>
    match w.phase with
    | .checking i t => w.check i t
    | _ => w

end Steps

def run {n : Nat} (table : Fin n → Restart) (steps : List Step) : World n :=
  steps.foldl World.step (boot table)

end Ubiqos.Node

/-!
What the supervisor can be relied on for. An entry's pid means its process only as
long as nobody else is given the number before the notice of the end has been read,
and nobody else sends that notice.
-/

namespace Ubiqos.Node

open Function

/-- Every end is told; what is kept running starts, at a number no entry has; an end
is not made up, comes in the count's own time, and renews a window only when all of
its restarts are a minute old. -/
def Fair {n : Nat} (w : World n) : Step → Prop
  | .ends pid _ room => ∀ p ∈ w.procs pid, p.ours = true → room = true
  | .execs answer => ∀ i ∈ w.phase.starts,
      (w.granted answer = none → (w.entries i).restart ≠ .always) ∧
        ∀ pid ∈ w.granted answer, ∀ j, (w.entries j).pid ≠ pid
  | .receives true => ∀ pulse ∈ w.pulses.head?, pulse.type = pulseChild →
      (pulse.sender ≠ 0 → ∀ j, (w.entries j).pid ≠ endPid pulse.value) ∧
        ∀ i ∈ found w.entries (endPid pulse.value),
          ((w.entries i).renews (endReason pulse.value) w.ticks = true →
            ∀ r ∈ w.restartedAt i, r + restartWindow < w.now) ∧
          ((w.entries i).restarts = restartLimit → w.now < w.since i + 2 ^ 32)
  | _ => True

instance {n : Nat} (w : World n) : (step : Step) → Decidable (Fair w step)
  | .ends pid _ room => inferInstanceAs (Decidable (∀ p ∈ w.procs pid, p.ours = true → room = true))
  | .execs answer => inferInstanceAs (Decidable (∀ i ∈ w.phase.starts,
      (w.granted answer = none → (w.entries i).restart ≠ .always) ∧
        ∀ pid ∈ w.granted answer, ∀ j, (w.entries j).pid ≠ pid))
  | .receives true => inferInstanceAs (Decidable (∀ pulse ∈ w.pulses.head?, pulse.type = pulseChild →
      (pulse.sender ≠ 0 → ∀ j, (w.entries j).pid ≠ endPid pulse.value) ∧
        ∀ i ∈ found w.entries (endPid pulse.value),
          ((w.entries i).renews (endReason pulse.value) w.ticks = true →
            ∀ r ∈ w.restartedAt i, r + restartWindow < w.now) ∧
          ((w.entries i).restarts = restartLimit → w.now < w.since i + 2 ^ 32)))
  | .receives false => isTrue trivial
  | .passes _ => isTrue trivial
  | .born _ => isTrue trivial
  | .pulses _ _ _ => isTrue trivial
  | .checks => isTrue trivial

section Finding
variable {n : Nat} {entries : Fin n → Entry} {pid : Nat}

theorem found_pid {i : Fin n} (is : found entries pid = some i) : (entries i).pid = pid := by
  have known : ∀ j ∈ found entries pid, (entries j).pid = pid :=
    Machine.foldl_invariant (fun e : Option (Fin n) => ∀ j ∈ e, (entries j).pid = pid)
      (by simp) (by
        intro e i _ before
        split
        · rename_i same
          intro j member
          cases member
          exact same
        · exact before)
  exact known i is

theorem found_some {i : Fin n} (same : (entries i).pid = pid) : (found entries pid).isSome = true := by
  have visited : (entries i).pid = pid → (found entries pid).isSome = true :=
    Machine.foldl_visits (fun (i : Fin n) (e : Option (Fin n)) => (entries i).pid = pid → e.isSome = true)
      (by
        intro e i same
        simp [same])
      (by
        intro e i other before same
        split
        · rfl
        · exact before same) i (List.mem_finRange i)
  exact visited same

theorem found_eq (apart : ∀ i j, 0 ≤ (entries i).pid → (entries i).pid = (entries j).pid → i = j)
    {i : Fin n} (same : (entries i).pid = pid) : found entries pid = some i := by
  obtain ⟨j, is⟩ := Option.isSome_iff_exists.mp (found_some same)
  rw [is, apart i j (by omega) (same.trans (found_pid is).symm)]

theorem found_none (nobody : ∀ i, (entries i).pid ≠ pid) : found entries pid = none := by
  cases is : found entries pid with
  | none => rfl
  | some i => exact absurd (found_pid is) (nobody i)

theorem endPid_endValue (pid reason : Nat) : endPid (endValue pid reason) = pid % 2 ^ 16 := by
  simp [endPid, endValue]

end Finding

theorem Entry.ended_pid (e : Entry) (reason : Nat) (now : Ticks) : (e.ended reason now).pid = -1 := by
  unfold Entry.ended
  dsimp only
  split
  · split <;> rfl
  · split <;> split <;> rfl

def Waiting {n : Nat} (w : World n) (i : Fin n) : Prop :=
  (∃ j, w.phase = .starting j ∧ j ≤ i) ∨ ∃ t, w.phase = .restarting i t

/-- The entries and the processes are matched, by their pids and by their notices. -/
structure Matched {n : Nat} (w : World n) : Prop where
  running : ∀ i, 0 ≤ (w.entries i).pid → ∃ (pid : Nat) (q : Nat), (w.entries i).pid = pid ∧
    w.current i = some q ∧
      (w.procs pid = some ⟨q, true⟩ ∨ ∃ pulse ∈ w.pulses, pulse.about = some q)
  idle : ∀ i, (w.entries i).pid < 0 → (w.entries i).pid = -1 ∧ w.current i = none
  children : ∀ pid q, w.procs pid = some ⟨q, true⟩ →
    pid < maxProcesses ∧ ∃ i, (w.entries i).pid = pid ∧ w.current i = some q
  notices : ∀ pulse ∈ w.pulses, ∀ q, pulse.about = some q →
    pulse.type = pulseChild ∧ (∀ pid, w.procs pid ≠ some ⟨q, true⟩) ∧
      ∃ i, (w.entries i).pid = endPid pulse.value ∧ w.current i = some q
  senders : ∀ pulse ∈ w.pulses, pulse.about = none → pulse.sender ≠ 0
  once : (w.pulses.filterMap Pulse.about).Nodup
  apart : ∀ i j, 0 ≤ (w.entries i).pid → (w.entries i).pid = (w.entries j).pid → i = j
  mine : ∀ i j q, w.current i = some q → w.current j = some q → i = j
  old : ∀ i q, w.current i = some q → q < w.births
  born : ∀ pid p, w.procs pid = some p → p.id < w.births
  alone : ∀ pid pid' p, w.procs pid = some p → w.procs pid' = some p → pid = pid'

section Matching
variable {n : Nat} {w v : World n}

theorem Matched.same (matched : Matched w) (pid : ∀ i, (v.entries i).pid = (w.entries i).pid)
    (current : v.current = w.current) (procs : v.procs = w.procs) (pulses : v.pulses = w.pulses)
    (births : v.births = w.births) : Matched v := by
  constructor
  · simp only [pid, current, procs, pulses]
    exact matched.running
  · simp only [pid, current]
    exact matched.idle
  · simp only [pid, current, procs]
    exact matched.children
  · simp only [pid, current, procs, pulses]
    exact matched.notices
  · rw [pulses]
    exact matched.senders
  · rw [pulses]
    exact matched.once
  · simp only [pid]
    exact matched.apart
  · rw [current]
    exact matched.mine
  · rw [current, births]
    exact matched.old
  · rw [procs, births]
    exact matched.born
  · rw [procs]
    exact matched.alone

variable {pulse : Pulse}

theorem Matched.pulsed (matched : Matched w) (sender : pulse.sender ≠ 0)
    (about : pulse.about = none) : Matched { w with pulses := w.pulses ++ [pulse] } where
  running i has := by
    obtain ⟨pid, q, is, mine, alive | ⟨notice, member, tells⟩⟩ := matched.running i has
    · exact ⟨pid, q, is, mine, .inl alive⟩
    · exact ⟨pid, q, is, mine, .inr ⟨notice, List.mem_append_left _ member, tells⟩⟩
  idle := matched.idle
  children := matched.children
  notices notice member q tells := by
    rcases List.mem_append.mp member with before | new
    · exact matched.notices notice before q tells
    · rw [List.mem_singleton.mp new, about] at tells
      cases tells
  senders notice member none := by
    rcases List.mem_append.mp member with before | new
    · exact matched.senders notice before none
    · rw [List.mem_singleton.mp new]
      exact sender
  once := by
    rw [List.filterMap_append]
    simpa [about] using matched.once
  apart := matched.apart
  mine := matched.mine
  old := matched.old
  born := matched.born
  alone := matched.alone

theorem Matched.other (matched : Matched w) {pid : Nat} (free : w.procs pid = none) :
    Matched { w with procs := update w.procs pid (some ⟨w.births, false⟩), births := w.births + 1 } where
  running i has := by
    obtain ⟨own, q, is, mine, alive | told⟩ := matched.running i has
    · have elsewhere : own ≠ pid := by
        rintro rfl
        simp [free] at alive
      exact ⟨own, q, is, mine, .inl (by simp [update_of_ne elsewhere, alive])⟩
    · exact ⟨own, q, is, mine, .inr told⟩
  idle := matched.idle
  children own q alive := by
    by_cases same : own = pid
    · simp [same] at alive
    · exact matched.children own q (by simpa [update_of_ne same] using alive)
  notices notice member q tells := by
    obtain ⟨type, dead, entry⟩ := matched.notices notice member q tells
    refine ⟨type, fun own => ?_, entry⟩
    by_cases same : own = pid
    · simp [same]
    · simpa [update_of_ne same] using dead own
  senders := matched.senders
  once := matched.once
  apart := matched.apart
  mine := matched.mine
  old i q is := Nat.lt_succ_of_lt (matched.old i q is)
  born own p alive := by
    by_cases same : own = pid
    · simp only [same, update_self, Option.some_inj] at alive
      rw [← alive]
      exact Nat.lt_succ_self _
    · exact Nat.lt_succ_of_lt (matched.born own p (by simpa [update_of_ne same] using alive))
  alone own own' p first second := by
    by_cases same : own = pid
    · by_cases same' : own' = pid
      · rw [same, same']
      · simp only [same, update_self, Option.some_inj, update_of_ne same'] at first second
        exact absurd (matched.born own' p second) (by rw [← first]; exact lt_irrefl _)
    · by_cases same' : own' = pid
      · simp only [same', update_self, Option.some_inj, update_of_ne same] at first second
        exact absurd (matched.born own p first) (by rw [← second]; exact lt_irrefl _)
      · simp only [update_of_ne same, update_of_ne same'] at first second
        exact matched.alone own own' p first second

theorem left_alive {pid own : Nat} {p : Proc} (is : update w.procs pid none own = some p) :
    own ≠ pid ∧ w.procs own = some p := by
  by_cases same : own = pid
  · simp [same] at is
  · exact ⟨same, by rwa [update_of_ne same] at is⟩

theorem stays_alive {pid own : Nat} {p : Proc} (is : w.procs own = some p) (apart : own ≠ pid) :
    update w.procs pid none own = some p := by
  rw [update_of_ne apart, is]

/-- The end of a process that is not a child of init: nobody is told. -/
theorem Matched.gone (matched : Matched w) {pid : Nat} {p : Proc} (alive : w.procs pid = some p)
    (ours : p.ours = false) : Matched { w with procs := update w.procs pid none } where
  running i has := by
    obtain ⟨own, q, is, mine, running | told⟩ := matched.running i has
    · refine ⟨own, q, is, mine, .inl (stays_alive running ?_)⟩
      rintro rfl
      rw [alive, Option.some_inj] at running
      simp [running] at ours
    · exact ⟨own, q, is, mine, .inr told⟩
  idle := matched.idle
  children own q is := matched.children own q (left_alive is).2
  notices notice member q tells := by
    obtain ⟨type, dead, entry⟩ := matched.notices notice member q tells
    exact ⟨type, fun own is => dead own (left_alive is).2, entry⟩
  senders := matched.senders
  once := matched.once
  apart := matched.apart
  mine := matched.mine
  old := matched.old
  born own q is := matched.born own q (left_alive is).2
  alone own own' q first second :=
    matched.alone own own' q (left_alive first).2 (left_alive second).2

/-- The end of a child: the entry that was running it is now the one the new pulse is about. -/
theorem Matched.reported (matched : Matched w) {pid q : Nat} (reason : Nat)
    (alive : w.procs pid = some ⟨q, true⟩) :
    Matched { w with
      procs := update w.procs pid none
      pulses := w.pulses ++ [⟨0, pulseChild, endValue pid reason, some q⟩] } where
  running j has := by
    obtain ⟨own, r, is, mine, running | ⟨notice, member, about⟩⟩ := matched.running j has
    · by_cases same : own = pid
      · subst same
        rw [alive, Option.some_inj, Proc.mk.injEq] at running
        exact ⟨own, r, is, mine, .inr ⟨_, List.mem_append_right _ (List.mem_singleton_self _),
          by rw [running.1]⟩⟩
      · exact ⟨own, r, is, mine, .inl (stays_alive running same)⟩
    · exact ⟨own, r, is, mine, .inr ⟨notice, List.mem_append_left _ member, about⟩⟩
  idle := matched.idle
  children own r is := matched.children own r (left_alive is).2
  notices notice member r about := by
    rcases List.mem_append.mp member with before | new
    · obtain ⟨type, dead, entry⟩ := matched.notices notice before r about
      exact ⟨type, fun own is => dead own (left_alive is).2, entry⟩
    · rw [List.mem_singleton.mp new] at about ⊢
      obtain rfl : q = r := Option.some_inj.mp about
      obtain ⟨below, i, own, current⟩ := matched.children pid q alive
      have number : endPid (endValue pid reason) = pid := by
        rw [endPid_endValue]
        have small : maxProcesses ≤ 2 ^ 16 := by decide
        exact Nat.mod_eq_of_lt (by omega)
      refine ⟨rfl, fun other is => ?_, i, by rw [number, own], current⟩
      obtain ⟨apart, is⟩ := left_alive is
      exact apart (matched.alone other pid _ is alive)
  senders notice member none := by
    rcases List.mem_append.mp member with before | new
    · exact matched.senders notice before none
    · rw [List.mem_singleton.mp new] at none
      cases none
  once := by
    rw [List.filterMap_append]
    refine matched.once.append (by simp) ?_
    simp only [List.filterMap_cons, List.filterMap_nil, List.disjoint_singleton, List.mem_filterMap]
    rintro ⟨notice, member, about⟩
    exact (matched.notices notice member q about).2.1 pid alive
  apart := matched.apart
  mine := matched.mine
  old := matched.old
  born own r is := matched.born own r (left_alive is).2
  alone own own' r first second :=
    matched.alone own own' r (left_alive first).2 (left_alive second).2

theorem Matched.ends (matched : Matched w) (pid reason : Nat) (room : Bool)
    (fair : Fair w (.ends pid reason room)) : Matched (w.ends pid reason room) := by
  unfold World.ends
  split
  · exact matched
  rename_i p alive
  cases ours : p.ours with
  | false =>
    simp only [Bool.false_and, Bool.false_eq_true, if_false]
    exact matched.gone alive ours
  | true =>
    have tells : room = true := fair p alive ours
    simp only [tells, Bool.and_self, if_true]
    exact matched.reported reason (by rw [alive, ← ours])

theorem Matched.started (matched : Matched w) {i : Fin n} {pid : Nat} (none : (w.entries i).pid < 0)
    (free : w.procs pid = .none) (below : pid < maxProcesses) (unknown : ∀ j, (w.entries j).pid ≠ pid) :
    Matched { w with
      entries := update w.entries i ((w.entries i).started (some pid))
      procs := update w.procs pid (some ⟨w.births, true⟩)
      births := w.births + 1
      current := update w.current i (some w.births) } := by
  have old : ∀ j q, j ≠ i → w.current j = some q →
      update w.current i (some w.births) j = some q := by
    intro j q apart is
    rwa [update_of_ne apart]
  have slot : ∀ j, j ≠ i →
      (update w.entries i ((w.entries i).started (some pid)) j).pid = (w.entries j).pid := by
    intro j apart
    rw [update_of_ne apart]
  have alive : ∀ own p, own ≠ pid →
      (update w.procs pid (some ⟨w.births, true⟩) own = some p ↔ w.procs own = some p) := by
    intro own p apart
    rw [update_of_ne apart]
  have elsewhere : ∀ own p, w.procs own = some p → own ≠ pid := by
    rintro own p is rfl
    rw [free] at is
    cases is
  have owner : ∀ j q, (w.entries j).pid ≥ 0 → w.current j = some q → j ≠ i := by
    rintro j q has _ rfl
    omega
  constructor
  case running =>
    intro j has
    by_cases same : j = i
    · subst same
      exact ⟨pid, w.births, by simp [Entry.started], by simp, .inl (by simp)⟩
    · simp only [slot j same] at has ⊢
      obtain ⟨own, q, is, mine, running | told⟩ := matched.running j has
      · exact ⟨own, q, is, old j q same mine, .inl ((alive own _ (elsewhere own _ running)).mpr running)⟩
      · exact ⟨own, q, is, old j q same mine, .inr told⟩
  case idle =>
    intro j negative
    by_cases same : j = i
    · subst same
      simp only [update_self, Entry.started] at negative
      omega
    · simp only [update_of_ne same] at negative ⊢
      exact matched.idle j negative
  case children =>
    intro own q is
    by_cases same : own = pid
    · subst same
      simp only [update_self, Option.some_inj, Proc.mk.injEq, and_true] at is
      subst is
      exact ⟨below, i, by simp [Entry.started], by simp⟩
    · obtain ⟨small, j, number, mine⟩ := matched.children own q ((alive own _ same).mp is)
      have apart : j ≠ i := owner j q (by omega) mine
      exact ⟨small, j, by rw [slot j apart, number], old j q apart mine⟩
  case notices =>
    intro notice member q tells
    obtain ⟨type, dead, j, number, mine⟩ := matched.notices notice member q tells
    have apart : j ≠ i := owner j q (by omega) mine
    refine ⟨type, fun own is => ?_, j, by rw [slot j apart, number], old j q apart mine⟩
    by_cases same : own = pid
    · subst same
      simp only [update_self, Option.some_inj, Proc.mk.injEq, and_true] at is
      exact absurd (matched.old j q mine) (by omega)
    · exact dead own ((alive own _ same).mp is)
  case senders => exact matched.senders
  case once => exact matched.once
  case apart =>
    intro j k has equal
    by_cases first : j = i <;> by_cases second : k = i
    · rw [first, second]
    · rw [slot k second, first] at equal
      exact absurd (by simpa [Entry.started] using equal.symm) (unknown k)
    · rw [slot j first, second] at equal
      exact absurd (by simpa [Entry.started] using equal) (unknown j)
    · rw [slot j first] at equal has
      rw [slot k second] at equal
      exact matched.apart j k has equal
  case mine =>
    intro j k q first second
    by_cases here : j = i <;> by_cases there : k = i
    · rw [here, there]
    · simp only [here, update_self, Option.some_inj, update_of_ne there] at first second
      exact absurd (matched.old k q second) (by omega)
    · simp only [there, update_self, Option.some_inj, update_of_ne here] at first second
      exact absurd (matched.old j q first) (by omega)
    · simp only [update_of_ne here, update_of_ne there] at first second
      exact matched.mine j k q first second
  case old =>
    intro j q is
    dsimp only at is ⊢
    by_cases same : j = i
    · simp only [same, update_self, Option.some_inj] at is
      omega
    · rw [update_of_ne same] at is
      exact Nat.lt_succ_of_lt (matched.old j q is)
  case born =>
    intro own p is
    by_cases same : own = pid
    · simp only [same, update_self, Option.some_inj] at is
      rw [← is]
      exact Nat.lt_succ_self _
    · exact Nat.lt_succ_of_lt (matched.born own p ((alive own p same).mp is))
  case alone =>
    intro own own' p first second
    by_cases here : own = pid <;> by_cases there : own' = pid
    · rw [here, there]
    · simp only [here, update_self, Option.some_inj] at first
      exact absurd (matched.born own' p ((alive own' p there).mp second)) (by rw [← first]; exact lt_irrefl _)
    · simp only [there, update_self, Option.some_inj] at second
      exact absurd (matched.born own p ((alive own p here).mp first)) (by rw [← second]; exact lt_irrefl _)
    · exact matched.alone own own' p ((alive own p here).mp first) ((alive own' p there).mp second)

theorem Matched.start (matched : Matched w) {i : Fin n} {answer : Option Nat}
    (none : (w.entries i).pid < 0)
    (unknown : ∀ pid ∈ w.granted answer, ∀ j, (w.entries j).pid ≠ pid) : Matched (w.start i answer) := by
  unfold World.start
  split
  · rename_i pid is
    obtain ⟨-, free⟩ := Option.filter_eq_some_iff.mp is
    simp only [Bool.and_eq_true, decide_eq_true_eq, Option.isNone_iff_eq_none] at free
    exact matched.started none free.2 free.1.2 (unknown pid is)
  · obtain ⟨unset, nobody⟩ := matched.idle i none
    refine matched.same (fun j => ?_) ?_ rfl rfl rfl
    · by_cases same : j = i
      · subst same
        simp [Entry.started, unset]
      · simp [update_of_ne same]
    · funext j
      by_cases same : j = i
      · subst same
        simp [nobody]
      · simp [update_of_ne same]

variable {rest : List Pulse}

theorem Matched.dropped (matched : Matched w)
    (queued : w.pulses = pulse :: rest) (about : pulse.about = none) :
    Matched { w with pulses := rest } where
  running i has := by
    obtain ⟨pid, q, is, mine, alive | ⟨notice, member, tells⟩⟩ := matched.running i has
    · exact ⟨pid, q, is, mine, .inl alive⟩
    · rw [queued] at member
      rcases List.mem_cons.mp member with rfl | later
      · rw [about] at tells
        cases tells
      · exact ⟨pid, q, is, mine, .inr ⟨notice, later, tells⟩⟩
  idle := matched.idle
  children := matched.children
  notices notice member := matched.notices notice (by rw [queued]; exact List.mem_cons_of_mem _ member)
  senders notice member := matched.senders notice (by rw [queued]; exact List.mem_cons_of_mem _ member)
  once := by
    have once := matched.once
    rwa [queued, List.filterMap_cons_none about] at once
  apart := matched.apart
  mine := matched.mine
  old := matched.old
  born := matched.born
  alone := matched.alone

theorem Matched.collected (matched : Matched w) {q : Nat}
    (queued : w.pulses = pulse :: rest) (about : pulse.about = some q) {i : Fin n}
    (its : w.current i = some q) {e : Entry} (unset : e.pid = -1) :
    Matched { w with
      pulses := rest
      entries := update w.entries i e
      current := update w.current i none } := by
  have once : q ∉ rest.filterMap Pulse.about := by
    have once := matched.once
    rw [queued, List.filterMap_cons_some about, List.nodup_cons] at once
    exact once.1
  -- The entry is freed with its notice: no other entry ran `q`, and no other notice is about it.
  have other : ∀ j p, p ≠ q → w.current j = some p → j ≠ i := by
    rintro j p apart is rfl
    rw [its, Option.some_inj] at is
    exact apart is.symm
  have dead : ∀ pid, w.procs pid ≠ some ⟨q, true⟩ :=
    (matched.notices pulse (by rw [queued]; exact List.mem_cons_self) q about).2.1
  have within : ∀ notice ∈ rest, notice ∈ w.pulses := by
    intro notice member
    rw [queued]
    exact List.mem_cons_of_mem _ member
  constructor
  · intro j has
    by_cases same : j = i
    · subst same
      simp [unset] at has
    · simp only [update_of_ne same] at has ⊢
      obtain ⟨pid, p, is, mine, alive | ⟨notice, member, tells⟩⟩ := matched.running j has
      · exact ⟨pid, p, is, mine, .inl alive⟩
      · rw [queued] at member
        rcases List.mem_cons.mp member with rfl | later
        · rw [about, Option.some_inj] at tells
          exact absurd (matched.mine j i q (tells ▸ mine) its) same
        · exact ⟨pid, p, is, mine, .inr ⟨notice, later, tells⟩⟩
  · intro j negative
    by_cases same : j = i
    · subst same
      simp [unset]
    · simp only [update_of_ne same] at negative ⊢
      exact matched.idle j negative
  · intro pid p is
    obtain ⟨small, j, number, mine⟩ := matched.children pid p is
    have apart : j ≠ i := other j p (by rintro rfl; exact dead pid is) mine
    exact ⟨small, j, by simp only [update_of_ne apart, number], by simp only [update_of_ne apart, mine]⟩
  · intro notice member p tells
    obtain ⟨type, gone, j, number, mine⟩ := matched.notices notice (within notice member) p tells
    have apart : j ≠ i := other j p (by
      rintro rfl
      exact once (List.mem_filterMap.mpr ⟨notice, member, tells⟩)) mine
    exact ⟨type, gone, j, by simp only [update_of_ne apart, number], by simp only [update_of_ne apart, mine]⟩
  · exact fun notice member => matched.senders notice (within notice member)
  · have once := matched.once
    rw [queued, List.filterMap_cons_some about, List.nodup_cons] at once
    exact once.2
  · intro j k has equal
    by_cases first : j = i
    · simp [first, unset] at has
    · by_cases second : k = i
      · simp only [update_of_ne first, second, update_self, unset] at has equal
        omega
      · simp only [update_of_ne first, update_of_ne second] at has equal
        exact matched.apart j k has equal
  · intro j k p first second
    by_cases here : j = i
    · simp [here] at first
    · by_cases there : k = i
      · simp [there] at second
      · simp only [update_of_ne here, update_of_ne there] at first second
        exact matched.mine j k p first second
  · intro j p is
    by_cases same : j = i
    · simp [same] at is
    · simp only [update_of_ne same] at is
      exact matched.old j p is
  · exact matched.born
  · exact matched.alone

/-- A notice is attributed to the entry whose current process it is about, and what
is no notice to none. -/
def Attributed (w : World n) (pulse : Pulse) : Prop :=
  (∀ q, pulse.about = some q →
    ∃ i, w.current i = some q ∧ found w.entries (endPid pulse.value) = some i) ∧
  (pulse.about = none → pulse.type = pulseChild → found w.entries (endPid pulse.value) = none)

theorem Matched.attributed (matched : Matched w)
    (queued : w.pulses = pulse :: rest) (fair : Fair w (.receives true)) : Attributed w pulse := by
  have member : pulse ∈ w.pulses := by
    rw [queued]
    exact List.mem_cons_self
  constructor
  · intro q about
    obtain ⟨-, -, i, number, mine⟩ := matched.notices pulse member q about
    exact ⟨i, mine, found_eq matched.apart number⟩
  · intro about type
    have sender := matched.senders pulse member about
    have unknown := (fair pulse (by rw [queued]; rfl) type).1 sender
    exact found_none unknown

theorem receive_cons (queued : w.pulses = pulse :: rest) :
    w.receive true =
      if pulse.type = pulseChild then
        World.ended { w with phase := .checking 0 w.ticks, pulses := rest }
          (endPid pulse.value) (endReason pulse.value)
      else { w with phase := .checking 0 w.ticks, pulses := rest } := by
  unfold World.receive
  dsimp only
  rw [queued]

theorem receive_nil (queued : w.pulses = []) :
    w.receive true = { w with phase := .checking 0 w.ticks } := by
  unfold World.receive
  dsimp only
  rw [queued]

theorem Matched.receive (matched : Matched w) (takes : Bool) (fair : Fair w (.receives takes)) :
    Matched (w.receive takes) := by
  cases takes with
  | false => exact matched.same (fun _ => rfl) rfl rfl rfl rfl
  | true =>
    cases queued : w.pulses with
    | nil =>
      rw [receive_nil queued]
      exact matched.same (fun _ => rfl) rfl rfl rfl rfl
    | cons pulse rest =>
      have attributed := matched.attributed queued fair
      rw [receive_cons queued]
      cases about : pulse.about with
      | none =>
        have dropped := matched.dropped queued about
        split
        · rename_i type
          unfold World.ended
          rw [attributed.2 about type]
          exact dropped.same (fun _ => rfl) rfl rfl rfl rfl
        · exact dropped.same (fun _ => rfl) rfl rfl rfl rfl
      | some q =>
        obtain ⟨i, mine, is⟩ := attributed.1 q about
        have type := (matched.notices pulse (by rw [queued]; exact List.mem_cons_self) q about).1
        rw [if_pos type]
        unfold World.ended
        rw [is]
        have collected := matched.collected queued about mine
          ((w.entries i).ended_pid (endReason pulse.value) w.ticks)
        exact collected.same (fun _ => rfl) rfl rfl rfl rfl

end Matching

end Ubiqos.Node
