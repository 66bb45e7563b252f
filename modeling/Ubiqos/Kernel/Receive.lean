import Ubiqos.Kernel.Deadlines

/-!
A blocked receive. While a process waits in `WAIT_RECV` its buffer pointer is
set, its message queue is empty and no pulse for it is in the ring, so whatever
comes first is handed over directly, and the hand-over takes the other ways of
waking it away. All of it rests on the pointer: a null one makes a waiting
receiver look like any other process.
-/

namespace Ubiqos

open Function Intrusive Machine
open SleepList (sleepInsert sleepRemove tickHead takeFirst)

variable {n : Nat} [NeZero n]

structure Receiving (state : Pid n → ProcState) (out : Pid n → Addr)
    (head : Pid n → Option (Pid n)) (ring : List (Pulse n)) : Prop where
  buffer : ∀ pid, state pid ≠ .free → (out pid ≠ 0 ↔ state pid = .waitRecv)
  queue : ∀ pid, state pid = .waitRecv → head pid = none
  ring : ∀ pid, state pid = .waitRecv → ∀ pulse ∈ ring, pulse.dest ≠ pid

section Columns
variable {state state' : Pid n → ProcState} {out out' : Pid n → Addr}
  {head head' : Pid n → Option (Pid n)} {ring ring' : List (Pulse n)}

omit [NeZero n] in
theorem Receiving.mono (inv : Receiving state out head ring)
    (kept : ∀ pid, state' pid = .waitRecv → state pid = .waitRecv ∧ out' pid = out pid ∧
      head' pid = head pid ∧ ∀ pulse ∈ ring', pulse.dest = pid → pulse ∈ ring)
    (cleared : ∀ pid, state' pid ≠ .free → state' pid ≠ .waitRecv → out' pid = 0) :
    Receiving state' out' head' ring' := by
  refine ⟨?_, ?_, ?_⟩
  · intro pid there
    by_cases waiting : state' pid = .waitRecv
    · obtain ⟨was, same, _⟩ := kept pid waiting
      simp only [waiting, iff_true, same]
      exact (inv.buffer pid (by simp [was])).mpr was
    · simp [waiting, cleared pid there waiting]
  · intro pid waiting
    obtain ⟨was, _, same, _⟩ := kept pid waiting
    rw [same]
    exact inv.queue pid was
  · intro pid waiting pulse member toPid
    obtain ⟨was, _, _, old⟩ := kept pid waiting
    exact inv.ring pid was pulse (old pulse member toPid) toPid

omit [NeZero n] in
theorem Receiving.idle (inv : Receiving state out head ring) {pid : Pid n}
    (there : state pid ≠ .free) (elsewhere : state pid ≠ .waitRecv) : out pid = 0 := by
  by_contra set
  exact elsewhere ((inv.buffer pid there).mp set)

omit [NeZero n] in
theorem Receiving.change (inv : Receiving state out head ring) (pid : Pid n) (now : ProcState)
    (there : state pid ≠ .free) (was : state pid ≠ .waitRecv) (stays : now ≠ .waitRecv) :
    Receiving (update state pid now) out head ring := by
  refine inv.mono ?_ ?_
  · intro other waiting
    by_cases same : other = pid
    · exact absurd (by simpa [same] using waiting) stays
    · exact ⟨by simpa [same] using waiting, rfl, rfl, fun _ member _ => member⟩
  · intro other alive elsewhere
    by_cases same : other = pid
    · rw [same]
      exact inv.idle there was
    · exact inv.idle (by simpa [same] using alive) (by simpa [same] using elsewhere)

omit [NeZero n] in
theorem Receiving.handed (inv : Receiving state out head ring) (pid : Pid n) :
    Receiving (update state pid .ready) (update out pid 0) head ring := by
  refine inv.mono ?_ ?_
  · intro other waiting
    by_cases same : other = pid
    · simp [same] at waiting
    · exact ⟨by simpa [same] using waiting, by simp [same], rfl, fun _ member _ => member⟩
  · intro other alive elsewhere
    by_cases same : other = pid
    · simp [same]
    · simpa [same] using inv.idle (by simpa [same] using alive) (by simpa [same] using elsewhere)

omit [NeZero n] in
theorem Receiving.block (inv : Receiving state out head ring) {pid : Pid n} {buffer : Addr}
    (nonnull : buffer ≠ 0) (noMessage : head pid = none)
    (noPulse : ∀ pulse ∈ ring, pulse.dest ≠ pid) :
    Receiving (update state pid .waitRecv) (update out pid buffer) head ring := by
  refine ⟨?_, ?_, ?_⟩
  · intro other there
    by_cases same : other = pid
    · simp [same, nonnull]
    · simpa [same] using inv.buffer other (by simpa [same] using there)
  · intro other waiting
    by_cases same : other = pid
    · rw [same]
      exact noMessage
    · exact inv.queue other (by simpa [same] using waiting)
  · intro other waiting
    by_cases same : other = pid
    · rw [same]
      exact noPulse
    · exact inv.ring other (by simpa [same] using waiting)

omit [NeZero n] in
theorem Receiving.fewer (inv : Receiving state out head ring) (fewer : ∀ x ∈ ring', x ∈ ring) :
    Receiving state out head ring' :=
  ⟨inv.buffer, inv.queue, fun pid waiting pulse member =>
    inv.ring pid waiting pulse (fewer pulse member)⟩

end Columns

def buffered (n : Nat) : Discipline n := { Discipline.none n with buffer := fun out => out ≠ 0 }

section Moves
variable {s : Kernel n}

omit [NeZero n] in
@[simp] theorem unTime_out (s : Kernel n) (pid : Pid n) : (unTime s pid).recv.out = s.recv.out := by
  unfold unTime
  split <;> rfl

omit [NeZero n] in
@[simp] theorem unTime_mail (s : Kernel n) (pid : Pid n) : (unTime s pid).mail = s.mail := by
  unfold unTime
  split <;> rfl

omit [NeZero n] in
@[simp] theorem unTime_pulses (s : Kernel n) (pid : Pid n) : (unTime s pid).pulses = s.pulses := by
  unfold unTime
  split <;> rfl

omit [NeZero n] in
theorem pulseTake_ring {s' : Kernel n} {pid : Pid n} {out : Addr}
    (taken : pulseTake s pid out = some s') :
    ∃ index, s' = { s with
      store := update s.store out
        ⟨(s.pulses.ring.slot index).type, (s.pulses.ring.slot index).value, 0,
          (s.pulses.ring.slot index).origin⟩
      pulses := ⟨Compact.removeAt s.pulses.ring index,
        .taken (s.pulses.ring.slot index) :: s.pulses.log⟩ } ∧
      Compact.find s.pulses.ring (fun pulse => pulse.dest = pid) = some index := by
  unfold pulseTake at taken
  split at taken
  · exact absurd taken (by simp)
  · rename_i index found
    exact ⟨index, (Option.some.inj taken).symm, found⟩

omit [NeZero n] in
theorem pulseTake_none {pid : Pid n} {out : Addr} (nothing : pulseTake s pid out = none) :
    ∀ pulse ∈ Compact.items s.pulses.ring, pulse.dest ≠ pid := by
  have missed : Compact.find s.pulses.ring (fun pulse => pulse.dest = pid) = none := by
    unfold pulseTake at nothing
    split at nothing
    · assumption
    · exact absurd nothing (by simp)
  intro pulse member
  simpa using Compact.find_none missed pulse member

omit [NeZero n] in
theorem current_apart {server : Pid n} (running : s.state s.current = .running)
    (waiting : s.state server = .waitRecv) : s.current ≠ server := by
  rintro rfl
  rw [running] at waiting
  cases waiting

end Moves

inductive Arrival (n : Nat) where
  | message (client : Pid n)
  | pulse (pulse : Pulse n)
  | timeout

structure Unaffected (pid : Pid n) (s s' : Kernel n) : Prop where
  state : s'.state pid = s.state pid
  a0 : s'.a0 pid = s.a0 pid
  out : s'.recv.out pid = s.recv.out pid
  timed : s'.recv.timed pid = s.recv.timed pid

/-- One move ends the wait of `pid`: what it finds in its buffer and what its
receive returns say which of the three it was. -/
def Completes (how : Arrival n) (pid : Pid n) (s s' : Kernel n) : Prop :=
  s.state pid = .waitRecv ∧ s'.state pid = .ready ∧ s'.recv.out pid = 0 ∧
    s'.recv.timed pid = false ∧
    match how with
    | .message client =>
      client ≠ 0 ∧ s'.state client = .waitReply ∧ s'.mail.dest client = some pid ∧
        s'.a0 pid = client.word ∧
        s'.store = update s.store (s.recv.out pid) (s'.mail.msg client)
    | .pulse pulse =>
      pulse.dest = pid ∧ s'.a0 pid = 0 ∧
        s'.store = update s.store (s.recv.out pid) ⟨pulse.type, pulse.value, 0, pulse.origin⟩
    | .timeout => s.recv.timed pid = true ∧ s'.a0 pid = recvTimeout ∧ s'.store = s.store

section Touches
variable {s s' t : Kernel n} {pid : Pid n} {d : Discipline n}

omit [NeZero n] in
theorem Unaffected.refl (pid : Pid n) (s : Kernel n) : Unaffected pid s s := ⟨rfl, rfl, rfl, rfl⟩

omit [NeZero n] in
theorem Unaffected.trans (first : Unaffected pid s s') (second : Unaffected pid s' t) :
    Unaffected pid s t :=
  ⟨second.state.trans first.state, second.a0.trans first.a0, second.out.trans first.out,
    second.timed.trans first.timed⟩

omit [NeZero n] in
@[simp] theorem unTime_a0 (s : Kernel n) (pid : Pid n) : (unTime s pid).a0 = s.a0 := by
  unfold unTime
  split <;> rfl

omit [NeZero n] in
@[simp] theorem unTime_store (s : Kernel n) (pid : Pid n) : (unTime s pid).store = s.store := by
  unfold unTime
  split <;> rfl

def Ends (d : Discipline n) (pid : Pid n) (s t : Kernel n) : Prop :=
  ∃ u u', Moves d s u ∧ u.state pid ≠ .free ∧ Move d u u' ∧ u'.state pid = .free ∧ Moves d u' t

/-- A process that was blocked in receive when the trap began is still blocked
and untouched; or up to one move it was, that move completed its receive, and
since then nothing has touched it; or it has been taken apart. -/
def Outcome (d : Discipline n) (pid : Pid n) (s t : Kernel n) : Prop :=
  Unaffected pid s t ∨
    (∃ u u' how, Moves d s u ∧ Unaffected pid s u ∧ Move d u u' ∧ Completes how pid u u' ∧
      Moves d u' t ∧ Unaffected pid u' t) ∨
    Ends d pid s t

end Touches

end Ubiqos
