import Ubiqos.Io.Blocking
import Ubiqos.Io.Pipes

/-!
The two system calls and the two questions the timer tick asks. A descriptor of a
process is the slot it names, and the device or the rings behind it may be in any
state; the theorem at the end says for which calls, in which states, a parked
caller and the tick are of one mind.
-/

namespace Ubiqos.Io

open Function Machine

structure World (n k f : Nat) where
  table : Table n k f
  devices : Nat → Device
  plain : Plain table

def World.ofRun (n k f : Nat) (ops : List Op) (devices : Nat → Device) : World n k f :=
  ⟨run n k f ops, devices, run_plain n k f ops⟩

/-- What a write comes to; `crash` is a call through an entry that is not there. -/
inductive Answer where
  | moved (count : Nat)
  | refused
  | crash
  deriving DecidableEq

inductive Call where
  | read (len : Nat)
  | write (bytes : List Byte)

/-- `server` is a request handed to the filesystem server. -/
inductive Outcome where
  | returns (count : Option Nat)
  | parks
  | server
  | faults
  deriving DecidableEq

section Calls
variable {n k f : Nat}

/-- The device behind `path_of`. -/
def deviceOf (w : World n k f) (path owner : Int) : Option Device :=
  (pathOf w.table path owner).bind (fun spot => (w.table.paths spot).device.map w.devices)

/-- `ubiqos_io_read`. -/
def ioRead (w : World n k f) (path owner : Int) (len : Nat) : Option (List Byte) :=
  match pipeEntry w.table path owner with
  | some spot => (pipeRead w.table spot len).2
  | none =>
    match deviceOf w path owner with
    | none => none
    | some device =>
      match device.kind.driver.read with
      | none => none
      | some read => (read device.state len).2

/-- `ubiqos_io_at_eof`. -/
def ioAtEof (w : World n k f) (path owner : Int) : Bool :=
  match pipeEntry w.table path owner with
  | some spot => pipeAtEof w.table spot
  | none =>
    match deviceOf w path owner with
    | none => false
    | some device =>
      match device.kind.driver.atEof with
      | none => false
      | some atEof => atEof device.state

/-- `ubiqos_io_write`. Unlike `read`, the driver's entry is called without a look. -/
def ioWrite (w : World n k f) (path owner : Int) (bytes : List Byte) : Answer :=
  match pipeEntry w.table path owner with
  | some spot =>
    match (pipeWrite w.table spot bytes).2 with
    | none => .refused
    | some count => .moved count
  | none =>
    match deviceOf w path owner with
    | none => .refused
    | some device =>
      match device.kind.driver.write with
      | none => .crash
      | some write =>
        match (write device.state bytes).2 with
        | none => .refused
        | some count => .moved count

/-- `ubiqos_io_readable_count`. -/
def ioReadableCount (w : World n k f) (path owner : Int) : Int :=
  match pipeEntry w.table path owner with
  | some spot =>
    match (w.table.paths spot).inn with
    | none => 0
    | some q => pipeUsed (w.table.pipes q) + if (w.table.pipes q).writers = 0 then 1 else 0
  | none =>
    match deviceOf w path owner with
    | none => -1
    | some device =>
      match device.kind.driver.readable with
      | none => 0
      | some readable => readable device.state

def ioReadable (w : World n k f) (path owner : Int) : Prop := 0 < ioReadableCount w path owner

/-- `ubiqos_io_writable`. -/
def ioWritable (w : World n k f) (path owner : Int) : Prop :=
  match pipeEntry w.table path owner with
  | some spot =>
    match (w.table.paths spot).out with
    | none => False
    | some q => pipeUsed (w.table.pipes q) < pipeBuf - 1 ∨ (w.table.pipes q).readers = 0
  | none =>
    match deviceOf w path owner with
    | none => False
    | some device =>
      match device.kind.driver.writable with
      | none => True
      | some writable => 0 < writable device.state

/-- `SYS_READ`. The kernel itself is never parked. -/
def sysRead (w : World n k f) (path pid : Int) (len : Nat) : Outcome :=
  if (fileEntry w.table path pid).isSome then .server
  else
    match ioRead w path pid len with
    | none => .returns none
    | some [] =>
      if ioAtEof w path pid then .returns (some 0)
      else if pid = 0 then .returns (some 0)
      else .parks
    | some bytes => .returns (some bytes.length)

/-- `SYS_WRITE`. -/
def sysWrite (w : World n k f) (path pid : Int) (bytes : List Byte) : Outcome :=
  if (fileEntry w.table path pid).isSome then .server
  else
    match ioWrite w path pid bytes with
    | .crash => .faults
    | .refused => .returns none
    | .moved 0 => if bytes.length ≠ 0 ∧ pid ≠ 0 then .parks else .returns (some 0)
    | .moved count => .returns (some count)

def sysCall (w : World n k f) (path pid : Int) : Call → Outcome
  | .read len => sysRead w path pid len
  | .write bytes => sysWrite w path pid bytes

def Parks (w : World n k f) (path pid : Int) (call : Call) : Prop := sysCall w path pid call = .parks

/-- What `ubiqos_wake_readers` asks of a parked caller. -/
def Ready (w : World n k f) (path pid : Int) : Call → Prop
  | .read _ => ioReadable w path pid
  | .write _ => ioWritable w path pid

def MovedNothing (w : World n k f) (path pid : Int) : Call → Prop
  | .read len => ioRead w path pid len = some [] ∧ ioAtEof w path pid = false
  | .write bytes => ioWrite w path pid bytes = .moved 0

def SameDescriptor (path pid : Int) (w w' : World n k f) : Prop :=
  ∀ spot, place n k path pid = some spot → w'.table.paths spot = w.table.paths spot ∧
    ∀ d, (w.table.paths spot).device = some d → (w'.devices d).kind = (w.devices d).kind

/-- Blocking and waking agree. A caller is parked for the right reason; if a caller
can be parked on the descriptor, it is woken in this state exactly when the call
would not park it again; and one that is parked here can be woken. -/
def Agrees (w : World n k f) (path pid : Int) (call : Call) : Prop :=
  (Parks w path pid call → MovedNothing w path pid call) ∧
  ((∃ w', SameDescriptor path pid w w' ∧ Parks w' path pid call) →
    (Ready w path pid call ↔ ¬ Parks w path pid call)) ∧
  (Parks w path pid call → ∃ w', SameDescriptor path pid w w' ∧ Ready w' path pid call)

def PipeFits (t : Table n k f) (spot : Pid n × Fin k) : Call → Prop
  | .read len => ∀ q, (t.paths spot).inn = some q → 0 < len ∨ pipeUsed (t.pipes q) = 0
  | .write _ => True

def DeviceFits (device : Device) : Call → Prop
  | .read len => ReadFits device.kind device.state len
  | .write bytes => WriteFits device.kind device.state bytes

def Fits (w : World n k f) (path pid : Int) (call : Call) : Prop :=
  pid = 0 ∨ (fileEntry w.table path pid).isSome = true ∨
    match pipeEntry w.table path pid with
    | some spot => PipeFits w.table spot call
    | none =>
      match deviceOf w path pid with
      | none => True
      | some device => DeviceFits device call

variable {w : World n k f} {path pid : Int} {call : Call}

theorem parks_moved (parked : Parks w path pid call) : MovedNothing w path pid call := by
  cases call with
  | read len =>
    unfold Parks sysCall sysRead at parked
    dsimp only at parked
    split at parked
    · cases parked
    · split at parked
      · cases parked
      · rename_i nothing
        split at parked
        · cases parked
        · rename_i going
          exact ⟨nothing, by simpa using going⟩
      · cases parked
  | write bytes =>
    unfold Parks sysCall sysWrite at parked
    dsimp only at parked
    split at parked
    · cases parked
    · split at parked
      · cases parked
      · cases parked
      · assumption
      · cases parked

theorem sameDescriptor_refl (w : World n k f) : SameDescriptor path pid w w :=
  fun _ _ => ⟨rfl, fun _ _ => rfl⟩

theorem entries_eq {w' : World n k f} (same : SameDescriptor path pid w w') :
    fileEntry w'.table path pid = fileEntry w.table path pid ∧
      pipeEntry w'.table path pid = pipeEntry w.table path pid ∧
      pathOf w'.table path pid = pathOf w.table path pid := by
  unfold fileEntry pipeEntry pathOf
  cases found : place n k path pid with
  | none => simp
  | some spot =>
    obtain ⟨slot, _⟩ := same spot found
    simp [Option.filter, slot]

theorem agrees_of_never
    (never : ∀ w', SameDescriptor path pid w w' → ¬ Parks w' path pid call) :
    Agrees w path pid call := by
  refine ⟨parks_moved, ?_, ?_⟩
  · rintro ⟨w', same, parked⟩
    exact absurd parked (never w' same)
  · intro parked
    exact absurd parked (never w (sameDescriptor_refl w))

theorem agrees_iff {State : Type} {parks ready : State → Prop} {s : State}
    (here : (Parks w path pid call ↔ parks s) ∧ (Ready w path pid call ↔ ready s))
    (down : ∀ w', SameDescriptor path pid w w' → ∃ s,
      (Parks w' path pid call ↔ parks s) ∧ (Ready w' path pid call ↔ ready s))
    (up : ∀ s, ∃ w', SameDescriptor path pid w w' ∧
      (Parks w' path pid call ↔ parks s) ∧ (Ready w' path pid call ↔ ready s)) :
    Agrees w path pid call ↔ AgreeAt parks ready s := by
  have parked : (∃ w', SameDescriptor path pid w w' ∧ Parks w' path pid call) ↔
      ∃ other, parks other := by
    constructor
    · rintro ⟨w', same, parked⟩
      obtain ⟨other, parksIff, _⟩ := down w' same
      exact ⟨other, parksIff.mp parked⟩
    · rintro ⟨other, parked⟩
      obtain ⟨w', same, parksIff, _⟩ := up other
      exact ⟨w', same, parksIff.mpr parked⟩
  have woken : (∃ w', SameDescriptor path pid w w' ∧ Ready w' path pid call) ↔
      ∃ other, ready other := by
    constructor
    · rintro ⟨w', same, woken⟩
      obtain ⟨other, _, readyIff⟩ := down w' same
      exact ⟨other, readyIff.mp woken⟩
    · rintro ⟨other, woken⟩
      obtain ⟨w', same, _, readyIff⟩ := up other
      exact ⟨w', same, readyIff.mpr woken⟩
  unfold Agrees AgreeAt
  rw [parked, woken, here.1, here.2]
  constructor
  · rintro ⟨_, exact, wakes⟩
    exact ⟨exact, wakes⟩
  · rintro ⟨exact, wakes⟩
    exact ⟨fun parked => parks_moved (here.1.mpr parked), exact, wakes⟩

section Devices
variable {kind : Kind} {s : kind.State} (notKernel : pid ≠ 0)
  (noFile : fileEntry w.table path pid = none) (noPipe : pipeEntry w.table path pid = none)
  (found : deviceOf w path pid = some ⟨kind, s⟩)

include notKernel noFile noPipe found

theorem device_read (len : Nat) :
    (Parks w path pid (.read len) ↔ kind.driver.readParks len s) ∧
      (Ready w path pid (.read len) ↔ kind.driver.readReady s) := by
  constructor
  · unfold Parks sysCall sysRead ioRead ioAtEof Driver.readParks
    rw [noFile, noPipe, found]
    dsimp only
    cases reads : kind.driver.read with
    | none => simp
    | some read =>
      cases answer : (read s len).2 with
      | none => simp [answer]
      | some bytes =>
        cases bytes with
        | cons byte rest => simp [answer]
        | nil =>
          simp only [answer, Option.isSome_none, Bool.false_eq_true, if_false,
            Option.some.injEq, exists_eq_left', true_and, notKernel]
          cases ends : kind.driver.atEof with
          | none => simp
          | some atEof => cases ended : atEof s <;> simp [ended]
  · unfold Ready ioReadable ioReadableCount Driver.readReady
    rw [noPipe, found]
    dsimp only
    cases reports : kind.driver.readable with
    | none => simp
    | some readable => simp

theorem device_write (bytes : List Byte) :
    (Parks w path pid (.write bytes) ↔ kind.driver.writeParks bytes s) ∧
      (Ready w path pid (.write bytes) ↔ kind.driver.writeReady s) := by
  constructor
  · unfold Parks sysCall sysWrite ioWrite Driver.writeParks
    rw [noFile, noPipe, found]
    dsimp only
    cases writes : kind.driver.write with
    | none => simp
    | some write =>
      cases answer : (write s bytes).2 with
      | none => simp [answer]
      | some count =>
        cases count with
        | zero => cases bytes <;> simp [answer, notKernel]
        | succ count => simp [answer]
  · unfold Ready ioWritable Driver.writeReady
    rw [noPipe, found]
    dsimp only
    cases reports : kind.driver.writable with
    | none => simp
    | some writable => simp

end Devices

theorem deviceOf_any {kind : Kind} {s : kind.State} (found : deviceOf w path pid = some ⟨kind, s⟩)
    (other : kind.State) :
    ∃ w', SameDescriptor path pid w w' ∧ deviceOf w' path pid = some ⟨kind, other⟩ := by
  unfold deviceOf at found ⊢
  cases entry : pathOf w.table path pid with
  | none => simp [entry] at found
  | some spot =>
    cases device : (w.table.paths spot).device with
    | none => simp [entry, device] at found
    | some d =>
      have isKind : (w.devices d).kind = kind := by
        simp only [entry, device, Option.bind_some, Option.map_some, Option.some.injEq] at found
        rw [found]
      refine ⟨{ w with devices := update w.devices d ⟨kind, other⟩ }, ?_, ?_⟩
      · intro spot' _
        refine ⟨rfl, ?_⟩
        intro d' _
        by_cases same : d' = d
        · subst same
          simp [isKind]
        · simp [same]
      · simp [entry, device]

theorem deviceOf_same {kind : Kind} {s : kind.State} (found : deviceOf w path pid = some ⟨kind, s⟩)
    {w' : World n k f} (same : SameDescriptor path pid w w') :
    ∃ other, deviceOf w' path pid = some ⟨kind, other⟩ := by
  unfold deviceOf at found ⊢
  rw [(entries_eq same).2.2]
  cases entry : pathOf w.table path pid with
  | none => simp [entry] at found
  | some spot =>
    obtain ⟨slot, kinds⟩ := same spot (entry_some entry).1
    cases device : (w.table.paths spot).device with
    | none => simp [entry, device] at found
    | some d =>
      simp only [entry, device, Option.bind_some, Option.map_some, Option.some.injEq] at found
      have isKind : (w'.devices d).kind = kind := by rw [kinds d device, found]
      simp only [Option.bind_some, slot, device, Option.map_some, Option.some.injEq]
      cases present : w'.devices d with
      | mk kind' other =>
        rw [present] at isKind
        subst isKind
        exact ⟨other, rfl⟩

theorem device_agrees (notKernel : pid ≠ 0) (noFile : fileEntry w.table path pid = none)
    (noPipe : pipeEntry w.table path pid = none) {device : Device}
    (found : deviceOf w path pid = some device) :
    Agrees w path pid call ↔ DeviceFits device call := by
  obtain ⟨kind, s⟩ := device
  have entries : ∀ w', SameDescriptor path pid w w' →
      fileEntry w'.table path pid = none ∧ pipeEntry w'.table path pid = none := by
    intro w' same
    obtain ⟨file, pipe, _⟩ := entries_eq same
    exact ⟨file.trans noFile, pipe.trans noPipe⟩
  cases call with
  | read len =>
    refine Iff.trans (agrees_iff (device_read notKernel noFile noPipe found len) ?_ ?_)
      (read_agree_iff kind s len)
    · intro w' same
      obtain ⟨other, present⟩ := deviceOf_same found same
      exact ⟨other, device_read notKernel (entries w' same).1 (entries w' same).2 present len⟩
    · intro other
      obtain ⟨w', same, present⟩ := deviceOf_any found other
      exact ⟨w', same,
        device_read notKernel (entries w' same).1 (entries w' same).2 present len⟩
  | write bytes =>
    refine Iff.trans (agrees_iff (device_write notKernel noFile noPipe found bytes) ?_ ?_)
      (write_agree_iff kind s bytes)
    · intro w' same
      obtain ⟨other, present⟩ := deviceOf_same found same
      exact ⟨other, device_write notKernel (entries w' same).1 (entries w' same).2 present bytes⟩
    · intro other
      obtain ⟨w', same, present⟩ := deviceOf_any found other
      exact ⟨w', same,
        device_write notKernel (entries w' same).1 (entries w' same).2 present bytes⟩

def ringReadParks (len : Nat) (q : Pipe) : Prop :=
  (len = 0 ∨ pipeUsed q = 0) ∧ ¬ (pipeUsed q = 0 ∧ q.writers = 0)

def ringReadReady (q : Pipe) : Prop := pipeUsed q ≠ 0 ∨ q.writers = 0

def ringWriteParks (bytes : List Byte) (q : Pipe) : Prop :=
  bytes ≠ [] ∧ q.readers ≠ 0 ∧ ¬ pipeUsed q < pipeBuf - 1

def ringWriteReady (q : Pipe) : Prop := pipeUsed q < pipeBuf - 1 ∨ q.readers = 0

theorem drain_nothing (q : Pipe) (len : Nat) : (drain q len).2 = [] ↔ len = 0 ∨ pipeUsed q = 0 := by
  by_cases empty : pipeUsed q = 0
  · simp [drain_empty empty, empty]
  · cases len with
    | zero => simp [drain]
    | succ len => simp [drain_succ empty, empty]

theorem fill_nothing (q : Pipe) (bytes : List Byte) :
    (fill q bytes).2 = 0 ↔ bytes = [] ∨ ¬ pipeUsed q < pipeBuf - 1 := by
  cases bytes with
  | nil => simp [fill]
  | cons byte rest => by_cases room : pipeUsed q < pipeBuf - 1 <;> simp [fill, room]

theorem inn_unmarked {slot : Slot f} (plain : slot.back.isSome = true → slot.write = false) {q : Ring}
    (inn : slot.inn = some q) : slot.pipe = some q ∧ slot.write = false := by
  obtain ⟨device, file, pipe, back, write⟩ := slot
  cases pipe with
  | none => simp [Slot.inn] at inn
  | some a =>
    cases back with
    | none => cases write <;> simp_all [Slot.inn]
    | some b => exact ⟨by simpa [Slot.inn] using inn, plain rfl⟩

section Rings
variable {spot : Pid n × Fin k} {q : Ring} (notKernel : pid ≠ 0)
  (noFile : fileEntry w.table path pid = none) (entry : pipeEntry w.table path pid = some spot)

include notKernel noFile entry

theorem pipe_read (inn : (w.table.paths spot).inn = some q) (len : Nat) :
    (Parks w path pid (.read len) ↔ ringReadParks len (w.table.pipes q)) ∧
      (Ready w path pid (.read len) ↔ ringReadReady (w.table.pipes q)) := by
  obtain ⟨pipe, unmarked⟩ := inn_unmarked (w.plain spot) inn
  constructor
  · unfold Parks sysCall sysRead ioRead ioAtEof pipeRead pipeAtEof ringReadParks
    rw [noFile, entry]
    simp only [inn, pipe, unmarked, Option.isSome_none, Bool.false_eq_true, if_false, notKernel]
    rw [← drain_nothing]
    cases answer : (drain (w.table.pipes q) len).2 with
    | nil =>
      by_cases ended : pipeUsed (w.table.pipes q) = 0 ∧ (w.table.pipes q).writers = 0
      · simp [ended]
      · simp
    | cons byte rest => simp
  · unfold Ready ioReadable ioReadableCount ringReadReady
    rw [entry]
    simp only [inn]
    split <;> omega

theorem pipe_write (slotOut : (w.table.paths spot).out = some q) (bytes : List Byte) :
    (Parks w path pid (.write bytes) ↔ ringWriteParks bytes (w.table.pipes q)) ∧
      (Ready w path pid (.write bytes) ↔ ringWriteReady (w.table.pipes q)) := by
  constructor
  · unfold Parks sysCall sysWrite ioWrite pipeWrite ringWriteParks
    rw [noFile, entry]
    simp only [slotOut, Option.isSome_none, Bool.false_eq_true, if_false]
    by_cases deserted : (w.table.pipes q).readers = 0
    · simp [deserted]
    · have zero := fill_nothing (w.table.pipes q) bytes
      simp only [deserted, if_false]
      cases count : (fill (w.table.pipes q) bytes).2 with
      | zero =>
        cases bytes with
        | nil => simp
        | cons byte rest => simpa [notKernel, count, deserted] using zero
      | succ more =>
        simp only [count] at zero
        simp_all
  · unfold Ready ioWritable ringWriteReady
    rw [entry]
    simp only [slotOut]

end Rings

def World.setRing (w : World n k f) (q : Ring) (ring : Pipe) : World n k f :=
  ⟨setPipe w.table q ring, w.devices, plain_of_paths w.plain rfl⟩

theorem setRing_same (w : World n k f) (q : Ring) (ring : Pipe) :
    SameDescriptor path pid w (w.setRing q ring) :=
  fun _ _ => ⟨rfl, fun _ _ => rfl⟩

@[simp] theorem setRing_ring (w : World n k f) (q : Ring) (ring : Pipe) :
    (w.setRing q ring).table.pipes q = ring := by
  simp [World.setRing, setPipe]

theorem ring_read_agree (len : Nat) (q : Pipe) :
    AgreeAt (ringReadParks len) ringReadReady q ↔ 0 < len ∨ pipeUsed q = 0 := by
  rw [agree_iff_of_waits]
  · unfold ringReadParks ringReadReady
    rcases Nat.eq_zero_or_pos len with none | some
    · subst none
      by_cases empty : pipeUsed q = 0 <;> simp [empty]
    · have positive := Nat.pos_iff_ne_zero.mp some
      by_cases empty : pipeUsed q = 0 <;> simp [empty, some, positive]
  · exact ⟨⟨fun _ => 0, 0, 0, 1, 1, -1⟩, Or.inr (by simp [pipeUsed]), by simp⟩
  · exact ⟨⟨fun _ => 0, 0, 0, 1, 0, -1⟩, Or.inr rfl⟩

theorem ring_write_agree (bytes : List Byte) (q : Pipe) :
    AgreeAt (ringWriteParks bytes) ringWriteReady q := by
  cases bytes with
  | nil =>
    apply agree_of_never
    rintro q ⟨filled, _⟩
    exact filled rfl
  | cons byte rest =>
    apply agree_of_exact
    · intro q
      unfold ringWriteParks ringWriteReady
      by_cases room : pipeUsed q < pipeBuf - 1 <;> simp [room]
    · exact ⟨⟨fun _ => 0, 0, 0, 0, 1, -1⟩, Or.inr rfl⟩

theorem pipe_agrees (notKernel : pid ≠ 0) (noFile : fileEntry w.table path pid = none)
    {spot : Pid n × Fin k} (entry : pipeEntry w.table path pid = some spot) :
    Agrees w path pid call ↔ PipeFits w.table spot call := by
  have behind : ∀ w', SameDescriptor path pid w w' → fileEntry w'.table path pid = none ∧
      pipeEntry w'.table path pid = some spot ∧ w'.table.paths spot = w.table.paths spot := by
    intro w' same
    obtain ⟨file, pipe, _⟩ := entries_eq same
    exact ⟨file.trans noFile, pipe.trans entry, (same spot (entry_some entry).1).1⟩
  cases call with
  | read len =>
    cases inn : (w.table.paths spot).inn with
    | none =>
      -- the writing end of a one-way pipe: the read is refused
      apply iff_of_true _ (by simp [PipeFits, inn])
      apply agrees_of_never
      intro w' same parked
      obtain ⟨file, pipe, slot⟩ := behind w' same
      simp [Parks, sysCall, sysRead, ioRead, pipeRead, file, pipe, slot, inn] at parked
    | some q =>
      have fits : PipeFits w.table spot (.read len) ↔
          (0 < len ∨ pipeUsed (w.table.pipes q) = 0) := by
        simp [PipeFits, inn]
      rw [fits, ← ring_read_agree]
      apply agrees_iff (pipe_read notKernel noFile entry inn len)
      · intro w' same
        obtain ⟨file, pipe, slot⟩ := behind w' same
        exact ⟨_, pipe_read notKernel file pipe (by rw [slot]; exact inn) len⟩
      · intro ring
        have same : SameDescriptor path pid w (w.setRing q ring) := setRing_same w q ring
        obtain ⟨file, pipe, slot⟩ := behind _ same
        refine ⟨_, same, ?_⟩
        have here := pipe_read notKernel file pipe (by rw [slot]; exact inn) len
        rwa [setRing_ring] at here
  | write bytes =>
    apply iff_of_true _ trivial
    cases out : (w.table.paths spot).out with
    | none =>
      apply agrees_of_never
      intro w' same parked
      obtain ⟨file, pipe, slot⟩ := behind w' same
      simp [Parks, sysCall, sysWrite, ioWrite, pipeWrite, file, pipe, slot, out] at parked
    | some q =>
      refine (agrees_iff (pipe_write notKernel noFile entry out bytes) ?_ ?_).mpr
        (ring_write_agree bytes _)
      · intro w' same
        obtain ⟨file, pipe, slot⟩ := behind w' same
        exact ⟨_, pipe_write notKernel file pipe (by rw [slot]; exact out) bytes⟩
      · intro ring
        have same : SameDescriptor path pid w (w.setRing q ring) := setRing_same w q ring
        obtain ⟨file, pipe, slot⟩ := behind _ same
        refine ⟨_, same, ?_⟩
        have here := pipe_write notKernel file pipe (by rw [slot]; exact out) bytes
        rwa [setRing_ring] at here

/-- Blocking and waking agree exactly on the calls that fit. -/
theorem agrees_iff_fits (w : World n k f) (path pid : Int) (call : Call) :
    Agrees w path pid call ↔ Fits w path pid call := by
  unfold Fits
  by_cases kernel : pid = 0
  · apply iff_of_true _ (Or.inl kernel)
    apply agrees_of_never
    intro w' _ parked
    subst kernel
    cases call with
    | read len =>
      unfold Parks sysCall sysRead at parked
      dsimp only at parked
      split at parked
      · cases parked
      · split at parked
        · cases parked
        · split at parked <;> cases parked
        · cases parked
    | write bytes =>
      unfold Parks sysCall sysWrite at parked
      dsimp only at parked
      split at parked
      · cases parked
      · split at parked <;> simp at parked
  · cases file : fileEntry w.table path pid with
    | some spot =>
      apply iff_of_true _ (Or.inr (Or.inl rfl))
      apply agrees_of_never
      intro w' same parked
      have still : fileEntry w'.table path pid = some spot := (entries_eq same).1.trans file
      cases call <;> simp [Parks, sysCall, sysRead, sysWrite, still] at parked
    | none =>
      simp only [kernel, Option.isSome_none, Bool.false_eq_true, false_or]
      cases entry : pipeEntry w.table path pid with
      | some spot => exact pipe_agrees kernel file entry
      | none =>
        cases found : deviceOf w path pid with
        | some device => exact device_agrees kernel file entry found
        | none =>
          -- a number that names nothing is refused
          apply iff_of_true _ trivial
          apply agrees_of_never
          intro w' same parked
          obtain ⟨file', pipe', path'⟩ := entries_eq same
          have nothing : deviceOf w' path pid = none := by
            unfold deviceOf at found ⊢
            rw [path']
            cases at' : pathOf w.table path pid with
            | none => rfl
            | some spot =>
              obtain ⟨slot, _⟩ := same spot (entry_some at').1
              rw [at'] at found
              simpa [slot] using found
          cases call <;>
            simp [Parks, sysCall, sysRead, sysWrite, ioRead, ioWrite, file', pipe', file, entry,
              nothing] at parked

end Calls

/-- Descriptor 0 of process 1 is the console on the cable, and a terminal is open there
with one byte of room left. -/
def oneByteLeft : World 2 4 1 :=
  .ofRun 2 4 1 [.addDescriptor "usb" true, .openDevice "usb" true 1]
    (fun _ => ⟨.usbcdc, (⟨true, true, [], [], 1, 0, fun _ => rfl⟩ : Usb)⟩)

def terminalClosed : World 2 4 1 :=
  .ofRun 2 4 1 [.addDescriptor "usb" true, .openDevice "usb" true 1]
    (fun _ => ⟨.usbcdc, (⟨true, false, [], [], 0, 0, by simp⟩ : Usb)⟩)

/-- A line feed is woken for the one byte and parked again, for it goes out as two; and
a caller parked before the terminal was closed is not woken, though a write would now
be taken. -/
theorem usb_console_disagrees :
    (Ready oneByteLeft 0 1 (.write [lineFeed]) ∧ Parks oneByteLeft 0 1 (.write [lineFeed])) ∧
      (¬ Ready terminalClosed 0 1 (.write [lineFeed]) ∧
        ¬ Parks terminalClosed 0 1 (.write [lineFeed])) ∧
      ¬ Agrees oneByteLeft 0 1 (.write [lineFeed]) := by
  have parked : Parks oneByteLeft 0 1 (.write [lineFeed]) := by
    unfold Parks
    decide
  have woken : Ready oneByteLeft 0 1 (.write [lineFeed]) := by
    have one : ubiqosUsbWritable ⟨true, true, [], [], 1, 0, fun _ => rfl⟩ = 1 := rfl
    exact Nat.lt_of_lt_of_eq Nat.one_pos one.symm
  refine ⟨⟨woken, parked⟩, ⟨?_, ?_⟩, ?_⟩
  · intro ready
    exact absurd (show 0 < 0 from ready) (Nat.lt_irrefl 0)
  · unfold Parks
    decide
  · intro agrees
    exact (agrees.2.1 ⟨_, sameDescriptor_refl _, parked⟩).mp woken parked

end Ubiqos.Io
