import Ubiqos.Io.Accounts
import Ubiqos.Io.Drivers

/-!
Waiting on a descriptor. `SYS_READ` and `SYS_WRITE` park a caller whose call moved
nothing, and the timer tick wakes it when `ubiqos_io_readable` or
`ubiqos_io_writable` says so. The two decide the same question in different
words: here is where they agree, for every driver and every kind of pipe end.
-/

namespace Ubiqos.Io

open Function Machine

section Driver
variable {State : Type} (driver : Driver State)

def Driver.readParks (len : Nat) (s : State) : Prop :=
  (∃ read, driver.read = some read ∧ (read s len).2 = some []) ∧
    ∀ atEof, driver.atEof = some atEof → atEof s = false

def Driver.readReady (s : State) : Prop := ∃ readable, driver.readable = some readable ∧ 0 < readable s

def Driver.writeParks (bytes : List Byte) (s : State) : Prop :=
  bytes ≠ [] ∧ ∃ write, driver.write = some write ∧ (write s bytes).2 = some 0

/-- A driver without `writable` cannot fill up. -/
def Driver.writeReady (s : State) : Prop := ∀ writable, driver.writable = some writable → 0 < writable s

end Driver

/-- Waking and parking agree in a state: a caller that can be parked is woken where it
would not be parked again, and one that is parked can be woken. -/
def AgreeAt {State : Type} (parks ready : State → Prop) (s : State) : Prop :=
  ((∃ other, parks other) → (ready s ↔ ¬ parks s)) ∧ (parks s → ∃ other, ready other)

section Agree
variable {State : Type} {parks ready : State → Prop} {s : State}

theorem agree_of_exact (exact : ∀ s, ready s ↔ ¬ parks s) (wakes : ∃ other, ready other) :
    AgreeAt parks ready s :=
  ⟨fun _ => exact s, fun _ => wakes⟩

theorem agree_of_never (never : ∀ s, ¬ parks s) : AgreeAt parks ready s := by
  constructor
  · rintro ⟨other, parked⟩
    exact absurd parked (never other)
  · intro parked
    exact absurd parked (never s)

theorem agree_iff_of_always (always : ∀ s, parks s) (wakes : ∃ other, ready other) :
    AgreeAt parks ready s ↔ ¬ ready s := by
  constructor
  · intro agree woken
    exact (agree.1 ⟨s, always s⟩).mp woken (always s)
  · intro asleep
    exact ⟨fun _ => ⟨fun woken => absurd woken asleep, fun free => absurd (always s) free⟩,
      fun _ => wakes⟩

theorem agree_iff_of_waits (waits : ∃ other, parks other) (wakes : ∃ other, ready other) :
    AgreeAt parks ready s ↔ (ready s ↔ ¬ parks s) :=
  ⟨fun agree => agree.1 waits, fun exact => ⟨fun _ => exact, fun _ => wakes⟩⟩

end Agree

def Kind.unit : Kind → Nat
  | .gpio => eventSize
  | .adc => 2
  | _ => 1

def Kind.quiet (kind : Kind) (s : kind.State) : Prop := ¬ kind.driver.readReady s

def ReadFits (kind : Kind) (s : kind.State) (len : Nat) : Prop :=
  match kind with
  | .uart => False
  | .null | .audio => True
  | kind => kind.unit ≤ len ∨ kind.quiet s

section Reads
variable {State : Type} {driver : Driver State} {unit : Nat} {s : State}

theorem read_agree (len : Nat)
    (exact : unit ≤ len → ∀ s, driver.readReady s ↔ ¬ driver.readParks len s)
    (short : len < unit → ∀ s, driver.readParks len s) (wakes : ∃ other, driver.readReady other) :
    AgreeAt (driver.readParks len) driver.readReady s ↔ (unit ≤ len ∨ ¬ driver.readReady s) := by
  rcases Nat.lt_or_ge len unit with less | enough
  · rw [agree_iff_of_always (short less) wakes]
    constructor
    · exact Or.inr
    · rintro (enough | quiet)
      · omega
      · exact quiet
  · constructor
    · intro _
      exact Or.inl enough
    · intro _
      exact agree_of_exact (exact enough) wakes

theorem queue_agree (held : State → List Byte) {read : State → Nat → State × Option (List Byte)}
    {readable : State → Nat} (reads : driver.read = some read)
    (reports : driver.readable = some readable) (endless : driver.atEof = none)
    (hands : ∀ s len, (read s len).2 = some ((held s).take len))
    (tells : ∀ s, readable s = 0 ↔ held s = []) (wakes : ∃ other, held other ≠ []) (len : Nat) :
    AgreeAt (driver.readParks len) driver.readReady s ↔ (1 ≤ len ∨ ¬ driver.readReady s) := by
  have parks : ∀ s, driver.readParks len s ↔ len = 0 ∨ held s = [] := by
    intro s
    simp [Driver.readParks, reads, endless, hands, List.take_eq_nil_iff]
  have ready : ∀ s, driver.readReady s ↔ held s ≠ [] := by
    intro s
    rw [Ne, ← tells]
    simp [Driver.readReady, reports, Nat.pos_iff_ne_zero]
  apply read_agree
  · intro enough s
    rw [parks, ready]
    simp [Nat.pos_iff_ne_zero.mp enough]
  · intro less s
    rw [parks]
    exact Or.inl (by omega)
  · obtain ⟨other, full⟩ := wakes
    exact ⟨other, (ready other).mpr full⟩

theorem records_agree {Record : Type} {driver : Driver (List Record)} {s : List Record}
    (bytes : Record → List Byte) {read : List Record → Nat → List Record × Option (List Byte)}
    {readable : List Record → Nat} (reads : driver.read = some read)
    (reports : driver.readable = some readable) (endless : driver.atEof = none)
    (hands : ∀ s len, (read s len).2 = some ((s.take (len / unit)).flatMap bytes))
    (filled : ∀ record, bytes record ≠ []) (tells : ∀ s, readable s = 0 ↔ s = [])
    (positive : 0 < unit) (one : Record) (len : Nat) :
    AgreeAt (driver.readParks len) driver.readReady s ↔ (unit ≤ len ∨ ¬ driver.readReady s) := by
  have empty : ∀ records : List Record, records.flatMap bytes = [] ↔ records = [] := by
    intro records
    cases records with
    | nil => simp
    | cons first rest => simp [filled first]
  have parks : ∀ s, driver.readParks len s ↔ len / unit = 0 ∨ s = [] := by
    intro s
    simp only [Driver.readParks, reads, endless, Option.some.injEq, exists_eq_left', hands, empty,
      List.take_eq_nil_iff]
    simp
  have ready : ∀ s, driver.readReady s ↔ s ≠ [] := by
    intro s
    rw [Ne, ← tells]
    simp [Driver.readReady, reports, Nat.pos_iff_ne_zero]
  apply read_agree
  · intro enough s
    have several : len / unit ≠ 0 := Nat.pos_iff_ne_zero.mp (Nat.div_pos enough positive)
    rw [parks, ready]
    simp [several]
  · intro less s
    rw [parks]
    exact Or.inl (Nat.div_eq_of_lt less)
  · exact ⟨[one], (ready _).mpr (by simp)⟩

end Reads

def Link.next (s : Link) : List Byte := s.inbox.headD []

theorem ehRead_hands (s : Link) (len : Nat) : (ehRead s len).2 = some (s.next.take len) := by
  unfold ehRead Link.next
  split
  · rename_i found
    simp [found]
  · rename_i found
    simp [found]

theorem link_next_nil (s : Link) : s.next = [] ↔ s.inbox = [] := by
  unfold Link.next
  cases found : s.inbox with
  | nil => simp
  | cons frame rest =>
    have filled := s.filled frame (by rw [found]; exact List.mem_cons_self)
    simpa using filled

theorem read_agree_iff (kind : Kind) (s : kind.State) (len : Nat) :
    AgreeAt (kind.driver.readParks len) kind.driver.readReady s ↔ ReadFits kind s len := by
  -- Most drivers hand over the front of one queue: `read` and `ready` must look at the same one.
  cases kind with
  | usbcdc =>
    apply queue_agree (fun s : Usb => if s.mounted then s.incoming else []) rfl rfl rfl
    · intro s len
      cases mounted : s.mounted with
      | false => simp [ubiqosUsbRead, mounted]
      | true =>
        by_cases empty : s.incoming = [] <;> simp [ubiqosUsbRead, mounted, empty]
    · intro s
      have attached := s.attached
      cases mounted : s.mounted with
      | false =>
        have apart : s.connected = false := by simpa [mounted] using attached
        simp [ubiqosUsbAvailable, mounted, apart]
      | true => simp [ubiqosUsbAvailable, mounted]
    · exact ⟨⟨true, true, [0], [], 0, 0, fun _ => rfl⟩, by simp⟩
  | usbkbd =>
    apply queue_agree (fun s : List Byte => s) rfl rfl rfl
    · intro s len
      rfl
    · intro s
      exact List.length_eq_zero_iff
    · exact ⟨[0], by simp⟩
  | console =>
    apply queue_agree Screen.keys rfl rfl rfl
    · intro s len
      rfl
    · intro s
      exact List.length_eq_zero_iff
    · exact ⟨⟨[], [0], by decide⟩, by simp⟩
  | acm =>
    apply queue_agree (fun s : Acm => if s.mounted then s.incoming else []) rfl rfl rfl
    · intro s len
      cases mounted : s.mounted <;> simp [acmRead, mounted]
    · intro s
      cases mounted : s.mounted <;> simp
    · exact ⟨⟨true, [0], [], 0⟩, by simp⟩
  | null =>
    apply iff_of_true _ trivial
    apply agree_of_never
    rintro s ⟨_, notEnd⟩
    have ended := notEnd _ rfl
    cases ended
  | uart =>
    apply iff_of_false _ id
    rintro ⟨_, wakes⟩
    have parked : driverUart.readParks len s := ⟨⟨_, rfl, rfl⟩, by simp [driverUart]⟩
    obtain ⟨other, readable, present, _⟩ := wakes parked
    cases present
  | i2cbus | stm32I2c =>
    apply queue_agree I2c.rx rfl rfl rfl
    · intro s len
      rfl
    · intro s
      exact List.length_eq_zero_iff
    · exact ⟨⟨[0], fun _ => none⟩, by simp⟩
  | gt911 =>
    apply queue_agree Touch.report rfl rfl rfl
    · intro s len
      rfl
    · intro s
      exact List.length_eq_zero_iff
    · exact ⟨⟨List.replicate touchSize 0, List.length_replicate⟩, by decide⟩
  | gpio =>
    apply records_agree Event.bytes rfl rfl rfl
    · intro events len
      rfl
    · simp [Event.bytes]
    · intro events
      simp [eventSize]
    · decide
    · exact ⟨0, 0, 0⟩
  | adc =>
    apply records_agree (fun value : BitVec 16 => [value.setWidth 8, (value >>> 8).setWidth 8])
      rfl rfl rfl
    · intro latest len
      rfl
    · simp
    · intro latest
      simp
    · decide
    · exact 0
  | neopixel =>
    apply queue_agree Strip.pixels rfl rfl rfl
    · intro s len
      rfl
    · intro s
      rw [← List.length_eq_zero_iff, s.whole]
    · exact ⟨⟨List.replicate stripSize 0, List.length_replicate⟩, by decide⟩
  | esplink =>
    apply queue_agree Wire.rx rfl rfl rfl
    · intro s len
      rfl
    · intro s
      simp
    · exact ⟨⟨[0], []⟩, by simp⟩
  | ehspi =>
    apply queue_agree Link.next rfl rfl rfl
    · exact ehRead_hands
    · intro s
      rw [link_next_nil]
      simp
    · exact ⟨⟨true, false, [], [[0]], by simp⟩, by simp [Link.next]⟩
  | audio =>
    apply iff_of_true _ trivial
    apply agree_of_never
    rintro s ⟨⟨read, present, _⟩, _⟩
    cases present
  | term bits =>
    apply queue_agree Term.rx rfl rfl rfl
    · intro s len
      rfl
    · intro s
      exact List.length_eq_zero_iff
    · exact ⟨⟨[0], [], Nat.zero_le _⟩, by simp⟩

def termFits {size : Nat} (s : Term size) (first : Byte) (rest : List Byte) : Prop :=
  if ((first :: rest).map termNeed).sum ≤ size then ((first :: rest).map termNeed).sum ≤ termRoom s
  else termNeed first ≤ termRoom s

def WriteFits (kind : Kind) (s : kind.State) : List Byte → Prop
  | [] => True
  | first :: rest =>
    match kind, s with
    | .usbcdc, (s : Usb) =>
      s.mounted = true ∧ (s.connected = true → ¬ (s.room = 1 ∧ lone s.lastOut first = true)) ∧
        (s.connected = false → 0 < s.room)
    | .audio, (s : Sound) => 4 ≤ (first :: rest).length ∨ ringFree s = 0
    | .term _, s => 2 ≤ termRoom s ↔ termFits s first rest
    | _, _ => True

section Writes
variable {State : Type} {driver : Driver State} {s : State}

variable {write : State → List Byte → State × Option Nat}

theorem write_never (bytes : List Byte)
    (writes : driver.write = some write) (moves : ∀ s, (write s bytes).2 = some 0 → bytes = []) :
    AgreeAt (driver.writeParks bytes) driver.writeReady s := by
  apply agree_of_never
  rintro s ⟨filled, write', same, nothing⟩
  rw [writes] at same
  cases same
  exact filled (moves s nothing)

theorem room_agree {writable : State → Nat}
    (writes : driver.write = some write) (reports : driver.writable = some writable)
    {bytes : List Byte} (filled : bytes ≠ [])
    (takes : ∀ s, (write s bytes).2 = some 0 ↔ writable s = 0) (wakes : ∃ other, 0 < writable other) :
    AgreeAt (driver.writeParks bytes) driver.writeReady s := by
  have parks : ∀ s, driver.writeParks bytes s ↔ writable s = 0 := by
    intro s
    simp [Driver.writeParks, filled, writes, takes]
  have ready : ∀ s, driver.writeReady s ↔ 0 < writable s := by
    intro s
    simp [Driver.writeReady, reports]
  apply agree_of_exact
  · intro s
    rw [parks, ready]
    exact Nat.pos_iff_ne_zero
  · obtain ⟨other, room⟩ := wakes
    exact ⟨other, (ready other).mpr room⟩

end Writes

theorem usbWrite_parks (s : Usb) (first : Byte) (rest : List Byte) :
    driverUsb.writeParks (first :: rest) s ↔
      s.mounted = true ∧ s.connected = true ∧ s.room < usbNeed s.lastOut first := by
  have zero : (usbPut s (first :: rest)).2 = 0 ↔ s.room < usbNeed s.lastOut first := by
    unfold usbPut
    split <;> simp_all
  cases mounted : s.mounted with
  | false => simp [Driver.writeParks, driverUsb, ubiqosUsbWrite, mounted]
  | true =>
    cases connected : s.connected with
    | false =>
      -- nobody listens, so the answer is that all of it went
      have moved : (ubiqosUsbWrite s (first :: rest)).2 ≠ some 0 := by
        unfold ubiqosUsbWrite
        by_cases cut : (usbPut s (first :: rest)).2 < rest.length + 1
        · simp [mounted, connected, cut]
        · simp [mounted, cut]
          omega
      cases answer : (ubiqosUsbWrite s (first :: rest)).2 with
      | none => simp [Driver.writeParks, driverUsb, answer]
      | some n =>
        have positive : n ≠ 0 := by
          rintro rfl
          exact moved answer
        simp [Driver.writeParks, driverUsb, answer, positive]
    | true => simp [Driver.writeParks, driverUsb, ubiqosUsbWrite, mounted, connected, zero]

theorem usbWrite_ready (s : Usb) : driverUsb.writeReady s ↔ s.mounted = true ∧ 0 < s.room := by
  cases mounted : s.mounted <;> simp [Driver.writeReady, driverUsb, ubiqosUsbWritable, mounted]

theorem usbWrite_agree (s : Usb) (first : Byte) (rest : List Byte) :
    AgreeAt (driverUsb.writeParks (first :: rest)) driverUsb.writeReady s ↔
      WriteFits .usbcdc s (first :: rest) := by
  have positive : ∀ lastOut, 0 < usbNeed lastOut first := by
    intro lastOut
    unfold usbNeed
    split <;> decide
  rw [agree_iff_of_waits]
  · rw [usbWrite_parks, usbWrite_ready]
    simp only [WriteFits]
    cases mounted : s.mounted with
    | false => simp
    | true =>
      cases connected : s.connected with
      | false => simp
      | true =>
        cases single : lone s.lastOut first with
        | false =>
          simp [usbNeed, single, Nat.pos_iff_ne_zero]
        | true =>
          simp [usbNeed, single]
          omega
  · exact ⟨⟨true, true, [], [], 0, 0, fun _ => rfl⟩,
      (usbWrite_parks _ _ _).mpr ⟨rfl, rfl, positive 0⟩⟩
  · exact ⟨⟨true, true, [], [], 1, 0, fun _ => rfl⟩, (usbWrite_ready _).mpr ⟨rfl, by decide⟩⟩

theorem audioWrite_agree (s : Sound) (first : Byte) (rest : List Byte) :
    AgreeAt (driverAudio.writeParks (first :: rest)) driverAudio.writeReady s ↔
      WriteFits .audio s (first :: rest) := by
  have parks : ∀ s, driverAudio.writeParks (first :: rest) s ↔
      (first :: rest).length / 4 = 0 ∨ ringFree s = 0 := by
    intro s
    simp only [Driver.writeParks, driverAudio, audioWrite, Option.some.injEq, exists_eq_left', ne_eq,
      reduceCtorEq, not_false_eq_true, true_and]
    omega
  have ready : ∀ s, driverAudio.writeReady s ↔ ringFree s ≠ 0 := by
    intro s
    simp [Driver.writeReady, driverAudio, Nat.pos_iff_ne_zero]
  rw [agree_iff_of_waits]
  · rw [parks, ready]
    simp only [WriteFits]
    omega
  · exact ⟨⟨fun _ => 0, 0, 1, by decide⟩, (parks _).mpr (Or.inr (by decide))⟩
  · exact ⟨⟨fun _ => 0, 0, 0, by decide⟩, (ready _).mpr (by decide)⟩

theorem termWrite_parks {size : Nat} (s : Term size) (first : Byte) (rest : List Byte) :
    (driverTerm size).writeParks (first :: rest) s ↔ ¬ termFits s first rest := by
  have zero : (termPut s (first :: rest)).2 = 0 ↔ termRoom s < termNeed first := by
    unfold termPut
    split <;> simp_all
  have part : termNeed first ≤ ((first :: rest).map termNeed).sum := by simp
  simp only [Driver.writeParks, driverTerm, termWrite, Option.some.injEq, exists_eq_left', ne_eq,
    reduceCtorEq, not_false_eq_true, true_and, termFits]
  by_cases whole : ((first :: rest).map termNeed).sum ≤ size
  · by_cases room : termRoom s < ((first :: rest).map termNeed).sum
    · rw [if_pos ⟨whole, room⟩, if_pos whole]
      exact iff_of_true rfl (Nat.not_le.mpr room)
    · rw [if_neg (fun both => room both.2), if_pos whole]
      simp only [Option.some.injEq, zero]
      omega
  · rw [if_neg (fun both => whole both.1), if_neg whole]
    simp only [Option.some.injEq, zero]
    omega

theorem termWrite_agree (bits : Nat) (s : Term (txSize bits)) (first : Byte) (rest : List Byte) :
    AgreeAt ((driverTerm (txSize bits)).writeParks (first :: rest))
      (driverTerm (txSize bits)).writeReady s ↔ WriteFits (.term bits) s (first :: rest) := by
  have ready : ∀ s : Term (txSize bits),
      (driverTerm (txSize bits)).writeReady s ↔ 2 ≤ termRoom s := by
    intro s
    simp only [Driver.writeReady, driverTerm, Option.some.injEq, forall_eq']
    omega
  have size : 2 ≤ txSize bits := by
    unfold txSize
    rw [Nat.pow_succ]
    have positive := Nat.two_pow_pos bits
    omega
  rw [agree_iff_of_waits]
  · rw [termWrite_parks, ready, not_not]
    rfl
  · -- a ring that is full
    refine ⟨⟨[], List.replicate (txSize bits) 0, by simp⟩, (termWrite_parks _ _ _).mpr ?_⟩
    have none : termRoom (⟨[], List.replicate (txSize bits) 0, by simp⟩ : Term (txSize bits)) = 0 := by
      simp [termRoom]
    have positive : 0 < termNeed first := by
      unfold termNeed
      split <;> decide
    have part : termNeed first ≤ ((first :: rest).map termNeed).sum := by simp
    unfold termFits
    rw [none]
    split <;> omega
  · exact ⟨⟨[], [], Nat.zero_le _⟩, (ready _).mpr (by simpa [termRoom] using size)⟩

theorem write_agree_iff (kind : Kind) (s : kind.State) (bytes : List Byte) :
    AgreeAt (kind.driver.writeParks bytes) kind.driver.writeReady s ↔ WriteFits kind s bytes := by
  cases bytes with
  | nil =>
    apply iff_of_true _ trivial
    apply agree_of_never
    rintro other ⟨filled, _⟩
    exact filled rfl
  | cons first rest =>
    cases kind with
    | usbcdc => exact usbWrite_agree s first rest
    | audio => exact audioWrite_agree s first rest
    | term bits => exact termWrite_agree bits s first rest
    | console =>
      apply iff_of_true _ trivial
      apply room_agree rfl rfl (by simp)
      · intro s
        simp [consolePut]
      · exact ⟨⟨[], [], by decide⟩, by decide⟩
    | acm =>
      apply iff_of_true _ trivial
      apply room_agree rfl rfl (by simp)
      · intro s
        cases mounted : s.mounted <;> simp [acmWrite, mounted]
      · exact ⟨⟨false, [], [], 0⟩, by decide⟩
    | gt911 | gpio | adc =>
      -- no `write` at all: the call goes through an empty pointer and is not parked
      apply iff_of_true _ trivial
      apply agree_of_never
      rintro other ⟨_, write, present, _⟩
      cases present
    | usbkbd | null | uart | neopixel | esplink =>
      apply iff_of_true _ trivial
      apply write_never _ rfl
      intro s nothing
      cases nothing
    | i2cbus | stm32I2c =>
      apply iff_of_true _ trivial
      apply write_never _ rfl
      intro s nothing
      unfold i2cDoWrite at nothing
      split at nothing
      · split at nothing
        · cases nothing
        · split at nothing <;> cases nothing
      · cases nothing
    | ehspi =>
      apply iff_of_true _ trivial
      apply write_never _ rfl
      intro s nothing
      unfold ehWrite at nothing
      split at nothing
      · cases nothing
      · split at nothing <;> cases nothing

section Plain
variable {n k f : Nat}

/-- A two-way end is not marked as the writing end of a one-way pipe, which is what
lets `ubiqos_io_at_eof` look at the mark alone. -/
def Plain (t : Table n k f) : Prop :=
  ∀ spot, (t.paths spot).back.isSome = true → (t.paths spot).write = false

theorem plain_of_paths {t t' : Table n k f} (plain : Plain t) (same : t'.paths = t.paths) :
    Plain t' := by
  intro spot
  rw [same]
  exact plain spot

variable {t : Table n k f}

theorem plain_setSlot (plain : Plain t) {spot : Pid n × Fin k} {slot : Slot f}
    (single : slot.back.isSome = true → slot.write = false) : Plain (setSlot t spot slot) := by
  intro other
  by_cases here : other = spot
  · subst here
    simpa [setSlot] using single
  · simpa [setSlot, here] using plain other

theorem copySlot_plain (plain : Plain t) (source target : Pid n × Fin k) :
    Plain (copySlot t source target) :=
  plain_of_paths (plain_setSlot plain (plain source)) (addHolder_paths _ _)

theorem fileRelease_plain (plain : Plain t) (spot : Pid n × Fin k) :
    Plain (fileRelease t spot) := by
  unfold fileRelease
  split
  · exact plain
  · exact plain_setSlot (plain_of_paths plain rfl) (plain spot)

theorem pipeRelease_plain (plain : Plain t) (spot : Pid n × Fin k) :
    Plain (pipeRelease t spot) := by
  unfold pipeRelease
  split
  · exact plain
  · exact plain_setSlot (plain_of_paths plain (dropEnd_frame _ _).1) (by simp)

theorem close_plain (plain : Plain t) (path owner : Int) :
    Plain (close t path owner).1 := by
  unfold close
  split
  · exact fileRelease_plain plain _
  · split
    · exact pipeRelease_plain plain _
    · split
      · exact plain_setSlot plain (plain _)
      · exact plain

theorem dup_plain (plain : Plain t) (path newPath owner : Int) :
    Plain (dup t path newPath owner).1 := by
  unfold dup
  split
  · exact plain
  · split
    · exact plain
    · split
      · exact plain
      · split
        · split
          · exact plain
          · exact copySlot_plain plain _ _
        · split
          · exact plain
          · exact copySlot_plain (close_plain plain newPath owner) _ _

theorem step_plain (plain : Plain t) (op : Op) : Plain (step t op) := by
  -- `Plain` is about the paths alone: each call rewrites slots with plain ones or none at all.
  cases op with
  | addDescriptor name configured =>
    apply plain_of_paths plain
    unfold step addDescriptor
    dsimp only
    split
    · rfl
    · split <;> rfl
  | openDevice name opens owner =>
    unfold step openDevice
    dsimp only
    split
    · split
      · exact plain
      · split
        · exact plain_setSlot plain (by simp)
        · exact plain
    · exact plain
  | openAs name opens owner path =>
    unfold step openAs
    dsimp only
    split
    · split
      · exact plain_setSlot plain (plain _)
      · exact plain
    · exact plain
  | openFile path owner =>
    unfold step openFile
    dsimp only
    split
    · exact plain
    · split
      · exact plain_setSlot (plain_of_paths plain rfl) (plain _)
      · exact plain
  | pipe owner =>
    unfold step pipe
    dsimp only
    split
    · exact plain
    · split
      · exact plain_setSlot (plain_setSlot (plain_of_paths plain rfl) (by simp)) (by simp)
      · exact plain
  | pipepair owner =>
    unfold step pipepair
    dsimp only
    split
    · exact plain
    · split
      · exact plain_setSlot (plain_setSlot (plain_of_paths plain rfl) (by simp)) (by simp)
      · exact plain
  | dup path newPath owner => exact dup_plain plain path newPath owner
  | close path owner => exact close_plain plain path owner
  | inherit parent child =>
    unfold step inherit
    dsimp only
    split
    · exact foldl_invariant Plain plain (fun _ _ _ plain => copySlot_plain plain _ _)
    · exact plain
  | closeAll owner =>
    unfold step closeAll
    dsimp only
    split
    · exact plain
    · rename_i pid _
      apply foldl_invariant Plain plain
      intro t p _ plain
      have released := pipeRelease_plain (fileRelease_plain plain (pid, p)) (pid, p)
      exact plain_setSlot released (released _)
  | write path owner bytes =>
    apply plain_of_paths plain
    unfold step pipeWrite
    dsimp only
    split
    · split
      · rfl
      · split <;> rfl
    · rfl
  | read path owner len =>
    apply plain_of_paths plain
    unfold step pipeRead
    dsimp only
    split
    · split <;> rfl
    · rfl

theorem run_plain (n k f : Nat) (ops : List Op) : Plain (run n k f ops) := by
  apply foldl_invariant Plain
  · intro spot marked
    cases marked
  · intro t op _ plain
    exact step_plain plain op

end Plain

end Ubiqos.Io
