import Ubiqos.Io.Paths

/-!
The drivers of the repository, as far as a read or a write goes: what each entry
of a driver's table answers and what it does to the device. An entry a driver
leaves out is `none`. A ring of the source is the list of what it holds; the
bytes and room of the two USB stacks are what their FIFO calls report.

A `read` or `write` answers `none` for the C's `-1`. Every device here is one
that could be opened, so what its driver sets when it is configured is set.
-/

namespace Ubiqos.Io

def lineFeed : Byte := 0x0a
def carriageReturn : Byte := 0x0d

/-- `ubiqos_driver_t`. -/
structure Driver (State : Type) where
  write : Option (State → List Byte → State × Option Nat)
  read : Option (State → Nat → State × Option (List Byte))
  readable : Option (State → Nat)
  writable : Option (State → Nat)
  atEof : Option (State → Bool)

structure Usb where
  mounted : Bool
  connected : Bool
  incoming : List Byte
  outgoing : List Byte
  room : Nat
  lastOut : Byte
  attached : connected = true → mounted = true

def lone (lastOut byte : Byte) : Bool := byte = lineFeed && lastOut != carriageReturn

def usbNeed (lastOut byte : Byte) : Nat := if lone lastOut byte then 2 else 1

/-- The loop of `ubiqos_usb_write`. -/
def usbPut (s : Usb) : List Byte → Usb × Nat
  | [] => (s, 0)
  | byte :: rest =>
    if s.room < usbNeed s.lastOut byte then (s, 0)
    else
      let pair := if lone s.lastOut byte then [carriageReturn, byte] else [byte]
      let (after, more) := usbPut
        { s with
          outgoing := s.outgoing ++ pair, room := s.room - usbNeed s.lastOut byte,
          lastOut := byte } rest
      (after, more + 1)

/-- `ubiqos_usb_write`. With nobody listening the rest is dropped. -/
def ubiqosUsbWrite (s : Usb) (bytes : List Byte) : Usb × Option Nat :=
  if s.mounted then
    let (after, written) := usbPut s bytes
    if written < bytes.length ∧ s.connected = false then (after, some bytes.length)
    else (after, some written)
  else (s, none)

def ubiqosUsbWritable (s : Usb) : Nat := if s.mounted then s.room else 0

def ubiqosUsbAvailable (s : Usb) : Nat :=
  if s.connected || s.mounted then s.incoming.length else 0

def ubiqosUsbRead (s : Usb) (len : Nat) : Usb × List Byte :=
  if s.mounted = false ∨ s.incoming.length = 0 then (s, [])
  else ({ s with incoming := s.incoming.drop len }, s.incoming.take len)

/-- `driver_usb`: a write to nobody is taken as written. -/
def driverUsb : Driver Usb where
  write := some fun s bytes =>
    let (after, n) := ubiqosUsbWrite s bytes
    (after, some (n.getD bytes.length))
  read := some fun s len =>
    let (after, bytes) := ubiqosUsbRead s len
    (after, some bytes)
  readable := some ubiqosUsbAvailable
  writable := some ubiqosUsbWritable
  atEof := none

/-- `ubiqos_usbhost_read`: the keys that wait, oldest first. -/
def takeFirst (queue : List Byte) (len : Nat) : List Byte × Option (List Byte) :=
  (queue.drop len, some (queue.take len))

def driverKbd : Driver (List Byte) where
  write := some fun s _ => (s, none)
  read := some takeFirst
  readable := some List.length
  writable := none
  atEof := none

def consoleRing : Nat := 2048

/-- The display's ring, one place of which stays empty, and the keyboard. -/
structure Screen where
  ring : List Byte
  keys : List Byte
  fits : ring.length ≤ consoleRing - 1

def consoleRoom (s : Screen) : Nat := consoleRing - 1 - s.ring.length

/-- `ubiqos_console_put`. -/
def consolePut (s : Screen) (bytes : List Byte) : Screen × Nat :=
  let taken := min bytes.length (consoleRoom s)
  ({ s with
      ring := s.ring ++ bytes.take taken
      fits := by
        have fits := s.fits
        simp only [List.length_append, List.length_take, taken, consoleRoom]
        omega }, taken)

def driverConsole : Driver Screen where
  write := some fun s bytes => ((consolePut s bytes).1, some (consolePut s bytes).2)
  read := some fun s len => ({ s with keys := s.keys.drop len }, some (s.keys.take len))
  readable := some fun s => s.keys.length
  writable := some consoleRoom
  atEof := none

structure Acm where
  mounted : Bool
  incoming : List Byte
  outgoing : List Byte
  room : Nat

def acmWrite (s : Acm) (bytes : List Byte) : Acm × Option Nat :=
  if s.mounted then
    let taken := min bytes.length s.room
    ({ s with outgoing := s.outgoing ++ bytes.take taken, room := s.room - taken }, some taken)
  else (s, none)

def acmRead (s : Acm) (len : Nat) : Acm × Option (List Byte) :=
  if s.mounted then ({ s with incoming := s.incoming.drop len }, some (s.incoming.take len))
  else (s, some [])

def driverAcm : Driver Acm where
  write := some acmWrite
  read := some acmRead
  readable := some fun s => if s.mounted then s.incoming.length else 0
  writable := some fun s => if s.mounted then s.room else 1
  atEof := none

def driverNull : Driver Unit where
  write := some fun s bytes => (s, some bytes.length)
  read := some fun s _ => (s, some [])
  readable := some fun _ => 1
  writable := none
  atEof := some fun _ => true

/-- `modules/uart`: what went out on the wire. It can only send. -/
def driverUart : Driver (List Byte) where
  write := some fun sent bytes =>
    (sent ++ bytes.flatMap (fun byte => if byte = lineFeed then [carriageReturn, byte] else [byte]),
      some bytes.length)
  read := some fun sent _ => (sent, some [])
  readable := none
  writable := none
  atEof := none

def i2cMaxRead : Nat := 64

structure I2c where
  rx : List Byte
  answer : List Byte → Option (List Byte)

def i2cDoWrite (highest : Nat) (s : I2c) (bytes : List Byte) : I2c × Option Nat :=
  match bytes with
  | addr :: nwrite :: nread :: _ :: rest =>
    if i2cMaxRead < nread.toNat ∨ highest < addr.toNat ∨ rest.length < nwrite.toNat then (s, none)
    else
      match s.answer bytes with
      | none => ({ s with rx := [] }, none)
      | some got => ({ s with rx := got.take nread.toNat }, some bytes.length)
  | _ => (s, none)

/-- `modules/i2cbus`, and the STM32's own under the same name, which also checks the
address. The answer stays until the next exchange. -/
def driverI2c (highest : Nat) : Driver I2c where
  write := some (i2cDoWrite highest)
  read := some fun s len => (s, some (s.rx.take len))
  readable := some fun s => s.rx.length
  writable := none
  atEof := none

def touchSize : Nat := 24

/-- `modules/gt911`: what a poll of the controller gives. A poll always has an answer. -/
structure Touch where
  report : List Byte
  whole : report.length = touchSize

def driverGt911 : Driver Touch where
  write := none
  read := some fun s len =>
    (⟨List.replicate touchSize 0, List.length_replicate⟩, some (s.report.take len))
  readable := some fun s => s.report.length
  writable := none
  atEof := none

/-- `ubiqos_gpio_event_t`, eight bytes of it. -/
structure Event where
  pin : Byte
  level : Byte
  atMs : BitVec 32

def eventSize : Nat := 8

def Event.bytes (e : Event) : List Byte :=
  [e.pin, e.level, 0, 0, e.atMs.setWidth 8, (e.atMs >>> 8).setWidth 8, (e.atMs >>> 16).setWidth 8,
    (e.atMs >>> 24).setWidth 8]

/-- `modules/gpio`: whole events only. -/
def driverGpio : Driver (List Event) where
  write := none
  read := some fun events len =>
    (events.drop (len / eventSize), some ((events.take (len / eventSize)).flatMap Event.bytes))
  readable := some fun events => events.length * eventSize
  writable := none
  atEof := none

/-- `modules/adc`: the latest value of each channel that is enabled, two bytes each. -/
def driverAdc : Driver (List (BitVec 16)) where
  write := none
  read := some fun latest len =>
    (latest, some ((latest.take (len / 2)).flatMap
      (fun value : BitVec 16 => [value.setWidth 8, (value >>> 8).setWidth 8])))
  readable := some fun latest => latest.length * 2
  writable := none
  atEof := none

def stripSize : Nat := 15

/-- `modules/neopixel`: what is showing. -/
structure Strip where
  pixels : List Byte
  whole : pixels.length = stripSize

def ledsWrite (s : Strip) (bytes : List Byte) : Strip × Option Nat :=
  ({ pixels := bytes.take stripSize ++ s.pixels.drop (bytes.take stripSize).length
     whole := by
      have whole := s.whole
      simp only [List.length_append, List.length_take, List.length_drop]
      omega }, some bytes.length)

def driverNeopixel : Driver Strip where
  write := some ledsWrite
  read := some fun s len => (s, some (s.pixels.take len))
  readable := some fun _ => stripSize
  writable := none
  atEof := none

/-- `modules/esplink`: what came in and what went out. -/
structure Wire where
  rx : List Byte
  sent : List Byte

def driverEsplink : Driver Wire where
  write := some fun s bytes => ({ s with sent := s.sent ++ bytes }, some bytes.length)
  read := some fun s len => ({ s with rx := s.rx.drop len }, some (s.rx.take len))
  readable := some fun s => if s.rx.length = 0 then 0 else 1
  writable := none
  atEof := none

def ehBuf : Nat := 1600
def ehHeader : Nat := 12

/-- `modules/ehspi`: frames that came in, none of them empty, and the one on its way out. -/
structure Link where
  running : Bool
  txPending : Bool
  staged : List Byte
  inbox : List (List Byte)
  filled : ∀ frame ∈ inbox, frame ≠ []

def ehWrite (s : Link) (bytes : List Byte) : Link × Option Nat :=
  if s.running = false ∨ s.txPending = true then (s, none)
  else if ehBuf < bytes.length + ehHeader then (s, none)
  else ({ s with staged := bytes, txPending := true }, some bytes.length)

def ehRead (s : Link) (len : Nat) : Link × Option (List Byte) :=
  match found : s.inbox with
  | [] => (s, some [])
  | frame :: rest =>
    ({ s with
        inbox := rest
        filled := fun other member =>
          s.filled other (by rw [found]; exact List.mem_cons_of_mem frame member) },
      some (frame.take len))

def driverEhspi : Driver Link where
  write := some ehWrite
  read := some ehRead
  readable := some fun s => if s.inbox.isEmpty then 0 else 1
  writable := none
  atEof := none

def ringWords : Nat := 1024

/-- `modules/audio`: a ring of stereo frames that the DMA reads for ever. -/
structure Sound where
  ring : Nat → BitVec 32
  writeAt : Nat
  dmaAt : Nat
  inside : writeAt < ringWords ∧ dmaAt < ringWords

def ringFree (s : Sound) : Nat := (s.dmaAt + 2 * ringWords - s.writeAt - 1) % ringWords

def Sound.put (s : Sound) (word : BitVec 32) : Sound :=
  { s with
    ring := Function.update s.ring s.writeAt word
    writeAt := (s.writeAt + 1) % ringWords
    inside := ⟨Nat.mod_lt _ (by decide), s.inside.2⟩ }

def storeFrames (s : Sound) : Nat → List Byte → Sound
  | n + 1, l0 :: l1 :: r0 :: r1 :: rest =>
    storeFrames (s.put ((l1 ++ l0) ++ (r1 ++ r0))) n rest
  | _, _ => s

def clearAhead (s : Sound) (ahead : Nat) : Sound :=
  let silence (ring : Nat → BitVec 32) (i : Nat) :=
    Function.update ring ((s.writeAt + i) % ringWords) 0
  { s with ring := (List.range ahead).foldl silence s.ring }

def audioWrite (s : Sound) (bytes : List Byte) : Sound × Option Nat :=
  let n := min (bytes.length / 4) (ringFree s)
  let stored := storeFrames s n bytes
  (clearAhead stored (ringFree stored), some (n * 4))

def driverAudio : Driver Sound where
  write := some audioWrite
  read := none
  readable := none
  writable := some fun s => ringFree s * 4
  atEof := none

/-- The board's serial console with a transmit ring of the board's size. -/
structure Term (size : Nat) where
  rx : List Byte
  tx : List Byte
  fits : tx.length ≤ size

def termRoom {size : Nat} (s : Term size) : Nat := size - s.tx.length

def termNeed (byte : Byte) : Nat := if byte = lineFeed then 2 else 1

def termSend {size : Nat} (s : Term size) (byte : Byte) (room : termNeed byte ≤ termRoom s) :
    Term size :=
  { s with
    tx := s.tx ++ if byte = lineFeed then [carriageReturn, byte] else [byte]
    fits := by
      have fits := s.fits
      unfold termNeed termRoom at room
      split at room <;> rename_i same <;> simp [same] <;> omega }

def termPut {size : Nat} (s : Term size) : List Byte → Term size × Nat
  | [] => (s, 0)
  | byte :: rest =>
    if room : termNeed byte ≤ termRoom s then
      let (after, more) := termPut (termSend s byte room) rest
      (after, more + 1)
    else (s, 0)

def termWrite {size : Nat} (s : Term size) (bytes : List Byte) : Term size × Option Nat :=
  let need := (bytes.map termNeed).sum
  if need ≤ size ∧ termRoom s < need then (s, some 0)
  else ((termPut s bytes).1, some (termPut s bytes).2)

def driverTerm (size : Nat) : Driver (Term size) where
  write := some termWrite
  read := some fun s len => ({ s with rx := s.rx.drop len }, some (s.rx.take len))
  readable := some fun s => s.rx.length
  writable := some fun s => termRoom s / 2
  atEof := none

def txSize (bits : Nat) : Nat := 2 ^ (bits + 1)

inductive Kind where
  | usbcdc | usbkbd | console | acm | null | uart | i2cbus | stm32I2c | gt911 | gpio | adc
  | neopixel | esplink | ehspi | audio
  | term (bits : Nat)

def Kind.State : Kind → Type
  | .usbcdc => Usb
  | .usbkbd => List Byte
  | .console => Screen
  | .acm => Acm
  | .null => Unit
  | .uart => List Byte
  | .i2cbus => I2c
  | .stm32I2c => I2c
  | .gt911 => Touch
  | .gpio => List Event
  | .adc => List (BitVec 16)
  | .neopixel => Strip
  | .esplink => Wire
  | .ehspi => Link
  | .audio => Sound
  | .term bits => Term (txSize bits)

def Kind.driver : (kind : Kind) → Driver kind.State
  | .usbcdc => driverUsb
  | .usbkbd => driverKbd
  | .console => driverConsole
  | .acm => driverAcm
  | .null => driverNull
  | .uart => driverUart
  | .i2cbus => driverI2c 255
  | .stm32I2c => driverI2c 127
  | .gt911 => driverGt911
  | .gpio => driverGpio
  | .adc => driverAdc
  | .neopixel => driverNeopixel
  | .esplink => driverEsplink
  | .ehspi => driverEhspi
  | .audio => driverAudio
  | .term bits => driverTerm (txSize bits)

structure Device where
  kind : Kind
  state : kind.State

end Ubiqos.Io
