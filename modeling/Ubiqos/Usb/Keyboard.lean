import Mathlib.Data.BitVec
import Mathlib.Logic.Function.Basic

/-!
The keyboard side of `kernel/usbhost.c`. Reports arrive on the second core,
which compares each with the one before, translates the keys that are new and
puts their bytes into a ring. What needs the kernel goes through a queue of
events that the first core drains: the interrupt key among it, which comes to
the ring only when nothing in front wanted it.

One report, one tick of the repeat clock and one drained event are a step each.
The poll table is left out; of its recoveries only what they forget is kept.
-/

namespace Ubiqos.Usb

open Function

abbrev Byte := BitVec 8
abbrev Time := BitVec 32

/-- `sizeof(keys)`. -/
def keysSize : Nat := 32
/-- The entries of `evq`; one stays empty. -/
def evqSize : Nat := 32
/-- `REPEAT_DELAY_MS`. -/
def repeatDelay : Time := 400
/-- `REPEAT_RATE_MS`. -/
def repeatRate : Time := 35
/-- `REPEAT_LIMIT_MS`. -/
def repeatLimit : Int := 5000
/-- `UBIQOS_KEYMAP_KEYS`. -/
def keymapKeys : Nat := 104

def ctrlC : Byte := 3

def text (s : String) : List Byte := s.toList.map fun c => BitVec.ofNat 8 c.toNat

structure Keymap where
  plain : Nat → Byte
  shift : Nat → Byte
  altgr : Nat → Byte

structure Board where
  chargen : Bool
  cellRows : Nat
  keymap : Option Keymap

inductive View
  | move (rows : Int)
  | home
  | toEnd
  deriving DecidableEq

inductive Log
  | mount (addr : Nat)
  | umount (addr : Nat)
  | hidKbd
  | hidOther
  | armed
  | hidGone
  | noSlot (addr inst : Nat)
  | cdcUp
  | cdcGone
  deriving DecidableEq

inductive Event
  | log (what : Log)
  | intr
  | view (what : View)
  deriving DecidableEq

structure Host where
  keys : Nat → Byte
  head : Nat
  tail : Nat
  evq : List Event
  was : List Byte
  repeatKey : Byte
  repeatMods : Byte
  repeatDue : Time
  repeatBegan : Time

/-- What became of one stroke: its bytes came into the ring, or there was no
room for them, or the interrupt key was taken by what was in front. -/
inductive Note
  | pushed (bytes : List Byte)
  | lost (bytes : List Byte) (free : Nat)
  | consumed
  deriving DecidableEq

/-- `ev_push`: an event is dropped when the queue is full. -/
def evPush (h : Host) (event : Event) : Host :=
  if h.evq.length + 1 < evqSize then { h with evq := h.evq ++ [event] } else h

def push (h : Host) (c : Byte) : Host :=
  let next := (h.head + 1) % keysSize
  if next ≠ h.tail then { h with keys := update h.keys h.head c, head := next } else h

def freeSlots (h : Host) : Nat :=
  (h.tail + (2 ^ 32 - h.head) + (2 ^ 32 - 1) + keysSize) % 2 ^ 32 % keysSize

def pushLocked (h : Host) (sq : List Byte) : Host × Note :=
  if sq.length ≤ freeSlots h then (sq.foldl push h, .pushed sq) else (h, .lost sq (freeSlots h))

/-- `ubiqos_usbhost_read`. -/
def read : Nat → Host → Host × List Byte
  | 0, h => (h, [])
  | n + 1, h =>
    if h.head ≠ h.tail then
      let rest := read n { h with tail := (h.tail + 1) % keysSize }
      (rest.1, h.keys h.tail :: rest.2)
    else (h, [])

def utf8 (c : Byte) : List Byte :=
  if c < 0x80 then [c] else [0xc0 ||| c >>> 6, 0x80 ||| c &&& 0x3f]

def emit (h : Host) (c : Byte) : Host × List Note :=
  if c = ctrlC then (evPush h .intr, [])
  else
    let pushed := pushLocked h (utf8 c)
    (pushed.1, [pushed.2])

def scrollKey (b : Board) (k mods : Byte) : Option View :=
  if b.chargen ∧ mods &&& 0x22 ≠ 0 then
    if k = 0x4b then some (.move (-(b.cellRows / 2 : Nat)))
    else if k = 0x4e then some (.move (b.cellRows / 2 : Nat))
    else if k = 0x4a then some .home
    else if k = 0x4d then some .toEnd
    else none
  else none

def scrollToLive (b : Board) (h : Host) : Host :=
  if b.chargen then evPush h (.view .toEnd) else h

def navSequence (k : Byte) : Option (List Byte) :=
  if k = 0x4a then some (text "\x1b[H")
  else if k = 0x4b then some (text "\x1b[5~")
  else if k = 0x4c then some (text "\x1b[3~")
  else if k = 0x4d then some (text "\x1b[F")
  else if k = 0x4e then some (text "\x1b[6~")
  else if k = 0x4f then some (text "\x1b[C")
  else if k = 0x50 then some (text "\x1b[D")
  else if k = 0x51 then some (text "\x1b[B")
  else if k = 0x52 then some (text "\x1b[A")
  else none

def plainKeys : List Byte :=
  [0, 0, 0, 0] ++ text "abcdefghijklmnopqrstuvwxyz1234567890" ++ [13, 27, 8, 9] ++
    text " -=[]\\" ++ [0] ++ text ";'`,./"

def shiftKeys : List Byte :=
  [0, 0, 0, 0] ++ text "ABCDEFGHIJKLMNOPQRSTUVWXYZ!@#$%^&*()" ++ [13, 27, 8, 9] ++
    text " _+\x7b\x7d|" ++ [0] ++ text ":\"~<>?"

def control (c : Byte) : Byte :=
  if 97 ≤ c ∧ c ≤ 122 then c - 97 + 1 else if 65 ≤ c ∧ c ≤ 90 then c - 65 + 1 else 0

/-- `translate`: no character is 0. -/
def translate (b : Board) (k mods : Byte) : Byte :=
  let sh := mods &&& 0x22 ≠ 0
  let alt := mods &&& 0x40 ≠ 0
  let ctrl := mods &&& 0x11 ≠ 0
  match b.keymap with
  | some keymap =>
    if keymapKeys ≤ k.toNat then 0
    else
      let c := if alt then keymap.altgr k.toNat
        else if sh then keymap.shift k.toNat else keymap.plain k.toNat
      let c := if alt ∧ c = 0 then keymap.plain k.toNat else c
      if ctrl then control c else c
  | none =>
    if k.toNat < plainKeys.length then
      let c := if sh then shiftKeys.getD k.toNat 0 else plainKeys.getD k.toNat 0
      if ctrl then control c else c
    else 0

def pressKey (b : Board) (mods : Byte) (now : Time) (h : Host) (k : Byte) : Host × List Note :=
  match scrollKey b k mods with
  | some view => (evPush h (.view view), [])
  | none =>
    let result : Host × List Note :=
      match navSequence k with
      | some sq =>
        let pushed := pushLocked (scrollToLive b h) sq
        (pushed.1, [pushed.2])
      | none =>
        let c := translate b k mods
        if c ≠ 0 then emit (scrollToLive b h) c else (h, [])
    ({ result.1 with
        repeatKey := k
        repeatMods := mods
        repeatBegan := now
        repeatDue := now + repeatDelay }, result.2)

def pressKeys (b : Board) (mods : Byte) (now : Time) (was : List Byte) :
    List Byte → Host → Host × List Note
  | [], h => (h, [])
  | k :: rest, h =>
    if k = 0 ∨ k ∈ was then pressKeys b mods now was rest h
    else
      let first := pressKey b mods now h k
      let later := pressKeys b mods now was rest first.1
      (later.1, first.2 ++ later.2)

def letGo (mods : Byte) (keys : List Byte) (h : Host) : Host :=
  if h.repeatKey ≠ 0 then
    if h.repeatKey ∈ keys then { h with repeatMods := mods } else { h with repeatKey := 0 }
  else h

/-- A device and one of its interfaces. -/
abbrev Place := Nat × Nat

/-- `hid_want`, which speaks up only when the poll table has no slot left. -/
def hidWant (place : Place) (noSlot : Bool) (h : Host) : Host :=
  if noSlot then evPush h (.log (.noSlot place.1 place.2)) else h

def modsOf (report : List Byte) : Byte := report.getD 0 0
def keysOf (report : List Byte) : List Byte := (report.drop 2).take 6

/-- The part of `tuh_hid_report_received_cb` that only a keyboard's report is for. -/
def reportKeys (b : Board) (report : List Byte) (now : Time) (h : Host) : Host × List Note :=
  let pressed := pressKeys b (modsOf report) now h.was (keysOf report) h
  ({ letGo (modsOf report) (keysOf report) pressed.1 with was := keysOf report }, pressed.2)

/-- `tuh_hid_report_received_cb`. -/
def reportReceived (b : Board) (place : Place) (keyboard noSlot : Bool) (report : List Byte)
    (now : Time) (h : Host) : Host × List Note :=
  let result := if 8 ≤ report.length ∧ keyboard then reportKeys b report now h else (h, [])
  (hidWant place noSlot result.1, result.2)

def forgetHeldKeys (h : Host) : Host := { h with repeatKey := 0, was := List.replicate 6 0 }

/-- `ubiqos_usbhost_repeat`. -/
def repeatTick (b : Board) (now : Time) (h : Host) : Host × List Note :=
  if h.repeatKey = 0 then (h, [])
  else if repeatLimit < (now - h.repeatBegan).toInt then (forgetHeldKeys h, [])
  else if (now - h.repeatDue).toInt < 0 then (h, [])
  else
    let result : Host × List Note :=
      match navSequence h.repeatKey with
      | some sq =>
        let pushed := pushLocked h sq
        (pushed.1, [pushed.2])
      | none =>
        let c := translate b h.repeatKey h.repeatMods
        if c ≠ 0 then emit h c else (h, [])
    ({ result.1 with repeatDue := now + repeatRate }, result.2)

/-- One event of `ubiqos_usbhost_drain`; `taken` is what the two terminals answer. -/
def drainOne (taken : Bool) (h : Host) : Host × List Note :=
  match h.evq with
  | [] => (h, [])
  | event :: rest =>
    let h := { h with evq := rest }
    if event = .intr then
      if taken then (h, [.consumed])
      else
        let pushed := pushLocked h [ctrlC]
        (pushed.1, [pushed.2])
    else (h, [])

inductive Input
  | report (place : Place) (keyboard noSlot : Bool) (report : List Byte) (now : Time)
  | tick (now : Time)
  | hidMount (place : Place) (keyboard noSlot : Bool)
  | hidUmount (place : Place)
  | mount (addr : Nat)
  | umount (addr : Nat)
  | cdc (up : Bool)
  | recovered
  | drain (taken : Bool)
  | read (n : Nat)

def step (b : Board) (h : Host) : Input → Host × List Note × List Byte
  | .report place keyboard noSlot report now =>
    let result := reportReceived b place keyboard noSlot report now h
    (result.1, result.2, [])
  | .tick now =>
    let result := repeatTick b now h
    (result.1, result.2, [])
  | .hidMount place keyboard noSlot =>
    let h := evPush h (.log (if keyboard then .hidKbd else .hidOther))
    (evPush (hidWant place noSlot (forgetHeldKeys h)) (.log .armed), [], [])
  | .hidUmount _ => (evPush (forgetHeldKeys h) (.log .hidGone), [], [])
  | .mount addr => (evPush h (.log (.mount addr)), [], [])
  | .umount addr => (forgetHeldKeys (evPush h (.log (.umount addr))), [], [])
  | .cdc up => (evPush h (.log (if up then .cdcUp else .cdcGone)), [], [])
  | .recovered => (forgetHeldKeys h, [], [])
  | .drain taken =>
    let result := drainOne taken h
    (result.1, result.2, [])
  | .read n =>
    let result := read n h
    (result.1, [], result.2)

def started : Host :=
  ⟨fun _ => 0, 0, 0, [], List.replicate 6 0, 0, 0, 0, 0⟩

end Ubiqos.Usb
