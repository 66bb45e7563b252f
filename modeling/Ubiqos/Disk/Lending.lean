import Ubiqos.Fat.Mount

/-!
The card between two sides: the file server of `kernel/fsserver.c` with its volume
`sd`, and the host behind `kernel/usbmsc.c`. The USB thread comes before the server and
does not wait, so what the host asks happens between two steps of the server, of which
handing over, taking back and mounting have several. Which bus the card is on, what the
blocks are counted for and what is printed are left out.
-/

namespace Ubiqos.Disk

open Function Fat

inductive Call
  | stat (path : CString)
  | readAt (path : CString) (offset len : BitVec 32)
  | statNth (path : CString) (index : Nat)
  | writeAt (path : CString) (offset : BitVec 32) (buf : Nat → Byte) (len : BitVec 32)
  | remove (path : CString)
  | rename (source target : CString)
  | mkdir (path : CString)
  | rmdir (path : CString)

inductive Reply
  | entry (found : Option (Byte × Nat))
  | bytes (count : Int) (data : List Byte)
  | named (found : Option (List Byte × Nat × Byte))
  | wrote (count : Int)
  | done (ok : Bool)

def Call.run : Call → Prog Fs Reply
  | .stat path => do return .entry (← Fat.stat path)
  | .readAt path offset len => do
    let (count, data) ← Fat.readAt path offset len
    return .bytes count data
  | .statNth path index => do return .named (← Fat.statNth path index)
  | .writeAt path offset buf len => do return .wrote (← Fat.writeAt path offset buf len)
  | .remove path => do return .done (← Fat.remove path)
  | .rename source target => do return .done (← Fat.rename source target)
  | .mkdir path => do return .done (← Fat.mkdir path)
  | .rmdir path => do return .done (← Fat.rmdir path)

/-- An ordinary request on the volume: calls, each of which may depend on the replies
before it, and what the caller gets. -/
inductive Ask (Out : Type)
  | done (out : Out)
  | call (c : Call) (next : Reply → Ask Out)

/-- Where the server is in what it is doing: in a request, in `FS_USBDISK` after the
card has been handed over, before and after it is taken back and after it is mounted,
in `FS_MOUNT` before and after the mount. -/
inductive Phase (Out : Type)
  | idle
  | asking (ask : Ask Out)
  | lent
  | taking
  | taken
  | back
  | bringing
  | brought
  | hung

inductive Answer (Out : Type)
  | request (out : Option Out)
  | control (result : Int)

/-- Who has used the card: the server, or the host a block of it, and what
`host_has_it` and `total_blocks` were. -/
inductive Touch
  | volume (hostHasIt : Bool)
  | host (lba : Nat) (hostHasIt : Bool) (totalBlocks : Nat)
  deriving DecidableEq

/-- `touched`, `answers` and `sent`, latest first, are history. -/
structure World (Out : Type) where
  lib : Library
  sd : Bool
  cardMounted : Bool
  hostHasIt : Bool
  totalBlocks : Nat
  phase : Phase Out
  touched : List Touch
  answers : List (Answer Out)
  sent : List (Int × List Byte)

def boot {Out : Type} (lib : Library) : World Out := ⟨lib, false, false, false, 0, .idle, [], [], []⟩

inductive Event (Out : Type)
  | request (dead : Bool) (ask : Ask Out)
  | usbdisk (dead : Bool) (what : Nat)
  | mount (dead : Bool) (what : Nat) (bus : Int)
  | serves (ready room : Bool)
  | hostReads (lba offset len : BitVec 32)
  | hostWrites (lba offset len : BitVec 32) (buf : Nat → Byte)
  | hostEjects

section Steps
variable {Out : Type} (w : World Out)

def World.answer (a : Answer Out) : World Out := { w with phase := .idle, answers := a :: w.answers }

def World.sends (count : Int) (data : List Byte) : World Out :=
  { w with sent := (count, data) :: w.sent }

/-- `dead` is what the driver says of the card. -/
def World.dropCardIfDead (dead : Bool) : World Out :=
  if w.cardMounted && dead then { w with sd := false, cardMounted := false } else w

/-- `ubiqos_msc_hand_over`. -/
def World.handOver : World Out × Bool :=
  if w.hostHasIt then (w, true)
  else
    match fatExtent w.lib with
    | none => (w, false)
    | some 0 => ({ w with totalBlocks := 0 }, false)
    | some count => ({ w with totalBlocks := count, hostHasIt := true }, true)

/-- `ubiqos_msc_take_back`. -/
def World.takeBack : World Out := { w with hostHasIt := false, totalBlocks := 0 }

def World.usbdisk (what : Nat) : World Out :=
  if what = 1 then
    if !w.cardMounted then w.answer (.control (-1))
    else
      match w.handOver with
      | (w, true) => { w with phase := .lent }
      | (w, false) => w.answer (.control (-1))
  else if w.hostHasIt && what ≠ 2 then w.answer (.control (-2))
  else { w with phase := .taking }

def World.mount (what : Nat) (bus : Int) : World Out :=
  if w.hostHasIt then w.answer (.control (-2))
  else if what = 2 then w.answer (.control (if w.cardMounted then bus else -1))
  else { w with phase := .bringing }

def World.remount (next : Phase Out) : World Out :=
  let w := { w with touched := .volume w.hostHasIt :: w.touched }
  match fatMount.run w.lib with
  | some (true, lib) => { w with lib := lib, phase := next }
  | some (false, lib) => { w with lib := lib }.answer (.control (-1))
  | none => { w with phase := .hung }

/-- `ubiqos_vfs_add`, with room in the table or the volume there already. -/
def World.enters (room : Bool) : World Out :=
  if w.sd || room then { w with sd := true, cardMounted := true }.answer (.control 0)
  else w.answer (.control (-1))

/-- The server's next step. `ready` is whether the card could be addressed. -/
def World.serves (ready room : Bool) : World Out :=
  match w.phase with
  | .idle => w
  | .asking (.done out) => w.answer (.request (some out))
  | .asking (.call c next) =>
    let w := { w with touched := .volume w.hostHasIt :: w.touched }
    match c.run.run w.lib.fs with
    | some (reply, fs) => { w with lib := { w.lib with fs := fs }, phase := .asking (next reply) }
    | none => { w with phase := .hung }
  | .lent => { w with sd := false, cardMounted := false }.answer (.control 0)
  | .taking => { w.takeBack with phase := .taken }
  | .taken => w.remount .back
  | .back => if w.cardMounted then w.answer (.control 0) else w.enters room
  | .bringing =>
    if ready then w.remount .brought
    else { w with touched := .volume w.hostHasIt :: w.touched }.answer (.control (-1))
  | .brought => w.enters room
  | .hung => w

def World.touch (lba : Nat) : World Out :=
  { w with
    lib := { w.lib with fs := { w.lib.fs with faults := w.lib.fs.faults.tail } }
    touched := .host lba w.hostHasIt w.totalBlocks :: w.touched }

def World.fault : Option Block := w.lib.fs.faults.head?.join

def World.put (lba : Nat) (b : Block) : World Out :=
  { w with lib := { w.lib with fs := { w.lib.fs with card := update w.lib.fs.card lba b } } }

def hostReadFrom (lba offset len : Nat) : Nat → Nat → List Byte → World Out → World Out
  | 0, done, out, w => w.sends done out
  | n + 1, done, out, w =>
    if done < len then
      let block := (lba + (offset + done) % 2 ^ 32 / 512) % 2 ^ 32
      match w.fault with
      | some _ => (w.touch block).sends (-1) out
      | none =>
        let pos := (offset + done) % 2 ^ 32 % 512
        let count := min (512 - pos) (len - done)
        hostReadFrom lba offset len n (done + count)
          (out ++ slice (w.lib.fs.card block) pos count) (w.touch block)
    else w.sends done out

/-- `tud_msc_read10_cb`. -/
def World.hostReads (lba offset len : Nat) : World Out :=
  if !w.hostHasIt ∨ w.totalBlocks ≤ lba then w.sends (-1) []
  else hostReadFrom lba offset len (len + 1) 0 [] w

/-- The blocks from the `i`-th on, `n` of them. A write that fails may leave anything. -/
def hostWriteFrom (lba len : Nat) (buf : Nat → Byte) : Nat → Nat → World Out → World Out
  | 0, _, w => w.sends len []
  | n + 1, i, w =>
    let block := (lba + i) % 2 ^ 32
    match w.fault with
    | some junk => ((w.touch block).put block junk).sends (-1) []
    | none => hostWriteFrom lba len buf n (i + 1)
        ((w.touch block).put block fun j => buf (i * 512 + j))

/-- `tud_msc_write10_cb`. -/
def World.hostWrites (lba offset len : Nat) (buf : Nat → Byte) : World Out :=
  if !w.hostHasIt ∨ w.totalBlocks ≤ lba then w.sends (-1) []
  else if offset ≠ 0 ∨ len % 512 ≠ 0 then w.sends (-1) []
  else hostWriteFrom lba len buf (len / 512) 0 w

def World.step : Event Out → World Out
  | .request dead ask =>
    match w.phase with
    | .idle =>
      let w := w.dropCardIfDead dead
      if w.sd then { w with phase := .asking ask } else w.answer (.request none)
    | _ => w
  | .usbdisk dead what =>
    match w.phase with
    | .idle => (w.dropCardIfDead dead).usbdisk what
    | _ => w
  | .mount dead what bus =>
    match w.phase with
    | .idle => (w.dropCardIfDead dead).mount what bus
    | _ => w
  | .serves ready room => w.serves ready room
  | .hostReads lba offset len => w.hostReads lba.toNat offset.toNat len.toNat
  | .hostWrites lba offset len buf => w.hostWrites lba.toNat offset.toNat len.toNat buf
  | .hostEjects => w.takeBack

end Steps

def run {Out : Type} (w : World Out) (events : List (Event Out)) : World Out :=
  events.foldl World.step w

end Ubiqos.Disk
