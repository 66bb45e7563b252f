import Ubiqos.Kernel.Types
import Mathlib.Data.List.FinRange
import Mathlib.Logic.Function.Basic

/-!
The path table of `kernel/io.c`: what each process's descriptors name, the open
files they share and the rings of the pipes. The numbers of processes, paths and
open files are the board's. `-1` in an index is `none`; a function that is given
a process or path number checks it as the C does.

What a driver does with a call is its own business. Of a device only its name
and place in the table matter here, and what the driver's `open` answered comes
with the call.
-/

namespace Ubiqos.Io

open Function

abbrev Byte := BitVec 8

def maxPipes : Nat := 8
def pipeBuf : Nat := 128

instance : NeZero maxPipes := ⟨by decide⟩

abbrev Ring := Fin maxPipes

/-- `ubiqos_path_t`. `pipe` is the ring read, `back` the ring a two-way end writes
and `write` which end of a one-way pipe this is. -/
structure Slot (f : Nat) where
  device : Option Nat
  file : Option (Fin f)
  pipe : Option Ring
  back : Option Ring
  write : Bool
  deriving DecidableEq

/-- `pipe_t`. -/
structure Pipe where
  buf : Nat → Byte
  head : Nat
  tail : Nat
  readers : Nat
  writers : Nat
  foreground : Int

/-- `open_file_t`. -/
structure OpenFile where
  path : List Byte
  pos : U32
  refs : Nat

structure Table (n k f : Nat) where
  devices : List String
  paths : Pid n × Fin k → Slot f
  files : Fin f → OpenFile
  pipes : Ring → Pipe

def Slot.empty {f : Nat} : Slot f := ⟨none, none, none, none, false⟩

/-- `ubiqos_io_init`, with the one device it registers itself. -/
def ioInit (n k f : Nat) : Table n k f where
  devices := ["null"]
  paths := fun _ => .empty
  files := fun _ => ⟨[], 0, 0⟩
  pipes := fun _ => ⟨fun _ => 0, 0, 0, 0, 0, 0⟩

def maxDevices : Nat := 16
def nameLen : Nat := 16

/-- `raw < 0 || raw >= size` is refused. -/
def index (size : Nat) (raw : Int) : Option (Fin size) :=
  if inside : 0 ≤ raw ∧ raw < size then some ⟨raw.toNat, by omega⟩ else none

section Functions
variable {n k f : Nat}

def place (n k : Nat) (path owner : Int) : Option (Pid n × Fin k) :=
  match index n owner, index k path with
  | some pid, some p => some (pid, p)
  | _, _ => none

def setSlot (t : Table n k f) (spot : Pid n × Fin k) (slot : Slot f) : Table n k f :=
  { t with paths := update t.paths spot slot }

def setPipe (t : Table n k f) (q : Ring) (pipe : Pipe) : Table n k f :=
  { t with pipes := update t.pipes q pipe }

def setFile (t : Table n k f) (i : Fin f) (file : OpenFile) : Table n k f :=
  { t with files := update t.files i file }

/-- The test `open` and `pipe` make. -/
def vacant (slot : Slot f) : Bool := slot.device.isNone && slot.file.isNone && slot.pipe.isNone

/-- `is_free`. -/
def isFree (slot : Slot f) : Bool := vacant slot && slot.back.isNone

def firstSlot (t : Table n k f) (pid : Pid n) (test : Slot f → Bool) : Option (Fin k) :=
  (List.finRange k).find? (fun p => test (t.paths (pid, p)))

/-- `ubiqos_io_add_descriptor`. Whether a driver was found and configured itself comes
with the call; a name is cut to what the entry holds. -/
def addDescriptor (t : Table n k f) (name : String) (configured : Bool) : Table n k f :=
  if maxDevices ≤ t.devices.length then t
  else if configured then
    { t with devices := t.devices ++ [String.ofList (name.toList.take (nameLen - 1))] }
  else t

/-- `ubiqos_io_open`. A name that is found is not looked for again. -/
def openDevice (t : Table n k f) (name : String) (opens : Bool) (owner : Int) : Table n k f × Int :=
  match index n owner, t.devices.findIdx? (· = name) with
  | some pid, some d =>
    match firstSlot t pid vacant with
    | none => (t, -1)
    | some p =>
      if opens then
        (setSlot t (pid, p)
          ⟨some d, none, none, none, (t.paths (pid, p)).write⟩, (p : Nat))
      else (t, -1)
  | _, _ => (t, -1)

/-- `ubiqos_io_open_as`: only the device of the slot is written. -/
def openAs (t : Table n k f) (name : String) (opens : Bool) (owner path : Int) : Table n k f × Int :=
  match place n k path owner, t.devices.findIdx? (· = name) with
  | some spot, some d =>
    if opens then (setSlot t spot { t.paths spot with device := some d }, path) else (t, -1)
  | _, _ => (t, -1)

/-- `ubiqos_io_open_file`; a longer path is cut to what the entry holds. -/
def openFile (t : Table n k f) (absPath : List Byte) (owner : Int) : Table n k f × Int :=
  match index n owner with
  | none => (t, -1)
  | some pid =>
    match (List.finRange f).find? (fun i => (t.files i).refs = 0), firstSlot t pid isFree with
    | some i, some p =>
      let t := setFile t i ⟨absPath.take 63, 0, 1⟩
      (setSlot t (pid, p) { t.paths (pid, p) with file := some i }, (p : Nat))
    | _, _ => (t, -1)

/-- `file_entry`. -/
def fileEntry (t : Table n k f) (path owner : Int) : Option (Pid n × Fin k) :=
  (place n k path owner).filter (fun spot => (t.paths spot).file.isSome)

/-- `pipe_entry`. -/
def pipeEntry (t : Table n k f) (path owner : Int) : Option (Pid n × Fin k) :=
  (place n k path owner).filter (fun spot => (t.paths spot).pipe.isSome)

/-- `path_of`. -/
def pathOf (t : Table n k f) (path owner : Int) : Option (Pid n × Fin k) :=
  (place n k path owner).filter (fun spot => (t.paths spot).device.isSome)

/-- `file_release`. -/
def fileRelease (t : Table n k f) (spot : Pid n × Fin k) : Table n k f :=
  match (t.paths spot).file with
  | none => t
  | some i =>
    let t := setFile t i { t.files i with refs := (t.files i).refs - 1 }
    setSlot t spot { t.paths spot with file := none }

def addReader (t : Table n k f) (q : Ring) : Table n k f :=
  setPipe t q { t.pipes q with readers := (t.pipes q).readers + 1 }

def addWriter (t : Table n k f) (q : Ring) : Table n k f :=
  setPipe t q { t.pipes q with writers := (t.pipes q).writers + 1 }

def dropReader (t : Table n k f) (q : Ring) : Table n k f :=
  setPipe t q { t.pipes q with readers := (t.pipes q).readers - 1 }

def dropWriter (t : Table n k f) (q : Ring) : Table n k f :=
  setPipe t q { t.pipes q with writers := (t.pipes q).writers - 1 }

/-- The counts of `pipe_release`: a two-way end holds a reader and a writer. -/
def dropEnd (t : Table n k f) (slot : Slot f) : Table n k f :=
  match slot.pipe, slot.back with
  | none, _ => t
  | some q, some b => dropWriter (dropReader t q) b
  | some q, none => if slot.write then dropWriter t q else dropReader t q

/-- `pipe_release`. -/
def pipeRelease (t : Table n k f) (spot : Pid n × Fin k) : Table n k f :=
  match (t.paths spot).pipe with
  | none => t
  | some _ =>
    setSlot (dropEnd t (t.paths spot)) spot { t.paths spot with pipe := none, back := none }

def addFile (t : Table n k f) (slot : Slot f) : Table n k f :=
  match slot.file with
  | none => t
  | some i => setFile t i { t.files i with refs := (t.files i).refs + 1 }

def addEnd (t : Table n k f) (slot : Slot f) : Table n k f :=
  match slot.pipe, slot.back with
  | none, _ => t
  | some q, some b => addWriter (addReader t q) b
  | some q, none => if slot.write then addWriter t q else addReader t q

/-- One more descriptor on what a slot names, as `dup` and `inherit` count it. -/
def addHolder (t : Table n k f) (slot : Slot f) : Table n k f := addEnd (addFile t slot) slot

def copySlot (t : Table n k f) (source target : Pid n × Fin k) : Table n k f :=
  let slot := t.paths source
  addHolder (setSlot t target slot) slot

/-- `ubiqos_io_inherit`, one path at a time. -/
def inheritPath (parent child : Pid n) (t : Table n k f) (p : Fin k) : Table n k f :=
  copySlot t (parent, p) (child, p)

def inherit (t : Table n k f) (parent child : Int) : Table n k f :=
  match index n parent, index n child with
  | some parent, some child => (List.finRange k).foldl (inheritPath parent child) t
  | _, _ => t

/-- `ubiqos_io_close`. A file is looked for first, then a pipe, then a device. -/
def close (t : Table n k f) (path owner : Int) : Table n k f × Int :=
  match fileEntry t path owner with
  | some spot => (fileRelease t spot, 0)
  | none =>
    match pipeEntry t path owner with
    | some spot => (pipeRelease t spot, 0)
    | none =>
      match pathOf t path owner with
      | some spot => (setSlot t spot { t.paths spot with device := none }, 0)
      | none => (t, -1)

def freeRing (t : Table n k f) (q : Ring) : Bool :=
  (t.pipes q).readers = 0 ∧ (t.pipes q).writers = 0

def freshRing (t : Table n k f) (q : Ring) : Table n k f :=
  setPipe t q
    { t.pipes q with head := 0, tail := 0, readers := 1, writers := 1, foreground := -1 }

/-- `ubiqos_io_pipe`: the descriptor that reads and the one that writes. -/
def pipe (t : Table n k f) (owner : Int) : Table n k f × Option (Fin k × Fin k) :=
  match index n owner with
  | none => (t, none)
  | some pid =>
    match (List.finRange maxPipes).find? (freeRing t),
        (List.finRange k).filter (fun p => vacant (t.paths (pid, p))) with
    | some q, r :: w :: _ =>
      let t := freshRing t q
      let t := setSlot t (pid, r)
        { t.paths (pid, r) with pipe := some q, back := none, write := false }
      let t := setSlot t (pid, w)
        { t.paths (pid, w) with pipe := some q, back := none, write := true }
      (t, some (r, w))
    | _, _ => (t, none)

/-- `ubiqos_io_pipepair`: two rings with their ends crossed. -/
def pipepair (t : Table n k f) (owner : Int) : Table n k f × Option (Fin k × Fin k) :=
  match index n owner with
  | none => (t, none)
  | some pid =>
    match (List.finRange maxPipes).filter (freeRing t),
        (List.finRange k).filter (fun p => isFree (t.paths (pid, p))) with
    | a :: b :: _, p0 :: p1 :: _ =>
      let t := freshRing (freshRing t a) b
      let t := setSlot t (pid, p0)
        { t.paths (pid, p0) with pipe := some a, back := some b, write := false }
      let t := setSlot t (pid, p1)
        { t.paths (pid, p1) with pipe := some b, back := some a, write := false }
      (t, some (p0, p1))
    | _, _ => (t, none)

/-- `ubiqos_io_dup`. -/
def dup (t : Table n k f) (path newPath owner : Int) : Table n k f × Int :=
  match place n k path owner with
  | none => (t, -1)
  | some source =>
    if vacant (t.paths source) then (t, -1)
    else if newPath = path then (t, path)
    else if newPath < 0 then
      match firstSlot t source.1 isFree with
      | none => (t, -1)
      | some p => (copySlot t source (source.1, p), (p : Nat))
    else
      match index k newPath with
      | none => (t, -1)
      | some p => (copySlot (close t newPath owner).1 source (source.1, p), newPath)

/-- `ubiqos_io_close_all`, one path at a time. -/
def closePath (pid : Pid n) (t : Table n k f) (p : Fin k) : Table n k f :=
  let t := fileRelease t (pid, p)
  let t := pipeRelease t (pid, p)
  setSlot t (pid, p) { t.paths (pid, p) with device := none }

def closeAll (t : Table n k f) (owner : Int) : Table n k f :=
  match index n owner with
  | none => t
  | some pid => (List.finRange k).foldl (closePath pid) t

/-- `pipe_used`, in the unsigned arithmetic of a word. -/
def pipeUsed (q : Pipe) : Nat := (q.head + 2 ^ 32 - q.tail) % 2 ^ 32 % pipeBuf

def fill (q : Pipe) : List Byte → Pipe × Nat
  | [] => (q, 0)
  | byte :: rest =>
    if pipeUsed q < pipeBuf - 1 then
      let (q, more) := fill
        { q with buf := update q.buf q.head byte, head := (q.head + 1) % pipeBuf } rest
      (q, more + 1)
    else (q, 0)

def drain (q : Pipe) : Nat → Pipe × List Byte
  | 0 => (q, [])
  | len + 1 =>
    if pipeUsed q = 0 then (q, [])
    else
      let (rest, bytes) := drain { q with tail := (q.tail + 1) % pipeBuf } len
      (rest, q.buf q.tail :: bytes)

def Slot.out (slot : Slot f) : Option Ring :=
  match slot.pipe, slot.back with
  | none, _ => none
  | some _, some b => some b
  | some q, none => if slot.write then some q else none

def Slot.inn (slot : Slot f) : Option Ring :=
  match slot.pipe, slot.back with
  | none, _ => none
  | some q, some _ => some q
  | some q, none => if slot.write then none else some q

/-- `ubiqos_io_write` on a pipe: `none` is the C's `-1`, a refusal. -/
def pipeWrite (t : Table n k f) (spot : Pid n × Fin k) (bytes : List Byte) : Table n k f × Option Nat :=
  match (t.paths spot).out with
  | none => (t, none)
  | some q =>
    if (t.pipes q).readers = 0 then (t, none)
    else
      let (pipe, taken) := fill (t.pipes q) bytes
      (setPipe t q pipe, some taken)

/-- `ubiqos_io_read` on a pipe. -/
def pipeRead (t : Table n k f) (spot : Pid n × Fin k) (len : Nat) : Table n k f × Option (List Byte) :=
  match (t.paths spot).inn with
  | none => (t, none)
  | some q =>
    let (pipe, bytes) := drain (t.pipes q) len
    (setPipe t q pipe, some bytes)

/-- `ubiqos_io_at_eof` of a pipe end. -/
def pipeAtEof (t : Table n k f) (spot : Pid n × Fin k) : Bool :=
  match (t.paths spot).pipe with
  | none => false
  | some q => !(t.paths spot).write && pipeUsed (t.pipes q) = 0 && (t.pipes q).writers = 0

end Functions

end Ubiqos.Io
