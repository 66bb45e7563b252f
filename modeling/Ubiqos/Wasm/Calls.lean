import Mathlib.Data.BitVec
import Mathlib.Logic.Function.Basic
import Ubiqos.Lib.Guarded

/-!
The host's side of `modules/wasm/wasi.c`: the guest's memory and the ways the
host reaches into it, the kernel it calls and the table of the descriptors it
opened. A pointer is an offset into the guest's memory, counted in 32 bits.
-/

namespace Ubiqos.Wasm

open Function Guarded.Program

abbrev Byte := BitVec 8
abbrev Text := List Byte
abbrev U32 := BitVec 32

def ascii (s : String) : Text := s.toList.map (fun c => BitVec.ofNat 8 c.toNat)

/-- Where the host got a pointer: an argument of the call, or an entry of its
list of buffers. -/
inductive Source
  | argument (index : Nat)
  | iovec (index : Nat)
  deriving DecidableEq

abbrev Range := Guarded.Range Source

inductive Stop
  | trapped
  | returned (code : Nat)
  deriving DecidableEq

/-- The calls `wasi.c` makes. What a read or a random call gives fits the buffer. -/
structure Kernel (κ : Type) where
  write : κ → Int → Text → Int × κ
  read : κ → Int → Nat → Option Text × κ
  readFits : ∀ k fd n, ∀ got ∈ (read k fd n).1, got.length ≤ n
  random : κ → Nat → Option Text × κ
  randomFits : ∀ k n, ∀ got ∈ (random k n).1, got.length ≤ n
  opens : κ → Text → Nat → Int × κ
  close : κ → Int → Int × κ
  seek : κ → Int → Int → Int → Int × κ
  stat : κ → Text → Option (Nat × Nat)
  remove : κ → Text → Int × κ
  dirAt : κ → Text → Nat → Option (Text × Nat)
  getcwd : κ → Text
  ticks : κ → Nat × κ
  sleep : κ → Nat → κ
  font : κ → Option (Nat × Nat)

def maxTracked : Nat := 16

/-- `wasi_paths`. An entry whose descriptor is zero is free. -/
structure Tracked where
  fd : Int
  isDir : Bool
  doomed : Bool
  name : Text
  deriving DecidableEq

structure Host (κ : Type) where
  mem : Nat → Byte
  paths : Fin maxTracked → Tracked
  kernel : κ
  exitCode : Option Nat

abbrev Wasi (κ α : Type) : Type := Guarded.Program Source (Host κ) Stop α

section Memory
variable {κ : Type}

def moved (p d : Nat) : Nat := (p + d) % 2 ^ 32

def checkMem (size : Nat) (source : Source) (p len : Nat) : Wasi κ Unit :=
  check size .trapped ⟨source, p, len⟩

def fetch (source : Source) (p d n : Nat) : Wasi κ Text := do
  touch ⟨source, moved p d, n⟩
  act fun h => ((List.range n).map fun i => h.mem (moved p d + i), h)

def overlay (mem : Nat → Byte) (start : Nat) (bytes : Text) (i : Nat) : Byte :=
  if start ≤ i then (bytes[i - start]?).getD (mem i) else mem i

def store (source : Source) (p d : Nat) (bytes : Text) : Wasi κ Unit := do
  touch ⟨source, moved p d, bytes.length⟩
  act fun h => ((), { h with mem := overlay h.mem (moved p d) bytes })

def number : Text → Nat
  | [] => 0
  | b :: rest => b.toNat + 256 * number rest

def bytesOf : Nat → Nat → Text
  | 0, _ => []
  | n + 1, v => BitVec.ofNat 8 v :: bytesOf n (v / 256)

def fetchNumber (source : Source) (p d n : Nat) : Wasi κ Nat := do
  return number (← fetch source p d n)

def storeNumber (source : Source) (p d n v : Nat) : Wasi κ Unit := store source p d (bytesOf n v)

def finish (code : Nat) : Wasi κ α := stop (.returned code)

end Memory

section Paths
variable {κ : Type}

def placeFor (paths : Fin maxTracked → Tracked) (fd : Int) : Option (Fin maxTracked) :=
  (List.finRange maxTracked).find? fun i => (paths i).fd = 0 || (paths i).fd = fd

def rememberKind (fd : Int) (name : Text) (isDir : Bool) (h : Host κ) : Host κ :=
  match placeFor h.paths fd with
  | some i => { h with paths := update h.paths i ⟨fd, isDir, false, name.take 47⟩ }
  | none => h

def trackedAs (h : Host κ) (fd : Int) : Option Tracked :=
  ((List.finRange maxTracked).find? fun i => (h.paths i).fd = fd).map h.paths

def isDir (h : Host κ) (fd : Int) : Bool := ((trackedAs h fd).map Tracked.isDir).getD false

def nameOf (h : Host κ) (fd : Int) : Option Text := (trackedAs h fd).map Tracked.name

def isDoomed (h : Host κ) (fd : Int) : Bool := ((trackedAs h fd).map Tracked.doomed).getD false

def forget (fd : Int) (h : Host κ) : Host κ :=
  { h with paths := fun i => if (h.paths i).fd = fd then { h.paths i with fd := 0 } else h.paths i }

def doom (name : Text) (h : Host κ) : Bool × Host κ :=
  let held := fun i => (h.paths i).fd ≠ 0 ∧ (h.paths i).name = name
  ((List.finRange maxTracked).any fun i => held i,
    { h with paths := fun i => if held i then { h.paths i with doomed := true } else h.paths i })

def sweepDoomed (kernel : Kernel κ) (h : Host κ) : Host κ :=
  (List.finRange maxTracked).foldl (fun h i =>
    if (h.paths i).fd ≠ 0 ∧ (h.paths i).doomed then
      { h with
        paths := update h.paths i { h.paths i with fd := 0 }
        kernel := (kernel.remove h.kernel (h.paths i).name).2 }
    else h) h

end Paths

def cText (bytes : Text) : Text := bytes.takeWhile (· ≠ 0)

def attrDirectory : Nat := 0x10

section Names
variable {κ : Type} (kernel : Kernel κ) (k : κ)

def isDirectory (name : Text) : Bool :=
  match kernel.stat k name with
  | some (attr, _) => attr &&& attrDirectory ≠ 0
  | none => false

def firstIsVolume (path : Text) : Bool :=
  let first := path.takeWhile (· ≠ 0x2f)
  if 64 < first.length then false
  else if first = [] then true
  else isDirectory kernel k (cText (0x2f :: first))

/-- Leading `./` folded away. -/
def folded : Text → Text
  | 0x2e :: 0x2f :: rest => folded rest
  | path => path

/-- `wasi_path_name`, into a buffer of `cap` bytes. -/
def pathName (path : Text) (cap : Nat) : Option Text :=
  let path := folded path
  if path = [] ∨ path = [0x2e] then some [0x2f]
  else
    let cwd := kernel.getcwd k
    if !firstIsVolume kernel k path ∧ cwd ≠ [] ∧ cwd ≠ [0x2f] then
      if cap - 1 < cwd.length ∨ cap < cwd.length + path.length + 2 then none
      else some (cText (cwd ++ 0x2f :: path))
    else if cap < path.length + 2 then none
    else some (cText (0x2f :: path))

end Names

end Ubiqos.Wasm

/-!
The functions of `modules/wasm/wasi.c`, each with what it checks and touches of
the guest's memory in the order of the C. A loop that copies a run of bytes is
one store. Arguments are numbered from zero.
-/

namespace Ubiqos.Wasm

open Guarded.Program

def ok : Nat := 0
def ebadf : Nat := 8
def einval : Nat := 28
def enoent : Nat := 44

def preopenFd : Nat := 3
def preopentypeDir : Nat := 0

/-- What the program is started with. All of it lies in the machine's memory. -/
structure Args where
  list : List Text
  fits : 4 * list.length + (list.map fun arg => arg.length + 1).sum < 2 ^ 32

def Args.bytes (args : Args) : Nat := (args.list.map fun arg => arg.length + 1).sum

section Calls
variable {κ : Type} (kernel : Kernel κ) (size : Nat) (args : Args)

def asks (f : κ → α × κ) : Wasi κ α :=
  act fun h => ((f h.kernel).1, { h with kernel := (f h.kernel).2 })

/-- The loop over a list of buffers. `transfer` moves one buffer's bytes and says
how many there were and whether to go on. -/
def iovecs (iovs : Nat) (transfer : Nat → Nat → Nat → Wasi κ (Nat × Bool)) :
    Nat → Nat → Nat → Wasi κ Nat
  | 0, _, total => return total
  | n + 1, i, total => do
    let off ← fetchNumber (.argument 1) iovs (8 * i) 4
    let len ← fetchNumber (.argument 1) iovs (8 * i + 4) 4
    if len = 0 then iovecs iovs transfer n (i + 1) total
    else
      checkMem size (.iovec i) off len
      let passed ← transfer i off len
      if passed.2 then iovecs iovs transfer n (i + 1) ((total + passed.1) % 2 ^ 32)
      else return (total + passed.1) % 2 ^ 32

def vectored (transfer : Nat → Nat → Nat → Wasi κ (Nat × Bool)) (iovs iovsLen count : U32) :
    Wasi κ Unit := do
  checkMem size (.argument 1) iovs.toNat (iovsLen.toNat * 8 % 2 ^ 32)
  let total ← iovecs size iovs.toNat transfer iovsLen.toNat 0 0
  checkMem size (.argument 3) count.toNat 4
  storeNumber (.argument 3) count.toNat 0 4 total
  finish ok

def writeBuffer (fd : U32) (i off len : Nat) : Wasi κ (Nat × Bool) := do
  let bytes ← fetch (.iovec i) off 0 len
  let n ← asks fun k => kernel.write k fd.toInt bytes
  if n < 0 then finish ebadf else return (n.toNat, true)

def fdWrite (fd iovs iovsLen nwritten : U32) : Wasi κ Unit :=
  vectored size (writeBuffer kernel fd) iovs iovsLen nwritten

def readBuffer (fd : U32) (i off len : Nat) : Wasi κ (Nat × Bool) := do
  match ← asks fun k => kernel.read k fd.toInt len with
  | none => finish ebadf
  | some got =>
    store (.iovec i) off 0 got
    return (got.length, len ≤ got.length)

def fdRead (fd iovs iovsLen nread : U32) : Wasi κ Unit :=
  vectored size (readBuffer kernel fd) iovs iovsLen nread

def decimals : Nat → Nat → Text
  | 0, _ => []
  | n + 1, v =>
    BitVec.ofNat 8 (0x30 + v % 10) :: if v / 10 = 0 then [] else decimals n (v / 10)

/-- `wasi_env_prepare`: each string with its zero. -/
def environment (k : κ) : List Text :=
  let grid := (kernel.font k).getD (30, 80)
  let cwd := if kernel.getcwd k = [] then [0x2f] else (kernel.getcwd k).take 47
  [ascii "LINES=" ++ (decimals 8 grid.1).reverse ++ [0],
    ascii "COLUMNS=" ++ (decimals 8 grid.2).reverse ++ [0], ascii "PWD=" ++ cwd ++ [0]]

def environSizesGet (count bufSize : U32) : Wasi κ Unit := do
  checkMem size (.argument 0) count.toNat 4
  checkMem size (.argument 1) bufSize.toNat 4
  let env ← act fun h => (environment kernel h.kernel, h)
  storeNumber (.argument 0) count.toNat 0 4 env.length
  storeNumber (.argument 1) bufSize.toNat 0 4 env.flatten.length
  finish ok

def storeOffsets (source : Source) (vector : Nat) : List Text → Nat → Nat → Wasi κ Unit
  | [], _, _ => return ()
  | text :: rest, i, start => do
    storeNumber source vector (4 * i) 4 start
    storeOffsets source vector rest (i + 1) (start + text.length)

def environGet (env envBuf : U32) : Wasi κ Unit := do
  let texts ← act fun h => (environment kernel h.kernel, h)
  checkMem size (.argument 0) env.toNat (texts.length * 4)
  checkMem size (.argument 1) envBuf.toNat texts.flatten.length
  store (.argument 1) envBuf.toNat 0 texts.flatten
  storeOffsets (.argument 0) env.toNat texts 0 envBuf.toNat
  finish ok

def procExit (code : U32) : Wasi κ Unit := do
  act fun h => ((), { h with exitCode := some code.toNat })
  stop .trapped

def fdPrestatGet (fd prestat : U32) : Wasi κ Unit := do
  if fd.toNat ≠ preopenFd then finish ebadf
  checkMem size (.argument 1) prestat.toNat 8
  storeNumber (.argument 1) prestat.toNat 0 4 preopentypeDir
  storeNumber (.argument 1) prestat.toNat 4 4 1
  finish ok

def fdPrestatDirName (fd path pathLen : U32) : Wasi κ Unit := do
  if fd.toNat ≠ preopenFd then finish ebadf
  if pathLen.toNat < 1 then finish einval
  checkMem size (.argument 1) path.toNat 1
  store (.argument 1) path.toNat 0 [0x2f]
  finish ok

def openFlags (oflags : U32) (rightsBase : BitVec 64) (fdflags : U32) : Nat :=
  (if rightsBase &&& 0x40 ≠ 0 then 2 else 0) |||
    (if oflags &&& 1 ≠ 0 then 0x40 else 0) ||| (if oflags &&& 8 ≠ 0 then 0x200 else 0) |||
    (if fdflags &&& 1 ≠ 0 then 0x400 else 0)

/-- A directory is held by a descriptor of `/dev/null` and its remembered name. -/
def pathOpen (dirfd path pathLen oflags : U32) (rightsBase : BitVec 64) (fdflags outFd : U32) :
    Wasi κ Unit := do
  checkMem size (.argument 2) path.toNat pathLen.toNat
  checkMem size (.argument 8) outFd.toNat 4
  if dirfd.toNat ≠ preopenFd then finish ebadf
  let bytes ← fetch (.argument 2) path.toNat 0 pathLen.toNat
  match ← act fun h => (pathName kernel h.kernel bytes 80, h) with
  | none => finish einval
  | some name =>
    if ← act fun h => (isDirectory kernel h.kernel name, h) then
      let fd ← asks fun k => kernel.opens k (ascii "/dev/null") 0
      if fd < 0 then finish ebadf
      act fun h => ((), rememberKind fd name true h)
      storeNumber (.argument 8) outFd.toNat 0 4 fd.toNat
      finish ok
    else
      let fd ← asks fun k => kernel.opens k name (openFlags oflags rightsBase fdflags)
      if fd < 0 then finish enoent
      act fun h => ((), rememberKind fd name false h)
      storeNumber (.argument 8) outFd.toNat 0 4 fd.toNat
      finish ok

def fdClose (fd : U32) : Wasi κ Unit := do
  let victim ← act fun h =>
    (if isDoomed h fd.toInt then ((nameOf h fd.toInt).getD []).take 47 else [], h)
  act fun h => ((), forget fd.toInt h)
  let r ← asks fun k => kernel.close k fd.toInt
  if victim ≠ [] then let _ ← asks fun k => kernel.remove k victim
  finish (if r < 0 then ebadf else ok)

def fdSeek (fd : U32) (offset : BitVec 64) (whence outPos : U32) : Wasi κ Unit := do
  let pos ← asks fun k => kernel.seek k fd.toInt (offset.setWidth 32).toInt whence.toInt
  if pos < 0 then finish ebadf
  checkMem size (.argument 3) outPos.toNat 8
  storeNumber (.argument 3) outPos.toNat 0 8 pos.toNat
  finish ok

def fdFdstatGet (fd stat : U32) : Wasi κ Unit := do
  checkMem size (.argument 1) stat.toNat 24
  store (.argument 1) stat.toNat 0 (List.replicate 24 0)
  let dir ← act fun h => (isDir h fd.toInt, h)
  store (.argument 1) stat.toNat 0 [if fd.toNat = preopenFd ∨ dir then 3 else 2]
  finish ok

def fdFilestatGet (fd buf : U32) : Wasi κ Unit := do
  checkMem size (.argument 1) buf.toNat 64
  store (.argument 1) buf.toNat 0 (List.replicate 64 0)
  let length ← act fun h =>
    ((((nameOf h fd.toInt).bind (kernel.stat h.kernel)).map Prod.snd).getD 0, h)
  store (.argument 1) buf.toNat 16 [4]
  storeNumber (.argument 1) buf.toNat 32 8 length
  finish ok

def clockTimeGet (out : U32) : Wasi κ Unit := do
  checkMem size (.argument 2) out.toNat 8
  let now ← asks kernel.ticks
  storeNumber (.argument 2) out.toNat 0 8 (now * 1000000)
  finish ok

/-- The first loop of `poll_oneoff`: the shortest wait among the clocks, and
whether a descriptor is ready. -/
def subscriptions (input : Nat) : Nat → Nat → Option Nat → Bool → Wasi κ (Option Nat × Bool)
  | 0, _, wait, ready => return (wait, ready)
  | n + 1, i, wait, ready => do
    let tag ← fetchNumber (.argument 0) input (48 * i + 8) 1
    if tag ≠ 0 then subscriptions input n (i + 1) wait true
    else
      let timeout ← fetchNumber (.argument 0) input (48 * i + 24) 8
      let flags ← fetchNumber (.argument 0) input (48 * i + 40) 2
      let now ← if flags % 2 = 1 then asks kernel.ticks else pure 0
      let timeout := timeout - now * 1000000
      subscriptions input n (i + 1) (some (min timeout (wait.getD timeout))) ready

def answers (input out : Nat) : Nat → Nat → Wasi κ Unit
  | 0, _ => return ()
  | n + 1, i => do
    store (.argument 1) out (32 * i) (List.replicate 32 0)
    let userdata ← fetch (.argument 0) input (48 * i) 8
    store (.argument 1) out (32 * i) userdata
    storeNumber (.argument 1) out (32 * i + 8) 2 0
    let tag ← fetch (.argument 0) input (48 * i + 8) 1
    store (.argument 1) out (32 * i + 10) tag
    answers input out n (i + 1)

def pollOneoff (input out nsubs nevents : U32) : Wasi κ Unit := do
  if nsubs.toNat = 0 then
    storeNumber (.argument 3) nevents.toNat 0 4 0
    finish einval
  else
    checkMem size (.argument 0) input.toNat (nsubs.toNat * 48 % 2 ^ 32)
    checkMem size (.argument 1) out.toNat (nsubs.toNat * 32 % 2 ^ 32)
    checkMem size (.argument 3) nevents.toNat 4
    let waits ← subscriptions kernel input.toNat nsubs.toNat 0 none false
    if waits.2 = false ∧ 0 < waits.1.getD 0 then
      asks fun k => ((), kernel.sleep k (max 1 (waits.1.getD 0 / 1000000 % 2 ^ 32)))
    answers input.toNat out.toNat nsubs.toNat 0
    storeNumber (.argument 3) nevents.toNat 0 4 nsubs.toNat
    finish ok

def argsSizesGet (count bufSize : U32) : Wasi κ Unit := do
  checkMem size (.argument 0) count.toNat 4
  checkMem size (.argument 1) bufSize.toNat 4
  storeNumber (.argument 0) count.toNat 0 4 args.list.length
  storeNumber (.argument 1) bufSize.toNat 0 4 args.bytes
  finish ok

def storeArgs (argv buf : Nat) : List Text → Nat → Nat → Wasi κ Unit
  | [], _, _ => return ()
  | arg :: rest, i, at' => do
    storeNumber (.argument 0) argv (4 * i) 4 (moved buf at')
    store (.argument 1) buf at' (arg ++ [0])
    storeArgs argv buf rest (i + 1) (at' + (arg.length + 1))

def argsGet (argv buf : U32) : Wasi κ Unit := do
  checkMem size (.argument 0) argv.toNat (args.list.length * 4 % 2 ^ 32)
  checkMem size (.argument 1) buf.toNat (args.bytes % 2 ^ 32)
  storeArgs argv.toNat buf.toNat args.list 0 0
  finish ok

def randomFrom (buf len : Nat) : Nat → Nat → Wasi κ Unit
  | 0, _ => return ()
  | n + 1, done =>
    if done < len then do
      match ← asks fun k => kernel.random k (len - done) with
      | none => finish einval
      | some got =>
        store (.argument 0) buf done got
        if got = [] then finish einval else randomFrom buf len n (done + got.length)
    else return ()

def randomGet (buf len : U32) : Wasi κ Unit := do
  checkMem size (.argument 0) buf.toNat len.toNat
  randomFrom kernel buf.toNat len.toNat len.toNat 0
  finish ok

def pathFilestatGet (dirfd path pathLen buf : U32) : Wasi κ Unit := do
  checkMem size (.argument 2) path.toNat pathLen.toNat
  checkMem size (.argument 4) buf.toNat 64
  if dirfd.toNat ≠ preopenFd then finish ebadf
  let bytes ← fetch (.argument 2) path.toNat 0 pathLen.toNat
  match ← act fun h => ((pathName kernel h.kernel bytes 80).map (kernel.stat h.kernel), h) with
  | none => finish einval
  | some none => finish enoent
  | some (some (attr, length)) =>
    store (.argument 4) buf.toNat 0 (List.replicate 64 0)
    store (.argument 4) buf.toNat 16 [if attr &&& attrDirectory ≠ 0 then 3 else 4]
    storeNumber (.argument 4) buf.toNat 32 8 length
    finish ok

def pathUnlinkFile (dirfd path pathLen : U32) : Wasi κ Unit := do
  checkMem size (.argument 1) path.toNat pathLen.toNat
  if dirfd.toNat ≠ preopenFd then finish ebadf
  let bytes ← fetch (.argument 1) path.toNat 0 pathLen.toNat
  match ← act fun h => (pathName kernel h.kernel bytes 80, h) with
  | none => finish einval
  | some name =>
    if ← act (doom name) then finish ok
    let removed ← asks fun k => kernel.remove k name
    finish (if removed < 0 then enoent else ok)

def fdFdstatSetFlags : Wasi κ Unit := finish ok

def lower (c : Byte) : Byte := if 0x41 ≤ c ∧ c ≤ 0x5a then c + 0x20 else c

/-- `ubiqos_pretty_name`. -/
def prettyName (raw : Text) : Text :=
  if raw.length ≠ 11 ∨ 0x2e ∈ raw then raw
  else
    ((raw.take 8).takeWhile (· ≠ 0x20)).map lower ++
      if raw[8]? ≠ some 0x20 then 0x2e :: ((raw.drop 8).takeWhile (· ≠ 0x20)).map lower else []

def inode (dir name : Text) : Nat :=
  let mix := fun h (c : Byte) => (h ^^^ c.toNat) * 1099511628211 % 2 ^ 64
  let h := name.foldl mix (mix (dir.foldl mix 1469598103934665603) 0x2f)
  if h = 0 then 1 else h

def entriesFrom (dir : Text) (buf bufLen : Nat) : Nat → Nat → Nat → Wasi κ Nat
  | 0, used, _ => return used
  | n + 1, used, index => do
    match ← act fun h => (kernel.dirAt h.kernel dir index, h) with
    | none => return used
    | some (raw, attr) =>
      let name := prettyName raw
      if bufLen < (used + 24) % 2 ^ 32 then return used
      else
        store (.argument 1) buf used (List.replicate 24 0)
        storeNumber (.argument 1) buf used 8 ((index + 1) % 2 ^ 32)
        storeNumber (.argument 1) buf (used + 8) 8 (inode dir name)
        storeNumber (.argument 1) buf (used + 16) 4 name.length
        store (.argument 1) buf (used + 20) [if attr &&& attrDirectory ≠ 0 then 3 else 4]
        let used := used + 24
        let taken := name.take (bufLen - used)
        store (.argument 1) buf used taken
        if taken.length < name.length then return used + taken.length
        else entriesFrom dir buf bufLen n (used + taken.length) ((index + 1) % 2 ^ 32)

def fdReaddir (fd buf bufLen : U32) (cookie : BitVec 64) (bufused : U32) : Wasi κ Unit := do
  checkMem size (.argument 1) buf.toNat bufLen.toNat
  checkMem size (.argument 4) bufused.toNat 4
  match ← act fun h =>
      (if isDir h fd.toInt then nameOf h fd.toInt
        else if fd.toNat = preopenFd then some [0x2f] else none, h) with
  | none =>
    storeNumber (.argument 4) bufused.toNat 0 4 0
    finish ebadf
  | some dir =>
    let used ← entriesFrom kernel dir buf.toNat bufLen.toNat (bufLen.toNat + 1) 0
      (cookie.setWidth 32).toNat
    storeNumber (.argument 4) bufused.toNat 0 4 used
    finish ok

end Calls

end Ubiqos.Wasm
