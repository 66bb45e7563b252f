import Ubiqos.Io.Accounts
import Ubiqos.Io.Resolve

/-!
Files by descriptor: the requests of `kernel/fsserver.c` that open, read, write and
seek, over the path table. A path is resolved when it is opened and kept in the
entry; every transfer splits it anew. What a volume answers comes with the request.

`origin` is not in the code. It says of each descriptor which path the `open` it
comes from resolved, be it by `dup` or from the parent.
-/

namespace Ubiqos.Io

open Function Machine

abbrev Origin (n k : Nat) := Pid n × Fin k → Option Text

structure Files (n k f : Nat) where
  table : Table n k f
  cwd : Pid n → Text
  mounted : List Text
  origin : Origin n k

inductive Request where
  | open (owner : Int) (name : Text) (flags : Nat) (found : Option (Bool × U32))
  | fdio (owner fd : Int) (answer : Int)
  | seek (owner fd : Int) (offset : U32) (size : Option U32)
  | fileSeek (owner fd : Int) (offset : U32) (whence : Nat)
  | chdir (owner : Int) (name : Text) (isDir : Bool)
  | exec (parent child : Int)
  | mount (name : Text)
  | unmount (name : Text)
  | table (op : Op)

section Server
variable {n k f : Nat}

def fileStart (n k f : Nat) : Files n k f := ⟨ioInit n k f, fun _ => [slash], [], fun _ => none⟩

def given (origin : Origin n k) (owner fd : Int) (path : Option Text) : Origin n k :=
  match place n k fd owner with
  | some spot => update origin spot path
  | none => origin

def originOf (origin : Origin n k) (fd owner : Int) : Option Text := (place n k fd owner).bind origin

def track (t : Table n k f) (origin : Origin n k) : Op → Origin n k
  | .openFile path owner => given origin owner (openFile t path owner).2 (some path)
  | .dup path newPath owner => given origin owner (dup t path newPath owner).2 (originOf origin path owner)
  | .close path owner => given origin owner path none
  | .inherit parent child =>
    match index n parent, index n child with
    | some parent, some child =>
      fun spot => if spot.1 = child then origin (parent, spot.2) else origin spot
    | _, _ => origin
  | .closeAll owner =>
    match index n owner with
    | some pid => fun spot => if spot.1 = pid then none else origin spot
    | none => origin
  | _ => origin

def call (s : Files n k f) (op : Op) : Files n k f :=
  { s with table := step s.table op, origin := track s.table s.origin op }

/-- `ubiqos_io_file_at`: the path in the entry. -/
def fileAt (t : Table n k f) (fd owner : Int) : Option (Fin f) :=
  (fileEntry t fd owner).bind (fun spot => (t.paths spot).file)

def target (s : Files n k f) (fd owner : Int) : Option (Text × Text) :=
  (fileAt s.table fd owner).bind (fun i => vfsSplit s.mounted (s.table.files i).path)

def setPos (s : Files n k f) (i : Fin f) (pos : U32) : Files n k f :=
  { s with table := setFile s.table i { s.table.files i with pos := pos } }

def cwdOf (s : Files n k f) (owner : Int) : Text :=
  match index n owner with
  | some pid => s.cwd pid
  | none => [slash]

def fsRefused : Int := -2

/-- `is_path`: in lower case, the secret. -/
def isPath (abs secret : Text) : Bool :=
  abs.map (fun c => if 0x41 ≤ c ∧ c ≤ 0x5a then c + 32 else c) == secret

def text (s : String) : Text := s.toList.map (fun c => BitVec.ofNat 8 c.toNat)

def isSecret (abs : Text) : Bool :=
  isPath abs (text "/sd/config.txt") || isPath abs (text "/sd/wificfg.txt") ||
    isPath abs (text "/sd/unlock.key")

/-- `UBIQOS_MSG_FS_OPEN`. `found` is what `stat` answers: a directory or not, and the
size, zero where the file has then been truncated. -/
def fsOpen (s : Files n k f) (owner : Int) (name : Text) (flags : Nat) (found : Option (Bool × U32)) :
    Files n k f × Int :=
  let abs := makeAbs (cwdOf s owner) name
  if isSecret abs && flags % 4 != 1 then (s, fsRefused)
  else if (vfsSplit s.mounted abs).isNone then (s, -1)
  else if found.any (·.1) then (s, -1)
  else if found.isNone && !(flags.testBit 6 || flags.testBit 9) then (s, -1)
  else
    let size : U32 := (found.map (·.2)).getD 0
    let fd := (openFile s.table abs owner).2
    let s := call s (.openFile abs owner)
    if fd < 0 then (s, -1)
    else if flags.testBit 10 && size != 0 then
      match fileAt s.table fd owner with
      | some i => (setPos s i size, fd)
      | none => (s, fd)
    else (s, fd)

/-- `UBIQOS_MSG_FS_FDIO`: the transfer, then the position. -/
def fsFdio (s : Files n k f) (owner fd answer : Int) : Files n k f × Int :=
  match fileAt s.table fd owner, target s fd owner with
  | some i, some _ =>
    if 0 < answer then (setPos s i ((s.table.files i).pos + BitVec.ofInt 32 answer), answer)
    else (s, answer)
  | _, _ => (s, -1)

/-- `UBIQOS_MSG_FS_SEEK`: from the end, as long as the file is now. -/
def fsSeek (s : Files n k f) (owner fd : Int) (offset : U32) (size : Option U32) : Files n k f × Int :=
  match fileAt s.table fd owner, target s fd owner, size with
  | some i, some _, some size => (setPos s i (size + offset), (size + offset).toInt)
  | _, _, _ => (s, -1)

/-- `ubiqos_io_file_seek`. -/
def fileSeek (s : Files n k f) (owner fd : Int) (offset : U32) (whence : Nat) : Files n k f × Int :=
  match fileAt s.table fd owner with
  | some i =>
    if whence = 0 then (setPos s i offset, offset.toInt)
    else if whence = 1 then
      (setPos s i ((s.table.files i).pos + offset), ((s.table.files i).pos + offset).toInt)
    else (s, -1)
  | none => (s, -1)

/-- `ubiqos_cwd_set_of`. A path that does not fit is refused when as much of it as
fits has been copied. -/
def cwdSetOf (s : Files n k f) (owner : Int) (abs : Text) : Files n k f × Int :=
  match index n owner with
  | some pid => ({ s with cwd := update s.cwd pid (abs.take 63) }, if abs.length ≤ 63 then 0 else -1)
  | none => (s, -1)

/-- `UBIQOS_MSG_FS_CHDIR`. A volume's own root is taken on trust. -/
def fsChdir (s : Files n k f) (owner : Int) (name : Text) (isDir : Bool) : Files n k f × Int :=
  let abs := makeAbs (cwdOf s owner) name
  if abs.length ≤ 1 then cwdSetOf s owner abs
  else match vfsSplit s.mounted abs with
    | none => (s, -1)
    | some (_, rest) =>
      if 1 < rest.length && !isDir then (s, -1) else cwdSetOf s owner abs

/-- `UBIQOS_MSG_FS_EXEC`, once the process is there. -/
def fsExec (s : Files n k f) (parent child : Int) : Files n k f :=
  let s := call s (.inherit parent child)
  match index n parent, index n child with
  | some p, some c => { s with cwd := update s.cwd c ((s.cwd p).take 63) }
  | _, _ => s

def serve (s : Files n k f) : Request → Files n k f
  | .open owner name flags found => (fsOpen s owner name flags found).1
  | .fdio owner fd answer => (fsFdio s owner fd answer).1
  | .seek owner fd offset size => (fsSeek s owner fd offset size).1
  | .fileSeek owner fd offset whence => (fileSeek s owner fd offset whence).1
  | .chdir owner name isDir => (fsChdir s owner name isDir).1
  | .exec parent child => fsExec s parent child
  | .mount name => { s with mounted := if s.mounted.contains name then s.mounted else s.mounted ++ [name] }
  | .unmount name => { s with mounted := s.mounted.erase name }
  | .table (.openFile _ _) => s
  | .table op => call s op

end Server

end Ubiqos.Io
