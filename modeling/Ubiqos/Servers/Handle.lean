import Ubiqos.Io.Descriptors
import Ubiqos.Kernel.Scheduler

/-!
What the filesystem server of `kernel/fsserver.c` does with one message. What it calls in
other files is an act, and so is following a pointer; what it only looks up there (flags,
the volume table, where the pointers lead) is read from a view of the rest of the kernel.
What is printed is left out.
-/

namespace Ubiqos.Servers

open Acting Io

inductive Kind
  | read | write | remove | dir | mkdir | chdir | rmdir | mount | open | fdio | stat | loadmod
  | usbdisk | exec | seek | rename | keyset | path | config
  deriving DecidableEq

def kinds : List Kind :=
  [.read, .write, .remove, .dir, .mkdir, .chdir, .rmdir, .mount, .open, .fdio, .stat, .loadmod,
    .usbdisk, .exec, .seek, .rename, .keyset, .path, .config]

/-- `UBIQOS_MSG_FS_READ` is two. -/
def kindOf (type : U32) : Option Kind := if type.toNat < 2 then none else kinds[type.toNat - 2]?

inductive VolumeOp
  | readAt | writeAt | remove | rename | mkdir | rmdir | stat | statNth
  deriving DecidableEq

inductive Act
  | follow (pointer : Addr)
  | store (pointer : Addr) (value : U32)
  | give (pointer : Addr) (path : Text)
  | readAt (volume path : Text) (offset : U32) (buf : Addr) (len : U32)
  | writeAt (volume path : Text) (offset : U32) (buf : Addr) (len : U32)
  | writeToken (volume path : Text)
  | remove (volume path : Text)
  | rename (volume source target : Text)
  | mkdir (volume path : Text)
  | rmdir (volume path : Text)
  | stat (volume path : Text)
  | statNth (volume path : Text) (index : U32)
  | rootNth (index : U32)
  | vfsAdd (volume : Text)
  | vfsRemove (volume : Text)
  | sdForget
  | sdInit
  | sdTrySdio
  | fatMount
  | mscHandOver
  | mscTakeBack
  | keysDestroy
  | keysUnattended
  | keysUnattendedOn
  | keysUnattendedOff
  | keysUnlock (request : Addr)
  | keysSet (request : Addr)
  | keysRemove (request : Addr)
  | configStore (request : Addr)
  | openFile (path : Text) (owner : Int)
  | fileSeek (fd owner offset : Int)
  | fileAdvance (fd owner count : Int)
  | processCreate (module args : Addr) (parent : Int)
  | ioInherit (parent child : Int)
  | cwdInherit (parent child : Int)
  | cwdSet (pid : Int) (path : Text)
  | loadModule (name : Text)
  | sockHandle (request : Addr) (client : Int)
  deriving DecidableEq

structure Reply where
  rc : Int
  size : U32

/-- What both servers keep in variables of their own, and everything else. -/
structure Own (σ : Type) where
  cardMounted : Bool
  searchPath : Text
  served : U32
  why : U32
  lastop : U32
  lastreply : U32
  rest : σ

structure FsIo where
  name : Addr
  offset : U32
  buf : Addr
  len : U32

structure FsDir where
  path : Addr
  index : U32

structure FsOpen where
  name : Addr
  flags : U32

structure FsFdio where
  fd : Int
  buf : Addr
  len : U32
  write : U32

structure FsStat where
  name : Addr
  size : Addr

structure FsExec where
  module : Addr
  args : Addr

structure FsSeek where
  fd : Int
  offset : U32

structure FsRename where
  source : Addr
  target : Addr

structure KeyReq where
  op : U32
  index : U32
  len : U32

structure FsPath where
  set : Addr
  out : Addr
  cap : U32

/-- What the server reads of the rest of the kernel, and where pointers lead. -/
structure View (σ : Type) where
  sdFailed : σ → Bool
  hostHasCard : σ → Bool
  isSdio : σ → Bool
  mounted : σ → List Text
  offers : σ → Text → VolumeOp → Bool
  cwdOf : σ → Int → Text
  fileAt : σ → Int → Int → Option (Text × U32)
  string : σ → Addr → Text
  fsIo : σ → Addr → FsIo
  fsDir : σ → Addr → FsDir
  fsOpen : σ → Addr → FsOpen
  fsFdio : σ → Addr → FsFdio
  fsStat : σ → Addr → FsStat
  fsExec : σ → Addr → FsExec
  fsSeek : σ → Addr → FsSeek
  fsRename : σ → Addr → FsRename
  keyReq : σ → Addr → KeyReq
  fsPath : σ → Addr → FsPath
  sockOp : σ → Addr → U32

abbrev Work (σ : Type) := Program Act Reply (Own σ)

section Handle
variable {σ : Type} (view : View σ) {n : Nat}

def request {Request : Type} (at_ : σ → Addr → Request) (p : Addr) : Work σ Request := do
  let _ ← perform (.follow p)
  return at_ (← look).rest p

def makeAbs (client : Int) (name : Addr) : Work σ Text := do
  let name ← if name = 0 then pure [] else request view.string name
  return Io.makeAbs (view.cwdOf (← look).rest client) name

def split (abs : Text) : Work σ (Option (Text × Text)) := do
  return vfsSplit (view.mounted (← look).rest) abs

/-- `VOLUME_OR_FAIL`. -/
def volumeOrFail (abs : Text) (op : VolumeOp) (call : Text → Text → Work σ Int) : Work σ Int := do
  match ← split view abs with
  | none => return -1
  | some (volume, path) =>
    if view.offers (← look).rest volume op then call volume path else return -1

def result (what : Act) : Work σ Int := do
  return (← perform what).rc

def truth (what : Act) : Work σ Int := do
  return if (← perform what).rc ≠ 0 then 0 else -1

def sd : Text := text "sd"
def keyFile : Text := text "/sd/unlock.key"

def dropCardIfDead : Work σ Unit := do
  let own ← look
  if own.cardMounted && view.sdFailed own.rest then
    let _ ← perform (.vfsRemove sd)
    let _ ← perform .sdForget
    change fun own => { own with cardMounted := false }

def keyFilePresent : Work σ Bool := do
  match ← split view keyFile with
  | none => return false
  | some (volume, path) =>
    if view.offers (← look).rest volume .stat then return 0 ≤ (← perform (.stat volume path)).rc
    else return false

def keyFileRemove : Work σ Unit := do
  match ← split view keyFile with
  | none => return ()
  | some (volume, path) =>
    if view.offers (← look).rest volume .remove then
      let _ ← perform (.remove volume path)

def keyFileWrite : Work σ Int := do
  match ← split view keyFile with
  | none => return -1
  | some (volume, path) =>
    let own ← look
    if view.offers own.rest volume .writeAt then
      if view.offers own.rest volume .remove then
        let _ ← perform (.remove volume path)
      return if (← perform (.writeToken volume path)).rc = 32 then 0 else -1
    else return -1

def keyUnattended (what : U32) : Work σ Int := do
  if what = 2 then
    let on ← perform .keysUnattended
    let there ← keyFilePresent view
    return (if on.rc ≠ 0 then 1 else 0) + (if there then 2 else 0)
  else if what = 0 then
    let rc := (← perform .keysUnattendedOff).rc
    if rc = 0 then keyFileRemove view
    return rc
  else
    let rc := (← perform .keysUnattendedOn).rc
    if rc = 0 then return if (← keyFileWrite view) ≠ 0 then -8 else rc
    else return rc

def keyset (p : Addr) : Work σ Int := do
  let r ← request view.keyReq p
  if r.op = 7 then
    let rc := (← perform .keysDestroy).rc
    if rc = 0 then keyFileRemove view
    return rc
  else if r.op = 10 then keyUnattended view r.index
  else if r.op = 4 then result (.keysUnlock p)
  else if r.len ≠ 0 then result (.keysSet p)
  else result (.keysRemove p)

def renameFile (client : Int) (p : Addr) : Work σ Int := do
  let r ← request view.fsRename p
  let abs ← makeAbs view client r.source
  let abs2 ← makeAbs view client r.target
  match ← split view abs, ← split view abs2 with
  | some (a, source), some (b, target) =>
    if a ≠ b then return -1
    else if !view.offers (← look).rest a .rename then return -1
    else if isSecret abs then return fsRefused
    else truth (.rename a source target)
  | _, _ => return -1

def openFile (client : Int) (p : Addr) : Work σ Int := do
  let o ← request view.fsOpen p
  let abs ← makeAbs view client o.name
  if isSecret abs && o.flags.toNat % 4 != 1 then return fsRefused
  else
    match ← split view abs with
    | none => return -1
    | some (volume, path) =>
      let own ← look
      let found ← if view.offers own.rest volume .stat then perform (.stat volume path)
        else pure ⟨-1, 0⟩
      let creating := o.flags.toNat.testBit 6 || o.flags.toNat.testBit 9
      if 0 ≤ found.rc ∧ found.rc.toNat.testBit 4 then return -1
      else if found.rc < 0 ∧ !creating then return -1
      else
        let emptied := o.flags.toNat.testBit 9 && 0 ≤ found.rc &&
          view.offers (← look).rest volume .remove
        if emptied then
          let _ ← perform (.remove volume path)
        let size := if emptied then 0 else found.size
        let fd := (← perform (.openFile abs client)).rc
        if fd < 0 then return -1
        else
          if o.flags.toNat.testBit 10 && size != 0 then
            let _ ← perform (.fileSeek fd client size.toInt)
          return fd

def seekFile (client : Int) (p : Addr) : Work σ Int := do
  let k ← request view.fsSeek p
  match view.fileAt (← look).rest k.fd client with
  | none => return -1
  | some (stored, _) => volumeOrFail view stored .stat fun volume path => do
    let found ← perform (.stat volume path)
    if found.rc < 0 then return -1
    else result (.fileSeek k.fd client (found.size + k.offset).toInt)

def transferFile (client : Int) (p : Addr) : Work σ Int := do
  let r ← request view.fsFdio p
  match view.fileAt (← look).rest r.fd client with
  | none => return -1
  | some (stored, pos) =>
    volumeOrFail view stored (if r.write ≠ 0 then .writeAt else .readAt) fun volume path => do
      let count ← result (if r.write ≠ 0 then .writeAt volume path pos r.buf r.len
        else .readAt volume path pos r.buf r.len)
      if 0 < count then
        let _ ← perform (.fileAdvance r.fd client count)
      return count

def exec (client : Int) (p : Addr) : Work σ Int := do
  let e ← request view.fsExec p
  let pid := (← perform (.processCreate e.module e.args client)).rc
  if 0 ≤ pid then
    let _ ← perform (.ioInherit client pid)
    let _ ← perform (.cwdInherit client pid)
  return pid

def addCard : Work σ Int := do
  if (← perform (.vfsAdd sd)).rc ≠ 0 then
    change fun own => { own with cardMounted := true }
    return 0
  else return -1

def cardBringUp (trySdio : Bool) : Work σ Int := do
  if (← perform (if trySdio then .sdTrySdio else .sdInit)).rc = 0 then return -1
  else if (← perform .fatMount).rc = 0 then return -1
  else addCard

def usbdisk (what : Nat) : Work σ Int := do
  let own ← look
  if what = 1 then
    if !own.cardMounted then return -1
    else if (← perform .mscHandOver).rc = 0 then return -1
    else
      let _ ← perform (.vfsRemove sd)
      change fun own => { own with cardMounted := false }
      return 0
  else if view.hostHasCard own.rest && what ≠ 2 then return -2
  else
    let _ ← perform .mscTakeBack
    if (← perform .fatMount).rc = 0 then return -1
    else if (← look).cardMounted then return 0
    else addCard

def mount (what : Nat) : Work σ Int := do
  let own ← look
  if view.hostHasCard own.rest then return -2
  else if what = 2 then
    return if own.cardMounted then (if view.isSdio own.rest then 1 else 0) else -1
  else cardBringUp (what = 1)

def pathIsValid (path : Text) : Bool :=
  path.length ≤ 127 && (path == [] || (path.splitOn 0x3a).all (·.head? == some slash))

def pathRequest (p : Addr) : Work σ Int := do
  let r ← request view.fsPath p
  let set ← if r.set = 0 then pure none else some <$> request view.string r.set
  match set with
  | some path =>
    if !pathIsValid path then return -1
    else change fun own => { own with searchPath := path }
  | none => pure ()
  if r.out ≠ 0 ∧ r.cap ≠ 0 then
    let _ ← perform (.give r.out ((← look).searchPath.take (r.cap.toNat - 1)))
  return 0

def loadModuleFromCard (p : Addr) : Work σ Int := do
  let name ← request view.string p
  if name = [] ∨ 15 < name.length ∨ slash ∈ name then return -1
  else truth (.loadModule name)

def isDirectory (abs : Text) : Work σ Bool := do
  if abs.drop 1 = [] then return true
  else
    match ← split view abs with
    | none => return false
    | some (volume, path) =>
      if path.drop 1 = [] then return true
      else if !view.offers (← look).rest volume .statNth then return false
      else return 0 ≤ (← perform (.statNth volume path 0)).rc

def changeDir (client : Int) (p : Addr) : Work σ Int := do
  let abs ← makeAbs view client p
  if ← isDirectory view abs then truth (.cwdSet client abs) else return -1

/-- The cases of `handle`. -/
def dispatch (client : Int) (m : Msg n) : Option Kind → Work σ Int
  | some .read => do
    let r ← request view.fsIo m.data
    let abs ← makeAbs view client r.name
    if isSecret abs then return fsRefused
    else volumeOrFail view abs .readAt fun volume path =>
      result (.readAt volume path r.offset r.buf r.len)
  | some .write => do
    let r ← request view.fsIo m.data
    let abs ← makeAbs view client r.name
    volumeOrFail view abs .writeAt fun volume path =>
      result (.writeAt volume path r.offset r.buf r.len)
  | some .remove => do
    let abs ← makeAbs view client m.data
    volumeOrFail view abs .remove fun volume path => truth (.remove volume path)
  | some .keyset => keyset view m.data
  | some .config => do
    let _ ← perform (.follow m.data)
    result (.configStore m.data)
  | some .rename => renameFile view client m.data
  | some .mkdir => do
    let abs ← makeAbs view client m.data
    volumeOrFail view abs .mkdir fun volume path => truth (.mkdir volume path)
  | some .rmdir => do
    let abs ← makeAbs view client m.data
    volumeOrFail view abs .rmdir fun volume path => truth (.rmdir volume path)
  | some .open => openFile view client m.data
  | some .seek => seekFile view client m.data
  | some .fdio => transferFile view client m.data
  | some .stat => do
    let r ← request view.fsStat m.data
    let abs ← makeAbs view client r.name
    if abs.drop 1 = [] then
      if r.size ≠ 0 then
        let _ ← perform (.store r.size 0)
      return 0x10
    else volumeOrFail view abs .stat fun volume path => do
      let found ← perform (.stat volume path)
      if r.size ≠ 0 then
        let _ ← perform (.store r.size found.size)
      return found.rc
  | some .exec => exec view client m.data
  | some .usbdisk => usbdisk view m.data
  | some .loadmod => loadModuleFromCard view m.data
  | some .path => pathRequest view m.data
  | some .mount => mount view m.data
  | some .dir => do
    let d ← request view.fsDir m.data
    let abs ← makeAbs view client d.path
    if abs.drop 1 = [] then result (.rootNth d.index)
    else volumeOrFail view abs .statNth fun volume path => result (.statNth volume path d.index)
  | some .chdir => changeDir view client m.data
  | none => return -1

def handle (client : Int) (m : Msg n) : Work σ Int := do
  dropCardIfDead view
  dispatch view client m (kindOf m.type)

/-- `ubiqos_lwip_serve`, with what it has received. -/
def lwipServe (client : Int) (m : Msg n) : Work σ Int := do
  change fun own => { own with served := own.served + 1 }
  if m.type ≠ 14 then
    change fun own => { own with why := 99 }
    return -1
  else
    let _ ← perform (.follow m.data)
    let rc ← result (.sockHandle m.data client)
    change fun own =>
      { own with lastop := view.sockOp own.rest m.data, lastreply := BitVec.ofInt 32 rc }
    return rc

end Handle

end Ubiqos.Servers
