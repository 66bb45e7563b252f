import Ubiqos.Fat.Directory

/-!
The calls of `modules/fat32lib/fat32lib.c`: what a file server asks of the
volume. Each one ends with the answer the C function returns.
-/

namespace Ubiqos.Fat

open Function

def bytesPerCluster (v : Volume) : Nat := v.sectorsPerCluster * 512

/-- A number handed back as an `int32_t`. -/
def int32 (n : Nat) : Int := if n < 2 ^ 31 then n else (n : Int) - 2 ^ 32

def forgetReadCache : Prog Fs Unit :=
  modify (fun s => { s with ra := { s.ra with valid := false } })

/-- `ubiqos_fat_stat`: the attribute and the size, or nothing for -1. -/
def stat (path : CString) : Prog Fs (Option (Byte × Nat)) := do
  if !(← get).mounted then return none
  else if path.bytes = [] ∨ path.bytes = [chr '/'] then return some (0x10, 0)
  else
    match ← resolveParent path.bytes with
    | none => return none
    | some (dir, leaf) =>
      match ← findEntry dir leaf.name83 (some leaf.long) with
      | none => return none
      | some e => return some (e.attr, e.size)

def samePath : List Byte → List Byte → Bool
  | a :: left, b :: right => a == b && samePath left right
  | [], [] => true
  | _, _ => false

/-- The first half of `ubiqos_fat_read_at`: have the file in the read cache. -/
def remember (path : List Byte) : Prog Fs Bool := do
  let s ← get
  if s.ra.valid && samePath path s.ra.path then return true
  else
    match ← resolveParent path with
    | none => return false
    | some (dir, leaf) =>
      match ← findEntry dir leaf.name83 (some leaf.long) with
      | none => return false
      | some e =>
        if e.isDir then return false
        else
          modify (fun s => { s with
            ra := ⟨path.take 63, true, e.cluster, e.size, 0, e.cluster⟩ })
          return true

/-- Follows the chain forward from the remembered cluster, `n` links. -/
def spool : Nat → Prog Fs Bool
  | 0 => return true
  | n + 1 => do
    let cluster ← fatNextCluster (← get).ra.cluster
    modify (fun s => { s with ra := { s.ra with cluster := cluster } })
    if chainEnd ≤ cluster then
      forgetReadCache
      return false
    else
      modify (fun s => { s with ra := { s.ra with index := s.ra.index + 1 } })
      spool n

def seekCluster (want : Nat) : Prog Fs Bool := do
  modify (fun s =>
    if want < s.ra.index then { s with ra := { s.ra with index := 0, cluster := s.ra.first } }
    else s)
  spool (want - (← get).ra.index)

/-- The bytes of a block from `pos` on, `n` at most. -/
def slice (b : Block) (pos n : Nat) : List Byte :=
  (List.range (min n (512 - pos))).map (fun i => b (pos + i))

/-- The sectors of a cluster from `s` on, `n` of them, until `len` bytes are read. -/
def readSectors (first len : Nat) : Nat → Nat → Nat → List Byte → Prog Fs (Bool × List Byte)
  | 0, _, _, out => return (true, out)
  | n + 1, s, pos, out => do
    if out.length < len then
      if ← readSector ((first + s) % 2 ^ 32) then
        let b := (← get).sector
        readSectors first len n (s + 1) 0 (out ++ slice b (pos % 512) (len - out.length))
      else return (false, out)
    else return (true, out)

def readClusters (len : Nat) : Nat → Nat → Nat → List Byte → Prog Fs (Bool × List Byte)
  | 0, _, _, _ => Prog.unending
  | n + 1, cluster, pos, out => do
    if cluster < chainEnd ∧ out.length < len then
      let v := (← get).volume
      let (ok, out) ← readSectors (v.clusterToLba cluster) len
        (v.sectorsPerCluster - pos / 512) (pos / 512) pos out
      if ok then readClusters len n (← fatNextCluster cluster) 0 out else return (false, out)
    else return (true, out)

/-- `ubiqos_fat_read_at`, with the bytes it has put in the caller's buffer. -/
def readAt (path : CString) (offset len : BitVec 32) : Prog Fs (Int × List Byte) := do
  if !(← get).mounted then return (-1, [])
  else if ← remember path.bytes then
    let size := (← get).ra.size
    if size ≤ offset.toNat then return (0, [])
    else
      let v := (← get).volume
      if ← seekCluster (offset.toNat / bytesPerCluster v) then
        let len := min len.toNat (size - offset.toNat)
        let (ok, out) ← readClusters len (len + 2) (← get).ra.cluster
          (offset.toNat % bytesPerCluster v) []
        return (if ok then int32 out.length else -1, out)
      else return (-1, [])
  else return (-1, [])

def listVisit (index : Nat) (a : Lfn × Nat) (slot : Slot) :
    Scan (Lfn × Nat) (Option (List Byte × Nat × Byte)) :=
  if slot.entry.isEnd then .stop none
  else if slot.entry.deleted then .more (lfnReset a.1, a.2)
  else if slot.entry.fragment then .more (lfnTake a.1 slot.entry, a.2)
  else if slot.entry.attr &&& 0x08 != 0 then .more (lfnReset a.1, a.2)
  else if slot.entry.attr &&& 0x02 != 0 then .more (lfnReset a.1, a.2)
  else if a.2 ≠ index then .more (lfnReset a.1, a.2 + 1)
  else
    let name := if a.1.valid ∧ a.1.name 0 ≠ 0 then a.1.text.take lfnMax else slot.entry.name
    .stop (some (name, slot.entry.size, slot.entry.attr))

/-- `ubiqos_fat_stat_nth`: the name, size and attribute, or nothing for -1. -/
def statNth (path : CString) (index : Nat) : Prog Fs (Option (List Byte × Nat × Byte)) := do
  if !(← get).mounted then return none
  else
    match ← resolveDir path.bytes with
    | none => return none
    | some dir =>
      let l ← freshLfn
      match ← scanChain readable fatNextCluster (listVisit index) none
          (walkLimit + 1) dir dir (l, 0) with
      | (.stop result, _) => return result
      | (.more _, _) => return none

/-- The entry found is in `sector`, at the offset found. -/
def heldEntry (off : Nat) : Prog Fs Entry := do return entryAt (← get).sector off

def remove (path : CString) : Prog Fs Bool := do
  forgetReadCache
  if !(← get).mounted then return false
  else
    match ← resolveParent path.bytes with
    | none => return false
    | some (dir, leaf) =>
      match ← dirFind dir leaf.name83 (some leaf.long) with
      | none => return false
      | some found =>
        let e ← heldEntry found.off
        if e.isDir then return false
        else if ← dirEraseRun dir found.first found.last then
          fatFreeChain e.cluster
          return true
        else return false

def putCluster (e : Entry) (cluster : Nat) : Entry :=
  wr16 (wr16 e 20 (cluster / 2 ^ 16)) 26 cluster

/-- Fills in the entry that `dir_create` left in `sector`, and writes it. -/
def fillEntry (lba off : Nat) (change : Entry → Entry) : Prog Fs Bool := do
  modify (fun s => { s with sector := setEntry s.sector off (change (entryAt s.sector off)) })
  writeSector lba

def rename (source target : CString) : Prog Fs Bool := do
  forgetReadCache
  if !(← get).mounted then return false
  else
    match ← resolveParent source.bytes with
    | none => return false
    | some (srcDir, srcLeaf) =>
      match ← dirFind srcDir srcLeaf.name83 (some srcLeaf.long) with
      | none => return false
      | some found =>
        let e ← heldEntry found.off
        match ← resolveParent target.bytes with
        | none => return false
        | some (dstDir, dstLeaf) =>
          match ← dirFind dstDir dstLeaf.name83 (some dstLeaf.long) with
          | some _ => return false
          | none =>
            match ← dirCreate dstDir dstLeaf with
            | none => return false
            | some (lba, off) =>
              if ← fillEntry lba off (fun named =>
                  wr32 (putCluster (update named 11 e.attr) e.cluster) 28 e.size) then
                -- the old name goes last, looked up again
                match ← dirFind srcDir srcLeaf.name83 (some srcLeaf.long) with
                | none => return false
                | some found => dirEraseRun srcDir found.first found.last
              else return false

/-- `n` links along the chain, growing it; `none` when the volume is full. -/
def skipTo : Nat → Nat → Prog Fs (Option Nat)
  | 0, cluster => return some cluster
  | n + 1, cluster => do
    let next ← fatGet cluster
    if chainEnd ≤ next then
      let fresh ← fatAlloc
      if fresh = 0 then return none
      else if ← fatPut cluster fresh then skipTo n fresh
      else return none
    else skipTo n next

/-- Puts the bytes of `buf` from `written` on into a block, from `pos` to its
end or until `len` are written. -/
def pour (b : Block) (pos : Nat) (buf : Nat → Byte) (written len : Nat) : Block := fun i =>
  if pos ≤ i ∧ i < 512 ∧ written + (i - pos) < len then buf (written + (i - pos)) else b i

/-- The sectors of a cluster from `s` on, `n` of them; the number of bytes
written so far, or nothing when the device fails. -/
def writeSectors (first : Nat) (buf : Nat → Byte) (len : Nat) :
    Nat → Nat → Nat → Nat → Prog Fs (Option Nat)
  | 0, _, _, written => return some written
  | n + 1, s, pos, written => do
    if written < len then
      let lba := (first + s) % 2 ^ 32
      let whole := pos % 512 = 0 ∧ 512 ≤ len - written
      if ← (if whole then return true else readSector lba) then
        modify (fun t => { t with sector := pour t.sector (pos % 512) buf written len })
        if ← writeSector lba then
          writeSectors first buf len n (s + 1) 0 (written + min (512 - pos % 512) (len - written))
        else return none
      else return none
    else return some written

def writeClusters (buf : Nat → Byte) (len : Nat) : Nat → Nat → Nat → Nat → Prog Fs Bool
  | 0, _, _, _ => Prog.unending
  | n + 1, cluster, pos, written => do
    let v := (← get).volume
    match ← writeSectors (v.clusterToLba cluster) buf len
        (v.sectorsPerCluster - pos / 512) (pos / 512) pos written with
    | none => return false
    | some written =>
      if written < len then
        match ← skipTo 1 cluster with
        | none => return false
        | some next => writeClusters buf len n next 0 written
      else return true

/-- Where the entry of the file to be written lies, its first cluster and its
size; the entry is made when the name is new. -/
def locate (dir : Nat) (leaf : Leaf) : Prog Fs (Option (Nat × Nat × Nat × Nat)) := do
  match ← dirFind dir leaf.name83 (some leaf.long) with
  | some found =>
    let e ← heldEntry found.off
    if e.isDir then return none else return some (found.lba, found.off, e.cluster, e.size)
  | none =>
    match ← dirCreate dir leaf with
    | none => return none
    | some (lba, off) =>
      if ← writeSector lba then return some (lba, off, 0, 0) else return none

def firstCluster (cluster : Nat) : Prog Fs (Option Nat) := do
  if cluster = 0 then
    let fresh ← fatAlloc
    return if fresh = 0 then none else some fresh
  else return some cluster

/-- `ubiqos_fat_write_at`; `len` is not zero and fits, or the answer is -1. -/
def writeAt (path : CString) (offset : BitVec 32) (buf : Nat → Byte) (len : BitVec 32) :
    Prog Fs Int := do
  forgetReadCache
  if !(← get).mounted ∨ len = 0 then return -1
  else
    match ← resolveParent path.bytes with
    | none => return -1
    | some (dir, leaf) =>
      match ← locate dir leaf with
      | none => return -1
      | some (lba, off, cluster, size) =>
        let v := (← get).volume
        match ← firstCluster cluster with
        | none => return -1
        | some first =>
          match ← skipTo (offset.toNat / bytesPerCluster v) first with
          | none => return -1
          | some cluster =>
            if ← writeClusters buf len.toNat (len.toNat + 1) cluster
                (offset.toNat % bytesPerCluster v) 0 then
              -- the entry is written last: it only claims bytes on the card
              if ← readSector lba then
                let reach := (offset + len).toNat
                if ← fillEntry lba off (fun e =>
                    let e := putCluster e first
                    let e := if size < reach then wr32 e 28 reach else e
                    update e 11 0x20) then return int32 len.toNat
                else return -1
              else return -1
            else return -1

def dotSector (fresh up : Nat) : Block :=
  let dirEntry (name : List Byte) (cluster : Nat) : Entry :=
    putCluster (update (nameEntry name) 11 0x10) cluster
  setEntry (setEntry (fun _ => 0) 0 (dirEntry dotName fresh)) 32 (dirEntry dotDotName up)

def mkdir (path : CString) : Prog Fs Bool := do
  forgetReadCache
  if !(← get).mounted then return false
  else
    match ← resolveParent path.bytes with
    | none => return false
    | some (dir, leaf) =>
      match ← dirFind dir leaf.name83 (some leaf.long) with
      | some _ => return false
      | none =>
        let fresh ← fatAlloc
        if fresh = 0 then return false
        else if ← clearCluster fresh then
          let v := (← get).volume
          modify (fun s => { s with
            sector := dotSector fresh (if dir = v.rootCluster then 0 else dir) })
          if ← writeSector (v.clusterToLba fresh) then
            match ← dirCreate dir leaf with
            | none => return false
            | some (lba, off) =>
              fillEntry lba off (fun named => putCluster (update named 11 0x10) fresh)
          else return false
        else return false

def emptyVisit (_ : Unit) (slot : Slot) : Scan Unit Bool :=
  if slot.entry.isEnd then .stop true
  else if slot.entry.deleted then .more ()
  else if slot.entry.fragment then .more ()
  else if slot.entry 0 = chr '.' then .more ()
  else .stop false

def dirEmpty (cluster : Nat) : Prog Fs Bool := do
  match ← scanChain writable fatNextCluster emptyVisit false
      (walkLimit + 1) cluster cluster () with
  | (.stop result, _) => return result
  | (.more _, _) => return true

def rmdir (path : CString) : Prog Fs Bool := do
  forgetReadCache
  if !(← get).mounted then return false
  else
    match ← resolveParent path.bytes with
    | none => return false
    | some (dir, leaf) =>
      if leaf.name83.head? = some (chr '.') then return false
      else
        match ← dirFind dir leaf.name83 (some leaf.long) with
        | none => return false
        | some found =>
          let e ← heldEntry found.off
          if !e.isDir then return false
          else if e.cluster < 2 ∨ e.cluster = (← get).volume.rootCluster then return false
          else if ← dirEmpty e.cluster then
            if ← dirEraseRun dir found.first found.last then
              fatFreeChain e.cluster
              return true
            else return false
          else return false

end Ubiqos.Fat
