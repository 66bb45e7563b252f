import Ubiqos.Lib.Prog

/-!
The card as `modules/fat32lib/fat32lib.c` sees it: numbered blocks behind two
requests that may fail, the two block buffers, and the File Allocation Table
with the one sector of it that is kept in memory.
-/

namespace Ubiqos.Fat

open Function

abbrev Byte := BitVec 8

/-- Five hundred and twelve bytes by offset. Nothing reads further on. -/
abbrev Block := Nat → Byte

def rd16 (p : Block) (i : Nat) : Nat := (p i).toNat + (p (i + 1)).toNat * 2 ^ 8

def rd32 (p : Block) (i : Nat) : Nat := rd16 p i + rd16 p (i + 2) * 2 ^ 16

def wr16 (p : Block) (i v : Nat) : Block :=
  update (update p i (BitVec.ofNat 8 v)) (i + 1) (BitVec.ofNat 8 (v / 2 ^ 8))

def wr32 (p : Block) (i v : Nat) : Block := wr16 (wr16 p i v) (i + 2) (v / 2 ^ 16)

/-- What `ubiqos_fat_mount` takes from the boot sector. -/
structure Volume where
  fatStartLba : Nat
  dataStartLba : Nat
  sectorsPerCluster : Nat
  rootCluster : Nat
  numFats : Nat
  sectorsPerFat : Nat
  clusterCount : Nat
  deriving DecidableEq

structure ReadCache where
  path : List Byte
  valid : Bool
  first : Nat
  size : Nat
  index : Nat
  cluster : Nat
  deriving DecidableEq

/-- The module's statics and the card. `faults` says how the next requests end:
`some junk` is a failure that leaves `junk` where the answer should be, and when
the list is used up the device answers. `stack n` is what the `n`-th search
finds in the memory of its accumulator. -/
structure Fs where
  volume : Volume
  mounted : Bool
  card : Nat → Block
  faults : List (Option Block)
  sector : Block
  fatbuf : Block
  fatbufLba : Nat
  allocHint : Nat
  ra : ReadCache
  stack : Nat → Nat → Byte
  calls : Nat

def invalidLba : Nat := 2 ^ 32 - 1

def chainEnd : Nat := 0x0ffffff8

/-- A walk along the table that passes more clusters goes on for ever: one that counts
entries as it goes round in a cycle has come to an end long before. -/
def walkLimit : Nat := 2 ^ 64

def request : Prog Fs (Option Block) := fun s =>
  match s.faults with
  | [] => some (none, s)
  | fault :: rest => some (fault, { s with faults := rest })

/-- `sd_read_block` into one of the two buffers. -/
def sdReadBlock (keep : Fs → Block → Fs) (lba : Nat) : Prog Fs Bool := do
  match ← request with
  | none => modify (fun s => keep s (s.card lba)); return true
  | some junk => modify (fun s => keep s junk); return false

/-- `sd_write_block` out of one of them. A failed write may leave anything. -/
def sdWriteBlock (held : Fs → Block) (lba : Nat) : Prog Fs Bool := do
  match ← request with
  | none => modify (fun s => { s with card := update s.card lba (held s) }); return true
  | some junk => modify (fun s => { s with card := update s.card lba junk }); return false

def readSector : Nat → Prog Fs Bool := sdReadBlock (fun s b => { s with sector := b })
def readFat : Nat → Prog Fs Bool := sdReadBlock (fun s b => { s with fatbuf := b })
def writeSector : Nat → Prog Fs Bool := sdWriteBlock Fs.sector
def writeFat : Nat → Prog Fs Bool := sdWriteBlock Fs.fatbuf

def Volume.clusterToLba (v : Volume) (cluster : Nat) : Nat :=
  (v.dataStartLba + (cluster + (2 ^ 32 - 2)) % 2 ^ 32 * v.sectorsPerCluster) % 2 ^ 32

def Volume.clusterEnd (v : Volume) : Nat := (v.clusterCount + 2) % 2 ^ 32

def fatOffset (cluster : Nat) : Nat := cluster * 4 % 2 ^ 32

def Volume.fatLba (v : Volume) (cluster : Nat) : Nat :=
  (v.fatStartLba + fatOffset cluster / 512) % 2 ^ 32

def entryIn (b : Block) (cluster : Nat) : Nat := rd32 b (fatOffset cluster % 512) % 2 ^ 28

/-- Reads the table through `sector`, past the kept copy. -/
def fatNextCluster (cluster : Nat) : Prog Fs Nat := do
  if ← readSector ((← get).volume.fatLba cluster) then
    return entryIn (← get).sector cluster
  else return 0x0fffffff

/-- The first lines of `fat_get` and `fat_put`: have the sector in `fatbuf`. -/
def loadFat (lba : Nat) : Prog Fs Bool := do
  if lba = (← get).fatbufLba then return true
  else if ← readFat lba then
    modify (fun s => { s with fatbufLba := lba })
    return true
  else
    modify (fun s => { s with fatbufLba := invalidLba })
    return false

def fatGet (cluster : Nat) : Prog Fs Nat := do
  if ← loadFat ((← get).volume.fatLba cluster) then
    return entryIn (← get).fatbuf cluster
  else return 0x0fffffff

/-- The sector in `fatbuf` goes to every copy of the table. -/
def writeCopies (lba : Nat) : Nat → Nat → Prog Fs Bool
  | 0, _ => return true
  | n + 1, f => do
    if ← writeFat ((lba + f * (← get).volume.sectorsPerFat) % 2 ^ 32) then
      writeCopies lba n (f + 1)
    else
      modify (fun s => { s with fatbufLba := invalidLba })
      return false

def putEntry (b : Block) (cluster value : Nat) : Block :=
  wr32 b (fatOffset cluster % 512)
    (rd32 b (fatOffset cluster % 512) / 2 ^ 28 * 2 ^ 28 + value % 2 ^ 28)

def fatPut (cluster value : Nat) : Prog Fs Bool := do
  let lba := (← get).volume.fatLba cluster
  if ← loadFat lba then
    modify (fun s => { s with fatbuf := putEntry s.fatbuf cluster value })
    writeCopies lba (← get).volume.numFats 0
  else return false

/-- The loop of `fat_alloc`, with the number of clusters still to look at. -/
def fatSearch : Nat → Nat → Prog Fs Nat
  | 0, _ => return 0
  | n + 1, c => do
    if (← fatGet c) = 0 then
      if ← fatPut c 0x0ffffff8 then
        modify (fun s => { s with allocHint := c + 1 })
        return c
      else return 0
    else
      -- round to the start, for freed ones
      fatSearch n (if c + 1 < (← get).volume.clusterEnd then c + 1 else 2)

def fatAlloc : Prog Fs Nat := do
  modify (fun s =>
    if s.allocHint < 2 ∨ s.volume.clusterEnd ≤ s.allocHint then { s with allocHint := 2 }
    else s)
  fatSearch (← get).volume.clusterCount (← get).allocHint

def freeFrom : Nat → Nat → Prog Fs Unit
  | 0, _ => Prog.unending
  | n + 1, cluster => do
    if 2 ≤ cluster ∧ cluster < chainEnd then
      let next ← fatGet cluster
      if ← fatPut cluster 0 then freeFrom n next else return ()
    else return ()

def fatFreeChain (cluster : Nat) : Prog Fs Unit := freeFrom (walkLimit + 1) cluster

end Ubiqos.Fat
