import Ubiqos.Loader.Relocation

/-!
A module from a card: what `load_module_from_card` in `kernel/fsserver.c` and the
directory take of it, and where the kernel then looks and writes by what its header says.
The acceptance compares a size, a version and a sum; none of the offsets.
-/

namespace Ubiqos.Loader

def headerBytes : Nat := 56

def halfIn (p : Image) (i : Nat) : BitVec 16 := p (i + 1) ++ p i

def headerIn (p : Image) : Header where
  syncCode := relocGet32 p 0
  moduleSize := relocGet32 p 4
  nameOffset := relocGet32 p 8
  typeLang := halfIn p 12
  attrRev := halfIn p 14
  execOffset := relocGet32 p 16
  memSize := relocGet32 p 20
  tlsOffset := relocGet32 p 24
  tlsInit := relocGet32 p 28
  tlsTotal := relocGet32 p 32
  revision := halfIn p 36
  reserved := halfIn p 38
  relocOffset := relocGet32 p 40
  relocCount := relocGet32 p 44
  bssSize := relocGet32 p 48
  headerCrc := relocGet32 p 52

def imageOf (file : List Byte) : Image := fun i => file.getD i 0

/-- `load_module_from_card`, from the file it has found. `block` is the memory that the
pool gave for the image, if it had any and the file could be read; `joins` whether the
directory has room for a module it has verified and none that is newer. -/
def loadModuleFromCard (machine : Machine) (file : List Byte) (block : Option Image) (joins : Bool) :
    Option Image :=
  if file.length = 0 then none
  else if file.length < headerBytes then none
  else
    let size := (headerIn (imageOf file)).moduleSize.toNat
    if file.length < size then none
    else
      match block with
      | none => none
      | some block =>
        let image : Image := fun i => if i < size then imageOf file i else block i
        if verifyHeader machine (headerIn image) && joins then some image else none

structure Loaded where
  machine : Machine
  file : List Byte
  block : Image
  joins : Bool
  image : Image
  accepted : loadModuleFromCard machine file (some block) joins = some image

namespace Loaded
variable (l : Loaded)

def size : Nat := (headerIn (imageOf l.file)).moduleSize.toNat

def header : Header := headerIn l.image

def nameAt : Nat := l.header.nameOffset.toNat

/-- The image and the `.bss` behind it. -/
def full : Nat := l.header.imageSize + l.header.bssSize.toNat

/-- The entry that a copy at `base` is started at: its own header says so. -/
def copyEntry (base : Word) (old : Image) : Nat :=
  (relocGet32 (moduleRelocatedCopy base l.header l.image old) 16).toNat

/-- What `ubiqos_module_relocated_copy` reads and writes, and where its copy is entered. The
sums are words; the copy begins at sixteen bytes of a block wherever that lies. -/
structure CopyInside : Prop where
  source : ∀ i < l.header.imageSize, i < l.size
  room : ∀ raw i, i < l.header.imageSize ∨ i < l.full % 2 ^ 32 →
    (raw + 15) / 16 * 16 + i < raw + (l.full % 2 ^ 32 + 15) % 2 ^ 32
  table : ∀ i < l.header.relocCount.toNat, ∀ k < 8,
    (l.header.relocOffset.toNat + i * 8 + k) % 2 ^ 32 < l.size
  patched : ∀ r ∈ l.header.relocs l.image, r.kind < 4 → ∀ k < 4, r.offset + k < l.full
  entry : ∀ base old, base.toNat % 16 = 0 → l.copyEntry base old < l.full

/-- Every use of the header stays in the bytes that were read, or in those of the copy: the
header, the name up to its end, the initial values of the thread-local block, the entry,
and what the copy takes. A module of the flash that was placed for a fixed data area, whose
data alone `create_process` copies there, is left out. -/
structure Inside (copied : Bool) : Prop where
  header : ∀ i < headerBytes, i < l.size
  name : ∀ k, (∀ j < k, l.image (l.nameAt + j) ≠ 0) → l.nameAt + k < l.size
  tls : ∀ i < l.header.tlsTotal.toNat, l.header.tlsInit ≠ 0 → i < l.header.tlsInit.toNat →
    (l.header.tlsOffset.toNat + i) % 2 ^ 32 < l.size
  entry : copied = false → l.header.execOffset.toNat < l.size
  copy : copied = true → l.CopyInside

def Spared : Prop :=
  20 ≤ l.header.imageSize ∧
    ∀ r ∈ l.header.relocs l.image, r.kind < 4 → r.offset + 4 ≤ 16 ∨ 20 ≤ r.offset

structure CopyBounded : Prop where
  source : l.header.imageSize ≤ l.size
  room : l.full + 15 < 2 ^ 32
  table : l.header.relocCount.toNat = 0 ∨
    l.header.relocOffset.toNat + 8 * l.header.relocCount.toNat ≤ l.size
  patched : ∀ r ∈ l.header.relocs l.image, r.kind < 4 → r.offset + 4 ≤ l.full
  entry : l.Spared → l.header.execOffset.toNat < l.full
  unspared : ¬ l.Spared → ∀ base old, base.toNat % 16 = 0 → l.copyEntry base old < l.full

structure Bounded (copied : Bool) : Prop where
  header : headerBytes ≤ l.size
  name : ∃ k, l.nameAt + k < l.size ∧ l.image (l.nameAt + k) = 0
  tls : l.header.tlsInit.toNat = 0 ∨ l.header.tlsTotal.toNat = 0 ∨
    l.header.tlsOffset.toNat + min l.header.tlsInit.toNat l.header.tlsTotal.toNat ≤ l.size
  entry : copied = false → l.header.execOffset.toNat < l.size
  copy : copied = true → l.CopyBounded

variable {l}

theorem room_iff : (∀ raw i, i < l.header.imageSize ∨ i < l.full % 2 ^ 32 →
      (raw + 15) / 16 * 16 + i < raw + (l.full % 2 ^ 32 + 15) % 2 ^ 32) ↔ l.full + 15 < 2 ^ 32 := by
  have image : l.header.imageSize < 2 ^ 32 := l.header.nameOffset.isLt
  have bss := l.header.bssSize.isLt
  have sum : l.full = l.header.imageSize + l.header.bssSize.toNat := rfl
  constructor
  · intro room
    by_contra large
    -- a block that begins one behind sixteen has the least room
    have copied := room 1 (l.header.imageSize - 1)
    have cleared := room 1 (l.full % 2 ^ 32 - 1)
    omega
  · intro small raw i written
    have whole : l.full % 2 ^ 32 = l.full := Nat.mod_eq_of_lt (by omega)
    rw [whole] at written ⊢
    omega

end Loaded

end Ubiqos.Loader
