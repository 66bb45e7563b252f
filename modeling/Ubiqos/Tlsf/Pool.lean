import Ubiqos.Lib.Packed

/-!
The allocator of `kernel/tlsf.c` on the boards, where a word is four bytes. A
block is known by the address of its header and the four fields of a header are
columns over addresses; `none` is `&ctrl->block_null` in a free list and a null
`prev_phys_block`. Bit zero of the size word marks a block as free.

The pool lies inside memory, so no address or size in it reaches `2 ^ 32` and
they are plain numbers here. What a caller asks for may be anything, and its
rounding is where a word can wrap.
-/

namespace Ubiqos.Tlsf

open Function

/-- `sizeof(block_header_t)`. -/
def headerBytes : Nat := 16

/-- `MIN_PAYLOAD`. -/
def minPayload : Nat := 8

/-- `tlsf_ctrl_t` without its rows, and one row of it. -/
def ctrlBytes : Nat := 164
def rowBytes : Nat := 128

def flIndexMax : Nat := 32
def slIndexCount : Nat := 32

structure Pool where
  flBitmap : Bitmap.Word
  flCount : Nat
  slBitmap : Nat → Bitmap.Word
  poolStart : Nat
  poolEnd : Nat
  freeBytes : Nat
  blocks : Nat → Nat → Option Nat
  prevPhys : Nat → Option Nat
  size : Nat → Nat
  nextFree : Nat → Option Nat
  prevFree : Nat → Option Nat

/-- `BLOCK_SIZE`. -/
def payload (word : Nat) : Nat := word / 2 * 2

/-- `BLOCK_IS_FREE`. -/
def isFree (word : Nat) : Bool := word % 2 = 1

/-- `tlsf_mapping`: the row and the list in it. -/
def mapping (flCount size : Nat) : Nat × Nat :=
  let f := size.log2
  let fl := if f < 5 then 0 else f
  let sl := if f < 5 then size % slIndexCount else size / 2 ^ (f - 5) % slIndexCount
  (if flCount ≤ fl then flCount - 1 else fl, sl)

def classOf (p : Pool) (block : Nat) : Nat × Nat := mapping p.flCount (payload (p.size block))

/-- `next_phys`. -/
def nextPhys (p : Pool) (block : Nat) : Option Nat :=
  let next := block + headerBytes + payload (p.size block)
  if p.poolEnd ≤ next then none else some next

def setHead (p : Pool) (c : Nat × Nat) (head : Option Nat) : Pool :=
  { p with blocks := update p.blocks c.1 (update (p.blocks c.1) c.2 head) }

/-- `tlsf_insert`. -/
def insert (p : Pool) (block : Nat) : Pool :=
  let c := classOf p block
  let head := p.blocks c.1 c.2
  let alone := update p.prevFree block none
  let p :=
    { p with
      size := update p.size block (payload (p.size block) + 1)
      freeBytes := p.freeBytes + payload (p.size block)
      nextFree := update p.nextFree block head
      prevFree :=
        match head with
        | none => alone
        | some first => update alone first (some block)
      flBitmap := Bitmap.set p.flBitmap c.1
      slBitmap := update p.slBitmap c.1 (Bitmap.set (p.slBitmap c.1) c.2) }
  setHead p c (some block)

def dropHead (p : Pool) (c : Nat × Nat) (next : Option Nat) : Pool :=
  let p := setHead p c next
  match next with
  | some _ => p
  | none =>
    let row := Bitmap.clear (p.slBitmap c.1) c.2
    { p with
      slBitmap := update p.slBitmap c.1 row
      flBitmap := if row = 0 then Bitmap.clear p.flBitmap c.1 else p.flBitmap }

/-- `tlsf_remove`. -/
def remove (p : Pool) (block : Nat) : Pool :=
  let c := classOf p block
  let p :=
    match p.prevFree block with
    | some ahead => { p with nextFree := update p.nextFree ahead (p.nextFree block) }
    | none => if p.blocks c.1 c.2 = some block then dropHead p c (p.nextFree block) else p
  let p :=
    match p.nextFree block with
    | some behind => { p with prevFree := update p.prevFree behind (p.prevFree block) }
    | none => p
  { p with
    freeBytes := p.freeBytes - payload (p.size block)
    size := update p.size block (payload (p.size block)) }

/-- `ubiqos_tlsf_create`. -/
def create (mem : Nat) (bytes : Nat) : Option Pool :=
  if bytes = 0 then none
  else
    let rows := min (bytes.log2 + 1) flIndexMax
    let ctrl := ctrlBytes + rows * rowBytes
    if bytes < ctrl + 8 + headerBytes + minPayload then none
    else
      let start := (mem + ctrl + 7) / 8 * 8
      let p : Pool :=
        { flBitmap := 0
          flCount := rows
          slBitmap := fun _ => 0
          poolStart := start
          poolEnd := mem + bytes
          freeBytes := 0
          blocks := fun _ _ => none
          prevPhys := fun _ => none
          size := update (fun _ => 0) start (mem + bytes - start - headerBytes)
          nextFree := fun _ => none
          prevFree := fun _ => none }
      some (insert p start)

/-- `(size + 3) & ~3` in a word, and never less than a block can hold. -/
def roundUp (size : Nat) : Nat := max ((size + 3) % 2 ^ 32 / 4 * 4) minPayload

/-- The lists of row `f` still to be looked at, lowest first. -/
def searchRow (p : Pool) (size f : Nat) : Nat → Bitmap.Word → Option Nat
  | 0, _ => none
  | fuel + 1, map =>
    if map = 0 then none
    else
      let s := Bitmap.ctz map
      match p.blocks f s with
      | some cand =>
        if size ≤ payload (p.size cand) then some cand
        else searchRow p size f fuel (Bitmap.clear map s)
      | none => searchRow p size f fuel (Bitmap.clear map s)

def rowMap (p : Pool) (c : Nat × Nat) (f : Nat) : Bitmap.Word :=
  if f = c.1 then
    if 31 ≤ c.2 then 0 else p.slBitmap f &&& (BitVec.allOnes 32 <<< (c.2 + 1))
  else p.slBitmap f

def searchRows (p : Pool) (size : Nat) (c : Nat × Nat) : Nat → Nat → Option Nat
  | 0, _ => none
  | left + 1, f =>
    match searchRow p size f slIndexCount (rowMap p c f) with
    | some cand => some cand
    | none => searchRows p size c left (f + 1)

/-- The two loops of `malloc`. -/
def search (p : Pool) (size : Nat) : Option Nat :=
  let c := mapping p.flCount size
  searchRows p size c (p.flCount - c.1) c.1

/-- `after->prev_phys_block = block`, if there is a block after it. -/
def linkAfter (p : Pool) (block : Nat) : Pool :=
  match nextPhys p block with
  | none => p
  | some after => { p with prevPhys := update p.prevPhys after (some block) }

def split (p : Pool) (block : Nat) (size : Nat) : Pool :=
  let remain := payload (p.size block) - size
  let rest := block + headerBytes + size
  let p :=
    { p with
      prevPhys := update p.prevPhys rest (some block)
      size := update (update p.size rest (remain - headerBytes)) block size }
  insert (linkAfter p rest) rest

def trim (p : Pool) (block : Nat) (size : Nat) : Pool :=
  let p :=
    if headerBytes + minPayload ≤ payload (p.size block) - size then split p block size else p
  { p with size := update p.size block (payload (p.size block)) }

/-- `ubiqos_tlsf_malloc`. -/
def malloc (p : Pool) (size : Nat) : Pool × Option Nat :=
  if size = 0 then (p, none)
  else
    let size := roundUp size
    match search p size with
    | none => (p, none)
    | some block => (trim (remove p block) block size, some (block + headerBytes))

def absorbNext (p : Pool) (block : Nat) : Pool :=
  match nextPhys p block with
  | none => p
  | some next =>
    if isFree (p.size next) then
      let p := remove p next
      { p with
        size := update p.size block
          (payload (p.size block) + headerBytes + payload (p.size next)) }
    else p

def absorbPrev (p : Pool) (block : Nat) : Pool × Nat :=
  match p.prevPhys block with
  | none => (p, block)
  | some prev =>
    if isFree (p.size prev) then
      let p := remove p prev
      ({ p with
         size := update p.size prev
           (payload (p.size prev) + headerBytes + payload (p.size block)) }, prev)
    else (p, block)

/-- `ubiqos_tlsf_free`. -/
def free (p : Pool) (pointer : Nat) : Pool :=
  if pointer = 0 then p
  else
    match absorbPrev (absorbNext p (pointer - headerBytes)) (pointer - headerBytes) with
    | (p, block) => insert (linkAfter p block) block

end Ubiqos.Tlsf
