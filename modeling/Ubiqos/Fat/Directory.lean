import Ubiqos.Fat.Card

/-!
The names of `modules/fat32lib/fat32lib.c`. A file answers to eleven bytes in
its directory entry and, when its name does not fit there, to the name kept in
the fragments before the entry. A C string is the list of its bytes.
-/

namespace Ubiqos.Fat

open Function

def chr (c : Char) : Byte := BitVec.ofNat 8 c.toNat

/-- What a `const char *` points at, up to the zero. -/
structure CString where
  bytes : List Byte
  ended : 0 ∉ bytes

/-- Thirty-two bytes of a directory. -/
abbrev Entry := Nat → Byte

def entryAt (b : Block) (off : Nat) : Entry := fun i => if i < 32 then b (off + i) else 0

def Entry.attr (e : Entry) : Byte := e 11
def Entry.cluster (e : Entry) : Nat := rd16 e 20 * 2 ^ 16 + rd16 e 26
def Entry.size (e : Entry) : Nat := rd32 e 28
def Entry.name (e : Entry) : List Byte := (List.range 11).map e
def Entry.isDir (e : Entry) : Bool := e.attr &&& 0x10 != 0
def Entry.isEnd (e : Entry) : Bool := e 0 == 0
def Entry.deleted (e : Entry) : Bool := e 0 == 0xe5
def Entry.fragment (e : Entry) : Bool := e.attr == 0x0f

def nameMatches (e : Entry) (name83 : List Byte) : Bool := e.name == name83

def lfnMax : Nat := 64

/-- `lfn_t`. The sixty-five bytes are not cleared when it is made. -/
structure Lfn where
  name : Nat → Byte
  valid : Bool

def lfnReset (l : Lfn) : Lfn := { name := update l.name 0 0, valid := false }

def unitOffsets : List Nat := [1, 3, 5, 7, 9, 14, 16, 18, 20, 22, 24, 28, 30]

/-- The `i`-th of the thirteen characters a fragment holds, as it is taken. -/
def fragmentChar (e : Entry) (i : Nat) : Byte :=
  let u := rd16 e (unitOffsets.getD i 0)
  if u = 0 ∨ u = 0xffff then 0 else if u < 128 then BitVec.ofNat 8 u else chr '?'

def lfnTake (l : Lfn) (e : Entry) : Lfn :=
  let seq := (e 0 &&& 0x3f).toNat
  let base := (seq - 1) * 13
  if seq = 0 ∨ lfnMax ≤ base then lfnReset l
  else
    let taken : Nat → Byte := fun i =>
      if base ≤ i ∧ i < base + 13 ∧ i < lfnMax then fragmentChar e (i - base) else l.name i
    { name := if e 0 &&& 0x40 != 0 then update taken (min (base + 13) lfnMax) 0 else taken
      valid := true }

def Lfn.text (l : Lfn) : List Byte := ((List.range (lfnMax + 1)).map l.name).takeWhile (· ≠ 0)

def lower (c : Byte) : Byte := if chr 'A' ≤ c ∧ c ≤ chr 'Z' then c + 32 else c
def upper (c : Byte) : Byte := if chr 'a' ≤ c ∧ c ≤ chr 'z' then c - chr 'a' + chr 'A' else c

def sameNameCi : List Byte → List Byte → Bool
  | a :: left, b :: right => lower a == lower b && sameNameCi left right
  | [], [] => true
  | _, _ => false

def lastDot : List Byte → Option Nat
  | [] => none
  | c :: rest =>
    match lastDot rest with
    | some i => some (i + 1)
    | none => if c = chr '.' then some 0 else none

def stemLength (name : List Byte) : Nat := (lastDot name).getD name.length
def extension (name : List Byte) : List Byte :=
  match lastDot name with
  | none => []
  | some i => name.drop (i + 1)

def padded (n : Nat) (name : List Byte) : List Byte :=
  name ++ List.replicate (n - name.length) (chr ' ')

def blank83 : List Byte := padded 11 []

/-- `none` when the name has no 8.3 form; the buffer is then left blank. -/
def nameTo83 (user : List Byte) : Option (List Byte) :=
  if stemLength user = 0 ∨ 8 < stemLength user ∨ 3 < (extension user).length then none
  else if 1 < user.count (chr '.') then none
  else some (padded 8 ((user.take (stemLength user)).map upper) ++
    padded 3 ((extension user).map upper))

def unfit (c : Byte) : Bool :=
  c = chr ' ' ∨ c = chr '+' ∨ c = chr ',' ∨ c = chr ';' ∨ c = chr '=' ∨ c = chr '[' ∨
    c = chr ']' ∨ c < 0x20 ∨ 0x7e < c

def needsLfn (name : List Byte) : Bool :=
  1 < name.count (chr '.') ∨ name.any unfit ∨ stemLength name = 0 ∨ 8 < stemLength name ∨
    3 < (extension name).length

def shortMarks : List Byte := ['-', '_', '~', '!', '#', '$', '%', '&', '@', '^'].map chr

def shortChar (c : Byte) : Byte :=
  if chr 'a' ≤ c ∧ c ≤ chr 'z' then upper c
  else if chr 'A' ≤ c ∧ c ≤ chr 'Z' ∨ chr '0' ≤ c ∧ c ≤ chr '9' then c
  else if c ∈ shortMarks then c
  else chr '_'

def digitsFrom : Nat → Nat → List Byte
  | 0, _ => []
  | n + 1, t =>
    (chr '0' + BitVec.ofNat 8 (t % 10)) :: if t / 10 = 0 then [] else digitsFrom n (t / 10)

def shortFromLong (name : List Byte) (tail : Nat) : List Byte :=
  let digits := (digitsFrom 6 tail).reverse
  let room := if digits.length + 1 < 8 then 8 - (digits.length + 1) else 1
  let stem := (((name.take (stemLength name)).filter
    (fun c => c ≠ chr ' ' ∧ c ≠ chr '.')).map shortChar).take room
  padded 8 ((stem ++ chr '~' :: digits).take 8) ++ padded 3 (((extension name).take 3).map shortChar)

def lfnChecksum (name83 : List Byte) : Byte :=
  name83.foldl (fun sum c => (sum &&& 1) <<< 7 + sum >>> 1 + c) 0

/-- The fragment `dir_write_lfn` lays down for the `seq`-th part of a name. -/
def fragmentFor (name short11 : List Byte) (frags seq : Nat) : Entry :=
  let char (i : Nat) : Nat :=
    if i < name.length then (name.getD i 0).toNat else if i = name.length then 0 else 0xffff
  let chars := (List.range 13).foldl
    (fun e i => wr16 e (unitOffsets.getD i 0) (char ((seq - 1) * 13 + i))) (fun _ => 0)
  update (update (update chars 0 (BitVec.ofNat 8 (seq + if seq = frags then 0x40 else 0)))
    11 0x0f) 13 (lfnChecksum short11)

def components (path : List Byte) : List (List Byte) :=
  ((path.splitOn (chr '/')).filter (· ≠ [])).map (·.take lfnMax)

def leafOf (path : List Byte) : List Byte := (path.splitOn (chr '/')).getLastD []

def parentOf (path : List Byte) : List Byte :=
  (path.take (path.length - (leafOf path).length)).take 79

end Ubiqos.Fat

/-!
Directories of `modules/fat32lib/fat32lib.c`: the searches, the walk along a
path, and the edits of entries. Every search passes over the same slots in the
same order, cluster by cluster and sector by sector; `scanChain` is that walk,
and what is done at a slot is its argument.
-/

namespace Ubiqos.Fat

open Function

structure Slot where
  lba : Nat
  off : Nat
  entry : Entry

def sectorSlots (lba : Nat) (b : Block) : List Slot :=
  (List.range 16).map (fun k => ⟨lba, 32 * k, entryAt b (32 * k)⟩)

inductive Scan (σ ρ : Type) where
  | stop (result : ρ)
  | more (state : σ)

section Scanning
variable {σ ρ : Type}

def scanSlots (visit : σ → Slot → Scan σ ρ) : List Slot → σ → Scan σ ρ
  | [], acc => .more acc
  | slot :: rest, acc =>
    match visit acc slot with
    | .stop result => .stop result
    | .more acc => scanSlots visit rest acc

/-- The sectors of one cluster, `n` of them still to come. -/
def scanCluster (visit : σ → Slot → Scan σ ρ) (failed : ρ) (first : Nat) :
    Nat → Nat → σ → Prog Fs (Scan σ ρ)
  | 0, _, acc => return .more acc
  | n + 1, s, acc => do
    if ← readSector ((first + s) % 2 ^ 32) then
      match scanSlots visit (sectorSlots ((first + s) % 2 ^ 32) (← get).sector) acc with
      | .stop result => return .stop result
      | .more acc => scanCluster visit failed first n (s + 1) acc
    else return .stop failed

/-- The clusters of a directory, with the last one that was passed. `within`
is the loop's own test and `next` the way it follows the table. -/
def scanChain (within : Nat → Bool) (next : Nat → Prog Fs Nat)
    (visit : σ → Slot → Scan σ ρ) (failed : ρ) :
    Nat → Nat → Nat → σ → Prog Fs (Scan σ ρ × Nat)
  | 0, _, _, _ => Prog.unending
  | n + 1, cluster, last, acc => do
    if within cluster then
      let v := (← get).volume
      match ← scanCluster visit failed (v.clusterToLba cluster) v.sectorsPerCluster 0 acc with
      | .stop result => return (.stop result, cluster)
      | .more acc => scanChain within next visit failed n (← next cluster) cluster acc
    else return (.more acc, last)

end Scanning

def readable (cluster : Nat) : Bool := cluster < chainEnd
def writable (cluster : Nat) : Bool := 2 ≤ cluster ∧ cluster < chainEnd

def freshLfn : Prog Fs Lfn := do
  let s ← get
  set { s with calls := s.calls + 1 }
  return lfnReset { name := s.stack s.calls, valid := false }

def answersTo (l : Lfn) (e : Entry) (name83 : List Byte) (wantLong : Option (List Byte)) : Bool :=
  nameMatches e name83 || (l.valid && wantLong.any (sameNameCi l.text))

def findEntryVisit (name83 : List Byte) (wantLong : Option (List Byte)) (l : Lfn) (slot : Slot) :
    Scan Lfn (Option Entry) :=
  if slot.entry.isEnd then .stop none
  else if slot.entry.deleted then .more (lfnReset l)
  else if slot.entry.fragment then .more (lfnTake l slot.entry)
  else if answersTo l slot.entry name83 wantLong then .stop (some slot.entry)
  else .more (lfnReset l)

def findEntry (dir : Nat) (name83 : List Byte) (wantLong : Option (List Byte)) :
    Prog Fs (Option Entry) := do
  let l ← freshLfn
  match ← scanChain readable fatNextCluster (findEntryVisit name83 wantLong) none
      (walkLimit + 1) dir dir l with
  | (.stop result, _) => return result
  | (.more _, _) => return none

def dotName : List Byte := padded 11 [chr '.']
def dotDotName : List Byte := padded 11 [chr '.', chr '.']

def resolveStep (dir : Nat) (part : List Byte) : Prog Fs (Option Nat) := do
  if part = [chr '.'] then return some dir
  else if part = [chr '.', chr '.'] then
    -- the root has no such entry and stays where it is
    match ← findEntry dir dotDotName none with
    | none => return some dir
    | some e =>
      let v := (← get).volume
      return some (if e.cluster = 0 then v.rootCluster else e.cluster)
  else
    match ← findEntry dir ((nameTo83 part).getD blank83) (some part) with
    | none => return none
    | some e => return if e.isDir then some e.cluster else none

def resolveFrom : Nat → List (List Byte) → Prog Fs (Option Nat)
  | dir, [] => return some dir
  | dir, part :: rest => do
    match ← resolveStep dir part with
    | none => return none
    | some dir => resolveFrom dir rest

def resolveDir (path : List Byte) : Prog Fs (Option Nat) := do
  resolveFrom (← get).volume.rootCluster (components path)

structure Leaf where
  name83 : List Byte
  long : List Byte

/-- `none` when the path ends in a slash. Any other leaf is at least a long name. -/
def leafFor (path : List Byte) : Option Leaf :=
  let long := (leafOf path).take lfnMax
  match nameTo83 (leafOf path) with
  | some short => some ⟨short, long⟩
  | none => if long = [] then none else some ⟨blank83, long⟩

def resolveParent (path : List Byte) : Prog Fs (Option (Nat × Leaf)) := do
  match ← resolveDir (parentOf path) with
  | none => return none
  | some dir => return (leafFor path).map (fun leaf => (dir, leaf))

def dirAtFrom : Nat → Nat → Nat → Prog Fs (Option (Nat × Nat))
  | 0, _, _ => Prog.unending
  | n + 1, cluster, index => do
    if writable cluster then
      let v := (← get).volume
      if index < v.sectorsPerCluster * 16 then
        return some ((v.clusterToLba cluster + index / 16) % 2 ^ 32, index % 16 * 32)
      else dirAtFrom n (← fatGet cluster) (index - v.sectorsPerCluster * 16)
    else return none

def dirAt (dir index : Nat) : Prog Fs (Option (Nat × Nat)) := dirAtFrom (walkLimit + 1) dir index

/-- What `dir_find` hands out: where the entry lies, and the numbers of the
first fragment of its run and of the entry itself. -/
structure Found where
  lba : Nat
  off : Nat
  first : Nat
  last : Nat
  deriving DecidableEq

structure Search where
  lfn : Lfn
  index : Nat
  runStart : Nat
  inRun : Bool

def dirFindVisit (name83 : List Byte) (wantLong : Option (List Byte)) (a : Search) (slot : Slot) :
    Scan Search (Option Found) :=
  if slot.entry.isEnd then .stop none
  else if slot.entry.deleted then
    .more { a with lfn := lfnReset a.lfn, index := a.index + 1, inRun := false }
  else if slot.entry.fragment then
    .more
      { lfn := lfnTake a.lfn slot.entry
        index := a.index + 1
        runStart := if a.inRun then a.runStart else a.index
        inRun := true }
  else if answersTo a.lfn slot.entry name83 wantLong then
    .stop (some ⟨slot.lba, slot.off, if a.inRun then a.runStart else a.index, a.index⟩)
  else .more { a with lfn := lfnReset a.lfn, index := a.index + 1, inRun := false }

def dirFind (dir : Nat) (name83 : List Byte) (wantLong : Option (List Byte)) :
    Prog Fs (Option Found) := do
  let l ← freshLfn
  match ← scanChain writable fatGet (dirFindVisit name83 wantLong) none
      (walkLimit + 1) dir dir ⟨l, 0, 0, false⟩ with
  | (.stop result, _) => return result
  | (.more _, _) => return none

/-- The aliases from the `n`-th on, `left` of them still to try. -/
def uniqueFrom (dir : Nat) (name : List Byte) : Nat → Nat → Prog Fs (Option (List Byte))
  | 0, _ => return none
  | left + 1, n => do
    match ← dirFind dir (shortFromLong name n) none with
    | none => return some (shortFromLong name n)
    | some _ => uniqueFrom dir name left (n + 1)

def uniqueShort (dir : Nat) (name : List Byte) : Prog Fs (Option (List Byte)) :=
  uniqueFrom dir name 999 1

structure Gap where
  index : Nat
  run : Nat
  runStart : Nat

def gapVisit (count : Nat) (a : Gap) (slot : Slot) : Scan Gap (Option Nat) :=
  if slot.entry.isEnd ∨ slot.entry.deleted then
    let start := if a.run = 0 then a.index else a.runStart
    if a.run + 1 = count then .stop (some start)
    else .more ⟨a.index + 1, a.run + 1, start⟩
  else .more { a with index := a.index + 1, run := 0 }

def clearSectors (first : Nat) : Nat → Nat → Prog Fs Bool
  | 0, _ => return true
  | n + 1, s => do
    if ← writeSector ((first + s) % 2 ^ 32) then clearSectors first n (s + 1) else return false

def clearCluster (cluster : Nat) : Prog Fs Bool := do
  modify (fun s => { s with sector := fun _ => 0 })
  let v := (← get).volume
  clearSectors (v.clusterToLba cluster) v.sectorsPerCluster 0

def dirAllocRun (dir count : Nat) : Prog Fs (Option Nat) := do
  match ← scanChain writable fatGet (gapVisit count) none (walkLimit + 1) dir dir ⟨0, 0, 0⟩ with
  | (.stop result, _) => return result
  | (.more a, last) =>
    let fresh ← fatAlloc
    if fresh = 0 then return none
    else if ← fatPut last fresh then
      if ← clearCluster fresh then return some (if a.run = 0 then a.index else a.runStart)
      else return none
    else return none

def setEntry (b : Block) (off : Nat) (e : Entry) : Block := fun i =>
  if off ≤ i ∧ i < off + 32 then e (i - off) else b i

def editEntry (dir index : Nat) (change : Entry → Entry) : Prog Fs Bool := do
  match ← dirAt dir index with
  | none => return false
  | some (lba, off) =>
    if ← readSector lba then
      modify (fun s => { s with sector := setEntry s.sector off (change (entryAt s.sector off)) })
      writeSector lba
    else return false

/-- The fragments from the `k`-th slot of the run on, `n` of them. -/
def dirWriteLfn (dir first : Nat) (name short11 : List Byte) (frags : Nat) :
    Nat → Nat → Prog Fs Bool
  | 0, _ => return true
  | n + 1, k => do
    if ← editEntry dir (first + k) (fun _ => fragmentFor name short11 frags (frags - k)) then
      dirWriteLfn dir first name short11 frags n (k + 1)
    else return false

/-- The entries from `i` on, `n` of them. -/
def dirEraseFrom (dir : Nat) : Nat → Nat → Prog Fs Bool
  | 0, _ => return true
  | n + 1, i => do
    if ← editEntry dir i (fun e => update e 0 0xe5) then dirEraseFrom dir n (i + 1)
    else return false

def dirEraseRun (dir first last : Nat) : Prog Fs Bool := dirEraseFrom dir (last + 1 - first) first

def nameEntry (short11 : List Byte) : Entry := fun i => if i < 11 then short11.getD i 0 else 0

def spelling (dir : Nat) (leaf : Leaf) : Prog Fs (Option (List Byte × Nat)) := do
  if leaf.long ≠ [] ∧ needsLfn leaf.long then
    match ← uniqueShort dir leaf.long with
    | none => return none
    | some short11 => return some (short11, (leaf.long.length + 12) / 13)
  else return some (leaf.name83, 0)

/-- Leaves the short entry in `sector`, not yet written, and hands back where it goes. -/
def dirCreate (dir : Nat) (leaf : Leaf) : Prog Fs (Option (Nat × Nat)) := do
  match ← spelling dir leaf with
  | none => return none
  | some (short11, frags) =>
    match ← dirAllocRun dir (frags + 1) with
    | none => return none
    | some first =>
      if ← dirWriteLfn dir first leaf.long short11 frags frags 0 then
        match ← dirAt dir (first + frags) with
        | none => return none
        | some (lba, off) =>
          if ← readSector lba then
            modify (fun s => { s with sector := setEntry s.sector off (nameEntry short11) })
            return some (lba, off)
          else return none
      else return none

end Ubiqos.Fat
