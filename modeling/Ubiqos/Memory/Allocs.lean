import Ubiqos.Kernel.Types
import Ubiqos.Lib.Words
import Ubiqos.Tlsf.Policy

/-!
What the kernel allocates on behalf of a process. Every block carries a header
in front of it, and the headers of one process are linked through memory from
its entry in the process table. The words of a header lie in the same memory as
what the processes write, so a pointer that is no block is judged by whatever
is there.

A pool is the two-level allocator with what was asked of it so far; the calls
read only the pool.
-/

namespace Ubiqos.Memory

open Function Intrusive Words

/-- `sizeof(alloc_hdr_t)`: `next`, `owner`, `size` and `magic`. -/
def hdrBytes : Nat := 16
/-- `ALLOC_MAGIC`. -/
def allocMagic : Nat := 0x4d454d21

/-- `ubiqos_mem_pool` and `ubiqos_bulk_pool`. -/
inductive PoolName
  | mem
  | bulk
  deriving DecidableEq

structure State (n : Nat) where
  memory : Memory
  pools : PoolName → Option Tlsf.Heap
  allocs : Pid n → Option Nat
  procs : Pid n → ProcState

/-- `h->next`. -/
def nextOf (memory : Memory) (h : Nat) : Option Nat :=
  if load memory h = 0 then none else some (load memory h)

def ownerOf (memory : Memory) (h : Nat) : Nat := load memory (h + 4)
def sizeOf (memory : Memory) (h : Nat) : Nat := load memory (h + 8)
def magicOf (memory : Memory) (h : Nat) : Nat := load memory (h + 12)

/-- `((alloc_hdr_t*)ptr) - 1`, in a word. -/
def headerOf (ptr : U32) : Nat := (ptr - 16#32).toNat

section Calls
variable {n : Nat}

def allocLink (s : State n) (pid : Pid n) (h : Nat) : State n :=
  { s with
    memory := store (store s.memory (h + 4) pid.word.toNat) h ((s.allocs pid).getD 0)
    allocs := update s.allocs pid (some h) }

def turns : Nat := 2 ^ 32

/-- `alloc_unlink`, which answers false when the block is not on the list. -/
def allocUnlink (s : State n) (pid : Pid n) (h : Nat) : Option (State n) :=
  match seek (nextOf s.memory) h turns none (s.allocs pid) with
  | none => none
  | some none =>
    some { s with
      memory := store s.memory h 0
      allocs := update s.allocs pid (nextOf s.memory h) }
  | some (some ahead) => some { s with memory := store (store s.memory ahead (load s.memory h)) h 0 }

/-- `ubiqos_tlsf_malloc` and `ubiqos_tlsf_free` on one of the pools. -/
def poolCall (s : State n) (pool : PoolName) (call : Tlsf.Call) : State n :=
  { s with pools := update s.pools pool ((s.pools pool).map fun heap => heap.step call) }

def allocFrom [NeZero n] (s : State n) (pid : Pid n) (pool : PoolName) (size : U32) :
    State n × Nat :=
  match s.pools pool with
  | none => (s, 0)
  | some heap =>
    if size = 0 ∨ pid = 0 then (s, 0)
    else
      match (Tlsf.malloc heap.pool (size + 16#32).toNat).2 with
      | none => (s, 0)
      | some h =>
        let s := poolCall s pool (.malloc (size + 16#32))
        let s := { s with
          memory := store (store s.memory (h + 8) size.toNat) (h + 12) allocMagic }
        (allocLink s pid h, h + hdrBytes)

/-- `ubiqos_mem_alloc`. -/
def memAlloc [NeZero n] (s : State n) (pid : Pid n) (size : U32) : State n × Nat :=
  allocFrom s pid .mem size

/-- `ubiqos_mem_alloc_bulk`. -/
def memAllocBulk [NeZero n] (s : State n) (pid : Pid n) (size : U32) : State n × Nat :=
  let result := allocFrom s pid .bulk size
  if result.2 ≠ 0 then result else allocFrom result.1 pid .mem size

/-- `ubiqos_tlsf_owns`. -/
def owns (p : Tlsf.Pool) (address : Nat) : Prop := p.poolStart ≤ address ∧ address < p.poolEnd

instance (p : Tlsf.Pool) (address : Nat) : Decidable (owns p address) :=
  inferInstanceAs (Decidable (_ ∧ _))

/-- `ubiqos_pool_of_address`. -/
def poolOf (s : State n) (address : Nat) : PoolName :=
  match s.pools .bulk with
  | some heap => if owns heap.pool address then .bulk else .mem
  | none => .mem

def giveBack (s : State n) (h : Nat) : State n :=
  let s := { s with memory := store s.memory (h + 12) 0 }
  poolCall s (poolOf s h) (.free h)

def Claims (s : State n) (pid : Pid n) (h : Nat) : Prop :=
  magicOf s.memory h = allocMagic ∧ ownerOf s.memory h = pid.word.toNat

instance (s : State n) (pid : Pid n) (h : Nat) : Decidable (Claims s pid h) :=
  inferInstanceAs (Decidable (_ ∧ _))

/-- `ubiqos_mem_free`. -/
def memFree (s : State n) (pid : Pid n) (ptr : U32) : State n × Int :=
  if ptr = 0 then (s, 0)
  else
    if ¬ Claims s pid (headerOf ptr) then (s, -1)
    else
      match allocUnlink s pid (headerOf ptr) with
      | none => (s, -1)
      | some s => (giveBack s (headerOf ptr), 0)

/-- `ubiqos_mem_realloc`. -/
def memRealloc [NeZero n] (s : State n) (pid : Pid n) (ptr size : U32) : State n × Nat :=
  if ptr = 0 then memAlloc s pid size
  else
    if ¬ Claims s pid (headerOf ptr) then (s, 0)
    else if size = 0 then ((memFree s pid ptr).1, 0)
    else
      let fresh := memAlloc s pid size
      if fresh.2 = 0 then (fresh.1, 0)
      else
        let held := sizeOf fresh.1.memory (headerOf ptr)
        let keep := if held < size.toNat then held else size.toNat
        let s := { fresh.1 with memory := copy fresh.1.memory fresh.2 ptr.toNat keep }
        ((memFree s pid ptr).1, fresh.2)

theorem toNat_inside {toPid : Int} (inside : 0 ≤ toPid ∧ toPid < n) : toPid.toNat < n := by omega

/-- `ubiqos_mem_hand_over`. -/
def memHandOver (s : State n) (pid : Pid n) (ptr : U32) (toPid : Int) : State n × Int :=
  if ptr = 0 then (s, -1)
  else if inside : 0 ≤ toPid ∧ toPid < n then
    let receiver : Pid n := ⟨toPid.toNat, toNat_inside inside⟩
    if s.procs receiver = .free then (s, -1)
    else if ¬ Claims s pid (headerOf ptr) then (s, -1)
    else
      match allocUnlink s pid (headerOf ptr) with
      | none => (s, -1)
      | some s => (allocLink s receiver (headerOf ptr), 0)
  else (s, -1)

/-- The loop of `reap`: everything the process was given goes back. -/
def giveAllBack (s : State n) : Nat → Option Nat → State n
  | 0, _ => s
  | _ + 1, none => s
  | left + 1, some h => giveAllBack (giveBack s h) left (nextOf s.memory h)

def reapAllocs (s : State n) (pid : Pid n) : State n :=
  let s := giveAllBack s turns (s.allocs pid)
  { s with allocs := update s.allocs pid none, procs := update s.procs pid .free }

end Calls

end Ubiqos.Memory

/-!
Whose a block is, told from the calls alone: who asked for it, who got it, and
how much was asked for. Beside this the kernel's lists, headers and pools run
through the same calls, with the processes writing and the kernel taking memory
for itself in between.
-/

namespace Ubiqos.Memory

open Function Intrusive Machine Words

structure Given (n : Nat) where
  owner : Pid n
  pointer : Nat
  size : Nat
  deriving DecidableEq

def Given.header {n : Nat} (g : Given n) : Nat := g.pointer - hdrBytes

inductive Input (n : Nat)
  | alloc (pid : Pid n) (size : U32)
  | allocBulk (pid : Pid n) (size : U32)
  | free (pid : Pid n) (ptr : U32)
  | realloc (pid : Pid n) (ptr size : U32)
  | handOver (pid : Pid n) (ptr : U32) (toPid : Int)
  | write (place : Nat) (byte : BitVec 8)
  | kernel (pool : PoolName) (call : Tlsf.Call)
  | starts (pid : Pid n)
  | reaped (pid : Pid n)

structure World (n : Nat) where
  s : State n
  live : List (Given n)

section Specification
variable {n : Nat}

def drop (live : List (Given n)) (pid : Pid n) (pointer : Nat) : List (Given n) :=
  live.filter fun g => ¬ (g.owner = pid ∧ g.pointer = pointer)

def give (live : List (Given n)) (pid : Pid n) (pointer : Nat) (size : U32) : List (Given n) :=
  if pointer = 0 then live else ⟨pid, pointer, size.toNat⟩ :: live

/-- The block that `pid` has at a place is the receiver's. -/
def move (live : List (Given n)) (pid : Pid n) (pointer : Nat) (receiver : Pid n) :
    List (Given n) :=
  (live.filter fun g => g.owner = pid ∧ g.pointer = pointer).map
    (fun g => { g with owner := receiver }) ++ drop live pid pointer

def receiverOf (s : State n) (toPid : Int) : Option (Pid n) :=
  if inside : 0 ≤ toPid ∧ toPid < n then
    if s.procs ⟨toPid.toNat, toNat_inside inside⟩ = .free then none
    else some ⟨toPid.toNat, toNat_inside inside⟩
  else none

def World.step [NeZero n] (w : World n) : Input n → World n
  | .alloc pid size =>
    let result := memAlloc w.s pid size
    ⟨result.1, give w.live pid result.2 size⟩
  | .allocBulk pid size =>
    let result := memAllocBulk w.s pid size
    ⟨result.1, give w.live pid result.2 size⟩
  | .free pid ptr => ⟨(memFree w.s pid ptr).1, drop w.live pid ptr.toNat⟩
  | .realloc pid ptr size =>
    let result := memRealloc w.s pid ptr size
    let rest := if result.2 = 0 ∧ size ≠ 0 then w.live else drop w.live pid ptr.toNat
    ⟨result.1, give rest pid result.2 size⟩
  | .handOver pid ptr toPid =>
    ⟨(memHandOver w.s pid ptr toPid).1,
      match receiverOf w.s toPid with
      | none => w.live
      | some receiver => move w.live pid ptr.toNat receiver⟩
  | .write place byte => { w with s := { w.s with memory := update w.s.memory place byte } }
  | .kernel pool call => { w with s := poolCall w.s pool call }
  | .starts pid =>
    { w with s := { w.s with
        allocs := update w.s.allocs pid none
        procs := update w.s.procs pid .ready } }
  | .reaped pid => ⟨reapAllocs w.s pid, w.live.filter fun g => g.owner ≠ pid⟩

def World.Owns (w : World n) (pid : Pid n) (pointer : Nat) : Prop :=
  ∃ g ∈ w.live, g.owner = pid ∧ g.pointer = pointer

/-- Every block is on its owner's list, once, and on no other; its header names
the owner; and header and bytes are its own: inside the pool, and clear of the
allocator's headers and of all else that was handed out. -/
structure Owned (w : World n) : Prop where
  listed : ∀ pid, ∃ headers, Linked (nextOf w.s.memory) (w.s.allocs pid) headers ∧
    headers.map (· + hdrBytes) = (w.live.filter fun g => g.owner = pid).map Given.pointer
  once : (w.live.map Given.pointer).Nodup
  owner : ∀ g ∈ w.live, ownerOf w.s.memory g.header = g.owner.word.toNat
  room : ∀ g ∈ w.live, ∃ heap, w.s.pools (poolOf w.s g.header) = some heap ∧
    Tlsf.Clear heap.pool (heap.live.filter fun request => request.1 ≠ g.header) g.header
      (g.size + hdrBytes)
  apart : ∀ g ∈ w.live, ∀ other ∈ w.live, g.pointer ≠ other.pointer →
    g.pointer + g.size ≤ other.header ∨ other.pointer + other.size ≤ g.header

def Right [NeZero n] (w : World n) : Input n → Prop
  | .alloc pid size => (memAlloc w.s pid size).2 = 0 → (memAlloc w.s pid size).1 = w.s
  | .allocBulk pid size => (memAllocBulk w.s pid size).2 = 0 → (memAllocBulk w.s pid size).1 = w.s
  | .free pid ptr => ptr ≠ 0 →
      (w.Owns pid ptr.toNat → (memFree w.s pid ptr).2 = 0) ∧
        (¬ w.Owns pid ptr.toNat → memFree w.s pid ptr = (w.s, -1))
  | .realloc pid ptr size => ptr ≠ 0 →
      (¬ w.Owns pid ptr.toNat → memRealloc w.s pid ptr size = (w.s, 0)) ∧
        (size = 0 → (memRealloc w.s pid ptr size).2 = 0) ∧
        ∀ g ∈ w.live, g.owner = pid → g.pointer = ptr.toNat →
          ((memRealloc w.s pid ptr size).2 = 0 → size ≠ 0 → (memRealloc w.s pid ptr size).1 = w.s) ∧
            ((memRealloc w.s pid ptr size).2 ≠ 0 → ∀ i < min g.size size.toNat,
              (memRealloc w.s pid ptr size).1.memory ((memRealloc w.s pid ptr size).2 + i) =
                w.s.memory (g.pointer + i))
  | .handOver pid ptr toPid =>
    (¬ w.Owns pid ptr.toNat → memHandOver w.s pid ptr toPid = (w.s, -1)) ∧
      (w.Owns pid ptr.toNat → receiverOf w.s toPid ≠ none → (memHandOver w.s pid ptr toPid).2 = 0)
  | _ => True

/-- The size and its header go into a word, and so does what the pool makes of
them; or the sum is nothing at all, which no pool serves. -/
def Fits (size : U32) : Prop := size.toNat + hdrBytes ≤ Tlsf.largestRequest ∨ size + 16#32 = 0

/-- The step is one the calls are made for: the sizes stay in a word, what is
resized is a block or does not look like one, the process is there, and nothing
writes into a header. -/
def Allowed [NeZero n] (w : World n) : Input n → Prop
  | .alloc pid size => Fits size ∧ w.s.procs pid ≠ .free
  | .allocBulk pid size => Fits size ∧ w.s.procs pid ≠ .free
  | .free _ _ => True
  | .realloc pid ptr size => Fits size ∧ w.s.procs pid ≠ .free ∧
      (Claims w.s pid (headerOf ptr) → ptr = 0 ∨ w.Owns pid ptr.toNat)
  | .handOver _ _ _ => True
  | .write place _ => ∀ g ∈ w.live, place < g.header ∨ g.pointer ≤ place
  | .kernel pool call => ∀ heap, w.s.pools pool = some heap → heap.AllowedSmall call ∧
      ∀ g ∈ w.live, call ≠ .free g.header
  | .starts pid => w.s.procs pid = .free
  | .reaped _ => True

instance (w : World n) (pid : Pid n) (pointer : Nat) : Decidable (w.Owns pid pointer) :=
  inferInstanceAs (Decidable (∃ g ∈ w.live, g.owner = pid ∧ g.pointer = pointer))

instance (size : U32) : Decidable (Fits size) := inferInstanceAs (Decidable (_ ∨ _))

instance [NeZero n] (w : World n) : (input : Input n) → Decidable (Allowed w input)
  | .alloc _ _ | .allocBulk _ _ => inferInstanceAs (Decidable (_ ∧ _))
  | .free _ _ | .handOver _ _ _ | .reaped _ => isTrue trivial
  | .realloc pid ptr size =>
    inferInstanceAs (Decidable (Fits size ∧ w.s.procs pid ≠ .free ∧
      (Claims w.s pid (headerOf ptr) → ptr = 0 ∨ w.Owns pid ptr.toNat)))
  | .write place _ =>
    inferInstanceAs (Decidable (∀ g ∈ w.live, place < g.header ∨ g.pointer ≤ place))
  | .starts pid => inferInstanceAs (Decidable (w.s.procs pid = .free))
  | .kernel pool call =>
    match here : w.s.pools pool with
    | none => isTrue fun heap is => absurd (here.symm.trans is) (by simp)
    | some heap =>
      decidable_of_iff (heap.AllowedSmall call ∧ ∀ g ∈ w.live, call ≠ .free g.header)
        ⟨fun allowed _ is => (Option.some.inj (here.symm.trans is)) ▸ allowed,
          fun allowed => allowed heap here⟩

def poolAt (place : Option (Nat × Nat)) : Option Tlsf.Heap :=
  place.bind fun region => (Tlsf.create region.1 region.2).map fun pool => ⟨pool, []⟩

def start (memory : Memory) (procs : Pid n → ProcState) (places : PoolName → Option (Nat × Nat)) :
    World n :=
  ⟨⟨memory, fun pool => poolAt (places pool), fun _ => none, procs⟩, []⟩

structure Regions (places : PoolName → Option (Nat × Nat)) : Prop where
  region : ∀ pool place, places pool = some place → Tlsf.Region place.1 place.2
  apart : ∀ mem bulk, places .mem = some mem → places .bulk = some bulk →
    mem.1 + mem.2 ≤ bulk.1 ∨ bulk.1 + bulk.2 ≤ mem.1

end Specification

end Ubiqos.Memory
