import Ubiqos.Memory.Ownership

/-!
What the calls leave alone: a block that a call does not name stays, with its bytes.
-/

namespace Ubiqos.Memory

open Function Machine Words

section Bytes
variable {n : Nat} {w : World n} {g : Given n}

def Spares (g : Given n) : Input n → Prop
  | .free pid ptr => ¬ (g.owner = pid ∧ g.pointer = ptr.toNat)
  | .realloc pid ptr _ => ¬ (g.owner = pid ∧ g.pointer = ptr.toNat)
  | .handOver pid ptr _ => ¬ (g.owner = pid ∧ g.pointer = ptr.toNat)
  | .reaped pid => g.owner ≠ pid
  | _ => True

theorem mem_give {live : List (Given n)} {pid : Pid n} {pointer : Nat} {size : U32}
    (member : g ∈ live) : g ∈ give live pid pointer size := by
  unfold give
  split
  · exact member
  · exact List.mem_cons_of_mem _ member

theorem mem_drop {live : List (Given n)} {pid : Pid n} {pointer : Nat} (member : g ∈ live)
    (other : ¬ (g.owner = pid ∧ g.pointer = pointer)) : g ∈ drop live pid pointer :=
  List.mem_filter.mpr ⟨member, decide_eq_true other⟩

theorem Handed.spares {s : State n} {live : List (Given n)} {pid : Pid n} {size : U32}
    {result : State n × Nat} (handed : Handed s live pid size result) (kept : Kept s live)
    (member : g ∈ live) {place : Nat} (low : g.pointer ≤ place) (high : place < g.pointer + g.size) :
    result.1.memory place = s.memory place := by
  by_cases null : result.2 = 0
  · rw [handed.refused null]
  · have given := handed.kept
    unfold give at given
    rw [if_neg null] at given
    have spread := given.spread
    have differ : g.pointer ≠ result.2 := fun same =>
      (List.nodup_cons.mp spread.once).1 (List.mem_map.mpr ⟨g, member, same⟩)
    have apart := spread.apart g (List.mem_cons_of_mem _ member) _ List.mem_cons_self differ
    have header := (kept.spread.header member).1
    dsimp only [Given.header] at apart header
    exact handed.bytes place (by omega)

variable [NeZero n]

theorem realloc_spares (kept : Kept w.s w.live) {pid : Pid n} {ptr size : U32}
    (allowed : Allowed w (.realloc pid ptr size)) (member : g ∈ w.live)
    (other : ¬ (g.owner = pid ∧ g.pointer = ptr.toNat)) {place : Nat} (low : g.pointer ≤ place)
    (high : place < g.pointer + g.size) :
    (memRealloc w.s pid ptr size).1.memory place = w.s.memory place := by
  obtain ⟨fits, there, claimed⟩ := allowed
  by_cases null : ptr = 0
  · have result : memRealloc w.s pid ptr size = memAlloc w.s pid size := if_pos null
    rw [result]
    exact (allocFrom_handed kept fits there .mem).spares kept member low high
  · by_cases owned : w.Owns pid ptr.toNat
    · obtain ⟨g₀, member₀, rfl, here⟩ := owned
      obtain ⟨front, back, split⟩ := List.append_of_mem member₀
      rw [split] at kept member
      have among : g ∈ front ++ back := by
        rcases List.mem_cons.mp ((live_perm front back g₀).subset member) with rfl | rest
        · exact absurd ⟨rfl, here⟩ other
        · exact rest
      by_cases asked : size = 0
      · obtain ⟨s', freed, _, bytes⟩ := memFree_owned kept here
        have header := (headerOf_eq kept (by simp)).mpr here
        have marked := kept.chained.words g₀ (by simp)
        have claims : Claims w.s g₀.owner (headerOf ptr) := by
          rw [← header]
          exact ⟨marked.magic, marked.owner⟩
        have result : memRealloc w.s g₀.owner ptr size = (s', 0) := by
          unfold memRealloc
          rw [if_neg null, if_neg (not_not.mpr claims), if_pos asked, freed]
        rw [result]
        exact bytes place (kept.spread.outside member low high)
      · rcases memRealloc_owned kept here fits asked with ⟨_, same⟩ | ⟨_, _, _, spares⟩
        · rw [same]
        · exact spares g among place low high
    · have unclaimed : ¬ Claims w.s pid (headerOf ptr) := fun claims =>
        (claimed claims).elim null owned
      rw [memRealloc_other null unclaimed]

theorem step_spares (kept : Kept w.s w.live) {input : Input n} (allowed : Allowed w input)
    (member : g ∈ w.live) (spared : Spares g input) :
    g ∈ (w.step input).live ∧ ∀ place, g.pointer ≤ place → place < g.pointer + g.size →
      (∀ byte, input ≠ .write place byte) → (w.step input).s.memory place = w.s.memory place := by
  cases input with
  | alloc pid size =>
    exact ⟨mem_give member, fun place low high _ =>
      (allocFrom_handed kept allowed.1 allowed.2 .mem).spares kept member low high⟩
  | allocBulk pid size =>
    exact ⟨mem_give member, fun place low high _ =>
      (memAllocBulk_handed kept allowed.1 allowed.2).spares kept member low high⟩
  | realloc pid ptr size =>
    refine ⟨?_, fun place low high _ => realloc_spares kept allowed member spared low high⟩
    unfold World.step
    dsimp only
    split
    · exact mem_give member
    · exact mem_give (mem_drop member spared)
  | write place byte =>
    refine ⟨member, fun other low high away => ?_⟩
    exact update_of_ne (fun same => away byte (by rw [same])) _ _
  | kernel pool call => exact ⟨member, fun _ _ _ _ => rfl⟩
  | starts pid => exact ⟨member, fun _ _ _ _ => rfl⟩
  | reaped pid =>
    refine ⟨List.mem_filter.mpr ⟨member, decide_eq_true spared⟩, fun place low high _ => ?_⟩
    have itself : Kept { w.s with allocs := update w.s.allocs pid (w.s.allocs pid) } w.live := by
      rw [update_eq_self]
      exact kept
    obtain ⟨_, _, _, bytes⟩ := giveAllBack_kept (kept.few pid) itself
    exact bytes place (kept.spread.outside member low high)
  | free pid ptr =>
    refine ⟨mem_drop member spared, fun place low high _ => ?_⟩
    unfold World.step
    dsimp only
    by_cases null : ptr = 0
    · have result : memFree w.s pid ptr = (w.s, 0) := if_pos null
      rw [result]
    · by_cases owned : w.Owns pid ptr.toNat
      · obtain ⟨g₀, member₀, rfl, here⟩ := owned
        obtain ⟨front, back, split⟩ := List.append_of_mem member₀
        rw [split] at kept member
        obtain ⟨s', freed, _, bytes⟩ := memFree_owned kept here
        rw [freed]
        exact bytes place (kept.spread.outside member low high)
      · rw [memFree_other kept null (Kept.foreign owned)]
  | handOver pid ptr toPid =>
    unfold World.step
    dsimp only
    cases somebody : receiverOf w.s toPid with
    | none =>
      rw [memHandOver_nobody somebody]
      exact ⟨member, fun _ _ _ _ => rfl⟩
    | some receiver =>
      refine ⟨List.mem_append_right _ (mem_drop member spared), fun place low high _ => ?_⟩
      by_cases owned : w.Owns pid ptr.toNat
      · obtain ⟨g₀, member₀, rfl, here⟩ := owned
        obtain ⟨front, back, split⟩ := List.append_of_mem member₀
        rw [split] at kept member
        obtain ⟨s', moved, _, bytes⟩ := memHandOver_owned kept here somebody
        rw [moved]
        exact bytes place (kept.spread.outside member low high)
      · rw [memHandOver_other kept (Kept.foreign owned)]

end Bytes

end Ubiqos.Memory

/-!
The allocator of the C library, `src/common/ubiqos_stdlib.h`, over the kernel's: eight bytes in front
of every block remember its size.
-/

namespace Ubiqos.Stdlib

open Function Machine Words Memory

/-- `for (i = 0; i < n; i++) s[i] = c`. -/
def memset (memory : Memory) (here : Nat) (byte : BitVec 8) : Nat → Memory
  | 0 => memory
  | i + 1 => update (memset memory here byte i) (here + i) byte

section Calls
variable {n : Nat} [NeZero n]

def blockOf (s : State n) (pid : Pid n) (size : U32) : State n × Nat :=
  let p := memAllocBulk s pid size
  if p.2 ≠ 0 then p else Memory.memAlloc p.1 pid size

def malloc (s : State n) (pid : Pid n) (size : U32) : State n × Nat :=
  let p := blockOf s pid (size + 8#32)
  if p.2 = 0 then p else ({ p.1 with memory := store p.1.memory p.2 size.toNat }, p.2 + 8)

def free (s : State n) (pid : Pid n) (ptr : U32) : State n :=
  if ptr = 0 then s else (Memory.memFree s pid (ptr - 8#32)).1

def calloc (s : State n) (pid : Pid n) (nmemb size : U32) : State n × Nat :=
  let p := malloc s pid (nmemb * size)
  if p.2 = 0 then p
  else ({ p.1 with memory := memset p.1.memory p.2 0 (nmemb * size).toNat }, p.2)

def realloc (s : State n) (pid : Pid n) (ptr size : U32) : State n × Nat :=
  if ptr = 0 then malloc s pid size
  else
    let old := load s.memory (ptr - 8#32).toNat
    if size.toNat ≤ old then (s, ptr.toNat)
    else
      let q := malloc s pid size
      if q.2 = 0 then (q.1, 0)
      else (free { q.1 with memory := copy q.1.memory q.2 ptr.toNat old } pid ptr, q.2)

end Calls

/-- The bytes from `ptr` on, with the library's and the kernel's header before them, are inside the pool
and clear of its headers and of all else that was handed out. -/
def Room {n : Nat} (s : State n) (ptr size : Nat) : Prop :=
  ∃ heap, s.pools (poolOf s (ptr - 24)) = some heap ∧
    Tlsf.Clear heap.pool (heap.live.filter fun request => request.1 ≠ ptr - 24) (ptr - 24) (size + 24)

def Good (size : Nat) : Prop :=
  size + 24 ≤ Tlsf.largestRequest ∨ (size + 8) % 2 ^ 32 = 0 ∨ (size + 24) % 2 ^ 32 = 0

/-- The system with the blocks that the library has given, as a program knows them. -/
structure Program (n : Nat) where
  w : World n
  held : List (Given n)

inductive Step (n : Nat)
  | malloc (pid : Pid n) (size : U32)
  | calloc (pid : Pid n) (nmemb size : U32)
  | realloc (pid : Pid n) (ptr size : U32)
  | free (pid : Pid n) (ptr : U32)
  | other (input : Input n)

section Runs
variable {n : Nat} [NeZero n]

def took (p : Program n) (pid : Pid n) (size : U32) (result : State n × Nat) : Program n :=
  ⟨⟨result.1, give p.w.live pid (result.2 - 8) (size + 8#32)⟩, give p.held pid result.2 size⟩

def without (p : Program n) (pid : Pid n) (ptr : U32) : Program n :=
  ⟨⟨p.w.s, drop p.w.live pid (ptr - 8#32).toNat⟩, drop p.held pid ptr.toNat⟩

def Program.step (p : Program n) : Step n → Program n
  | .malloc pid size => took p pid size (Stdlib.malloc p.w.s pid size)
  | .calloc pid nmemb size => took p pid (nmemb * size) (Stdlib.calloc p.w.s pid nmemb size)
  | .realloc pid ptr size =>
    let result := Stdlib.realloc p.w.s pid ptr size
    if ptr = 0 then took p pid size result
    else if result.2 = 0 ∨ result.2 = ptr.toNat then { p with w := { p.w with s := result.1 } }
    else took (without p pid ptr) pid size result
  | .free pid ptr =>
    if ptr = 0 then p
    else
      let rest := without p pid ptr
      { rest with w := { rest.w with s := Stdlib.free p.w.s pid ptr } }
  | .other input =>
    { w := p.w.step input
      held := match input with
        | .reaped pid => p.held.filter fun b => b.owner ≠ pid
        | _ => p.held }

def Program.Holds (p : Program n) (pid : Pid n) (ptr : U32) : Prop :=
  ∃ b ∈ p.held, b.owner = pid ∧ b.pointer = ptr.toNat

/-- What the rest of the system does is not about the library's blocks, but for what is written behind
their headers. -/
def Leaves (b : Given n) : Input n → Prop
  | .free pid ptr => ¬ (b.owner = pid ∧ b.pointer = ptr.toNat + 8)
  | .realloc pid ptr _ => ¬ (b.owner = pid ∧ b.pointer = ptr.toNat + 8)
  | .handOver pid ptr _ => ¬ (b.owner = pid ∧ b.pointer = ptr.toNat + 8)
  | .write place _ => place < b.pointer - 8 ∨ b.pointer ≤ place
  | _ => True

def Sane (p : Program n) : Step n → Prop
  | .malloc pid size => Good size.toNat ∧ p.w.s.procs pid ≠ .free
  | .calloc pid nmemb size =>
    (nmemb.toNat * size.toNat < 2 ^ 32 → Good (nmemb.toNat * size.toNat)) ∧
      (2 ^ 32 ≤ nmemb.toNat * size.toNat →
        (nmemb * size + 8#32) = 0 ∨ (nmemb * size + 24#32) = 0) ∧ p.w.s.procs pid ≠ .free
  | .realloc pid ptr size => Good size.toNat ∧ p.w.s.procs pid ≠ .free ∧ (ptr = 0 ∨ p.Holds pid ptr)
  | .free pid ptr => ptr = 0 ∨ p.Holds pid ptr
  | .other input => Allowed p.w input ∧ ∀ b ∈ p.held, Leaves b input

def Resized (p : Program n) (pid : Pid n) (ptr size : U32) (result : State n × Nat) : Prop :=
  (result.2 = 0 → result.1 = p.w.s) ∧
    (result.2 ≠ 0 → Room result.1 result.2 size.toNat ∧
      ∀ b ∈ p.held, b.owner = pid → b.pointer = ptr.toNat → ∀ i < min b.size size.toNat,
        result.1.memory (result.2 + i) = p.w.s.memory (b.pointer + i))

def Right (p : Program n) : Step n → Prop
  | .malloc pid size =>
    (Stdlib.malloc p.w.s pid size).2 ≠ 0 →
      Room (Stdlib.malloc p.w.s pid size).1 (Stdlib.malloc p.w.s pid size).2 size.toNat
  | .calloc pid nmemb size =>
    (Stdlib.calloc p.w.s pid nmemb size).2 ≠ 0 →
      Room (Stdlib.calloc p.w.s pid nmemb size).1 (Stdlib.calloc p.w.s pid nmemb size).2
          (nmemb.toNat * size.toNat) ∧
        ∀ i < nmemb.toNat * size.toNat, (Stdlib.calloc p.w.s pid nmemb size).1.memory
          ((Stdlib.calloc p.w.s pid nmemb size).2 + i) = 0
  | .realloc pid ptr size => Resized p pid ptr size (Stdlib.realloc p.w.s pid ptr size)
  | _ => True

/-- The block of the kernel's that a block of the library's is in, with the size in front. -/
structure Within (s : State n) (live : List (Given n)) (b : Given n) : Prop where
  some : 8 < b.pointer
  block : (⟨b.owner, b.pointer - 8, b.size + 8⟩ : Given n) ∈ live
  size : load s.memory (b.pointer - 8) = b.size

structure Program.Whole (p : Program n) : Prop where
  kept : Kept p.w.s p.w.live
  within : ∀ b ∈ p.held, Within p.w.s p.w.live b

end Runs

section Made
variable {n : Nat} {s : State n} {live : List (Given n)} {pid : Pid n}

theorem memset_outside {memory : Memory} {here count place : Nat} {byte : BitVec 8}
    (outside : place < here ∨ here + count ≤ place) : memset memory here byte count place = memory place := by
  induction count with
  | zero => rfl
  | succ i ih =>
    have apart : place ≠ here + i := by omega
    rw [memset, update_of_ne apart]
    exact ih (by omega)

theorem memset_inside {memory : Memory} {here count i : Nat} {byte : BitVec 8} (inside : i < count) :
    memset memory here byte count (here + i) = byte := by
  induction count with
  | zero => exact absurd inside (Nat.not_lt_zero i)
  | succ last ih =>
    rw [memset]
    by_cases same : i = last
    · rw [same, update_self]
    · have apart : here + i ≠ here + last := by omega
      rw [update_of_ne apart]
      exact ih (by omega)

/-- A block that the library gives: it has the size in front, and no other is written to. -/
structure Made (s : State n) (live : List (Given n)) (pid : Pid n) (size : Nat) (result : State n × Nat) :
    Prop where
  refused : result.2 = 0 → result.1 = s
  given : result.2 ≠ 0 → ∃ p, result.2 = p + 8 ∧ size + 8 < 2 ^ 32 ∧
    Kept result.1 (⟨pid, p, size + 8⟩ :: live) ∧ load result.1.memory p = size ∧
      ∀ g ∈ live, ∀ place, g.pointer ≤ place → place < g.pointer + g.size →
        result.1.memory place = s.memory place

theorem Made.filled {result : State n × Nat} {size : Nat} (made : Made s live pid size result)
    (some : result.2 ≠ 0) {memory : Memory}
    (same : ∀ place, place < result.2 ∨ result.2 + size ≤ place → memory place = result.1.memory place) :
    Made s live pid size ({ result.1 with memory := memory }, result.2) := by
  obtain ⟨p, at', fits, kept, sized, bytes⟩ := made.given some
  have spread := kept.spread
  refine ⟨fun none => absurd none some, fun _ => ⟨p, at', fits, ?_, ?_, ?_⟩⟩
  · refine kept.written rfl rfl rfl fun g member place low high => same place ?_
    by_cases itself : g.pointer = p
    · omega
    · have apart := spread.apart g member _ List.mem_cons_self itself
      have header := (spread.header (g := ⟨pid, p, size + 8⟩) List.mem_cons_self).1
      dsimp only at apart header
      omega
  · rw [← sized]
    exact load_congr fun place low high => same place (by omega)
  · intro g member place low high
    have differ : g.pointer ≠ p := fun same =>
      (List.nodup_cons.mp spread.once).1 (List.mem_map.mpr ⟨g, member, same⟩)
    have apart := spread.apart g (List.mem_cons_of_mem _ member) _ List.mem_cons_self differ
    have header := (spread.header (List.mem_cons_of_mem _ member)).1
    have header' := (spread.header (g := ⟨pid, p, size + 8⟩) List.mem_cons_self).1
    dsimp only at apart header'
    rw [← bytes g member place low high]
    exact same place (by omega)

theorem Made.room {result : State n × Nat} {size : Nat} (made : Made s live pid size result)
    (some : result.2 ≠ 0) : Room result.1 result.2 size := by
  obtain ⟨p, at', _, kept, _⟩ := made.given some
  obtain ⟨heap, here, clear⟩ := kept.housed.clear List.mem_cons_self
  have header : result.2 - 24 = (⟨pid, p, size + 8⟩ : Given n).header := by
    rw [at']
    exact Nat.add_sub_add_right p 8 16
  rw [Room, header]
  exact ⟨heap, here, clear⟩

theorem Made.within {result : State n × Nat} {size : Nat} (made : Made s live pid size result)
    (some : result.2 ≠ 0) :
    Within result.1 (⟨pid, result.2 - 8, size + 8⟩ :: live) ⟨pid, result.2, size⟩ := by
  obtain ⟨p, at', _, kept, sized, _⟩ := made.given some
  have low := kept.spread.low _ List.mem_cons_self
  have back : result.2 - 8 = p := by rw [at', Nat.add_sub_cancel]
  dsimp only [hdrBytes] at low
  refine ⟨?_, List.mem_cons_self, ?_⟩
  · dsimp only
    omega
  · dsimp only
    rw [back]
    exact sized

theorem Within.back {b : Given n} (within : Within s live b) {ptr : U32} (here : b.pointer = ptr.toNat) :
    (ptr - 8#32).toNat = b.pointer - 8 := by
  have some := within.some
  have sub : (ptr - 8#32).toNat = (2 ^ 32 - 8 + ptr.toNat) % 2 ^ 32 := by
    rw [BitVec.toNat_sub]
    rfl
  omega

end Made

section Calls
variable {n : Nat} [NeZero n] {s : State n} {live : List (Given n)} {pid : Pid n}

variable {size : U32}

theorem allocFrom_nothing (none : size = 0 ∨ size + 16#32 = 0) (pool : PoolName) :
    (allocFrom s pid pool size).2 = 0 := by
  unfold allocFrom
  split
  · rfl
  · dsimp only
    split
    · rfl
    · rename_i asked
      have zero : size + 16#32 = 0 := none.resolve_left fun none => asked (Or.inl none)
      rw [zero]
      rfl

theorem blockOf_nothing (none : size = 0 ∨ size + 16#32 = 0) :
    (blockOf s pid size).2 = 0 := by
  have bulk : ∀ s : State n, (memAllocBulk s pid size).2 = 0 := by
    intro s
    unfold memAllocBulk
    dsimp only
    rw [if_neg (not_not.mpr (allocFrom_nothing none .bulk))]
    exact allocFrom_nothing none .mem
  unfold blockOf
  dsimp only
  rw [if_neg (not_not.mpr (bulk s))]
  exact allocFrom_nothing none .mem

theorem blockOf_handed (kept : Kept s live) (fits : Fits size) (there : s.procs pid ≠ .free) :
    Handed s live pid size (blockOf s pid size) := by
  have first := memAllocBulk_handed kept fits there
  unfold blockOf
  dsimp only
  split
  · exact first
  · rename_i nothing
    rw [first.refused (not_not.mp nothing)]
    exact allocFrom_handed kept fits there .mem

theorem good_sum (good : Good size.toNat) :
    Fits (size + 8#32) ∧ ((size + 8#32).toNat = size.toNat + 8 ∨
      (size + 8#32 = 0 ∨ size + 8#32 + 16#32 = 0)) := by
  have bound := size.isLt
  have sum : (size + 8#32).toNat = (size.toNat + 8) % 2 ^ 32 := by
    rw [BitVec.toNat_add]
    rfl
  have sum' : (size + 8#32 + 16#32).toNat = (size.toNat + 24) % 2 ^ 32 := by
    rw [BitVec.toNat_add, sum]
    change ((size.toNat + 8) % 2 ^ 32 + 16) % 2 ^ 32 = _
    omega
  have zero : ∀ x : U32, x.toNat = 0 → x = 0 := fun x none => BitVec.eq_of_toNat_eq none
  rcases good with small | none | none
  · unfold Tlsf.largestRequest at small
    have whole : (size + 8#32).toNat = size.toNat + 8 := by omega
    refine ⟨Or.inl ?_, Or.inl whole⟩
    rw [whole]
    unfold hdrBytes Tlsf.largestRequest
    omega
  · have nothing := zero _ (sum.trans none)
    refine ⟨Or.inl ?_, Or.inr (Or.inl nothing)⟩
    rw [nothing]
    decide
  · have nothing := zero _ (sum'.trans none)
    exact ⟨Or.inr nothing, Or.inr (Or.inr nothing)⟩

theorem malloc_made (kept : Kept s live) (good : Good size.toNat)
    (there : s.procs pid ≠ .free) : Made s live pid size.toNat (malloc s pid size) := by
  obtain ⟨fits, sum⟩ := good_sum good
  have handed := blockOf_handed kept fits there
  by_cases null : (blockOf s pid (size + 8#32)).2 = 0
  · have result : malloc s pid size = blockOf s pid (size + 8#32) := if_pos null
    rw [result]
    exact ⟨handed.refused, fun some => absurd null some⟩
  · have whole : (size + 8#32).toNat = size.toNat + 8 :=
      sum.resolve_right fun none => null (blockOf_nothing none)
    have result : malloc s pid size =
        ({ (blockOf s pid (size + 8#32)).1 with
          memory := store (blockOf s pid (size + 8#32)).1.memory (blockOf s pid (size + 8#32)).2
            size.toNat }, (blockOf s pid (size + 8#32)).2 + 8) := if_neg null
    have kept' := handed.kept
    have spares : ∀ g ∈ live, ∀ place, g.pointer ≤ place → place < g.pointer + g.size →
        (blockOf s pid (size + 8#32)).1.memory place = s.memory place :=
      fun _ member _ low high => handed.spares kept member low high
    rw [result]
    generalize blockOf s pid (size + 8#32) = p at null kept' spares ⊢
    unfold give at kept'
    rw [if_neg null, whole] at kept'
    have spread := kept'.spread
    refine ⟨fun none => absurd none (Nat.succ_ne_zero _), fun _ => ⟨p.2, rfl, ?_, ?_, ?_, ?_⟩⟩
    · have bound := (size + 8#32).isLt
      omega
    · -- the size is written into the block itself
      refine kept'.written rfl rfl rfl fun g member place low high => ?_
      have away : place < p.2 ∨ p.2 + (size.toNat + 8) ≤ place := by
        by_cases same : g.pointer = p.2
        · omega
        · have apart := spread.apart g member _ List.mem_cons_self same
          have header := (spread.header (g := ⟨pid, p.2, size.toNat + 8⟩) List.mem_cons_self).1
          dsimp only at apart header
          omega
      exact store_outside (by omega)
    · exact load_store size.isLt
    · intro g member place low high
      have differ : g.pointer ≠ p.2 := fun same =>
        (List.nodup_cons.mp spread.once).1 (List.mem_map.mpr ⟨g, member, same⟩)
      have apart := spread.apart g (List.mem_cons_of_mem _ member) _ List.mem_cons_self differ
      have header := (spread.header (List.mem_cons_of_mem _ member)).1
      have header' := (spread.header (g := ⟨pid, p.2, size.toNat + 8⟩) List.mem_cons_self).1
      dsimp only at apart header'
      rw [← spares g member place low high]
      exact store_outside (by omega)

theorem calloc_made (kept : Kept s live) {nmemb size : U32} (good : Good (nmemb * size).toNat)
    (there : s.procs pid ≠ .free) :
    Made s live pid (nmemb * size).toNat (calloc s pid nmemb size) ∧
      ((calloc s pid nmemb size).2 ≠ 0 → ∀ i < (nmemb * size).toNat,
        (calloc s pid nmemb size).1.memory ((calloc s pid nmemb size).2 + i) = 0) := by
  have made := malloc_made kept good there
  unfold calloc
  dsimp only
  generalize malloc s pid (nmemb * size) = result at made ⊢
  split
  · rename_i none
    exact ⟨made, fun some => absurd none some⟩
  · rename_i some
    exact ⟨made.filled some fun place outside => memset_outside outside, fun _ i inside => memset_inside inside⟩

omit [NeZero n] in
theorem free_made (kept : Kept s live) {b : Given n} (within : Within s live b) {ptr : U32}
    (here : b.pointer = ptr.toNat) :
    Kept (free s b.owner ptr) (drop live b.owner (ptr - 8#32).toNat) ∧
      ∀ place, Memory.Outside live place → (free s b.owner ptr).memory place = s.memory place := by
  have back := within.back here
  have some : ptr ≠ 0 := by
    rintro rfl
    have low := within.some
    rw [here] at low
    exact absurd low (by decide)
  obtain ⟨front, rest, split⟩ := List.append_of_mem within.block
  rw [split] at kept ⊢
  obtain ⟨s', freed, kept', bytes⟩ := memFree_owned kept back.symm
  have result : free s b.owner ptr = s' := by
    unfold free
    rw [if_neg some, freed]
  rw [result, back]
  have dropped := drop_owned kept.housed.once
  dsimp only at dropped
  rw [dropped]
  exact ⟨kept', bytes⟩

theorem realloc_made (kept : Kept s live) {b : Given n} (held : Within s live b) {ptr size : U32}
    (here : b.pointer = ptr.toNat) (good : Good size.toNat) :
    size.toNat ≤ b.size ∧ realloc s b.owner ptr size = (s, ptr.toNat) ∨
      realloc s b.owner ptr size = (s, 0) ∨
      b.size < size.toNat ∧ (realloc s b.owner ptr size).2 ≠ 0 ∧
        (realloc s b.owner ptr size).2 ≠ ptr.toNat ∧
        Made s (drop live b.owner (ptr - 8#32).toNat) b.owner size.toNat (realloc s b.owner ptr size) ∧
        ∀ i < b.size, (realloc s b.owner ptr size).1.memory ((realloc s b.owner ptr size).2 + i) =
          s.memory (b.pointer + i) := by
  have back := held.back here
  have some : ptr ≠ 0 := by
    rintro rfl
    have low := held.some
    rw [here] at low
    exact absurd low (by decide)
  have made := malloc_made kept good (kept.there _ held.block)
  dsimp only at made
  unfold realloc
  rw [if_neg some, back, held.size]
  dsimp only
  by_cases small : size.toNat ≤ b.size
  · rw [if_pos small]
    exact Or.inl ⟨small, rfl⟩
  · rw [if_neg small]
    generalize malloc s b.owner size = q at made ⊢
    by_cases null : q.2 = 0
    · rw [if_pos null, made.refused null]
      exact Or.inr (Or.inl rfl)
    · rw [if_neg null]
      refine Or.inr (Or.inr ⟨Nat.lt_of_not_le small, null, ?_⟩)
      have copied := (@Made.filled _ _ _ _ _ _ made null (copy q.1.memory q.2 ptr.toNat b.size))
        fun place outside => copy_outside (by omega)
      obtain ⟨p, at', _, kept', sized, bytes⟩ := copied.given null
      obtain ⟨_, at'', _, keptMade, _, stay⟩ := made.given null
      obtain rfl : p = _ := Nat.add_right_cancel (at'.symm.trans at'')
      have spread := kept'.spread
      have differ : b.pointer - 8 ≠ p := fun same =>
        (List.nodup_cons.mp spread.once).1 (List.mem_map.mpr ⟨_, held.block, same⟩)
      have within' : Within { q.1 with memory := copy q.1.memory q.2 ptr.toNat b.size }
          (⟨b.owner, p, size.toNat + 8⟩ :: live) b := by
        refine ⟨held.some, List.mem_cons_of_mem _ held.block, ?_⟩
        have stays : ∀ place, b.pointer - 8 ≤ place → place < b.pointer - 8 + (b.size + 8) → _ :=
          bytes _ held.block
        exact (load_congr fun place low high => stays place low (by omega)).trans held.size
      obtain ⟨kept'', untouched⟩ := free_made kept' within' here
      rw [back] at kept''
      dsimp only at kept'' untouched bytes sized ⊢
      generalize free _ b.owner ptr = final at kept'' untouched ⊢
      have low := held.some
      have apart := spread.apart _ (List.mem_cons_of_mem _ held.block) _ List.mem_cons_self differ
      have header := (spread.header (g := ⟨b.owner, p, size.toNat + 8⟩) List.mem_cons_self).1
      have header' := (spread.header (List.mem_cons_of_mem _ held.block)).1
      dsimp only at apart header header' at'
      -- the new block's bytes and the others' are in no header that is written
      have inNew : ∀ place, p ≤ place → place < p + (size.toNat + 8) → _ := fun place low high =>
        untouched place (spread.outside List.mem_cons_self low high)
      have inOld : ∀ g ∈ live, ∀ place, g.pointer ≤ place → place < g.pointer + g.size → _ :=
        fun g member place low high =>
          (untouched place (spread.outside (List.mem_cons_of_mem _ member) low high)).trans
            (bytes g member place low high)
      have dropped : drop (⟨b.owner, p, size.toNat + 8⟩ :: live) b.owner (b.pointer - 8) =
          ⟨b.owner, p, size.toNat + 8⟩ :: drop live b.owner (b.pointer - 8) :=
        List.filter_cons_of_pos (decide_eq_true fun both => differ both.2.symm)
      rw [dropped] at kept''
      refine ⟨?_, ⟨fun none => absurd none null, fun _ => ⟨p, at', ?_, kept'', ?_, ?_⟩⟩, ?_⟩
      · omega
      · obtain ⟨_, _, fits, _⟩ := made.given null
        exact fits
      · rw [← sized]
        exact load_congr fun place low high => inNew place low (by omega)
      · intro g member place low high
        exact inOld g (List.mem_of_mem_filter member) place low high
      · intro i inside
        rw [inNew _ (by omega) (by omega)]
        have source : q.1.memory (ptr.toNat + i) = s.memory (b.pointer + i) := by
          rw [← here]
          exact stay _ held.block _ (by dsimp only; omega) (by dsimp only; omega)
        rw [← source]
        exact copy_inside (by omega) inside

end Calls

section Steps
variable {n : Nat} {s s' : State n} {live live' : List (Given n)} {b : Given n}

theorem Within.stays (within : Within s live b)
    (there : (⟨b.owner, b.pointer - 8, b.size + 8⟩ : Given n) ∈ live')
    (same : ∀ place, b.pointer - 8 ≤ place → place < b.pointer → s'.memory place = s.memory place) :
    Within s' live' b := by
  have some := within.some
  refine ⟨some, there, ?_⟩
  exact (load_congr fun place low high => same place low (by omega)).trans within.size

theorem Within.room (within : Within s live b) (kept : Kept s live) {size : Nat} (less : size ≤ b.size) :
    Room s b.pointer size := by
  obtain ⟨heap, here, clear⟩ := kept.housed.clear within.block
  have header : (⟨b.owner, b.pointer - 8, b.size + 8⟩ : Given n).header = b.pointer - 24 := by
    change b.pointer - 8 - 16 = b.pointer - 24
    omega
  rw [header] at here clear
  dsimp only [hdrBytes] at clear
  refine ⟨heap, here, ⟨clear.inside.1, ?_⟩, fun block header => ?_, fun other member => ?_⟩
  · have inside := clear.inside.2
    omega
  · have apart := clear.headers block header
    omega
  · have apart := clear.others other member
    omega

theorem Made.took {q : Program n} {pid : Pid n} {size : U32} {result : State n × Nat}
    (made : Made s q.w.live pid size.toNat result) (some : result.2 ≠ 0)
    (within : ∀ b ∈ q.held, Within s q.w.live b) : (took q pid size result).Whole := by
  obtain ⟨p, at', fits, kept, _, bytes⟩ := made.given some
  have whole : (size + 8#32).toNat = size.toNat + 8 := by
    rw [BitVec.toNat_add]
    exact Nat.mod_eq_of_lt fits
  have low := kept.spread.low _ List.mem_cons_self
  have back : result.2 - 8 = p := by omega
  have live : give q.w.live pid (result.2 - 8) (size + 8#32) = ⟨pid, p, size.toNat + 8⟩ :: q.w.live := by
    dsimp only at low
    rw [give, back, whole, if_neg (by omega)]
  have held : give q.held pid result.2 size = ⟨pid, result.2, size.toNat⟩ :: q.held := if_neg some
  constructor
  · change Kept result.1 (give q.w.live pid (result.2 - 8) (size + 8#32))
    rw [live]
    exact kept
  · change ∀ b ∈ give q.held pid result.2 size, Within result.1 (give q.w.live pid (result.2 - 8) _) b
    rw [live, held]
    refine List.forall_mem_cons.mpr ⟨?_, fun b member => ?_⟩
    · have new := made.within some
      rwa [back] at new
    · have old := within b member
      have some' := old.some
      exact old.stays (List.mem_cons_of_mem _ old.block) fun place low high =>
        bytes _ old.block place low (by dsimp only; omega)

theorem Program.Whole.took {p : Program n} (whole : p.Whole) {pid : Pid n} {size : U32}
    {result : State n × Nat} (made : Made p.w.s p.w.live pid size.toNat result) :
    (Stdlib.took p pid size result).Whole := by
  by_cases some : result.2 = 0
  · have same : Stdlib.took p pid size result = p := by
      unfold Stdlib.took
      rw [made.refused some, some]
      rfl
    rw [same]
    exact whole
  · exact made.took some whole.within

variable [NeZero n] {p : Program n}

theorem calloc_nothing {pid : Pid n} {nmemb size : U32}
    (none : nmemb * size + 8#32 = 0 ∨ nmemb * size + 24#32 = 0) : (calloc s pid nmemb size).2 = 0 := by
  have zero : (blockOf s pid (nmemb * size + 8#32)).2 = 0 := blockOf_nothing (none.imp_right fun none => by
    rw [← none, BitVec.add_assoc]
    rfl)
  have refused : (malloc s pid (nmemb * size)).2 = 0 := by
    unfold malloc
    dsimp only
    rw [if_pos zero]
    exact zero
  unfold calloc
  dsimp only
  rw [if_pos refused]
  exact refused

theorem sane_product {nmemb size : U32}
    (small : nmemb.toNat * size.toNat < 2 ^ 32 → Good (nmemb.toNat * size.toNat))
    (wraps : 2 ^ 32 ≤ nmemb.toNat * size.toNat → nmemb * size + 8#32 = 0 ∨ nmemb * size + 24#32 = 0) :
    Good (nmemb * size).toNat ∧ ((nmemb * size).toNat = nmemb.toNat * size.toNat ∨
      (nmemb * size + 8#32 = 0 ∨ nmemb * size + 24#32 = 0)) := by
  by_cases fits : nmemb.toNat * size.toNat < 2 ^ 32
  · have product : (nmemb * size).toNat = nmemb.toNat * size.toNat := by
      rw [BitVec.toNat_mul, Nat.mod_eq_of_lt fits]
    rw [product]
    exact ⟨small fits, Or.inl rfl⟩
  · have none := wraps (Nat.le_of_not_lt fits)
    refine ⟨Or.inr (none.imp (fun none => ?_) fun none => ?_), Or.inr none⟩
    · exact (BitVec.toNat_add ..).symm.trans (congrArg BitVec.toNat none)
    · exact (BitVec.toNat_add ..).symm.trans (congrArg BitVec.toNat none)

theorem step_right (whole : p.Whole) (step : Step n) (sane : Sane p step) : Right p step := by
  cases step with
  | malloc pid size => exact (malloc_made whole.kept sane.1 sane.2).room
  | calloc pid nmemb size =>
    obtain ⟨good, product⟩ := sane_product sane.1 sane.2.1
    obtain ⟨made, zero⟩ := calloc_made whole.kept good sane.2.2
    intro some
    rw [← product.resolve_right fun none => some (calloc_nothing none)]
    exact ⟨made.room some, zero some⟩
  | realloc pid ptr size =>
    change Resized p pid ptr size _
    obtain ⟨good, there, null | ⟨b, member, rfl, here⟩⟩ := sane
    · have result : Stdlib.realloc p.w.s pid ptr size = Stdlib.malloc p.w.s pid size := if_pos null
      have made := malloc_made whole.kept good there
      rw [result]
      refine ⟨made.refused, fun some => ⟨made.room some, fun b member _ at' => ?_⟩⟩
      have low := (whole.within b member).some
      rw [at', null] at low
      exact absurd low (by decide)
    · have within := whole.within b member
      -- a block is known by its place
      have known : ∀ b' ∈ p.held, b'.pointer = ptr.toNat → b'.pointer = b.pointer ∧ b'.size = b.size := by
        intro b' member' at'
        have size := (whole.within b' member').size
        rw [at', ← here, within.size] at size
        exact ⟨at'.trans here.symm, size.symm⟩
      rcases realloc_made whole.kept within here good with ⟨less, result⟩ | result | ⟨more, some, _, made, bytes⟩
      · rw [result, ← here]
        refine ⟨fun none => absurd none (Nat.ne_of_gt (Nat.lt_of_le_of_lt (Nat.zero_le _) within.some)),
          fun _ => ⟨within.room whole.kept less, fun b' member' _ at' i _ => ?_⟩⟩
        rw [at', ← here]
      · rw [result]
        exact ⟨fun _ => rfl, fun some => absurd rfl some⟩
      · refine ⟨fun none => absurd none some, fun _ => ⟨made.room some, fun b' member' _ at' i inside => ?_⟩⟩
        obtain ⟨place, size⟩ := known b' member' at'
        rw [place]
        exact bytes i (by omega)
  | free pid ptr => trivial
  | other input => trivial

theorem Within.spares {w : World n} (within : Within w.s w.live b) (kept : Kept w.s w.live)
    {input : Input n} (allowed : Allowed w input) (leaves : Leaves b input)
    (stays : ∀ pid, input = .reaped pid → b.owner ≠ pid) :
    Within (w.step input).s (w.step input).live b := by
  have some := within.some
  have spared : Memory.Spares ⟨b.owner, b.pointer - 8, b.size + 8⟩ input := by
    cases input with
    | free pid ptr => exact fun both => leaves ⟨both.1, by have := both.2; dsimp only at this; omega⟩
    | realloc pid ptr size => exact fun both => leaves ⟨both.1, by have := both.2; dsimp only at this; omega⟩
    | handOver pid ptr toPid => exact fun both => leaves ⟨both.1, by have := both.2; dsimp only at this; omega⟩
    | reaped pid => exact stays pid rfl
    | _ => trivial
  obtain ⟨there, bytes⟩ := step_spares kept allowed within.block spared
  refine within.stays there fun place low high => bytes place low (by dsimp only; omega) ?_
  rintro byte rfl
  have apart : place < b.pointer - 8 ∨ b.pointer ≤ place := leaves
  omega

theorem step_whole (whole : p.Whole) (step : Step n) (sane : Sane p step) : (p.step step).Whole := by
  -- Every call gives a block, takes one back or does both; the other blocks stay as they are.
  cases step with
  | malloc pid size => exact whole.took (malloc_made whole.kept sane.1 sane.2)
  | calloc pid nmemb size =>
    obtain ⟨good, _⟩ := sane_product sane.1 sane.2.1
    exact whole.took (calloc_made whole.kept good sane.2.2).1
  | realloc pid ptr size =>
    obtain ⟨good, there, null | ⟨b, member, rfl, here⟩⟩ := sane
    · have result : Stdlib.realloc p.w.s pid ptr size = Stdlib.malloc p.w.s pid size := if_pos null
      unfold Program.step
      dsimp only
      rw [if_pos null, result]
      exact whole.took (malloc_made whole.kept good there)
    · have within := whole.within b member
      have some : ptr ≠ 0 := by
        rintro rfl
        have low := within.some
        rw [here] at low
        exact absurd low (by decide)
      unfold Program.step
      dsimp only
      rw [if_neg some]
      rcases realloc_made whole.kept within here good with ⟨_, result⟩ | result | ⟨_, given, moved, made, _⟩
      · rw [result, if_pos (Or.inr rfl)]
        exact ⟨whole.kept, whole.within⟩
      · rw [result, if_pos (Or.inl rfl)]
        exact ⟨whole.kept, whole.within⟩
      · rw [if_neg (not_or.mpr ⟨given, moved⟩)]
        refine made.took (q := without p b.owner ptr) given fun b' member' => ?_
        obtain ⟨older, other⟩ := List.mem_filter.mp member'
        have old := whole.within b' older
        have some' := old.some
        refine old.stays (mem_drop old.block fun both => of_decide_eq_true other ⟨both.1, ?_⟩) fun _ _ _ => rfl
        have back := within.back here
        have place := both.2
        dsimp only at place
        have low := within.some
        omega
  | free pid ptr =>
    unfold Program.step
    dsimp only
    split
    · exact whole
    · rename_i some
      obtain ⟨b, member, rfl, here⟩ := sane.resolve_left some
      have within := whole.within b member
      obtain ⟨kept, untouched⟩ := free_made whole.kept within here
      refine ⟨kept, fun b' member' => ?_⟩
      obtain ⟨older, other⟩ := List.mem_filter.mp member'
      have old := whole.within b' older
      have some' := old.some
      have low := within.some
      have back := within.back here
      refine old.stays (mem_drop old.block fun both => of_decide_eq_true other ⟨both.1, ?_⟩)
        fun place above below => ?_
      · have place := both.2
        dsimp only at place
        omega
      · exact untouched place (whole.kept.spread.outside old.block above (by dsimp only; omega))
  | other input =>
    refine ⟨step_kept whole.kept input sane.1, fun b member => ?_⟩
    have older : b ∈ p.held ∧ ∀ pid, input = .reaped pid → b.owner ≠ pid := by
      revert member
      unfold Program.step
      dsimp only
      split
      · rename_i gone
        intro member
        obtain ⟨older, mine⟩ := List.mem_filter.mp member
        refine ⟨older, ?_⟩
        rintro pid same
        cases same
        exact of_decide_eq_true mine
      · rename_i other
        exact fun member => ⟨member, fun pid same => absurd same (other pid)⟩
    exact (whole.within b older.1).spares whole.kept sane.1 (sane.2 b older.1) older.2

end Steps

end Ubiqos.Stdlib
