import Ubiqos.Tlsf.Calls
import Ubiqos.Lib.Along

/-!
A pool and what its callers hold of it: every pointer that `malloc` has returned
and `free` has not been given, with the size that was asked for. The blocks in
use are exactly those behind the pointers, at every point of every run.
-/

namespace Ubiqos.Tlsf

open Function Machine Tiling

structure Heap where
  pool : Pool
  live : List (Nat × Nat)

inductive Call where
  | malloc (size : BitVec 32)
  | free (pointer : Nat)
deriving DecidableEq

def Heap.step (heap : Heap) : Call → Heap
  | .malloc size =>
    match malloc heap.pool size.toNat with
    | (p, none) => { heap with pool := p }
    | (p, some pointer) => ⟨p, (pointer, size.toNat) :: heap.live⟩
  | .free pointer =>
    ⟨Tlsf.free heap.pool pointer, heap.live.filter (fun held => held.1 ≠ pointer)⟩

def Heap.Allowed (heap : Heap) : Call → Prop
  | .malloc _ => True
  | .free pointer => pointer ∈ heap.live.map Prod.fst

def largestRequest : Nat := 2 ^ 32 - 4

def Heap.AllowedSmall (heap : Heap) : Call → Prop
  | .malloc size => size.toNat ≤ largestRequest
  | .free pointer => pointer ∈ heap.live.map Prod.fst

instance (heap : Heap) : (call : Call) → Decidable (heap.Allowed call)
  | .malloc _ => isTrue trivial
  | .free pointer => inferInstanceAs (Decidable (pointer ∈ heap.live.map Prod.fst))

instance (heap : Heap) : (call : Call) → Decidable (heap.AllowedSmall call)
  | .malloc size => inferInstanceAs (Decidable (size.toNat ≤ largestRequest))
  | .free pointer => inferInstanceAs (Decidable (pointer ∈ heap.live.map Prod.fst))

def Heap.run (p : Pool) (calls : List Call) : Heap := calls.foldl Heap.step ⟨p, []⟩

/-- Every pointer held belongs to one block in use, and no block in use is without. -/
structure Held (heap : Heap) (tiles : List Nat) : Prop where
  used : ∀ block, UsedIn heap.pool tiles block ↔
    block + headerBytes ∈ heap.live.map Prod.fst
  header : ∀ held ∈ heap.live, headerBytes ≤ held.1
  nodup : (heap.live.map Prod.fst).Nodup
  fits : ∀ held ∈ heap.live, roundUp held.2 ≤ payload (heap.pool.size (held.1 - headerBytes))

def Consistent (heap : Heap) : Prop :=
  ∃ tiles lists, Whole heap.pool tiles lists ∧ Held heap tiles

section Steps
variable {heap : Heap} {tiles tiles' : List Nat} {p : Pool} {block : Nat}

theorem Held.gain (held : Held heap tiles) (gains : Gains heap.pool tiles block p tiles')
    {size : Nat} (fits : roundUp size ≤ payload (p.size block)) :
    Held ⟨p, (block + headerBytes, size) :: heap.live⟩ tiles' := by
  refine ⟨?_, ?_, ?_, ?_⟩
  · intro other
    rw [gains.used, held.used, List.map_cons, List.mem_cons, or_comm]
    exact or_congr_left (by omega)
  · intro entry member
    rcases List.mem_cons.mp member with rfl | older
    · exact Nat.le_add_left _ _
    · exact held.header entry older
  · rw [List.map_cons, List.nodup_cons]
    exact ⟨fun again => gains.fresh ((held.used block).mpr again), held.nodup⟩
  · intro entry member
    rcases List.mem_cons.mp member with rfl | older
    · simpa using fits
    · have header := held.header entry older
      have back : entry.1 - headerBytes + headerBytes = entry.1 := by omega
      have used := (held.used (entry.1 - headerBytes)).mpr
        (by rw [back]; exact List.mem_map_of_mem older)
      rw [gains.size _ used]
      exact held.fits entry older

theorem Held.lose (held : Held heap tiles) (gains : Gains p tiles' block heap.pool tiles) :
    Held ⟨p, heap.live.filter (fun entry => entry.1 ≠ block + headerBytes)⟩ tiles' := by
  have older : ∀ entry ∈ heap.live.filter (fun entry => entry.1 ≠ block + headerBytes),
      entry ∈ heap.live ∧ entry.1 ≠ block + headerBytes := by
    intro entry member
    simpa using List.mem_filter.mp member
  have kept : ∀ other, UsedIn p tiles' other ↔ UsedIn heap.pool tiles other ∧ other ≠ block := by
    intro other
    rw [gains.used]
    constructor
    · intro used
      refine ⟨.inl used, ?_⟩
      rintro rfl
      exact gains.fresh used
    · rintro ⟨used | same, away⟩
      · exact used
      · exact absurd same away
  refine ⟨?_, ?_, ?_, ?_⟩
  · intro other
    rw [kept, held.used]
    constructor
    · rintro ⟨member, away⟩
      obtain ⟨entry, isLive, same⟩ := List.mem_map.mp member
      refine List.mem_map.mpr ⟨entry, List.mem_filter.mpr ⟨isLive, ?_⟩, same⟩
      simp only [decide_eq_true_eq]
      omega
    · intro member
      obtain ⟨entry, isLive, same⟩ := List.mem_map.mp member
      obtain ⟨member, away⟩ := older entry isLive
      refine ⟨List.mem_map.mpr ⟨entry, member, same⟩, ?_⟩
      rintro rfl
      exact away same
  · exact fun entry member => held.header entry (older entry member).1
  · exact held.nodup.sublist (List.filter_sublist.map Prod.fst)
  · intro entry member
    obtain ⟨isLive, away⟩ := older entry member
    have header := held.header entry isLive
    have back : entry.1 - headerBytes + headerBytes = entry.1 := by omega
    have used := (held.used (entry.1 - headerBytes)).mpr
      (by rw [back]; exact List.mem_map_of_mem isLive)
    have fits := held.fits entry isLive
    rwa [gains.size _ ((kept _).mpr ⟨used, by omega⟩)] at fits

theorem Held.given {tiles : List Nat} (held : Held heap tiles) {pointer : Nat}
    (allowed : pointer ∈ heap.live.map Prod.fst) :
    ∃ block, pointer = block + headerBytes ∧ UsedIn heap.pool tiles block := by
  obtain ⟨entry, isLive, rfl⟩ := List.mem_map.mp allowed
  have header := held.header entry isLive
  have back : entry.1 = entry.1 - headerBytes + headerBytes := by omega
  exact ⟨_, back, (held.used _).mpr (back ▸ List.mem_map_of_mem isLive)⟩

theorem step_malloc_some {size : BitVec 32} {pointer : Nat}
    (given : (malloc heap.pool size.toNat).2 = some pointer) :
    heap.step (.malloc size) =
      ⟨(malloc heap.pool size.toNat).1, (pointer, size.toNat) :: heap.live⟩ := by
  obtain ⟨p, result⟩ : ∃ p, malloc heap.pool size.toNat = (p, some pointer) := ⟨_, Prod.ext rfl given⟩
  simp only [Heap.step, result]

theorem step_malloc_none {size : BitVec 32} (given : (malloc heap.pool size.toNat).2 = none) :
    heap.step (.malloc size) = heap := by
  have result : malloc heap.pool size.toNat = (heap.pool, none) :=
    Prod.ext (malloc_none given) given
  simp only [Heap.step, result]

theorem step_consistent (consistent : Consistent heap) {call : Call} (allowed : heap.Allowed call) :
    Consistent (heap.step call) ∧ (heap.step call).pool.poolEnd = heap.pool.poolEnd := by
  obtain ⟨tiles, lists, whole, held⟩ := consistent
  cases call with
  | malloc size =>
    cases given : (malloc heap.pool size.toNat).2 with
    | none =>
      rw [step_malloc_none given]
      exact ⟨⟨tiles, lists, whole, held⟩, rfl⟩
    | some pointer =>
      rw [step_malloc_some given]
      obtain ⟨block, tiles', lists', rfl, whole', gains, fits⟩ := malloc_whole whole given
      exact ⟨⟨tiles', lists', whole', held.gain gains fits⟩, gains.stop⟩
  | free pointer =>
    obtain ⟨block, back, used⟩ := held.given allowed
    obtain ⟨tiles', lists', whole', gains⟩ := free_whole whole used
    refine ⟨⟨tiles', lists', ?_, ?_⟩, ?_⟩
    · simpa [Heap.step, back] using whole'
    · simpa [Heap.step, back] using held.lose gains
    · simpa [Heap.step, back] using gains.stop.symm

end Steps

section Runs
variable {mem bytes : Nat} {p : Pool} {calls : List Call}

theorem run_consistent (region : Region mem bytes) (created : create mem bytes = some p)
    (run : Along Heap.step Heap.Allowed ⟨p, []⟩ calls) :
    Consistent (Heap.run p calls) ∧ (Heap.run p calls).pool.poolEnd = mem + bytes := by
  obtain ⟨⟨lists, whole⟩, unused, _, stop⟩ := create_whole region created
  refine along_invariant (fun heap => Consistent heap ∧ heap.pool.poolEnd = mem + bytes) run ?_ ?_
  · exact ⟨⟨[p.poolStart], lists, whole, by simp [unused], by simp, by simp, by simp⟩, stop⟩
  · rintro heap call _ allowed ⟨consistent, ends⟩
    obtain ⟨after, same⟩ := step_consistent consistent allowed
    exact ⟨after, same.trans ends⟩

/-- The pool is whole after every run, and the bits of a row are set when it has a list. -/
theorem run_pool_whole (region : Region mem bytes) (created : create mem bytes = some p)
    (run : Along Heap.step Heap.Allowed ⟨p, []⟩ calls) :
    ∃ tiles lists, Whole (Heap.run p calls).pool tiles lists ∧
      ∀ f < 32, ((Heap.run p calls).pool.flBitmap.getLsbD f = true ↔
        ∃ s < 32, lists (f, s) ≠ []) := by
  obtain ⟨⟨tiles, lists, whole, _⟩, _⟩ := run_consistent region created run
  exact ⟨tiles, lists, whole, fun _ small => whole.listed.rowBit small⟩

end Runs

/-- Something is given, split off, given back and merged. -/
theorem run_pool_whole_merge : ∃ p, create 4096 8192 = some p ∧
    ∃ tiles lists, Whole (Heap.run p [.malloc 100#32, .malloc 40#32, .free 6072]).pool tiles lists ∧
      ∀ f < 32, ((Heap.run p [.malloc 100#32, .malloc 40#32, .free 6072]).pool.flBitmap.getLsbD f =
        true ↔ ∃ s < 32, lists (f, s) ≠ []) := by
  obtain ⟨p, created⟩ := Option.isSome_iff_exists.mp
    (by decide +kernel : (create 4096 8192).isSome = true)
  have allowed : (create 4096 8192).all (fun p => decide (Along Heap.step Heap.Allowed ⟨p, []⟩
      [.malloc 100#32, .malloc 40#32, .free 6072])) = true := by decide +kernel
  rw [created] at allowed
  exact ⟨p, created, run_pool_whole (by decide) created (of_decide_eq_true allowed)⟩

inductive Header (p : Pool) : Nat → Prop where
  | first : p.poolStart < p.poolEnd → Header p p.poolStart
  | next {block after : Nat} : Header p block → nextPhys p block = some after → Header p after

/-- No byte of the request is outside the pool, in a header or in a live request. -/
structure Clear (p : Pool) (live : List (Nat × Nat)) (pointer size : Nat) : Prop where
  inside : p.poolStart ≤ pointer ∧ pointer + size ≤ p.poolEnd
  headers : ∀ block, Header p block → block + headerBytes ≤ pointer ∨ pointer + size ≤ block
  others : ∀ held ∈ live, held.1 + held.2 ≤ pointer ∨ pointer + size ≤ held.1

variable {lists : Class → List Nat}

theorem Whole.header {p : Pool} {tiles : List Nat}
    (whole : Whole p tiles lists) {block : Nat} (header : Header p block) : block ∈ tiles := by
  induction header with
  | first room =>
    have tiled := whole.tiled
    cases tiles with
    | nil =>
      have empty : p.poolStart = p.poolEnd := tiled
      omega
    | cons tile rest =>
      rw [← tiled.1]
      exact List.mem_cons_self
  | next _ follows ih =>
    obtain ⟨front, back, rfl⟩ := List.append_of_mem ih
    rename_i block after _
    have stop : block + headerBytes + payload (p.size block) = block + width p block := by
      unfold width
      omega
    simp only [nextPhys, stop] at follows
    split at follows
    · exact absurd follows (by simp)
    · rename_i notLast
      have isAfter : block + width p block = after := Option.some.inj follows
      rcases tiled_behind whole.tiled with ⟨_, ends⟩ | first
      · exact absurd (Nat.le_of_eq ends.symm) notLast
      · rw [isAfter] at first
        exact List.mem_append_right _ (List.mem_cons_of_mem _ (List.mem_of_head? first))

theorem le_roundUp {size : Nat} (small : size ≤ largestRequest) : size ≤ roundUp size := by
  unfold largestRequest at small
  unfold roundUp
  omega

theorem Heap.AllowedSmall.allowed {heap : Heap} {call : Call} (small : heap.AllowedSmall call) :
    heap.Allowed call := by
  cases call with
  | malloc size => trivial
  | free pointer => exact small

theorem step_requests_small {heap : Heap} {call : Call} (allowed : heap.AllowedSmall call)
    (small : ∀ held ∈ heap.live, held.2 ≤ largestRequest) :
    ∀ held ∈ (heap.step call).live, held.2 ≤ largestRequest := by
  cases call with
  | malloc size =>
    cases given : (malloc heap.pool size.toNat).2 with
    | none =>
      rw [step_malloc_none given]
      exact small
    | some pointer =>
      rw [step_malloc_some given]
      intro held member
      rcases List.mem_cons.mp member with rfl | older
      · exact allowed
      · exact small held older
  | free pointer =>
    intro held member
    exact small held (List.mem_of_mem_filter member)

theorem run_requests_small {p : Pool} {calls : List Call}
    (run : Along Heap.step Heap.AllowedSmall ⟨p, []⟩ calls) :
    ∀ held ∈ (Heap.run p calls).live, held.2 ≤ largestRequest :=
  along_invariant (fun heap => ∀ held ∈ heap.live, held.2 ≤ largestRequest) run (by simp)
    (fun _ _ _ allowed small => step_requests_small allowed small)

theorem Held.clear {heap : Heap} {tiles : List Nat}
    (held : Held heap tiles) (whole : Whole heap.pool tiles lists)
    (requests : ∀ entry ∈ heap.live, entry.2 ≤ largestRequest) {entry : Nat × Nat}
    (isLive : entry ∈ heap.live) :
    Clear heap.pool (heap.live.filter fun other => other.1 ≠ entry.1) entry.1 entry.2 := by
  -- every request lies in a block of its own, behind the block's header
  have inside : ∀ request ∈ heap.live, ∃ block, request.1 = block + headerBytes ∧ block ∈ tiles ∧
      headerBytes + request.2 ≤ width heap.pool block := by
    intro request member
    have header := held.header request member
    have back : request.1 = request.1 - headerBytes + headerBytes := by omega
    have used := (held.used (request.1 - headerBytes)).mpr
      (by rw [← back]; exact List.mem_map_of_mem member)
    have fits := (le_roundUp (requests request member)).trans (held.fits request member)
    exact ⟨_, back, used.1, Nat.add_le_add_left fits headerBytes⟩
  obtain ⟨block, back, isTile, wide⟩ := inside entry isLive
  have bounds := tiled_bounds whole.tiled block isTile
  refine ⟨by omega, ?_, ?_⟩
  · intro other header
    by_cases same : other = block
    · exact Or.inl (by omega)
    · have wider : headerBytes ≤ width heap.pool other := Nat.le_add_right _ _
      have apart := tiled_apart whole.tiled (whole.header header) isTile same
      omega
  · intro other member
    obtain ⟨alive, away⟩ := List.mem_filter.mp member
    obtain ⟨tile, back', isTile', wide'⟩ := inside other alive
    have different : tile ≠ block := by
      intro same
      rw [decide_eq_true_eq, back', back, same] at away
      exact away rfl
    have apart := tiled_apart whole.tiled isTile' isTile different
    omega

theorem malloc_clear {heap : Heap} {tiles : List Nat}
    (whole : Whole heap.pool tiles lists) (held : Held heap tiles)
    (requests : ∀ entry ∈ heap.live, entry.2 ≤ largestRequest) {size pointer : Nat}
    (given : (malloc heap.pool size).2 = some pointer) (small : size ≤ largestRequest) :
    Clear (malloc heap.pool size).1 heap.live pointer size := by
  obtain ⟨block, tiles', lists', rfl, whole', gains, fits⟩ := malloc_whole whole given
  have gained := held.gain gains fits
  have small' : ∀ entry ∈ (block + headerBytes, size) :: heap.live, entry.2 ≤ largestRequest := by
    intro entry member
    rcases List.mem_cons.mp member with rfl | older
    · exact small
    · exact requests entry older
  have clear := gained.clear whole' small' List.mem_cons_self
  have others : ((block + headerBytes, size) :: heap.live).filter
      (fun other => other.1 ≠ block + headerBytes) = heap.live := by
    rw [List.filter_cons_of_neg (by simp)]
    refine List.filter_eq_self.mpr fun entry member => decide_eq_true ?_
    intro same
    have nodup : ((block + headerBytes, size) :: heap.live |>.map Prod.fst).Nodup := gained.nodup
    rw [List.map_cons, List.nodup_cons] at nodup
    exact nodup.1 (List.mem_map.mpr ⟨entry, member, same⟩)
  rwa [others] at clear

/-- While every request so far could be rounded, the next one is served from
memory of its own exactly if it can be rounded too. -/
theorem run_request_clear {mem bytes : Nat} (region : Region mem bytes) {p : Pool}
    (created : create mem bytes = some p) {calls : List Call}
    (run : Along Heap.step Heap.AllowedSmall ⟨p, []⟩ calls) {size : BitVec 32} {pointer : Nat}
    (given : (malloc (Heap.run p calls).pool size.toNat).2 = some pointer) :
    Clear (malloc (Heap.run p calls).pool size.toNat).1 (Heap.run p calls).live pointer size.toNat ↔
      size.toNat ≤ largestRequest := by
  have weaker : Along Heap.step Heap.Allowed ⟨p, []⟩ calls :=
    along_mono (fun _ _ => Heap.AllowedSmall.allowed) run
  obtain ⟨⟨tiles, lists, whole, held⟩, ends⟩ := run_consistent region created weaker
  constructor
  · intro clear
    obtain ⟨block, _, _, isBlock, _, gains, _⟩ := malloc_whole whole given
    -- What ends inside the pool is no longer than the pool.
    have last := clear.inside.2
    have within := region.within
    rw [gains.stop, ends] at last
    unfold headerBytes at isBlock
    unfold largestRequest
    omega
  · exact malloc_clear whole held (run_requests_small run) given

theorem run_request_clear_second : ∃ p, create 4096 8192 = some p ∧
    Clear (malloc (Heap.run p [.malloc 100#32]).pool 40).1 (Heap.run p [.malloc 100#32]).live
      6188 40 := by
  obtain ⟨p, created⟩ := Option.isSome_iff_exists.mp
    (by decide +kernel : (create 4096 8192).isSome = true)
  have allowed : (create 4096 8192).all (fun p =>
      decide (Along Heap.step Heap.AllowedSmall ⟨p, []⟩ [.malloc 100#32]) &&
      decide ((malloc (Heap.run p [.malloc 100#32]).pool (40#32).toNat).2 = some 6188)) = true := by
    decide +kernel
  rw [created, Option.all_some, Bool.and_eq_true] at allowed
  refine ⟨p, created, ?_⟩
  exact (run_request_clear (by decide) created (of_decide_eq_true allowed.1)
    (of_decide_eq_true allowed.2)).mpr (by decide)

/-- A request of all but nothing wraps to eight bytes, and is served. -/
theorem wrapped_request_unclear :
    ¬ ∀ mem bytes, Region mem bytes → ∀ p, create mem bytes = some p →
      ∀ calls, Along Heap.step Heap.Allowed ⟨p, []⟩ calls → ∀ (size : BitVec 32) (pointer : Nat),
        (malloc (Heap.run p calls).pool size.toNat).2 = some pointer →
          Clear (malloc (Heap.run p calls).pool size.toNat).1 (Heap.run p calls).live pointer
            size.toNat := by
  intro always
  obtain ⟨p, created⟩ := Option.isSome_iff_exists.mp
    (by decide +kernel : (create 4096 8192).isSome = true)
  have served : (create 4096 8192).all (fun p =>
      decide ((malloc p (4294967295#32).toNat).2 = some 6072) &&
      decide ((malloc p (4294967295#32).toNat).1.poolEnd = 12288)) = true := by
    decide +kernel
  rw [created, Option.all_some, Bool.and_eq_true] at served
  have clear := always 4096 8192 (by decide) p created [] trivial 4294967295#32 6072
    (of_decide_eq_true served.1)
  have last := clear.inside.2
  have ends : (malloc p (4294967295#32).toNat).1.poolEnd = 12288 := of_decide_eq_true served.2
  have same : (Heap.run p []).pool = p := rfl
  rw [same, ends] at last
  exact absurd last (by decide)

end Ubiqos.Tlsf
