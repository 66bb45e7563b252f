import Ubiqos.Tlsf.Search

/-!
What a request gets, after any run. One that the pool has rows for fails exactly
when no list above its own has a block, and otherwise takes the first block of
the lowest of them. One that is larger than the rows reach is mapped into the
last row all the same; there the sizes are compared, and it always fails.
-/

namespace Ubiqos.Tlsf

open Function Intrusive Machine Tiling

/-- What `malloc` does with a request that is not nothing. -/
structure Policy (p : Pool) (size : Nat) : Prop where
  refuses : roundUp size < 2 ^ p.flCount →
    ((malloc p size).2 = none ↔ ∀ block, FreeBlock p block →
      ¬ Below (mapping p.flCount (roundUp size)) (classOf p block))
  enough : roundUp size < 2 ^ p.flCount → ∀ block, FreeBlock p block →
    Below (mapping p.flCount (roundUp size)) (classOf p block) →
      roundUp size ≤ payload (p.size block)
  larger : 2 ^ p.flCount ≤ roundUp size → (malloc p size).2 = none
  lowest : ∀ block, (malloc p size).2 = some (block + headerBytes) → FreeBlock p block ∧
    Below (mapping p.flCount (roundUp size)) (classOf p block) ∧
    ∀ other, FreeBlock p other → Below (mapping p.flCount (roundUp size)) (classOf p other) →
      ¬ Below (classOf p other) (classOf p block)
  unchanged : (malloc p size).2 = none → (malloc p size).1 = p

section Policy
variable {p : Pool} {tiles : List Nat} {lists : Class → List Nat} {size : Nat}

theorem malloc_result (asked : size ≠ 0) :
    (malloc p size).2 = (search p (roundUp size)).map (· + headerBytes) := by
  unfold malloc
  rw [if_neg asked]
  dsimp only
  cases search p (roundUp size) <;> rfl

theorem roundUp_pos (size : Nat) : roundUp size ≠ 0 := by
  unfold roundUp minPayload
  omega

theorem Whole.unclamped (whole : Whole p tiles lists) (reaching : Reaching p) {block : Nat}
    (member : block ∈ tiles) : payload (p.size block) < 2 ^ p.flCount := by
  have inside := tiled_bounds whole.tiled block member
  unfold Reaching at reaching
  unfold width headerBytes at inside
  omega

theorem Whole.fits (whole : Whole p tiles lists) (reaching : Reaching p)
    (unclamped : size < 2 ^ p.flCount) (positive : size ≠ 0) (d : Class)
    (below : Below (mapping p.flCount size) d) :
    ∀ block ∈ lists d, size ≤ payload (p.size block) := by
  intro block member
  obtain ⟨⟨isTile, _⟩, isClass⟩ := (whole.listed.member d block).mp member
  rw [← isClass] at below
  exact Nat.le_of_lt (below_lt unclamped (whole.unclamped reaching isTile) positive below)

theorem Whole.policy (whole : Whole p tiles lists) (reaching : Reaching p) (asked : size ≠ 0) :
    Policy p size := by
  have positive := roundUp_pos size
  have larger : 2 ^ p.flCount ≤ roundUp size → (malloc p size).2 = none := by
    intro clamped
    rw [malloc_result asked]
    cases searched : search p (roundUp size) with
    | none => rfl
    | some found =>
      obtain ⟨⟨isTile, _⟩, enough⟩ := search_some whole.listed searched
      have short := whole.unclamped reaching isTile
      omega
  refine ⟨?_, ?_, larger, ?_, malloc_none⟩
  · intro unclamped
    rw [malloc_result asked, Option.map_eq_none_iff,
      whole.listed.search_none (whole.fits reaching unclamped positive)]
    constructor
    · intro empty block free below
      have member := whole.freeBlock.mp free
      rw [empty _ below] at member
      exact List.not_mem_nil member
    · intro none' d below
      by_contra some'
      obtain ⟨block, member⟩ := List.exists_mem_of_ne_nil _ some'
      have isClass := ((whole.listed.member d block).mp member).2
      rw [← isClass] at member below
      exact none' block (whole.freeBlock.mpr member) below
  · intro unclamped block free below
    exact whole.fits reaching unclamped positive _ below block (whole.freeBlock.mp free)
  · intro block given
    have unclamped : roundUp size < 2 ^ p.flCount := by
      by_contra clamped
      rw [larger (Nat.le_of_not_lt clamped)] at given
      exact absurd given (by simp)
    rw [malloc_result asked, Option.map_eq_some_iff] at given
    obtain ⟨found, searched, same⟩ := given
    rw [Nat.add_right_cancel same] at searched
    obtain ⟨d, below, head, first⟩ :=
      whole.listed.search_first (whole.fits reaching unclamped positive) searched
    have member := List.mem_of_head? head
    have isClass := ((whole.listed.member d block).mp member).2
    rw [← isClass] at member below first
    refine ⟨whole.freeBlock.mpr member, below, ?_⟩
    intro other free above earlier
    have isThere := whole.freeBlock.mp free
    rw [first _ above earlier] at isThere
    exact List.not_mem_nil isThere

end Policy

section Runs
variable {mem bytes : Nat} {p : Pool} {calls : List Call}

structure SamePlace (p q : Pool) : Prop where
  start : q.poolStart = p.poolStart
  stop : q.poolEnd = p.poolEnd
  rows : q.flCount = p.flCount

theorem step_samePlace {heap : Heap} (consistent : Consistent heap) {call : Call}
    (allowed : heap.Allowed call) : SamePlace heap.pool (heap.step call).pool := by
  obtain ⟨tiles, lists, whole, held⟩ := consistent
  cases call with
  | malloc size =>
    cases given : (malloc heap.pool size.toNat).2 with
    | none =>
      rw [step_malloc_none given]
      exact ⟨rfl, rfl, rfl⟩
    | some pointer =>
      rw [step_malloc_some given]
      obtain ⟨_, _, _, _, _, gains, _⟩ := malloc_whole whole given
      exact ⟨gains.start, gains.stop, malloc_flCount _ _⟩
  | free pointer =>
    obtain ⟨block, back, used⟩ := held.given allowed
    obtain ⟨_, _, _, gains⟩ := free_whole whole used
    rw [← back] at gains
    exact ⟨gains.start.symm, gains.stop.symm, free_flCount _ _⟩

theorem run_samePlace (region : Region mem bytes) (created : create mem bytes = some p)
    (run : Along Heap.step Heap.Allowed ⟨p, []⟩ calls) :
    Consistent (Heap.run p calls) ∧ SamePlace p (Heap.run p calls).pool := by
  have nothing : Along Heap.step Heap.Allowed ⟨p, []⟩ [] := trivial
  have start : Consistent (Heap.run p []) := (run_consistent region created nothing).1
  refine along_invariant (fun heap => Consistent heap ∧ SamePlace p heap.pool) run
    ⟨start, rfl, rfl, rfl⟩ ?_
  rintro heap call _ allowed ⟨consistent, same⟩
  have moved := step_samePlace consistent allowed
  exact ⟨(step_consistent consistent allowed).1, moved.start.trans same.start,
    moved.stop.trans same.stop, moved.rows.trans same.rows⟩

theorem SamePlace.reaching {q : Pool} (same : SamePlace p q) (reaching : Reaching p) :
    Reaching q := by
  unfold Reaching
  rw [same.start, same.stop, same.rows]
  exact reaching

/-- Over every run, a request that is not nothing is refused only when the lists
above its own are empty, or the pool has no row as far as it. -/
theorem run_policy (region : Region mem bytes) (created : create mem bytes = some p)
    (run : Along Heap.step Heap.Allowed ⟨p, []⟩ calls) {size : BitVec 32}
    (asked : size ≠ 0#32) : Policy (Heap.run p calls).pool size.toNat := by
  obtain ⟨⟨tiles, lists, whole, _⟩, same⟩ := run_samePlace region created run
  refine whole.policy (same.reaching (create_reaching region created)) ?_
  intro zero
  exact asked (BitVec.eq_of_toNat_eq zero)

end Runs

theorem run_policy_second : ∃ p, create 4096 14272 = some p ∧
    Policy (Heap.run p [.malloc 100#32, .malloc 40#32, .free 6072]).pool (64#32).toNat := by
  obtain ⟨p, created⟩ := Option.isSome_iff_exists.mp
    (by decide +kernel : (create 4096 14272).isSome = true)
  have allowed : (create 4096 14272).all (fun p => decide (Along Heap.step Heap.Allowed ⟨p, []⟩
      [.malloc 100#32, .malloc 40#32, .free 6072])) = true := by decide +kernel
  rw [created] at allowed
  exact ⟨p, created, run_policy (by decide) created (of_decide_eq_true allowed) (by decide)⟩

/-- A request of sixteen kilobytes of a pool of fourteen is mapped below the block
that fills the pool. -/
theorem clamped_request_refused :
    ¬ ∀ mem bytes, Region mem bytes → ∀ p, create mem bytes = some p →
      ∀ calls, Along Heap.step Heap.Allowed ⟨p, []⟩ calls → ∀ size : BitVec 32, size ≠ 0#32 →
        size.toNat ≤ largestRequest →
          ((malloc (Heap.run p calls).pool size.toNat).2 = none ↔
            ∀ block, FreeBlock (Heap.run p calls).pool block →
              ¬ Below (mapping (Heap.run p calls).pool.flCount (roundUp size.toNat))
                (classOf (Heap.run p calls).pool block)) := by
  intro always
  obtain ⟨p, created⟩ := Option.isSome_iff_exists.mp
    (by decide +kernel : (create 4096 14272).isSome = true)
  have seen : (create 4096 14272).all (fun p =>
      decide ((malloc p 16384).2 = none) && decide (p.poolStart < p.poolEnd) &&
      decide (isFree (p.size p.poolStart) = true) &&
      decide (Below (mapping p.flCount (roundUp 16384)) (classOf p p.poolStart))) = true := by
    decide +kernel
  rw [created, Option.all_some, Bool.and_eq_true, Bool.and_eq_true, Bool.and_eq_true] at seen
  obtain ⟨⟨⟨refused, room⟩, free⟩, below⟩ := seen
  have none' := (always 4096 14272 (by decide) p created [] trivial 16384#32 (by decide)
    (by decide)).mp (of_decide_eq_true refused)
  exact none' p.poolStart ⟨.first (of_decide_eq_true room), of_decide_eq_true free⟩
    (of_decide_eq_true below)

end Ubiqos.Tlsf

/-!
A pool nothing is held of. No two free blocks lie side by side, so when every
block is free there is only one, and the pool measures and serves as it did when
it was made.
-/

namespace Ubiqos.Tlsf

open Function Intrusive Machine Tiling

/-- The walk of `ubiqos_tlsf_largest_free` from `block` on. -/
def largestFrom (p : Pool) (block best : Nat) : Nat :=
  if p.poolEnd ≤ block then best
  else
    let size := payload (p.size block)
    let best := if isFree (p.size block) = true ∧ best < size then size else best
    -- a block without a payload would not lead on
    if size = 0 then best else largestFrom p (block + headerBytes + size) best
termination_by p.poolEnd - block

/-- `ubiqos_tlsf_largest_free`. -/
def largestFree (p : Pool) : Nat := largestFrom p p.poolStart 0

/-- `ubiqos_tlsf_total_free`. -/
def totalFree (p : Pool) : Nat := p.freeBytes

/-- The pool is one free block, and as good as `fresh`. -/
structure Restored (fresh p : Pool) : Prop where
  one : ∀ block, Header p block ↔ block = p.poolStart
  free : isFree (p.size p.poolStart) = true
  largest : largestFree p = largestFree fresh
  total : totalFree p = totalFree fresh
  serves : ∀ size : BitVec 32, (malloc fresh size.toNat).2 ≠ none → (malloc p size.toNat).2 ≠ none

section Lone
variable {p q : Pool} {tiles : List Nat} {lists lists' : Class → List Nat}

theorem Whole.lone (whole : Whole p tiles lists) (room : p.poolStart < p.poolEnd)
    (unused : ∀ block, ¬ UsedIn p tiles block) :
    tiles = [p.poolStart] ∧ isFree (p.size p.poolStart) = true := by
  have free : ∀ block ∈ tiles, isFree (p.size block) = true := by
    intro block member
    by_contra used
    exact unused block ⟨member, by simpa using used⟩
  have tiled := whole.tiled
  have merged := whole.merged
  cases tiles with
  | nil =>
    have empty : p.poolStart = p.poolEnd := tiled
    omega
  | cons first rest =>
    have here : first = p.poolStart := tiled.1
    rw [← here]
    refine ⟨?_, free first List.mem_cons_self⟩
    cases rest with
    | nil => rfl
    | cons second more =>
      -- two neighbours would both be free
      have apart := (List.isChain_cons_cons.mp merged).1
      exact absurd ⟨free first (by simp), free second (by simp)⟩ apart

theorem Whole.lone_payload (whole : Whole p [p.poolStart] lists) :
    p.poolStart + headerBytes + payload (p.size p.poolStart) = p.poolEnd := by
  have ends : p.poolStart + width p p.poolStart = p.poolEnd := whole.tiled.2.2
  unfold width at ends
  omega

theorem Whole.lone_largest (whole : Whole p [p.poolStart] lists)
    (free : isFree (p.size p.poolStart) = true) :
    largestFree p = payload (p.size p.poolStart) := by
  have ends := whole.lone_payload
  have room : ¬ p.poolEnd ≤ p.poolStart := by
    unfold headerBytes at ends
    omega
  unfold largestFree
  rw [largestFrom, if_neg room]
  dsimp only
  by_cases nothing : payload (p.size p.poolStart) = 0
  · simp [nothing]
  · have some' : 0 < payload (p.size p.poolStart) := Nat.pos_of_ne_zero nothing
    rw [if_neg nothing, if_pos ⟨free, some'⟩, largestFrom, if_pos (Nat.le_of_eq ends.symm)]

theorem Whole.lone_total (whole : Whole p [p.poolStart] lists)
    (free : isFree (p.size p.poolStart) = true) : totalFree p = payload (p.size p.poolStart) := by
  unfold totalFree
  rw [whole.bytes]
  simp [freeSum, free]

theorem Whole.lone_freeBlock (whole : Whole p [p.poolStart] lists)
    (free : isFree (p.size p.poolStart) = true) {block : Nat} :
    FreeBlock p block ↔ block = p.poolStart := by
  rw [FreeBlock, whole.headers, List.mem_singleton]
  constructor
  · exact And.left
  · rintro rfl
    exact ⟨rfl, free⟩

theorem Whole.restored (fresh : Whole p [p.poolStart] lists)
    (freshFree : isFree (p.size p.poolStart) = true) (whole : Whole q [q.poolStart] lists')
    (free : isFree (q.size q.poolStart) = true) (reaching : Reaching p) (same : SamePlace p q) :
    Restored p q := by
  have payloads : payload (q.size q.poolStart) = payload (p.size p.poolStart) := by
    have first := fresh.lone_payload
    have second := whole.lone_payload
    rw [same.start, same.stop] at second
    rw [same.start]
    omega
  have classes : classOf q q.poolStart = classOf p p.poolStart := by
    unfold classOf
    rw [payloads, same.rows]
  refine ⟨?_, free, ?_, ?_, ?_⟩
  · intro block
    rw [whole.headers, List.mem_singleton]
  · rw [whole.lone_largest free, fresh.lone_largest freshFree, payloads]
  · rw [whole.lone_total free, fresh.lone_total freshFree, payloads]
  · intro size served refused
    by_cases nothing : size.toNat = 0
    · exact served (by simp [nothing, malloc])
    · have before := fresh.policy reaching nothing
      have after := whole.policy (same.reaching reaching) nothing
      have unclamped : roundUp size.toNat < 2 ^ p.flCount := by
        by_contra clamped
        exact served (before.larger (Nat.le_of_not_lt clamped))
      refine served ((before.refuses unclamped).mpr ?_)
      intro block isFree
      rw [fresh.lone_freeBlock freshFree] at isFree
      rw [isFree, ← classes, ← same.rows]
      rw [← same.rows] at unclamped
      exact (after.refuses unclamped).mp refused q.poolStart ((whole.lone_freeBlock free).mpr rfl)

end Lone

/-- Once every allocation of a run has been freed, in whatever order, the pool is
as it was made. -/
theorem run_emptied {mem bytes : Nat} (region : Region mem bytes) {p : Pool}
    (created : create mem bytes = some p) {calls : List Call}
    (run : Along Heap.step Heap.Allowed ⟨p, []⟩ calls) (freed : (Heap.run p calls).live = []) :
    Restored p (Heap.run p calls).pool := by
  obtain ⟨⟨lists, fresh⟩, unused, _, _⟩ := create_whole region created
  obtain ⟨⟨tiles, lists', whole, held⟩, same⟩ := run_samePlace region created run
  have room : p.poolStart < p.poolEnd := by
    have ends := fresh.lone_payload
    unfold headerBytes at ends
    omega
  have freshFree := (fresh.lone room unused).2
  obtain ⟨alone, free⟩ := whole.lone (by rw [same.start, same.stop]; exact room) (by
    intro block used
    have member := (held.used block).mp used
    rw [freed] at member
    exact List.not_mem_nil member)
  rw [alone] at whole
  exact fresh.restored freshFree whole free (create_reaching region created) same

/-- Three blocks, the middle one freed first. -/
theorem run_emptied_middle : ∃ p, create 4096 8192 = some p ∧
    Restored p (Heap.run p [.malloc 100#32, .malloc 40#32, .malloc 8#32, .free 6188, .free 6072,
      .free 6244]).pool := by
  obtain ⟨p, created⟩ := Option.isSome_iff_exists.mp
    (by decide +kernel : (create 4096 8192).isSome = true)
  have allowed : (create 4096 8192).all (fun p =>
      decide (Along Heap.step Heap.Allowed ⟨p, []⟩ [.malloc 100#32, .malloc 40#32, .malloc 8#32,
        .free 6188, .free 6072, .free 6244]) &&
      decide ((Heap.run p [.malloc 100#32, .malloc 40#32, .malloc 8#32, .free 6188, .free 6072,
        .free 6244]).live = [])) = true := by decide +kernel
  rw [created, Option.all_some, Bool.and_eq_true] at allowed
  exact ⟨p, created, run_emptied (by decide) created (of_decide_eq_true allowed.1)
    (of_decide_eq_true allowed.2)⟩

end Ubiqos.Tlsf
