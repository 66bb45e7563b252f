import Ubiqos.Memory.Allocs

/-!
Where the blocks are. Each lies in the pool its address names, as a request of
that pool, and the two pools lie apart; so no two blocks overlap, whatever is
handed out, given back or taken by the kernel.
-/

namespace Ubiqos.Memory

open Function Machine Words

structure Sound (heap : Tlsf.Heap) : Prop where
  consistent : Tlsf.Consistent heap
  requests : ∀ entry ∈ heap.live, entry.2 ≤ Tlsf.largestRequest
  stop : heap.pool.poolEnd < 2 ^ 32

theorem Sound.step {heap : Tlsf.Heap} {call : Tlsf.Call} (sound : Sound heap)
    (allowed : heap.AllowedSmall call) :
    Sound (heap.step call) ∧ Tlsf.SamePlace heap.pool (heap.step call).pool := by
  have same := Tlsf.step_samePlace sound.consistent allowed.allowed
  refine ⟨⟨(Tlsf.step_consistent sound.consistent allowed.allowed).1,
    Tlsf.step_requests_small allowed sound.requests, ?_⟩, same⟩
  rw [same.stop]
  exact sound.stop

theorem Sound.clear {heap : Tlsf.Heap} (sound : Sound heap) {entry : Nat × Nat}
    (isLive : entry ∈ heap.live) :
    Tlsf.Clear heap.pool (heap.live.filter fun other => other.1 ≠ entry.1) entry.1 entry.2 := by
  obtain ⟨tiles, lists, whole, held⟩ := sound.consistent
  exact held.clear whole sound.requests isLive

section Housed
variable {n : Nat} {s : State n} {live : List (Given n)} {pool : PoolName} {call : Tlsf.Call}
  {heap : Tlsf.Heap}

structure Housed (s : State n) (live : List (Given n)) : Prop where
  sound : ∀ pool heap, s.pools pool = some heap → Sound heap
  pools : ∀ mem bulk, s.pools .mem = some mem → s.pools .bulk = some bulk →
    mem.pool.poolEnd ≤ bulk.pool.poolStart ∨ bulk.pool.poolEnd ≤ mem.pool.poolStart
  home : ∀ g ∈ live, hdrBytes ≤ g.pointer ∧ ∃ heap, s.pools (poolOf s g.header) = some heap ∧
    (g.header, g.size + hdrBytes) ∈ heap.live
  once : (live.map Given.pointer).Nodup

structure Spread (live : List (Given n)) : Prop where
  apart : ∀ g ∈ live, ∀ other ∈ live, g.pointer ≠ other.pointer →
    g.pointer + g.size ≤ other.header ∨ other.pointer + other.size ≤ g.header
  low : ∀ g ∈ live, hdrBytes < g.pointer
  high : ∀ g ∈ live, g.pointer + g.size < 2 ^ 32
  once : (live.map Given.pointer).Nodup

variable {g : Given n}

theorem header_back (low : hdrBytes ≤ g.pointer) : g.header + hdrBytes = g.pointer :=
  Nat.sub_add_cancel low

theorem Housed.clear (housed : Housed s live) (member : g ∈ live) :
    ∃ heap, s.pools (poolOf s g.header) = some heap ∧
      Tlsf.Clear heap.pool (heap.live.filter fun request => request.1 ≠ g.header) g.header
        (g.size + hdrBytes) := by
  obtain ⟨_, heap, here, entry⟩ := housed.home g member
  exact ⟨heap, here, (housed.sound _ heap here).clear entry⟩

theorem Housed.poolOf_inside (housed : Housed s live) (here : s.pools pool = some heap)
    {address : Nat} (inside : owns heap.pool address) : poolOf s address = pool := by
  unfold poolOf
  cases pool with
  | bulk => simp only [here, if_pos inside]
  | mem =>
    cases second : s.pools .bulk with
    | none => rfl
    | some bulk =>
      have apart := housed.pools heap bulk here second
      have outside : ¬ owns bulk.pool address := by
        unfold owns at *
        omega
      simp only [if_neg outside]

theorem Housed.spread (housed : Housed s live) : Spread live := by
  refine ⟨?_, ?_, ?_, housed.once⟩
  · intro g member other member' away
    obtain ⟨heap, here, clear⟩ := housed.clear member
    obtain ⟨heap', here', clear'⟩ := housed.clear member'
    have back := header_back (housed.home g member).1
    have back' := header_back (housed.home other member').1
    by_cases same : poolOf s g.header = poolOf s other.header
    · obtain ⟨_, heap'', here'', entry⟩ := housed.home other member'
      rw [← same, here, Option.some.injEq] at here''
      subst here''
      have different : other.header ≠ g.header := fun equal => away (by omega)
      have apart := clear.others _ (List.mem_filter.mpr ⟨entry, decide_eq_true different⟩)
      dsimp only at apart
      omega
    · -- blocks of different pools are as far apart as the pools
      have inside := clear.inside
      have inside' := clear'.inside
      cases first : poolOf s g.header <;> cases second : poolOf s other.header
      · exact absurd (first.trans second.symm) same
      · rw [first] at here
        rw [second] at here'
        have apart := housed.pools heap heap' here here'
        omega
      · rw [first] at here
        rw [second] at here'
        have apart := housed.pools heap' heap here' here
        omega
      · exact absurd (first.trans second.symm) same
  · intro g member
    obtain ⟨low, heap, here, entry⟩ := housed.home g member
    obtain ⟨tiles, lists, whole, held⟩ := (housed.sound _ heap here).consistent
    have header := held.header _ entry
    have back := header_back low
    unfold Tlsf.headerBytes at header
    dsimp only at header
    omega
  · intro g member
    obtain ⟨heap, here, clear⟩ := housed.clear member
    have inside := clear.inside
    have stop := (housed.sound _ heap here).stop
    have back := header_back (housed.home g member).1
    omega

theorem pools_call (call : Tlsf.Call) (here : s.pools pool = some heap) :
    (poolCall s pool call).pools pool = some (heap.step call) := by
  simp only [poolCall, update_self, here, Option.map_some]

theorem pools_call_other {other : PoolName} (away : other ≠ pool) :
    (poolCall s pool call).pools other = s.pools other := by
  simp only [poolCall, update_of_ne away]

theorem poolCall_none (none : s.pools pool = none) : poolCall s pool call = s := by
  unfold poolCall
  rw [none, Option.map_none]
  conv => lhs; rw [← none, update_eq_self]

theorem Housed.poolOf_call (housed : Housed s live)
    (allowed : ∀ heap, s.pools pool = some heap → heap.AllowedSmall call) (address : Nat) :
    poolOf (poolCall s pool call) address = poolOf s address := by
  unfold poolOf
  by_cases same : pool = .bulk
  · subst same
    cases here : s.pools .bulk with
    | none => rw [poolCall_none here, here]
    | some heap =>
      have moved := ((housed.sound .bulk heap here).step (allowed heap here)).2
      have inside : owns (heap.step call).pool address ↔ owns heap.pool address := by
        unfold owns
        rw [moved.start, moved.stop]
      rw [pools_call call here]
      simp only [inside]
  · rw [pools_call_other (Ne.symm same)]

theorem Housed.after_call (housed : Housed s live)
    (allowed : ∀ heap, s.pools pool = some heap → heap.AllowedSmall call) {live' : List (Given n)}
    (once : (live'.map Given.pointer).Nodup)
    (home : ∀ g ∈ live', hdrBytes ≤ g.pointer ∧
      ∃ heap, (poolCall s pool call).pools (poolOf s g.header) = some heap ∧
        (g.header, g.size + hdrBytes) ∈ heap.live) : Housed (poolCall s pool call) live' := by
  -- every pool there is now was there before, at the same place
  have before : ∀ name heap', (poolCall s pool call).pools name = some heap' →
      Sound heap' ∧ ∃ heap, s.pools name = some heap ∧ Tlsf.SamePlace heap.pool heap'.pool := by
    intro name heap' here
    by_cases same : name = pool
    · subst same
      cases was : s.pools name with
      | none =>
        rw [poolCall_none was, was] at here
        exact absurd here (by simp)
      | some heap =>
        rw [pools_call call was, Option.some.injEq] at here
        subst here
        have stepped := (housed.sound name heap was).step (allowed heap was)
        exact ⟨stepped.1, heap, rfl, stepped.2⟩
    · rw [pools_call_other same] at here
      exact ⟨housed.sound name heap' here, heap', here, rfl, rfl, rfl⟩
  refine ⟨fun name heap' here => (before name heap' here).1, ?_, ?_, once⟩
  · intro mem bulk first second
    obtain ⟨_, mem', first', samePlace⟩ := before .mem mem first
    obtain ⟨_, bulk', second', samePlace'⟩ := before .bulk bulk second
    rw [samePlace.start, samePlace.stop, samePlace'.start, samePlace'.stop]
    exact housed.pools mem' bulk' first' second'
  · intro g member
    rw [housed.poolOf_call allowed]
    exact home g member

theorem Housed.stays (housed : Housed s live) (member : g ∈ live)
    (other : call ≠ .free g.header) :
    hdrBytes ≤ g.pointer ∧ ∃ heap, (poolCall s pool call).pools (poolOf s g.header) = some heap ∧
      (g.header, g.size + hdrBytes) ∈ heap.live := by
  obtain ⟨low, heap, here, entry⟩ := housed.home g member
  refine ⟨low, ?_⟩
  by_cases same : poolOf s g.header = pool
  · rw [same] at here ⊢
    refine ⟨heap.step call, pools_call call here, ?_⟩
    cases call with
    | malloc size =>
      cases given : (Tlsf.malloc heap.pool size.toNat).2 with
      | none =>
        rw [Tlsf.step_malloc_none given]
        exact entry
      | some pointer =>
        rw [Tlsf.step_malloc_some given]
        exact List.mem_cons_of_mem _ entry
    | free pointer =>
      refine List.mem_filter.mpr ⟨entry, decide_eq_true ?_⟩
      intro equal
      exact other (by rw [← equal])
  · exact ⟨heap, (pools_call_other same).trans here, entry⟩

theorem Housed.kernel (housed : Housed s live)
    (allowed : ∀ heap, s.pools pool = some heap → heap.AllowedSmall call)
    (others : ∀ g ∈ live, call ≠ .free g.header) : Housed (poolCall s pool call) live :=
  housed.after_call allowed housed.once fun g member => housed.stays member (others g member)

theorem Housed.malloc (housed : Housed s live) (here : s.pools pool = some heap) {request : U32}
    {h : Nat} (given : (Tlsf.malloc heap.pool request.toNat).2 = some h)
    (small : request.toNat ≤ Tlsf.largestRequest) {size : Nat}
    (whole : size + hdrBytes = request.toNat) (pid : Pid n) :
    Housed (poolCall s pool (.malloc request)) (⟨pid, h + hdrBytes, size⟩ :: live) := by
  have allowed : ∀ heap, s.pools pool = some heap → heap.AllowedSmall (.malloc request) :=
    fun _ _ => small
  have after := pools_call (.malloc request) here
  obtain ⟨sound, moved⟩ := (housed.sound pool heap here).step (allowed heap here)
  rw [Tlsf.step_malloc_some given] at after sound moved
  have entry : (h, request.toNat) ∈ (h, request.toNat) :: heap.live := List.mem_cons_self
  have inside := (sound.clear entry).inside
  have named : poolOf s h = pool := by
    refine housed.poolOf_inside here ?_
    have start := moved.start
    have stop := moved.stop
    unfold owns
    unfold hdrBytes at whole
    dsimp only at inside start stop
    omega
  have header : (⟨pid, h + hdrBytes, size⟩ : Given n).header = h := Nat.add_sub_cancel _ _
  refine housed.after_call allowed ?_ ?_
  · rw [List.map_cons, List.nodup_cons]
    refine ⟨?_, housed.once⟩
    intro again
    obtain ⟨g, member, same⟩ := List.mem_map.mp again
    obtain ⟨low, heap', here', entry'⟩ := housed.home g member
    have back := header_back low
    dsimp only at same
    have isHere : g.header = h := by omega
    rw [isHere, named, here, Option.some.injEq] at here'
    subst here'
    obtain ⟨tiles, lists, _, held⟩ := sound.consistent
    have nodup := held.nodup
    rw [List.map_cons, List.nodup_cons] at nodup
    exact nodup.1 (List.mem_map.mpr ⟨_, entry', isHere⟩)
  · intro g member
    rcases List.mem_cons.mp member with rfl | older
    · rw [header, named]
      exact ⟨Nat.le_add_left _ _, _, after, by rw [whole]; exact entry⟩
    · exact housed.stays older (by simp)

theorem Housed.release {front back : List (Given n)}
    (housed : Housed s (front ++ g :: back)) :
    Housed (poolCall s (poolOf s g.header) (.free g.header)) (front ++ back) := by
  have member : g ∈ front ++ g :: back := by simp
  obtain ⟨low, heap, here, entry⟩ := housed.home g member
  have perm : (front ++ g :: back).Perm (g :: (front ++ back)) := List.perm_middle
  have once := (perm.map Given.pointer).nodup_iff.mp housed.once
  rw [List.map_cons, List.nodup_cons] at once
  refine housed.after_call ?_ once.2 ?_
  · intro heap' here'
    rw [here, Option.some.injEq] at here'
    subst here'
    exact List.mem_map_of_mem entry
  · intro other member'
    have older : other ∈ front ++ g :: back := perm.symm.subset (List.mem_cons_of_mem g member')
    refine housed.stays older ?_
    intro same
    have equal : g.header = other.header := by simpa using same
    have back := header_back low
    have back' := header_back (housed.home other older).1
    have pointers : g.pointer = other.pointer := by omega
    exact once.1 (pointers ▸ List.mem_map_of_mem member')

end Housed

end Ubiqos.Memory
