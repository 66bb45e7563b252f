import Ubiqos.Memory.Chained

/-!
The calls keep the blocks where they are and the lists as they should be. Each
call is followed through its steps: the pool, the words of the header, and the
list; the bytes of the blocks are met only by the copy of `realloc`.
-/

namespace Ubiqos.Memory

open Function Intrusive Machine Words

section Kept
variable {n : Nat} {s s' : State n} {live front back : List (Given n)} {g : Given n} {pid : Pid n}

structure Kept (s : State n) (live : List (Given n)) : Prop where
  housed : Housed s live
  chained : Chained s.memory s.allocs live
  there : ∀ g ∈ live, s.procs g.owner ≠ .free

def Outside (live : List (Given n)) (place : Nat) : Prop :=
  ∀ g ∈ live, place < g.header ∨ g.pointer ≤ place

theorem Housed.same_pools (housed : Housed s live) (same : s'.pools = s.pools) : Housed s' live := by
  have named : ∀ address, poolOf s' address = poolOf s address := by
    intro address
    unfold poolOf
    rw [same]
  refine ⟨?_, ?_, ?_, housed.once⟩
  · rw [same]
    exact housed.sound
  · rw [same]
    exact housed.pools
  · intro g member
    rw [same, named]
    exact housed.home g member

theorem Kept.spread (kept : Kept s live) : Spread live := kept.housed.spread

theorem Spread.outside (spread : Spread live) (member : g ∈ live) {place : Nat}
    (low : g.pointer ≤ place) (high : place < g.pointer + g.size) : Outside live place := by
  intro g' member'
  by_cases same : g.pointer = g'.pointer
  · exact Or.inr (same ▸ low)
  · have apart := spread.apart g member g' member' same
    have header := (spread.header member).1
    omega

theorem Kept.written (kept : Kept s live) (pools : s'.pools = s.pools) (allocs : s'.allocs = s.allocs)
    (procs : s'.procs = s.procs)
    (same : ∀ g ∈ live, ∀ place, g.header ≤ place → place < g.pointer →
      s'.memory place = s.memory place) : Kept s' live := by
  refine ⟨kept.housed.same_pools pools, ?_, ?_⟩
  · rw [allocs]
    exact kept.chained.congr kept.spread same
  · rw [procs]
    exact kept.there

theorem live_perm (front back : List (Given n)) (g : Given n) :
    (front ++ g :: back).Perm (g :: (front ++ back)) := List.perm_middle

theorem once_away {live : List (Given n)} (once : (live.map Given.pointer).Nodup)
    (split : live = front ++ g :: back) : ∀ g' ∈ front ++ back, g'.pointer ≠ g.pointer := by
  intro g' member same
  rw [split] at once
  have nodup := ((live_perm front back g).map Given.pointer).nodup_iff.mp once
  exact (List.nodup_cons.mp nodup).1 (same ▸ List.mem_map_of_mem member)

theorem drop_owned (once : ((front ++ g :: back).map Given.pointer).Nodup) :
    drop (front ++ g :: back) g.owner g.pointer = front ++ back := by
  have kept : ∀ g' ∈ front ++ back, ¬ (g'.owner = g.owner ∧ g'.pointer = g.pointer) :=
    fun g' member both => once_away once rfl g' member both.2
  unfold drop
  rw [List.filter_append, List.filter_cons_of_neg (by simp), ← List.filter_append]
  exact List.filter_eq_self.mpr fun g' member => decide_eq_true (kept g' member)

theorem drop_none {pointer : Nat} (none : ∀ g ∈ live, ¬ (g.owner = pid ∧ g.pointer = pointer)) :
    drop live pid pointer = live :=
  List.filter_eq_self.mpr fun g member => decide_eq_true (none g member)

theorem move_owned (once : ((front ++ g :: back).map Given.pointer).Nodup) (receiver : Pid n) :
    move (front ++ g :: back) g.owner g.pointer receiver =
      { g with owner := receiver } :: (front ++ back) := by
  have away : ∀ g' ∈ front ++ back, ¬ (g'.owner = g.owner ∧ g'.pointer = g.pointer) :=
    fun g' member both => once_away once rfl g' member both.2
  have before : front.filter (fun g' => g'.owner = g.owner ∧ g'.pointer = g.pointer) = [] :=
    List.filter_eq_nil_iff.mpr fun g' member => by
      simpa using away g' (List.mem_append_left _ member)
  have after : back.filter (fun g' => g'.owner = g.owner ∧ g'.pointer = g.pointer) = [] :=
    List.filter_eq_nil_iff.mpr fun g' member => by
      simpa using away g' (List.mem_append_right _ member)
  unfold move
  rw [drop_owned once, List.filter_append, List.filter_cons_of_pos (by simp), before, after]
  rfl

theorem move_none {pointer : Nat} (none : ∀ g ∈ live, ¬ (g.owner = pid ∧ g.pointer = pointer))
    (receiver : Pid n) : move live pid pointer receiver = live := by
  have empty : live.filter (fun g => g.owner = pid ∧ g.pointer = pointer) = [] :=
    List.filter_eq_nil_iff.mpr fun g member => by simpa using none g member
  unfold move
  rw [empty, drop_none none]
  rfl

variable {size : U32}

theorem Fits.request (fits : Fits size) :
    size.toNat + hdrBytes = (size + 16#32).toNat ∧ (size + 16#32).toNat ≤ Tlsf.largestRequest ∨
      (size + 16#32).toNat = 0 := by
  rcases fits with small | nothing
  · left
    have sum : (size + 16#32).toNat = size.toNat + 16 := by
      unfold hdrBytes Tlsf.largestRequest at small
      rw [BitVec.toNat_add, BitVec.toNat_ofNat]
      omega
    rw [sum]
    exact ⟨rfl, small⟩
  · right
    rw [nothing]
    rfl

structure Handed (s : State n) (live : List (Given n)) (pid : Pid n) (size : U32)
    (result : State n × Nat) : Prop where
  refused : result.2 = 0 → result.1 = s
  kept : Kept result.1 (give live pid result.2 size)
  bytes : ∀ place, place < result.2 - hdrBytes ∨ result.2 ≤ place →
    result.1.memory place = s.memory place

theorem Handed.nothing (kept : Kept s live) (size : U32) : Handed s live pid size (s, 0) :=
  ⟨fun _ => rfl, kept, fun _ _ => rfl⟩

theorem header_written (memory : Memory) (h size : Nat) (small : size < 2 ^ 32) :
    sizeOf (store (store memory (h + 8) size) (h + 12) allocMagic) h = size ∧
      magicOf (store (store memory (h + 8) size) (h + 12) allocMagic) h = allocMagic := by
  constructor
  · unfold sizeOf
    rw [load_store_apart (by omega), load_store small]
  · unfold magicOf
    exact load_store (by decide)

theorem allocFrom_handed [NeZero n] (kept : Kept s live) (fits : Fits size)
    (there : s.procs pid ≠ .free) (pool : PoolName) :
    Handed s live pid size (allocFrom s pid pool size) := by
  unfold allocFrom
  cases here : s.pools pool with
  | none => exact .nothing kept size
  | some heap =>
    dsimp only
    split
    · exact .nothing kept size
    · cases given : (Tlsf.malloc heap.pool (size + 16#32).toNat).2 with
      | none => exact .nothing kept size
      | some h =>
        dsimp only
        rcases fits.request with ⟨whole, small⟩ | zero
        · have housed := kept.housed.malloc here given small whole pid
          have spread := housed.spread
          have isNew : (⟨pid, h + hdrBytes, size.toNat⟩ : Given n) ∈
              ⟨pid, h + hdrBytes, size.toNat⟩ :: live := List.mem_cons_self
          have header : (⟨pid, h + hdrBytes, size.toNat⟩ : Given n).header = h :=
            Nat.add_sub_cancel _ _
          -- the new header is written beside the others
          have beside : Chained
              (store (store s.memory (h + 8) size.toNat) (h + 12) allocMagic) s.allocs live := by
            refine kept.chained.congr kept.spread fun g member place low high => ?_
            have away : g.pointer ≠ h + hdrBytes := by
              intro same
              exact (List.nodup_cons.mp spread.once).1 (List.mem_map.mpr ⟨g, member, same⟩)
            have apart := spread.headers_apart (List.mem_cons_of_mem _ member) isNew away
            have back := (kept.spread.header member).1
            rw [header] at apart
            unfold hdrBytes at apart back
            rw [store_outside (by omega), store_outside (by omega)]
          obtain ⟨sized, marked⟩ := header_written s.memory h size.toNat (BitVec.isLt size)
          have linked := Chained.link
            (s := { poolCall s pool (.malloc (size + 16#32)) with
              memory := store (store s.memory (h + 8) size.toNat) (h + 12) allocMagic })
            beside spread (by rw [header]; exact sized) (by rw [header]; exact marked)
          rw [header] at linked
          have some : h + hdrBytes ≠ 0 := by
            unfold hdrBytes
            omega
          refine ⟨fun nothing => absurd nothing some, ?_, ?_⟩
          · unfold give
            rw [if_neg some]
            refine ⟨housed.same_pools rfl, linked, ?_⟩
            intro g member
            rcases List.mem_cons.mp member with rfl | older
            · exact there
            · exact kept.there g older
          · intro place outside
            dsimp only at outside
            unfold hdrBytes at outside
            unfold allocLink
            dsimp only
            rw [store_outside (by omega), store_outside (by omega), store_outside (by omega),
              store_outside (by omega)]
            rfl
        · rw [zero] at given
          simp [Tlsf.malloc] at given

theorem memAllocBulk_handed [NeZero n] (kept : Kept s live) (fits : Fits size)
    (there : s.procs pid ≠ .free) : Handed s live pid size (memAllocBulk s pid size) := by
  have first := allocFrom_handed kept fits there .bulk
  unfold memAllocBulk
  dsimp only
  split
  · exact first
  · rename_i nothing
    rw [first.refused (not_not.mp nothing)]
    exact allocFrom_handed kept fits there .mem

variable {ptr : U32}

theorem headerOf_eq (kept : Kept s live) (member : g ∈ live) :
    g.header = headerOf ptr ↔ g.pointer = ptr.toNat := by
  obtain ⟨header, positive, bound⟩ := kept.spread.header member
  unfold headerOf
  unfold hdrBytes at header
  have inside := BitVec.isLt ptr
  have sub : (ptr - 16#32).toNat = (2 ^ 32 - 16 + ptr.toNat) % 2 ^ 32 := by
    rw [BitVec.toNat_sub, BitVec.toNat_ofNat]
  rw [sub]
  omega

theorem Kept.not_listed (kept : Kept s live)
    (foreign : ∀ g ∈ live, ¬ (g.owner = pid ∧ g.pointer = ptr.toNat)) :
    headerOf ptr ∉ headersOf live pid := by
  intro listed
  obtain ⟨g, member, owner, header⟩ := mem_headersOf.mp listed
  exact foreign g member ⟨owner, (headerOf_eq kept member).mp header⟩

theorem memFree_other (kept : Kept s live) (some : ptr ≠ 0)
    (foreign : ∀ g ∈ live, ¬ (g.owner = pid ∧ g.pointer = ptr.toNat)) :
    memFree s pid ptr = (s, -1) := by
  unfold memFree
  rw [if_neg some]
  split
  · rfl
  · rw [allocUnlink_absent kept.chained (kept.not_listed foreign)]

theorem giveBack_kept (housed : Housed s (front ++ g :: back))
    (chained : Chained s.memory s.allocs (front ++ back))
    (there : ∀ g ∈ front ++ back, s.procs g.owner ≠ .free) :
    Kept (giveBack s g.header) (front ++ back) := by
  have spread := housed.spread
  have member : g ∈ front ++ g :: back := by simp
  have older : ∀ g' ∈ front ++ back, g' ∈ front ++ g :: back := fun g' among =>
    (live_perm front back g).symm.subset (List.mem_cons_of_mem g among)
  have released := housed.release
  refine ⟨released.same_pools rfl, ?_, there⟩
  refine chained.congr released.spread fun g' among place low high => ?_
  have apart := spread.headers_apart (older g' among) member (once_away housed.once rfl g' among)
  have header := (spread.header (older g' among)).1
  unfold hdrBytes at apart header
  exact store_outside (by omega)

/-- A pointer that was handed out names a marked block of its owner. -/
theorem Kept.claimed (kept : Kept s (front ++ g :: back)) (here : g.pointer = ptr.toNat) :
    g ∈ front ++ g :: back ∧ g.header = headerOf ptr ∧ Marked s.memory g ∧
      Claims s g.owner (headerOf ptr) ∧ ptr ≠ 0 := by
  have member : g ∈ front ++ g :: back := by simp
  have header := (headerOf_eq kept member).mpr here
  have marked := kept.chained.words g member
  refine ⟨member, header, marked, ?_, ?_⟩
  · rw [← header]
    exact ⟨marked.magic, marked.owner⟩
  · rintro rfl
    have low := kept.spread.low g member
    rw [here] at low
    exact absurd low (by decide)

theorem memFree_owned (kept : Kept s (front ++ g :: back)) (here : g.pointer = ptr.toNat) :
    ∃ s', memFree s g.owner ptr = (s', 0) ∧ Kept s' (front ++ back) ∧
      ∀ place, Outside (front ++ g :: back) place → s'.memory place = s.memory place := by
  obtain ⟨member, header, marked, claims, some⟩ := kept.claimed here
  obtain ⟨s₁, taken, pools, procs, chained, _, outside⟩ := kept.chained.unlink kept.spread
  have gone := giveBack_kept (kept.housed.same_pools pools) chained (by
    rw [procs]
    exact fun g' among => kept.there g' ((live_perm front back g).symm.subset
      (List.mem_cons_of_mem g among)))
  refine ⟨_, ?_, gone, ?_⟩
  · unfold memFree
    rw [if_neg some, if_neg (not_not.mpr claims), ← header, taken]
  · intro place away
    rw [← outside place away]
    have back := (kept.spread.header member).1
    have away' := away g member
    unfold hdrBytes at back
    exact store_outside (by omega)

theorem memRealloc_other [NeZero n] {ptr size : U32} (some : ptr ≠ 0)
    (unclaimed : ¬ Claims s pid (headerOf ptr)) : memRealloc s pid ptr size = (s, 0) := by
  unfold memRealloc
  rw [if_neg some, if_pos unclaimed]

theorem memRealloc_nothing [NeZero n] (some : ptr ≠ 0) :
    (memRealloc s pid ptr 0).2 = 0 := by
  unfold memRealloc
  rw [if_neg some]
  split <;> rfl

theorem copied_kept {g₀ : Given n} (kept : Kept s (g₀ :: live)) (source : Nat) {count : Nat}
    (fits : count ≤ g₀.size) :
    Kept { s with memory := copy s.memory g₀.pointer source count } (g₀ :: live) := by
  refine kept.written rfl rfl rfl fun g member place low high => ?_
  refine copy_outside ?_
  by_cases same : g.pointer = g₀.pointer
  · omega
  · have apart := kept.spread.apart g member g₀ List.mem_cons_self same
    have header := (kept.spread.header (g := g₀) List.mem_cons_self).1
    omega

theorem memRealloc_owned [NeZero n] (kept : Kept s (front ++ g :: back)) {ptr size : U32}
    (here : g.pointer = ptr.toNat) (fits : Fits size) (asked : size ≠ 0) :
    ((memRealloc s g.owner ptr size).2 = 0 ∧ (memRealloc s g.owner ptr size).1 = s) ∨
      ((memRealloc s g.owner ptr size).2 ≠ 0 ∧
        Kept (memRealloc s g.owner ptr size).1
          (⟨g.owner, (memRealloc s g.owner ptr size).2, size.toNat⟩ :: (front ++ back)) ∧
        (∀ i < min g.size size.toNat,
          (memRealloc s g.owner ptr size).1.memory ((memRealloc s g.owner ptr size).2 + i) =
            s.memory (g.pointer + i)) ∧
        ∀ g' ∈ front ++ back, ∀ place, g'.pointer ≤ place → place < g'.pointer + g'.size →
          (memRealloc s g.owner ptr size).1.memory place = s.memory place) := by
  obtain ⟨member, header, marked, claims, some⟩ := kept.claimed here
  have handed := allocFrom_handed kept fits (kept.there g member) .mem
  unfold memRealloc
  rw [if_neg some, if_neg (not_not.mpr claims), if_neg asked]
  dsimp only
  change Handed s _ g.owner size (memAlloc s g.owner size) at handed
  generalize memAlloc s g.owner size = fresh at handed ⊢
  -- Allocate, copy, free: `Kept` holds after each, with both blocks live in between.
  by_cases null : fresh.2 = 0
  · rw [if_pos null]
    exact Or.inl ⟨rfl, handed.refused null⟩
  · rw [if_neg null]
    have kept₁ := handed.kept
    unfold give at kept₁
    rw [if_neg null] at kept₁
    have inFresh : g ∈ (⟨g.owner, fresh.2, size.toNat⟩ : Given n) :: (front ++ g :: back) :=
      List.mem_cons_of_mem _ member
    have sized : sizeOf fresh.1.memory (headerOf ptr) = g.size := by
      rw [← header]
      exact (kept₁.chained.words g inFresh).size
    have keeps : (if sizeOf fresh.1.memory (headerOf ptr) < size.toNat
        then sizeOf fresh.1.memory (headerOf ptr) else size.toNat) = min g.size size.toNat := by
      rw [sized]
      split <;> omega
    rw [keeps]
    have spread := kept₁.spread
    have apart := spread.apart _ (List.mem_cons_self) g inFresh (by
      intro same
      exact (List.nodup_cons.mp spread.once).1 (List.mem_map.mpr ⟨g, member, same.symm⟩))
    have back₀ := (spread.header (g := ⟨g.owner, fresh.2, size.toNat⟩) List.mem_cons_self).1
    have back₁ := (spread.header inFresh).1
    dsimp only at apart back₀
    have kept₂ := copied_kept kept₁ ptr.toNat (Nat.min_le_right g.size size.toNat)
    rw [← List.cons_append] at kept₂
    obtain ⟨s', freed, kept₃, bytes⟩ := memFree_owned kept₂ here
    rw [freed]
    refine Or.inr ⟨null, kept₃, ?_, ?_⟩
    swap
    · intro g' among place low high
      have older : g' ∈ front ++ g :: back :=
        (live_perm front back g).symm.subset (List.mem_cons_of_mem g among)
      have inFresh' : g' ∈ (⟨g.owner, fresh.2, size.toNat⟩ : Given n) :: (front ++ g :: back) :=
        List.mem_cons_of_mem _ older
      have differ : g'.pointer ≠ fresh.2 := fun same =>
        (List.nodup_cons.mp spread.once).1 (List.mem_map.mpr ⟨g', older, same⟩)
      have away := spread.apart g' inFresh' _ List.mem_cons_self differ
      have header' := (spread.header inFresh').1
      dsimp only at away
      rw [bytes _ (spread.outside inFresh' low high)]
      have copied : (copy fresh.1.memory fresh.2 ptr.toNat (min g.size size.toNat)) place =
          fresh.1.memory place := copy_outside (by omega)
      exact copied.trans (handed.bytes _ (by omega))
    intro i inside
    have within : Outside (⟨g.owner, fresh.2, size.toNat⟩ :: front ++ g :: back) (fresh.2 + i) := by
      intro g' among
      by_cases same : g'.pointer = fresh.2
      · exact Or.inr (by omega)
      · have away := spread.apart g' among _ List.mem_cons_self same
        have header' := (spread.header among).1
        dsimp only at away
        omega
    rw [bytes _ within]
    have stays : fresh.1.memory (g.pointer + i) = s.memory (g.pointer + i) :=
      handed.bytes _ (by omega)
    rw [← stays, here]
    dsimp only
    exact copy_inside (by omega) inside

theorem memHandOver_other (kept : Kept s live)
    (foreign : ∀ g ∈ live, ¬ (g.owner = pid ∧ g.pointer = ptr.toNat)) (toPid : Int) :
    memHandOver s pid ptr toPid = (s, -1) := by
  unfold memHandOver
  split
  · rfl
  · split
    · dsimp only
      split
      · rfl
      · split
        · rfl
        · rw [allocUnlink_absent kept.chained (kept.not_listed foreign)]
    · rfl

variable {toPid : Int}

theorem memHandOver_nobody (nobody : receiverOf s toPid = none) :
    memHandOver s pid ptr toPid = (s, -1) := by
  unfold receiverOf at nobody
  unfold memHandOver
  split
  · rfl
  · split
    · rename_i inside
      rw [dif_pos inside] at nobody
      dsimp only
      split
      · rfl
      · rename_i there
        rw [if_neg there] at nobody
        exact absurd nobody (by simp)
    · rfl

theorem receiverOf_some {receiver : Pid n} (somebody : receiverOf s toPid = some receiver) :
    ∃ inside : 0 ≤ toPid ∧ toPid < n,
      receiver = ⟨toPid.toNat, toNat_inside inside⟩ ∧ s.procs receiver ≠ .free := by
  unfold receiverOf at somebody
  split at somebody
  · rename_i inside
    split at somebody
    · exact absurd somebody (by simp)
    · rename_i there
      rw [Option.some.injEq] at somebody
      subst somebody
      exact ⟨inside, rfl, there⟩
  · exact absurd somebody (by simp)

theorem memHandOver_owned (kept : Kept s (front ++ g :: back)) (here : g.pointer = ptr.toNat)
     {receiver : Pid n} (somebody : receiverOf s toPid = some receiver) :
    ∃ s', memHandOver s g.owner ptr toPid = (s', 0) ∧
      Kept s' ({ g with owner := receiver } :: (front ++ back)) ∧
      ∀ place, Outside (front ++ g :: back) place → s'.memory place = s.memory place := by
  obtain ⟨member, header, marked, claims, some⟩ := kept.claimed here
  obtain ⟨inside, is, there⟩ := receiverOf_some somebody
  obtain ⟨s₁, taken, pools, procs, chained, marked₁, outside⟩ := kept.chained.unlink kept.spread
  have housed : Housed s ({ g with owner := receiver } :: (front ++ back)) := by
    have perm := live_perm front back g
    refine ⟨kept.housed.sound, kept.housed.pools, ?_, ?_⟩
    · intro g' among
      rcases List.mem_cons.mp among with rfl | older
      · exact kept.housed.home g member
      · exact kept.housed.home g' (perm.symm.subset (List.mem_cons_of_mem g older))
    · exact (perm.map Given.pointer).nodup_iff.mp kept.housed.once
  have linked := Chained.link (g := { g with owner := receiver }) chained housed.spread marked₁.size
    marked₁.magic
  refine ⟨allocLink s₁ receiver g.header, ?_, ⟨housed.same_pools pools, linked, ?_⟩, ?_⟩
  · unfold memHandOver
    rw [if_neg some, dif_pos inside]
    dsimp only
    rw [← is, if_neg there, if_neg (not_not.mpr claims), ← header, taken]
  · intro g' among
    have same : (allocLink s₁ receiver g.header).procs = s.procs := procs
    rw [same]
    rcases List.mem_cons.mp among with rfl | older
    · exact there
    · exact kept.there g' ((live_perm front back g).symm.subset (List.mem_cons_of_mem g older))
  · intro place away
    have back' := (kept.spread.header member).1
    have away' := away g member
    unfold hdrBytes at back'
    unfold allocLink
    dsimp only
    rw [store_outside (by omega), store_outside (by omega), outside place away]

end Kept

end Ubiqos.Memory
