import Ubiqos.Memory.Housed

/-!
What the headers say. The lists of the processes run through the headers of
their blocks, newest first, and each header names its owner; linking and
unlinking one block changes what belongs to that block and leaves the rest.
-/

namespace Ubiqos.Memory

open Function Intrusive Machine Words

section Chained
variable {n : Nat} {memory other : Memory} {allocs : Pid n → Option Nat} {s : State n}
  {live front back : List (Given n)} {g : Given n}

def headersOf (live : List (Given n)) (pid : Pid n) : List Nat :=
  (live.filter fun g => g.owner = pid).map Given.header

structure Marked (memory : Memory) (g : Given n) : Prop where
  owner : ownerOf memory g.header = g.owner.word.toNat
  size : sizeOf memory g.header = g.size
  magic : magicOf memory g.header = allocMagic

structure Chained (memory : Memory) (allocs : Pid n → Option Nat) (live : List (Given n)) : Prop where
  lists : ∀ pid, Linked (nextOf memory) (allocs pid) (headersOf live pid)
  words : ∀ g ∈ live, Marked memory g

variable {h : Nat}

variable {pid : Pid n}

theorem mem_headersOf :
    h ∈ headersOf live pid ↔ ∃ g ∈ live, g.owner = pid ∧ g.header = h := by
  simp [headersOf, and_assoc]

theorem headersOf_middle (front back : List (Given n)) (g : Given n) :
    headersOf (front ++ g :: back) g.owner =
      headersOf front g.owner ++ g.header :: headersOf back g.owner := by
  simp [headersOf]

theorem headersOf_append (front back : List (Given n)) (pid : Pid n) :
    headersOf (front ++ back) pid = headersOf front pid ++ headersOf back pid := by
  simp [headersOf]

theorem headersOf_skip (front back : List (Given n)) (away : g.owner ≠ pid) :
    headersOf (front ++ g :: back) pid = headersOf (front ++ back) pid := by
  simp [headersOf, away]

theorem nextOf_congr (same : load other h = load memory h) :
    nextOf other h = nextOf memory h := by
  unfold nextOf
  rw [same]

theorem nextOf_store {link : Option Nat} (small : ∀ target, link = some target → target ≠ 0 ∧ target < 2 ^ 32) :
    nextOf (store memory h (link.getD 0)) h = link := by
  unfold nextOf
  cases link with
  | none =>
    rw [Option.getD_none, load_store (by decide)]
    rfl
  | some target =>
    obtain ⟨some, bound⟩ := small target rfl
    rw [Option.getD_some, load_store bound, if_neg some]

theorem Spread.header (spread : Spread live) (member : g ∈ live) :
    g.header + hdrBytes = g.pointer ∧ g.header ≠ 0 ∧ g.pointer < 2 ^ 32 := by
  have low := spread.low g member
  have high := spread.high g member
  have back := header_back (Nat.le_of_lt low)
  exact ⟨back, by omega, by omega⟩

theorem Spread.headers_apart (spread : Spread live) (member : g ∈ live) {g' : Given n}
    (member' : g' ∈ live) (away : g.pointer ≠ g'.pointer) :
    g.header + hdrBytes ≤ g'.header ∨ g'.header + hdrBytes ≤ g.header := by
  have apart := spread.apart g member g' member' away
  have header := (spread.header member).1
  have header' := (spread.header member').1
  omega

theorem Chained.congr (chained : Chained memory allocs live) (spread : Spread live)
    (same : ∀ g ∈ live, ∀ place, g.header ≤ place → place < g.pointer → other place = memory place) :
    Chained other allocs live := by
  have word : ∀ g ∈ live, ∀ k, k + 4 ≤ hdrBytes →
      load other (g.header + k) = load memory (g.header + k) := by
    intro g member k inside
    have header := (spread.header member).1
    exact load_congr fun place low high => same g member place (by omega) (by omega)
  constructor
  · intro pid
    refine linked_congr ?_ (chained.lists pid)
    intro h among
    obtain ⟨g, member, _, rfl⟩ := mem_headersOf.mp among
    exact (nextOf_congr (word g member 0 (by decide))).symm
  · intro g member
    obtain ⟨owner, size, magic⟩ := chained.words g member
    exact ⟨(word g member 4 (by decide)).trans owner, (word g member 8 (by decide)).trans size,
      (word g member 12 (by decide)).trans magic⟩

theorem Spread.headersOf_lt (spread : Spread live) (pid : Pid n)
    (among : h ∈ headersOf live pid) : h ≠ 0 ∧ h < 2 ^ 32 := by
  obtain ⟨g, member, _, rfl⟩ := mem_headersOf.mp among
  obtain ⟨back, positive, bound⟩ := spread.header member
  exact ⟨positive, by omega⟩

theorem Spread.head_small (spread : Spread live) (chained : Chained memory allocs live) (pid : Pid n) :
    ∀ first, allocs pid = some first → first ≠ 0 ∧ first < 2 ^ 32 := by
  intro first is
  refine spread.headersOf_lt pid ?_
  have head := linked_head (chained.lists pid)
  rw [is] at head
  exact List.mem_of_mem_head? head.symm

theorem Chained.link (chained : Chained s.memory s.allocs live) (spread : Spread (g :: live))
    (size : sizeOf s.memory g.header = g.size) (magic : magicOf s.memory g.header = allocMagic) :
    Chained (allocLink s g.owner g.header).memory (allocLink s g.owner g.header).allocs
      (g :: live) := by
  have here : g ∈ g :: live := List.mem_cons_self
  have older : Spread live :=
    ⟨fun a ina b inb => spread.apart a (List.mem_cons_of_mem g ina) b (List.mem_cons_of_mem g inb),
      fun a ina => spread.low a (List.mem_cons_of_mem g ina),
      fun a ina => spread.high a (List.mem_cons_of_mem g ina), (List.nodup_cons.mp spread.once).2⟩
  have fresh : ∀ g' ∈ live, g'.pointer ≠ g.pointer := by
    intro g' member same
    exact (List.nodup_cons.mp spread.once).1 (same ▸ List.mem_map_of_mem member)
  -- the two words that are written lie in the block's own header
  have kept : Chained (allocLink s g.owner g.header).memory s.allocs live := by
    refine chained.congr older fun g' member place low high => ?_
    have apart := spread.headers_apart (List.mem_cons_of_mem g member) here (fresh g' member)
    have back := (older.header member).1
    unfold hdrBytes at apart back
    unfold allocLink
    dsimp only
    rw [store_outside (by omega), store_outside (by omega)]
  have first : nextOf (allocLink s g.owner g.header).memory g.header = s.allocs g.owner :=
    nextOf_store (older.head_small chained g.owner)
  constructor
  · intro pid
    by_cases mine : g.owner = pid
    · subst mine
      have headers : headersOf (g :: live) g.owner = g.header :: headersOf live g.owner :=
        headersOf_middle [] live g
      rw [headers]
      refine ⟨update_self _ _ _, ?_⟩
      rw [first]
      exact kept.lists g.owner
    · have headers : headersOf (g :: live) pid = headersOf live pid :=
        headersOf_skip [] live mine
      rw [headers]
      have same : (allocLink s g.owner g.header).allocs pid = s.allocs pid :=
        update_of_ne (Ne.symm mine) _ _
      rw [same]
      exact kept.lists pid
  · intro g' member
    rcases List.mem_cons.mp member with rfl | before
    · unfold allocLink
      refine ⟨?_, ?_, ?_⟩
      · unfold ownerOf
        dsimp only
        rw [load_store_apart (by omega), load_store (BitVec.isLt _)]
      · unfold sizeOf at *
        dsimp only
        rw [load_store_apart (by omega), load_store_apart (by omega)]
        exact size
      · unfold magicOf at *
        dsimp only
        rw [load_store_apart (by omega), load_store_apart (by omega)]
        exact magic
    · exact kept.words g' before

/-- `*pp = h->next`, where it is written into memory. -/
def bypassed (memory : Memory) (before : Option Nat) (h : Nat) : Memory :=
  match before with
  | none => memory
  | some ahead => store memory ahead (load memory h)

/-- The words that `alloc_unlink` writes when it has found the block. -/
def unlinked (memory : Memory) (before : Option Nat) (h : Nat) : Memory :=
  store (bypassed memory before h) h 0

theorem allocUnlink_found {before : Option Nat}
    (found : seek (nextOf s.memory) h turns none (s.allocs pid) = some before) :
    allocUnlink s pid h = some { s with
      memory := unlinked s.memory before h
      allocs := update s.allocs pid (if before = none then nextOf s.memory h else s.allocs pid) } := by
  unfold allocUnlink
  rw [found]
  cases before with
  | none => rfl
  | some ahead => simp [unlinked, bypassed]

theorem allocUnlink_absent (chained : Chained s.memory s.allocs live)
    (absent : h ∉ headersOf live pid) : allocUnlink s pid h = none := by
  unfold allocUnlink
  rw [seek_absent (chained.lists pid) absent]

section Unlinked
variable {before : Option Nat}

theorem unlinked_outside (member : g ∈ live)
    (isHeader : ∀ ahead, before = some ahead → ∃ g' ∈ live, g'.header = ahead) {place : Nat}
    (outside : ∀ g' ∈ live, place < g'.header ∨ g'.header + 4 ≤ place) :
    unlinked memory before g.header place = memory place := by
  unfold unlinked
  rw [store_outside (outside g member)]
  cases before with
  | none => rfl
  | some ahead =>
    obtain ⟨g', member', rfl⟩ := isHeader ahead rfl
    exact store_outside (outside g' member')

theorem unlinked_marked (spread : Spread live) (member : g ∈ live)
    (isHeader : ∀ ahead, before = some ahead → ∃ g' ∈ live, g'.header = ahead) {g₁ : Given n}
    (member₁ : g₁ ∈ live) (marked : Marked memory g₁) :
    Marked (unlinked memory before g.header) g₁ := by
  have word : ∀ k, 4 ≤ k → k + 4 ≤ hdrBytes →
      load (unlinked memory before g.header) (g₁.header + k) = load memory (g₁.header + k) := by
    intro k low high
    refine load_congr fun place above below => unlinked_outside member isHeader ?_
    intro g' member'
    by_cases same : g₁.pointer = g'.pointer
    · have equal : g₁.header = g'.header := by
        unfold Given.header
        rw [same]
      omega
    · have apart := spread.headers_apart member₁ member' same
      unfold hdrBytes at apart high
      omega
  exact ⟨(word 4 (by decide) (by decide)).trans marked.owner,
    (word 8 (by decide) (by decide)).trans marked.size,
    (word 12 (by decide) (by decide)).trans marked.magic⟩

theorem unlinked_next (spread : Spread live) (member : g ∈ live)
    (isHeader : ∀ ahead, before = some ahead → ∃ g' ∈ live, g'.header = ahead)
    (away : before ≠ some g.header) {g₁ : Given n} (member₁ : g₁ ∈ live) :
    nextOf (unlinked memory before g.header) g₁.header =
      update (bypass (nextOf memory) before g.header) g.header none g₁.header := by
  have far : ∀ g' ∈ live, g₁.header ≠ g'.header → g'.header + 4 ≤ g₁.header ∨ g₁.header + 4 ≤ g'.header := by
    intro g' member' different
    have pointers : g₁.pointer ≠ g'.pointer := by
      intro same
      apply different
      unfold Given.header
      rw [same]
    have apart := spread.headers_apart member₁ member' pointers
    unfold hdrBytes at apart
    omega
  by_cases self : g₁.header = g.header
  · rw [self, update_self]
    unfold unlinked nextOf
    rw [load_store (by decide)]
    rfl
  · rw [update_of_ne self]
    have skips : nextOf (unlinked memory before g.header) g₁.header =
        nextOf (bypassed memory before g.header) g₁.header :=
      nextOf_congr (load_store_apart (far g member self))
    rw [skips]
    cases before with
    | none => rfl
    | some ahead =>
      obtain ⟨g', member', rfl⟩ := isHeader ahead rfl
      unfold bypass bypassed
      dsimp only
      by_cases first : g₁.header = g'.header
      · rw [first, update_self]
        unfold nextOf
        rw [load_store load_lt]
      · rw [update_of_ne first]
        exact nextOf_congr (load_store_apart (far g' member' first))

end Unlinked

theorem Chained.unlink (chained : Chained s.memory s.allocs (front ++ g :: back))
    (spread : Spread (front ++ g :: back)) :
    ∃ s', allocUnlink s g.owner g.header = some s' ∧ s'.pools = s.pools ∧ s'.procs = s.procs ∧
      Chained s'.memory s'.allocs (front ++ back) ∧ Marked s'.memory g ∧
      ∀ place, (∀ g' ∈ front ++ g :: back, place < g'.header ∨ g'.pointer ≤ place) →
        s'.memory place = s.memory place := by
  have member : g ∈ front ++ g :: back := by simp
  have list := chained.lists g.owner
  rw [headersOf_middle] at list
  have few : (headersOf front g.owner).length < turns := by
    have fits := linked_length_below list turns fun h among =>
      (spread.headersOf_lt g.owner (by rw [headersOf_middle]; exact among)).2
    rw [List.length_append, List.length_cons] at fits
    omega
  have found := seek_found list turns few none
  rw [Option.or_none] at found
  have isHeader : ∀ ahead, (headersOf front g.owner).getLast? = some ahead →
      ∃ g' ∈ front ++ g :: back, g'.owner = g.owner ∧ g'.header = ahead := by
    intro ahead last
    obtain ⟨g', among, owner, header⟩ := mem_headersOf.mp (List.mem_of_getLast? last)
    exact ⟨g', List.mem_append_left _ among, owner, header⟩
  have isHeader' : ∀ ahead, (headersOf front g.owner).getLast? = some ahead →
      ∃ g' ∈ front ++ g :: back, g'.header = ahead := fun ahead last =>
    (isHeader ahead last).imp fun _ is => ⟨is.1, is.2.2⟩
  have nodup := linked_nodup list
  have away : (headersOf front g.owner).getLast? ≠ some g.header := by
    intro last
    have apart := (List.nodup_append.mp nodup).2.2
    exact apart g.header (List.mem_of_getLast? last) g.header List.mem_cons_self rfl
  have rest : ∀ g' ∈ front ++ back, g' ∈ front ++ g :: back := by
    intro g' among
    rcases List.mem_append.mp among with early | late
    · exact List.mem_append_left _ early
    · exact List.mem_append_right _ (List.mem_cons_of_mem g late)
  refine ⟨_, allocUnlink_found found, rfl, rfl, ⟨?_, ?_⟩, ?_, ?_⟩
  · intro pid
    have agree : ∀ h ∈ headersOf (front ++ back) pid,
        update (bypass (nextOf s.memory) (headersOf front g.owner).getLast? g.header) g.header none h =
          nextOf (unlinked s.memory (headersOf front g.owner).getLast? g.header) h := by
      intro h among
      obtain ⟨g', among', _, rfl⟩ := mem_headersOf.mp among
      exact (unlinked_next spread member isHeader' away (rest g' among')).symm
    refine linked_congr agree ?_
    dsimp only
    by_cases mine : pid = g.owner
    · rw [mine, update_self, headersOf_append]
      exact linked_remove list
    · rw [update_of_ne mine]
      have same : headersOf (front ++ g :: back) pid = headersOf (front ++ back) pid :=
        headersOf_skip front back (Ne.symm mine)
      -- the list of another process has neither the block nor the one ahead of it
      have foreign : ∀ g' ∈ front ++ g :: back, g'.owner = g.owner →
          g'.header ∉ headersOf (front ++ back) pid := by
        intro g' among owner other
        obtain ⟨g'', among'', owner'', header⟩ := mem_headersOf.mp other
        by_cases pointers : g''.pointer = g'.pointer
        · have equal := List.inj_on_of_nodup_map spread.once (rest g'' among'') among pointers
          exact mine (by rw [← owner'', equal, owner])
        · have apart := spread.headers_apart (rest g'' among'') among pointers
          unfold hdrBytes at apart
          omega
      rw [← same] at foreign ⊢
      refine linked_bypass_outside (foreign g member rfl) ?_ (chained.lists pid)
      intro ahead last
      obtain ⟨g', among, owner, rfl⟩ := isHeader ahead last
      exact foreign g' among owner
  · intro g' among
    exact unlinked_marked spread member isHeader' (rest g' among) (chained.words g' (rest g' among))
  · exact unlinked_marked spread member isHeader' member (chained.words g member)
  · intro place outside
    refine unlinked_outside member isHeader' fun g' among => ?_
    have header := (spread.header among).1
    have away' := outside g' among
    unfold hdrBytes at header
    omega

end Chained

end Ubiqos.Memory
