import Ubiqos.Memory.Kept

/-!
Every block has one owner, in every order of the calls. The steps of a run keep
the invariant, and where it holds each call answers as it should; the two ways a
size or a pointer can lead it astray stand at the end.
-/

namespace Ubiqos.Memory

open Function Intrusive Machine Words

section Steps
variable {n : Nat} {s : State n} {live : List (Given n)} {pid : Pid n}

theorem Kept.few (kept : Kept s live) (pid : Pid n) : (headersOf live pid).length ≤ turns :=
  linked_length_below (kept.chained.lists pid) turns fun _ among =>
    (kept.spread.headersOf_lt pid among).2

theorem headersOf_none (none : ∀ g ∈ live, g.owner ≠ pid) : headersOf live pid = [] := by
  unfold headersOf
  rw [List.map_eq_nil_iff]
  exact List.filter_eq_nil_iff.mpr fun g member => by simpa using none g member

theorem headersOf_first {h : Nat} {rest : List Nat} (first : headersOf live pid = h :: rest) :
    ∃ front g back, live = front ++ g :: back ∧ g.owner = pid ∧ g.header = h ∧
      headersOf (front ++ back) pid = rest := by
  unfold headersOf at first
  obtain ⟨g, later, mine, header, more⟩ := List.map_eq_cons_iff.mp first
  obtain ⟨front, back, split, before, owner, after⟩ := List.filter_eq_cons_iff.mp mine
  have none : headersOf front pid = [] :=
    headersOf_none fun g' member => by simpa using before g' member
  refine ⟨front, g, back, split, by simpa using owner, header, ?_⟩
  rw [headersOf_append, none, List.nil_append, headersOf, after]
  exact more

theorem giveAllBack_kept {left : Nat} {head : Option Nat} (enough : (headersOf live pid).length ≤ left)
    (kept : Kept { s with allocs := update s.allocs pid head } live) :
    Kept { giveAllBack s left head with allocs := update s.allocs pid none }
        (live.filter fun g => g.owner ≠ pid) ∧
      (giveAllBack s left head).allocs = s.allocs ∧ (giveAllBack s left head).procs = s.procs ∧
      ∀ place, Outside live place → (giveAllBack s left head).memory place = s.memory place := by
  induction left generalizing s live head with
  | zero =>
    have nothing : headersOf live pid = [] := List.length_eq_zero_iff.mp (Nat.le_zero.mp enough)
    have list := kept.chained.lists pid
    dsimp only at list
    rw [update_self, nothing, linked_nil] at list
    have same : live.filter (fun g => g.owner ≠ pid) = live := by
      refine List.filter_eq_self.mpr fun g member => decide_eq_true ?_
      intro mine
      have among : g.header ∈ headersOf live pid := mem_headersOf.mpr ⟨g, member, mine, rfl⟩
      rw [nothing] at among
      exact List.not_mem_nil among
    rw [same, giveAllBack]
    rw [list] at kept
    exact ⟨kept, rfl, rfl, fun _ _ => rfl⟩
  | succ left ih =>
    have list := kept.chained.lists pid
    dsimp only at list
    rw [update_self] at list
    cases mine : headersOf live pid with
    | nil =>
      rw [mine, linked_nil] at list
      subst list
      have shorter : (headersOf live pid).length ≤ left := by
        rw [mine]
        exact Nat.zero_le _
      obtain ⟨kept', allocs, procs⟩ := ih shorter kept
      have stops : giveAllBack s left none = s := by
        cases left <;> rfl
      rw [stops] at kept'
      exact ⟨kept', rfl, rfl, fun _ _ => rfl⟩
    | cons h rest =>
      obtain ⟨front, g, back, rfl, owner, rfl, others⟩ := headersOf_first mine
      rw [mine, linked_cons] at list
      obtain ⟨rfl, list⟩ := list
      have older : ∀ g' ∈ front ++ back, g' ∈ front ++ g :: back := fun g' among =>
        (live_perm front back g).symm.subset (List.mem_cons_of_mem g among)
      -- the rest of the list, with the block already off it
      have chained : Chained s.memory (update s.allocs pid (nextOf s.memory g.header))
          (front ++ back) := by
        refine ⟨?_, fun g' among => kept.chained.words g' (older g' among)⟩
        intro other
        by_cases same : other = pid
        · rw [same, update_self, others]
          exact list
        · have away : g.owner ≠ other := by
            rw [owner]
            exact Ne.symm same
          have foreign := kept.chained.lists other
          dsimp only at foreign
          rw [headersOf_skip front back away, update_of_ne same] at foreign
          rw [update_of_ne same]
          exact foreign
      have returned := giveBack_kept
        (s := { s with allocs := update s.allocs pid (nextOf s.memory g.header) })
        (kept.housed.same_pools rfl) chained (fun g' among => kept.there g' (older g' among))
      have fewer : (headersOf (front ++ back) pid).length ≤ left := by
        rw [mine, List.length_cons] at enough
        rw [others]
        exact Nat.le_of_succ_le_succ enough
      obtain ⟨kept', allocs, procs, bytes⟩ := ih (s := giveBack s g.header) fewer returned
      have filtered : (front ++ g :: back).filter (fun g' => g'.owner ≠ pid) =
          (front ++ back).filter (fun g' => g'.owner ≠ pid) := by
        rw [List.filter_append, List.filter_cons_of_neg (by simp [owner]), ← List.filter_append]
      rw [filtered, giveAllBack]
      refine ⟨kept', allocs, procs, fun place away => ?_⟩
      have header := (kept.spread.header (List.mem_append_right front List.mem_cons_self)).1
      have away' := away g (List.mem_append_right front List.mem_cons_self)
      unfold hdrBytes at header
      exact (bytes place fun g' among => away g' (older g' among)).trans (store_outside (by omega))

theorem reapAllocs_kept (kept : Kept s live) (pid : Pid n) :
    Kept (reapAllocs s pid) (live.filter fun g => g.owner ≠ pid) := by
  have itself : Kept { s with allocs := update s.allocs pid (s.allocs pid) } live := by
    rw [update_eq_self]
    exact kept
  obtain ⟨kept', allocs, procs, _⟩ := giveAllBack_kept (kept.few pid) itself
  unfold reapAllocs
  dsimp only
  rw [allocs]
  refine ⟨kept'.housed.same_pools rfl, kept'.chained, ?_⟩
  intro g member
  have mine : g.owner ≠ pid := by simpa using (List.mem_filter.mp member).2
  have there := kept'.there g member
  dsimp only at there ⊢
  rw [update_of_ne mine]
  exact there

theorem Kept.foreign {w : World n} {pid : Pid n} {pointer : Nat} (none : ¬ w.Owns pid pointer) :
    ∀ g ∈ w.live, ¬ (g.owner = pid ∧ g.pointer = pointer) :=
  fun g member both => none ⟨g, member, both.1, both.2⟩

theorem give_free (live : List (Given n)) (pid : Pid n) (size : U32) : give live pid 0 size = live :=
  if_pos rfl

end Steps

section Runs
variable {n : Nat} {w : World n}

theorem Kept.owned (kept : Kept w.s w.live) : Owned w := by
  refine ⟨?_, kept.housed.once, fun g member => (kept.chained.words g member).owner,
    fun g member => kept.housed.clear member, kept.spread.apart⟩
  intro pid
  refine ⟨headersOf w.live pid, kept.chained.lists pid, ?_⟩
  unfold headersOf
  rw [List.map_map]
  refine List.map_congr_left fun g among => ?_
  exact (kept.spread.header (List.mem_of_mem_filter among)).1

theorem start_kept {memory : Memory} {procs : Pid n → ProcState}
    {places : PoolName → Option (Nat × Nat)} (regions : Regions places) :
    Kept (start memory procs places).s (start memory procs places).live := by
  have made : ∀ pool heap, (start memory procs places).s.pools pool = some heap →
      ∃ place, places pool = some place ∧ Sound heap ∧ place.1 ≤ heap.pool.poolStart ∧
        heap.pool.poolEnd = place.1 + place.2 := by
    intro pool heap here
    obtain ⟨place, at', made⟩ := Option.bind_eq_some_iff.mp here
    obtain ⟨p, created, rfl⟩ := Option.map_eq_some_iff.mp made
    have region := regions.region pool place at'
    obtain ⟨_, _, first, last⟩ := Tlsf.create_whole region created
    have nothing : Along Tlsf.Heap.step Tlsf.Heap.Allowed ⟨p, []⟩ [] := trivial
    have consistent := (Tlsf.run_consistent region created nothing).1
    exact ⟨place, at', ⟨consistent, by simp, by rw [last]; exact region.within⟩, first, last⟩
  refine ⟨⟨fun pool heap here => ?_, ?_, by simp [start], List.nodup_nil⟩, ⟨fun _ => rfl, by simp [start]⟩,
    by simp [start]⟩
  · obtain ⟨_, _, sound, _⟩ := made pool heap here
    exact sound
  · intro mem bulk first second
    obtain ⟨place, at', _, low, high⟩ := made .mem mem first
    obtain ⟨place', at'', _, low', high'⟩ := made .bulk bulk second
    have apart := regions.apart place place' at' at''
    omega

variable [NeZero n]

theorem realloc_kept (kept : Kept w.s w.live) {pid : Pid n} {ptr size : U32}
    (allowed : Allowed w (.realloc pid ptr size)) :
    Kept (w.step (.realloc pid ptr size)).s (w.step (.realloc pid ptr size)).live := by
  obtain ⟨fits, there, claimed⟩ := allowed
  unfold World.step
  dsimp only
  by_cases owned : w.Owns pid ptr.toNat
  · obtain ⟨g, member, rfl, here⟩ := owned
    obtain ⟨front, back, split⟩ := List.append_of_mem member
    rw [split] at kept ⊢
    have dropped : drop (front ++ g :: back) g.owner ptr.toNat = front ++ back := by
      rw [← here]
      exact drop_owned kept.housed.once
    by_cases asked : size = 0
    · obtain ⟨s', freed, kept', _⟩ := memFree_owned kept here
      have header := (headerOf_eq kept (by simp)).mpr here
      have marked := kept.chained.words g (by simp)
      have claims : Claims w.s g.owner (headerOf ptr) := by
        rw [← header]
        exact ⟨marked.magic, marked.owner⟩
      have some : ptr ≠ 0 := by
        rintro rfl
        have low := kept.spread.low g (by simp)
        rw [here] at low
        exact absurd low (by decide)
      have result : memRealloc w.s g.owner ptr size = (s', 0) := by
        unfold memRealloc
        rw [if_neg some, if_neg (not_not.mpr claims), if_pos asked, freed]
      rw [result, if_neg (by simp [asked]), dropped, give_free]
      exact kept'
    · rcases memRealloc_owned kept here fits asked with ⟨null, same⟩ | ⟨some, kept', _⟩
      · rw [null, if_pos ⟨rfl, asked⟩, give_free, same]
        exact kept
      · rw [if_neg (by simp [some]), dropped, give, if_neg some]
        exact kept'
  · have foreign := Kept.foreign owned
    rw [drop_none foreign, ite_self]
    by_cases null : ptr = 0
    · have result : memRealloc w.s pid ptr size = memAlloc w.s pid size := if_pos null
      rw [result]
      exact (allocFrom_handed kept fits there .mem).kept
    · have unclaimed : ¬ Claims w.s pid (headerOf ptr) := fun claims =>
        (claimed claims).elim null owned
      rw [memRealloc_other null unclaimed, give_free]
      exact kept

theorem step_kept (kept : Kept w.s w.live) (input : Input n) (allowed : Allowed w input) :
    Kept (w.step input).s (w.step input).live := by
  -- The calls that name a pointer split on whether the caller owns a block there.
  cases input with
  | alloc pid size => exact (allocFrom_handed kept allowed.1 allowed.2 .mem).kept
  | allocBulk pid size => exact (memAllocBulk_handed kept allowed.1 allowed.2).kept
  | realloc pid ptr size => exact realloc_kept kept allowed
  | reaped pid => exact reapAllocs_kept kept pid
  | kernel pool call =>
    unfold World.step
    dsimp only
    cases here : w.s.pools pool with
    | none =>
      rw [poolCall_none here]
      exact kept
    | some heap =>
      have housed := kept.housed.kernel (fun heap here => (allowed heap here).1)
        (allowed heap here).2
      exact ⟨housed, kept.chained, kept.there⟩
  | write place byte =>
    refine kept.written rfl rfl rfl fun g member other low high => ?_
    refine update_of_ne ?_ _ _
    rintro rfl
    have outside := allowed g member
    omega
  | starts pid =>
    have none : ∀ g ∈ w.live, g.owner ≠ pid := fun g member mine =>
      kept.there g member (by rw [mine]; exact allowed)
    refine ⟨kept.housed.same_pools rfl, ⟨?_, kept.chained.words⟩, ?_⟩
    · intro other
      unfold World.step
      dsimp only
      by_cases same : other = pid
      · rw [same, update_self, headersOf_none none]
        rfl
      · rw [update_of_ne same]
        exact kept.chained.lists other
    · intro g member
      unfold World.step
      dsimp only
      rw [update_of_ne (none g member)]
      exact kept.there g member
  | free pid ptr =>
    unfold World.step
    dsimp only
    by_cases owned : w.Owns pid ptr.toNat
    · obtain ⟨g, member, rfl, here⟩ := owned
      obtain ⟨front, back, split⟩ := List.append_of_mem member
      rw [split] at kept ⊢
      obtain ⟨s', freed, kept', _⟩ := memFree_owned kept here
      rw [freed, ← here, drop_owned kept.housed.once]
      exact kept'
    · have foreign := Kept.foreign owned
      rw [drop_none foreign]
      by_cases null : ptr = 0
      · have result : memFree w.s pid ptr = (w.s, 0) := if_pos null
        rw [result]
        exact kept
      · rw [memFree_other kept null foreign]
        exact kept
  | handOver pid ptr toPid =>
    unfold World.step
    dsimp only
    cases somebody : receiverOf w.s toPid with
    | none =>
      rw [memHandOver_nobody somebody]
      exact kept
    | some receiver =>
      dsimp only
      by_cases owned : w.Owns pid ptr.toNat
      · obtain ⟨g, member, rfl, here⟩ := owned
        obtain ⟨front, back, split⟩ := List.append_of_mem member
        rw [split] at kept ⊢
        obtain ⟨s', moved, kept', _⟩ := memHandOver_owned kept here somebody
        rw [moved, ← here, move_owned kept.housed.once]
        exact kept'
      · have foreign := Kept.foreign owned
        rw [memHandOver_other kept foreign, move_none foreign]
        exact kept

theorem Kept.right (kept : Kept w.s w.live) (input : Input n) (allowed : Allowed w input) :
    Right w input := by
  cases input with
  | alloc pid size => exact (allocFrom_handed kept allowed.1 allowed.2 .mem).refused
  | allocBulk pid size => exact (memAllocBulk_handed kept allowed.1 allowed.2).refused
  | free pid ptr =>
    refine fun some => ⟨?_, fun foreign => memFree_other kept some (Kept.foreign foreign)⟩
    rintro ⟨g, member, rfl, here⟩
    obtain ⟨front, back, split⟩ := List.append_of_mem member
    rw [split] at kept
    obtain ⟨s', freed, _⟩ := memFree_owned kept here
    rw [freed]
  | realloc pid ptr size =>
    intro some
    obtain ⟨fits, _, claimed⟩ := allowed
    refine ⟨?_, ?_, ?_⟩
    · intro foreign
      exact memRealloc_other some fun claims => (claimed claims).elim some foreign
    · rintro rfl
      exact memRealloc_nothing some
    · rintro g member rfl here
      obtain ⟨front, back, split⟩ := List.append_of_mem member
      rw [split] at kept
      by_cases asked : size = 0
      · refine ⟨fun _ nonzero => absurd asked nonzero, fun _ i inside => ?_⟩
        rw [asked] at inside
        exact absurd inside (by simp)
      · rcases memRealloc_owned kept here fits asked with ⟨null, same⟩ | ⟨given, _, bytes, _⟩
        · exact ⟨fun _ _ => same, fun given => absurd null given⟩
        · exact ⟨fun null => absurd null given, fun _ => bytes⟩
  | handOver pid ptr toPid =>
    refine ⟨fun foreign => memHandOver_other kept (Kept.foreign foreign) toPid, ?_⟩
    rintro ⟨g, member, rfl, here⟩ somebody
    obtain ⟨receiver, is⟩ := Option.ne_none_iff_exists'.mp somebody
    obtain ⟨front, back, split⟩ := List.append_of_mem member
    rw [split] at kept
    obtain ⟨s', moved, _⟩ := memHandOver_owned kept here is
    rw [moved]
  | write place byte => trivial
  | kernel pool call => trivial
  | starts pid => trivial
  | reaped pid => trivial

/-- In every run every block is its owner's alone, and every call answers by that. -/
theorem blocks_owned (memory : Memory) (procs : Pid n → ProcState)
    (places : PoolName → Option (Nat × Nat)) (regions : Regions places) (inputs : List (Input n))
    (run : Along World.step Allowed (start memory procs places) inputs) :
    Owned (inputs.foldl World.step (start memory procs places)) ∧
      ∀ input, Allowed (inputs.foldl World.step (start memory procs places)) input →
        Right (inputs.foldl World.step (start memory procs places)) input := by
  have kept := along_invariant (fun w : World n => Kept w.s w.live) run (start_kept regions)
    (fun _ input _ allowed kept => step_kept kept input allowed)
  exact ⟨kept.owned, fun input => kept.right input⟩

end Runs

def bothPools : PoolName → Option (Nat × Nat)
  | .mem => some (4096, 8192)
  | .bulk => some (65536, 8192)

theorem bothPools_regions : Regions bothPools := by
  refine ⟨?_, ?_⟩
  · rintro (_ | _) place is
    · exact Option.some.inj is ▸ by decide
    · exact Option.some.inj is ▸ by decide
  · intro mem bulk first second
    rw [← Option.some.inj first, ← Option.some.inj second]
    decide

def fourRunning : World 4 := start (fun _ => 0) (fun _ => .ready) bothPools

def passedOn : World 4 :=
  [.alloc 1 40, .allocBulk 1 8, .handOver 1 6088 2, .write 6090 7, .realloc 2 6088 100,
    .free 1 6088, .reaped 1].foldl World.step fourRunning

theorem blocks_owned_moved : Owned passedOn ∧ ∀ input, Allowed passedOn input → Right passedOn input := by
  exact blocks_owned _ _ _ bothPools_regions _ (by decide +kernel)

/-- Resizing to nothing answers null and the block is gone; and a size that
wraps is answered with a block that does not hold it. -/
theorem realloc_nothing_frees :
    ¬ (∀ size : U32,
        (memRealloc (fourRunning.step (.alloc 1 40)).s 1 6088 size).2 = 0 →
        (memRealloc (fourRunning.step (.alloc 1 40)).s 1 6088 size).1 =
          (fourRunning.step (.alloc 1 40)).s) ∧
      ¬ Owned (fourRunning.step (.alloc 1 4294967295)) := by
  constructor
  · intro always
    have same := congrArg (fun s => s.allocs 1) (always 0 (by decide +kernel))
    exact absurd same (by decide +kernel)
  · intro owned
    obtain ⟨heap, here, clear⟩ := owned.room ⟨1, 6088, 4294967295⟩ (by decide +kernel)
    have last : ((fourRunning.step (.alloc 1 4294967295)).s.pools
        (poolOf (fourRunning.step (.alloc 1 4294967295)).s 6072)).all
          (fun heap => decide (heap.pool.poolEnd = 12288)) = true := by
      decide +kernel
    have header : (⟨1, 6088, 4294967295⟩ : Given 4).header = 6072 := rfl
    rw [header] at here clear
    rw [here, Option.all_some, decide_eq_true_eq] at last
    have inside := clear.inside.2
    rw [last] at inside
    exact absurd inside (by decide)

end Ubiqos.Memory
