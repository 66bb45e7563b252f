import Ubiqos.Tlsf.FreeLists
import Ubiqos.Lib.Tiled
import Mathlib.Data.List.Chain

/-!
The blocks of a pool lie end to end from its start to its end. `Whole` is the
pool between two calls. In the middle of one a single block is in hand: it is on
no list, and the block behind it may not know of it yet. `Hole` is the pool then,
and each part of a call is a step from one hole to another or back to a whole.
-/

namespace Ubiqos.Tlsf

open Function Intrusive Tiling

def width (p : Pool) (block : Nat) : Nat := headerBytes + payload (p.size block)

def FreeIn (p : Pool) (tiles : List Nat) (block : Nat) : Prop :=
  block ∈ tiles ∧ isFree (p.size block) = true

def UsedIn (p : Pool) (tiles : List Nat) (block : Nat) : Prop :=
  block ∈ tiles ∧ isFree (p.size block) = false

def freeSum (p : Pool) (tiles : List Nat) : Nat :=
  (tiles.map (fun block => if isFree (p.size block) then payload (p.size block) else 0)).sum

def Merged (p : Pool) (tiles : List Nat) : Prop :=
  tiles.IsChain (fun left right => ¬ (isFree (p.size left) = true ∧ isFree (p.size right) = true))

structure Whole (p : Pool) (tiles : List Nat) (lists : Class → List Nat) : Prop where
  tiled : Tiled (width p) p.prevPhys none p.poolStart p.poolEnd tiles
  merged : Merged p tiles
  listed : FreeLists p (FreeIn p tiles) lists
  bytes : p.freeBytes = freeSum p tiles

/-- `before` is what the block behind takes for the one ahead of it. -/
structure Hole (p : Pool) (front : List Nat) (block : Nat) (before : Option Nat)
    (back : List Nat) (lists : Class → List Nat) : Prop where
  left : Tiled (width p) p.prevPhys none p.poolStart block front
  link : p.prevPhys block = front.getLast?
  right : Tiled (width p) p.prevPhys before (block + width p block) p.poolEnd back
  used : isFree (p.size block) = false
  mergedFront : Merged p front
  mergedBack : Merged p back
  listed : FreeLists p (FreeIn p (front ++ back)) lists
  bytes : p.freeBytes = freeSum p (front ++ back)

/-- From one pool to another the same blocks are in use, as large as they were. -/
structure Keeps (p : Pool) (tiles : List Nat) (p' : Pool) (tiles' : List Nat) : Prop where
  start : p'.poolStart = p.poolStart
  stop : p'.poolEnd = p.poolEnd
  used : ∀ block, UsedIn p' tiles' block ↔ UsedIn p tiles block
  size : ∀ block, UsedIn p tiles block → payload (p'.size block) = payload (p.size block)

section Sums
variable {p p' : Pool}

theorem freeSum_append (p : Pool) (front back : List Nat) :
    freeSum p (front ++ back) = freeSum p front + freeSum p back := by
  simp [freeSum]

theorem freeSum_cons (p : Pool) (block : Nat) (rest : List Nat) :
    freeSum p (block :: rest) =
      (if isFree (p.size block) then payload (p.size block) else 0) + freeSum p rest := by
  simp [freeSum]

variable {tiles : List Nat}

theorem freeSum_congr (same : ∀ block ∈ tiles, p'.size block = p.size block) :
    freeSum p' tiles = freeSum p tiles := by
  unfold freeSum
  rw [List.map_congr_left (fun block member => by rw [same block member])]

theorem Merged.congr (merged : Merged p tiles)
    (same : ∀ block ∈ tiles, p'.size block = p.size block) : Merged p' tiles := by
  refine List.IsChain.imp_of_mem_imp ?_ merged
  intro left right inLeft inRight apart
  rw [same left inLeft, same right inRight]
  exact apart

theorem width_pos (p : Pool) (block : Nat) : 0 < width p block := by
  unfold width headerBytes
  omega

theorem FreeIn.congr (same : ∀ block ∈ tiles, p'.size block = p.size block)
    (block : Nat) : FreeIn p' tiles block ↔ FreeIn p tiles block := by
  unfold FreeIn
  refine and_congr_right ?_
  intro member
  rw [same block member]

theorem UsedIn.congr (same : ∀ block ∈ tiles, p'.size block = p.size block)
    (block : Nat) : UsedIn p' tiles block ↔ UsedIn p tiles block := by
  unfold UsedIn
  refine and_congr_right ?_
  intro member
  rw [same block member]

theorem tiled_reshape {before : Option Nat} {start stop : Nat}
    (tiled : Tiled (width p) p.prevPhys before start stop tiles)
    (sizes : ∀ block ∈ tiles, p'.size block = p.size block)
    (prevs : ∀ block ∈ tiles, p'.prevPhys block = p.prevPhys block) :
    Tiled (width p') p'.prevPhys before start stop tiles := by
  refine tiled_congr tiled ?_
  intro block member
  exact ⟨by rw [width, width, sizes block member], prevs block member⟩

end Sums

section Holes
variable {p : Pool} {front back : List Nat} {block : Nat} {before : Option Nat}
  {lists : Class → List Nat}

theorem Hole.below (hole : Hole p front block before back lists) :
    ∀ other ∈ front, p.poolStart ≤ other ∧ other + width p other ≤ block :=
  tiled_bounds hole.left

theorem Hole.above (hole : Hole p front block before back lists) :
    ∀ other ∈ back, block + width p block ≤ other ∧ other + width p other ≤ p.poolEnd :=
  tiled_bounds hole.right

theorem Hole.outside (hole : Hole p front block before back lists) : block ∉ front ++ back := by
  intro member
  have positive := width_pos p block
  rcases List.mem_append.mp member with inFront | inBack
  · have below := hole.below block inFront
    omega
  · have above := hole.above block inBack
    omega

theorem Hole.apart (hole : Hole p front block before back lists) {other : Nat}
    (inBack : other ∈ back) : other ∉ front := by
  intro inFront
  have below := hole.below other inFront
  have above := hole.above other inBack
  have positive := width_pos p other
  omega

theorem Hole.next (hole : Hole p front block before back lists) :
    nextPhys p block = back.head? := by
  have stop : block + headerBytes + payload (p.size block) = block + width p block := by
    unfold width
    omega
  simp only [nextPhys, stop]
  have right := hole.right
  cases back with
  | nil =>
    have ends : block + width p block = p.poolEnd := right
    simp [ends]
  | cons behind rest =>
    obtain ⟨here, _, _⟩ := right
    have inside := (hole.above behind List.mem_cons_self).2
    have positive := width_pos p behind
    rw [if_neg (by omega), List.head?_cons, here]

theorem freeIn_beside (used : isFree (p.size block) = false) (other : Nat) :
    FreeIn p (front ++ block :: back) other ↔ FreeIn p (front ++ back) other := by
  by_cases same : other = block
  · subst same
    simp [FreeIn, used]
  · simp [FreeIn, same]

theorem usedIn_beside (free : isFree (p.size block) = true) (other : Nat) :
    UsedIn p (front ++ block :: back) other ↔ UsedIn p (front ++ back) other := by
  by_cases same : other = block
  · subst same
    simp [UsedIn, free]
  · simp [UsedIn, same]

theorem usedIn_joined (used : isFree (p.size block) = false) (other : Nat) :
    UsedIn p (front ++ block :: back) other ↔ UsedIn p (front ++ back) other ∨ other = block := by
  by_cases same : other = block
  · subst same
    simp [UsedIn, used]
  · simp [UsedIn, same]

theorem Whole.take (whole : Whole p (front ++ block :: back) lists)
    (used : isFree (p.size block) = false) : Hole p front block (some block) back lists := by
  obtain ⟨middle, left, here, link, right⟩ := tiled_append.mp whole.tiled
  subst here
  obtain ⟨mergedFront, mergedRest, _⟩ := List.isChain_append.mp whole.merged
  refine ⟨left, by simpa using link, right, used, mergedFront, (List.isChain_cons.mp mergedRest).2,
    ?_, ?_⟩
  · exact whole.listed.congr (fun other => (freeIn_beside used other).symm)
  · rw [whole.bytes, freeSum_append, freeSum_cons, freeSum_append, used]
    simp

theorem Hole.close (hole : Hole p front block (some block) back lists) :
    Whole p (front ++ block :: back) lists := by
  refine ⟨?_, ?_, hole.listed.congr (freeIn_beside hole.used), ?_⟩
  · exact tiled_append.mpr ⟨block, hole.left, rfl, by simpa using hole.link, hole.right⟩
  · refine List.isChain_append.mpr ⟨hole.mergedFront, List.isChain_cons.mpr ⟨?_, hole.mergedBack⟩, ?_⟩
    · simp [hole.used]
    · simp [hole.used]
  · rw [hole.bytes, freeSum_append, freeSum_append, freeSum_cons, hole.used]
    simp

end Holes

theorem payload_of_used {word : Nat} (used : isFree word = false) : payload word = word := by
  simp only [isFree, decide_eq_false_iff_not] at used
  unfold payload
  omega

theorem payload_even (word : Nat) : payload word % 2 = 0 := by
  unfold payload
  omega

theorem used_of_even {word : Nat} (even : word % 2 = 0) : isFree word = false := by
  simp [isFree, even]

theorem Keeps.refl (p : Pool) (tiles : List Nat) : Keeps p tiles p tiles :=
  ⟨rfl, rfl, fun _ => Iff.rfl, fun _ _ => rfl⟩

theorem Keeps.trans {p q r : Pool} {tiles tiles' tiles'' : List Nat} (first : Keeps p tiles q tiles')
    (second : Keeps q tiles' r tiles'') : Keeps p tiles r tiles'' :=
  ⟨second.start.trans first.start, second.stop.trans first.stop,
    fun block => (second.used block).trans (first.used block),
    fun block used => (second.size block ((first.used block).mpr used)).trans (first.size block used)⟩

theorem eaten {p : Pool} {lists : Class → List Nat} {front back : List Nat} {victim : Nat}
    (listed : FreeLists p (FreeIn p (front ++ victim :: back)) lists)
    (bytes : p.freeBytes = freeSum p (front ++ victim :: back))
    (free : isFree (p.size victim) = true) (absent : victim ∉ front ++ back) {size : Nat → Nat}
    (same : ∀ block ∈ front ++ back, size block = p.size block) :
    FreeLists ((remove p victim).reshaped size p.prevPhys)
        (FreeIn ((remove p victim).reshaped size p.prevPhys) (front ++ back))
        (update lists (classOf p victim) ((lists (classOf p victim)).erase victim)) ∧
      (remove p victim).freeBytes =
        freeSum ((remove p victim).reshaped size p.prevPhys) (front ++ back) ∧
      Keeps p (front ++ victim :: back) ((remove p victim).reshaped size p.prevPhys)
        (front ++ back) := by
  obtain ⟨_, start, stop, _, sizes, total⟩ := remove_frame p victim
  have members : ∀ block, block ∈ front ++ back ↔
      block ∈ front ++ victim :: back ∧ block ≠ victim := by
    intro block
    by_cases isVictim : block = victim
    · simp only [isVictim, absent, ne_eq, not_true_eq_false, and_false]
    · simp [isVictim]
  have kept : ∀ block, UsedIn p (front ++ victim :: back) block → block ∈ front ++ back := by
    rintro block ⟨member, used⟩
    refine (members block).mpr ⟨member, ?_⟩
    rintro rfl
    rw [free] at used
    exact absurd used (by simp)
  refine ⟨?_, ?_, start, stop, ?_, ?_⟩
  · have removed := remove_freeLists listed ⟨by simp, free⟩
    refine FreeLists.congr (removed.reshape ?_) ?_
    · rintro block ⟨⟨member, _⟩, away⟩
      rw [same block ((members block).mpr ⟨member, away⟩), sizes, update_of_ne away]
    · intro block
      rw [FreeIn.congr (p := p) same block]
      simp only [FreeIn, members]
      tauto
  · rw [freeSum_congr (p := p) same, total, bytes, freeSum_append, freeSum_cons, freeSum_append,
      if_pos free]
    omega
  · intro block
    rw [UsedIn.congr (p := p) same block]
    exact ⟨fun used => ⟨((members block).mp used.1).1, used.2⟩, fun used => ⟨kept block used, used.2⟩⟩
  · intro block used
    rw [reshaped_size, same block (kept block used)]

section Steps
variable {p : Pool} {front back : List Nat} {block : Nat} {before : Option Nat}
  {lists : Class → List Nat}

def Unfree (p : Pool) (neighbour : Option Nat) : Prop :=
  ∀ other, neighbour = some other → isFree (p.size other) = false

theorem absorbNext_hole (hole : Hole p front block before back lists) :
    ∃ before' back' lists', Hole (absorbNext p block) front block before' back' lists' ∧
      Unfree (absorbNext p block) back'.head? ∧
      Keeps p (front ++ back) (absorbNext p block) (front ++ back') := by
  have next := hole.next
  cases back with
  | nil =>
    have same : absorbNext p block = p := by simp [absorbNext, next]
    rw [same]
    exact ⟨before, [], lists, hole, by simp [Unfree], .refl _ _⟩
  | cons victim rest =>
    rw [List.head?_cons] at next
    by_cases free : isFree (p.size victim) = true
    · obtain ⟨_, start, stop, prevs, sizes, _⟩ := remove_frame p victim
      have outside := hole.outside
      have away : block ≠ victim := by
        rintro rfl
        exact outside (by simp)
      generalize sizeIs : update (update p.size victim (payload (p.size victim))) block
        (payload (p.size block) + headerBytes + payload (p.size victim)) = size
      have eats : absorbNext p block = (remove p victim).reshaped size p.prevPhys := by
        simp [absorbNext, next, free, sizes, away, ← sizeIs, ← prevs, Pool.reshaped]
      have notFront : victim ∉ front := hole.apart List.mem_cons_self
      have notRest : victim ∉ rest := by
        have nodup := tiled_nodup hole.right (fun other _ => width_pos p other)
        exact (List.nodup_cons.mp nodup).1
      have same : ∀ other ∈ front ++ rest, size other = p.size other := by
        intro other member
        have notVictim : other ≠ victim := by
          rintro rfl
          rcases List.mem_append.mp member with inFront | inRest
          · exact notFront inFront
          · exact notRest inRest
        have notBlock : other ≠ block := by
          rintro rfl
          refine outside ?_
          simp only [List.mem_append, List.mem_cons] at member ⊢
          tauto
        simp [← sizeIs, notBlock, notVictim]
      obtain ⟨listed, bytes, keeps⟩ := eaten hole.listed hole.bytes free
        (by simp [notFront, notRest]) same
      refine ⟨some victim, rest,
        update lists (classOf p victim) ((lists (classOf p victim)).erase victim), ?_, ?_, ?_⟩
      · rw [eats]
        have inFront : ∀ other ∈ front, size other = p.size other :=
          fun other member => same other (List.mem_append_left rest member)
        have inRest : ∀ other ∈ rest, size other = p.size other :=
          fun other member => same other (List.mem_append_right front member)
        have grown : size block =
            payload (p.size block) + headerBytes + payload (p.size victim) := by
          simp [← sizeIs]
        have even : size block % 2 = 0 := by
          have first := payload_even (p.size block)
          have second := payload_even (p.size victim)
          rw [grown]
          unfold headerBytes
          omega
        obtain ⟨here, _, right⟩ := hole.right
        have behind : block + width p block + width p victim =
            block + width ((remove p victim).reshaped size p.prevPhys) block := by
          simp only [width, reshaped_size]
          rw [payload_of_used (used_of_even even), grown]
          omega
        rw [behind] at right
        refine ⟨?_, hole.link, ?_, used_of_even even, hole.mergedFront.congr inFront, ?_, listed,
          bytes⟩
        · rw [reshaped_poolStart, start]
          exact tiled_reshape hole.left inFront (fun _ _ => rfl)
        · rw [reshaped_poolEnd, stop]
          exact tiled_reshape right inRest (fun _ _ => rfl)
        · exact Merged.congr (List.isChain_cons.mp hole.mergedBack).2 inRest
      · intro other isOther
        rw [eats, reshaped_size, same other (List.mem_append_right front
          (List.mem_of_head? isOther))]
        have apart := (List.isChain_cons.mp hole.mergedBack).1 other isOther
        simpa [free] using apart
      · rw [eats]
        exact keeps
    · have same : absorbNext p block = p := by simp [absorbNext, next, free]
      rw [same]
      refine ⟨before, victim :: rest, lists, hole, ?_, .refl _ _⟩
      intro other isOther
      rw [← Option.some.inj isOther]
      simpa using free

theorem absorbPrev_hole (hole : Hole p front block before back lists)
    (behind : Unfree p back.head?) :
    ∃ front' before' lists', Hole (absorbPrev p block).1 front' (absorbPrev p block).2 before' back
        lists' ∧
      Unfree (absorbPrev p block).1 front'.getLast? ∧
      Unfree (absorbPrev p block).1 back.head? ∧
      Keeps p (front ++ back) (absorbPrev p block).1 (front' ++ back) := by
  have link := hole.link
  cases front using List.reverseRecOn with
  | nil =>
    have same : absorbPrev p block = (p, block) := by
      rw [List.getLast?_nil] at link
      simp [absorbPrev, link]
    rw [same]
    exact ⟨[], before, lists, hole, by simp [Unfree], behind, .refl _ _⟩
  | append_singleton rest victim =>
    rw [List.getLast?_concat] at link
    by_cases free : isFree (p.size victim) = true
    · obtain ⟨_, start, stop, prevs, sizes, _⟩ := remove_frame p victim
      -- The free neighbour leaves its list and grows over `block`; the hole is now at it.
      have outside := hole.outside
      have away : block ≠ victim := by
        rintro rfl
        exact outside (by simp)
      generalize sizeIs : update p.size victim
        (payload (p.size victim) + headerBytes + payload (p.size block)) = size
      have eats : absorbPrev p block = ((remove p victim).reshaped size p.prevPhys, victim) := by
        simp [absorbPrev, link, free, sizes, away, ← sizeIs, ← prevs, Pool.reshaped]
      have nodup := tiled_nodup hole.left (fun other _ => width_pos p other)
      have notRest : victim ∉ rest := by
        intro member
        exact (List.nodup_append.mp nodup).2.2 victim member victim (by simp) rfl
      have notBack : victim ∉ back := fun member => hole.apart member (by simp)
      have same : ∀ other ∈ rest ++ back, size other = p.size other := by
        intro other member
        have notVictim : other ≠ victim := by
          rintro rfl
          rcases List.mem_append.mp member with inRest | inBack
          · exact notRest inRest
          · exact notBack inBack
        simp [← sizeIs, notVictim]
      have listed := hole.listed
      have bytes := hole.bytes
      rw [List.append_assoc, List.singleton_append] at listed bytes ⊢
      obtain ⟨listed, bytes, keeps⟩ := eaten listed bytes free (by simp [notRest, notBack]) same
      rw [eats]
      have inRest : ∀ other ∈ rest, size other = p.size other :=
        fun other member => same other (List.mem_append_left back member)
      have inBack : ∀ other ∈ back, size other = p.size other :=
        fun other member => same other (List.mem_append_right rest member)
      obtain ⟨middle, left, here, back', ends⟩ := tiled_append.mp hole.left
      obtain ⟨mergedRest, _, unmerged⟩ := List.isChain_append.mp hole.mergedFront
      refine ⟨rest, before, update lists (classOf p victim) ((lists (classOf p victim)).erase victim),
        ?_, ?_, ?_, keeps⟩
      · have grown : size victim =
            payload (p.size victim) + headerBytes + payload (p.size block) := by
          simp [← sizeIs]
        -- The written word has no free bit, which is what makes the grown block a hole.
        have even : size victim % 2 = 0 := by
          have first := payload_even (p.size victim)
          have second := payload_even (p.size block)
          rw [grown]
          unfold headerBytes
          omega
        have ends : middle + width p victim = block := ends
        have behind : block + width p block =
            victim + width ((remove p victim).reshaped size p.prevPhys) victim := by
          simp only [width, reshaped_size] at ends ⊢
          rw [payload_of_used (used_of_even even), grown]
          omega
        have right := hole.right
        rw [behind] at right
        rw [← here] at left
        refine ⟨?_, by simpa using back', ?_, used_of_even even, Merged.congr mergedRest inRest,
          hole.mergedBack.congr inBack, listed, bytes⟩
        · rw [reshaped_poolStart, start]
          exact tiled_reshape left inRest (fun _ _ => rfl)
        · rw [reshaped_poolEnd, stop]
          exact tiled_reshape right inBack (fun _ _ => rfl)
      · intro other isOther
        rw [reshaped_size, inRest other (List.mem_of_getLast? isOther)]
        have apart := unmerged other isOther victim (by simp)
        simpa [free] using apart
      · intro other isOther
        rw [reshaped_size, inBack other (List.mem_of_head? isOther)]
        exact behind other isOther
    · have same : absorbPrev p block = (p, block) := by simp [absorbPrev, link, free]
      rw [same]
      refine ⟨rest ++ [victim], before, lists, hole, ?_, behind, .refl _ _⟩
      intro other isOther
      rw [List.getLast?_concat] at isOther
      rw [← Option.some.inj isOther]
      simpa using free

theorem linkAfter_hole (hole : Hole p front block before back lists) :
    Hole (linkAfter p block) front block (some block) back lists ∧
      (linkAfter p block).size = p.size ∧ (linkAfter p block).poolStart = p.poolStart ∧
      (linkAfter p block).poolEnd = p.poolEnd := by
  have next := hole.next
  cases back with
  | nil =>
    have same : linkAfter p block = p := by simp [linkAfter, next]
    rw [same]
    exact ⟨{ hole with right := hole.right }, rfl, rfl, rfl⟩
  | cons after rest =>
    rw [List.head?_cons] at next
    have told : linkAfter p block =
        p.reshaped p.size (update p.prevPhys after (some block)) := by
      simp [linkAfter, next, Pool.reshaped]
    rw [told]
    refine ⟨?_, rfl, rfl, rfl⟩
    have notFront : after ∉ front := hole.apart List.mem_cons_self
    have notBlock : block ≠ after := by
      rintro rfl
      exact hole.outside (by simp)
    have nodup := tiled_nodup hole.right (fun other _ => width_pos p other)
    have notRest : after ∉ rest := (List.nodup_cons.mp nodup).1
    refine ⟨?_, ?_, ?_, hole.used, hole.mergedFront, hole.mergedBack,
      hole.listed.reshape (fun _ _ => rfl), hole.bytes⟩
    · refine tiled_reshape hole.left (fun _ _ => rfl) ?_
      intro other member
      exact update_of_ne (ne_of_mem_of_not_mem member notFront) _ _
    · rw [reshaped_prevPhys, update_of_ne notBlock]
      exact hole.link
    · refine tiled_rehead hole.right ?_ ?_
      · intro other isOther
        rw [← Option.some.inj isOther]
        simp
      · intro other member
        exact update_of_ne (ne_of_mem_of_not_mem member notRest) _ _

theorem insert_hole (hole : Hole p front block (some block) back lists)
    (ahead : Unfree p front.getLast?) (behind : Unfree p back.head?) :
    Whole (insert p block) (front ++ block :: back)
        (update lists (classOf p block) (block :: lists (classOf p block))) ∧
      Keeps p (front ++ back) (insert p block) (front ++ block :: back) := by
  obtain ⟨_, start, stop, prevs, sizes, total⟩ := insert_frame p block
  have outside := hole.outside
  have same : ∀ other ∈ front ++ back, (insert p block).size other = p.size other := by
    intro other member
    rw [sizes, update_of_ne (ne_of_mem_of_not_mem member outside)]
  have inFront : ∀ other ∈ front, (insert p block).size other = p.size other :=
    fun other member => same other (List.mem_append_left back member)
  have inBack : ∀ other ∈ back, (insert p block).size other = p.size other :=
    fun other member => same other (List.mem_append_right front member)
  have here : (insert p block).size block = payload (p.size block) + 1 := by
    rw [sizes, update_self]
  have sameWidth : width (insert p block) block = width p block := by
    rw [width, width, here, payload_marked]
  refine ⟨⟨?_, ?_, ?_, ?_⟩, start, stop, ?_, ?_⟩
  · rw [start, stop]
    refine tiled_append.mpr ⟨block, ?_, rfl, ?_, ?_⟩
    · exact tiled_reshape hole.left inFront (fun _ _ => rfl)
    · rw [Option.or_none, prevs]
      exact hole.link
    · rw [sameWidth]
      exact tiled_reshape hole.right inBack (fun _ _ => rfl)
  · refine List.isChain_append.mpr ⟨hole.mergedFront.congr inFront,
      List.isChain_cons.mpr ⟨?_, hole.mergedBack.congr inBack⟩, ?_⟩
    · rintro other isOther ⟨_, free⟩
      rw [inBack other (List.mem_of_head? isOther), behind other isOther] at free
      exact absurd free (by simp)
    · rintro other isOther next isNext ⟨free, _⟩
      rw [inFront other (List.mem_of_getLast? isOther), ahead other isOther] at free
      exact absurd free (by simp)
  · refine (insert_freeLists hole.listed (fun free => outside free.1)).congr ?_
    intro other
    by_cases isBlock : other = block
    · subst isBlock
      simp [FreeIn, here]
    · rw [or_iff_left isBlock, ← FreeIn.congr same]
      simp [FreeIn, isBlock]
  · rw [total, hole.bytes, freeSum_append, freeSum_append, freeSum_cons, freeSum_congr inFront,
      freeSum_congr inBack, here, payload_marked, isFree_marked, if_pos rfl]
    omega
  · intro other
    rw [← UsedIn.congr same]
    exact usedIn_beside (by rw [here, isFree_marked]) other
  · intro other used
    rw [same other used.1]

theorem settle (hole : Hole p front block before back lists)
    (ahead : Unfree p front.getLast?) (behind : Unfree p back.head?) :
    ∃ lists', Whole (insert (linkAfter p block) block) (front ++ block :: back) lists' ∧
      Keeps p (front ++ back) (insert (linkAfter p block) block) (front ++ block :: back) := by
  obtain ⟨linked, sizes, start, stop⟩ := linkAfter_hole hole
  have told : Keeps p (front ++ back) (linkAfter p block) (front ++ back) :=
    ⟨start, stop, fun other => by rw [UsedIn, UsedIn, sizes], fun other _ => by rw [sizes]⟩
  obtain ⟨whole, keeps⟩ := insert_hole linked (fun other isOther => by rw [sizes, ahead other isOther])
    (fun other isOther => by rw [sizes, behind other isOther])
  exact ⟨_, whole, told.trans keeps⟩

end Steps

end Ubiqos.Tlsf
