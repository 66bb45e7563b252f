import Ubiqos.Tlsf.Pool
import Ubiqos.Lib.Linked

/-!
The free lists, whatever blocks they hold. `FreeLists p free lists` says that the
list of every class is threaded both ways through the headers, holds exactly
the blocks of that class among those that are `free`, and has its bits set when
it holds any. Where a block lies does not matter here.
-/

namespace Ubiqos.Tlsf

open Function Intrusive

abbrev Class := Nat × Nat

def Pool.reshaped (p : Pool) (size : Nat → Nat) (prevPhys : Nat → Option Nat) : Pool :=
  { p with size := size, prevPhys := prevPhys }

section Reshaped
variable (p : Pool) (size : Nat → Nat) (prevPhys : Nat → Option Nat)

@[simp] theorem reshaped_size : (p.reshaped size prevPhys).size = size := rfl

@[simp] theorem reshaped_prevPhys : (p.reshaped size prevPhys).prevPhys = prevPhys := rfl

@[simp] theorem reshaped_flCount : (p.reshaped size prevPhys).flCount = p.flCount := rfl

@[simp] theorem reshaped_poolStart : (p.reshaped size prevPhys).poolStart = p.poolStart := rfl

@[simp] theorem reshaped_poolEnd : (p.reshaped size prevPhys).poolEnd = p.poolEnd := rfl

@[simp] theorem reshaped_freeBytes : (p.reshaped size prevPhys).freeBytes = p.freeBytes := rfl

end Reshaped

structure FreeLists (p : Pool) (free : Nat → Prop) (lists : Class → List Nat) : Prop where
  rows : 0 < p.flCount ∧ p.flCount ≤ 32
  listed : ∀ c : Class, Doubly p.nextFree p.prevFree none none (p.blocks c.1 c.2) (lists c)
  member : ∀ c block, block ∈ lists c ↔ free block ∧ classOf p block = c
  second : ∀ f s, s < 32 → ((p.slBitmap f).getLsbD s = true ↔ lists (f, s) ≠ [])
  first : ∀ f, f < 32 → (p.flBitmap.getLsbD f = true ↔ p.slBitmap f ≠ 0)

@[simp] theorem payload_payload (word : Nat) : payload (payload word) = payload word := by
  unfold payload
  omega

@[simp] theorem payload_marked (word : Nat) : payload (payload word + 1) = payload word := by
  unfold payload
  omega

@[simp] theorem isFree_payload (word : Nat) : isFree (payload word) = false := by
  simp [isFree, payload]

@[simp] theorem isFree_marked (word : Nat) : isFree (payload word + 1) = true := by
  simp [isFree, payload]

theorem mapping_bounds {flCount : Nat} (positive : 0 < flCount) (size : Nat) :
    (mapping flCount size).1 < flCount ∧ (mapping flCount size).2 < 32 := by
  constructor
  · simp only [mapping]
    split <;> split <;> omega
  · simp only [mapping, slIndexCount]
    split <;> exact Nat.mod_lt _ (by decide)

section Lists
variable {p : Pool} {free : Nat → Prop} {lists : Class → List Nat} {block : Nat}

theorem FreeLists.bounds (inv : FreeLists p free lists) (block : Nat) :
    (classOf p block).1 < 32 ∧ (classOf p block).2 < 32 := by
  have inside := mapping_bounds inv.rows.1 (payload (p.size block))
  have small := inv.rows.2
  exact ⟨by unfold classOf; omega, inside.2⟩

theorem FreeLists.reshape (inv : FreeLists p free lists) {size : Nat → Nat}
    {prevPhys : Nat → Option Nat}
    (same : ∀ block, free block → payload (size block) = payload (p.size block)) :
    FreeLists (p.reshaped size prevPhys) free lists := by
  refine ⟨inv.rows, inv.listed, ?_, inv.second, inv.first⟩
  intro c block
  rw [inv.member]
  refine and_congr_right ?_
  intro isFree
  simp only [classOf, reshaped_flCount, reshaped_size, same block isFree]

theorem FreeLists.congr (inv : FreeLists p free lists) {free' : Nat → Prop}
    (same : ∀ block, free' block ↔ free block) : FreeLists p free' lists :=
  ⟨inv.rows, inv.listed, fun c block => by rw [inv.member, same], inv.second, inv.first⟩

theorem FreeLists.rowBit (inv : FreeLists p free lists) {f : Nat} (small : f < 32) :
    p.flBitmap.getLsbD f = true ↔ ∃ s < 32, lists (f, s) ≠ [] := by
  have zero : p.slBitmap f = 0 ↔ ∀ s < 32, (p.slBitmap f).getLsbD s = false :=
    Bitmap.eq_zero_iff _
  rw [inv.first f small, ne_eq, zero]
  push Not
  refine exists_congr fun s => and_congr_right fun inside => ?_
  rw [← inv.second f s inside]
  simp

theorem FreeLists.nodup (inv : FreeLists p free lists) (c : Class) : (lists c).Nodup :=
  linked_nodup (doubly_linked (inv.listed c))

theorem FreeLists.apart (inv : FreeLists p free lists) {c other : Class} (different : other ≠ c)
    {block : Nat} (member : block ∈ lists c) : block ∉ lists other := by
  intro again
  have here := ((inv.member c block).mp member).2
  have there := ((inv.member other block).mp again).2
  exact different (there.symm.trans here)

theorem blocks_setHead (p : Pool) (c other : Class) (head : Option Nat) :
    (setHead p c head).blocks other.1 other.2 =
      if other = c then head else p.blocks other.1 other.2 := by
  obtain ⟨f, s⟩ := c
  obtain ⟨f', s'⟩ := other
  by_cases row : f' = f
  · subst row
    by_cases column : s' = s
    · simp [setHead, column]
    · simp [setHead, column]
  · simp [setHead, row]

theorem insert_frame (p : Pool) (block : Nat) :
    (insert p block).flCount = p.flCount ∧ (insert p block).poolStart = p.poolStart ∧
      (insert p block).poolEnd = p.poolEnd ∧ (insert p block).prevPhys = p.prevPhys ∧
      (insert p block).size = update p.size block (payload (p.size block) + 1) ∧
      (insert p block).freeBytes = p.freeBytes + payload (p.size block) :=
  ⟨rfl, rfl, rfl, rfl, rfl, rfl⟩

theorem insert_classOf (p : Pool) (block other : Nat) :
    classOf (insert p block) other = classOf p other := by
  by_cases same : other = block
  · simp [classOf, insert, setHead, same]
  · simp [classOf, insert, setHead, same]

theorem bits_set {word : Bitmap.Word} {bit : Nat} (small : bit < 32) {lists : Nat → List Nat}
    (other : Nat → List Nat) (before : ∀ s, s < 32 → (word.getLsbD s = true ↔ lists s ≠ []))
    (here : other bit ≠ []) (others : ∀ s, s ≠ bit → other s = lists s) :
    (∀ s, s < 32 → ((Bitmap.set word bit).getLsbD s = true ↔ other s ≠ [])) ∧
      Bitmap.set word bit ≠ 0 := by
  have bits : ∀ s, s < 32 → ((Bitmap.set word bit).getLsbD s = true ↔ other s ≠ []) := by
    intro s inside
    rw [Bitmap.getLsbD_set _ _ _ inside]
    by_cases same : s = bit
    · simp [same, here]
    · simpa [Ne.symm same, others s same] using before s inside
  refine ⟨bits, ?_⟩
  intro zero
  have isSet := (bits bit small).mpr here
  rw [zero] at isSet
  simp at isSet

theorem insert_freeLists (inv : FreeLists p free lists) (fresh : ¬ free block) :
    FreeLists (insert p block) (fun other => free other ∨ other = block)
      (update lists (classOf p block) (block :: lists (classOf p block))) := by
  obtain ⟨fSmall, sSmall⟩ := inv.bounds block
  generalize classIs : classOf p block = c at fSmall sSmall
  have absent : ∀ other, block ∉ lists other := by
    intro other member
    exact fresh ((inv.member other block).mp member).1
  have heads := inv.listed c
  have first := doubly_head heads
  rw [Option.or_none] at first
  have blocks : ∀ other : Class, (insert p block).blocks other.1 other.2 =
      if other = c then some block else p.blocks other.1 other.2 := by
    intro other
    simp only [insert, classIs]
    exact blocks_setHead _ c other (some block)
  have next : (insert p block).nextFree = update p.nextFree block (p.blocks c.1 c.2) := by
    simp [insert, setHead, classIs]
  have prev : (insert p block).prevFree = (p.blocks c.1 c.2).elim (update p.prevFree block none)
      fun other => update (update p.prevFree block none) other (some block) := by
    cases atHead : p.blocks c.1 c.2 <;> simp [insert, setHead, classIs, atHead]
  -- Only `block` and the old head of its list get another `prevFree`.
  have prevOthers : ∀ other, other ≠ block → p.blocks c.1 c.2 ≠ some other →
      (insert p block).prevFree other = p.prevFree other := by
    intro other away notFirst
    rw [prev]
    cases atHead : p.blocks c.1 c.2 with
    | none => exact update_of_ne away _ _
    | some head =>
      have different : other ≠ head := fun same => notFirst (by rw [atHead, same])
      simp [different, away]
  have set := bits_set sSmall (fun s => update lists c (block :: lists c) (c.1, s))
    (inv.second c.1) (by simp) (fun s away => update_of_ne (by simp [Prod.ext_iff, away]) _ _)
  refine ⟨inv.rows, ?_, ?_, ?_, ?_⟩
  · intro other
    rw [blocks]
    by_cases same : other = c
    · subst same
      rw [if_pos rfl, update_self, next]
      refine doubly_push heads (absent other) ?_ ?_ ?_
      · intro head atHead
        rw [prev, atHead]
        simp
      · rw [prev]
        cases atHead : p.blocks other.1 other.2 with
        | none => simp
        | some head =>
          have inList : head ∈ lists other := by
            rw [atHead] at first
            exact List.mem_of_head? first.symm
          have different : block ≠ head := fun same => absent other (same ▸ inList)
          simp [different]
      · intro later member notFirst
        have away : later ≠ block := fun same => absent other (same ▸ member)
        exact prevOthers later away notFirst
    · rw [if_neg same, update_of_ne same]
      refine doubly_congr (inv.listed other) ?_
      intro node member
      have away : node ≠ block := fun isBlock => absent other (isBlock ▸ member)
      refine ⟨by rw [next, update_of_ne away], prevOthers node away ?_⟩
      intro atHead
      rw [atHead] at first
      exact inv.apart same (List.mem_of_head? first.symm) member
  · intro other node
    rw [insert_classOf]
    by_cases same : other = c
    · rw [same, update_self, List.mem_cons, inv.member]
      by_cases isBlock : node = block
      · simp [isBlock, classIs]
      · simp [isBlock]
    · rw [update_of_ne same, inv.member]
      by_cases isBlock : node = block
      · subst isBlock
        simp [fresh, classIs, Ne.symm same]
      · simp [isBlock]
  · intro f s small
    simp only [insert, setHead, classIs]
    by_cases row : f = c.1
    · subst row
      simpa using set.1 s small
    · rw [update_of_ne row, update_of_ne (by simp [Prod.ext_iff, row])]
      exact inv.second f s small
  · intro f small
    simp only [insert, setHead, classIs]
    rw [Bitmap.getLsbD_set _ _ _ small]
    by_cases row : f = c.1
    · subst row
      simpa using set.2
    · simpa [row, Ne.symm row] using inv.first f small

theorem remove_frame (p : Pool) (block : Nat) :
    (remove p block).flCount = p.flCount ∧ (remove p block).poolStart = p.poolStart ∧
      (remove p block).poolEnd = p.poolEnd ∧ (remove p block).prevPhys = p.prevPhys ∧
      (remove p block).size = update p.size block (payload (p.size block)) ∧
      (remove p block).freeBytes = p.freeBytes - payload (p.size block) := by
  cases prev : p.prevFree block with
  | some ahead =>
    by_cases same : block = ahead
    · subst same
      cases next : p.nextFree block <;> simp [remove, prev, next]
    · cases next : p.nextFree block <;> simp [remove, prev, next, same]
  | none =>
    by_cases atHead : p.blocks (classOf p block).1 (classOf p block).2 = some block
    · cases next : p.nextFree block <;> simp [remove, prev, next, atHead, dropHead, setHead]
    · cases next : p.nextFree block <;> simp [remove, prev, next, atHead]

theorem remove_classOf (p : Pool) (block other : Nat) :
    classOf (remove p block) other = classOf p other := by
  obtain ⟨count, _, _, _, size, _⟩ := remove_frame p block
  by_cases same : other = block
  · simp [classOf, count, size, same]
  · simp [classOf, count, size, same]

theorem remove_links {ahead behind : Option Nat} (prev : p.prevFree block = ahead)
    (next : p.nextFree block = behind) (other : ahead ≠ some block)
    (head : ahead = none → p.blocks (classOf p block).1 (classOf p block).2 = some block) :
    (remove p block).nextFree = bypass p.nextFree (p.prevFree block) block ∧
      (remove p block).prevFree = bypass p.prevFree (p.nextFree block) block ∧
      (∀ c : Class, (remove p block).blocks c.1 c.2 =
        if ahead = none ∧ c = classOf p block then behind else p.blocks c.1 c.2) ∧
      (remove p block).slBitmap = (if ahead = none ∧ behind = none then
        update p.slBitmap (classOf p block).1
          (Bitmap.clear (p.slBitmap (classOf p block).1) (classOf p block).2) else p.slBitmap) ∧
      (remove p block).flBitmap = (if ahead = none ∧ behind = none ∧
        Bitmap.clear (p.slBitmap (classOf p block).1) (classOf p block).2 = 0 then
        Bitmap.clear p.flBitmap (classOf p block).1 else p.flBitmap) := by
  cases ahead with
  | some front =>
    have away : block ≠ front := fun same => other (by rw [same])
    cases behind with
    | some back => simp [remove, prev, next, bypass, away]
    | none => simp [remove, prev, next, bypass, away]
  | none =>
    have atHead := head rfl
    cases behind with
    | some back =>
      refine ⟨?_, ?_, ?_, ?_, ?_⟩
      · simp [remove, prev, next, bypass, atHead, dropHead, setHead]
      · simp [remove, prev, next, bypass, atHead, dropHead, setHead]
      · intro c
        have moved := blocks_setHead p (classOf p block) c (some back)
        simpa [remove, prev, next, atHead, dropHead, setHead] using moved
      · simp [remove, prev, next, atHead, dropHead, setHead]
      · simp [remove, prev, next, atHead, dropHead, setHead]
    | none =>
      refine ⟨?_, ?_, ?_, ?_, ?_⟩
      · simp [remove, prev, next, bypass, atHead, dropHead, setHead]
      · simp [remove, prev, next, bypass, atHead, dropHead, setHead]
      · intro c
        have moved := blocks_setHead p (classOf p block) c none
        simpa [remove, prev, next, atHead, dropHead, setHead] using moved
      · simp [remove, prev, next, atHead, dropHead, setHead]
      · simp [remove, prev, next, atHead, dropHead, setHead]

section Removal
variable {front back : List Nat} {c : Class}

theorem bypass_elsewhere (inv : FreeLists p free lists) (whole : lists c = front ++ block :: back)
    {class' : Class} (away : class' ≠ c) {node : Nat} (member : node ∈ lists class') :
    bypass p.nextFree front.getLast? block node = p.nextFree node ∧
      bypass p.prevFree back.head? block node = p.prevFree node := by
  have outside : ∀ neighbour ∈ lists c, node ≠ neighbour := by
    rintro neighbour inside rfl
    exact inv.apart away inside member
  constructor
  · cases final : front.getLast? with
    | none => rfl
    | some neighbour =>
      refine update_of_ne (outside neighbour ?_) _ _
      rw [whole]
      exact List.mem_append_left _ (List.mem_of_getLast? final)
  · cases start : back.head? with
    | none => rfl
    | some neighbour =>
      refine update_of_ne (outside neighbour ?_) _ _
      rw [whole]
      exact List.mem_append_right _ (List.mem_cons_of_mem block (List.mem_of_head? start))

theorem second_clear (inv : FreeLists p free lists) (filled : lists c ≠ []) {rest : List Nat}
    {gone : Prop} [Decidable gone] (emptied : gone ↔ rest = []) (f : Nat) {s : Nat} (small : s < 32) :
    ((if gone then update p.slBitmap c.1 (Bitmap.clear (p.slBitmap c.1) c.2)
      else p.slBitmap) f).getLsbD s = true ↔ update lists c rest (f, s) ≠ [] := by
  by_cases empty : gone
  · rw [if_pos empty]
    by_cases row : f = c.1
    · subst row
      rw [update_self, Bitmap.getLsbD_clear _ _ _ small]
      by_cases column : c.2 = s
      · simp [← column, emptied.mp empty]
      · rw [update_of_ne (by simp [Prod.ext_iff, Ne.symm column])]
        simpa [column] using inv.second c.1 s small
    · rw [update_of_ne row, update_of_ne (by simp [Prod.ext_iff, row])]
      exact inv.second f s small
  · rw [if_neg empty, inv.second f s small]
    by_cases same : (f, s) = c
    · rw [same, update_self]
      exact iff_of_true filled (mt emptied.mpr empty)
    · rw [update_of_ne same]

theorem first_clear (inv : FreeLists p free lists) (inside : c.2 < 32) (filled : lists c ≠ [])
    {a b : Prop} [Decidable a] [Decidable b] {f : Nat} (small : f < 32) :
    (if a ∧ b ∧ Bitmap.clear (p.slBitmap c.1) c.2 = 0 then Bitmap.clear p.flBitmap c.1
      else p.flBitmap).getLsbD f = true ↔
      (if a ∧ b then update p.slBitmap c.1 (Bitmap.clear (p.slBitmap c.1) c.2)
        else p.slBitmap) f ≠ 0 := by
  by_cases both : a ∧ b
  · obtain ⟨noAhead, noBehind⟩ := both
    simp only [noAhead, noBehind, true_and, and_self, if_true]
    by_cases row : f = c.1
    · subst row
      rw [update_self]
      split
      · rename_i zero
        simp [Bitmap.getLsbD_clear _ _ _ small, zero]
      · rename_i nonzero
        refine iff_of_true ((inv.first c.1 small).mpr ?_) nonzero
        intro zero
        have isSet := (inv.second c.1 c.2 inside).mpr filled
        rw [zero] at isSet
        simp at isSet
    · rw [update_of_ne row, ← inv.first f small]
      split
      · simp [Bitmap.getLsbD_clear _ _ _ small, Ne.symm row]
      · rfl
  · rw [if_neg both, if_neg (fun all => both ⟨all.1, all.2.1⟩)]
    exact inv.first f small

end Removal

theorem remove_freeLists (inv : FreeLists p free lists) (isIn : free block) :
    FreeLists (remove p block) (fun other => free other ∧ other ≠ block)
      (update lists (classOf p block) ((lists (classOf p block)).erase block)) := by
  obtain ⟨fSmall, sSmall⟩ := inv.bounds block
  obtain ⟨front, back, whole⟩ :=
    List.append_of_mem ((inv.member (classOf p block) block).mpr ⟨isIn, rfl⟩)
  have filled : lists (classOf p block) ≠ [] := by simp [whole]
  have list := inv.listed (classOf p block)
  have nodup := inv.nodup (classOf p block)
  rw [whole] at list nodup
  have apart := List.nodup_append.mp nodup
  have notFront : block ∉ front := fun member =>
    apart.2.2 block member block List.mem_cons_self rfl
  have notBack : block ∉ back := (List.nodup_cons.mp apart.2.1).1
  obtain ⟨ahead, behind⟩ := doubly_neighbours list
  have erased : (lists (classOf p block)).erase block = front ++ back := by
    rw [whole, List.erase_append_right _ notFront, List.erase_cons_head]
  have other : front.getLast? ≠ some block := fun last =>
    notFront (List.mem_of_getLast? last)
  have atHead : front.getLast? = none →
      p.blocks (classOf p block).1 (classOf p block).2 = some block := by
    intro empty
    rw [List.getLast?_eq_none_iff] at empty
    simpa [empty] using doubly_head list
  obtain ⟨next, prev, blocks, second, first⟩ := remove_links ahead behind other atHead
  have gone : front.getLast? = none ∧ back.head? = none ↔ front ++ back = [] := by
    rw [List.getLast?_eq_none_iff, List.head?_eq_none_iff, List.append_eq_nil_iff]
  rw [erased]
  generalize classIs : classOf p block = c at *
  refine ⟨?_, ?_, ?_, ?_, ?_⟩
  · rw [(remove_frame p block).1]
    exact inv.rows
  · intro class'
    rw [blocks, next, prev]
    by_cases same : class' = c
    · subst same
      rw [update_self]
      have removed := doubly_remove list
      simpa [ahead, behind] using removed
    · rw [if_neg (by simp [same]), update_of_ne same]
      refine doubly_congr (inv.listed class') ?_
      intro node member
      rw [ahead, behind]
      exact bypass_elsewhere inv whole same member
  · intro class' node
    rw [remove_classOf]
    by_cases same : class' = c
    · subst same
      have before := inv.member class' node
      rw [whole, List.mem_append, List.mem_cons] at before
      rw [update_self, List.mem_append]
      by_cases isBlock : node = block
      · simp [isBlock, notFront, notBack]
      · simpa [isBlock] using before
    · rw [update_of_ne same, inv.member]
      by_cases isBlock : node = block
      · subst isBlock
        simp [classIs, Ne.symm same]
      · simp [isBlock]
  · intro f s small
    rw [second]
    exact second_clear inv filled gone f small
  · intro f small
    rw [second, first]
    exact first_clear inv sSmall filled small

variable {found : Nat}

theorem searchRow_some {size f fuel : Nat} {map : Bitmap.Word}
    (search : searchRow p size f fuel map = some found) :
    size ≤ payload (p.size found) ∧ ∃ s, p.blocks f s = some found := by
  induction fuel generalizing map with
  | zero => exact absurd search (by simp [searchRow])
  | succ fuel ih =>
    rw [searchRow] at search
    split at search
    · exact absurd search (by simp)
    · dsimp only at search
      split at search
      · rename_i cand atHead
        split at search
        · rename_i enough
          have same : cand = found := Option.some.inj search
          exact ⟨same ▸ enough, _, same ▸ atHead⟩
        · exact ih search
      · exact ih search

theorem searchRows_some {size left f : Nat} {c : Class}
    (search : searchRows p size c left f = some found) :
    size ≤ payload (p.size found) ∧ ∃ f s, p.blocks f s = some found := by
  induction left generalizing f with
  | zero => exact absurd search (by simp [searchRows])
  | succ left ih =>
    rw [searchRows] at search
    split at search
    · rename_i cand row
      rw [Option.some.inj search] at row
      obtain ⟨enough, s, atHead⟩ := searchRow_some row
      exact ⟨enough, f, s, atHead⟩
    · exact ih search

theorem search_some (inv : FreeLists p free lists) {size : Nat}
    (searched : search p size = some found) : free found ∧ size ≤ payload (p.size found) := by
  obtain ⟨enough, f, s, atHead⟩ := searchRows_some searched
  have first := doubly_head (inv.listed (f, s))
  rw [atHead, Option.or_none] at first
  exact ⟨((inv.member _ found).mp (List.mem_of_head? first.symm)).1, enough⟩

end Lists

end Ubiqos.Tlsf
