import Ubiqos.Tlsf.Live
import Mathlib.Data.Prod.Lex

/-!
What the two loops of `malloc` look at, and in which order. A class comes before
another as a row comes before a later one and, in a row, a list before a later
one. The search takes the first block of the first class above the request's
own that has any; it passes over nothing as long as no class is clamped.
-/

namespace Ubiqos.Tlsf

open Function Intrusive Machine Tiling

/-- `c` comes before `d` among the lists. -/
def Below (c d : Class) : Prop := toLex c < toLex d

instance (c d : Class) : Decidable (Below c d) :=
  decidable_of_iff (c.1 < d.1 ∨ c.1 = d.1 ∧ c.2 < d.2) Prod.Lex.toLex_lt_toLex.symm

theorem below_iff {c d : Class} : Below c d ↔ c.1 < d.1 ∨ c.1 = d.1 ∧ c.2 < d.2 :=
  Prod.Lex.toLex_lt_toLex

section Mapping
variable {flCount size other : Nat}

theorem mapping_row (unclamped : size < 2 ^ flCount) (positive : size ≠ 0) :
    (mapping flCount size).1 = if size.log2 < 5 then 0 else size.log2 := by
  have row : size.log2 < flCount := (Nat.log2_lt positive).mpr unclamped
  simp only [mapping]
  split <;> split <;> omega

theorem mapping_list (size : Nat) :
    (mapping flCount size).2 =
      if size.log2 < 5 then size else size / 2 ^ (size.log2 - 5) - 32 := by
  simp only [mapping, slIndexCount]
  by_cases small : size.log2 < 5
  · have inside : size < 32 := by
      by_cases zero : size = 0
      · omega
      · exact (Nat.log2_lt zero).mp small
    simp only [small, if_true]
    exact Nat.mod_eq_of_lt inside
  · have positive : size ≠ 0 := by
      rintro rfl
      simp at small
    have low : 2 ^ size.log2 ≤ size := Nat.log2_self_le positive
    have high : size < 2 ^ (size.log2 + 1) := Nat.lt_log2_self
    have atLeast : 32 ≤ size / 2 ^ (size.log2 - 5) := by
      rw [Nat.le_div_iff_mul_le (Nat.two_pow_pos _)]
      calc 32 * 2 ^ (size.log2 - 5) = 2 ^ (5 + (size.log2 - 5)) := by rw [Nat.pow_add]
        _ = 2 ^ size.log2 := by congr 1; omega
        _ ≤ size := low
    have below : size / 2 ^ (size.log2 - 5) < 64 := by
      rw [Nat.div_lt_iff_lt_mul (Nat.two_pow_pos _)]
      calc size < 2 ^ (size.log2 + 1) := high
        _ = 2 ^ (6 + (size.log2 - 5)) := by congr 1; omega
        _ = 64 * 2 ^ (size.log2 - 5) := by rw [Nat.pow_add]
    simp only [small, if_false]
    omega

theorem below_lt (unclamped : size < 2 ^ flCount) (unclamped' : other < 2 ^ flCount)
    (positive : size ≠ 0) (below : Below (mapping flCount size) (mapping flCount other)) :
    size < other := by
  have positive' : other ≠ 0 := by
    rintro rfl
    rw [below_iff] at below
    have lowest : (mapping flCount 0).1 = 0 := by
      simp only [mapping, Nat.log2_zero]
      split <;> split <;> omega
    rw [lowest, mapping_list 0] at below
    simp at below
  rw [below_iff, mapping_row unclamped positive, mapping_row unclamped' positive', mapping_list,
    mapping_list] at below
  have high : size < 2 ^ (size.log2 + 1) := Nat.lt_log2_self
  have low : 2 ^ other.log2 ≤ other := Nat.log2_self_le positive'
  by_cases later : size.log2 < other.log2
  · calc size < 2 ^ (size.log2 + 1) := high
      _ ≤ 2 ^ other.log2 := Nat.pow_le_pow_right (by decide) later
      _ ≤ other := low
  · by_contra larger
    have same : size.log2 = other.log2 := by
      have mono : 2 ^ other.log2 ≤ size := low.trans (Nat.le_of_not_lt larger)
      by_contra different
      split at below <;> split at below <;> omega
    rw [same] at below
    have quotient : other / 2 ^ (other.log2 - 5) ≤ size / 2 ^ (other.log2 - 5) :=
      Nat.div_le_div_right (Nat.le_of_not_lt larger)
    split at below <;> omega

end Mapping

section Order
variable {p : Pool} {free : Nat → Prop} {lists : Class → List Nat} {c : Class} {size f : Nat}

theorem FreeLists.inside (inv : FreeLists p free lists) {d : Class} (some' : lists d ≠ []) :
    d.1 < p.flCount ∧ d.2 < 32 := by
  obtain ⟨block, member⟩ := List.exists_mem_of_ne_nil _ some'
  have isClass := ((inv.member d block).mp member).2
  rw [← isClass]
  exact mapping_bounds inv.rows.1 _

theorem FreeLists.rowMap_bit (inv : FreeLists p free lists) (row : c.1 ≤ f) {s : Nat}
    (small : s < 32) :
    (rowMap p c f).getLsbD s = true ↔ lists (f, s) ≠ [] ∧ Below c (f, s) := by
  have bit := inv.second f s small
  unfold rowMap
  by_cases own : f = c.1
  · rw [if_pos own]
    have above : Below c (f, s) ↔ c.2 < s := by
      rw [below_iff]
      omega
    rw [above, ← bit]
    split
    · have none' : ¬ c.2 < s := by omega
      simp [none']
    · simp only [BitVec.getLsbD_and, BitVec.getLsbD_shiftLeft, BitVec.getLsbD_allOnes,
        Bool.and_eq_true, Bool.not_eq_true', decide_eq_true_eq, decide_eq_false_iff_not]
      refine and_congr_right fun _ => ?_
      omega
  · rw [if_neg own, bit]
    have above : Below c (f, s) := below_iff.mpr (Or.inl (by dsimp only; omega))
    simp [above]

def Ample (p : Pool) (size : Nat) (c : Class) : Prop :=
  ∀ f s, c.1 ≤ f → s < 32 → (rowMap p c f).getLsbD s = true →
    ∃ cand, p.blocks f s = some cand ∧ size ≤ payload (p.size cand)

theorem FreeLists.ample (inv : FreeLists p free lists)
    (fits : ∀ d, Below c d → ∀ block ∈ lists d, size ≤ payload (p.size block)) :
    Ample p size c := by
  intro f s row small isSet
  obtain ⟨some', below⟩ := (inv.rowMap_bit row small).mp isSet
  have first := doubly_head (inv.listed (f, s))
  rw [Option.or_none] at first
  cases heads : lists (f, s) with
  | nil => exact absurd heads some'
  | cons cand rest =>
    rw [heads] at first
    exact ⟨cand, first, fits (f, s) below cand (by rw [heads]; exact List.mem_cons_self)⟩

theorem searchRow_first (ample : Ample p size c) (row : c.1 ≤ f) (fuel : Nat) :
    searchRow p size f (fuel + 1) (rowMap p c f) =
      if rowMap p c f = 0 then none else p.blocks f (Bitmap.ctz (rowMap p c f)) := by
  rw [searchRow]
  split
  · rfl
  · rename_i nonzero
    obtain ⟨small, isSet, _⟩ := Bitmap.ctz_lowest nonzero
    obtain ⟨cand, atHead, enough⟩ := ample f _ row small isSet
    simp only [atHead, enough, if_true]

theorem searchRow_none (ample : Ample p size c) (row : c.1 ≤ f) :
    searchRow p size f slIndexCount (rowMap p c f) = none ↔ rowMap p c f = 0 := by
  rw [show slIndexCount = 31 + 1 from rfl, searchRow_first ample row]
  split
  · rename_i zero
    simp [zero]
  · rename_i nonzero
    obtain ⟨small, isSet, _⟩ := Bitmap.ctz_lowest nonzero
    obtain ⟨cand, atHead, _⟩ := ample f _ row small isSet
    rw [atHead]
    exact iff_of_false (by simp) nonzero

theorem searchRows_none (ample : Ample p size c) {left : Nat} (row : c.1 ≤ f) :
    searchRows p size c left f = none ↔
      ∀ g, f ≤ g → g < f + left → rowMap p c g = 0 := by
  induction left generalizing f with
  | zero =>
    refine iff_of_true rfl ?_
    intro g above below
    omega
  | succ left ih =>
    rw [searchRows]
    cases here : searchRow p size f slIndexCount (rowMap p c f) with
    | some cand =>
      have nonzero : rowMap p c f ≠ 0 := by
        intro zero
        rw [(searchRow_none ample row).mpr zero] at here
        exact absurd here (by simp)
      refine iff_of_false (by simp) ?_
      intro all
      exact nonzero (all f (Nat.le_refl f) (by omega))
    | none =>
      have zero := (searchRow_none ample row).mp here
      dsimp only
      rw [ih (by omega)]
      constructor
      · intro all g above below
        by_cases same : g = f
        · rw [same]
          exact zero
        · exact all g (by omega) (by omega)
      · intro all g above below
        exact all g (by omega) (by omega)

theorem searchRows_first (ample : Ample p size c) {left found : Nat} (row : c.1 ≤ f)
    (search : searchRows p size c left f = some found) :
    ∃ g, f ≤ g ∧ rowMap p c g ≠ 0 ∧ p.blocks g (Bitmap.ctz (rowMap p c g)) = some found ∧
      ∀ lower, f ≤ lower → lower < g → rowMap p c lower = 0 := by
  induction left generalizing f with
  | zero => exact absurd search (by simp [searchRows])
  | succ left ih =>
    rw [searchRows] at search
    cases here : searchRow p size f slIndexCount (rowMap p c f) with
    | some cand =>
      rw [here] at search
      rw [Option.some.inj search, show slIndexCount = 31 + 1 from rfl,
        searchRow_first ample row] at here
      split at here
      · exact absurd here (by simp)
      · rename_i nonzero
        exact ⟨f, Nat.le_refl f, nonzero, here, fun lower above below => by omega⟩
    | none =>
      rw [here] at search
      obtain ⟨g, above, nonzero, atHead, lowest⟩ := ih (by omega) search
      refine ⟨g, by omega, nonzero, atHead, ?_⟩
      intro lower aboveLower belowLower
      by_cases same : lower = f
      · rw [same]
        exact (searchRow_none ample row).mp here
      · exact lowest lower (by omega) belowLower

theorem FreeLists.search_none (inv : FreeLists p free lists)
    (fits : ∀ d, Below (mapping p.flCount size) d → ∀ block ∈ lists d,
      size ≤ payload (p.size block)) :
    search p size = none ↔ ∀ d, Below (mapping p.flCount size) d → lists d = [] := by
  have bounds := mapping_bounds inv.rows.1 size
  unfold search
  generalize mapping p.flCount size = c at fits bounds
  dsimp only
  rw [searchRows_none (inv.ample fits) (Nat.le_refl c.1)]
  constructor
  · intro zero d below
    by_contra some'
    obtain ⟨rowInside, listInside⟩ := inv.inside some'
    have row : c.1 ≤ d.1 := by
      have ordered := below_iff.mp below
      omega
    have isSet := (inv.rowMap_bit row listInside).mpr ⟨some', below⟩
    rw [zero d.1 row (by omega)] at isSet
    simp at isSet
  · intro nothing g row _
    refine (Bitmap.eq_zero_iff _).mpr ?_
    intro s small
    rw [Bool.eq_false_iff]
    intro isSet
    obtain ⟨some', below⟩ := (inv.rowMap_bit row small).mp isSet
    exact some' (nothing (g, s) below)

theorem FreeLists.search_first (inv : FreeLists p free lists)
    (fits : ∀ d, Below (mapping p.flCount size) d → ∀ block ∈ lists d,
      size ≤ payload (p.size block)) {found : Nat} (searched : search p size = some found) :
    ∃ d, Below (mapping p.flCount size) d ∧ (lists d).head? = some found ∧
      ∀ other, Below (mapping p.flCount size) other → Below other d → lists other = [] := by
  unfold search at searched
  generalize mapping p.flCount size = c at fits searched ⊢
  obtain ⟨g, row, nonzero, atHead, lowest⟩ :=
    searchRows_first (inv.ample fits) (Nat.le_refl c.1) searched
  obtain ⟨small, isSet, first⟩ := Bitmap.ctz_lowest nonzero
  obtain ⟨_, below⟩ := (inv.rowMap_bit row small).mp isSet
  have head := doubly_head (inv.listed (g, Bitmap.ctz (rowMap p c g)))
  rw [atHead, Option.or_none] at head
  refine ⟨_, below, head.symm, ?_⟩
  intro other above earlier
  by_contra some'
  obtain ⟨_, listInside⟩ := inv.inside some'
  have rowOther : c.1 ≤ other.1 := by
    have ordered := below_iff.mp above
    omega
  have otherSet := (inv.rowMap_bit rowOther listInside).mpr ⟨some', above⟩
  rcases below_iff.mp earlier with sooner | ⟨sameRow, sooner⟩
  · rw [lowest other.1 rowOther sooner] at otherSet
    simp at otherSet
  · rw [sameRow, first other.2 sooner] at otherSet
    simp at otherSet

end Order

def FreeBlock (p : Pool) (block : Nat) : Prop := Header p block ∧ isFree (p.size block) = true

section Whole
variable {p : Pool} {tiles : List Nat} {lists : Class → List Nat} {size : Nat}

theorem Whole.headers (whole : Whole p tiles lists) {block : Nat} :
    Header p block ↔ block ∈ tiles := by
  constructor
  · exact whole.header
  · intro member
    obtain ⟨front, back, rfl⟩ := List.append_of_mem member
    clear member
    induction front using List.reverseRecOn generalizing block back with
    | nil =>
      have begins : block = p.poolStart := whole.tiled.1
      have inside := (tiled_bounds whole.tiled block (by simp)).2
      have positive := width_pos p block
      rw [begins]
      exact .first (by omega)
    | append_singleton rest ahead ih =>
      rw [List.append_assoc, List.singleton_append] at whole
      refine .next (ih (block :: back) whole) ?_
      have stop : ahead + headerBytes + payload (p.size ahead) = ahead + width p ahead := by
        unfold width
        omega
      have inside := (tiled_bounds whole.tiled block (by simp)).2
      have positive := width_pos p block
      rcases tiled_behind whole.tiled with ⟨none', _⟩ | next
      · exact absurd none' (by simp)
      · have here : block = ahead + width p ahead := by simpa using next
        simp only [nextPhys, stop]
        rw [if_neg (by omega), ← here]

theorem Whole.freeBlock (whole : Whole p tiles lists) {block : Nat} :
    FreeBlock p block ↔ block ∈ lists (classOf p block) := by
  rw [FreeBlock, whole.headers, whole.listed.member]
  simp [FreeIn]

end Whole

section Frame
variable (p : Pool) (block size : Nat)

theorem linkAfter_flCount : (linkAfter p block).flCount = p.flCount := by
  unfold linkAfter
  split <;> rfl

theorem split_flCount : (split p block size).flCount = p.flCount := by
  unfold split
  rw [(insert_frame _ _).1, linkAfter_flCount]

theorem trim_flCount : (trim p block size).flCount = p.flCount := by
  unfold trim
  dsimp only
  split
  · exact split_flCount p block size
  · rfl

theorem malloc_flCount : (malloc p size).1.flCount = p.flCount := by
  unfold malloc
  split
  · rfl
  · dsimp only
    split
    · rfl
    · rw [trim_flCount, (remove_frame p _).1]

theorem absorbNext_flCount : (absorbNext p block).flCount = p.flCount := by
  unfold absorbNext
  split
  · rfl
  · split
    · exact (remove_frame p _).1
    · rfl

theorem absorbPrev_flCount : (absorbPrev p block).1.flCount = p.flCount := by
  unfold absorbPrev
  split
  · rfl
  · split
    · exact (remove_frame p _).1
    · rfl

theorem free_flCount (pointer : Nat) : (free p pointer).flCount = p.flCount := by
  unfold free
  split
  · rfl
  · dsimp only
    rw [(insert_frame _ _).1, linkAfter_flCount, absorbPrev_flCount, absorbNext_flCount]

end Frame

def Reaching (p : Pool) : Prop := p.poolEnd - p.poolStart < 2 ^ p.flCount

theorem create_reaching {mem bytes : Nat} (region : Region mem bytes) {p : Pool}
    (created : create mem bytes = some p) : Reaching p := by
  have within := region.within
  unfold create at created
  by_cases empty : bytes = 0
  · simp [empty] at created
  · rw [if_neg empty] at created
    dsimp only at created
    split at created
    · exact absurd created (by simp)
    · rw [← Option.some.inj created]
      have top : bytes.log2 < 32 := (Nat.log2_lt empty).mpr (by omega)
      have rows : min (bytes.log2 + 1) flIndexMax = bytes.log2 + 1 := by
        unfold flIndexMax
        omega
      have reach : bytes < 2 ^ (bytes.log2 + 1) := Nat.lt_log2_self
      unfold Reaching
      obtain ⟨count, start, stop, _⟩ := insert_frame _ _
      rw [count, start, stop]
      dsimp only
      rw [rows]
      omega

end Ubiqos.Tlsf
