import Mathlib.Data.List.Induction
import Mathlib.Data.List.Pairwise

/-!
A stretch of addresses cut into tiles that lie end to end. `Tiled width prev
before start stop tiles` says that the tiles begin at `start`, that each begins
where the one ahead of it ends, that the last ends at `stop`, and that `prev`
leads back from each to the one ahead of it, from the first to `before`.
-/

namespace Tiling

def Tiled (width : Nat → Nat) (prev : Nat → Option Nat) :
    Option Nat → Nat → Nat → List Nat → Prop
  | _, start, stop, [] => start = stop
  | before, start, stop, tile :: rest =>
    tile = start ∧ prev tile = before ∧ Tiled width prev (some tile) (start + width tile) stop rest

variable {width width' : Nat → Nat} {prev prev' : Nat → Option Nat} {before : Option Nat}
  {start stop : Nat} {tiles : List Nat}

theorem tiled_congr (tiled : Tiled width prev before start stop tiles)
    (agree : ∀ tile ∈ tiles, width' tile = width tile ∧ prev' tile = prev tile) :
    Tiled width' prev' before start stop tiles := by
  induction tiles generalizing before start with
  | nil => exact tiled
  | cons tile rest ih =>
    obtain ⟨here, back, more⟩ := tiled
    obtain ⟨sameWidth, samePrev⟩ := agree tile List.mem_cons_self
    refine ⟨here, samePrev.trans back, ?_⟩
    rw [sameWidth]
    exact ih more (fun later member => agree later (List.mem_cons_of_mem tile member))

variable {front back : List Nat}

theorem tiled_append :
    Tiled width prev before start stop (front ++ back) ↔
      ∃ middle, Tiled width prev before start middle front ∧
        Tiled width prev (front.getLast?.or before) middle stop back := by
  induction front generalizing before start with
  | nil =>
    constructor
    · intro tiled
      exact ⟨start, rfl, tiled⟩
    · rintro ⟨middle, same, tiled⟩
      have here : start = middle := same
      subst here
      exact tiled
  | cons tile rest ih =>
    have final : (tile :: rest).getLast?.or before = rest.getLast?.or (some tile) := by
      rw [List.getLast?_cons]
      cases rest.getLast? <;> rfl
    rw [final]
    simp only [List.cons_append, Tiled, ih]
    constructor
    · rintro ⟨here, back, middle, left, right⟩
      exact ⟨middle, ⟨here, back, left⟩, right⟩
    · rintro ⟨middle, ⟨here, back, left⟩, right⟩
      exact ⟨here, back, middle, left, right⟩

theorem tiled_le (tiled : Tiled width prev before start stop tiles) : start ≤ stop := by
  induction tiles generalizing before start with
  | nil => exact Nat.le_of_eq tiled
  | cons tile rest ih =>
    have more := ih tiled.2.2
    omega

theorem tiled_bounds (tiled : Tiled width prev before start stop tiles) :
    ∀ tile ∈ tiles, start ≤ tile ∧ tile + width tile ≤ stop := by
  induction tiles generalizing before start with
  | nil => simp
  | cons tile rest ih =>
    obtain ⟨here, _, more⟩ := tiled
    intro other member
    rcases List.mem_cons.mp member with rfl | later
    · have inside := tiled_le more
      omega
    · have inside := ih more other later
      omega

theorem tiled_pairwise (tiled : Tiled width prev before start stop tiles) :
    tiles.Pairwise (fun left right => left + width left ≤ right) := by
  induction tiles generalizing before start with
  | nil => exact .nil
  | cons tile rest ih =>
    obtain ⟨here, _, more⟩ := tiled
    refine .cons ?_ (ih more)
    intro other member
    have inside := (tiled_bounds more other member).1
    omega

theorem tiled_apart (tiled : Tiled width prev before start stop tiles) {left right : Nat}
    (inLeft : left ∈ tiles) (inRight : right ∈ tiles) (different : left ≠ right) :
    left + width left ≤ right ∨ right + width right ≤ left := by
  obtain ⟨front, back, rfl⟩ := List.append_of_mem inLeft
  obtain ⟨_, behind, ahead⟩ := List.pairwise_append.mp (tiled_pairwise tiled)
  rcases List.mem_append.mp inRight with before | after
  · exact Or.inr (ahead right before left List.mem_cons_self)
  · rcases List.mem_cons.mp after with same | later
    · exact absurd same.symm different
    · exact Or.inl ((List.pairwise_cons.mp behind).1 right later)

theorem tiled_nodup (tiled : Tiled width prev before start stop tiles)
    (wide : ∀ tile ∈ tiles, 0 < width tile) : tiles.Nodup := by
  refine (tiled_pairwise tiled).imp_of_mem ?_
  intro left right member _ apart same
  have positive := wide left member
  omega

theorem tiled_behind {tile : Nat}
    (tiled : Tiled width prev before start stop (front ++ tile :: back)) :
    (back = [] ∧ tile + width tile = stop) ∨ back.head? = some (tile + width tile) := by
  obtain ⟨middle, _, here, _, more⟩ := tiled_append.mp tiled
  cases back with
  | nil =>
    have ends : middle + width tile = stop := more
    exact Or.inl ⟨rfl, by omega⟩
  | cons next rest =>
    have begins : next = middle + width tile := more.1
    exact Or.inr (by rw [List.head?_cons, begins, here])

theorem tiled_rehead {ahead : Option Nat} (tiled : Tiled width prev before start stop tiles)
    (told : ∀ tile, tiles.head? = some tile → prev' tile = ahead)
    (others : ∀ tile ∈ tiles.tail, prev' tile = prev tile) :
    Tiled width prev' ahead start stop tiles := by
  cases tiles with
  | nil => exact tiled
  | cons tile rest =>
    refine ⟨tiled.1, told tile rfl, tiled_congr tiled.2.2 ?_⟩
    intro later member
    exact ⟨rfl, others later member⟩

end Tiling
