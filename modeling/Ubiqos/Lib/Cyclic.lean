import Mathlib.Algebra.Order.Group.Nat
import Mathlib.Data.List.Basic
import Mathlib.Data.List.DropRight
import Mathlib.Data.Nat.ModEq
import Mathlib.Logic.Function.Basic

/-!
A ring of a fixed size with a place to write and a place to read. One place
always stays empty, so the two places are equal only when nothing is held. What
the ring holds is a list: a write appends to it and a read takes its first.
-/

namespace Cyclic

universe u
variable {Entry : Type u} {size head tail : Nat} {buf : Nat → Entry}

def held (size head tail : Nat) : Nat := (head + (size - tail)) % size

def contents (size : Nat) (buf : Nat → Entry) (tail count : Nat) : List Entry :=
  (List.range count).map (fun i => buf ((tail + i) % size))

@[simp] theorem length_contents (count : Nat) : (contents size buf tail count).length = count := by
  simp [contents]

theorem held_self (inside : tail < size) : held size tail tail = 0 := by
  unfold held
  rw [Nat.add_sub_cancel' inside.le, Nat.mod_self]

theorem held_lt (inside : tail < size) : held size head tail < size :=
  Nat.mod_lt _ (by omega)

theorem head_eq (head_lt : head < size) (tail_lt : tail < size) :
    (tail + held size head tail) % size = head := by
  unfold held
  rw [Nat.add_mod_mod]
  have whole : tail + (head + (size - tail)) = head + size := by omega
  rw [whole, Nat.add_mod_right, Nat.mod_eq_of_lt head_lt]

theorem held_succ (room : held size head tail + 1 < size) :
    held size ((head + 1) % size) tail = held size head tail + 1 := by
  unfold held at room ⊢
  rw [Nat.mod_add_mod, Nat.add_right_comm, ← Nat.mod_add_mod, Nat.mod_eq_of_lt room]

theorem held_pred (head_lt : head < size) (tail_lt : tail < size) (filled : held size head tail ≠ 0) :
    held size head ((tail + 1) % size) + 1 = held size head tail := by
  unfold held at filled ⊢
  rcases Nat.lt_or_ge head tail with below | above
  · -- the reader is ahead: it wraps before it meets the writer
    have value : (head + (size - tail)) % size = head + (size - tail) :=
      Nat.mod_eq_of_lt (by omega)
    rw [value]
    rcases Nat.lt_or_ge (tail + 1) size with inner | last
    · rw [Nat.mod_eq_of_lt inner, Nat.mod_eq_of_lt (by omega)]
      omega
    · have wraps : tail + 1 = size := by omega
      rw [wraps, Nat.mod_self, Nat.sub_zero, Nat.add_mod_right, Nat.mod_eq_of_lt head_lt]
      omega
  · have value : (head + (size - tail)) % size = head - tail := by
      have whole : head + (size - tail) = head - tail + size := by omega
      rw [whole, Nat.add_mod_right, Nat.mod_eq_of_lt (by omega)]
    rw [value] at filled ⊢
    rw [Nat.mod_eq_of_lt (by omega : tail + 1 < size)]
    have whole : head + (size - (tail + 1)) = head - (tail + 1) + size := by omega
    rw [whole, Nat.add_mod_right, Nat.mod_eq_of_lt (by omega)]
    omega

theorem place_ne {i count : Nat} (before : i < count) (room : count < size) :
    (tail + i) % size ≠ (tail + count) % size := by
  intro same
  have apart : count - i ≡ 0 [MOD size] := by
    have shifted : tail + i + (count - i) ≡ tail + i + 0 [MOD size] := by
      have whole : tail + i + (count - i) = tail + count := by omega
      rw [whole]
      exact same.symm
    exact Nat.ModEq.add_left_cancel' (tail + i) shifted
  have zero := Nat.eq_zero_of_dvd_of_lt ((Nat.modEq_zero_iff_dvd).mp apart) (by omega)
  omega

theorem contents_push {count : Nat} (entry : Entry) (room : count < size) :
    contents size (Function.update buf ((tail + count) % size) entry) tail (count + 1) =
      contents size buf tail count ++ [entry] := by
  unfold contents
  rw [List.range_succ, List.map_append]
  congr 1
  · apply List.map_congr_left
    intro i member
    exact Function.update_of_ne (place_ne (List.mem_range.mp member) room) _ _
  · simp

theorem contents_set {count i : Nat} (entry : Entry) (inside : i < size) (room : count ≤ size) :
    contents size (Function.update buf ((tail + i) % size) entry) tail count =
      (contents size buf tail count).set i entry := by
  apply List.ext_getElem (by simp)
  intro j short _
  rw [length_contents] at short
  rw [List.getElem_set]
  simp only [contents, List.getElem_map, List.getElem_range]
  split
  · rename_i same
    subst same
    exact Function.update_self _ _ _
  · rename_i other
    apply Function.update_of_ne
    rcases Nat.lt_or_gt_of_ne other with before | after
    · exact (place_ne before (by omega)).symm
    · exact place_ne after inside

theorem contents_pop (count : Nat) (inside : tail < size) :
    contents size buf tail (count + 1) =
      buf tail :: contents size buf ((tail + 1) % size) count := by
  unfold contents
  rw [List.range_succ_eq_map, List.map_cons, List.map_map, Nat.add_zero, Nat.mod_eq_of_lt inside]
  congr 1
  apply List.map_congr_left
  intro i _
  have same : (tail + 1) % size + i ≡ tail + (i + 1) [MOD size] := by
    unfold Nat.ModEq
    rw [Nat.mod_add_mod]
    congr 1
    omega
  simp only [Function.comp_apply, Nat.succ_eq_add_one]
  rw [same]

theorem contents_take {count n : Nat} (within : n ≤ count) :
    (contents size buf tail count).take n = contents size buf tail n := by
  unfold contents
  rw [← List.map_take, List.take_range, Nat.min_eq_left within]

theorem contents_drop {count n : Nat} :
    (contents size buf tail count).drop n = contents size buf ((tail + n) % size) (count - n) := by
  unfold contents
  rw [← List.map_drop]
  apply List.ext_getElem
  · simp
  · intro i _ _
    simp [Nat.add_assoc]

def pushAll (size : Nat) : (Nat → Entry) → Nat → List Entry → Nat → Entry
  | buf, _, [] => buf
  | buf, place, entry :: rest =>
    pushAll size (Function.update buf place entry) ((place + 1) % size) rest

theorem pushAll_append (buf : Nat → Entry) (place : Nat) (inside : place < size)
    (first second : List Entry) :
    pushAll size buf place (first ++ second) =
      pushAll size (pushAll size buf place first) ((place + first.length) % size) second := by
  induction first generalizing buf place with
  | nil => simp [pushAll, Nat.mod_eq_of_lt inside]
  | cons entry rest ih =>
    rw [List.cons_append, pushAll, pushAll, ih _ _ (Nat.mod_lt _ (by omega)), Nat.mod_add_mod,
      List.length_cons]
    congr 2
    omega

theorem contents_pushAll {count : Nat} (entries : List Entry) (room : count + entries.length ≤ size) :
    contents size (pushAll size buf ((tail + count) % size) entries) tail (count + entries.length) =
      contents size buf tail count ++ entries := by
  induction entries generalizing buf count with
  | nil => simp [pushAll]
  | cons entry rest ih =>
    rw [List.length_cons] at room ⊢
    have next : ((tail + count) % size + 1) % size = (tail + (count + 1)) % size := by
      rw [Nat.mod_add_mod, Nat.add_assoc]
    rw [pushAll, next]
    have whole : count + (rest.length + 1) = count + 1 + rest.length := by omega
    rw [whole, ih (by omega), contents_push entry (by omega), List.append_assoc]
    rfl

end Cyclic

/-!
A ring that forgets its oldest entries: a place to write, and whether it has come round. What
it holds is the end of all that was written to it.
-/

universe u

namespace Recent

variable {Entry : Type u}

structure Ring (Entry : Type u) where
  buf : Nat → Entry
  head : Nat
  wrapped : Bool

def push (size : Nat) (ring : Ring Entry) (entry : Entry) : Ring Entry :=
  let buf := Function.update ring.buf ring.head entry
  if size ≤ ring.head + 1 then ⟨buf, 0, true⟩ else ⟨buf, ring.head + 1, ring.wrapped⟩

def count (size : Nat) (ring : Ring Entry) : Nat := if ring.wrapped then size else ring.head

def entry (size : Nat) (ring : Ring Entry) (offset : Nat) : Option Entry :=
  if count size ring ≤ offset then none
  else
    let start := if ring.wrapped then ring.head else 0
    some (ring.buf ((start + offset) % size))

/-- All of `text` was written, and the entry of each index stands where the index falls. -/
structure Holds (size : Nat) (ring : Ring Entry) (text : List Entry) : Prop where
  head : ring.head = text.length % size
  wrapped : ring.wrapped = decide (size ≤ text.length)
  stands : ∀ i, (inside : i < text.length) → text.length ≤ i + size → ring.buf (i % size) = text[i]

variable {size : Nat} {ring : Ring Entry} {text : List Entry}

theorem holds_nil (buf : Nat → Entry) (positive : 0 < size) : Holds size ⟨buf, 0, false⟩ [] where
  head := (Nat.zero_mod size).symm
  wrapped := (decide_eq_false (Nat.not_le.mpr positive)).symm
  stands := fun i inside => absurd inside (Nat.not_lt_zero i)

theorem Holds.push (holds : Holds size ring text) (positive : 0 < size) (entry : Entry) :
    Holds size (push size ring entry) (text ++ [entry]) := by
  have length : (text ++ [entry]).length = text.length + 1 := by simp
  have small : text.length % size < size := Nat.mod_lt _ positive
  have stands : ∀ i, (inside : i < (text ++ [entry]).length) → (text ++ [entry]).length ≤ i + size →
      Function.update ring.buf ring.head entry (i % size) = (text ++ [entry])[i] := by
    intro i inside recent
    rw [length] at inside recent
    rw [holds.head]
    by_cases last : i = text.length
    · subst last
      rw [Function.update_self, List.getElem_concat_length rfl]
    · have earlier : i < text.length := by omega
      have other : i % size ≠ text.length % size := by
        intro same
        have whole := Nat.dvd_of_mod_eq_zero (Nat.sub_mod_eq_zero_of_mod_eq same.symm)
        exact absurd (Nat.le_of_dvd (by omega) whole) (by omega)
      rw [Function.update_of_ne other, List.getElem_append_left earlier]
      exact holds.stands i earlier (by omega)
  unfold Recent.push
  dsimp only
  split
  · rename_i full
    rw [holds.head] at full
    have round : text.length % size + 1 = size := by omega
    refine ⟨?_, ?_, stands⟩
    · rw [length, ← Nat.mod_add_mod, round, Nat.mod_self]
    · have enough : size ≤ text.length + 1 := by
        have := Nat.mod_le text.length size
        omega
      rw [length]
      exact (decide_eq_true enough).symm
  · rename_i room
    rw [holds.head] at room
    refine ⟨?_, ?_, stands⟩
    · dsimp only
      rw [length, holds.head, ← Nat.mod_add_mod, Nat.mod_eq_of_lt (by omega : text.length % size + 1 < size)]
    · dsimp only
      rw [length, holds.wrapped]
      apply decide_eq_decide.mpr
      refine ⟨fun enough => by omega, fun enough => ?_⟩
      by_contra short
      rw [Nat.mod_eq_of_lt (by omega)] at room
      omega

theorem Holds.pushAll (holds : Holds size ring text) (positive : 0 < size) (more : List Entry) :
    Holds size (more.foldl (Recent.push size) ring) (text ++ more) := by
  induction more generalizing ring text with
  | nil => rwa [List.append_nil]
  | cons first rest ih =>
    have next := ih (holds.push positive first)
    rwa [List.append_assoc, List.singleton_append] at next

theorem Holds.count (holds : Holds size ring text) : count size ring = (text.rtake size).length := by
  rw [Recent.count, holds.wrapped, holds.head, List.rtake, List.length_drop]
  by_cases full : size ≤ text.length
  · rw [decide_eq_true full, if_pos rfl]
    omega
  · rw [decide_eq_false full, if_neg Bool.false_ne_true, Nat.mod_eq_of_lt (by omega)]
    omega

theorem Holds.entries (holds : Holds size ring text) :
    (List.range (Recent.count size ring)).map (entry size ring) = (text.rtake size).map some := by
  apply List.ext_getElem
  · rw [List.length_map, List.length_range, List.length_map, holds.count]
  · intro i inside _
    rw [List.length_map, List.length_range] at inside
    have here := inside
    rw [holds.count, List.rtake, List.length_drop] at here
    have read : entry size ring i =
        some (ring.buf (((if ring.wrapped then ring.head else 0) + i) % size)) := by
      unfold entry
      exact if_neg (by omega)
    have place : ((if ring.wrapped then ring.head else 0) + i) % size = (text.length - size + i) % size := by
      rw [holds.wrapped, holds.head]
      by_cases full : size ≤ text.length
      · rw [decide_eq_true full, if_pos rfl, Nat.mod_add_mod, ← Nat.add_mod_right (text.length - size + i)]
        congr 1
        omega
      · rw [decide_eq_false full, if_neg Bool.false_ne_true]
        congr 1
        omega
    have stands := holds.stands (text.length - size + i) (by omega) (by omega)
    rw [List.getElem_map, List.getElem_range, read, place, stands, List.getElem_map]
    congr 1
    simp only [List.rtake, List.getElem_drop]

theorem rtake_append (n : Nat) (front back : List Entry) :
    (front ++ back).rtake n = front.rtake (n - back.length) ++ back.rtake n := by
  have first : front.length + back.length - n = front.length - (n - back.length) ∨
      front.length ≤ front.length + back.length - n := by omega
  simp only [List.rtake, List.length_append, List.drop_append]
  congr 1
  · rcases first with same | beyond
    · rw [same]
    · rw [List.drop_of_length_le beyond, List.drop_of_length_le (by omega)]
  · congr 1
    omega

theorem rtake_rtake {m n : Nat} (fewer : m ≤ n) (text : List Entry) : (text.rtake n).rtake m = text.rtake m := by
  rw [List.rtake, List.rtake, List.rtake, List.length_drop, List.drop_drop]
  congr 1
  omega

theorem rtake_append_eq_iff {n : Nat} {front other back last : List Entry}
    (agree : front.rtake n = other.rtake n) (even : back.length = last.length) :
    (front ++ back).rtake n = (other ++ last).rtake n ↔ back.rtake n = last.rtake n := by
  have fewer : front.rtake (n - back.length) = other.rtake (n - back.length) := by
    rw [← rtake_rtake (Nat.sub_le n _) front, ← rtake_rtake (Nat.sub_le n _) other, agree]
  rw [rtake_append, rtake_append, even.symm, fewer, List.append_cancel_left_eq]

end Recent

/-!
A window onto an endless text that is kept in a ring: what has the index `i` stands at `i % size`. The
window may move on, a line may be written over inside of it, and the text outside is of no account.
-/

namespace Rolling

open Function

variable {α : Type u}

def Stands (size : Nat) (ring text : Nat → α) (low high : Nat) : Prop :=
  ∀ i, low ≤ i → i < high → ring (i % size) = text i

variable {size low high low' high' : Nat} {ring text : Nat → α} {x : α}

theorem Stands.mono (stands : Stands size ring text low high) (above : low ≤ low') (below : high' ≤ high) :
    Stands size ring text low' high' :=
  fun i after before => stands i (Nat.le_trans above after) (Nat.lt_of_lt_of_le before below)

theorem apart {i j : Nat} (near : i < j) (inside : j < i + size) : i % size ≠ j % size := by
  intro same
  have whole := Nat.dvd_of_mod_eq_zero (Nat.sub_mod_eq_zero_of_mod_eq same.symm)
  exact absurd (Nat.le_of_dvd (Nat.sub_pos_of_lt near) whole) (by omega)

variable {j : Nat}

theorem Stands.set (stands : Stands size ring text low high) (above : low ≤ j) (below : j ≤ high)
    (within : j < low + size) (room : high ≤ low + size) :
    Stands size (update ring (j % size) x) (update text j x) low (max high (j + 1)) := by
  intro i after before
  by_cases same : i = j
  · rw [same, update_self, update_self]
  · have differ : i % size ≠ j % size := by
      rcases Nat.lt_or_gt_of_ne same with less | more
      · exact apart less (by omega)
      · exact (apart more (by omega)).symm
    rw [update_of_ne differ, update_of_ne same]
    exact stands i after (by omega)

theorem Stands.excess (stands : Stands size ring text low high) (above : low ≤ j) (below : j < high)
    (room : high ≤ low + size) : Stands size (update ring (j % size) x) (update text j x) low high :=
  (stands.set above (Nat.le_of_lt below) (by omega) room).mono (Nat.le_refl _) (by omega)

theorem Stands.push (stands : Stands size ring text low high) (ahead : low ≤ high) (room : high < low + size) :
    Stands size (update ring (high % size) x) (update text high x) low (high + 1) :=
  (stands.set ahead (Nat.le_refl _) room (Nat.le_of_lt room)).mono (Nat.le_refl _) (by omega)

theorem Stands.elsewhere (stands : Stands size ring text low high) (outside : j < low ∨ high ≤ j) :
    Stands size ring (update text j x) low high := by
  intro i after before
  rw [update_of_ne (by omega)]
  exact stands i after before

theorem Stands.spare (stands : Stands size ring text low high) (behind : high ≤ j) (room : j < low + size) :
    Stands size (update ring (j % size) x) text low high := by
  intro i after before
  rw [update_of_ne (apart (by omega) (by omega))]
  exact stands i after before

end Rolling
