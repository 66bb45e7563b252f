import Ubiqos.Fat.Fragments
import Ubiqos.Fat.Blind
import Mathlib.Data.List.DropRight
import Mathlib.Data.List.GetD

/-!
What a match says of the name. The eleven bytes forget a blank or a dot at the end of a part,
and the accumulator forgets which character outside ASCII it was, what stands behind the
sixty-fourth, and whose fragments they are. Where nothing of that is in a name, a match is an
identity.
-/

namespace Ubiqos.Fat

open Function

def SameCi (a b : List Byte) : Prop := a.map lower = b.map lower

instance (a b : List Byte) : Decidable (SameCi a b) := inferInstanceAs (Decidable (_ = _))

def Parallel (a b : List Byte) : Prop := stemLength a = stemLength b ∧ a.length = b.length

section Letters

theorem lower_upper : ∀ c : Byte, lower (upper c) = lower c := by decide +kernel
theorem upper_lower : ∀ c : Byte, upper (lower c) = upper c := by decide +kernel
theorem upper_upper : ∀ c : Byte, upper (upper c) = upper c := by decide +kernel
theorem lower_dot : ∀ c : Byte, lower c = chr '.' ↔ c = chr '.' := by decide +kernel
theorem upper_dot : ∀ c : Byte, upper c = chr '.' ↔ c = chr '.' := by decide +kernel
theorem upper_blank : ∀ c : Byte, upper c = chr ' ' ↔ c = chr ' ' := by decide +kernel

theorem map_lower_upper (name : List Byte) : (name.map upper).map lower = name.map lower := by
  simp [Function.comp_def, lower_upper]

theorem map_upper_lower (name : List Byte) : (name.map lower).map upper = name.map upper := by
  simp [Function.comp_def, upper_lower]

theorem sameCi_iff_upper {a b : List Byte} : SameCi a b ↔ a.map upper = b.map upper := by
  constructor
  · intro same
    rw [← map_upper_lower a, ← map_upper_lower b, same]
  · intro same
    rw [SameCi, ← map_lower_upper a, ← map_lower_upper b, same]

variable {f : Byte → Byte} (dots : ∀ c, f c = chr '.' ↔ c = chr '.')
include dots

theorem lastDot_map (name : List Byte) : lastDot (name.map f) = lastDot name := by
  induction name with
  | nil => rfl
  | cons c rest ih => simp only [List.map_cons, lastDot, ih, dots]

theorem stemLength_map (name : List Byte) : stemLength (name.map f) = stemLength name := by
  simp [stemLength, lastDot_map dots]

theorem extension_map (name : List Byte) : extension (name.map f) = (extension name).map f := by
  rw [extension, extension, lastDot_map dots]
  cases lastDot name with
  | none => rfl
  | some i => exact List.map_drop.symm

end Letters

section Eleven
variable {a b name short : List Byte}

theorem name_parts (name : List Byte) :
    name = name.take (stemLength name) ++
      if chr '.' ∈ name then chr '.' :: extension name else [] := by
  rcases dot_split name with ⟨absent, stem, _⟩ | ⟨front, back, split', _, stem, rest⟩
  · rw [if_neg absent, stem, List.take_length, List.append_nil]
  · have dot : chr '.' ∈ name := by simp [split']
    rw [if_pos dot, stem, rest]
    nth_rewrite 1 [split']
    rw [split', List.take_left]

theorem padded_inj {n : Nat} {x y front back : List Byte} (long : x.length = y.length)
    (same : padded n x ++ front = padded n y ++ back) : x = y ∧ front = back := by
  rw [padded, padded, List.append_assoc, List.append_assoc, long] at same
  obtain ⟨whole, rest⟩ := List.append_inj same long
  exact ⟨whole, List.append_cancel_left rest⟩

theorem length_parts (name : List Byte) : name.length = stemLength name +
    if chr '.' ∈ name then (extension name).length + 1 else 0 := by
  rcases dot_split name with ⟨absent, stem, _⟩ | ⟨front, back, split', _, stem, rest⟩
  · rw [if_neg absent, stem, Nat.add_zero]
  · have dot : chr '.' ∈ name := by simp [split']
    rw [if_pos dot, stem, rest, split', List.length_append, List.length_cons]

theorem sameCi_iff_parallel (left : nameTo83 a = some short) (right : nameTo83 b = some short) :
    SameCi a b ↔ Parallel a b := by
  obtain ⟨_, shortA⟩ := nameTo83_some left
  obtain ⟨_, shortB⟩ := nameTo83_some right
  constructor
  · intro same
    refine ⟨?_, by simpa using congrArg List.length same⟩
    rw [← stemLength_map lower_dot a, same, stemLength_map lower_dot]
  · rintro ⟨stem, length⟩
    have lengthA := length_parts a
    have lengthB := length_parts b
    have stems : ((a.take (stemLength a)).map upper).length =
        ((b.take (stemLength b)).map upper).length := by
      simp only [List.length_map, List.length_take, stem, length]
    obtain ⟨front, back⟩ := padded_inj stems (shortA.symm.trans shortB)
    have dots : chr '.' ∈ a ↔ chr '.' ∈ b := by
      by_cases dotA : chr '.' ∈ a <;> by_cases dotB : chr '.' ∈ b
      · simp [dotA, dotB]
      · rw [if_pos dotA] at lengthA
        rw [if_neg dotB] at lengthB
        omega
      · rw [if_neg dotA] at lengthA
        rw [if_pos dotB] at lengthB
        omega
      · simp [dotA, dotB]
    rw [sameCi_iff_upper, name_parts a, name_parts b, List.map_append, List.map_append, front]
    by_cases dotA : chr '.' ∈ a
    · have dotB := dots.mp dotA
      rw [if_pos dotA] at lengthA ⊢
      rw [if_pos dotB] at lengthB ⊢
      have rest : (extension a).length = (extension b).length := by omega
      have same := (@padded_inj 3 ((extension a).map upper) ((extension b).map upper) [] []
        (by simpa using rest) (by rw [back])).1
      rw [List.map_cons, List.map_cons, same]
    · rw [if_neg dotA, if_neg (dots.not.mp dotA)]

end Eleven

def trimmed (part : List Byte) : List Byte := part.rdropWhile (· = chr ' ')

def Entry.dotted (e : Entry) : List Byte :=
  let ext := trimmed (e.name.drop 8)
  trimmed (e.name.take 8) ++ if ext = [] then [] else chr '.' :: ext

def Tight (name : List Byte) : Prop :=
  trimmed (name.take (stemLength name)) = name.take (stemLength name) ∧
    trimmed (extension name) = extension name ∧ (chr '.' ∈ name → extension name ≠ [])

def Entry.ordinary (e : Entry) : Prop :=
  trimmed (e.name.take 8) ≠ [] ∧ ∀ c ∈ e.name, upper c = c ∧ c ≠ chr '.'

section Trimming
variable {part : List Byte} {name : List Byte} {e : Entry}

theorem length_trimmed (part : List Byte) : (trimmed part).length ≤ part.length :=
  (List.rdropWhile_prefix _ part).length_le

theorem trimmed_whole (long : part.length ≤ (trimmed part).length) : trimmed part = part :=
  (List.rdropWhile_prefix _ part).eq_of_length_le long

theorem trimmed_padded (n : Nat) (part : List Byte) : trimmed (padded n part) = trimmed part := by
  rw [padded]
  generalize n - part.length = k
  induction k with
  | zero => rw [List.replicate_zero, List.append_nil]
  | succ k ih =>
    rw [List.replicate_succ', ← List.append_assoc, trimmed,
      List.rdropWhile_concat_pos _ _ _ (by simp)]
    exact ih

theorem padded_trimmed (part : List Byte) : padded part.length (trimmed part) = part := by
  have whole : trimmed part ++ part.rtakeWhile (· = chr ' ') = part :=
    List.rdropWhile_append_rtakeWhile
  have blanks : part.rtakeWhile (· = chr ' ') =
      List.replicate (part.length - (trimmed part).length) (chr ' ') := by
    rw [List.eq_replicate_iff]
    constructor
    · have := congrArg List.length whole
      rw [List.length_append] at this
      omega
    · intro c member
      simpa using List.mem_rtakeWhile_imp member
  rw [padded, ← blanks]
  exact whole

theorem trimmed_upper (part : List Byte) : trimmed (part.map upper) = (trimmed part).map upper := by
  induction part using List.reverseRecOn with
  | nil => rfl
  | append_singleton front c ih =>
    rw [List.map_append, List.map_singleton, trimmed, trimmed, List.rdropWhile_concat,
      List.rdropWhile_concat]
    by_cases blank : c = chr ' '
    · rw [if_pos (by simp [upper_blank, blank]), if_pos (by simp [blank])]
      exact ih
    · rw [if_neg (by simp [upper_blank, blank]), if_neg (by simp [blank]), List.map_append,
        List.map_singleton]

theorem take_padded {n : Nat} {back : List Byte} (few : part.length ≤ n) :
    (padded n part ++ back).take n = padded n part ∧ (padded n part ++ back).drop n = back := by
  have long := length_padded n part few
  exact ⟨List.take_left' long, List.drop_left' long⟩

theorem dotted_short (short : nameTo83 name = some e.name) : e.dotted =
    (trimmed (name.take (stemLength name)) ++ if trimmed (extension name) = [] then [] else
      chr '.' :: trimmed (extension name)).map upper := by
  obtain ⟨⟨_, few, _, _⟩, bytes⟩ := nameTo83_some short
  have parts := @take_padded ((name.take (stemLength name)).map upper) 8
    (padded 3 ((extension name).map upper)) (by rw [List.length_map, List.length_take]; omega)
  rw [Entry.dotted, bytes, parts.1, parts.2]
  simp only [trimmed_padded, trimmed_upper, List.map_eq_nil_iff, List.map_append]
  split
  · rfl
  · rw [List.map_cons]
    rfl

theorem sameCi_dotted_iff (short : nameTo83 name = some e.name) : SameCi name e.dotted ↔ Tight name := by
  rw [dotted_short short, sameCi_iff_upper, List.map_map, show upper ∘ upper = upper from funext upper_upper]
  have stem := length_trimmed (name.take (stemLength name))
  have ext := length_trimmed (extension name)
  have whole := name_parts name
  constructor
  · intro same
    have long := congrArg List.length whole
    have kept := congrArg List.length same
    rw [List.length_map, List.length_map, List.length_append] at kept
    rw [List.length_append] at long
    by_cases dot : chr '.' ∈ name
    · rw [if_pos dot, List.length_cons] at long
      by_cases gone : trimmed (extension name) = []
      · rw [if_pos gone, List.length_nil] at kept
        omega
      · rw [if_neg gone, List.length_cons] at kept
        refine ⟨trimmed_whole (by omega), trimmed_whole (by omega), fun _ empty => gone ?_⟩
        rw [empty]
        rfl
    · rcases dot_split name with ⟨_, _, none'⟩ | ⟨front, back, split', _⟩
      · have gone : trimmed (extension name) = [] := by
          rw [none']
          rfl
        rw [if_neg dot, List.length_nil] at long
        rw [if_pos gone, List.length_nil] at kept
        exact ⟨trimmed_whole (by omega), by rw [gone, none'], fun dotted => absurd dotted dot⟩
      · exact absurd (by simp [split']) dot
  · rintro ⟨stem', ext', dotted⟩
    rw [stem', ext']
    by_cases dot : chr '.' ∈ name
    · rw [if_pos dot] at whole
      rw [if_neg (dotted dot), ← whole]
    · rcases dot_split name with ⟨_, _, none'⟩ | ⟨front, back, split', _⟩
      · rw [if_neg dot] at whole
        rw [if_pos none', ← whole]
      · exact absurd (by simp [split']) dot

theorem nameTo83_upper (name : List Byte) : nameTo83 (name.map upper) = nameTo83 name := by
  have dots : (name.map upper).count (chr '.') = name.count (chr '.') := by
    rw [List.count_eq_countP, List.count_eq_countP, List.countP_map]
    congr 1
    funext c
    rw [Bool.eq_iff_iff]
    simp [upper_dot]
  simp only [nameTo83, stemLength_map upper_dot, extension_map upper_dot, List.length_map, dots,
    ← List.map_take, List.map_map, show upper ∘ upper = upper from funext upper_upper]

theorem lastDot_none {back : List Byte} (absent : chr '.' ∉ back) : lastDot back = none := by
  induction back with
  | nil => rfl
  | cons c rest ih =>
    rw [List.mem_cons, not_or] at absent
    rw [lastDot, ih absent.2, if_neg (Ne.symm absent.1)]

theorem lastDot_join (front : List Byte) {back : List Byte} (absent : chr '.' ∉ back) :
    lastDot (front ++ chr '.' :: back) = some front.length := by
  induction front with
  | nil => simp [lastDot, lastDot_none absent]
  | cons c rest ih => simp [lastDot, ih]

theorem joined_parts {x y : List Byte} (stem : chr '.' ∉ x) (ext : chr '.' ∉ y) :
    let whole := x ++ if y = [] then [] else chr '.' :: y
    stemLength whole = x.length ∧ extension whole = y ∧ whole.count (chr '.') ≤ 1 ∧
      whole.take x.length = x := by
  by_cases empty : y = []
  · simp only [empty, if_true, List.append_nil]
    have last := lastDot_none stem
    refine ⟨by simp [stemLength, last], by simp [extension, last], ?_, List.take_length⟩
    rw [List.count_eq_zero_of_not_mem stem]
    exact Nat.zero_le 1
  · simp only [empty, if_false]
    have last := lastDot_join x ext
    refine ⟨by simp [stemLength, last], by simp [extension, last], ?_, List.take_left⟩
    rw [List.count_append, List.count_cons_self, List.count_eq_zero_of_not_mem stem,
      List.count_eq_zero_of_not_mem ext]

theorem nameTo83_dotted (ordinary : e.ordinary) : nameTo83 e.dotted = some e.name := by
  obtain ⟨stem, plain⟩ := ordinary
  have long : e.name.length = 11 := by simp [Entry.name]
  rw [Entry.dotted]
  generalize front : trimmed (e.name.take 8) = x at stem ⊢
  generalize back : trimmed (e.name.drop 8) = y
  have inFront : ∀ c ∈ x, c ∈ e.name := by
    intro c member
    rw [← front] at member
    exact List.mem_of_mem_take ((List.rdropWhile_prefix _ _).subset member)
  have inBack : ∀ c ∈ y, c ∈ e.name := by
    intro c member
    rw [← back] at member
    exact List.mem_of_mem_drop ((List.rdropWhile_prefix _ _).subset member)
  have noDotX : chr '.' ∉ x := fun member => (plain _ (inFront _ member)).2 rfl
  have noDotY : chr '.' ∉ y := fun member => (plain _ (inBack _ member)).2 rfl
  have upperX : x.map upper = x :=
    (List.map_congr_left fun c member => (plain c (inFront c member)).1).trans (List.map_id x)
  have upperY : y.map upper = y :=
    (List.map_congr_left fun c member => (plain c (inBack c member)).1).trans (List.map_id y)
  have padX : padded 8 x = e.name.take 8 := by
    have whole := padded_trimmed (e.name.take 8)
    rwa [front, List.length_take, long] at whole
  have padY : padded 3 y = e.name.drop 8 := by
    have whole := padded_trimmed (e.name.drop 8)
    rwa [back, List.length_drop, long] at whole
  have fewX : x.length ≤ 8 := by
    have few := length_trimmed (e.name.take 8)
    rw [front, List.length_take] at few
    omega
  have fewY : y.length ≤ 3 := by
    have few := length_trimmed (e.name.drop 8)
    rw [back, List.length_drop] at few
    omega
  have positive : x.length ≠ 0 := fun zero => stem (List.length_eq_zero_iff.mp zero)
  obtain ⟨stemIs, extIs, dots, front'⟩ := joined_parts noDotX noDotY
  rw [nameTo83, stemIs, extIs, if_neg (by omega), if_neg (by omega), front', upperX, upperY, padX,
    padY, List.take_append_drop]

end Trimming

def Entry.units (e : Entry) : List Nat := unitOffsets.map (rd16 e)

def charOf (u : Nat) : Byte :=
  if u = 0 ∨ u = 0xffff then 0 else if u < 128 then BitVec.ofNat 8 u else chr '?'

/-- The units of a name from its `k`-th fragment on, the nearest to the entry first. All
of them carry the checksum of its eleven bytes, and the last one is marked. -/
def unitsFrom (sum : Byte) : Nat → List Entry → Option (List Nat)
  | _, [] => none
  | k, e :: rest =>
    if e.seq = k ∧ e 13 = sum then
      if e 0 &&& 0x40 ≠ 0 then some e.units
      else (unitsFrom sum (k + 1) rest).map (e.units ++ ·)
    else none

def named (u : Nat) : Bool := u ≠ 0 ∧ u ≠ 0xffff

def Entry.longName (e : Entry) (frags : List Entry) : Option (List Nat) :=
  (unitsFrom (lfnChecksum e.name) 1 frags.reverse).map (·.takeWhile named)

def lowerUnit (u : Nat) : Nat := if 65 ≤ u ∧ u ≤ 90 then u + 32 else u

def SameUnits (typed : List Byte) (long : List Nat) : Prop :=
  typed.map (fun c => lowerUnit c.toNat) = long.map lowerUnit

section Long
variable {e : Entry} {l : Lfn} {junk : Nat → Byte} {list : List Entry} {units : List Nat} {i k : Nat}

theorem length_units (e : Entry) : e.units.length = 13 := rfl

theorem fragmentChar_unit (e : Entry) (small : i < 13) :
    fragmentChar e i = charOf (e.units.getD i 0) := by
  have place : e.units.getD i 0 = rd16 e (unitOffsets.getD i 0) := by
    have offset : unitOffsets[i]? = some unitOffsets[i] := List.getElem?_eq_getElem small
    rw [Entry.units, List.getD_eq_getElem?_getD, List.getD_eq_getElem?_getD, List.getElem?_map, offset]
    rfl
  rw [place]
  rfl

theorem gather_units {sum : Byte} (from' : 1 ≤ k) (whole : unitsFrom sum k list = some units) :
    13 ≤ units.length ∧
    (∀ i < units.length, (k - 1) * 13 + i < lfnMax →
      (gather junk list.reverse).name ((k - 1) * 13 + i) = charOf (units.getD i 0)) ∧
    ((k - 1) * 13 + units.length ≤ lfnMax →
      (gather junk list.reverse).name ((k - 1) * 13 + units.length) = 0) := by
  induction list generalizing k units with
  | nil => cases whole
  | cons e rest ih =>
    rw [unitsFrom] at whole
    split at whole
    · next own =>
      rw [List.reverse_cons, gather_snoc]
      have base : e.base = (k - 1) * 13 := by rw [Entry.base, own.1]
      -- a fragment that begins behind the end is not used
      have usable : (k - 1) * 13 < lfnMax → e.usable = true := by
        intro inside
        simp only [Entry.usable, base, decide_eq_true_eq, own.1]
        exact ⟨by omega, inside⟩
      have here : ∀ i < 13, (k - 1) * 13 + i < lfnMax →
          (lfnTake (gather junk rest.reverse) e).name ((k - 1) * 13 + i) =
            charOf (e.units.getD i 0) := by
        intro i small inside
        rw [(lfnTake_usable (usable (by omega))).2, Entry.writes, if_neg (by omega),
          if_pos ⟨by omega, by omega, inside⟩, base, Nat.add_sub_cancel_left,
          fragmentChar_unit e small]
        rfl
      split at whole
      · next last =>
        cases whole
        refine ⟨le_rfl, here, ?_⟩
        intro fits
        rw [length_units] at fits ⊢
        rw [(lfnTake_usable (usable (by omega))).2, Entry.writes, if_pos ⟨last, by omega⟩]
        rfl
      · next inner =>
        obtain ⟨more, later, rfl⟩ := Option.map_eq_some_iff.mp whole
        obtain ⟨long, chars, zero⟩ := ih (by omega) later
        have next : (k + 1 - 1) * 13 = (k - 1) * 13 + 13 := by omega
        rw [next] at chars zero
        -- what lies behind its own thirteen places it leaves
        have kept : ∀ j, 13 ≤ j → (k - 1) * 13 + j ≤ lfnMax →
            (lfnTake (gather junk rest.reverse) e).name ((k - 1) * 13 + j) =
              (gather junk rest.reverse).name ((k - 1) * 13 + j) := by
          intro j past inside
          rw [(lfnTake_usable (usable (by omega))).2, Entry.writes, if_neg (fun both => inner both.1),
            if_neg (fun spans => absurd spans.2.1 (by omega))]
          rfl
        refine ⟨by rw [List.length_append]; omega, ?_, ?_⟩
        · intro i small inside
          by_cases early : i < 13
          · rw [here i early inside, List.getD_append _ _ _ _ early]
          · obtain ⟨j, rfl⟩ := Nat.exists_eq_add_of_le (Nat.le_of_not_lt early)
            rw [List.length_append, length_units] at small
            rw [kept _ (by omega) (by omega), ← Nat.add_assoc, chars j (by omega) (by omega),
              List.getD_append_right _ _ _ _ (by rw [length_units]; omega), length_units,
              Nat.add_sub_cancel_left]
        · intro fits
          rw [List.length_append, length_units] at fits ⊢
          rw [kept _ (by omega) (by omega), ← Nat.add_assoc]
          exact zero (by omega)
    · cases whole

theorem sameNameCi_iff (a b : List Byte) : sameNameCi a b = true ↔ SameCi a b := by
  induction a generalizing b with
  | nil => cases b <;> simp [sameNameCi, SameCi]
  | cons x left ih =>
    cases b with
    | nil => simp [sameNameCi, SameCi]
    | cons y right =>
      rw [sameNameCi, Bool.and_eq_true, beq_iff_eq, ih, SameCi, SameCi, List.map_cons,
        List.map_cons, List.cons.injEq]

theorem charOf_zero (u : Nat) : charOf u ≠ 0 ↔ named u = true := by
  simp only [charOf, named, decide_eq_true_eq]
  split
  · next ends => exact ⟨fun no => absurd rfl no, fun both => ends.elim (absurd · both.1) (absurd · both.2)⟩
  · next inside =>
    rw [not_or] at inside
    refine ⟨fun _ => inside, fun _ => ?_⟩
    split
    · next small =>
      intro zero
      have value := congrArg BitVec.toNat zero
      simp only [BitVec.toNat_ofNat, BitVec.ofNat_eq_ofNat] at value
      omega
    · decide

theorem text_units {sum : Byte} {want : List Byte} (few : want.length ≤ lfnMax)
    (whole : unitsFrom sum 1 list = some units) (same : SameCi (gather junk list.reverse).text want) :
    (gather junk list.reverse).text = ((units.takeWhile named).take lfnMax).map charOf := by
  obtain ⟨_, chars, zero⟩ := @gather_units junk list units 1 sum le_rfl whole
  simp only [Nat.sub_self, Nat.zero_mul, Nat.zero_add] at chars zero
  generalize (gather junk list.reverse) = l at same chars zero ⊢
  let cut := units.take lfnMax
  have short : cut.length ≤ lfnMax := List.length_take_le _ _
  let behind := (List.range (lfnMax + 1 - cut.length)).map fun j => l.name (cut.length + j)
  have bytes : (List.range (lfnMax + 1)).map l.name = cut.map charOf ++ behind := by
    have both : lfnMax + 1 = cut.length + (lfnMax + 1 - cut.length) := by omega
    rw [both, List.range_add, List.map_append, List.map_map]
    congr 1
    apply List.ext_getElem
    · simp
    · intro i small _
      rw [List.length_map, List.length_range] at small
      have inside : i < units.length := by
        rw [List.length_take] at small
        omega
      rw [List.getElem_map, List.getElem_range, List.getElem_map, List.getElem_take,
        chars i inside (by omega), List.getD_eq_getElem _ _ inside]
  have ended : (cut.map charOf).takeWhile (· ≠ 0) = cut.map charOf → behind.takeWhile (· ≠ 0) = [] := by
    intro full
    have few' : l.text.length ≤ lfnMax := by
      have lengths := congrArg List.length same
      rw [List.length_map, List.length_map] at lengths
      omega
    rw [Lfn.text, bytes, List.takeWhile_append, if_pos (by rw [full]), List.length_append,
      List.length_map] at few'
    by_cases fits : units.length ≤ lfnMax
    · have all : cut.length = units.length := by
        rw [List.length_take]
        omega
      obtain ⟨n, more⟩ : ∃ n, lfnMax + 1 - cut.length = n + 1 := ⟨lfnMax - cut.length, by omega⟩
      have first : l.name (cut.length + 0) = 0 := by rw [Nat.add_zero, all, zero fits]
      simp only [behind]
      rw [more, List.range_succ_eq_map, List.map_cons, first]
      rfl
    · have all : cut.length = lfnMax := by
        rw [List.length_take]
        omega
      exact List.length_eq_zero_iff.mp (by omega)
  have text : l.text = (cut.map charOf).takeWhile (· ≠ 0) := by
    rw [Lfn.text, bytes, List.takeWhile_append]
    split
    · next full =>
      have whole := (List.takeWhile_prefix _).eq_of_length full
      rw [ended whole, List.append_nil, whole]
    · rfl
  have unit : (fun b : Byte => decide (b ≠ 0)) ∘ charOf = named := by
    funext u
    rw [Bool.eq_iff_iff, ← charOf_zero]
    simp
  rw [text, List.takeWhile_map, unit, List.take_takeWhile]

theorem lowerUnit_byte : ∀ c : Byte, lowerUnit c.toNat = (lower c).toNat := by decide +kernel

theorem lowerUnit_charOf {u : Nat} {c : Byte} (inName : named u = true)
    (same : lower (charOf u) = lower c) : lowerUnit c.toNat = lowerUnit u ↔ u < 128 := by
  have both : u ≠ 0 ∧ u ≠ 0xffff := by simpa [named] using inName
  rw [lowerUnit_byte, ← same]
  by_cases small : u < 128
  · have char : charOf u = BitVec.ofNat 8 u := by rw [charOf, if_neg (by omega), if_pos small]
    have value : (BitVec.ofNat 8 u).toNat = u := by rw [BitVec.toNat_ofNat]; omega
    rw [char, ← lowerUnit_byte, value]
    exact ⟨fun _ => small, fun _ => rfl⟩
  · have char : charOf u = chr '?' := by rw [charOf, if_neg (by omega), if_neg small]
    have mark : (lower (chr '?')).toNat = 63 := rfl
    rw [char, mark, lowerUnit, if_neg (by omega)]
    omega

theorem sameUnits_ascii {long : List Nat} {typed : List Byte} (inName : ∀ u ∈ long, named u = true)
    (same : SameCi (long.map charOf) typed) : SameUnits typed long ↔ ∀ u ∈ long, u < 128 := by
  induction long generalizing typed with
  | nil =>
    cases typed with
    | nil => simp [SameUnits]
    | cons c rest => cases same
  | cons u more ih =>
    cases typed with
    | nil => cases same
    | cons c rest =>
      obtain ⟨here, later⟩ := List.cons.inj same
      have first := lowerUnit_charOf (inName u List.mem_cons_self) here
      have others := ih (fun v member => inName v (List.mem_cons_of_mem _ member)) later
      rw [SameUnits, List.map_cons, List.map_cons, List.cons.injEq, first, List.forall_mem_cons]
      exact and_congr_right fun _ => others

theorem sameUnits_iff {long : List Nat} {typed : List Byte} (inName : ∀ u ∈ long, named u = true)
    (same : SameCi ((long.take lfnMax).map charOf) (typed.take lfnMax)) :
    SameUnits typed long ↔
      (∀ u ∈ long.take lfnMax, u < 128) ∧ SameUnits (typed.drop lfnMax) (long.drop lfnMax) := by
  rw [← sameUnits_ascii (fun u member => inName u (List.mem_of_mem_take member)) same]
  have lengths : (typed.take lfnMax).length = (long.take lfnMax).length := by
    have equal := congrArg List.length same
    simp only [List.length_map] at equal
    exact equal.symm
  simp only [SameUnits]
  nth_rewrite 1 [← List.take_append_drop lfnMax typed, ← List.take_append_drop lfnMax long]
  rw [List.map_append, List.map_append]
  constructor
  · intro whole
    exact List.append_inj whole (by rw [List.length_map, List.length_map, lengths])
  · rintro ⟨front, back⟩
    rw [front, back]

end Long

/-- A name as it is typed, and the two spellings it is looked up by: the last component of a
path, or one before it. -/
inductive Asked : List Byte → List Byte → List Byte → Prop
  | leaf {path : List Byte} {leaf : Leaf} (some' : leafFor path = some leaf) :
      Asked (leafOf path) leaf.name83 leaf.long
  | component (typed : List Byte) :
      Asked typed ((nameTo83 (typed.take lfnMax)).getD blank83) (typed.take lfnMax)

def fragsBefore (slots : List Slot) (k : Nat) : List Entry :=
  ((slots.take k).rtakeWhile fun slot => slot.entry.fragment && !slot.entry.deleted).map Slot.entry

def Entry.goesBy (e : Entry) (frags : List Entry) (typed : List Byte) : Prop :=
  match e.longName frags with
  | some long => nameTo83 typed = some e.name ∨ SameUnits typed long
  | none => SameCi typed e.dotted

def Entry.distinct (e : Entry) (frags : List Entry) (typed : List Byte) : Prop :=
  match e.longName frags with
  | some long => nameTo83 typed = some e.name ∨
      if e.name = blank83 then SameUnits typed long
      else (∀ u ∈ long.take lfnMax, u < 128) ∧ SameUnits (typed.drop lfnMax) (long.drop lfnMax)
  | none => if nameTo83 typed = some e.name then Tight typed else ¬ e.ordinary ∧ SameCi typed e.dotted

section Lookup
variable {typed short long : List Byte} {frags : List Entry} {e : Entry} {junk : Nat → Byte}

theorem nameTo83_take (typed : List Byte) : nameTo83 (typed.take lfnMax) = nameTo83 typed := by
  by_cases few : typed.length ≤ lfnMax
  · rw [List.take_of_length_le few]
  · have long : ∀ name : List Byte, lfnMax ≤ name.length → nameTo83 name = none := by
      intro name long
      cases converted : nameTo83 name with
      | none => rfl
      | some short =>
        have := (nameTo83_some converted).1.length
        simp only [lfnMax] at long
        omega
    rw [long typed (by omega), long (typed.take lfnMax) (by rw [List.length_take]; omega)]

theorem Asked.spellings (asked : Asked typed short long) :
    short = (nameTo83 typed).getD blank83 ∧ long = typed.take lfnMax := by
  cases asked with
  | @leaf path leaf some' =>
    simp only [leafFor] at some'
    cases converted : nameTo83 (leafOf path) with
    | some short =>
      rw [converted] at some'
      cases some'
      exact ⟨rfl, rfl⟩
    | none =>
      rw [converted] at some'
      simp only at some'
      split at some'
      · cases some'
      · cases some'
        exact ⟨rfl, rfl⟩
  | component typed => exact ⟨by rw [nameTo83_take], rfl⟩

theorem text_of_answers (answers : answersTo (gather junk frags) e ((nameTo83 typed).getD blank83)
      (some (typed.take lfnMax)) = true)
    (other : nameTo83 typed ≠ some e.name) (blank : e.name ≠ blank83) :
    SameCi (gather junk frags).text (typed.take lfnMax) := by
  rw [answersTo, Bool.or_eq_true, Bool.and_eq_true, Option.any_some, sameNameCi_iff, nameMatches,
    beq_iff_eq] at answers
  rcases answers with bytes | text
  · cases converted : nameTo83 typed with
    | some short =>
      rw [converted] at bytes
      exact absurd (by rw [bytes, converted, Option.getD_some]) other
    | none =>
      rw [converted] at bytes
      exact absurd bytes blank
  · exact text.2

theorem goesBy_iff_distinct (asked : Asked typed short long)
    (answers : answersTo (gather junk frags) e short (some long) = true) :
    e.goesBy frags typed ↔ e.distinct frags typed := by
  obtain ⟨rfl, rfl⟩ := asked.spellings
  rw [Entry.goesBy, Entry.distinct]
  cases named' : e.longName frags with
  | some long =>
    apply or_congr_right'
    intro other
    split
    · exact Iff.rfl
    · next blank =>
      obtain ⟨units, whole, rfl⟩ := Option.map_eq_some_iff.mp named'
      have same := text_of_answers answers other blank
      have text := @text_units junk frags.reverse units _ _ (List.length_take_le _ _) whole
        (by rw [List.reverse_reverse]; exact same)
      rw [List.reverse_reverse] at text
      rw [text] at same
      exact sameUnits_iff (fun u member => List.mem_takeWhile_imp member) same
  | none =>
    dsimp only
    split
    · next short => exact sameCi_dotted_iff short
    · next other =>
      refine ⟨fun same => ⟨fun ordinary => other ?_, same⟩, fun both => both.2⟩
      -- an entry a writer made answers to its own name by its eleven bytes
      rw [← nameTo83_upper, sameCi_iff_upper.mp same, nameTo83_upper, nameTo83_dotted ordinary]

theorem foldl_gather (l : Lfn) (slots : List Slot) (k : Nat) :
    ∃ junk, (slots.take k).foldl lfnPast (lfnReset l) = gather junk (fragsBefore slots k) := by
  rw [fragsBefore]
  generalize slots.take k = passed
  induction passed using List.reverseRecOn with
  | nil => exact ⟨l.name, lfnReset_gather l⟩
  | append_singleton front slot ih =>
    obtain ⟨junk, same⟩ := ih
    rw [List.foldl_append, List.foldl_cons, List.foldl_nil, same, lfnPast, List.rtakeWhile_concat]
    by_cases deleted : slot.entry.deleted = true
    · refine ⟨(gather junk ((front.rtakeWhile fun slot =>
        slot.entry.fragment && !slot.entry.deleted).map Slot.entry)).name, ?_⟩
      rw [if_pos deleted, if_neg (by simp [deleted])]
      rfl
    · by_cases fragment : slot.entry.fragment = true
      · refine ⟨junk, ?_⟩
        rw [if_neg deleted, if_pos fragment, if_pos (by simp [deleted, fragment]), List.map_append,
          List.map_singleton, gather_snoc]
      · refine ⟨(gather junk ((front.rtakeWhile fun slot =>
          slot.entry.fragment && !slot.entry.deleted).map Slot.entry)).name, ?_⟩
        rw [if_neg deleted, if_neg fragment, if_neg (by simp [fragment])]
        rfl

end Lookup

/-- Two names with the same eleven bytes are one up to case exactly when they are equally long
with the dot at the same place. An entry that a lookup comes to goes by the name typed exactly
when neither spelling has lost anything that tells it from another. -/
theorem names_identify_iff (short : List Byte) :
    (∀ a b : List Byte, nameTo83 a = some short → nameTo83 b = some short →
      (SameCi a b ↔ Parallel a b)) ∧
    ∀ typed long : List Byte, Asked typed short long → ∀ (s t : Fs) (dir : Nat) (e : Entry),
      (findEntry dir short (some long)).run s = some (some e, t) →
      ∃ k slot, AnswersFirst short (some long) s.emptyLfn (s.readSlots dir) k slot ∧
        slot.entry = e ∧
        (e.goesBy (fragsBefore (s.readSlots dir) k) typed ↔
          e.distinct (fragsBefore (s.readSlots dir) k) typed) := by
  refine ⟨fun a b => sameCi_iff_parallel, ?_⟩
  intro typed long asked s t dir e runs
  -- a failure would have ended the search without an entry
  obtain missed | ⟨u, calm, _⟩ :=
    repeats_findEntry dir short (some long) s { s with faults := [] } (some e) t rfl runs
  · cases missed
  have read : ({ s with faults := [] } : Fs).entryRead dir short (some long) = some e := by
    rw [Fs.entryRead, calm]
    rfl
  rw [entryRead_answers rfl] at read
  obtain ⟨⟨k, slot⟩, first, rfl⟩ := Option.map_eq_some_iff.mp read
  have answers := firstAnswer_iff.mp first
  refine ⟨k, slot, answers, rfl, ?_⟩
  obtain ⟨junk, same⟩ := foldl_gather { name := s.stack s.calls, valid := false } (s.readSlots dir) k
  have hits : answersTo (gather junk (fragsBefore (s.readSlots dir) k)) slot.entry short (some long) = true := by
    rw [← same]
    exact answers.1.answers
  exact goesBy_iff_distinct asked hits

section Lone

/-- A volume whose one entry is the file `A`. -/
def lone : Fs := strayed 1 goneSector

def loneAnswer (typed : List Byte) : Option (List Byte × Bool) :=
  (firstAnswer (padded 11 [chr 'A']) (some typed) lone.emptyLfn (lone.readSlots 2)).map
    fun found => (found.2.entry.name, (fragsBefore (lone.readSlots 2) found.1).isEmpty)

theorem lone_found {typed : List Byte} (found : loneAnswer typed = some (padded 11 [chr 'A'], true)) :
    (∃ e t, (findEntry 2 (padded 11 [chr 'A']) (some typed)).run lone = some (some e, t)) ∧
    ∀ k slot, AnswersFirst (padded 11 [chr 'A']) (some typed) lone.emptyLfn (lone.readSlots 2) k slot →
      slot.entry.name = padded 11 [chr 'A'] ∧ fragsBefore (lone.readSlots 2) k = [] := by
  obtain ⟨⟨k, slot⟩, first, same⟩ := Option.map_eq_some_iff.mp found
  constructor
  · have read : lone.entryRead 2 (padded 11 [chr 'A']) (some typed) = some slot.entry := by
      rw [entryRead_answers rfl, first]
      rfl
    obtain ⟨⟨e, t⟩, runs, rfl⟩ := Option.bind_eq_some_iff.mp read
    exact ⟨_, t, runs⟩
  · intro j other answers
    rw [firstAnswer_iff.mpr answers] at first
    cases first
    exact ⟨(Prod.mk.inj same).1, by simpa using (Prod.mk.inj same).2⟩

theorem names_identify_small :
    SameCi [chr 'a'] [chr 'A'] ∧
    ∃ e t, (findEntry 2 (padded 11 [chr 'A']) (some [chr 'a'])).run lone = some (some e, t) ∧
      e.goesBy [] [chr 'a'] := by
  obtain ⟨⟨e, t, runs⟩, alone⟩ := @lone_found [chr 'a'] (by decide +kernel)
  refine ⟨((names_identify_iff _).1 _ _ rfl rfl).mpr ⟨rfl, rfl⟩, e, t, runs, ?_⟩
  obtain ⟨k, slot, answers, rfl, same⟩ := (names_identify_iff (padded 11 [chr 'A'])).2 [chr 'a']
    [chr 'a'] (.component _) lone t 2 e runs
  obtain ⟨bytes, none'⟩ := alone k slot answers
  rw [none'] at same
  apply same.mpr
  have short : nameTo83 [chr 'a'] = some slot.entry.name := by
    rw [bytes]
    rfl
  simp only [Entry.distinct, Entry.longName, List.reverse_nil, unitsFrom, Option.map_none]
  rw [if_pos short]
  exact ⟨rfl, rfl, fun dot => absurd dot (by decide)⟩

/-- With a dot behind it the name is another one, and has the same eleven bytes. -/
theorem dot_matches :
    (¬ ∀ a b short : List Byte, nameTo83 a = some short → nameTo83 b = some short → SameCi a b) ∧
    ¬ ∀ typed short long : List Byte, Asked typed short long → ∀ (s t : Fs) (dir : Nat) (e : Entry),
      (findEntry dir short (some long)).run s = some (some e, t) →
      ∃ k slot, AnswersFirst short (some long) s.emptyLfn (s.readSlots dir) k slot ∧
        slot.entry = e ∧ e.goesBy (fragsBefore (s.readSlots dir) k) typed := by
  constructor
  · intro always
    exact absurd (always [chr 'A'] [chr 'A', chr '.'] _ rfl rfl) (by decide)
  · intro always
    obtain ⟨⟨e, t, runs⟩, alone⟩ := @lone_found [chr 'A', chr '.'] (by decide +kernel)
    obtain ⟨k, slot, answers, rfl, goes⟩ := always [chr 'A', chr '.'] _ _
      (.component _) lone t 2 e runs
    obtain ⟨bytes, none'⟩ := alone k slot answers
    have dotted : slot.entry.dotted = [chr 'A'] := by
      rw [Entry.dotted, bytes]
      rfl
    rw [none'] at goes
    simp only [Entry.goesBy, Entry.longName, List.reverse_nil, unitsFrom, Option.map_none, dotted] at goes
    exact absurd goes (by decide)

end Lone

end Ubiqos.Fat
