import Ubiqos.Io.Resolve

/-!
What `make_abs` computes: the components one after another, with `.` dropped and `..`
taking one away. A component is cut to what a name may be; what becomes of a path that
fills the buffer is left out.
-/

namespace Ubiqos.Io

/-- The component `part` below the components of `stack`. -/
def descend (stack : List Text) (part : Text) : List Text :=
  if part = [dot] then stack
  else if part = [dot, dot] then stack.dropLast
  else stack ++ [part]

def rendered : List Text → Text
  | [] => [slash]
  | part :: rest => (part :: rest).flatMap (slash :: ·)

def origin (cwd name : Text) : List Text := if name.head? = some slash then [] else parts cwd

/-- A component is cut to what `comp` holds. -/
def cut (part : Text) : Text := part.take (dirnameMax - 1)

/-- The lexical normalisation of a name, its components taken as `shape` leaves them. -/
def normal (shape : Text → Text) (cwd name : Text) : List Text :=
  ((parts name).map shape).foldl descend (origin cwd name)

def Roomy : List Text → List Text → Prop
  | _, [] => True
  | stack, part :: rest =>
    (rendered stack).length + 1 < bufMax ∧ (rendered (descend stack part)).length ≤ bufMax ∧
      Roomy (descend stack part) rest

/-- The directories `make_abs` comes to from the root. -/
inductive Produced : Text → Prop
  | root : Produced [slash]
  | resolved {cwd : Text} (name : Text) : Produced cwd → Produced (makeAbs cwd name)

instance decidableRoomy : ∀ stack names, Decidable (Roomy stack names)
  | _, [] => isTrue trivial
  | stack, part :: rest =>
    have := decidableRoomy (descend stack part) rest
    inferInstanceAs (Decidable (_ ∧ _ ∧ _))

section Stack
variable {ps qs : List Text} {part cwd name : Text}

theorem rendered_joined (ps : List Text) : rendered ps ++ [slash] = joined ps ∨ ps = [] := by
  cases ps with
  | nil => exact .inr rfl
  | cons first rest =>
    left
    have moved : ∀ qs : List Text, qs.flatMap (slash :: ·) ++ [slash] = slash :: qs.flatMap (· ++ [slash]) := by
      intro qs
      induction qs with
      | nil => rfl
      | cons q qs ih =>
        rw [List.flatMap_cons, List.flatMap_cons, List.append_assoc, ih]
        simp
    exact moved (first :: rest)

theorem trimmed_rendered (ps : List Text) : trimmed (joined ps) = rendered ps := by
  rcases rendered_joined ps with same | rfl
  · have last := joined_last ps
    have some : rendered ps ≠ [] := by
      cases ps with
      | nil => simp [rendered]
      | cons first rest => simp [rendered]
    have long : 1 < (joined ps).length := by
      have := List.length_pos_of_ne_nil some
      rw [← same, List.length_append, List.length_singleton]
      omega
    rw [trimmed, if_pos ⟨long, last⟩, ← same, List.dropLast_concat]
  · exact trimmed_joined_nil

theorem joined_length (ps : List Text) : (joined ps).length ≤ (rendered ps).length + 1 := by
  rcases rendered_joined ps with same | rfl
  · rw [← same, List.length_append, List.length_singleton]
  · decide

theorem parts_rendered (good : ∀ p ∈ ps, Good p) : parts (rendered ps) = ps := by
  cases ps with
  | nil => decide
  | cons first rest =>
    have between : ∀ qs : List Text, qs ≠ [] →
        [slash].intercalate ([] :: qs) = qs.flatMap (slash :: ·) := by
      intro qs some
      induction qs with
      | nil => exact absurd rfl some
      | cons q qs ih =>
        rw [List.intercalate_cons_cons, List.flatMap_cons]
        cases qs with
        | nil => simp
        | cons q' qs =>
          have later := ih (by simp)
          rw [List.intercalate_cons_cons] at later ⊢
          simpa using later
    have plain : ∀ p ∈ [] :: first :: rest, slash ∉ p := by
      intro p member
      rcases List.mem_cons.mp member with rfl | member
      · simp
      · exact (good p member).2
    have kept : ∀ p ∈ first :: rest, decide (p ≠ []) = true := by
      intro p member
      exact decide_eq_true (good p member).1
    rw [parts, rendered, ← between _ (by simp), List.splitOn_intercalate _ plain (by simp),
      List.filter_cons_of_neg (by simp), List.filter_eq_self.mpr kept]

theorem rendered_injective (good : ∀ p ∈ ps, Good p) (good' : ∀ p ∈ qs, Good p)
    (same : rendered ps = rendered qs) : ps = qs := by
  rw [← parts_rendered good, same, parts_rendered good']

theorem cut_good (good : Good part) : Good (cut part) := by
  obtain ⟨some, plain⟩ := good
  refine ⟨?_, fun member => plain (List.mem_of_mem_take member)⟩
  intro none
  rcases List.take_eq_nil_iff.mp none with zero | empty
  · exact absurd zero (by decide)
  · exact some empty

theorem descend_good (good : ∀ p ∈ ps, Good p) (next : Good part) : ∀ p ∈ descend ps part, Good p := by
  simp only [descend]
  split
  · exact good
  · split
    · exact fun p member => good p (List.mem_of_mem_dropLast member)
    · intro p member
      rcases List.mem_append.mp member with old | new
      · exact good p old
      · rw [List.mem_singleton.mp new]
        exact next

theorem walked_good {names : List Text} (good : ∀ p ∈ ps, Good p) (next : ∀ p ∈ names, Good p) :
    ∀ p ∈ names.foldl descend ps, Good p := by
  induction names generalizing ps with
  | nil => exact good
  | cons part rest ih =>
    exact ih (descend_good good (next part List.mem_cons_self))
      (fun p later => next p (List.mem_cons_of_mem part later))

theorem popPart_dropLast (good : ∀ p ∈ ps, Good p) : popPart (joined ps) = joined ps.dropLast := by
  induction ps using List.reverseRecOn with
  | nil => decide
  | append_singleton front last _ =>
    rw [List.dropLast_concat]
    exact popPart_last (good last (by simp)).2

theorem walkPart_cut (buf part : Text) : walkPart buf part =
    if bufMax ≤ buf.length then buf
    else if cut part = [dot] then buf
    else if cut part = [dot, dot] then popPart buf
    else pushPart buf (cut part) := rfl

theorem walkPart_descend (good : ∀ p ∈ ps, Good p) (room : (rendered ps).length + 1 < bufMax)
    (fits : (rendered (descend ps (cut part))).length ≤ bufMax) :
    walkPart (joined ps) part = joined (descend ps (cut part)) := by
  have length := joined_length ps
  rw [walkPart_cut, if_neg (show ¬ bufMax ≤ (joined ps).length by omega)]
  generalize cut part = comp at fits ⊢
  by_cases here : comp = [dot]
  · rw [if_pos here, descend, if_pos here]
  · rw [if_neg here]
    by_cases up : comp = [dot, dot]
    · rw [if_pos up, descend, if_neg here, if_pos up]
      exact popPart_dropLast good
    · rw [descend, if_neg here, if_neg up, ← trimmed_rendered, trimmed_joined_snoc,
        List.length_append] at fits
      rw [if_neg up, descend, if_neg here, if_neg up, joined_snoc, pushPart,
        List.take_of_length_le (by omega)]

theorem walk_descend {names : List Text} (good : ∀ p ∈ ps, Good p) (next : ∀ p ∈ names, Good p)
    (fits : Roomy ps (names.map cut)) :
    names.foldl walkPart (joined ps) = joined ((names.map cut).foldl descend ps) := by
  induction names generalizing ps with
  | nil => rfl
  | cons part rest ih =>
    obtain ⟨room, fit, later⟩ := fits
    rw [List.foldl_cons, walkPart_descend good room fit]
    exact ih (descend_good good (cut_good (next part List.mem_cons_self)))
      (fun p member => next p (List.mem_cons_of_mem part member)) later

def Directory (cwd : Text) : Prop :=
  ∃ ps, (∀ p ∈ ps, Good p) ∧ cwd = rendered ps ∧ (joined ps).length ≤ 127

theorem directory_start (directory : Directory cwd) (name : Text) :
    (∀ p ∈ origin cwd name, Good p) ∧ startOf cwd name = joined (origin cwd name) ∧
      (joined (origin cwd name)).length ≤ 127 := by
  obtain ⟨ps, good, rfl, small⟩ := directory
  simp only [startOf, origin]
  split
  · exact ⟨by simp, rfl, by decide⟩
  · rw [parts_rendered good]
    refine ⟨good, ?_, small⟩
    induction ps using List.reverseRecOn with
    | nil => decide
    | append_singleton front last _ =>
      have absolute : Absolute (rendered (front ++ [last])) := ⟨_, good, (trimmed_rendered _).symm⟩
      have path : rendered (front ++ [last]) = joined front ++ last := by
        rw [← trimmed_rendered, trimmed_joined_snoc]
      have whole : (rendered (front ++ [last])).take bufMax = rendered (front ++ [last]) := by
        apply List.take_of_length_le
        rw [joined_snoc, List.length_append, List.length_singleton, ← path] at small
        simp only [bufMax]
        omega
      have ends : (rendered (front ++ [last])).getLast? ≠ some slash := by
        rcases absolute_ends absolute with root | plain
        · have named := (good last (by simp)).1
          have longer := joined_pos front
          rw [path] at root
          have one := congrArg List.length root
          have := List.length_pos_of_ne_nil named
          rw [List.length_append, List.length_singleton] at one
          omega
        · exact plain
      rw [whole, if_neg ends, path, ← joined_snoc]

theorem makeAbs_walked (directory : Directory cwd) (name : Text) : ∃ qs, (∀ p ∈ qs, Good p) ∧
    (parts name).foldl walkPart (startOf cwd name) = joined qs ∧ makeAbs cwd name = rendered qs ∧
      (joined qs).length ≤ 127 := by
  obtain ⟨good, start, small⟩ := directory_start directory name
  obtain ⟨qs, kept, walked, bound⟩ := walk_joined good small (good_parts name)
  rw [← start] at walked
  refine ⟨qs, kept, walked, ?_, bound⟩
  rw [makeAbs, walked, trimmed_rendered]
  apply List.take_of_length_le
  rw [← trimmed_rendered, trimmed]
  split
  · rw [List.length_dropLast]
    omega
  · exact bound

theorem Produced.directory (produced : Produced cwd) : Directory cwd := by
  induction produced with
  | root => exact ⟨[], by simp, rfl, by decide⟩
  | resolved name _ ih =>
    obtain ⟨qs, kept, _, same, bound⟩ := makeAbs_walked ih name
    exact ⟨qs, kept, same, bound⟩

theorem makeAbs_rendered (produced : Produced cwd)
    (fits : Roomy (origin cwd name) ((parts name).map cut)) :
    makeAbs cwd name = rendered (normal cut cwd name) ∧ ∀ p ∈ normal cut cwd name, Good p := by
  have directory := produced.directory
  obtain ⟨good, start, _⟩ := directory_start directory name
  have named := good_parts name
  obtain ⟨qs, kept, walked, same, _⟩ := makeAbs_walked directory name
  rw [start, walk_descend good named fits] at walked
  have all : ∀ p ∈ normal cut cwd name, Good p := by
    apply walked_good good
    intro p member
    obtain ⟨q, inside, rfl⟩ := List.mem_map.mp member
    exact cut_good (named q inside)
  refine ⟨?_, all⟩
  rw [same, ← trimmed_rendered, ← walked, trimmed_rendered]
  rfl

/-- A name whose components find room comes to its normal path, with each component cut;
and to another normal path no other such name comes, from whatever directory. -/
theorem makeAbs_normal (produced : Produced cwd)
    (fits : Roomy (origin cwd name) ((parts name).map cut)) :
    makeAbs cwd name = rendered (normal cut cwd name) ∧
      ∀ cwd' name', Produced cwd' → Roomy (origin cwd' name') ((parts name').map cut) →
        normal cut cwd' name' ≠ normal cut cwd name → makeAbs cwd' name' ≠ makeAbs cwd name := by
  obtain ⟨same, good⟩ := makeAbs_rendered produced fits
  refine ⟨same, ?_⟩
  intro cwd' name' produced' fits' differ equal
  obtain ⟨same', good'⟩ := makeAbs_rendered produced' fits'
  rw [same, same'] at equal
  exact differ (rendered_injective good' good equal)

/-- From `/sd/a` down to `b`, whose name is one byte more than a name may have. -/
theorem makeAbs_normal_up :
    Produced (makeAbs [slash] [slash, 0x73, 0x64, slash, 0x61]) ∧
      (makeAbs (makeAbs [slash] [slash, 0x73, 0x64, slash, 0x61])
          ([dot, dot, slash, slash] ++ List.replicate 65 0x62 ++ [slash, dot]) =
        rendered (normal cut (makeAbs [slash] [slash, 0x73, 0x64, slash, 0x61])
          ([dot, dot, slash, slash] ++ List.replicate 65 0x62 ++ [slash, dot])) ∧
      ∀ cwd' name', Produced cwd' → Roomy (origin cwd' name') ((parts name').map cut) →
        normal cut cwd' name' ≠ normal cut (makeAbs [slash] [slash, 0x73, 0x64, slash, 0x61])
          ([dot, dot, slash, slash] ++ List.replicate 65 0x62 ++ [slash, dot]) →
        makeAbs cwd' name' ≠ makeAbs (makeAbs [slash] [slash, 0x73, 0x64, slash, 0x61])
          ([dot, dot, slash, slash] ++ List.replicate 65 0x62 ++ [slash, dot])) :=
  ⟨.resolved _ .root, makeAbs_normal (.resolved _ .root) (by decide +kernel)⟩

/-- Two names that differ behind sixty-four bytes of a component come to one path, which
is the normal path of neither. -/
theorem long_names_alike : Produced [slash] ∧
    normal id [slash] (slash :: List.replicate 65 0x61) ≠
      normal id [slash] (slash :: List.replicate 66 0x61) ∧
    makeAbs [slash] (slash :: List.replicate 65 0x61) = makeAbs [slash] (slash :: List.replicate 66 0x61) ∧
    makeAbs [slash] (slash :: List.replicate 65 0x61) ≠
      rendered (normal id [slash] (slash :: List.replicate 65 0x61)) :=
  ⟨.root, by decide +kernel, by decide +kernel, by decide +kernel⟩

end Stack

end Ubiqos.Io
