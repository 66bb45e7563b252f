import Mathlib.Data.List.Basic
import Mathlib.Data.List.Induction
import Mathlib.Data.BitVec

/-!
Paths on their way from a request to a volume: `make_abs` of `kernel/fsserver.c`
and `ubiqos_vfs_split` of `kernel/vfs.c`. A resolved path is a slash and its
components, and the split of one path is not the split of another.
-/

namespace Ubiqos.Io

abbrev Text := List (BitVec 8)

def slash : BitVec 8 := 0x2f
def dot : BitVec 8 := 0x2e

def dirnameMax : Nat := 65

/-- What `buf` of 128 bytes takes before a slash and the NUL. -/
def bufMax : Nat := 126

def startOf (cwd name : Text) : Text :=
  if name.head? = some slash then [slash]
  else if (cwd.take bufMax).getLast? = some slash then cwd.take bufMax
  else cwd.take bufMax ++ [slash]

def unwind : Text → Text
  | [] => []
  | [c] => [c]
  | c :: rest => if c = slash then c :: rest else unwind rest

def popPart (buf : Text) : Text :=
  if 1 < buf.length then (unwind buf.dropLast.reverse).reverse else buf

def pushPart (buf part : Text) : Text := buf ++ part.take (bufMax - buf.length) ++ [slash]

def walkPart (buf part : Text) : Text :=
  if bufMax ≤ buf.length then buf
  else
    let part := part.take (dirnameMax - 1)
    if part = [dot] then buf
    else if part = [dot, dot] then popPart buf
    else pushPart buf part

def trimmed (buf : Text) : Text :=
  if 1 < buf.length ∧ buf.getLast? = some slash then buf.dropLast else buf

def parts (name : Text) : List Text := (name.splitOn slash).filter (· ≠ [])

def makeAbs (cwd name : Text) : Text :=
  (trimmed ((parts name).foldl walkPart (startOf cwd name))).take 127

def vfsSplit (mounted : List Text) : Text → Option (Text × Text)
  | [] => none
  | c :: path =>
    let vol := (path.takeWhile (· ≠ slash)).take 11
    if c ≠ slash ∨ vol = [] ∨ vol ∉ mounted then none
    else some (vol, if path.drop vol.length = [] then [slash] else path.drop vol.length)

def Good (part : Text) : Prop := part ≠ [] ∧ slash ∉ part

def joined (ps : List Text) : Text := slash :: ps.flatMap (· ++ [slash])

def Absolute (path : Text) : Prop := ∃ ps, (∀ p ∈ ps, Good p) ∧ path = trimmed (joined ps)

section Shape
variable {ps : List Text} {part cwd name : Text}

theorem joined_snoc (ps : List Text) (part : Text) :
    joined (ps ++ [part]) = joined ps ++ part ++ [slash] := by
  simp [joined]

theorem joined_last (ps : List Text) : (joined ps).getLast? = some slash := by
  induction ps using List.reverseRecOn with
  | nil => rfl
  | append_singleton front last _ => simp [joined_snoc]

theorem joined_pos (ps : List Text) : 0 < (joined ps).length := by simp [joined]

theorem trimmed_joined_nil : trimmed (joined []) = [slash] := by decide

theorem trimmed_joined_snoc (ps : List Text) (part : Text) :
    trimmed (joined (ps ++ [part])) = joined ps ++ part := by
  have last := joined_last (ps ++ [part])
  have long : 1 < (joined (ps ++ [part])).length := by
    have := joined_pos ps
    simp only [joined_snoc, List.length_append, List.length_singleton]
    omega
  simp only [trimmed, long, last, and_self, if_true]
  rw [joined_snoc, List.dropLast_concat]

theorem trimmed_joined_some (ps : List Text) : trimmed (joined ps) ≠ [] := by
  induction ps using List.reverseRecOn with
  | nil => decide
  | append_singleton front last _ =>
    rw [trimmed_joined_snoc]
    simp [joined]

theorem unwind_skips {front back : Text} (plain : slash ∉ front) :
    unwind (front ++ slash :: back) = slash :: back := by
  induction front with
  | nil => cases back <;> simp [unwind]
  | cons c rest ih =>
    have other : c ≠ slash := fun same => plain (by simp [same])
    have later := ih (fun member => plain (List.mem_cons_of_mem c member))
    cases rest with
    | nil => simpa [unwind, other] using later
    | cons d rest => simpa [unwind, other] using later

theorem popPart_last (plain : slash ∉ part) : popPart (joined (ps ++ [part])) = joined ps := by
  have long : 1 < (joined (ps ++ [part])).length := by
    have := joined_pos ps
    simp only [joined_snoc, List.length_append, List.length_singleton]
    omega
  obtain ⟨before, ends⟩ := List.getLast?_eq_some_iff.mp (joined_last ps)
  simp only [popPart, if_pos long]
  rw [joined_snoc, List.dropLast_concat, List.reverse_append, ends, List.reverse_append,
    List.reverse_singleton, List.singleton_append, unwind_skips (by simpa using plain)]
  simp

theorem popPart_joined (good : ∀ p ∈ ps, Good p) : ∃ qs, (∀ p ∈ qs, Good p) ∧
    popPart (joined ps) = joined qs ∧ (joined qs).length ≤ (joined ps).length := by
  induction ps using List.reverseRecOn with
  | nil => exact ⟨[], by simp, by decide, Nat.le_refl _⟩
  | append_singleton front last _ =>
    refine ⟨front, fun p member => good p (by simp [member]), popPart_last (good last (by simp)).2, ?_⟩
    simp only [joined_snoc, List.length_append]
    omega

theorem walkPart_joined (good : ∀ p ∈ ps, Good p) (small : (joined ps).length ≤ 127)
    (next : Good part) : ∃ qs, (∀ p ∈ qs, Good p) ∧ walkPart (joined ps) part = joined qs ∧
      (joined qs).length ≤ 127 := by
  simp only [walkPart]
  split
  · exact ⟨ps, good, rfl, small⟩
  · rename_i room
    split
    · exact ⟨ps, good, rfl, small⟩
    · split
      · obtain ⟨qs, kept, same, shorter⟩ := popPart_joined good
        exact ⟨qs, kept, same, by omega⟩
      · refine ⟨ps ++ [(part.take (dirnameMax - 1)).take (bufMax - (joined ps).length)], ?_, ?_, ?_⟩
        · intro p member
          rcases List.mem_append.mp member with old | new
          · exact good p old
          · rw [List.mem_singleton.mp new]
            obtain ⟨some, plain⟩ := next
            constructor
            · intro none
              rw [List.take_take] at none
              rcases List.take_eq_nil_iff.mp none with zero | empty
              · simp only [dirnameMax, bufMax] at zero room
                omega
              · exact some empty
            · intro member
              exact plain (List.mem_of_mem_take (List.mem_of_mem_take member))
        · rw [joined_snoc]
          rfl
        · simp only [joined_snoc, List.length_append, List.length_singleton, List.length_take]
          simp only [bufMax] at room ⊢
          omega

theorem splitOn_plain (name : Text) : ∀ p ∈ name.splitOn slash, slash ∉ p := by
  induction name with
  | nil => simp
  | cons c rest ih =>
    rw [List.splitOn_cons_eq_if_modifyHead]
    split
    · intro p member
      rcases List.mem_cons.mp member with rfl | later
      · simp
      · exact ih p later
    · rename_i other
      cases pieces : rest.splitOn slash with
      | nil => simp
      | cons first more =>
        rw [pieces] at ih
        intro p member
        rw [List.modifyHead_cons] at member
        rcases List.mem_cons.mp member with rfl | later
        · intro inside
          rcases List.mem_cons.mp inside with same | inside
          · exact other (by simp [same])
          · exact ih first List.mem_cons_self inside
        · exact ih p (List.mem_cons_of_mem first later)

theorem good_parts (name : Text) : ∀ p ∈ parts name, Good p := by
  intro p member
  simp only [parts, List.mem_filter, decide_eq_true_eq] at member
  exact ⟨member.2, splitOn_plain name p member.1⟩

theorem joined_front (good : ∀ p ∈ ps, Good p) {front : Text} (begins : front <+: joined ps)
    (some : front ≠ []) : ∃ qs, (∀ p ∈ qs, Good p) ∧
      (front = joined qs ∨ front.getLast? ≠ Option.some slash ∧ front ++ [slash] = joined qs) := by
  induction ps using List.reverseRecOn with
  | nil =>
    rcases List.prefix_cons_iff.mp begins with none | ⟨rest, whole, inside⟩
    · exact absurd none some
    · exact ⟨[], by simp, .inl (by rw [whole, List.prefix_nil.mp inside]; rfl)⟩
  | append_singleton before last ih =>
    have earlier : ∀ p ∈ before, Good p := fun p member => good p (by simp [member])
    obtain ⟨_, plain⟩ := good last (by simp)
    rw [joined_snoc, List.append_assoc] at begins
    rcases List.prefix_or_prefix_of_prefix begins (List.prefix_append _ _) with early | ⟨piece, rfl⟩
    · exact ih earlier early
    · rw [List.prefix_append_right_inj] at begins
      rcases List.prefix_concat_iff.mp begins with whole | inside
      · exact ⟨before ++ [last], good, .inl (by rw [joined_snoc, whole, List.append_assoc])⟩
      · by_cases empty : piece = []
        · exact ⟨before, earlier, .inl (by rw [empty, List.append_nil])⟩
        · have next : Good piece := ⟨empty, fun member => plain (inside.subset member)⟩
          refine ⟨before ++ [piece], ?_, .inr ⟨?_, (joined_snoc before piece).symm⟩⟩
          · intro p member
            rcases List.mem_append.mp member with old | new
            · exact earlier p old
            · rw [List.mem_singleton.mp new]
              exact next
          · rw [List.getLast?_append_of_ne_nil _ empty]
            intro final
            exact next.2 (List.mem_of_getLast? final)

/-- A working directory as `chdir` leaves it: a path, or the first of one that was
refused. -/
def Settled (cwd : Text) : Prop := ∃ abs, Absolute abs ∧ cwd = abs.take 63

theorem Settled.short (settled : Settled cwd) : cwd.length ≤ 63 := by
  obtain ⟨abs, _, rfl⟩ := settled
  exact List.length_take_le 63 abs

theorem Settled.joined (settled : Settled cwd) : ∃ ps, (∀ p ∈ ps, Good p) ∧
    (cwd = joined ps ∨ cwd.getLast? ≠ some slash ∧ cwd ++ [slash] = joined ps) := by
  obtain ⟨abs, ⟨ps, good, rfl⟩, rfl⟩ := settled
  have begins : (trimmed (Io.joined ps)).take 63 <+: Io.joined ps := by
    apply (List.take_prefix _ _).trans
    simp only [trimmed]
    split
    · exact List.dropLast_prefix _
    · exact List.prefix_rfl
  apply joined_front good begins
  intro none
  rcases List.take_eq_nil_iff.mp none with zero | empty
  · exact absurd zero (by decide)
  · exact trimmed_joined_some ps empty

theorem startOf_joined (settled : Settled cwd) (name : Text) : ∃ ps, (∀ p ∈ ps, Good p) ∧
    startOf cwd name = joined ps ∧ (joined ps).length ≤ 127 := by
  have short := settled.short
  simp only [startOf]
  split
  · exact ⟨[], by simp, rfl, by decide⟩
  · have whole : cwd.take bufMax = cwd := by
      apply List.take_of_length_le
      simp only [bufMax]
      omega
    rw [whole]
    obtain ⟨ps, good, same | ⟨ends, same⟩⟩ := settled.joined
    · rw [if_pos (by rw [same, joined_last])]
      exact ⟨ps, good, same, by rw [← same]; omega⟩
    · rw [if_neg ends]
      refine ⟨ps, good, same, ?_⟩
      rw [← same, List.length_append, List.length_singleton]
      omega

theorem walk_joined {names : List Text} (good : ∀ p ∈ ps, Good p) (small : (joined ps).length ≤ 127)
    (next : ∀ p ∈ names, Good p) : ∃ qs, (∀ p ∈ qs, Good p) ∧
      names.foldl walkPart (joined ps) = joined qs ∧ (joined qs).length ≤ 127 := by
  induction names generalizing ps with
  | nil => exact ⟨ps, good, rfl, small⟩
  | cons part rest ih =>
    obtain ⟨qs, kept, same, bound⟩ := walkPart_joined good small (next part List.mem_cons_self)
    rw [List.foldl_cons, same]
    exact ih kept bound (fun p later => next p (List.mem_cons_of_mem part later))

theorem makeAbs_absolute (settled : Settled cwd) (name : Text) : Absolute (makeAbs cwd name) := by
  obtain ⟨ps, good, start, small⟩ := startOf_joined settled name
  obtain ⟨qs, kept, walked, bound⟩ := walk_joined good small (good_parts name)
  refine ⟨qs, kept, ?_⟩
  simp only [makeAbs, start, walked]
  apply List.take_of_length_le
  simp only [trimmed]
  split
  · simp only [List.length_dropLast]
    omega
  · exact bound

theorem absolute_ends {path : Text} (absolute : Absolute path) :
    path = [slash] ∨ path.getLast? ≠ some slash := by
  obtain ⟨ps, good, same⟩ := absolute
  induction ps using List.reverseRecOn with
  | nil =>
    left
    rw [same, trimmed_joined_nil]
  | append_singleton front last _ =>
    right
    rw [same, trimmed_joined_snoc, List.getLast?_append]
    obtain ⟨some, plain⟩ := good last (by simp)
    obtain ⟨c, final⟩ := Option.isSome_iff_exists.mp (List.getLast?_isSome.mpr some)
    have other : c ≠ slash := by
      rintro rfl
      exact plain (List.mem_of_getLast? final)
    simp [final, other]

theorem vfsSplit_path {mounted : List Text} {path vol rest : Text}
    (found : vfsSplit mounted path = some (vol, rest)) :
    path = slash :: vol ++ rest ∨ path = slash :: vol ∧ rest = [slash] := by
  cases path with
  | nil => simp [vfsSplit] at found
  | cons c path =>
    simp only [vfsSplit] at found
    split at found
    · cases found
    · rename_i valid
      simp only [not_or, not_not] at valid
      obtain ⟨rfl, _, _⟩ := valid
      simp only [Option.some.injEq, Prod.mk.injEq] at found
      obtain ⟨volume, rest'⟩ := found
      have front : path = vol ++ path.drop vol.length := by
        have isPrefix : vol <+: path := by
          rw [← volume]
          exact (List.take_prefix _ _).trans (List.takeWhile_prefix _)
        obtain ⟨back, whole⟩ := isPrefix
        rw [← whole, List.drop_left]
      rw [volume] at rest'
      split at rest'
      · rename_i bare
        right
        rw [bare, List.append_nil] at front
        exact ⟨by rw [front], rest'.symm⟩
      · left
        rw [← rest', List.cons_append, ← front]

theorem vfsSplit_injective {mounted : List Text} {a b : Text} {found : Text × Text}
    (left : Absolute a) (right : Absolute b) (here : vfsSplit mounted a = some found)
    (there : vfsSplit mounted b = some found) : a = b := by
  obtain ⟨vol, rest⟩ := found
  have bare : ∀ {c : Text}, Absolute c → c ≠ slash :: vol ++ [slash] := by
    intro c absolute same
    rcases absolute_ends absolute with root | plain
    · rw [root] at same
      simp at same
    · exact plain (by rw [same, List.getLast?_append]; simp)
  rcases vfsSplit_path here with one | ⟨one, dir⟩ <;> rcases vfsSplit_path there with two | ⟨two, dir'⟩
  · rw [one, two]
  · subst dir'
    exact absurd one (bare left)
  · subst dir
    exact absurd two (bare right)
  · rw [one, two]

end Shape

end Ubiqos.Io
