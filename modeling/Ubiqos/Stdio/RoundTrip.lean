import Ubiqos.Stdio.Scanf

/-!
What comes of a format in a stream and in a buffer. The count of the sink has 32 bits, and a buffer is
right as long as the count has not gone round.
-/

namespace Ubiqos.Stdio

open Function

section Streams
variable {T : Type} (fputc : T → Byte → T)

theorem put_stream (f : T) (cap len : U32) (out : List Byte) :
    out.foldl (ubiqosPut fputc) ⟨some f, none, cap, len⟩ =
      ⟨some (out.foldl fputc f), none, cap, len + BitVec.ofNat 32 out.length⟩ := by
  induction out generalizing f len with
  | nil => simp
  | cons c out ih =>
    rw [List.foldl_cons, List.foldl_cons, List.length_cons, Nat.add_comm, BitVec.ofNat_add,
      ← BitVec.add_assoc]
    exact ih (fputc f c) (len + 1)

theorem put_counts (k : Sink T) (out : List Byte) :
    (out.foldl (ubiqosPut fputc) k).len = k.len + BitVec.ofNat 32 out.length := by
  induction out generalizing k with
  | nil => simp
  | cons c out ih =>
    have one : (ubiqosPut fputc k c).len = k.len + 1 := by
      simp only [ubiqosPut]
      split
      · rfl
      · split <;> rfl
      · rfl
    rw [List.foldl_cons, ih, one, List.length_cons, Nat.add_comm out.length, BitVec.ofNat_add,
      ← BitVec.add_assoc]
    rfl

theorem put_nowhere (cap len : U32) (out : List Byte) :
    (out.foldl (ubiqosPut fputc) ⟨none, none, cap, len⟩).buf = none := by
  induction out generalizing len with
  | nil => rfl
  | cons c out ih => exact ih (len + 1)

theorem put_buffer (buf : U32 → Byte) (cap len : U32) (out : List Byte)
    (short : len.toNat + out.length < 2 ^ 32) :
    out.foldl (ubiqosPut fputc) ⟨none, some buf, cap, len⟩ =
      ⟨none, some fun place =>
        if len.toNat ≤ place.toNat ∧ place.toNat + 1 < cap.toNat then
          (out[place.toNat - len.toNat]?).getD (buf place)
        else buf place, cap, len + BitVec.ofNat 32 out.length⟩ := by
  induction out generalizing buf len with
  | nil => simp
  | cons c out ih =>
    rw [List.length_cons] at short
    have next : (len + 1).toNat = len.toNat + 1 := by
      rw [BitVec.toNat_add]
      exact Nat.mod_eq_of_lt (by change len.toNat + 1 < 2 ^ 32; omega)
    have back : len + 1 - 1 = len := BitVec.add_sub_cancel len 1
    have count : len + 1 + BitVec.ofNat 32 out.length = len + BitVec.ofNat 32 (c :: out).length := by
      rw [List.length_cons, Nat.add_comm out.length, BitVec.ofNat_add, ← BitVec.add_assoc]
      rfl
    rw [List.foldl_cons]
    by_cases room : len + 1 < cap
    · have put : ubiqosPut fputc ⟨none, some buf, cap, len⟩ c =
          ⟨none, some (update buf len c), cap, len + 1⟩ := by
        simp only [ubiqosPut, if_pos room, back]
      rw [BitVec.lt_def, next] at room
      rw [put, ih (update buf len c) (len + 1) (by omega), next, count]
      congr 2
      funext place
      rcases Nat.lt_trichotomy place.toNat len.toNat with before | here | after
      · have other : place ≠ len := fun same => by rw [same] at before; omega
        simp [Nat.not_le.mpr before, Nat.not_le.mpr (Nat.lt_succ_of_lt before), update_of_ne other]
      · have same : place = len := BitVec.eq_of_toNat_eq here
        simp [same, room]
      · have other : place ≠ len := fun same => by rw [same] at after; omega
        have further : place.toNat - len.toNat = place.toNat - (len.toNat + 1) + 1 := by omega
        simp [after.le, Nat.succ_le_of_lt after, further, update_of_ne other]
    · have put : ubiqosPut fputc ⟨none, some buf, cap, len⟩ c = ⟨none, some buf, cap, len + 1⟩ := by
        simp only [ubiqosPut, if_neg room]
      rw [BitVec.lt_def, next] at room
      rw [put, ih buf (len + 1) (by omega), next, count]
      congr 2
      funext place
      rw [if_neg (by omega), if_neg (by omega)]

end Streams

def stored (buf : U32 → Byte) (cap : U32) (out : List Byte) : U32 → Byte := fun place =>
  let n := min out.length (cap.toNat - 1)
  if cap = 0 then buf place
  else if place.toNat < n then out.getD place.toNat 0
  else if place.toNat = n then 0
  else buf place

theorem terminated (buf : U32 → Byte) (cap : U32) (out : List Byte) (some : cap ≠ 0)
    (count : (BitVec.ofNat 32 out.length).toNat = out.length) :
    update (fun place => if (0 : U32).toNat ≤ place.toNat ∧ place.toNat + 1 < cap.toNat then
        (out[place.toNat - (0 : U32).toNat]?).getD (buf place) else buf place)
      (if BitVec.ofNat 32 out.length < cap then BitVec.ofNat 32 out.length else cap - 1) 0 =
        stored buf cap out := by
  have positive : cap.toNat ≠ 0 := fun zero => some (BitVec.eq_of_toNat_eq zero)
  have last : (if BitVec.ofNat 32 out.length < cap then BitVec.ofNat 32 out.length else cap - 1).toNat =
      min out.length (cap.toNat - 1) := by
    split
    · rename_i fits
      rw [BitVec.lt_def, count] at fits
      omega
    · rename_i full
      rw [BitVec.lt_def, count] at full
      have less : (cap - 1).toNat = cap.toNat - 1 := by
        have one : (1 : U32) ≤ cap := by
          change (1 : U32).toNat ≤ cap.toNat
          exact Nat.one_le_iff_ne_zero.mpr positive
        exact BitVec.toNat_sub_of_le one
      omega
  generalize (if BitVec.ofNat 32 out.length < cap then BitVec.ofNat 32 out.length else cap - 1) = at' at last ⊢
  funext place
  simp only [stored, if_neg some, ← last]
  have zero : (0 : U32).toNat = 0 := rfl
  rcases Nat.lt_trichotomy place.toNat at'.toNat with before | here | after
  · have other : place ≠ at' := fun same => by rw [same] at before; omega
    rw [update_of_ne other, if_pos before, if_pos (by omega), zero, Nat.sub_zero,
      List.getD_eq_getElem?_getD, List.getElem?_eq_getElem (by omega)]
    rfl
  · have same : place = at' := BitVec.eq_of_toNat_eq here
    rw [same, update_self, if_neg (lt_irrefl _), if_pos rfl]
  · have other : place ≠ at' := fun same => by rw [same] at after; omega
    have beyond : ¬ place.toNat < at'.toNat := Nat.not_lt.mpr after.le
    rw [update_of_ne other, if_neg beyond, if_neg after.ne']
    split
    · rw [List.getElem?_eq_none (by omega)]
      rfl
    · rfl

section Buffers
variable {fmt : List Byte} {ap : List Arg} {tmp : Tmp} {out : List Byte}

theorem vfprintf_prints {D : Type} (kernel : Kernel D) (f : Stream D)
    (prints : printed fmt ap tmp = some out) (stack : Tmp) :
    vfprintf kernel f fmt ap stack =
      some (out.foldl (fun f c => (fputc kernel c.toNat f).1) f, BitVec.ofNat 32 out.length) := by
  rw [vfprintf, vfprintfSink_stack _ stack tmp, vfprintfSink_printed, prints, Option.map_some, put_stream]
  simp

theorem vsnprintf_counts (buf : Option (U32 → Byte)) (cap : U32) (prints : printed fmt ap tmp = some out)
    (stack : Tmp) :
    (vsnprintf buf cap fmt ap stack).map Prod.snd = some (BitVec.ofNat 32 out.length) := by
  rw [vsnprintf, vfprintfSink_stack _ stack tmp, vfprintfSink_printed, prints, Option.map_some,
    Option.map_some, Option.map_some, put_counts]
  simp

theorem vsnprintf_stores (buf : Option (U32 → Byte)) (cap : U32) (prints : printed fmt ap tmp = some out)
    (stack : Tmp) (short : out.length < 2 ^ 32) :
    vsnprintf buf cap fmt ap stack =
      some (buf.map fun buf => stored buf cap out, BitVec.ofNat 32 out.length) := by
  have count : (BitVec.ofNat 32 out.length).toNat = out.length := by
    rw [BitVec.toNat_ofNat, Nat.mod_eq_of_lt short]
  rw [vsnprintf, vfprintfSink_stack _ stack tmp, vfprintfSink_printed, prints, Option.map_some,
    Option.map_some, put_counts]
  have start : ∀ n : U32, 0 + n = n := BitVec.zero_add
  simp only [start]
  congr 2
  cases buf with
  | none => simp [put_nowhere]
  | some buf =>
    rw [put_buffer _ buf cap 0 out (by simpa using short)]
    simp only [Option.map_some]
    by_cases some' : cap = 0
    · rw [if_neg (not_not.mpr some')]
      congr 1
      funext place
      simp [some', stored]
    · rw [if_pos some']
      exact congrArg some (terminated buf cap out some' count)

def Faithful (buf : Option (U32 → Byte)) (cap : U32) (fmt : List Byte) (ap : List Arg) (stack : Tmp)
    (out : List Byte) : Prop :=
  ∃ r, vsnprintf buf cap fmt ap stack = some r ∧ r.1 = buf.map (fun buf => stored buf cap out) ∧
    r.2.toInt = out.length

theorem faithful_iff (buf : Option (U32 → Byte)) (cap : U32) (prints : printed fmt ap tmp = some out)
    (stack : Tmp) : Faithful buf cap fmt ap stack out ↔ out.length < 2 ^ 31 := by
  constructor
  · rintro ⟨r, -, -, count⟩
    have range := BitVec.toInt_lt (x := r.2)
    omega
  · intro short
    exact ⟨_, vsnprintf_stores buf cap prints stack (by omega), rfl, toInt_ofNat short⟩

theorem vsnprintf_before (buf : U32 → Byte) {cap : U32} (some' : cap ≠ 0) {front back : List Byte} {c : Byte}
    (prints : printed fmt ap tmp = some (front ++ c :: back)) (stack : Tmp)
    (all : front.length = 2 ^ 32 - 1) (short : back.length < 2 ^ 32) :
    ∃ after n, vsnprintf (some buf) cap fmt ap stack = some (some after, n) ∧ after (-1) = c := by
  have last : (-1 : U32).toNat = 2 ^ 32 - 1 := rfl
  have size := cap.isLt
  have counted : (0 : U32) + BitVec.ofNat 32 front.length = -1 := by
    rw [all]
    rfl
  have inside : (0 : U32) < cap := by
    rw [BitVec.lt_def]
    exact Nat.pos_of_ne_zero fun zero => some' (BitVec.eq_of_toNat_eq zero)
  have put : ∀ buf : U32 → Byte, ubiqosPut Empty.elim ⟨none, some buf, cap, -1⟩ c =
      ⟨none, some (update buf (-1) c), cap, 0⟩ := by
    intro buf
    have turns : (-1 : U32) + 1 = 0 := rfl
    have back : (0 : U32) - 1 = -1 := rfl
    simp only [ubiqosPut, turns, back, if_pos inside]
  have beyond : ¬ ((0 : U32).toNat ≤ (-1 : U32).toNat ∧ (-1 : U32).toNat + 1 < cap.toNat) := by
    rw [last]
    omega
  rw [vsnprintf, vfprintfSink_stack _ stack tmp, vfprintfSink_printed, prints, Option.map_some,
    Option.map_some, List.foldl_append, put_buffer _ buf cap 0 front (by rw [all]; decide), counted,
    List.foldl_cons, put, put_buffer _ _ cap 0 back (by simpa using short)]
  simp only [if_pos some', Option.map_some]
  refine ⟨_, _, rfl, ?_⟩
  rw [update_of_ne, if_neg beyond, update_self]
  -- the zero goes inside the buffer
  split
  · rename_i fits
    intro same
    rw [BitVec.lt_def, ← same, last] at fits
    omega
  · intro same
    have back : cap = 0 := by
      have whole := congrArg (· + 1) same
      simpa using whole.symm
    exact some' back

end Buffers

end Ubiqos.Stdio

/-!
A number that was printed by itself and is scanned again. It comes back as long as its sign and its digits,
with the zeros before them, are no more than the scanner takes for one number.
-/

namespace Ubiqos.Stdio

open Function Numerals

section Layouts

theorem foldl_add (out text : List Byte) : text.foldl (fun out c => out ++ [c]) out = out ++ text := by
  induction text generalizing out with
  | nil => exact (List.append_nil out).symm
  | cons c text ih => rw [List.foldl_cons, ih, List.append_assoc]; rfl

theorem pad_add (out : List Byte) (n : U32) (c : Byte) :
    pad (fun out c => out ++ [c]) out n c = out ++ List.replicate n.toInt.toNat c := foldl_add _ _

def signSeen (f : Flags) (neg : Bool) : Option Bool :=
  if neg then some true else if f.plus then some false else none

def blankSign (f : Flags) (neg : Bool) : Nat := if ¬ neg ∧ ¬ f.plus ∧ f.space then 1 else 0

theorem sign_text (f : Flags) (neg : Bool) :
    (if signOf f neg ≠ 0 then [signOf f neg] else []) =
      List.replicate (blankSign f neg) (ch ' ') ++ signText (signSeen f neg) := by
  cases f with
  | mk left zero plus space => cases neg <;> cases plus <;> cases space <;> rfl

theorem emit_layout {base : U32} {neg : Bool} {v : U32} {tmp : Tmp} {t : Converted}
    (number : Number base false neg v tmp t) (f : Flags) (width : U32) :
    ∃ lead zeros trail, emit (fun out c => out ++ [c]) [] f width t =
      layout lead (signSeen f neg) (List.replicate zeros 0 ++ write base.toNat v.toNat) trail := by
  have text : (List.range t.n.toInt.toNat).map t.str = (write base.toNat v.toNat).map (digit false) := number.text
  have sign := sign_text f neg
  have put : ∀ out : List Byte, (if signOf f neg ≠ 0 then out ++ [signOf f neg] else out) =
      out ++ (List.replicate (blankSign f neg) (ch ' ') ++ signText (signSeen f neg)) := by
    intro out
    rw [← sign]
    split
    · rfl
    · exact (List.append_nil out).symm
  generalize count : (width - (t.n + if signOf f neg ≠ 0 then 1 else 0)).toInt.toNat = p
  have zeros : (List.replicate p 0).map (digit false) = List.replicate p (ch '0') := List.map_replicate
  simp only [emit, number.neg, pad_add, foldl_add, text, put, count]
  cases left : f.left with
  | true =>
    refine ⟨blankSign f neg, 0, p, ?_⟩
    simp [layout]
  | false =>
    cases zero : f.zero with
    | true =>
      refine ⟨blankSign f neg, p, 0, ?_⟩
      simp [layout, zeros]
    | false =>
      refine ⟨p + blankSign f neg, 0, 0, ?_⟩
      rw [layout, ← List.replicate_append_replicate]
      simp [-List.replicate_append_replicate]

def inked (text : List Byte) : List Byte := text.filter fun c => c ≠ ch ' '

theorem digit_ink {d : Nat} (small : d < 16) : digit false d ≠ ch ' ' ∧ digit false d ≠ 0 := by
  interval_cases d <;> decide

theorem length_inked (lead : Nat) (sign : Option Bool) {digits : List Nat} (small : ∀ d ∈ digits, d < 16)
    (trail : Nat) :
    (inked (layout lead sign digits trail)).length = (signText sign).length + digits.length := by
  have blanks : ∀ n, inked (List.replicate n (ch ' ')) = [] := by
    intro n
    exact List.filter_eq_nil_iff.mpr fun c member => by simp [List.eq_of_mem_replicate member]
  have signs : inked (signText sign) = signText sign := by
    cases sign with
    | none => rfl
    | some neg => cases neg <;> rfl
  have inks : inked (digits.map (digit false)) = digits.map (digit false) := by
    refine List.filter_eq_self.mpr fun c member => ?_
    obtain ⟨d, here, rfl⟩ := List.mem_map.mp member
    simpa using (digit_ink (small d here)).1
  simp only [inked, layout, List.filter_append] at blanks signs inks ⊢
  rw [blanks, blanks, signs, inks]
  simp

theorem layout_text (lead : Nat) (sign : Option Bool) {digits : List Nat} (small : ∀ d ∈ digits, d < 16)
    (trail : Nat) : ∀ c ∈ layout lead sign digits trail, c ≠ 0 := by
  intro c member
  simp only [layout, List.mem_append, List.mem_map] at member
  rcases member with here | here | ⟨d, here, rfl⟩ | here
  · rw [List.eq_of_mem_replicate here]
    decide
  · cases sign with
    | none => simp [signText] at here
    | some neg =>
      rw [List.mem_singleton.mp here]
      cases neg <;> decide
  · exact (digit_ink (small d here)).2
  · rw [List.eq_of_mem_replicate here]
    decide

end Layouts

theorem reads_stored (buf : U32 → Byte) {cap : U32} (front back : List Byte)
    (fits : (front ++ back).length < cap.toNat) (text : ∀ c ∈ back, c ≠ 0) :
    Spells (stored buf cap (front ++ back)) (BitVec.ofNat 32 front.length) back := by
  have size := cap.isLt
  have some : cap ≠ 0 := fun zero => by rw [zero] at fits; exact absurd fits (Nat.not_lt_zero _)
  have least : min (front ++ back).length (cap.toNat - 1) = (front ++ back).length := by omega
  induction back generalizing front with
  | nil =>
    rw [List.append_nil] at fits least ⊢
    have place : (BitVec.ofNat 32 front.length).toNat = front.length := by
      rw [BitVec.toNat_ofNat, Nat.mod_eq_of_lt (by omega)]
    change stored buf cap front (BitVec.ofNat 32 front.length) = 0
    simp only [stored, if_neg some, least, place, lt_irrefl, if_false, if_true]
  | cons c back ih =>
    have inside : front.length < (front ++ c :: back).length := by simp
    have place : (BitVec.ofNat 32 front.length).toNat = front.length := by
      rw [BitVec.toNat_ofNat, Nat.mod_eq_of_lt (by omega)]
    have here : stored buf cap (front ++ c :: back) (BitVec.ofNat 32 front.length) = c := by
      simp only [stored, if_neg some, least, place, if_pos inside]
      simp
    have whole : front ++ c :: back = (front ++ [c]) ++ back := by simp
    have next : BitVec.ofNat 32 front.length + 1 = BitVec.ofNat 32 (front ++ [c]).length := by
      rw [List.length_append, List.length_singleton, BitVec.ofNat_add]
      rfl
    refine ⟨here, text c List.mem_cons_self, ?_⟩
    rw [next, whole]
    rw [whole] at fits least
    exact ih (front ++ [c]) fits (fun b member => text b (List.mem_cons_of_mem c member)) least

/-- A width that stands in the format or comes as an argument; one that stands there begins with no zero,
which is a flag. -/
inductive Width
  | digits (ds : List Byte)
  | star (w : U32)

def Width.text : Width → List Byte
  | .digits ds => ds
  | .star _ => [ch '*']

def Width.args : Width → List Arg
  | .digits _ => []
  | .star w => [.word w]

def Width.Proper : Width → Prop
  | .digits ds => (∀ d ∈ ds, isdigit d.toNat) ∧ ds.head? ≠ some (ch '0')
  | .star _ => True

def flagChars : List Byte := [ch '-', ch '0', ch '+', ch ' ']

section Parsing

theorem flagsOf_flags {flags : List Byte} (are : ∀ c ∈ flags, c ∈ flagChars) (f : Flags) {rest : List Byte}
    (others : ∀ c, rest.head? = some c → c ∉ flagChars) :
    ∃ f', flagsOf f (flags ++ rest) = (f', rest) := by
  induction flags generalizing f with
  | nil =>
    cases rest with
    | nil => exact ⟨f, rfl⟩
    | cons c rest =>
      have other := others c rfl
      simp only [flagChars, List.mem_cons, List.not_mem_nil, or_false, not_or] at other
      exact ⟨f, by simp [flagsOf, other]⟩
  | cons c flags ih =>
    obtain ⟨here, later⟩ := List.forall_mem_cons.mp are
    rw [List.cons_append, flagsOf]
    simp only [flagChars, List.mem_cons, List.not_mem_nil, or_false] at here
    split_ifs
    · exact ih later _
    · exact ih later _
    · exact ih later _
    · exact ih later _
    · exact absurd here (by simp_all)

theorem decimalOf_digits {ds : List Byte} (are : ∀ d ∈ ds, isdigit d.toNat) (n : U32) {c : Byte}
    (other : isdigit c.toNat = false) : ∃ w, decimalOf n (ds ++ [c]) = (w, [c]) := by
  induction ds generalizing n with
  | nil => exact ⟨n, by simp [decimalOf, other]⟩
  | cons d ds ih =>
    obtain ⟨here, later⟩ := List.forall_mem_cons.mp are
    rw [List.cons_append, decimalOf, if_pos here]
    exact ih later _

theorem plain_other {c : Byte} (isPlain : c ∈ plain) :
    c ∉ flagChars ∧ isdigit c.toNat = false ∧ c ≠ ch '*' ∧ c ≠ ch '.' ∧ isModifier c = false ∧ c ≠ ch '%' := by
  simp only [plain, List.mem_cons, List.not_mem_nil, or_false] at isPlain
  rcases isPlain with rfl | rfl | rfl | rfl <;> decide

theorem digit_other {d : Byte} (is : isdigit d.toNat = true) (some : d ≠ ch '0') :
    d ∉ flagChars ∧ d ≠ ch '*' := by
  simp only [isdigit, Bool.and_eq_true, decide_eq_true_eq] at is
  have no : ∀ b : Byte, b.toNat < 48 → d ≠ b := fun b low same => by rw [same] at is; omega
  refine ⟨?_, no _ (by decide)⟩
  simp only [flagChars, List.mem_cons, List.not_mem_nil, or_false, not_or]
  exact ⟨no _ (by decide), some, no _ (by decide), no _ (by decide)⟩

variable {width : Width}

theorem width_other {c : Byte} (isPlain : c ∈ plain) (proper : width.Proper) :
    ∀ b, (width.text ++ [c]).head? = some b → b ∉ flagChars := by
  intro b here
  cases width with
  | star w =>
    obtain rfl := Option.some.inj here
    decide
  | digits ds =>
    cases ds with
    | nil =>
      obtain rfl := Option.some.inj here
      exact (plain_other isPlain).1
    | cons d ds =>
      obtain rfl := Option.some.inj here
      exact (digit_other (proper.1 d List.mem_cons_self) fun zero => proper.2 (congrArg some zero)).1

theorem widthOf_plain {c : Byte} (isPlain : c ∈ plain) (proper : width.Proper) (f : Flags)
    (ap : List Arg) :
    ∃ f' w, widthOf f (width.text ++ [c]) (width.args ++ ap) = some (f', w, [c], ap) := by
  cases width with
  | star w =>
    by_cases negative : w.toInt < 0
    · exact ⟨{ f with left := true }, -w, by simp [widthOf, Width.text, Width.args, wordArg, negative]⟩
    · exact ⟨f, w, by simp [widthOf, Width.text, Width.args, wordArg, negative]⟩
  | digits ds =>
    obtain ⟨w, read⟩ := decimalOf_digits proper.1 0 (plain_other isPlain).2.1
    have noStar : (ds ++ [c]).head? ≠ some (ch '*') := by
      cases ds with
      | nil => exact fun star => (plain_other isPlain).2.2.1 (Option.some.inj star)
      | cons d ds =>
        exact fun star => (digit_other (proper.1 d List.mem_cons_self)
          fun zero => proper.2 (congrArg some zero)).2 (Option.some.inj star)
    refine ⟨f, w, ?_⟩
    change widthOf f (ds ++ [c]) ap = _
    rw [widthOf, if_neg noStar, read]

theorem specOf_plain {c : Byte} (isPlain : c ∈ plain) {flags : List Byte} (are : ∀ b ∈ flags, b ∈ flagChars)
     (proper : width.Proper) (ap : List Arg) :
    ∃ f w, specOf (flags ++ (width.text ++ [c])) (width.args ++ ap) = some ⟨f, w, -1, [c], ap⟩ := by
  obtain ⟨-, -, -, noPoint, noModifier, -⟩ := plain_other isPlain
  obtain ⟨f, flagged⟩ := flagsOf_flags are Flags.none (width_other isPlain proper)
  obtain ⟨f', w, wide⟩ := widthOf_plain isPlain proper f ap
  have point : ([c] : List Byte).head? ≠ some (ch '.') := fun same => noPoint (Option.some.inj same)
  have prec : precOf [c] ap = some (-1, [c], ap) := if_neg point
  refine ⟨f', w, ?_⟩
  rw [specOf, flagged]
  simp only [wide, Option.bind_some, prec, Option.map_some, List.dropWhile_cons, noModifier]
  rfl

end Parsing

def magnitude (c : Byte) (v : U32) : Bool × U32 :=
  if c = ch 'd' ∧ v.toInt < 0 then (true, BitVec.ofInt 32 (-v.toInt)) else (false, v)

def printBase (c : Byte) : U32 := if c = ch 'x' then 16 else if c = ch 'o' then 8 else 10

theorem switch_plain {c : Byte} (isPlain : c ∈ plain) (v : U32) (tmp : Tmp) :
    switch c (-1) [.word v] tmp = some (.converted
      (ofNumber (printBase c) false (magnitude c v).1 (magnitude c v).2 tmp), []) := by
  simp only [plain, List.mem_cons, List.not_mem_nil, or_false] at isPlain
  rcases isPlain with rfl | rfl | rfl | rfl
  · by_cases negative : v.toInt < 0
    · simp [switch, ch, wordArg, printBase, magnitude, negative]
    · simp [switch, ch, wordArg, printBase, magnitude, negative]
  · rfl
  · rfl
  · rfl

theorem printBase_base {c : Byte} (isPlain : c ∈ plain) :
    8 ≤ (printBase c).toNat ∧ (printBase c).toNat = baseOf c := by
  simp only [plain, List.mem_cons, List.not_mem_nil, or_false] at isPlain
  rcases isPlain with rfl | rfl | rfl | rfl <;> decide

theorem printed_plain {c : Byte} (isPlain : c ∈ plain) {flags : List Byte} (are : ∀ b ∈ flags, b ∈ flagChars)
    {width : Width} (proper : width.Proper) (v : U32) (tmp : Tmp) :
    ∃ lead sign zeros trail,
      printed (ch '%' :: (flags ++ (width.text ++ [c]))) (width.args ++ [.word v]) tmp =
        some (layout lead sign (List.replicate zeros 0 ++ write (baseOf c) (magnitude c v).2.toNat) trail) ∧
      (sign = some true ↔ (magnitude c v).1 = true) := by
  obtain ⟨f, w, spec⟩ := specOf_plain isPlain are proper [.word v]
  obtain ⟨least, base⟩ := printBase_base isPlain
  obtain ⟨lead, zeros, trail, text⟩ := emit_layout
    (ofNumber_number least false (magnitude c v).1 (magnitude c v).2 tmp) f w
  refine ⟨lead, signSeen f (magnitude c v).1, zeros, trail, ?_, ?_⟩
  · have turned : turn (fun (out : List Byte) c => out ++ [c]) tmp [] (ch '%') (flags ++ (width.text ++ [c]))
        (width.args ++ [.word v]) = some (.goes (emit (fun out c => out ++ [c]) [] f w
          (ofNumber (printBase c) false (magnitude c v).1 (magnitude c v).2 tmp)) [] []) := by
      rw [turn, if_neg (not_not.mpr rfl), spec, Option.bind_some]
      simp only [switch_plain isPlain, Option.map_some]
    rw [printed, vfprintfSink_cons, turned, Option.bind_some, Turned.finish, vfprintfSink_nil, text, base]
  · unfold signSeen
    cases (magnitude c v).1 with
    | true => simp
    | false => cases f.plus <;> simp

section Back
variable {c : Byte} {v : U32} {sign : Option Bool}

theorem signed_iff (signs : sign = some true ↔ (magnitude c v).1 = true) (x : U32) :
    signed sign x = v ↔ x = (magnitude c v).2 := by
  unfold signed magnitude at *
  by_cases negative : c = ch 'd' ∧ v.toInt < 0
  · rw [if_pos negative] at signs ⊢
    have back : BitVec.ofInt 32 (-v.toInt) = -v := by rw [BitVec.ofInt_neg, BitVec.ofInt_toInt]
    rw [if_pos (signs.mpr rfl), back, neg_eq_iff_eq_neg]
  · rw [if_neg negative] at signs ⊢
    rw [if_neg fun is => Bool.noConfusion (signs.mp is)]

theorem magnitude_zero : (magnitude c v).2.toNat = 0 ↔ v = 0 := by
  have zero : ∀ w : U32, w.toNat = 0 ↔ w = 0 := fun w =>
    ⟨fun none => BitVec.eq_of_toNat_eq none, fun none => congrArg BitVec.toNat none⟩
  unfold magnitude
  split
  · rename_i negative
    have back : BitVec.ofInt 32 (-v.toInt) = -v := by rw [BitVec.ofInt_neg, BitVec.ofInt_toInt]
    rw [zero, back, neg_eq_zero]
  · exact zero v

theorem read_back {base : Nat} (above : 1 < base) (m : U32) (zeros count : Nat) :
    BitVec.ofNat 32 (read base ((List.replicate zeros 0 ++ write base m.toNat).take count)) = m ↔
      (List.replicate zeros 0 ++ write base m.toNat).length ≤ count ∨ m.toNat = 0 := by
  generalize whole : List.replicate zeros 0 ++ write base m.toNat = digits
  have value : read base digits = m.toNat := by rw [← whole, read_zeros, read_write]
  by_cases fits : digits.length ≤ count
  · rw [List.take_of_length_le fits, value]
    simp [fits]
  · by_cases zero : m.toNat = 0
    · have none := read_take_le (Nat.zero_lt_of_lt above) digits count
      have same : m = 0 := BitVec.eq_of_toNat_eq zero
      rw [value, zero, Nat.le_zero] at none
      rw [none, same]
      simp
    · have less := read_take_lt above (Nat.lt_of_not_le fits) (by rwa [value])
      rw [value] at less
      constructor
      · intro same
        have same' := congrArg BitVec.toNat same
        rw [BitVec.toNat_ofNat, Nat.mod_eq_of_lt (by omega)] at same'
        omega
      · rintro (is | is)
        · exact absurd is fits
        · exact absurd is zero

end Back

/-- Every sink is given the same characters, and a buffer has what fits of them with the right count as
long as they are fewer than an `int` can say. No conversion writes outside `tmp`. A number that is printed
by itself is scanned as it was, if its sign and its digits with their zeros are fewer than that. -/
theorem printf_scanf (stack : Tmp) :
    (∀ fmt ap tmp out, printed fmt ap tmp = some out →
      (∀ (D : Type) (kernel : Kernel D) (f : Stream D), vfprintf kernel f fmt ap stack =
        some (out.foldl (fun f c => (fputc kernel c.toNat f).1) f, BitVec.ofNat 32 out.length)) ∧
      ∀ buf cap, Faithful buf cap fmt ap stack out ↔ out.length < 2 ^ 31) ∧
    (∀ c prec ap tmp t rest, switch c prec ap tmp = some (.converted t, rest) → WithinTmp tmp t.tmp) ∧
    ∀ c ∈ plain, ∀ flags, (∀ b ∈ flags, b ∈ flagChars) → ∀ width : Width, width.Proper → ∀ v,
      ∃ out, printed (ch '%' :: (flags ++ (width.text ++ [c]))) (width.args ++ [.word v]) stack = some out ∧
        ∀ buf cap turns, out.length < cap.toNat → out.length < turns →
          ∃ after n, vsnprintf (some buf) cap (ch '%' :: (flags ++ (width.text ++ [c])))
              (width.args ++ [.word v]) stack = some (some after, n) ∧
            (sscanf turns after [ch '%', c] = some (1, [.int v]) ↔
              (inked out).length < 2 ^ 31 ∨ v = 0) := by
  refine ⟨fun fmt ap tmp out prints => ⟨fun D kernel f => vfprintf_prints kernel f prints stack,
    fun buf cap => faithful_iff buf cap prints stack⟩,
    fun c prec ap tmp t rest here => (switch_sound c prec ap).inside tmp t rest here, ?_⟩
  intro c isPlain flags are width proper v
  obtain ⟨lead, sign, zeros, trail, prints, signs⟩ := printed_plain isPlain are proper v stack
  refine ⟨_, prints, fun buf cap turns fits enough => ?_⟩
  have least := (printBase_base isPlain).1
  rw [(printBase_base isPlain).2] at least
  -- Zeros of width and precision are digits too, so what was printed reads in the same base.
  have within : ∀ d ∈ List.replicate zeros 0 ++ write (baseOf c) (magnitude c v).2.toNat, d < baseOf c := by
    intro d member
    rcases List.mem_append.mp member with zero | digit
    · rw [List.eq_of_mem_replicate zero]
      omega
    · exact write_lt (by omega) _ d digit
  have small : ∀ d ∈ List.replicate zeros 0 ++ write (baseOf c) (magnitude c v).2.toNat, d < 16 :=
    fun d member => (within d member).trans_le (baseOf_le c)
  have some' : List.replicate zeros 0 ++ write (baseOf c) (magnitude c v).2.toNat ≠ [] :=
    List.append_ne_nil_of_right_ne_nil _ (write_ne_nil _)
  refine ⟨_, _, vsnprintf_stores (some buf) cap prints stack (fits.trans cap.isLt), ?_⟩
  have reads := reads_stored buf [] (layout lead sign _ trail) fits (layout_text lead sign small trail)
  have scanned := sscanf_layout isPlain some' within reads enough
  have narrow : (signText sign).length ≤ 1 := by cases sign <;> simp [signText]
  rw [length_inked lead sign small trail]
  refine (Eq.congr_left scanned).trans ?_
  simp only [Option.some.injEq, Prod.mk.injEq, true_and, List.cons.injEq, and_true, Given.int.injEq]
  rw [signed_iff signs, read_back (by omega), magnitude_zero]
  refine or_congr_left ?_
  rw [widest]
  omega

section Trials

def stale : Tmp := fun _ => 0

/-- `"%+06d"`. -/
def padded : List Byte := ['%', '+', '0', '6', 'd'].map ch

def paddedText : List Byte := ['+', '0', '0', '0', '4', '2'].map ch

theorem printed_padded : printed padded [.word 42] stale = some paddedText := by
  have turned : turn (fun (out : List Byte) c => out ++ [c]) stale [] (ch '%') (padded.tail) [.word 42] =
      some (.goes paddedText [] []) := rfl
  rw [printed, padded, List.map_cons, vfprintfSink_cons]
  exact (congrArg (Option.bind · _) turned).trans (vfprintfSink_nil _ _ _ _)

theorem printf_scanf_padded : ∃ after n, vsnprintf (some fun _ => 7) 16 padded [.word 42] stale = some (some after, n) ∧
    n.toInt = 6 ∧ sscanf 32 after [ch '%', ch 'd'] = some (1, [.int 42]) := by
  obtain ⟨out, prints, back⟩ := (printf_scanf stale).2.2 (ch 'd') (by decide) [ch '+', ch '0'] (by decide)
    (.digits [ch '6']) ⟨by decide, by decide⟩ 42
  obtain rfl : paddedText = out := Option.some.inj (printed_padded.symm.trans prints)
  obtain ⟨after, n, stores, scans⟩ := back (fun _ => 7) 16 32 (by decide) (by decide)
  obtain ⟨r, stores', -, count⟩ :=
    (((printf_scanf stale).1 padded [.word 42] stale _ printed_padded).2 (some fun _ => 7) 16).mpr (by decide)
  obtain rfl : (some after, n) = r := Option.some.inj (stores.symm.trans stores')
  exact ⟨after, n, stores, count, scans.mpr (.inl (by decide))⟩

/-- `"%2147483647d"`, and what it prints of 5. -/
def widestFormat : List Byte := ['%', '2', '1', '4', '7', '4', '8', '3', '6', '4', '7', 'd'].map ch

def widestText : List Byte := List.replicate (2 ^ 31 - 2) (ch ' ') ++ [ch '5']

theorem turn_widest (out rest : List Byte) (ap : List Arg) :
    turn (fun out c => out ++ [c]) stale out (ch '%') (widestFormat.tail ++ rest) (.word 5 :: ap) =
      some (.goes (out ++ widestText) rest ap) := by
  have text : (List.range (ofNumber 10 false false 5 stale).n.toInt.toNat).map (ofNumber 10 false false 5 stale).str =
    [ch '5'] := by decide
  have turned : turn (fun (out : List Byte) c => out ++ [c]) stale out (ch '%') (widestFormat.tail ++ rest)
      (.word 5 :: ap) = some (.goes (emit (fun out c => out ++ [c]) out Flags.none 2147483647
        (ofNumber 10 false false 5 stale)) rest ap) := rfl
  have sign : signOf Flags.none (ofNumber 10 false false 5 stale).neg = 0 := rfl
  have count : ((2147483647 : U32) - ((ofNumber 10 false false 5 stale).n + 0)).toInt.toNat = 2 ^ 31 - 2 := by
    decide
  have left : Flags.none.left = false := rfl
  have zero : Flags.none.zero = false := rfl
  rw [turned, widestText]
  simp only [emit, text, sign, left, zero, pad_add, foldl_add, count, ne_eq, not_true_eq_false, if_false,
    Bool.false_eq_true, not_false_eq_true, and_self, if_true, and_false, List.append_assoc]

theorem printed_widest : printed (widestFormat ++ (widestFormat ++ (widestFormat ++ [])))
    [.word 5, .word 5, .word 5] stale = some (widestText ++ widestText ++ widestText) := by
  have next : ∀ (out rest : List Byte) ap, vfprintfSink (fun out c => out ++ [c]) stale out
      (widestFormat ++ rest) (.word 5 :: ap) =
        vfprintfSink (fun out c => out ++ [c]) stale (out ++ widestText) rest ap := by
    intro out rest ap
    have first : widestFormat ++ rest = ch '%' :: (widestFormat.tail ++ rest) := rfl
    rw [first, vfprintfSink_cons, turn_widest, Option.bind_some, Turned.finish]
  rw [printed, next, next, next, vfprintfSink_nil, List.nil_append]

theorem length_widestText : widestText.length = 2 ^ 31 - 1 := by
  rw [widestText, List.length_append, List.length_replicate, List.length_singleton]
  decide

theorem widestText_blanks :
    widestText = ch ' ' :: ch ' ' :: (List.replicate (2 ^ 31 - 4) (ch ' ') ++ [ch '5']) := by
  have count : 2 ^ 31 - 2 = 2 ^ 31 - 4 + 1 + 1 := by decide
  rw [widestText, count, List.replicate_succ, List.replicate_succ, List.cons_append, List.cons_append]

/-- After 2^32 - 1 characters the count goes round, and the next one is stored before the buffer. -/
theorem count_goes_round :
    (printed (widestFormat ++ (widestFormat ++ (widestFormat ++ []))) [.word 5, .word 5, .word 5]
      stale).map List.length = some 6442450941 ∧
    ∃ after n, vsnprintf (some fun _ => 7) 8 (widestFormat ++ (widestFormat ++ (widestFormat ++ [])))
      [.word 5, .word 5, .word 5] stale = some (some after, n) ∧ after (-1) = ch ' ' ∧ n.toInt = 2147483645 := by
  have prints := printed_widest
  have length : (widestText ++ widestText ++ widestText).length = 6442450941 := by
    rw [List.length_append, List.length_append, length_widestText]
    decide
  refine ⟨by rw [prints, Option.map_some, length], ?_⟩
  have counts := vsnprintf_counts (some fun _ => 7) 8 prints stale
  rw [length] at counts
  have parts : widestText ++ widestText ++ widestText = (widestText ++ widestText ++ [ch ' ']) ++
      ch ' ' :: (List.replicate (2 ^ 31 - 4) (ch ' ') ++ [ch '5']) :=
    (congrArg (widestText ++ widestText ++ ·) widestText_blanks).trans
      (List.append_assoc (widestText ++ widestText) [ch ' '] _).symm
  rw [parts] at prints
  obtain ⟨after, n, stores, before⟩ := vsnprintf_before (fun _ => 7) (by decide : (8 : U32) ≠ 0) prints stale
    (by rw [List.length_append, List.length_append, length_widestText, List.length_singleton]; decide)
    (by rw [List.length_append, List.length_replicate, List.length_singleton]; decide)
  rw [stores, Option.map_some] at counts
  have count : n = 6442450941 := Option.some.inj counts
  exact ⟨after, n, stores, before, by rw [count]; decide⟩

end Trials

end Ubiqos.Stdio
