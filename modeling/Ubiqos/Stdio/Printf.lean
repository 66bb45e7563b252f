import Ubiqos.Lib.Numerals
import Ubiqos.Stdio.Streams

/-!
The formatter of `src/common/ubiqos_stdio.h`. One loop over the format gives every character to a sink,
and the sink is a stream or a buffer. A format or a string is its bytes before the zero; an `int` and a
`long` have 32 bits and go round.
-/

namespace Ubiqos.Stdio

open Function

def ch (c : Char) : Byte := BitVec.ofNat 8 c.toNat

def isdigit (c : Int) : Bool := 48 ≤ c && c ≤ 57
def isupper (c : Int) : Bool := 65 ≤ c && c ≤ 90
def isspace (c : Int) : Bool := c = 32 || 9 ≤ c && c ≤ 13
def isxdigit (c : Int) : Bool := isdigit c || 97 ≤ c && c ≤ 102 || 65 ≤ c && c ≤ 70
def tolower (c : Int) : Int := if isupper c then c + 32 else c

/-- What an argument is: an `int`, an `unsigned` or a pointer that is printed, or a string. -/
inductive Arg
  | word (w : U32)
  | string (s : Option (List Byte))
  deriving DecidableEq

/-- `va_arg`; there is none for an argument of another kind. -/
def wordArg : List Arg → Option (U32 × List Arg)
  | .word w :: ap => some (w, ap)
  | _ => none

def stringArg : List Arg → Option (Option (List Byte) × List Arg)
  | .string s :: ap => some (s, ap)
  | _ => none

structure Flags where
  left : Bool
  zero : Bool
  plus : Bool
  space : Bool
  deriving DecidableEq

def Flags.none : Flags := ⟨false, false, false, false⟩

def flagsOf (f : Flags) : List Byte → Flags × List Byte
  | [] => (f, [])
  | c :: fmt =>
    if c = ch '-' then flagsOf { f with left := true } fmt
    else if c = ch '0' then flagsOf { f with zero := true } fmt
    else if c = ch '+' then flagsOf { f with plus := true } fmt
    else if c = ch ' ' then flagsOf { f with space := true } fmt
    else (f, c :: fmt)

/-- `while (isdigit(*fmt)) n = n * 10 + (*fmt++ - '0')`. -/
def decimalOf (n : U32) : List Byte → U32 × List Byte
  | [] => (n, [])
  | c :: fmt => if isdigit c.toNat then decimalOf (n * 10 + (c - ch '0').setWidth 32) fmt else (n, c :: fmt)

/-- The flags, the width and the precision of a conversion, and what is behind them. -/
structure Spec where
  flags : Flags
  width : U32
  prec : U32
  fmt : List Byte
  ap : List Arg

def widthOf (f : Flags) (fmt : List Byte) (ap : List Arg) : Option (Flags × U32 × List Byte × List Arg) :=
  if fmt.head? = some (ch '*') then
    (wordArg ap).map fun p =>
      if p.1.toInt < 0 then ({ f with left := true }, -p.1, fmt.tail, p.2) else (f, p.1, fmt.tail, p.2)
  else some (f, (decimalOf 0 fmt).1, (decimalOf 0 fmt).2, ap)

def precOf (fmt : List Byte) (ap : List Arg) : Option (U32 × List Byte × List Arg) :=
  if fmt.head? = some (ch '.') then
    if fmt.tail.head? = some (ch '*') then (wordArg ap).map fun p => (p.1, fmt.tail.tail, p.2)
    else some ((decimalOf 0 fmt.tail).1, (decimalOf 0 fmt.tail).2, ap)
  else some (-1, fmt, ap)

def isModifier (c : Byte) : Bool := c = ch 'l' || c = ch 'h' || c = ch 'z'

def specOf (fmt : List Byte) (ap : List Arg) : Option Spec :=
  let (f, fmt) := flagsOf Flags.none fmt
  (widthOf f fmt ap).bind fun (f, width, fmt, ap) =>
    (precOf fmt ap).map fun (prec, fmt, ap) => ⟨f, width, prec, fmt.dropWhile isModifier, ap⟩

/-- `char tmp[12]`, which is on the stack: what is there before and around it is anything. -/
abbrev Tmp := Int → Byte

/-- What a conversion prints: `n` characters at `str`. -/
structure Converted where
  tmp : Tmp
  str : Nat → Byte
  n : U32
  neg : Bool

def digitSet (upper : Bool) : List Byte :=
  (if upper then ['0', '1', '2', '3', '4', '5', '6', '7', '8', '9', 'A', 'B', 'C', 'D', 'E', 'F']
    else ['0', '1', '2', '3', '4', '5', '6', '7', '8', '9', 'a', 'b', 'c', 'd', 'e', 'f']).map ch

/-- `while (v) { tmp[--i] = set[v % base]; v /= base; }`. -/
def digitsInto (base : U32) (upper : Bool) : Nat → Tmp → Int → U32 → Tmp × Int
  | 0, tmp, i, _ => (tmp, i)
  | turns + 1, tmp, i, v =>
    if v = 0 then (tmp, i)
    else digitsInto base upper turns (update tmp (i - 1) ((digitSet upper).getD (v % base).toNat 0))
      (i - 1) (v / base)

def ofNumber (base : U32) (upper neg : Bool) (v : U32) (tmp : Tmp) : Converted :=
  let (tmp, i) := if v = 0 then (update tmp 11 (ch '0'), (11 : Int)) else (tmp, 12)
  let (tmp, i) := digitsInto base upper 32 tmp i v
  ⟨tmp, fun k => tmp (i + k), BitVec.ofInt 32 (12 - i), neg⟩

/-- What the `switch` comes to: characters to print as they are, or a conversion. -/
inductive Switched
  | literal (text : List Byte)
  | converted (c : Converted)

def nullText : List Byte := ['(', 'n', 'u', 'l', 'l', ')'].map ch

def strnlen (s : List Byte) (n : Nat) : Nat := min s.length n

def switch (c : Byte) (prec : U32) (ap : List Arg) (tmp : Tmp) : Option (Switched × List Arg) :=
  if c = ch '%' then some (.literal [ch '%'], ap)
  else if c = ch 'c' then
    (wordArg ap).map fun p =>
      let tmp := update tmp 0 (p.1.setWidth 8)
      (.converted ⟨tmp, fun k => tmp k, 1, false⟩, p.2)
  else if c = ch 's' then
    (stringArg ap).map fun p =>
      let str := p.1.getD nullText
      let n := if 0 ≤ prec.toInt then strnlen str prec.toNat else str.length
      (.converted ⟨tmp, fun k => str.getD k 0, BitVec.ofNat 32 n, false⟩, p.2)
  else if c = ch 'p' ∨ c = ch 'x' then
    (wordArg ap).map fun p => (.converted (ofNumber 16 false false p.1 tmp), p.2)
  else if c = ch 'X' then (wordArg ap).map fun p => (.converted (ofNumber 16 true false p.1 tmp), p.2)
  else if c = ch 'o' then (wordArg ap).map fun p => (.converted (ofNumber 8 false false p.1 tmp), p.2)
  else if c = ch 'u' then (wordArg ap).map fun p => (.converted (ofNumber 10 false false p.1 tmp), p.2)
  else if c = ch 'd' ∨ c = ch 'i' then
    (wordArg ap).map fun p =>
      let neg := p.1.toInt < 0
      (.converted (ofNumber 10 false neg (if neg then BitVec.ofInt 32 (-p.1.toInt) else p.1) tmp), p.2)
  else some (.literal [ch '%', c], ap)

section Engine
variable {K : Type} (put : K → Byte → K)

/-- `__ubiqos_pad`. -/
def pad (k : K) (n : U32) (c : Byte) : K := (List.replicate n.toInt.toNat c).foldl put k

def signOf (f : Flags) (neg : Bool) : Byte :=
  if neg then ch '-' else if f.plus then ch '+' else if f.space then ch ' ' else 0

def emit (k : K) (f : Flags) (width : U32) (t : Converted) : K :=
  let sign := signOf f t.neg
  let total := t.n + if sign ≠ 0 then 1 else 0
  let k := if ¬ f.left ∧ ¬ f.zero then pad put k (width - total) (ch ' ') else k
  let k := if sign ≠ 0 then put k sign else k
  let k := if ¬ f.left ∧ f.zero then pad put k (width - total) (ch '0') else k
  let k := ((List.range t.n.toInt.toNat).map t.str).foldl put k
  if f.left then pad put k (width - total) (ch ' ') else k

end Engine

theorem flagsOf_le (f : Flags) (fmt : List Byte) : (flagsOf f fmt).2.length ≤ fmt.length := by
  induction fmt generalizing f with
  | nil => exact Nat.le_refl _
  | cons c fmt ih =>
    rw [flagsOf]
    split_ifs
    · exact (ih _).trans (Nat.le_succ _)
    · exact (ih _).trans (Nat.le_succ _)
    · exact (ih _).trans (Nat.le_succ _)
    · exact (ih _).trans (Nat.le_succ _)
    · exact Nat.le_refl _

theorem decimalOf_le (n : U32) (fmt : List Byte) : (decimalOf n fmt).2.length ≤ fmt.length := by
  induction fmt generalizing n with
  | nil => exact Nat.le_refl _
  | cons c fmt ih =>
    rw [decimalOf]
    split
    · exact (ih _).trans (Nat.le_succ _)
    · exact Nat.le_refl _

variable {fmt : List Byte} {ap : List Arg}

theorem widthOf_le {f : Flags} {p : Flags × U32 × List Byte × List Arg}
    (read : widthOf f fmt ap = some p) : p.2.2.1.length ≤ fmt.length := by
  unfold widthOf at read
  split at read
  · obtain ⟨w, -, rfl⟩ := Option.map_eq_some_iff.mp read
    split <;> exact fmt.length_tail.trans_le (Nat.sub_le _ _)
  · obtain rfl := Option.some.inj read
    exact decimalOf_le 0 fmt

theorem precOf_le {p : U32 × List Byte × List Arg}
    (read : precOf fmt ap = some p) : p.2.1.length ≤ fmt.length := by
  have tail : fmt.tail.length ≤ fmt.length := fmt.length_tail.trans_le (Nat.sub_le _ _)
  unfold precOf at read
  split at read
  · split at read
    · obtain ⟨w, -, rfl⟩ := Option.map_eq_some_iff.mp read
      exact (fmt.tail.length_tail.trans_le (Nat.sub_le _ _)).trans tail
    · obtain rfl := Option.some.inj read
      exact (decimalOf_le 0 fmt.tail).trans tail
  · obtain rfl := Option.some.inj read
    exact Nat.le_refl _

theorem specOf_le {p : Spec} (read : specOf fmt ap = some p) :
    p.fmt.length ≤ fmt.length := by
  unfold specOf at read
  obtain ⟨w, width, rest⟩ := Option.bind_eq_some_iff.mp read
  obtain ⟨q, prec, rfl⟩ := Option.map_eq_some_iff.mp rest
  exact ((List.dropWhile_suffix _).length_le.trans (precOf_le prec)).trans
    ((widthOf_le width).trans (flagsOf_le _ _))

inductive Turned (K : Type)
  | ended (k : K)
  | goes (k : K) (fmt : List Byte) (ap : List Arg)

section Engine
variable {K : Type} (put : K → Byte → K) (tmp : Tmp)

/-- One turn, for the character `c` and what is behind it. -/
def turn (k : K) (c : Byte) (fmt : List Byte) (ap : List Arg) : Option (Turned K) :=
  if c ≠ ch '%' then some (.goes (put k c) fmt ap)
  else
    (specOf fmt ap).bind fun p =>
      match p.fmt with
      | [] => some (.ended k)
      | c :: fmt =>
        (switch c p.prec p.ap tmp).map fun q =>
          match q.1 with
          | .literal text => .goes (text.foldl put k) fmt q.2
          | .converted t => .goes (emit put k p.flags p.width t) fmt q.2

variable {put tmp}

theorem turn_le {k k' : K} {c : Byte} {fmt fmt' : List Byte} {ap ap' : List Arg}
    (turned : turn put tmp k c fmt ap = some (.goes k' fmt' ap')) : fmt'.length ≤ fmt.length := by
  unfold turn at turned
  split at turned
  · obtain ⟨-, rfl, -⟩ := Turned.goes.inj (Option.some.inj turned)
    exact Nat.le_refl _
  · obtain ⟨p, read, rest⟩ := Option.bind_eq_some_iff.mp turned
    have le := specOf_le read
    split at rest
    · cases Option.some.inj rest
    · rename_i here
      obtain ⟨q, -, same⟩ := Option.map_eq_some_iff.mp rest
      rw [here, List.length_cons] at le
      split at same
      · obtain ⟨-, rfl, -⟩ := Turned.goes.inj same
        exact (Nat.le_succ _).trans le
      · obtain ⟨-, rfl, -⟩ := Turned.goes.inj same
        exact (Nat.le_succ _).trans le

variable (put tmp)

/-- `vfprintf_sink`: the sink when the format has ended. There is none when the arguments do not match. -/
def vfprintfSink (k : K) (fmt : List Byte) (ap : List Arg) : Option K :=
  match fmt with
  | [] => some k
  | c :: fmt =>
    match turned : turn put tmp k c fmt ap with
    | none => none
    | some (.ended k) => some k
    | some (.goes k rest ap) =>
      have _ := turn_le turned
      vfprintfSink k rest ap
termination_by fmt.length
decreasing_by simp only [List.length_cons]; omega

def Turned.finish : Turned K → Option K
  | .ended k => some k
  | .goes k fmt ap => vfprintfSink put tmp k fmt ap

@[simp] theorem vfprintfSink_nil (k : K) (ap : List Arg) : vfprintfSink put tmp k [] ap = some k := by
  rw [vfprintfSink]

theorem vfprintfSink_cons (k : K) (c : Byte) (fmt : List Byte) (ap : List Arg) :
    vfprintfSink put tmp k (c :: fmt) ap = (turn put tmp k c fmt ap).bind (Turned.finish put tmp) := by
  rw [vfprintfSink]
  split <;> rename_i turned
  · exact (congrArg (Option.bind · (Turned.finish put tmp)) turned).symm
  · exact (congrArg (Option.bind · (Turned.finish put tmp)) turned).symm
  · exact (congrArg (Option.bind · (Turned.finish put tmp)) turned).symm

end Engine

/-- `__ubiqos_sink`. The buffer is known by the places from its start on. -/
structure Sink (T : Type) where
  f : Option T
  buf : Option (U32 → Byte)
  cap : U32
  len : U32

/-- `__ubiqos_put`. -/
def ubiqosPut {T : Type} (fputc : T → Byte → T) (k : Sink T) (c : Byte) : Sink T :=
  let k := { k with len := k.len + 1 }
  match k.f, k.buf with
  | some f, _ => { k with f := some (fputc f c) }
  | none, some buf => if k.len < k.cap then { k with buf := some (update buf (k.len - 1) c) } else k
  | none, none => k

def vfprintf {D : Type} (kernel : Kernel D) (f : Stream D) (fmt : List Byte) (ap : List Arg) (tmp : Tmp) :
    Option (Stream D × U32) :=
  (vfprintfSink (ubiqosPut fun f c => (fputc kernel c.toNat f).1) tmp ⟨some f, none, 0, 0⟩ fmt ap).map
    fun k => (k.f.getD f, k.len)

def vsnprintf (buf : Option (U32 → Byte)) (cap : U32) (fmt : List Byte) (ap : List Arg) (tmp : Tmp) :
    Option (Option (U32 → Byte) × U32) :=
  (vfprintfSink (ubiqosPut Empty.elim) tmp ⟨none, buf, cap, 0⟩ fmt ap).map fun k =>
    (if cap ≠ 0 then k.buf.map fun buf => update buf (if k.len < cap then k.len else cap - 1) 0 else k.buf,
      k.len)

section Sinks
variable {K L : Type} {put : K → Byte → K} {follow : L → Byte → L} {view : K → L}

def Turned.map (view : K → L) : Turned K → Turned L
  | .ended k => .ended (view k)
  | .goes k fmt ap => .goes (view k) fmt ap

variable (same : ∀ k c, follow (view k) c = view (put k c))
include same

theorem pad_view (k : K) (n : U32) (c : Byte) : pad follow (view k) n c = view (pad put k n c) :=
  List.foldl_hom view same

theorem emit_view (k : K) (f : Flags) (width : U32) (t : Converted) :
    emit follow (view k) f width t = view (emit put k f width t) := by
  have text : ∀ (k : K) (chars : List Byte), chars.foldl follow (view k) = view (chars.foldl put k) :=
    fun k chars => List.foldl_hom view same
  simp only [emit]
  split_ifs <;> simp only [pad_view same, same, text]

theorem turn_view (tmp : Tmp) (k : K) (c : Byte) (fmt : List Byte) (ap : List Arg) :
    turn follow tmp (view k) c fmt ap = (turn put tmp k c fmt ap).map (Turned.map view) := by
  unfold turn
  by_cases plain : c ≠ ch '%'
  · rw [if_pos plain, if_pos plain, same]
    rfl
  · rw [if_neg plain, if_neg plain, Option.map_bind]
    refine congrArg (Option.bind (specOf fmt ap)) (funext fun p => ?_)
    simp only [Function.comp_apply]
    split
    · rfl
    · rw [Option.map_map]
      refine congrArg (Option.map · _) (funext fun q => ?_)
      simp only [Function.comp_apply]
      split
      · rw [Turned.map, List.foldl_hom view same]
      · rw [Turned.map, emit_view same]

theorem vfprintfSink_view (tmp : Tmp) (k : K) (fmt : List Byte) (ap : List Arg) :
    vfprintfSink follow tmp (view k) fmt ap = (vfprintfSink put tmp k fmt ap).map view := by
  induction length : fmt.length using Nat.strong_induction_on generalizing k fmt ap with
  | _ n ih =>
    cases fmt with
    | nil => simp
    | cons c fmt =>
      rw [vfprintfSink_cons, vfprintfSink_cons, turn_view same, Option.bind_map, Option.map_bind]
      cases turned : turn put tmp k c fmt ap with
      | none => rfl
      | some t =>
        cases t with
        | ended k => rfl
        | goes k rest ap =>
          have le := turn_le turned
          rw [List.length_cons] at length
          exact ih rest.length (by omega) k rest ap rfl

end Sinks

def printed (fmt : List Byte) (ap : List Arg) (tmp : Tmp) : Option (List Byte) :=
  vfprintfSink (fun out c => out ++ [c]) tmp [] fmt ap

theorem vfprintfSink_printed {K : Type} (put : K → Byte → K) (tmp : Tmp) (k : K) (fmt : List Byte)
    (ap : List Arg) :
    vfprintfSink put tmp k fmt ap = (printed fmt ap tmp).map fun out => out.foldl put k := by
  have same : ∀ (out : List Byte) c, put (out.foldl put k) c = (out ++ [c]).foldl put k :=
    fun out c => (List.foldl_concat put k c out).symm
  exact vfprintfSink_view same tmp [] fmt ap

section Numbers
open Numerals

def digit (upper : Bool) (d : Nat) : Byte := (digitSet upper).getD d 0

/-- The digits of `v` were written backwards from before `i`. -/
structure Built (base v : Nat) (upper : Bool) (tmp : Tmp) (i : Int) (r : Tmp × Int) : Prop where
  place : r.2 = i - (significant base v).length
  outside : ∀ p, p < r.2 ∨ i ≤ p → r.1 p = tmp p
  text : (List.range (significant base v).length).map (fun k : Nat => r.1 (r.2 + k)) =
    (significant base v).map (digit upper)

variable {base : U32}

theorem digitsInto_built (above : 1 < base.toNat) (upper : Bool) (turns : Nat) (tmp : Tmp)
    (i : Int) {v : U32} (small : v.toNat < base.toNat ^ turns) :
    Built base.toNat v.toNat upper tmp i (digitsInto base upper turns tmp i v) := by
  induction turns generalizing tmp i v with
  | zero =>
    have zero : v.toNat = 0 := by simpa using small
    rw [zero]
    exact ⟨by simp [digitsInto], fun _ _ => rfl, by simp⟩
  | succ turns ih =>
    rw [digitsInto]
    split
    · rename_i zero
      rw [zero]
      exact ⟨by simp, fun _ _ => rfl, by simp⟩
    · rename_i some
      have some' : v.toNat ≠ 0 := fun zero => some (BitVec.eq_of_toNat_eq zero)
      have next : (v / base).toNat = v.toNat / base.toNat := BitVec.toNat_udiv
      have last : (v % base).toNat = v.toNat % base.toNat := BitVec.toNat_umod
      have built := ih (update tmp (i - 1) (digit upper (v % base).toNat)) (i - 1) (v := v / base) (by
        rw [next]
        exact Nat.div_lt_of_lt_mul (by rwa [Nat.pow_succ, Nat.mul_comm] at small))
      change Built _ _ _ _ _ (digitsInto base upper turns (update tmp (i - 1) (digit upper (v % base).toNat))
        (i - 1) (v / base))
      rw [last] at built ⊢
      rw [next] at built
      have digits := significant_pos above some'
      generalize digitsInto base upper turns (update tmp (i - 1) (digit upper (v.toNat % base.toNat)))
        (i - 1) (v / base) = r at built ⊢
      have place := built.place
      refine ⟨?_, fun p outside => ?_, ?_⟩
      · rw [digits, List.length_append, List.length_singleton]
        omega
      · rw [built.outside p (by omega)]
        exact update_of_ne (by omega) _ _
      · have here : r.2 + ((significant base.toNat (v.toNat / base.toNat)).length : Nat) = i - 1 := by omega
        rw [digits, List.length_append, List.length_singleton, List.range_succ, List.map_append,
          List.map_append, built.text, List.map_singleton, List.map_singleton, here,
          built.outside (i - 1) (.inr le_rfl), update_self]

def Converted.text (t : Converted) : List Byte := (List.range t.n.toInt.toNat).map t.str

/-- Nothing outside `tmp` was written. -/
def WithinTmp (tmp after : Tmp) : Prop := ∀ p, p < 0 ∨ 12 ≤ p → after p = tmp p

/-- A number is printed with its digits, in the last places of `tmp`. -/
structure Number (base : U32) (upper neg : Bool) (v : U32) (tmp : Tmp) (t : Converted) : Prop where
  n : t.n = BitVec.ofNat 32 (write base.toNat v.toNat).length
  neg : t.neg = neg
  text : t.text = (write base.toNat v.toNat).map (digit upper)
  inside : WithinTmp tmp t.tmp

theorem toInt_ofNat {n : Nat} (small : n < 2 ^ 31) : (BitVec.ofNat 32 n).toInt = n := by
  rw [BitVec.toInt_eq_toNat_of_lt, BitVec.toNat_ofNat, Nat.mod_eq_of_lt (by omega)]
  rw [BitVec.toNat_ofNat, Nat.mod_eq_of_lt (by omega)]
  omega

theorem small_of_base (least : 8 ≤ base.toNat) (v : U32) : v.toNat < base.toNat ^ 11 := by
  have power : 8 ^ 11 ≤ base.toNat ^ 11 := Nat.pow_le_pow_left least 11
  have size := v.isLt
  omega

theorem length_write (least : 8 ≤ base.toNat) (v : U32) :
    (write base.toNat v.toNat).length ≤ 11 :=
  length_write_le (by omega) (by decide) (small_of_base least v)

theorem ofNumber_number (least : 8 ≤ base.toNat) (upper neg : Bool) (v : U32) (tmp : Tmp) :
    Number base upper neg v tmp (ofNumber base upper neg v tmp) := by
  have above : 1 < base.toNat := by omega
  have turns : v.toNat < base.toNat ^ 32 :=
    (small_of_base least v).trans_le (Nat.pow_le_pow_right (by omega) (by decide))
  by_cases zero : v = 0
  · have built : ofNumber base upper neg v tmp =
        ⟨update tmp 11 (ch '0'), fun k => update tmp 11 (ch '0') (11 + k), 1, neg⟩ := by
      simp [ofNumber, zero, digitsInto]
    rw [built, zero]
    refine ⟨rfl, rfl, ?_, fun p outside => update_of_ne (by omega) _ _⟩
    cases upper <;> rfl
  · have some : v.toNat ≠ 0 := fun none => zero (BitVec.eq_of_toNat_eq none)
    have built := digitsInto_built above upper 32 tmp 12 turns
    have digits : write base.toNat v.toNat = significant base.toNat v.toNat := if_neg some
    have short := length_write least v
    have place := built.place
    rw [digits] at short
    have count : (12 : Int) - (digitsInto base upper 32 tmp 12 v).2 =
        ((significant base.toNat v.toNat).length : Nat) := by omega
    have number : ofNumber base upper neg v tmp =
        ⟨(digitsInto base upper 32 tmp 12 v).1,
          fun k => (digitsInto base upper 32 tmp 12 v).1 ((digitsInto base upper 32 tmp 12 v).2 + k),
          BitVec.ofNat 32 (significant base.toNat v.toNat).length, neg⟩ := by
      simp only [ofNumber, if_neg zero, count, BitVec.ofInt_natCast]
    rw [number]
    refine ⟨by rw [digits], rfl, ?_, fun p outside => built.outside p (by omega)⟩
    rw [Converted.text, toInt_ofNat (by omega), Int.toNat_natCast, digits]
    exact built.text

inductive Alike : Option (Switched × List Arg) → Option (Switched × List Arg) → Prop
  | none : Alike none none
  | literal (text : List Byte) (ap : List Arg) :
      Alike (some (.literal text, ap)) (some (.literal text, ap))
  | converted {t u : Converted} (ap : List Arg) (n : t.n = u.n) (neg : t.neg = u.neg)
      (text : t.text = u.text) : Alike (some (.converted t, ap)) (some (.converted u, ap))

/-- Every conversion stays inside `tmp`, and prints the same whatever was on the stack. -/
structure SwitchSound (c : Byte) (prec : U32) (ap : List Arg) : Prop where
  inside : ∀ tmp t rest, switch c prec ap tmp = some (.converted t, rest) → WithinTmp tmp t.tmp
  alike : ∀ tmp tmp', Alike (switch c prec ap tmp) (switch c prec ap tmp')

theorem sound_of_arg {A : Type} {c : Byte} {prec : U32} {ap : List Arg}
    (arg : List Arg → Option (A × List Arg)) (make : A → Tmp → Converted)
    (is : ∀ tmp, switch c prec ap tmp = (arg ap).map fun p => (.converted (make p.1 tmp), p.2))
    (inside : ∀ a tmp, WithinTmp tmp (make a tmp).tmp)
    (alike : ∀ a tmp tmp', (make a tmp).n = (make a tmp').n ∧ (make a tmp).neg = (make a tmp').neg ∧
      (make a tmp).text = (make a tmp').text) : SwitchSound c prec ap := by
  cases given : arg ap with
  | none =>
    simp only [given, Option.map_none] at is
    exact ⟨fun tmp t rest here => by simp [is] at here, fun tmp tmp' => by rw [is, is]; exact .none⟩
  | some p =>
    simp only [given, Option.map_some] at is
    constructor
    · intro tmp t rest here
      rw [is] at here
      obtain ⟨same, -⟩ := Prod.mk.inj (Option.some.inj here)
      obtain rfl := Switched.converted.inj same
      exact inside p.1 tmp
    · intro tmp tmp'
      rw [is, is]
      obtain ⟨n, neg, text⟩ := alike p.1 tmp tmp'
      exact .converted _ n neg text

theorem sound_of_number {c : Byte} {prec : U32} {ap : List Arg} (least : 8 ≤ base.toNat)
    (upper : Bool) (neg : U32 → Bool) (value : U32 → U32)
    (is : ∀ tmp, switch c prec ap tmp = (wordArg ap).map fun p =>
      (.converted (ofNumber base upper (neg p.1) (value p.1) tmp), p.2)) : SwitchSound c prec ap := by
  refine sound_of_arg wordArg (fun w => ofNumber base upper (neg w) (value w)) is ?_ ?_
  · exact fun w tmp => (ofNumber_number least upper _ _ tmp).inside
  · intro w tmp tmp'
    have first := ofNumber_number least upper (neg w) (value w) tmp
    have second := ofNumber_number least upper (neg w) (value w) tmp'
    exact ⟨first.n.trans second.n.symm, first.neg.trans second.neg.symm,
      first.text.trans second.text.symm⟩

theorem sound_literal {c : Byte} {prec : U32} {ap : List Arg} (text : List Byte)
    (is : ∀ tmp, switch c prec ap tmp = some (.literal text, ap)) : SwitchSound c prec ap where
  inside tmp t rest here := by simp [is] at here
  alike tmp tmp' := by
    rw [is, is]
    exact .literal text ap

theorem sound_char (prec : U32) (ap : List Arg) : SwitchSound (ch 'c') prec ap :=
  sound_of_arg wordArg
    (fun w tmp => ⟨update tmp 0 (w.setWidth 8), fun k => update tmp 0 (w.setWidth 8) k, 1, false⟩)
    (fun _ => rfl) (fun _ _ _ outside => update_of_ne (by omega) _ _) fun _ _ _ => ⟨rfl, rfl, rfl⟩

theorem sound_string (prec : U32) (ap : List Arg) : SwitchSound (ch 's') prec ap :=
  sound_of_arg stringArg
    (fun s tmp => ⟨tmp, fun k => (s.getD nullText).getD k 0, BitVec.ofNat 32
      (if 0 ≤ prec.toInt then strnlen (s.getD nullText) prec.toNat else (s.getD nullText).length), false⟩)
    (fun _ => rfl) (fun _ _ _ _ => rfl) fun _ _ _ => ⟨rfl, rfl, rfl⟩

theorem switch_sound (c : Byte) (prec : U32) (ap : List Arg) : SwitchSound c prec ap := by
  by_cases percent : c = ch '%'
  · exact sound_literal [ch '%'] fun tmp => if_pos percent
  by_cases char : c = ch 'c'
  · exact char ▸ sound_char prec ap
  by_cases string : c = ch 's'
  · exact string ▸ sound_string prec ap
  by_cases hex : c = ch 'p' ∨ c = ch 'x'
  · rcases hex with rfl | rfl
    · exact sound_of_number (by decide : 8 ≤ (16 : U32).toNat) false (fun _ => false) id fun _ => rfl
    · exact sound_of_number (by decide : 8 ≤ (16 : U32).toNat) false (fun _ => false) id fun _ => rfl
  by_cases upper : c = ch 'X'
  · subst upper
    exact sound_of_number (by decide : 8 ≤ (16 : U32).toNat) true (fun _ => false) id fun _ => rfl
  by_cases octal : c = ch 'o'
  · subst octal
    exact sound_of_number (by decide : 8 ≤ (8 : U32).toNat) false (fun _ => false) id fun _ => rfl
  by_cases unsigned : c = ch 'u'
  · subst unsigned
    exact sound_of_number (by decide : 8 ≤ (10 : U32).toNat) false (fun _ => false) id fun _ => rfl
  by_cases signed : c = ch 'd' ∨ c = ch 'i'
  · rcases signed with rfl | rfl
    · exact sound_of_number (by decide : 8 ≤ (10 : U32).toNat) false (fun w => w.toInt < 0)
        (fun w => if w.toInt < 0 then BitVec.ofInt 32 (-w.toInt) else w) fun _ => by simp [switch, ch]
    · exact sound_of_number (by decide : 8 ≤ (10 : U32).toNat) false (fun w => w.toInt < 0)
        (fun w => if w.toInt < 0 then BitVec.ofInt 32 (-w.toInt) else w) fun _ => by simp [switch, ch]
  exact sound_literal [ch '%', c] fun tmp => by
    simp [switch, percent, char, string, hex, upper, octal, unsigned, signed]

theorem emit_alike {K : Type} (put : K → Byte → K) (k : K) (f : Flags) (width : U32) {t u : Converted}
    (n : t.n = u.n) (neg : t.neg = u.neg) (text : t.text = u.text) :
    emit put k f width t = emit put k f width u := by
  rw [Converted.text, Converted.text, n] at text
  simp only [emit, text, n, neg]

theorem Alike.goes {K : Type} {first second : Option (Switched × List Arg)} (alike : Alike first second)
    (literal : List Byte → List Arg → Turned K) (converted : Converted → List Arg → Turned K)
    (same : ∀ t u ap, t.n = u.n → t.neg = u.neg → t.text = u.text → converted t ap = converted u ap) :
    (first.map fun q => match q.1 with
      | .literal text => literal text q.2
      | .converted t => converted t q.2) =
    second.map fun q => match q.1 with
      | .literal text => literal text q.2
      | .converted t => converted t q.2 := by
  cases alike with
  | none => rfl
  | literal text ap => rfl
  | converted ap n neg text => exact congrArg some (same _ _ ap n neg text)

theorem turn_stack {K : Type} (put : K → Byte → K) (tmp tmp' : Tmp) (k : K) (c : Byte) (fmt : List Byte)
    (ap : List Arg) : turn put tmp k c fmt ap = turn put tmp' k c fmt ap := by
  unfold turn
  by_cases plain : c ≠ ch '%'
  · rw [if_pos plain, if_pos plain]
  · rw [if_neg plain, if_neg plain]
    refine congrArg (Option.bind (specOf fmt ap)) (funext fun p => ?_)
    split
    · rfl
    · rename_i c fmt here
      exact ((switch_sound c p.prec p.ap).alike tmp tmp').goes
        (fun text ap => .goes (text.foldl put k) fmt ap)
        (fun t ap => .goes (emit put k p.flags p.width t) fmt ap)
        fun t u ap n neg text => by rw [emit_alike put k p.flags p.width n neg text]

theorem vfprintfSink_stack {K : Type} (put : K → Byte → K) (tmp tmp' : Tmp) (k : K) (fmt : List Byte)
    (ap : List Arg) : vfprintfSink put tmp k fmt ap = vfprintfSink put tmp' k fmt ap := by
  induction length : fmt.length using Nat.strong_induction_on generalizing k fmt ap with
  | _ n ih =>
    cases fmt with
    | nil => simp
    | cons c fmt =>
      rw [vfprintfSink_cons, vfprintfSink_cons, turn_stack put tmp tmp']
      cases turned : turn put tmp' k c fmt ap with
      | none => rw [Option.bind_none, Option.bind_none]
      | some t =>
        cases t with
        | ended k => exact (rfl : some k = some k)
        | goes k rest ap =>
          have le := turn_le turned
          rw [List.length_cons] at length
          exact ih rest.length (by omega) k rest ap rfl

end Numbers

end Ubiqos.Stdio
