import Ubiqos.Stdio.Printf

/-!
The scanner of `src/common/ubiqos_stdio.h` on a string. A number is read with one character too many,
which is put back.
-/

namespace Ubiqos.Stdio

/-- `__ubiqos_src` of a string. -/
structure Src where
  s : U32 → Byte
  i : U32

/-- `__ubiqos_get`. -/
def Src.get (r : Src) : Src × Int :=
  if r.s r.i ≠ 0 then ({ r with i := r.i + 1 }, (r.s r.i).toNat) else (r, EOF)

/-- `__ubiqos_unget`. -/
def Src.unget (r : Src) (c : Int) : Src :=
  if c = EOF then r else if r.i ≠ 0 then { r with i := r.i - 1 } else r

inductive Given
  | char (c : Byte)
  | string (s : List Byte)
  | int (v : U32)
  deriving DecidableEq

structure Scan where
  r : Src
  filled : Nat
  given : List Given

def Scan.give (scan : Scan) (skip : Bool) (r : Src) (value : Given) : Scan :=
  if skip then { scan with r := r } else ⟨r, scan.filled + 1, scan.given ++ [value]⟩

def Scan.atEnd (scan : Scan) (r : Src) : Src × Int × List Given :=
  (r, if scan.filled ≠ 0 then scan.filled else EOF, scan.given)

def Scan.stop (scan : Scan) (r : Src) : Src × Int × List Given := (r, scan.filled, scan.given)

/-- `while ((c = get(r)) != EOF && isspace(c))`, with the character that ended it. -/
def skipSpace : Nat → Src → Option (Src × Int)
  | 0, _ => none
  | turns + 1, r => if r.get.2 ≠ EOF ∧ isspace r.get.2 then skipSpace turns r.get.1 else some r.get

def scanWord (width : U32) : Nat → Src → Int → U32 → List Byte → Option (Src × Int × List Byte)
  | 0, _, _, _, _ => none
  | turns + 1, r, c, n, out =>
    if c ≠ EOF ∧ ¬ isspace c ∧ n.toInt < width.toInt then
      scanWord width turns r.get.1 r.get.2 (n + 1) (out ++ [BitVec.ofInt 8 c])
    else some (r, c, out)

def digitOf (c : Int) : Option Nat :=
  if isdigit c then some (c - 48).toNat
  else if isxdigit c then some (tolower c - 97 + 10).toNat
  else none

def scanDigits (base : Nat) : Nat → Src → Int → U32 → U32 → Bool → Option (Src × Int × U32 × Bool)
  | 0, _, _, _, _, _ => none
  | turns + 1, r, c, width, v, any =>
    if c = EOF ∨ ¬ 0 < width.toInt then some (r, c, v, any)
    else
      match digitOf c with
      | none => some (r, c, v, any)
      | some d =>
        if base ≤ d then some (r, c, v, any)
        else scanDigits base turns r.get.1 r.get.2 (width - 1)
          (v * BitVec.ofNat 32 base + BitVec.ofNat 32 d) true

/-- A number that begins with the character `c`; none when nothing matched. -/
def scanNumber (turns base : Nat) (width : U32) (r : Src) (c : Int) : Option (Src × Option U32) :=
  let signed := c = (ch '+').toNat ∨ c = (ch '-').toNat
  let neg := c = (ch '-').toNat
  let p := if signed then r.get else (r, c)
  (scanDigits base turns p.1 p.2 (if signed then width - 1 else width) 0 false).map fun q =>
    (q.1.unget q.2.1, if q.2.2.2 then some (if neg then -q.2.2.1 else q.2.2.1) else none)

inductive Scanned
  | ended (result : Src × Int × List Given)
  | goes (scan : Scan) (fmt : List Byte)

def baseOf (c : Byte) : Nat := if c = ch 'x' ∨ c = ch 'X' then 16 else if c = ch 'o' then 8 else 10

def scanConversion (turns : Nat) (scan : Scan) (skip : Bool) (width : U32) (c : Byte) (fmt : List Byte) :
    Option Scanned :=
  if c = ch 'c' then
    let p := scan.r.get
    if p.2 = EOF then some (.ended (scan.atEnd p.1))
    else some (.goes (scan.give skip p.1 (.char (BitVec.ofInt 8 p.2))) fmt)
  else
    (skipSpace turns scan.r).bind fun p =>
      if p.2 = EOF then some (.ended (scan.atEnd p.1))
      else if c = ch 's' then
        (scanWord width turns p.1 p.2 0 []).map fun q =>
          .goes (scan.give skip (q.1.unget q.2.1) (.string q.2.2)) fmt
      else if c ∉ [ch 'd', ch 'i', ch 'u', ch 'x', ch 'X', ch 'o'] then
        some (.ended (scan.stop (p.1.unget p.2)))
      else
        (scanNumber turns (baseOf c) width p.1 p.2).map fun q =>
          match q.2 with
          | none => .ended (scan.stop q.1)
          | some v => .goes (scan.give skip q.1 (.int v)) fmt

def scanTurn (turns : Nat) (scan : Scan) (c : Byte) (fmt : List Byte) : Option Scanned :=
  if isspace c.toNat then
    (skipSpace turns scan.r).map fun p => .goes { scan with r := p.1.unget p.2 } fmt
  else if c ≠ ch '%' then
    let p := scan.r.get
    some (if p.2 ≠ c.toNat then .ended (scan.stop (p.1.unget p.2)) else .goes { scan with r := p.1 } fmt)
  else
    let skip := fmt.head? = some (ch '*')
    let p := decimalOf 0 (if skip then fmt.tail else fmt)
    let fmt := p.2.dropWhile isModifier
    -- a format that ends here has a zero for its conversion
    scanConversion turns scan skip (if p.1 = 0 then 0x7fffffff else p.1) (fmt.headD 0) fmt.tail

theorem scanConversion_fmt {turns : Nat} {scan scan' : Scan} {skip : Bool} {width : U32} {c : Byte}
    {fmt fmt' : List Byte} (goes : scanConversion turns scan skip width c fmt = some (.goes scan' fmt')) :
    fmt' = fmt := by
  unfold scanConversion at goes
  split at goes
  · dsimp only at goes
    split at goes
    · cases goes
    · exact (Scanned.goes.inj (Option.some.inj goes)).2.symm
  · obtain ⟨p, -, rest⟩ := Option.bind_eq_some_iff.mp goes
    split_ifs at rest
    · cases rest
    · obtain ⟨q, -, same⟩ := Option.map_eq_some_iff.mp rest
      exact (Scanned.goes.inj same).2.symm
    · obtain ⟨q, -, same⟩ := Option.map_eq_some_iff.mp rest
      split at same
      · cases same
      · exact (Scanned.goes.inj same).2.symm
    · cases rest

theorem scanTurn_le {turns : Nat} {scan scan' : Scan} {c : Byte} {fmt fmt' : List Byte}
    (goes : scanTurn turns scan c fmt = some (.goes scan' fmt')) : fmt'.length ≤ fmt.length := by
  unfold scanTurn at goes
  split_ifs at goes with space plain
  · obtain ⟨p, -, same⟩ := Option.map_eq_some_iff.mp goes
    rw [(Scanned.goes.inj same).2]
  · dsimp only at goes
    split at goes
    · cases goes
    · rw [(Scanned.goes.inj (Option.some.inj goes)).2]
  · have same := scanConversion_fmt goes
    rw [same, List.length_tail]
    refine (Nat.sub_le _ _).trans ((List.dropWhile_suffix _).length_le.trans ((decimalOf_le _ _).trans ?_))
    split
    · exact fmt.length_tail.trans_le (Nat.sub_le _ _)
    · exact Nat.le_refl _

/-- `vfscanf_src`: what is left of the source, what is returned and what was stored. -/
def vfscanfSrc (turns : Nat) (scan : Scan) (fmt : List Byte) : Option (Src × Int × List Given) :=
  match fmt with
  | [] => some (scan.stop scan.r)
  | c :: fmt =>
    match turned : scanTurn turns scan c fmt with
    | none => none
    | some (.ended result) => some result
    | some (.goes scan rest) =>
      have _ := scanTurn_le turned
      vfscanfSrc turns scan rest
termination_by fmt.length
decreasing_by simp only [List.length_cons]; omega

def Scanned.finish (turns : Nat) : Scanned → Option (Src × Int × List Given)
  | .ended result => some result
  | .goes scan fmt => vfscanfSrc turns scan fmt

theorem vfscanfSrc_cons (turns : Nat) (scan : Scan) (c : Byte) (fmt : List Byte) :
    vfscanfSrc turns scan (c :: fmt) = (scanTurn turns scan c fmt).bind (Scanned.finish turns) := by
  rw [vfscanfSrc]
  split <;> rename_i turned
  · exact (congrArg (Option.bind · (Scanned.finish turns)) turned).symm
  · exact (congrArg (Option.bind · (Scanned.finish turns)) turned).symm
  · exact (congrArg (Option.bind · (Scanned.finish turns)) turned).symm

/-- There is an answer when no loop reads more than `turns` characters. -/
def sscanf (turns : Nat) (str : U32 → Byte) (fmt : List Byte) : Option (Int × List Given) :=
  (vfscanfSrc turns ⟨⟨str, 0⟩, 0, []⟩ fmt).map Prod.snd

section Reading
variable {s : U32 → Byte} {i : U32}

def Spells (s : U32 → Byte) : U32 → List Byte → Prop
  | i, [] => s i = 0
  | i, c :: rest => s i = c ∧ c ≠ 0 ∧ Spells s (i + 1) rest

def Current (s : U32 → Byte) (r : Src) (c : Int) : List Byte → Prop
  | [] => c = EOF
  | b :: rest => r.s = s ∧ c = b.toNat ∧ Spells s r.i rest

theorem Spells.get_cons {c : Byte} {rest : List Byte} (reads : Spells s i (c :: rest)) :
    Src.get ⟨s, i⟩ = (⟨s, i + 1⟩, (c.toNat : Int)) := by
  obtain ⟨here, some, -⟩ := reads
  simp only [Src.get]
  rw [if_pos (here ▸ some), here]

theorem Spells.get {text : List Byte} (reads : Spells s i text) :
    Current s (Src.get ⟨s, i⟩).1 (Src.get ⟨s, i⟩).2 text := by
  cases text with
  | nil => exact congrArg Prod.snd (if_neg (not_not.mpr reads))
  | cons c rest =>
    rw [reads.get_cons]
    exact ⟨rfl, rfl, reads.2.2⟩

theorem Current.next {r : Src} {c : Int} {b : Byte} {rest : List Byte} (current : Current s r c (b :: rest)) :
    Current s r.get.1 r.get.2 rest := by
  obtain ⟨same, -, reads⟩ := current
  cases r
  subst same
  exact reads.get

theorem byte_ne_eof (b : Byte) : (b.toNat : Int) ≠ EOF := by
  unfold EOF
  omega

theorem skipSpace_skips {text : List Byte} {b : Byte} (ink : isspace b.toNat = false) {count turns : Nat}
    (enough : count < turns) (reads : Spells s i (List.replicate count (ch ' ') ++ b :: text)) :
    ∃ r, skipSpace turns ⟨s, i⟩ = some (r, (b.toNat : Int)) ∧ Current s r b.toNat (b :: text) := by
  induction count generalizing turns i with
  | zero =>
    obtain ⟨turns, rfl⟩ := Nat.exists_eq_add_of_lt enough
    have got := reads.get_cons
    rw [Nat.zero_add, skipSpace, got, ink, if_neg (by simp)]
    exact ⟨_, rfl, rfl, rfl, reads.2.2⟩
  | succ count ih =>
    obtain ⟨turns, rfl⟩ := Nat.exists_eq_succ_of_ne_zero (by omega : turns ≠ 0)
    have got := reads.get_cons
    have blank : ((ch ' ').toNat : Int) ≠ EOF ∧ isspace (ch ' ').toNat = true := by decide
    rw [skipSpace, got, if_pos blank]
    exact ih (by omega) reads.2.2

def Ends (base : Nat) : List Byte → Prop
  | [] => True
  | b :: _ => ∀ d, digitOf b.toNat = some d → base ≤ d

theorem digitOf_digit {d : Nat} (small : d < 16) : digitOf (digit false d).toNat = some d := by
  interval_cases d <;> rfl

theorem scanDigits_reads {base : Nat} (most : base ≤ 16) {digits : List Nat}
    (within : ∀ d ∈ digits, d < base) {tail : List Byte} (ends : Ends base tail) {turns : Nat}
    (enough : digits.length < turns) (r : Src) (c : Int) (width : Nat) (narrow : width < 2 ^ 31) (v : Nat)
    (any : Bool) (current : Current s r c (digits.map (digit false) ++ tail)) :
    ∃ r' c', scanDigits base turns r c (BitVec.ofNat 32 width) (BitVec.ofNat 32 v) any =
      some (r', c', BitVec.ofNat 32 (Numerals.readFrom base v (digits.take width)),
        any || !(digits.take width).isEmpty) := by
  induction digits generalizing turns r c width v any with
  | nil =>
    obtain ⟨turns, rfl⟩ := Nat.exists_eq_succ_of_ne_zero (by omega : turns ≠ 0)
    have stops : scanDigits base (turns + 1) r c (BitVec.ofNat 32 width) (BitVec.ofNat 32 v) any =
        some (r, c, BitVec.ofNat 32 v, any) := by
      rw [scanDigits]
      cases tail with
      | nil => exact if_pos (.inl current)
      | cons b tail =>
        obtain ⟨-, char, -⟩ := current
        split
        · rfl
        · cases here : digitOf c with
          | none => rfl
          | some d => exact if_pos (ends d (char ▸ here))
    exact ⟨r, c, by simpa [Numerals.readFrom] using stops⟩
  | cons d digits ih =>
    obtain ⟨turns, rfl⟩ := Nat.exists_eq_succ_of_ne_zero (by omega : turns ≠ 0)
    obtain ⟨small, within⟩ := List.forall_mem_cons.mp within
    have wide : (BitVec.ofNat 32 width).toInt = width := toInt_ofNat narrow
    rw [scanDigits]
    cases width with
    | zero => exact ⟨r, c, by simp [Numerals.readFrom]⟩
    | succ width =>
      have char : c = (digit false d).toNat := current.2.1
      have here : digitOf c = some d := by rw [char, digitOf_digit (by omega)]
      have goes : ¬ (c = EOF ∨ ¬ 0 < (BitVec.ofNat 32 (width + 1)).toInt) := by
        rw [wide]
        rintro (ended | none)
        · exact byte_ne_eof _ (char ▸ ended)
        · omega
      have less : BitVec.ofNat 32 (width + 1) - 1 = BitVec.ofNat 32 width := by
        rw [BitVec.ofNat_add]
        exact BitVec.add_sub_cancel _ 1
      have value : BitVec.ofNat 32 v * BitVec.ofNat 32 base + BitVec.ofNat 32 d =
          BitVec.ofNat 32 (v * base + d) := by rw [BitVec.ofNat_add, BitVec.ofNat_mul]
      rw [if_neg goes, here]
      simp only [if_neg (Nat.not_le.mpr small), less, value]
      obtain ⟨r', c', read⟩ := ih within (Nat.lt_of_succ_lt_succ enough) r.get.1 r.get.2 width
        (by omega) (v * base + d) true current.next
      exact ⟨r', c', by simpa [Numerals.readFrom] using read⟩

def signText (sign : Option Bool) : List Byte :=
  match sign with
  | none => []
  | some neg => [if neg then ch '-' else ch '+']

def signed (sign : Option Bool) (v : U32) : U32 := if sign = some true then -v else v

/-- Of a number as wide as an `int` can say, the sign takes one place. -/
def widest (sign : Option Bool) : Nat := 2 ^ 31 - 1 - (signText sign).length

theorem digit_unsigned {d : Nat} (small : d < 16) :
    ¬ (((digit false d).toNat : Int) = (ch '+').toNat ∨ ((digit false d).toNat : Int) = (ch '-').toNat) := by
  interval_cases d <;> decide

theorem scanNumber_reads {base : Nat} (most : base ≤ 16) (sign : Option Bool) {digits : List Nat}
    (some' : digits ≠ []) (within : ∀ d ∈ digits, d < base) {tail : List Byte} (ends : Ends base tail)
    {turns : Nat} (enough : digits.length < turns) (r : Src) (c : Int)
    (current : Current s r c (signText sign ++ (digits.map (digit false) ++ tail))) :
    ∃ r', scanNumber turns base 0x7fffffff r c = some (r', some (signed sign
      (BitVec.ofNat 32 (Numerals.read base (digits.take (widest sign)))))) := by
  obtain ⟨d, rest, rfl⟩ := List.exists_cons_of_ne_nil some'
  have matched : ∀ width, 0 < width → (false || !((d :: rest).take width).isEmpty) = true := by
    intro width positive
    obtain ⟨width, rfl⟩ := Nat.exists_eq_succ_of_ne_zero positive.ne'
    rfl
  cases sign with
  | none =>
    have unsigned : ¬ (c = (ch '+').toNat ∨ c = (ch '-').toNat) := by
      rw [current.2.1]
      exact digit_unsigned ((within d List.mem_cons_self).trans_le most)
    obtain ⟨r', c', read⟩ := scanDigits_reads most within ends enough r c (2 ^ 31 - 1) (by decide) 0 false current
    have read' : scanDigits base turns r c 0x7fffffff 0 false = _ := read
    refine ⟨r'.unget c', ?_⟩
    rw [scanNumber]
    simp only [if_neg unsigned, read', Option.map_some, matched (2 ^ 31 - 1) (by decide), if_true,
      if_neg fun minus => unsigned (.inr minus)]
    rfl
  | some neg =>
    have char : c = (if neg then ch '-' else ch '+').toNat := current.2.1
    have isSigned : c = (ch '+').toNat ∨ c = (ch '-').toNat := by
      rw [char]
      cases neg
      · exact .inl rfl
      · exact .inr rfl
    have minus : c = (ch '-').toNat ↔ neg = true := by
      rw [char]
      cases neg <;> decide
    obtain ⟨r', c', read⟩ := scanDigits_reads most within ends enough r.get.1 r.get.2 (2 ^ 31 - 2)
      (by decide) 0 false current.next
    have read' : scanDigits base turns r.get.1 r.get.2 (0x7fffffff - 1) 0 false = _ := read
    refine ⟨r'.unget c', ?_⟩
    rw [scanNumber]
    simp only [if_pos isSigned, read', Option.map_some, matched (2 ^ 31 - 2) (by decide), if_true]
    simp only [minus]
    cases neg <;> rfl

def layout (lead : Nat) (sign : Option Bool) (digits : List Nat) (trail : Nat) : List Byte :=
  List.replicate lead (ch ' ') ++ (signText sign ++ (digits.map (digit false) ++
    List.replicate trail (ch ' ')))

def plain : List Byte := [ch 'd', ch 'u', ch 'x', ch 'o']

theorem baseOf_le (c : Byte) : baseOf c ≤ 16 := by
  unfold baseOf
  split_ifs <;> decide

theorem ends_spaces {base : Nat} (count : Nat) : Ends base (List.replicate count (ch ' ')) := by
  cases count with
  | zero => trivial
  | succ count =>
    intro d here
    have none : digitOf (ch ' ').toNat = none := rfl
    cases none.symm.trans here

theorem ink_number {sign : Option Bool} {base : Nat} (most : base ≤ 16) {digits : List Nat}
    (some' : digits ≠ []) (within : ∀ d ∈ digits, d < base) (tail : List Byte) :
    ∃ b rest, signText sign ++ (digits.map (digit false) ++ tail) = b :: rest ∧ isspace b.toNat = false := by
  obtain ⟨d, digits, rfl⟩ := List.exists_cons_of_ne_nil some'
  cases sign with
  | none =>
    refine ⟨digit false d, digits.map (digit false) ++ tail, rfl, ?_⟩
    have small : d < 16 := (within d List.mem_cons_self).trans_le most
    interval_cases d <;> rfl
  | some neg =>
    refine ⟨if neg then ch '-' else ch '+', (d :: digits).map (digit false) ++ tail, rfl, ?_⟩
    cases neg <;> rfl

theorem sscanf_layout {c : Byte} (isPlain : c ∈ plain) {lead trail : Nat} {sign : Option Bool}
    {digits : List Nat} (some' : digits ≠ []) (within : ∀ d ∈ digits, d < baseOf c)
    (reads : Spells s 0 (layout lead sign digits trail)) {turns : Nat}
    (enough : (layout lead sign digits trail).length < turns) :
    sscanf turns s [ch '%', c] = some (1, [.int (signed sign
      (BitVec.ofNat 32 (Numerals.read (baseOf c) (digits.take (widest sign)))))]) := by
  obtain ⟨b, rest, first, ink⟩ := (@ink_number sign) (baseOf_le c) some' within
    (List.replicate trail (ch ' '))
  have lengths : lead + digits.length < turns := by
    simp only [layout, List.length_append, List.length_replicate, List.length_map] at enough
    omega
  rw [layout, first] at reads
  obtain ⟨r, skipped, current⟩ := skipSpace_skips ink (by omega : lead < turns) reads
  rw [← first] at current
  obtain ⟨r', read⟩ := scanNumber_reads (baseOf_le c) sign some' within (ends_spaces trail)
    (by omega : digits.length < turns) r b.toNat current
  have other : c ≠ ch 'c' ∧ c ≠ ch 's' ∧ c ∈ [ch 'd', ch 'i', ch 'u', ch 'x', ch 'X', ch 'o'] := by
    simp only [plain, List.mem_cons, List.not_mem_nil, or_false] at isPlain
    rcases isPlain with rfl | rfl | rfl | rfl <;> decide
  have turned : scanTurn turns ⟨⟨s, 0⟩, 0, []⟩ (ch '%') [c] =
      scanConversion turns ⟨⟨s, 0⟩, 0, []⟩ false 0x7fffffff c [] := by
    simp only [plain, List.mem_cons, List.not_mem_nil, or_false] at isPlain
    rcases isPlain with rfl | rfl | rfl | rfl <;> rfl
  have converted : scanConversion turns ⟨⟨s, 0⟩, 0, []⟩ false 0x7fffffff c [] =
      some (.goes ⟨r', 1, [.int (signed sign (BitVec.ofNat 32
        (Numerals.read (baseOf c) (digits.take (widest sign)))))]⟩ []) := by
    rw [scanConversion, if_neg other.1, skipped, Option.bind_some, if_neg (byte_ne_eof b),
      if_neg other.2.1, if_neg (not_not.mpr other.2.2), read]
    rfl
  rw [sscanf, vfscanfSrc_cons, turned, converted, Option.bind_some, Scanned.finish, vfscanfSrc]
  rfl

end Reading

end Ubiqos.Stdio
