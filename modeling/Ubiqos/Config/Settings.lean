import Ubiqos.Lib.Lines
import Mathlib.Data.BitVec
import Mathlib.Data.List.DropRight

/-!
The settings of `src/kernel/config.c`: a line of the text and what it sets, and the text taken
line by line. A line that was written for a value that is taken is read back as that value.
-/

namespace Ubiqos.Config

abbrev Byte := BitVec 8
abbrev Text := List Byte

def ascii (chars : List Char) : Text := chars.map fun c => BitVec.ofNat 8 c.toNat

structure Settings where
  host : Text
  ssid : Text
  pass : Text
  usbAddress : Nat
  offset : Int

def lower (c : Byte) : Byte := if 0x41 ≤ c ∧ c ≤ 0x5a then c + 32 else c

def keyIs : Text → Text → Bool
  | [], [] => true
  | k :: ks, w :: ws => lower k = w && keyIs ks ws
  | _, _ => false

def copyInto (cap : Nat) (src : Text) : Text := src.take (cap - 1)

def hostnameByte (c : Byte) : Bool :=
  (0x61 ≤ lower c ∧ lower c ≤ 0x7a) ∨ (0x30 ≤ lower c ∧ lower c ≤ 0x39) ∨ lower c = 0x2d

def validHostname (s : Text) : Bool :=
  s ≠ [] ∧ s.length ≤ 31 ∧ s.all hostnameByte ∧ s.head? ≠ some 0x2d ∧ s.getLast? ≠ some 0x2d

def digit (c : Byte) : Bool := 0x30 ≤ c ∧ c ≤ 0x39

/-- Up to `left` more digits: the number, how many there were, and what follows them. -/
def digits : Nat → Nat → Nat → Text → Nat × Nat × Text
  | left + 1, x, n, c :: rest =>
    if digit c then digits left (x * 10 + (c.toNat - 0x30)) (n + 1) rest else (x, n, c :: rest)
  | _, x, n, v => (x, n, v)

def takeSign : Text → Int × Text
  | c :: rest => if c = 0x2b then (1, rest) else if c = 0x2d then (-1, rest) else (1, c :: rest)
  | [] => (1, [])

def takeMinutes : Text → Nat × Text
  | c :: rest =>
    if c = 0x3a then
      let (mins, n, v) := digits 3 0 0 rest
      (if n = 0 then 0 else mins, v)
    else (0, c :: rest)
  | [] => (0, [])

def parseTimezone (v : Text) : Option Int :=
  let (sign, v) := takeSign v
  let (hours, n, v) := digits 3 0 0 v
  if n = 0 then none
  else
    let (mins, v) := takeMinutes v
    if v ≠ [] ∨ hours > 14 ∨ mins > 59 then none else some (sign * (hours * 60 + mins : Nat))

/-- The parts of an address that are left, the ones before them being `a`. -/
def parts : Nat → Nat → Text → Option (Nat × Text)
  | 0, a, v => some (a, v)
  | left + 1, a, v =>
    let (x, n, v) := digits 4 0 0 v
    if n = 0 ∨ x > 255 then none
    else if left = 0 then some (a <<< 8 ||| x, v)
    else
      match v with
      | c :: rest => if c = 0x2e then parts left (a <<< 8 ||| x) rest else none
      | [] => none

def parseUsbAddress (v : Text) : Option Nat :=
  match parts 4 0 v with
  | none => none
  | some (a, rest) =>
    let first := a >>> 24
    let last := a &&& 0xff
    if rest ≠ [] then none
    else if first = 0 ∨ first = 127 ∨ first ≥ 224 then none
    else if a >>> 16 = (169 <<< 8 ||| 254) then none
    else if last = 0 ∨ last > 253 then none
    else some a

def blank (c : Byte) : Bool := c = 0x20 ∨ c = 0x09

def ends (c : Byte) : Bool := c = 0x3d ∨ blank c

def trailing (c : Byte) : Bool := blank c ∨ c = 0x0d

def cutComment : Option Byte → Text → Text
  | _, [] => []
  | before, c :: rest =>
    if c = 0x23 ∧ before.all blank then [] else c :: cutComment (some c) rest

def parseLine (l : Text) : Option (Text × Text) :=
  let l := (cutComment none l).dropWhile blank
  let key := l.takeWhile fun c => !ends c
  if key = [] then none
  else
    match (l.dropWhile fun c => !ends c).dropWhile blank with
    | [] => none
    | c :: rest =>
      if c ≠ 0x3d then none
      else
        let val := (rest.dropWhile blank).rdropWhile trailing
        if val = [] then none else some (key, val)

def hostnameKey : Text := ascii ['h', 'o', 's', 't', 'n', 'a', 'm', 'e']
def ssidKey : Text := ascii ['s', 's', 'i', 'd']
def passwordKey : Text := ascii ['p', 'a', 's', 's', 'w', 'o', 'r', 'd']
def timezoneKey : Text := ascii ['t', 'i', 'm', 'e', 'z', 'o', 'n', 'e']
def usbAddressKey : Text := ascii ['u', 's', 'b', '_', 'a', 'd', 'd', 'r', 'e', 's', 's']

def takeSetting (s : Settings) (key val : Text) : Settings :=
  if keyIs key hostnameKey then
    if validHostname val then { s with host := copyInto 32 val } else s
  else if keyIs key ssidKey then { s with ssid := copyInto 33 val }
  else if keyIs key passwordKey then { s with pass := copyInto 64 val }
  else if keyIs key timezoneKey then
    match parseTimezone val with
    | some minutes => { s with offset := minutes }
    | none => s
  else if keyIs key usbAddressKey then
    match parseUsbAddress val with
    | some a => { s with usbAddress := a }
    | none => s
  else s

def takeLine (s : Settings) (l : Text) : Settings :=
  match parseLine l with
  | none => s
  | some (key, val) => takeSetting s key val

def lineKey (l : Text) : Option Text :=
  let key := (l.dropWhile blank).takeWhile fun c => !ends c
  if key = [] then none else some key

def lineMax : Nat := 160
def newline : Byte := 0x0a

/-- Every line of a text, `line` being what is gathered of the one being read. -/
def takeText (s : Settings) (line : Text) : Text → Settings
  | [] => if line ≠ [] then takeLine s line else s
  | c :: rest =>
    if c = newline then takeText (if line ≠ [] then takeLine s line else s) [] rest
    else takeText s (if line.length < lineMax then line ++ [c] else line) rest

def takeFile (s : Settings) (line : Text) (overlong : Bool) : Text → Settings
  | [] => if line ≠ [] ∧ !overlong then takeLine s line else s
  | c :: rest =>
    if c = newline then takeFile (if !overlong then takeLine s line else s) [] false rest
    else if line.length < lineMax then takeFile s (line ++ [c]) overlong rest
    else takeFile s line true rest

/-- What a card has of `config.txt` and `wificfg.txt`. -/
structure Card where
  config : Option Text
  wifi : Option Text

def readTheFile (s : Settings) : Option Text → Settings
  | none => s
  | some bytes => takeFile s [] false bytes

def takeCut (s : Settings) (l : Text) : Settings :=
  if l = [] then s else takeLine s (l.take lineMax)

theorem take_some {l : Text} : l.take lineMax ≠ [] ↔ l ≠ [] := by
  rw [Ne, List.take_eq_nil_iff]
  simp [lineMax]

theorem takeCut_eq (s : Settings) (l : Text) :
    (if l.take lineMax ≠ [] then takeLine s (l.take lineMax) else s) = takeCut s l := by
  rw [takeCut, if_congr take_some rfl rfl, ite_not]

theorem takeText_from (s : Settings) {before : Text} (plain : newline ∉ before) (t : Text) :
    takeText s (before.take lineMax) t = (Lines.lines newline (before ++ t)).foldl takeCut s := by
  induction t generalizing s before with
  | nil =>
    rw [takeText, takeCut_eq, List.append_nil]
    by_cases none : before = []
    · subst none
      rfl
    · rw [Lines.lines_last plain none]
      rfl
  | cons c rest ih =>
    rw [takeText]
    by_cases ended : c = newline
    · subst ended
      rw [if_pos rfl, takeCut_eq, Lines.lines_ended plain]
      have later := ih (takeCut s before) List.not_mem_nil
      rwa [List.take_nil, List.nil_append] at later
    · have grown : (if (before.take lineMax).length < lineMax then before.take lineMax ++ [c]
          else before.take lineMax) = (before ++ [c]).take lineMax := by
        rw [List.length_take]
        split
        · rw [List.take_of_length_le (by omega), List.take_of_length_le (by simp; omega)]
        · rw [List.take_append_of_le_length (by omega)]
      have unended : newline ∉ before ++ [c] := by simp [plain, Ne.symm ended]
      rw [if_neg ended, grown, List.append_cons before c rest]
      exact ih s unended

theorem takeText_lines (s : Settings) (t : Text) :
    takeText s [] t = (Lines.lines newline t).foldl takeCut s :=
  takeText_from s List.not_mem_nil t

inductive Key where
  | hostname
  | usbAddress
  | timezone
  deriving DecidableEq

def Key.name : Key → Text
  | .hostname => hostnameKey
  | .usbAddress => usbAddressKey
  | .timezone => timezoneKey

inductive Value where
  | name (host : Text)
  | address (a : Nat)
  | minutes (m : Int)
  deriving DecidableEq

def Key.get : Key → Settings → Value
  | .hostname, s => .name s.host
  | .usbAddress, s => .address s.usbAddress
  | .timezone, s => .minutes s.offset

def Key.parse : Key → Text → Option Value
  | .hostname, v => if validHostname v then some (.name v) else none
  | .usbAddress, v => (parseUsbAddress v).map Value.address
  | .timezone, v => (parseTimezone v).map Value.minutes

def Sets (k : Key) (l : Text) : Prop := ∃ key, lineKey l = some key ∧ keyIs key k.name = true

theorem keyIs_iff (k w : Text) : keyIs k w = true ↔ k.map lower = w := by
  induction k generalizing w with
  | nil => cases w <;> simp [keyIs]
  | cons c k ih =>
    cases w with
    | nil => simp [keyIs]
    | cons d w => simp [keyIs, ih]

theorem keyIs_eq {key a b : Text} (first : keyIs key a = true) (ne : a ≠ b) : keyIs key b = false := by
  cases second : keyIs key b with
  | false => rfl
  | true => exact absurd (((keyIs_iff key a).mp first).symm.trans ((keyIs_iff key b).mp second)) ne

theorem cutComment_front (before : Option Byte) (l : Text) : cutComment before l <+: l := by
  induction l generalizing before with
  | nil => exact List.prefix_refl []
  | cons c rest ih =>
    rw [cutComment]
    split
    · exact List.nil_prefix
    · exact List.cons_prefix_cons.mpr ⟨rfl, ih (some c)⟩

theorem read_within {p : Byte → Bool} {m : Text} (after : Text) (more : m.dropWhile p ≠ []) :
    (m ++ after).takeWhile p = m.takeWhile p ∧ (m ++ after).dropWhile p = m.dropWhile p ++ after := by
  induction m with
  | nil => exact absurd rfl more
  | cons c m ih =>
    cases holds : p c with
    | true =>
      rw [List.dropWhile_cons_of_pos holds] at more
      simp [holds, ih more]
    | false => simp [holds]

theorem lineKey_of_parse {l cut key val : Text} (begins : cut <+: l)
    (parsed : parseLine cut = some (key, val)) : lineKey l = some key := by
  obtain ⟨after, whole⟩ := (cutComment_front none cut).trans begins
  rw [parseLine] at parsed
  generalize cutComment none cut = m at parsed whole
  dsimp only at parsed
  split at parsed
  · cases parsed
  next some =>
    split at parsed
    · cases parsed
    next c rest found =>
      have same : key = (m.dropWhile blank).takeWhile fun c => !ends c := by
        repeat' split at parsed
        all_goals cases parsed
        rfl
      have more : (m.dropWhile blank).dropWhile (fun c => !ends c) ≠ [] := by
        intro none
        rw [none] at found
        cases found
      have first : m.dropWhile blank ≠ [] := by
        intro none
        rw [none] at more
        exact more rfl
      rw [← same] at some
      rw [lineKey, ← whole, (read_within after first).2, (read_within after more).1, ← same,
        if_neg some]

theorem takeSetting_named {k : Key} {key : Text} (named : keyIs key k.name = true) (s : Settings)
    (val : Text) : k.get (takeSetting s key val) = (k.parse val).getD (k.get s) := by
  rw [takeSetting]
  cases k with
  | hostname =>
    rw [if_pos (show keyIs key hostnameKey = true from named), Key.parse]
    cases good : validHostname val with
    | false => rfl
    | true =>
      simp only [validHostname, Bool.decide_and, Bool.and_eq_true, decide_eq_true_eq] at good
      simp [Key.get, copyInto, List.take_of_length_le good.2.1]
  | usbAddress =>
    have other : ∀ w, usbAddressKey ≠ w → ¬ keyIs key w = true := by
      intro w ne
      rw [keyIs_eq named ne]
      exact Bool.false_ne_true
    rw [if_neg (other hostnameKey (by decide)), if_neg (other ssidKey (by decide)),
      if_neg (other passwordKey (by decide)), if_neg (other timezoneKey (by decide)),
      if_pos (show keyIs key usbAddressKey = true from named), Key.parse]
    cases parseUsbAddress val <;> rfl
  | timezone =>
    have other : ∀ w, timezoneKey ≠ w → ¬ keyIs key w = true := by
      intro w ne
      rw [keyIs_eq named ne]
      exact Bool.false_ne_true
    rw [if_neg (other hostnameKey (by decide)), if_neg (other ssidKey (by decide)),
      if_neg (other passwordKey (by decide)),
      if_pos (show keyIs key timezoneKey = true from named), Key.parse]
    cases parseTimezone val <;> rfl

theorem takeSetting_other {k : Key} {key : Text} (other : ¬ keyIs key k.name = true) (s : Settings)
    (val : Text) : k.get (takeSetting s key val) = k.get s := by
  rw [takeSetting]
  repeat' split
  all_goals
    cases k
    all_goals
      first
        | rfl
        | exact absurd (by assumption) other

variable (k : Key)

theorem takeLine_get (s : Settings) (l : Text) :
    k.get (takeLine s l) =
      match parseLine l with
      | some (key, val) => if keyIs key k.name then (k.parse val).getD (k.get s) else k.get s
      | none => k.get s := by
  rw [takeLine]
  cases parseLine l with
  | none => rfl
  | some found =>
    dsimp only
    split
    · next named => exact takeSetting_named named s found.2
    · next other => exact takeSetting_other other s found.2

theorem takeCut_apart : Lines.Apart takeCut k.get := by
  intro s t l same
  rw [takeCut, takeCut]
  split
  · exact same
  · rw [takeLine_get, takeLine_get, same]

theorem takeCut_idle {k : Key} {l : Text} (other : ¬ Sets k l) (s : Settings) :
    k.get (takeCut s l) = k.get s := by
  rw [takeCut]
  split
  · rfl
  · rw [takeLine_get]
    split
    · next key val parsed =>
        refine if_neg fun named => other ⟨key, ?_, named⟩
        exact lineKey_of_parse (List.take_prefix _ l) parsed
    · rfl

def Plain (v : Text) : Prop := ∀ c ∈ v, 0x2b ≤ c

/-- What is left of a text after at most `k` plain bytes. -/
def Reads (k : Nat) (v rest : Text) : Prop := ∃ taken, v = taken ++ rest ∧ Plain taken ∧ taken.length ≤ k

theorem Reads.refl (k : Nat) (v : Text) : Reads k v v :=
  ⟨[], rfl, fun _ member => absurd member List.not_mem_nil, Nat.zero_le k⟩

theorem Reads.one {c : Byte} (plain : 0x2b ≤ c) (rest : Text) : Reads 1 (c :: rest) rest :=
  ⟨[c], rfl, fun _ member => List.mem_singleton.mp member ▸ plain, le_rfl⟩

theorem Reads.trans {k j : Nat} {v u rest : Text} (first : Reads k v u) (later : Reads j u rest) :
    Reads (k + j) v rest := by
  obtain ⟨a, rfl, plain, short⟩ := first
  obtain ⟨b, rfl, plain', short'⟩ := later
  refine ⟨a ++ b, (List.append_assoc a b rest).symm, fun c member => ?_, ?_⟩
  · exact (List.mem_append.mp member).elim (plain c) (plain' c)
  · rw [List.length_append]
    exact Nat.add_le_add short short'

variable {v : Text}

theorem Reads.all {k : Nat} (reads : Reads k v []) : Plain v ∧ v.length ≤ k := by
  obtain ⟨taken, rfl, plain, short⟩ := reads
  rw [List.append_nil]
  exact ⟨plain, short⟩

theorem digits_reads (left x n : Nat) (v : Text) : Reads left v (digits left x n v).2.2 := by
  induction left generalizing x n v with
  | zero => exact Reads.refl 0 v
  | succ left ih =>
    cases v with
    | nil => exact Reads.refl _ []
    | cons c rest =>
      rw [digits]
      split
      · next is =>
          have plain : 0x2b ≤ c := by
            simp only [digit, decide_eq_true_eq] at is
            exact BitVec.le_trans (by decide) is.1
          rw [Nat.add_comm]
          exact (Reads.one plain rest).trans (ih _ _ rest)
      · exact Reads.refl _ _

theorem Reads.mono {k j : Nat} {v rest : Text} (reads : Reads k v rest) (le : k ≤ j) :
    Reads j v rest := by
  obtain ⟨taken, same, plain, short⟩ := reads
  exact ⟨taken, same, plain, short.trans le⟩

theorem takeSign_reads (v : Text) : Reads 1 v (takeSign v).2 := by
  cases v with
  | nil => exact Reads.refl 1 []
  | cons c rest =>
    rw [takeSign]
    split
    · next plus => exact Reads.one (by rw [plus]; decide) rest
    split
    · next minus => exact Reads.one (by rw [minus]; decide) rest
    · exact Reads.refl 1 _

theorem takeMinutes_reads (v : Text) : Reads 4 v (takeMinutes v).2 := by
  cases v with
  | nil => exact Reads.refl 4 []
  | cons c rest =>
    rw [takeMinutes]
    split
    · next colon => exact (Reads.one (by rw [colon]; decide) rest).trans (digits_reads 3 0 0 rest)
    · exact Reads.refl 4 _

theorem timezone_plain {m : Int} (parsed : parseTimezone v = some m) :
    Plain v ∧ v.length ≤ 8 := by
  have reads := (takeSign_reads v).trans ((digits_reads 3 0 0 (takeSign v).2).trans
    (takeMinutes_reads (digits 3 0 0 (takeSign v).2).2.2))
  rw [parseTimezone] at parsed
  dsimp only at parsed
  split at parsed
  · cases parsed
  split at parsed
  · cases parsed
  · next none =>
      rw [not_or, not_not] at none
      rw [none.1] at reads
      exact reads.all

theorem parts_reads {left a b : Nat} {v rest : Text} (parsed : parts left a v = some (b, rest)) :
    Reads (left * 5) v rest := by
  induction left generalizing a v with
  | zero =>
    cases parsed
    exact Reads.refl 0 _
  | succ left ih =>
    have number := digits_reads 4 0 0 v
    rw [parts] at parsed
    generalize digits 4 0 0 v = found at parsed number
    obtain ⟨x, n, u⟩ := found
    dsimp only at parsed number
    split at parsed
    · cases parsed
    split at parsed
    · cases parsed
      exact number.mono (by omega)
    · split at parsed
      · next c more =>
          split at parsed
          · next dot =>
              have point := Reads.one (show 0x2b ≤ c by rw [dot]; decide) more
              exact (number.trans (point.trans (ih parsed))).mono (by omega)
          · cases parsed
      · cases parsed

theorem usbAddress_plain {a : Nat} (parsed : parseUsbAddress v = some a) :
    Plain v ∧ v.length ≤ 20 := by
  rw [parseUsbAddress] at parsed
  split at parsed
  · cases parsed
  next b rest found =>
    have reads := parts_reads found
    dsimp only at parsed
    split at parsed
    · cases parsed
    · next none =>
        rw [not_not] at none
        subst none
        exact reads.all

theorem hostname_plain (good : validHostname v = true) : Plain v ∧ v.length ≤ 31 := by
  simp only [validHostname, Bool.decide_and, Bool.and_eq_true, decide_eq_true_eq] at good
  refine ⟨fun c member => ?_, good.2.1⟩
  have shape := List.all_eq_true.mp good.2.2.1 c member
  have all : ∀ c : Byte, hostnameByte c = true → 0x2b ≤ c := by decide
  exact all c shape

theorem parse_plain {k : Key} {x : Value} (parsed : k.parse v = some x) :
    Plain v ∧ v.length ≤ 31 := by
  cases k with
  | hostname =>
    rw [Key.parse] at parsed
    split at parsed
    · next good => exact hostname_plain good
    · cases parsed
  | usbAddress =>
    obtain ⟨a, found, -⟩ := Option.map_eq_some_iff.mp parsed
    obtain ⟨plain, short⟩ := usbAddress_plain found
    exact ⟨plain, short.trans (by decide)⟩
  | timezone =>
    obtain ⟨m, found, -⟩ := Option.map_eq_some_iff.mp parsed
    obtain ⟨plain, short⟩ := timezone_plain found
    exact ⟨plain, short.trans (by decide)⟩

def settingLine (name value : Text) : Text := name ++ [0x20, 0x3d, 0x20] ++ value

theorem cutComment_plain {l : Text} (plain : (0x23 : Byte) ∉ l) (before : Option Byte) :
    cutComment before l = l := by
  induction l generalizing before with
  | nil => rfl
  | cons c rest ih =>
    rw [List.mem_cons, not_or] at plain
    rw [cutComment, if_neg fun both => plain.1 both.1.symm, ih plain.2]

theorem name_plain : k.name ≠ [] ∧ ∀ c ∈ k.name, 0x2b ≤ c ∧ ends c = false := by
  cases k <;> decide

theorem plain_clean : ∀ c : Byte, 0x2b ≤ c → blank c = false ∧ trailing c = false := by decide

theorem dropWhile_plain (plain : Plain v) : v.dropWhile blank = v := by
  cases v with
  | nil => rfl
  | cons c rest =>
    exact List.dropWhile_cons_of_neg (by simp [plain_clean c (plain c List.mem_cons_self)])

theorem rdropWhile_plain (plain : Plain v) : v.rdropWhile trailing = v :=
  List.rdropWhile_eq_self_iff.mpr fun more => by
    simp [plain_clean _ (plain _ (List.getLast_mem more))]

theorem parse_settingLine (plain : Plain v) (more : v ≠ []) :
    parseLine (settingLine k.name v) = some (k.name, v) := by
  obtain ⟨named, clean⟩ := name_plain k
  have hash : (0x23 : Byte) ∉ settingLine k.name v := by
    have low : ¬ (0x2b : Byte) ≤ 0x23 := by decide
    simp only [settingLine, List.mem_append, not_or]
    exact ⟨⟨fun member => low (clean _ member).1, by decide⟩, fun member => low (plain _ member)⟩
  have begins : (settingLine k.name v).dropWhile blank = settingLine k.name v := by
    generalize k.name = name at named clean
    cases name with
    | nil => exact absurd rfl named
    | cons c rest =>
      exact List.dropWhile_cons_of_neg (by simp [plain_clean c (clean c List.mem_cons_self).1])
  have all : ∀ c ∈ k.name, (!ends c) = true := fun c member => by rw [(clean c member).2]; rfl
  have key : (settingLine k.name v).takeWhile (fun c => !ends c) = k.name := by
    rw [settingLine, List.append_assoc, List.takeWhile_append_of_pos all]
    exact List.append_nil k.name
  have after : (settingLine k.name v).dropWhile (fun c => !ends c) = 0x20 :: 0x3d :: 0x20 :: v := by
    rw [settingLine, List.append_assoc, List.dropWhile_append_of_pos all]
    rfl
  have value : ((0x20 : Byte) :: v).dropWhile blank = v := by
    rw [List.dropWhile_cons_of_pos (by decide), dropWhile_plain plain]
  rw [parseLine, cutComment_plain hash, begins]
  simp only [key, after, if_neg named]
  change (if (0x3d : Byte) ≠ 0x3d then none else _) = _
  rw [if_neg (by decide), value, rdropWhile_plain plain, if_neg more]

theorem parse_nil : k.parse [] = none := by cases k <;> rfl

theorem settingLine_clean (plain : Plain v) (short : v.length ≤ 31) :
    newline ∉ settingLine k.name v ∧ (settingLine k.name v).length ≤ lineMax := by
  have low : ¬ (0x2b : Byte) ≤ newline := by decide
  have name : k.name.length ≤ 11 := by cases k <;> decide
  constructor
  · simp only [settingLine, List.mem_append, not_or]
    exact ⟨⟨fun member => low ((name_plain k).2 _ member).1, by decide⟩,
      fun member => low (plain _ member)⟩
  · simp only [settingLine, List.length_append, List.length_cons, List.length_nil, lineMax]
    omega

theorem takeCut_settingLine {k : Key} {x : Value} (parsed : k.parse v = some x)
    (s : Settings) : k.get (takeCut s (settingLine k.name v)) = x := by
  obtain ⟨plain, short⟩ := parse_plain parsed
  have more : v ≠ [] := by
    rintro rfl
    rw [parse_nil] at parsed
    cases parsed
  have some : settingLine k.name v ≠ [] := by
    intro none
    have lengths := congrArg List.length none
    simp [settingLine] at lengths
  have own : keyIs k.name k.name = true := by cases k <;> decide
  rw [takeCut, if_neg some, List.take_of_length_le (settingLine_clean k plain short).2, takeLine_get,
    parse_settingLine k plain more]
  dsimp only
  rw [if_pos own, parsed]
  rfl

theorem settingLine_key (plain : Plain v) (more : v ≠ []) :
    lineKey (settingLine k.name v) = some k.name :=
  lineKey_of_parse (List.prefix_refl _) (parse_settingLine k plain more)

end Ubiqos.Config
