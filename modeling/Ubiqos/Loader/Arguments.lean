import Mathlib.Data.BitVec
import Mathlib.Data.List.Forall2
import Mathlib.Logic.Function.Basic

/-!
The command line of a new process, as `create_process` in `kernel/scheduler.c`
lays it out: copied to the bottom of the process's area and split where it lies.
Offsets count from the bottom of the area. The splitter reads at `p` and writes
at `w` in one buffer; `writes` is history only, and no function reads it.
-/

namespace Ubiqos.Loader

open Function

abbrev Byte := BitVec 8

def space : Byte := 32
def doubleQuote : Byte := 34
def singleQuote : Byte := 39

def isQuote (c : Byte) : Bool := c = doubleQuote ∨ c = singleQuote

inductive Mode where
  | between | word
  | quoted (quote : Byte)

/-- Spaces part words. A run in quotes belongs to the word it stands in, without
its quotes, and inside it everything is literal, the other quote too. One that
is never closed runs to the end of the line. `soFar` is the word being read. -/
def tokens : Mode → List Byte → List Byte → List (List Byte)
  | .between, _, [] => []
  | .word, soFar, [] => [soFar]
  | .quoted _, soFar, [] => [soFar]
  | .between, _, c :: rest =>
    if c = space then tokens .between [] rest
    else if isQuote c then tokens (.quoted c) [] rest
    else tokens .word [c] rest
  | .word, soFar, c :: rest =>
    if c = space then soFar :: tokens .between [] rest
    else if isQuote c then tokens (.quoted c) soFar rest
    else tokens .word (soFar ++ [c]) rest
  | .quoted quote, soFar, c :: rest =>
    if c = quote then tokens .word soFar rest
    else tokens (.quoted quote) (soFar ++ [c]) rest

def words (line : List Byte) : List (List Byte) := tokens .between [] line

example : words [97, 32, 34, 98, 32, 39, 34, 99, 32, 32, 39, 39, 32, 34, 100] =
    [[97], [98, 32, 39, 99], [], [100]] := by decide

structure Splitter where
  text : Nat → Byte
  p : Nat
  w : Nat
  argv : List Nat
  /-- Each write with the place the reader had reached when it was done. -/
  writes : List (Nat × Nat)

/-- `*w++ = *p++`. -/
def Splitter.copy (s : Splitter) : Splitter :=
  { s with
    text := update s.text s.w (s.text s.p)
    p := s.p + 1
    w := s.w + 1
    writes := (s.w, s.p + 1) :: s.writes }

/-- `*w++ = 0`. -/
def Splitter.terminate (s : Splitter) : Splitter :=
  { s with
    text := update s.text s.w 0
    w := s.w + 1
    writes := (s.w, s.p) :: s.writes }

/-- `p++`. -/
def Splitter.advance (s : Splitter) : Splitter := { s with p := s.p + 1 }

-- A loop never turns more often than the line has characters, which is its fuel.

/-- `while (*p == ' ') p++`. -/
def skipSpaces : Nat → Splitter → Splitter
  | 0, s => s
  | fuel + 1, s => if s.text s.p = space then skipSpaces fuel s.advance else s

/-- `while (*p && *p != quote) *w++ = *p++`. -/
def copyQuoted (quote : Byte) : Nat → Splitter → Splitter
  | 0, s => s
  | fuel + 1, s =>
    if s.text s.p = 0 ∨ s.text s.p = quote then s else copyQuoted quote fuel s.copy

/-- The loop over one word; `length` is that of the line. -/
def copyWord (length : Nat) : Nat → Splitter → Splitter
  | 0, s => s
  | fuel + 1, s =>
    if s.text s.p = 0 ∨ s.text s.p = space then s
    else if isQuote (s.text s.p) then
      let s := copyQuoted (s.text s.p) length s.advance
      -- skip the closing quote
      let s := if s.text s.p = 0 then s else s.advance
      copyWord length fuel s
    else copyWord length fuel s.copy

/-- The first `turns` turns of the outer loop. `argv` holds the words alone, so
that `argc` is one more than its length. -/
def splitWords (length : Nat) : Nat → Splitter → Splitter
  | 0, s => s
  | turns + 1, s =>
    if s.text s.p = 0 ∨ 16 ≤ s.argv.length + 1 then s
    else
      let s := skipSpaces length s
      if s.text s.p = 0 then s
      else
        let s := copyWord length length { s with argv := s.argv ++ [s.w] }
        splitWords length turns (skipSpaces length s).terminate

structure CText where
  chars : List Byte
  ends : 0 ∉ chars

/-- What is copied of the arguments when the area has `bytes` bytes. -/
def copied (bytes : Nat) (args : CText) : List Byte := args.chars.take (bytes / 2)

/-- The copy at the bottom of an area that held `old`. -/
def argText (bytes : Nat) (args : CText) (old : Nat → Byte) (i : Nat) : Byte :=
  if inside : i < (copied bytes args).length then (copied bytes args)[i]
  else if i = (copied bytes args).length then 0
  else old i

def atStart (bytes : Nat) (args : CText) (old : Nat → Byte) : Splitter :=
  { text := argText bytes args old, p := 0, w := 0, argv := [], writes := [] }

/-- The splitter of `create_process`. -/
def splitArgs (bytes : Nat) (args : CText) (old : Nat → Byte) : Splitter :=
  splitWords (copied bytes args).length 16 (atStart bytes args old)

def Stands (text : Nat → Byte) : Nat → List Byte → Prop
  | _, [] => True
  | i, c :: rest => text i = c ∧ Stands text (i + 1) rest

section Stands
variable {text text' : Nat → Byte} {i : Nat}

theorem stands_append {front back : List Byte} :
    Stands text i (front ++ back) ↔ Stands text i front ∧ Stands text (i + front.length) back := by
  induction front generalizing i with
  | nil => simp [Stands]
  | cons c rest ih =>
    have next : i + 1 + rest.length = i + (rest.length + 1) := by omega
    simp only [List.cons_append, Stands, ih, List.length_cons, next, and_assoc]

theorem stands_congr {word : List Byte}
    (same : ∀ j, i ≤ j → j < i + word.length → text' j = text j) (stands : Stands text i word) :
    Stands text' i word := by
  induction word generalizing i with
  | nil => trivial
  | cons c rest ih =>
    simp only [List.length_cons] at same
    refine ⟨(same i (Nat.le_refl i) (by omega)).trans stands.1, ih ?_ stands.2⟩
    intro j above below
    exact same j (by omega) (by omega)

theorem stands_of_get {word : List Byte} (get : ∀ j (inside : j < word.length),
    text (i + j) = word[j]) : Stands text i word := by
  induction word generalizing i with
  | nil => trivial
  | cons c rest ih =>
    refine ⟨get 0 (by simp), ih ?_⟩
    intro j inside
    have there := get (j + 1) (by simpa using inside)
    rwa [← Nat.add_assoc, Nat.add_right_comm] at there

end Stands

def Sound (length : Nat) (writes : List (Nat × Nat)) : Prop :=
  ∀ write ∈ writes, write.1 ≤ write.2 ∧ (write.1 = write.2 → write.2 = length)

/-- What holds wherever the reader is: ahead of it the line is as it was copied. -/
structure Ahead (length : Nat) (original : Nat → Byte) (rest : List Byte) (s : Splitter) :
    Prop where
  unread : Stands s.text s.p (rest ++ [0])
  ends : 0 ∉ rest
  place : s.p + rest.length = length
  kept : ∀ i, s.p ≤ i → s.text i = original i
  sound : Sound length s.writes

/-- In a word that began at `start`. -/
structure Reading (length : Nat) (original : Nat → Byte) (start : Nat) (soFar rest : List Byte)
    (s : Splitter) : Prop extends Ahead length original rest s where
  behind : s.w ≤ s.p
  word : Stands s.text start soFar
  place' : start + soFar.length = s.w

/-- Nothing in front of `start` changes in a word. -/
structure Grows (start : Nat) (s t : Splitter) : Prop where
  argv : t.argv = s.argv
  earlier : ∀ i < start, t.text i = s.text i

section Steps
variable {length start fuel : Nat} {original : Nat → Byte} {soFar rest : List Byte} {c : Byte}
  {s t u : Splitter}

theorem Grows.refl (start : Nat) (s : Splitter) : Grows start s s := ⟨rfl, fun _ _ => rfl⟩

theorem Grows.trans (first : Grows start s t) (second : Grows start t u) : Grows start s u :=
  ⟨second.argv.trans first.argv,
    fun i below => (second.earlier i below).trans (first.earlier i below)⟩

theorem Ahead.here (ahead : Ahead length original (c :: rest) s) : s.text s.p = c := ahead.unread.1

theorem Ahead.nonzero (ahead : Ahead length original (c :: rest) s) : c ≠ 0 := by
  rintro rfl
  exact ahead.ends List.mem_cons_self

theorem Ahead.atEnd (ahead : Ahead length original [] s) : s.text s.p = 0 := ahead.unread.1

theorem Ahead.advance (ahead : Ahead length original (c :: rest) s) :
    Ahead length original rest s.advance := by
  refine ⟨ahead.unread.2, fun zero => ahead.ends (List.mem_cons_of_mem c zero), ?_, ?_, ahead.sound⟩
  · have place := ahead.place
    simp only [Splitter.advance, List.length_cons] at place ⊢
    omega
  · intro i above
    exact ahead.kept i (Nat.le_of_succ_le above)

theorem Reading.advance (reading : Reading length original start soFar (c :: rest) s) :
    Reading length original start soFar rest s.advance :=
  ⟨reading.toAhead.advance, Nat.le_succ_of_le reading.behind, reading.word, reading.place'⟩

theorem Reading.copy (reading : Reading length original start soFar (c :: rest) s) :
    Reading length original start (soFar ++ [c]) rest s.copy ∧ Grows start s s.copy := by
  have behind := reading.behind
  have place' := reading.place'
  have away : ∀ i, i ≠ s.w → s.copy.text i = s.text i := fun i other => update_of_ne other _ _
  refine ⟨⟨⟨?_, ?_, ?_, ?_, ?_⟩, Nat.succ_le_succ behind, ?_, ?_⟩, rfl, ?_⟩
  · refine stands_congr (fun j above _ => away j ?_) reading.unread.2
    have passed : s.p + 1 ≤ j := above
    omega
  · exact fun zero => reading.ends (List.mem_cons_of_mem c zero)
  · have place := reading.place
    simp only [Splitter.copy, List.length_cons] at place ⊢
    omega
  · intro i above
    have passed : s.p + 1 ≤ i := above
    rw [away i (by omega)]
    exact reading.kept i (by omega)
  · intro write member
    rcases List.mem_cons.mp member with rfl | older
    · exact ⟨by dsimp only; omega, fun same => by dsimp only at same; omega⟩
    · exact reading.sound write older
  · refine stands_append.mpr ⟨stands_congr (fun j _ below => away j ?_) reading.word, ?_, trivial⟩
    · omega
    · rw [place']
      exact (update_self _ _ _).trans reading.here
  · simp only [Splitter.copy, List.length_append, List.length_singleton]
    omega
  · intro i below
    exact away i (by omega)

theorem skipSpaces_spec {f : Nat} (ahead : Ahead length original rest s) (enough : rest.length ≤ f) :
    ∃ rest', Ahead length original rest' (skipSpaces f s) ∧
      tokens .between [] rest = tokens .between [] rest' ∧ space ∉ rest'.head? ∧
      (rest = rest' ∨ s.p < (skipSpaces f s).p) ∧ s.p ≤ (skipSpaces f s).p ∧
      (rest = [] → rest' = []) ∧
      skipSpaces f s = { s with p := (skipSpaces f s).p } := by
  induction f generalizing s rest with
  | zero =>
    have nothing := List.eq_nil_of_length_eq_zero (Nat.le_zero.mp enough)
    subst nothing
    exact ⟨[], ahead, rfl, by simp, Or.inl rfl, Nat.le_refl _, id, rfl⟩
  | succ f ih =>
    rw [skipSpaces]
    cases rest with
    | nil =>
      rw [if_neg (by rw [ahead.atEnd]; decide)]
      exact ⟨[], ahead, rfl, by simp, Or.inl rfl, Nat.le_refl _, id, rfl⟩
    | cons c rest =>
      by_cases isSpace : c = space
      · rw [if_pos (ahead.here.trans isSpace)]
        obtain ⟨rest', after, same, first, _, further, _, frame⟩ :=
          ih ahead.advance (by simpa using enough)
        have passed : s.p + 1 ≤ (skipSpaces f s.advance).p := further
        refine ⟨rest', after, ?_, first, Or.inr (by omega), by omega, by simp, ?_⟩
        · rw [← same, tokens, if_pos isSpace]
        · rw [frame]
          rfl
      · rw [if_neg (by rw [ahead.here]; exact isSpace)]
        exact ⟨c :: rest, ahead, rfl, by simpa using isSpace, Or.inl rfl, Nat.le_refl _, by simp,
          rfl⟩

theorem copyQuoted_spec {f : Nat} (quote : Byte) (reading : Reading length original start soFar rest s)
    (enough : rest.length ≤ f) :
    ∃ soFar' rest', Reading length original start soFar' rest' (copyQuoted quote f s) ∧
      Grows start s (copyQuoted quote f s) ∧
      tokens (.quoted quote) soFar rest = tokens (.quoted quote) soFar' rest' ∧
      (rest' = [] ∨ ∃ tail, rest' = quote :: tail) ∧ rest'.length ≤ rest.length := by
  induction f generalizing s soFar rest with
  | zero =>
    have nothing := List.eq_nil_of_length_eq_zero (Nat.le_zero.mp enough)
    subst nothing
    exact ⟨soFar, [], reading, .refl _ _, rfl, Or.inl rfl, Nat.le_refl _⟩
  | succ f ih =>
    rw [copyQuoted]
    cases rest with
    | nil =>
      rw [if_pos (Or.inl reading.toAhead.atEnd)]
      exact ⟨soFar, [], reading, .refl _ _, rfl, Or.inl rfl, Nat.le_refl _⟩
    | cons c rest =>
      by_cases closes : c = quote
      · rw [if_pos (Or.inr (reading.here.trans closes))]
        exact ⟨soFar, c :: rest, reading, .refl _ _, rfl, Or.inr ⟨rest, by rw [closes]⟩,
          Nat.le_refl _⟩
      · rw [if_neg (by rw [reading.here]; exact not_or.mpr ⟨reading.nonzero, closes⟩)]
        obtain ⟨copied, grown⟩ := reading.copy
        obtain ⟨soFar', rest', after, grows, same, stops, shorter⟩ :=
          ih copied (by simpa using enough)
        refine ⟨soFar', rest', after, grown.trans grows, ?_, stops, by simp only [List.length_cons]; omega⟩
        rw [← same, tokens, if_neg closes]

theorem copyWord_spec (reading : Reading length original start soFar rest s)
    (enough : rest.length ≤ fuel) (whole : rest.length ≤ length) :
    ∃ soFar' rest', Reading length original start soFar' rest' (copyWord length fuel s) ∧
      Grows start s (copyWord length fuel s) ∧
      tokens .word soFar rest = tokens .word soFar' rest' ∧
      (rest' = [] ∨ ∃ tail, rest' = space :: tail) := by
  induction fuel generalizing s soFar rest with
  | zero =>
    have nothing := List.eq_nil_of_length_eq_zero (Nat.le_zero.mp enough)
    subst nothing
    exact ⟨soFar, [], reading, .refl _ _, rfl, Or.inl rfl⟩
  | succ fuel ih =>
    rw [copyWord]
    cases rest with
    | nil =>
      rw [if_pos (Or.inl reading.toAhead.atEnd)]
      exact ⟨soFar, [], reading, .refl _ _, rfl, Or.inl rfl⟩
    | cons c rest =>
      simp only [List.length_cons] at enough whole
      by_cases isSpace : c = space
      · rw [if_pos (Or.inr (reading.here.trans isSpace))]
        exact ⟨soFar, c :: rest, reading, .refl _ _, rfl, Or.inr ⟨rest, by rw [isSpace]⟩⟩
      · rw [if_neg (by rw [reading.here]; exact not_or.mpr ⟨reading.nonzero, isSpace⟩),
          reading.here]
        by_cases quotes : isQuote c = true
        · rw [if_pos quotes]
          dsimp only
          obtain ⟨inner, rest', quoted, grown, same, stops, shorter⟩ :=
            copyQuoted_spec (f := length) c reading.advance (by omega)
          have opened : tokens .word soFar (c :: rest) = tokens (.quoted c) inner rest' := by
            rw [← same, tokens, if_neg isSpace, if_pos quotes]
          have entered : Grows start s (copyQuoted c length s.advance) :=
            ⟨grown.argv, grown.earlier⟩
          rcases stops with rfl | ⟨tail, rfl⟩
          · -- never closed: the line is at its end
            rw [if_pos quoted.toAhead.atEnd]
            obtain ⟨soFar', rest'', after, grows, final, ends⟩ := ih quoted (by simp) (by simp)
            exact ⟨soFar', rest'', after, entered.trans grows, opened.trans final, ends⟩
          · rw [if_neg (by rw [quoted.here]; exact quoted.nonzero)]
            simp only [List.length_cons] at shorter
            obtain ⟨soFar', rest'', after, grows, final, ends⟩ :=
              ih quoted.advance (by omega) (by omega)
            have closed : tokens (.quoted c) inner (c :: tail) = tokens .word inner tail := by
              rw [tokens, if_pos rfl]
            exact ⟨soFar', rest'', after, entered.trans ⟨grows.argv, grows.earlier⟩,
              opened.trans (closed.trans final), ends⟩
        · rw [if_neg quotes]
          obtain ⟨copied, grown⟩ := reading.copy
          obtain ⟨soFar', rest', after, grows, final, ends⟩ := ih copied (by omega) (by omega)
          refine ⟨soFar', rest', after, grown.trans grows, ?_, ends⟩
          rw [← final, tokens, if_neg isSpace, if_neg quotes]

end Steps

/-- `start` is where a C string of exactly these characters stands. -/
structure Spells (text : Nat → Byte) (start : Nat) (word : List Byte) : Prop where
  stands : Stands text start (word ++ [0])
  ends : 0 ∉ word

theorem tokens_mem {mode : Mode} {soFar line : List Byte} :
    ∀ word ∈ tokens mode soFar line, ∀ c ∈ word, c ∈ soFar ∨ c ∈ line := by
  induction line generalizing mode soFar with
  | nil =>
    cases mode with
    | between => simp [tokens]
    | word => simp [tokens]
    | quoted quote => simp [tokens]
  | cons first rest ih =>
    have later : ∀ {mode soFar'}, (∀ c ∈ soFar', c ∈ soFar ∨ c = first) →
        ∀ word ∈ tokens mode soFar' rest, ∀ c ∈ word, c ∈ soFar ∨ c ∈ first :: rest := by
      intro mode soFar' grown word member c inside
      rcases ih word member c inside with early | late
      · rcases grown c early with before | now
        · exact Or.inl before
        · exact Or.inr (by rw [now]; exact List.mem_cons_self)
      · exact Or.inr (List.mem_cons_of_mem first late)
    cases mode with
    | between =>
      rw [tokens]
      split
      · exact later (by simp)
      · split
        · exact later (by simp)
        · exact later (by simp)
    | word =>
      rw [tokens]
      split
      · intro word member c inside
        rcases List.mem_cons.mp member with rfl | other
        · exact Or.inl inside
        · exact later (by simp) word other c inside
      · split
        · exact later (fun c inside => Or.inl inside)
        · exact later (by simp)
    | quoted quote =>
      rw [tokens]
      split
      · exact later (fun c inside => Or.inl inside)
      · exact later (by simp)

structure Between (length : Nat) (original : Nat → Byte) (done : List (List Byte))
    (rest : List Byte) (s : Splitter) : Prop extends Ahead length original rest s where
  behind : s.w ≤ s.p ∨ rest = []
  words : List.Forall₂ (fun start word =>
    Stands s.text start (word ++ [0]) ∧ start + word.length < s.w) s.argv done

section Turns
variable {length : Nat} {original : Nat → Byte} {done : List (List Byte)} {rest : List Byte}
  {s : Splitter}

theorem Reading.terminate {start : Nat} {soFar : List Byte} {argv : List Nat}
    (reading : Reading length original start soFar rest s) (stops : s.w = s.p → rest = [])
    (listed : s.argv = argv ++ [start])
    (words : List.Forall₂ (fun start' word =>
      Stands s.text start' (word ++ [0]) ∧ start' + word.length < start) argv done) :
    Between length original (done ++ [soFar]) rest s.terminate := by
  have behind := reading.behind
  have place := reading.place
  have place' := reading.place'
  have away : ∀ i, i ≠ s.w → s.terminate.text i = s.text i := fun i other => update_of_ne other _ _
  have here : s.terminate.text s.w = 0 := update_self _ _ _
  refine ⟨⟨?_, reading.ends, place, ?_, ?_⟩, ?_, ?_⟩
  · by_cases same : s.w = s.p
    · have nothing := stops same
      subst nothing
      exact ⟨same ▸ here, trivial⟩
    · refine stands_congr (fun j above _ => away j ?_) reading.unread
      have passed : s.p ≤ j := above
      omega
  · intro i above
    by_cases same : i = s.w
    · have passed : s.p ≤ i := above
      have atEnd : s.w = s.p := by omega
      have nothing := stops atEnd
      subst nothing
      rw [same, here, ← reading.kept s.w (by omega), atEnd]
      exact reading.toAhead.atEnd.symm
    · rw [away i same]
      exact reading.kept i above
  · intro write member
    rcases List.mem_cons.mp member with rfl | older
    · refine ⟨behind, ?_⟩
      intro same
      have nothing := stops same
      subst nothing
      exact place
    · exact reading.sound write older
  · by_cases same : s.w = s.p
    · exact Or.inr (stops same)
    · exact Or.inl (by simp only [Splitter.terminate]; omega)
  · have kept : s.terminate.argv = argv ++ [start] := listed
    have next : s.terminate.w = s.w + 1 := rfl
    rw [kept, next]
    refine List.rel_append (words.imp ?_) (.cons ⟨?_, by omega⟩ .nil)
    · rintro start' word ⟨stands, below⟩
      refine ⟨stands_congr (fun j above short => away j ?_) stands, by omega⟩
      simp only [List.length_append, List.length_singleton] at short
      omega
    · refine stands_append.mpr ⟨stands_congr (fun j _ below => away j ?_) reading.word, ?_, trivial⟩
      · omega
      · rw [place']
        exact here

theorem tokens_begins {c : Byte} (apart : c ≠ space) :
    tokens .between [] (c :: rest) = tokens .word [] (c :: rest) := by
  rw [tokens, tokens, if_neg apart, if_neg apart]
  rfl

theorem tokens_stops {soFar : List Byte} (stops : rest = [] ∨ ∃ tail, rest = space :: tail) :
    tokens .word soFar rest = soFar :: tokens .between [] rest := by
  rcases stops with rfl | ⟨tail, rfl⟩
  · rfl
  · rw [tokens, if_pos rfl, tokens, if_pos rfl]

/-- One turn: the word that begins here is copied, and the spaces behind it are passed
before its NUL is written. -/
theorem Ahead.takes_word {c : Byte} (ahead : Ahead length original (c :: rest) s)
    (apart : c ≠ space) (low : s.w ≤ s.p) (whole : (c :: rest).length ≤ length)
    (words : List.Forall₂ (fun start word =>
      Stands s.text start (word ++ [0]) ∧ start + word.length < s.w) s.argv done) :
    ∃ soFar rest', Between length original (done ++ [soFar]) rest'
        (skipSpaces length (copyWord length length { s with argv := s.argv ++ [s.w] })).terminate ∧
      tokens .between [] (c :: rest) = soFar :: tokens .between [] rest' := by
  have begins : Reading length original s.w [] (c :: rest) { s with argv := s.argv ++ [s.w] } :=
    ⟨⟨ahead.unread, ahead.ends, ahead.place, ahead.kept, ahead.sound⟩, low, trivial, rfl⟩
  obtain ⟨soFar, rest₂, read, grows, word, stops⟩ := copyWord_spec begins whole whole
  obtain ⟨rest₃, behind, same, notSpace, moved, further, nothing, frame⟩ :=
    skipSpaces_spec (f := length) read.toAhead (by have place := read.place; omega)
  generalize copyWord length length { s with argv := s.argv ++ [s.w] } = u
    at read grows behind moved further frame ⊢
  have text : (skipSpaces length u).text = u.text := by rw [frame]
  have w : (skipSpaces length u).w = u.w := by rw [frame]
  have argv : (skipSpaces length u).argv = u.argv := by rw [frame]
  generalize skipSpaces length u = v at behind moved further text w argv ⊢
  have lower := read.behind
  have ready : Reading length original s.w soFar rest₃ v :=
    ⟨behind, by omega, by rw [text]; exact read.word, read.place'.trans w.symm⟩
  -- a space was passed, or the line is at its end
  have ended : v.w = v.p → rest₃ = [] := by
    intro meets
    rcases moved with unmoved | passed
    · rcases stops with empty | ⟨tail, spaced⟩
      · exact nothing empty
      · subst unmoved
        rw [spaced] at notSpace
        exact absurd rfl notSpace
    · omega
  refine ⟨soFar, rest₃, ready.terminate ended (argv.trans grows.argv) (words.imp ?_), ?_⟩
  · rintro start word ⟨stands, below⟩
    refine ⟨stands_congr (fun j _ short => ?_) stands, by omega⟩
    simp only [List.length_append, List.length_singleton] at short
    rw [text, grows.earlier j (by omega)]
  · rw [tokens_begins apart, word, tokens_stops stops, same]

theorem splitWords_spec (turns : Nat) (between : Between length original done rest s)
    (whole : rest.length ≤ length) (few : done.length ≤ 15) :
    ∃ rest', Between length original
      (done ++ (tokens .between [] rest).take (min turns (15 - done.length))) rest'
        (splitWords length turns s) := by
  induction turns generalizing s done rest with
  | zero =>
    rw [Nat.zero_min, List.take_zero, List.append_nil]
    exact ⟨rest, between⟩
  | succ turns ih =>
    have count : s.argv.length = done.length := between.words.length_eq
    rw [splitWords]
    by_cases full : 16 ≤ s.argv.length + 1
    · rw [if_pos (Or.inr full), show 15 - done.length = 0 by omega, Nat.min_zero, List.take_zero,
        List.append_nil]
      exact ⟨rest, between⟩
    cases rest with
    | nil =>
      rw [if_pos (Or.inl between.toAhead.atEnd)]
      exact ⟨[], by simpa [tokens] using between⟩
    | cons first more =>
      rw [if_neg (by
        rw [between.toAhead.here]
        exact not_or.mpr ⟨between.toAhead.nonzero, full⟩)]
      dsimp only
      obtain ⟨rest₁, skipped, same, notSpace, _, further, _, frame⟩ :=
        skipSpaces_spec between.toAhead whole
      have low : s.w ≤ s.p := between.behind.resolve_right (by simp)
      have text : (skipSpaces length s).text = s.text := by rw [frame]
      have w : (skipSpaces length s).w = s.w := by rw [frame]
      have argv : (skipSpaces length s).argv = s.argv := by rw [frame]
      generalize skipSpaces length s = t at skipped further text w argv
      have words := between.words
      rw [← text, ← w, ← argv] at words
      cases rest₁ with
      | nil =>
        rw [if_pos skipped.atEnd, same, tokens, List.take_nil, List.append_nil]
        exact ⟨[], skipped, Or.inr rfl, words⟩
      | cons c rest₁ =>
        rw [if_neg (by rw [skipped.here]; exact skipped.nonzero)]
        have bound : (c :: rest₁).length ≤ length := by
          have place := skipped.place
          omega
        obtain ⟨word, rest₂, closed, split⟩ :=
          skipped.takes_word (by simpa using notSpace) (by omega) bound words
        obtain ⟨rest', final⟩ := ih closed (by have place := closed.toAhead.place; omega)
          (by simp only [List.length_append, List.length_singleton]; omega)
        refine ⟨rest', ?_⟩
        have room : min (turns + 1) (15 - done.length) =
            min turns (15 - (done ++ [word]).length) + 1 := by
          simp only [List.length_append, List.length_singleton]
          omega
        rw [same, split, room, List.take_succ_cons]
        simpa only [List.append_assoc, List.singleton_append] using final

end Turns

/-- What a new process finds in `argv[1..]`, and what the splitter did to get it
there. -/
structure Exact (bytes : Nat) (args : CText) (old : Nat → Byte) : Prop where
  argv : List.Forall₂ (Spells (splitArgs bytes args old).text) (splitArgs bytes args old).argv
    ((words (copied bytes args)).take 15)
  sound : Sound (copied bytes args).length (splitArgs bytes args old).writes
  unread : ∀ turns i,
    (splitWords (copied bytes args).length turns (atStart bytes args old)).p ≤ i →
      (splitWords (copied bytes args).length turns (atStart bytes args old)).text i =
        argText bytes args old i

section Line
variable (bytes : Nat) (args : CText) (old : Nat → Byte)

theorem copied_ends : 0 ∉ copied bytes args := fun zero => args.ends (List.mem_of_mem_take zero)

theorem argText_stands : Stands (argText bytes args old) 0 (copied bytes args ++ [0]) := by
  refine stands_of_get ?_
  intro j inside
  simp only [List.length_append, List.length_singleton] at inside
  rw [Nat.zero_add]
  by_cases within : j < (copied bytes args).length
  · rw [argText, dif_pos within, List.getElem_append_left within]
  · have last : j = (copied bytes args).length := by omega
    rw [argText, dif_neg within, if_pos last, List.getElem_append_right (by omega)]
    simp

theorem atStart_between : Between (copied bytes args).length (argText bytes args old) []
    (copied bytes args) (atStart bytes args old) :=
  ⟨⟨argText_stands bytes args old, copied_ends bytes args, Nat.zero_add _, fun _ _ => rfl, by
    intro write member
    exact absurd member List.not_mem_nil⟩, Or.inl (Nat.le_refl 0), .nil⟩

theorem turns_between (turns : Nat) :
    ∃ rest', Between (copied bytes args).length (argText bytes args old)
      ((words (copied bytes args)).take (min turns 15)) rest'
        (splitWords (copied bytes args).length turns (atStart bytes args old)) :=
  splitWords_spec turns (atStart_between bytes args old) (Nat.le_refl _) (Nat.zero_le _)

theorem split_words : List.Forall₂ (Spells (splitArgs bytes args old).text)
    (splitArgs bytes args old).argv ((words (copied bytes args)).take 15) := by
  obtain ⟨rest', between⟩ := turns_between bytes args old 16
  have clean : ∀ word ∈ (words (copied bytes args)).take 15, 0 ∉ word := by
    intro word member zero
    rcases tokens_mem word (List.mem_of_mem_take member) 0 zero with none' | inLine
    · exact absurd none' List.not_mem_nil
    · exact copied_ends bytes args inLine
  have stands := between.words
  rw [show min 16 15 = 15 from rfl] at stands
  rw [List.forall₂_iff_get] at stands ⊢
  refine ⟨stands.1, ?_⟩
  intro i inArgv inWords
  exact ⟨(stands.2 i inArgv inWords).1, clean _ (List.get_mem _ _)⟩

/-- For every line, the words are those of what is copied of it, and the copy is
read before it is written over. -/
theorem create_process_argv : Exact bytes args old := by
  refine ⟨split_words bytes args old, ?_, ?_⟩
  · obtain ⟨rest', between⟩ := turns_between bytes args old 16
    exact between.sound
  · intro turns i above
    obtain ⟨rest', between⟩ := turns_between bytes args old turns
    exact between.kept i above

end Line

theorem spells_unique {text : Nat → Byte} {start : Nat} {one other : List Byte}
    (first : Spells text start one) (second : Spells text start other) : one = other := by
  induction one generalizing start other with
  | nil =>
    cases other with
    | nil => rfl
    | cons d more =>
      have zero : (0 : Byte) = d := first.stands.1.symm.trans second.stands.1
      exact absurd (by rw [zero]; exact List.mem_cons_self) second.ends
  | cons c rest ih =>
    cases other with
    | nil =>
      have zero : c = 0 := first.stands.1.symm.trans second.stands.1
      exact absurd (by rw [zero]; exact List.mem_cons_self) first.ends
    | cons d more =>
      have same : c = d := first.stands.1.symm.trans second.stands.1
      rw [same, ih ⟨first.stands.2, fun zero => first.ends (List.mem_cons_of_mem c zero)⟩
        ⟨second.stands.2, fun zero => second.ends (List.mem_cons_of_mem d zero)⟩]

def long (count : Nat) : CText := ⟨List.replicate count 97, by simp [List.mem_replicate]⟩

theorem words_long (count : Nat) :
    words (List.replicate (count + 1) 97) = [List.replicate (count + 1) 97] := by
  have more : ∀ soFar, tokens .word soFar (List.replicate count 97) =
      [soFar ++ List.replicate count 97] := by
    induction count with
    | zero =>
      intro soFar
      simp [tokens]
    | succ count ih =>
      intro soFar
      rw [List.replicate_succ, tokens, if_neg (by decide), if_neg (by decide), ih]
      simp
  rw [List.replicate_succ, words, tokens, if_neg (by decide), if_neg (by decide), more]
  rfl

/-- An area of a thousand bytes takes the first half thousand characters. -/
theorem long_line_is_cut : ¬ ∀ (bytes : Nat) (args : CText) (old : Nat → Byte),
    List.Forall₂ (Spells (splitArgs bytes args old).text) (splitArgs bytes args old).argv
      ((words args.chars).take 15) := by
  intro always
  have whole := always 1024 (long 513) (fun _ => 0)
  have cut := split_words 1024 (long 513) (fun _ => 0)
  have kept : copied 1024 (long 513) = List.replicate (511 + 1) 97 :=
    List.take_replicate
  have all : (long 513).chars = List.replicate (512 + 1) 97 := rfl
  rw [kept, words_long, List.take_of_length_le (Nat.le_add_left 1 14)] at cut
  rw [all, words_long, List.take_of_length_le (Nat.le_add_left 1 14)] at whole
  generalize (splitArgs 1024 (long 513) (fun _ => 0)).argv = argv at cut whole
  cases cut with
  | cons short _ =>
    cases whole with
    | cons full _ =>
      have lengths := congrArg List.length (spells_unique short full)
      rw [List.length_replicate, List.length_replicate] at lengths
      omega

end Ubiqos.Loader
