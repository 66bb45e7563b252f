import Ubiqos.Lib.Words

/-!
The streams of the C library, `src/common/ubiqos_stdio.h`: a buffer that is read into or written out
of in front of a descriptor, and one byte put back.
-/

namespace Ubiqos.Stdio

open Function Words

abbrev Byte := BitVec 8
abbrev U32 := BitVec 32

/-- A descriptor. What is read may be less than was asked for; a call that is refused answers less than zero. -/
structure Kernel (D : Type) where
  read : D → Nat → D × Option (List Byte)
  write : D → List Byte → D × Int
  seek : D → U32 → Nat → D × Int

structure FILE where
  buf : Option Memory
  size : Nat
  len : Nat
  pos : Nat
  used : Bool
  writing : Bool
  owned : Bool
  eof : Bool
  err : Bool
  unget : Int

structure Stream (D : Type) where
  f : FILE
  fd : D

def EOF : Int := -1

def bufsiz : Nat := 512

def seekSet : Nat := 0
def seekCur : Nat := 1
def seekEnd : Nat := 2

/-- The memory with `bytes` from a place on. -/
def laid (memory : Memory) (here : Nat) (bytes : List Byte) : Memory := fun place =>
  if here ≤ place then (bytes[place - here]?).getD (memory place) else memory place

def upTo (memory : Memory) (count : Nat) : List Byte := (List.range count).map memory

section Loops
variable {S : Type}

/-- `while (got < want) p[got++] = fgetc(f)`, until there is none or `last` is one to stop after. -/
def gather (getc : S → S × Int) (last : Int → Bool) : Nat → S → Memory → Nat → S × Memory × Nat
  | 0, s, array, got => (s, array, got)
  | left + 1, s, array, got =>
    let p := getc s
    if p.2 = EOF then (p.1, array, got)
    else
      let array := update array got (BitVec.ofInt 8 p.2)
      if last p.2 then (p.1, array, got + 1) else gather getc last left p.1 array (got + 1)

/-- `while (put < want) if (fputc(p[put], f) == EOF) break; else put++`. -/
def scatter (putc : Int → S → S × Int) : Nat → S → Memory → Nat → S × Nat
  | 0, s, _, put => (s, put)
  | left + 1, s, array, put =>
    let p := putc (array put).toNat s
    if p.2 = EOF then (p.1, put) else scatter putc left p.1 array (put + 1)

def readWith (getc : S → S × Int) (s : S) (array : Memory) (size nmemb : U32) : S × Memory × Nat :=
  let r := gather getc (fun _ => false) (size * nmemb).toNat s array 0
  (r.1, r.2.1, if size ≠ 0 then r.2.2 / size.toNat else 0)

def writeWith (putc : Int → S → S × Int) (s : S) (array : Memory) (size nmemb : U32) : S × Nat :=
  let r := scatter putc (size * nmemb).toNat s array 0
  (r.1, if size ≠ 0 then r.2 / size.toNat else 0)

def lineWith (getc : S → S × Int) (s : S) (array : Memory) (n : Int) : S × Memory × Bool :=
  let r := gather getc (fun c => c = 10) (n - 1).toNat s array 0
  if r.2.2 = 0 then (r.1, r.2.1, false) else (r.1, update r.2.1 r.2.2 0, true)

end Loops

section Calls
variable {D : Type} (k : Kernel D)

/-- `lseek` of `ubiqos_posix.h`, which does not know where a file ends. -/
def lseek (fd : D) (offset : U32) (whence : Nat) : D × Int :=
  if whence = seekEnd then (fd, -1) else k.seek fd offset whence

def freshFile (buf : Option Memory) (writing : Bool) : FILE :=
  { buf := buf, size := if buf.isSome then bufsiz else 0, len := 0, pos := 0, used := true,
    writing := writing, owned := buf.isSome, eof := false, err := false, unget := -1 }

def fflush (s : Stream D) : Stream D × Int :=
  if ¬ s.f.used then (s, EOF)
  else if ¬ s.f.writing ∨ s.f.len = 0 then (s, 0)
  else
    let p := k.write s.fd (upTo (s.f.buf.getD fun _ => 0) s.f.len)
    if p.2 < 0 then (⟨{ s.f with len := 0, err := true }, p.1⟩, EOF)
    else (⟨{ s.f with len := 0 }, p.1⟩, 0)

def fclose (s : Stream D) : Stream D × Int :=
  if ¬ s.f.used then (s, EOF)
  else
    let p := fflush k s
    (⟨{ p.1.f with buf := none, owned := false, used := false, size := 0 }, p.1.fd⟩, p.2)

def setvbuf (s : Stream D) (buf : Option Memory) (size : Nat) : Stream D × Int :=
  if ¬ s.f.used ∨ s.f.len ≠ 0 ∨ s.f.pos ≠ 0 then (s, -1)
  else ({ s with f := { s.f with buf := buf, size := if buf.isSome then size else 0, owned := false } }, 0)

/-- `__ubiqos_fill`. -/
def fill (s : Stream D) : Stream D × Bool :=
  if s.f.writing ∨ s.f.eof ∨ s.f.err then (s, false)
  else
    let f := { s.f with pos := 0, len := 0 }
    match f.buf with
    | none => (⟨f, s.fd⟩, false)
    | some buf =>
      match k.read s.fd f.size with
      | (fd, none) => (⟨{ f with err := true }, fd⟩, false)
      | (fd, some []) => (⟨{ f with eof := true }, fd⟩, false)
      | (fd, some bytes) => (⟨{ f with buf := some (laid buf 0 bytes), len := bytes.length }, fd⟩, true)

/-- `return f->buf[f->pos++]`. -/
def next (s : Stream D) : Stream D × Int :=
  ({ s with f := { s.f with pos := s.f.pos + 1 } }, ((s.f.buf.getD fun _ => 0) s.f.pos).toNat)

def direct (s : Stream D) : Stream D × Int :=
  match k.read s.fd 1 with
  | (fd, none) => (⟨{ s.f with err := true }, fd⟩, EOF)
  | (fd, some []) => (⟨{ s.f with eof := true }, fd⟩, EOF)
  | (fd, some (byte :: _)) => (⟨s.f, fd⟩, byte.toNat)

def fgetc (s : Stream D) : Stream D × Int :=
  if ¬ s.f.used ∨ s.f.writing then (s, EOF)
  else if 0 ≤ s.f.unget then ({ s with f := { s.f with unget := -1 } }, s.f.unget)
  else if s.f.pos < s.f.len then next s
  else
    let p := fill k s
    if p.2 then next p.1 else if p.1.f.buf.isSome then (p.1, EOF) else direct k p.1

def fread (s : Stream D) (array : Memory) (size nmemb : U32) : Stream D × Memory × Nat :=
  readWith (fgetc k) s array size nmemb

def fgets (s : Stream D) (array : Memory) (n : Int) : Stream D × Memory × Bool :=
  lineWith (fgetc k) s array n

def fputc (c : Int) (s : Stream D) : Stream D × Int :=
  if ¬ s.f.used then (s, EOF)
  else
    let f := { s.f with writing := true }
    let byte := BitVec.ofInt 8 c
    match f.buf with
    | none =>
      let p := k.write s.fd [byte]
      (⟨f, p.1⟩, if p.2 = 1 then c else EOF)
    | some buf =>
      let stored : Stream D := ⟨{ f with buf := some (update buf f.len byte), len := f.len + 1 }, s.fd⟩
      if f.size ≤ f.len + 1 then
        let p := fflush k stored
        if p.2 = EOF then (p.1, EOF) else (p.1, c)
      else (stored, c)

def fwrite (s : Stream D) (array : Memory) (size nmemb : U32) : Stream D × Nat :=
  writeWith (fputc k) s array size nmemb

def fseek (s : Stream D) (offset : U32) (whence : Nat) : Stream D × Int :=
  if ¬ s.f.used then (s, -1)
  else
    let flushed : Stream D × Int := if s.f.writing then fflush k s else (s, 0)
    let s := flushed.1
    if flushed.2 = EOF then (s, -1)
    else
      let place : D × Option (U32 × Nat) :=
        if whence = seekCur then
          let here := lseek k s.fd 0 seekCur
          if here.2 < 0 then (here.1, none)
          else (here.1, some (offset + (BitVec.ofInt 32 here.2 -
            (BitVec.ofNat 32 s.f.len - BitVec.ofNat 32 s.f.pos)), seekSet))
        else (s.fd, some (offset, whence))
      match place with
      | (fd, none) => (⟨s.f, fd⟩, -1)
      | (fd, some (offset, whence)) =>
        let moved := lseek k fd offset whence
        if moved.2 < 0 then (⟨s.f, moved.1⟩, -1)
        else (⟨{ s.f with len := 0, pos := 0, eof := false }, moved.1⟩, 0)

def ftell (s : Stream D) : Stream D × Int :=
  if ¬ s.f.used then (s, -1)
  else
    let here := lseek k s.fd 0 seekCur
    if here.2 < 0 then (⟨s.f, here.1⟩, -1)
    else if s.f.writing then
      (⟨s.f, here.1⟩, (BitVec.ofInt 32 here.2 + BitVec.ofNat 32 s.f.len).toInt)
    else (⟨s.f, here.1⟩, (BitVec.ofInt 32 here.2 -
      (BitVec.ofNat 32 s.f.len - BitVec.ofNat 32 s.f.pos)).toInt)

/-- `unget` is an `int16_t`. -/
def ungetc (c : Int) (s : Stream D) : Stream D × Int :=
  if ¬ s.f.used ∨ c = EOF ∨ 0 ≤ s.f.unget then (s, EOF)
  else ({ s with f := { s.f with unget := (BitVec.ofInt 16 c).toInt, eof := false } }, c)

end Calls

section Moved
variable {S : Type} {getc : S → S × Int} {putc : Int → S → S × Int}

def Gives (getc : S → S × Int) : List Byte → S → S → Prop
  | [], s, t => t = s
  | byte :: rest, s, t =>
    (getc s).2 ≠ EOF ∧ BitVec.ofInt 8 (getc s).2 = byte ∧ Gives getc rest (getc s).1 t

def Takes (putc : Int → S → S × Int) : List Byte → S → S → Prop
  | [], s, t => t = s
  | byte :: rest, s, t => (putc byte.toNat s).2 ≠ EOF ∧ Takes putc rest (putc byte.toNat s).1 t

/-- Whole elements of `size` bytes are counted, and no more bytes than `nmemb` of them are touched. -/
structure Counted (size nmemb : U32) (moved count : Nat) : Prop where
  within : moved ≤ nmemb.toNat * size.toNat
  whole : count = moved / size.toNat

/-- As many bytes as `readWith` took are from the start of the array on, and nothing else of it is
touched. -/
def Filled (getc : S → S × Int) (s : S) (array : Memory) (size nmemb : U32) (r : S × Memory × Nat) : Prop :=
  ∃ bytes t, Gives getc bytes s t ∧ r.2.1 = laid array 0 bytes ∧ Counted size nmemb bytes.length r.2.2 ∧
    (r.1 = t ∧ bytes.length = (size * nmemb).toNat ∨ (getc t).2 = EOF ∧ r.1 = (getc t).1)

def Emptied (putc : Int → S → S × Int) (s : S) (array : Memory) (size nmemb : U32) (r : S × Nat) : Prop :=
  ∃ moved t, Takes putc (upTo array moved) s t ∧ Counted size nmemb moved r.2 ∧
    (r.1 = t ∧ moved = (size * nmemb).toNat ∨ (putc (array moved).toNat t).2 = EOF ∧
      moved < (size * nmemb).toNat ∧ r.1 = (putc (array moved).toNat t).1)

theorem product_le (size nmemb : U32) : (size * nmemb).toNat ≤ nmemb.toNat * size.toNat := by
  rw [BitVec.toNat_mul, Nat.mul_comm nmemb.toNat]
  exact Nat.mod_le _ _

theorem whole_elements (size : U32) (moved : Nat) :
    (if size ≠ 0 then moved / size.toNat else 0) = moved / size.toNat := by
  split
  · rfl
  · rename_i none
    rw [not_not.mp none]
    exact (Nat.div_zero moved).symm

theorem laid_nil (memory : Memory) (here : Nat) : laid memory here [] = memory := by
  funext place
  simp [laid]

theorem laid_cons (memory : Memory) (here : Nat) (byte : Byte) (rest : List Byte) :
    laid memory here (byte :: rest) = laid (update memory here byte) (here + 1) rest := by
  funext place
  unfold laid
  rcases Nat.lt_trichotomy place here with before | rfl | after
  · rw [if_neg (by omega), if_neg (by omega), update_of_ne (by omega)]
  · rw [if_pos le_rfl, if_neg (by omega), update_self, Nat.sub_self]
    rfl
  · have step : place - here = (place - (here + 1)) + 1 := by omega
    rw [if_pos (by omega), if_pos (by omega), update_of_ne (by omega), step, List.getElem?_cons_succ]

theorem gather_gives (last : Int → Bool) (left : Nat) (s : S) (array : Memory) (got : Nat) :
    ∃ bytes t, Gives getc bytes s t ∧ bytes.length ≤ left ∧
      (gather getc last left s array got).2.1 = laid array got bytes ∧
      (gather getc last left s array got).2.2 = got + bytes.length ∧
      ((gather getc last left s array got).1 = t ∧
          (bytes.length = left ∨ ∃ byte ∈ bytes, ∃ c, last c = true ∧ BitVec.ofInt 8 c = byte) ∨
        (getc t).2 = EOF ∧ (gather getc last left s array got).1 = (getc t).1) := by
  induction left generalizing s array got with
  | zero => exact ⟨[], s, rfl, Nat.le_refl 0, (laid_nil _ _).symm, rfl, Or.inl ⟨rfl, Or.inl rfl⟩⟩
  | succ left ih =>
    unfold gather
    dsimp only
    by_cases none : (getc s).2 = EOF
    · rw [if_pos none]
      exact ⟨[], s, rfl, Nat.zero_le _, (laid_nil _ _).symm, rfl, Or.inr ⟨none, rfl⟩⟩
    · rw [if_neg none]
      by_cases stops : last (getc s).2 = true
      · rw [if_pos stops]
        refine ⟨[BitVec.ofInt 8 (getc s).2], (getc s).1, ⟨none, rfl, rfl⟩, Nat.le_add_left 1 left, ?_, rfl,
          Or.inl ⟨rfl, Or.inr ⟨_, List.mem_singleton_self _, _, stops, rfl⟩⟩⟩
        rw [laid_cons, laid_nil]
      · rw [if_neg stops]
        obtain ⟨bytes, t, gives, less, filled, count, stopped⟩ :=
          ih (getc s).1 (update array got (BitVec.ofInt 8 (getc s).2)) (got + 1)
        refine ⟨BitVec.ofInt 8 (getc s).2 :: bytes, t, ⟨none, rfl, gives⟩, Nat.succ_le_succ less, ?_, ?_, ?_⟩
        · rw [laid_cons, filled]
        · rw [count, List.length_cons, Nat.add_assoc, Nat.add_comm 1]
        · refine stopped.imp_left fun ended => ⟨ended.1, ?_⟩
          refine ended.2.imp (congrArg (· + 1)) ?_
          rintro ⟨byte, member, c, ends, same⟩
          exact ⟨byte, List.mem_cons_of_mem _ member, c, ends, same⟩

theorem readWith_filled (s : S) (array : Memory) (size nmemb : U32) :
    Filled getc s array size nmemb (readWith getc s array size nmemb) := by
  obtain ⟨bytes, t, gives, less, filled, count, stopped⟩ :=
    (@gather_gives _ getc) (fun _ => false) (size * nmemb).toNat s array 0
  refine ⟨bytes, t, gives, filled, ⟨less.trans (product_le size nmemb), ?_⟩, ?_⟩
  · unfold readWith
    dsimp only
    rw [whole_elements, count, Nat.zero_add]
  · refine stopped.imp_left fun ended => ⟨ended.1, ended.2.resolve_right ?_⟩
    rintro ⟨_, _, _, never, _⟩
    exact absurd never (by decide)

theorem upTo_succ (memory : Memory) (count : Nat) :
    upTo memory (count + 1) = memory 0 :: upTo (fun i => memory (i + 1)) count := by
  unfold upTo
  rw [List.range_succ_eq_map, List.map_cons, List.map_map]
  rfl

theorem scatter_takes (left : Nat) (s : S) (array : Memory) (put : Nat) :
    ∃ moved t, Takes putc (upTo (fun i => array (put + i)) moved) s t ∧ moved ≤ left ∧
      (scatter putc left s array put).2 = put + moved ∧
      ((scatter putc left s array put).1 = t ∧ moved = left ∨
        (putc (array (put + moved)).toNat t).2 = EOF ∧ moved < left ∧
          (scatter putc left s array put).1 = (putc (array (put + moved)).toNat t).1) := by
  induction left generalizing s put with
  | zero => exact ⟨0, s, rfl, Nat.le_refl 0, rfl, Or.inl ⟨rfl, rfl⟩⟩
  | succ left ih =>
    unfold scatter
    dsimp only
    by_cases full : (putc (array put).toNat s).2 = EOF
    · rw [if_pos full]
      exact ⟨0, s, rfl, Nat.zero_le _, rfl, Or.inr ⟨full, Nat.succ_pos left, rfl⟩⟩
    · rw [if_neg full]
      obtain ⟨moved, t, takes, less, count, stopped⟩ := ih (putc (array put).toNat s).1 (put + 1)
      have shift : ∀ i, put + 1 + i = put + (i + 1) := fun i => by omega
      simp only [shift] at takes stopped count
      refine ⟨moved + 1, t, ?_, Nat.succ_le_succ less, count, ?_⟩
      · rw [upTo_succ]
        exact ⟨full, takes⟩
      · exact stopped.imp (fun ended => ⟨ended.1, congrArg (· + 1) ended.2⟩)
          fun refused => ⟨refused.1, Nat.succ_lt_succ refused.2.1, refused.2.2⟩

theorem writeWith_emptied (s : S) (array : Memory) (size nmemb : U32) :
    Emptied putc s array size nmemb (writeWith putc s array size nmemb) := by
  obtain ⟨moved, t, takes, less, count, stopped⟩ :=
    (@scatter_takes _ putc) (size * nmemb).toNat s array 0
  simp only [Nat.zero_add] at takes stopped count
  refine ⟨moved, t, takes, ⟨less.trans (product_le size nmemb), ?_⟩, stopped⟩
  unfold writeWith
  dsimp only
  rw [whole_elements, count]

theorem writeWith_reads {array other : Memory} (s : S) (size nmemb : U32)
    (same : ∀ i < nmemb.toNat * size.toNat, array i = other i) :
    writeWith putc s array size nmemb = writeWith putc s other size nmemb := by
  have loop : ∀ left s put, put + left ≤ nmemb.toNat * size.toNat →
      scatter putc left s array put = scatter putc left s other put := by
    intro left
    induction left with
    | zero => exact fun _ _ _ => rfl
    | succ left ih =>
      intro s put inside
      unfold scatter
      dsimp only
      rw [same put (by omega), ih _ (put + 1) (by omega)]
  unfold writeWith
  rw [loop _ s 0 (by rw [Nat.zero_add]; exact product_le size nmemb)]

end Moved

end Ubiqos.Stdio
