import Ubiqos.Stdio.Streams

/-!
A stream over a file: what its descriptor does, and a sequence of bytes with a position that knows of no
buffer.
-/

namespace Ubiqos.Stdio

open Function Words

/-- An open file. Past its end stand whatever bytes the card has there. A read may give less than there
is, and one `SYS_WRITE` may be refused or take only so many bytes after the first. -/
structure Disk where
  byte : Memory
  size : Nat
  here : U32
  reads : Nat → Nat
  writes : Nat → Option Nat
  turn : Nat
  lost : Nat

namespace Disk

def read (d : Disk) (want : Nat) : Disk × Option (List Byte) :=
  let count := min (min want (d.reads d.turn + 1)) (d.size - d.here.toNat)
  ({ d with here := d.here + BitVec.ofNat 32 count, turn := d.turn + 1 },
    some ((List.range count).map fun i => d.byte (d.here.toNat + i)))

/-- How far a file reaches when `count` bytes are written to it at `here`. -/
def reach (size here count : Nat) : Nat := if count = 0 then size else max size (here + count)

/-- `bytes` are taken by one `SYS_WRITE`. -/
def put (d : Disk) (bytes : List Byte) : Disk :=
  { d with
    byte := laid d.byte d.here.toNat bytes
    size := reach d.size d.here.toNat bytes.length
    here := d.here + BitVec.ofNat 32 bytes.length
    turn := d.turn + 1 }

/-- The loop of `ubiqos_write`, until all is taken or a call is refused. "The kernel blocks rather than
returning zero", so each call takes a byte at least and there are no more calls than bytes. -/
def writeLoop : Nat → Disk → List Byte → Disk × Bool
  | 0, d, _ => (d, true)
  | calls + 1, d, bytes =>
    if bytes = [] then (d, true)
    else match d.writes d.turn with
      | none => ({ d with turn := d.turn + 1, lost := d.lost + bytes.length }, false)
      | some more => writeLoop calls (d.put (bytes.take (more + 1))) (bytes.drop (more + 1))

/-- `write`, which is `ubiqos_write`: all of it, or a refusal and perhaps a part of it. -/
def write (d : Disk) (bytes : List Byte) : Disk × Int :=
  let p := writeLoop bytes.length d bytes
  (p.1, if p.2 then bytes.length else -1)

/-- `ubiqos_io_file_seek`: any place is gone to, and answered as a signed number. -/
def seek (d : Disk) (offset : U32) (whence : Nat) : Disk × Int :=
  if whence = seekSet then ({ d with here := offset }, offset.toInt)
  else if whence = seekCur then ({ d with here := d.here + offset }, (d.here + offset).toInt)
  else (d, -1)

end Disk

def disk : Kernel Disk := ⟨Disk.read, Disk.write, Disk.seek⟩

inductive Op
  | fgetc
  | fread (array : Memory) (size nmemb : U32)
  | fgets (array : Memory) (n : Int)
  | ungetc (c : Int)
  | fputc (c : Int)
  | fwrite (array : Memory) (size nmemb : U32)
  | fflush
  | fclose
  | fseek (offset : U32) (whence : Nat)
  | ftell
  | setvbuf (buf : Option Memory) (size : Nat)

inductive Answer
  | number (n : Int)
  | block (array : Memory) (count : Nat)
  | line (array : Memory) (found : Bool)

def Op.run (op : Op) (s : Stream Disk) : Stream Disk × Answer :=
  match op with
  | .fgetc => let p := Stdio.fgetc disk s; (p.1, .number p.2)
  | .fread array size nmemb => let p := Stdio.fread disk s array size nmemb; (p.1, .block p.2.1 p.2.2)
  | .fgets array n => let p := Stdio.fgets disk s array n; (p.1, .line p.2.1 p.2.2)
  | .ungetc c => let p := Stdio.ungetc c s; (p.1, .number p.2)
  | .fputc c => let p := Stdio.fputc disk c s; (p.1, .number p.2)
  | .fwrite array size nmemb => let p := Stdio.fwrite disk s array size nmemb; (p.1, .number p.2)
  | .fflush => let p := Stdio.fflush disk s; (p.1, .number p.2)
  | .fclose => let p := Stdio.fclose disk s; (p.1, .number p.2)
  | .fseek offset whence => let p := Stdio.fseek disk s offset whence; (p.1, .number p.2)
  | .ftell => let p := Stdio.ftell disk s; (p.1, .number p.2)
  | .setvbuf buf size => let p := Stdio.setvbuf s buf size; (p.1, .number p.2)

/-- The bytes and the position; a byte that was put back stands before what it was put back to. -/
structure Ref where
  byte : Memory
  size : Nat
  place : Int
  pushed : Option Byte

namespace Ref

def getc (r : Ref) : Ref × Int :=
  match r.pushed with
  | some c => ({ r with place := r.place + 1, pushed := none }, c.toNat)
  | none =>
    if 0 ≤ r.place ∧ r.place < r.size then ({ r with place := r.place + 1 }, (r.byte r.place.toNat).toNat)
    else (r, EOF)

def ungetc (c : Int) (r : Ref) : Ref × Int :=
  if c = EOF ∨ r.pushed ≠ none then (r, EOF)
  else ({ r with place := r.place - 1, pushed := some (BitVec.ofInt 8 c) }, (BitVec.ofInt 8 c).toNat)

def putc (c : Int) (r : Ref) : Ref × Int :=
  ({ r with
      byte := update r.byte r.place.toNat (BitVec.ofInt 8 c)
      size := max r.size (r.place.toNat + 1)
      place := r.place + 1 }, (BitVec.ofInt 8 c).toNat)

def InRange (target : Int) : Prop := 0 ≤ target ∧ target < 2 ^ 31

instance (target : Int) : Decidable (InRange target) := inferInstanceAs (Decidable (_ ∧ _))

def target (place : Int) (offset : U32) (whence : Nat) : Option Int :=
  if whence = seekSet then some offset.toInt
  else if whence = seekCur then some (place + offset.toInt)
  else none

def seek (r : Ref) (offset : U32) (whence : Nat) : Ref × Int :=
  match target r.place offset whence with
  | some target => if InRange target then ({ r with place := target, pushed := none }, 0) else (r, -1)
  | none => (r, -1)

def run (r : Ref) : Op → Ref × Answer
  | .fgetc => let p := r.getc; (p.1, .number p.2)
  | .fread array size nmemb => let p := readWith getc r array size nmemb; (p.1, .block p.2.1 p.2.2)
  | .fgets array n => let p := lineWith getc r array n; (p.1, .line p.2.1 p.2.2)
  | .ungetc c => let p := r.ungetc c; (p.1, .number p.2)
  | .fputc c => let p := r.putc c; (p.1, .number p.2)
  | .fwrite array size nmemb => let p := writeWith putc r array size nmemb; (p.1, .number p.2)
  | .fflush => (r, .number 0)
  | .fclose => (r, .number 0)
  | .fseek offset whence => let p := r.seek offset whence; (p.1, .number p.2)
  | .ftell => (r, .number r.place)
  | .setvbuf _ _ => (r, .number 0)

end Ref

structure Inside (f : FILE) : Prop where
  order : f.pos ≤ f.len
  less : f.len ≤ f.size
  bare : f.buf = none → f.size = 0
  room : f.buf ≠ none → 0 < f.size
  writing : f.writing = true → f.buf ≠ none → f.len < f.size

structure Bounded (f g : FILE) : Prop where
  size : g.size = f.size
  none : g.buf = none ↔ f.buf = none
  outside : ∀ buf buf', f.buf = some buf → g.buf = some buf' → ∀ i, f.size ≤ i → buf' i = buf i

def Reported (s : Stream Disk) (answer : Answer) : Prop := answer = .number EOF ∨ s.f.err = true

/-- There is room behind what was read, and no byte that was read and taken is before what is flushed. -/
def Room (s : Stream Disk) (count : Nat) : Prop :=
  s.f.buf ≠ none → 0 < count →
    (s.f.writing = false → s.f.len < s.f.size) ∧ (s.f.size ≤ s.f.len + count → s.f.pos = 0)

def Flushable (s : Stream Disk) : Prop := s.f.writing = true → s.f.len ≠ 0 → s.f.pos = 0

/-- Whatever the stream is for: it is not closed and a byte that is written has its place in the buffer.
Without a buffer nothing that `fwrite` gives is refused. -/
def Safe (s : Stream Disk) : Op → Prop
  | .fputc _ => s.f.used = true ∧ Room s 1
  | .fwrite _ size nmemb => s.f.used = true ∧ Room s (size * nmemb).toNat ∧
      (s.f.buf = none → s.f.err = false → ∀ i < (size * nmemb).toNat, s.fd.writes (s.fd.turn + i) ≠ none)
  | .setvbuf buf size => s.f.used = true ∧ (buf ≠ none → 0 < size)
  | .fgetc | .fread _ _ _ | .fgets _ _ | .ungetc _ | .ftell => s.f.used = true
  | .fflush | .fclose | .fseek _ _ => s.f.used = true ∧ Flushable s

/-- A stream for reading, of which none but an end or a byte is put back, and that is asked for its
position or moved only while nothing is put back and to a place there can be. -/
def Reads (s : Stream Disk) : Op → Prop
  | .fgetc | .fread _ _ _ | .fgets _ _ => True
  | .ungetc c => c = EOF ∨ 0 ≤ c ∧ c < 256
  | .fseek offset whence => ∀ target, Ref.target (s.fd.here.toNat - s.f.len + s.f.pos) offset whence = some target →
      s.f.unget < 0 ∧ Ref.InRange target ∧ (whence = seekCur → s.fd.here.toNat < 2 ^ 31)
  | .ftell => s.f.unget < 0 ∧ s.fd.here.toNat < 2 ^ 31
  | _ => False

def Writes (s : Stream Disk) : Op → Prop
  | .fputc c => 0 ≤ c ∧ c < 256 ∧ s.fd.here.toNat + s.f.len + 1 < 2 ^ 32
  | .fwrite _ size nmemb => s.fd.here.toNat + s.f.len + (size * nmemb).toNat < 2 ^ 32
  | .fflush | .fclose => True
  | .fseek offset whence => ∀ target, Ref.target (s.fd.here.toNat + s.f.len) offset whence = some target →
      Ref.InRange target ∧ (whence = seekCur → s.fd.here.toNat + s.f.len < 2 ^ 31)
  | .ftell => s.fd.here.toNat + s.f.len < 2 ^ 31
  | _ => False

end Ubiqos.Stdio

/-!
What every call keeps, whether it is one for the stream's direction or not: the marks of the buffer are
in order, nothing is stored behind it, and bytes that were not delivered are told of.
-/

namespace Ubiqos.Stdio

open Function Words

section Loops
variable {S : Type} {getc : S → S × Int} {putc : Int → S → S × Int} {s : S}

theorem gather_keeps {inv : S → Prop} (keeps : ∀ s, inv s → inv (getc s).1) (last : Int → Bool) (left : Nat)
    (array : Memory) (got : Nat) (start : inv s) : inv (gather getc last left s array got).1 := by
  induction left generalizing s array got with
  | zero => exact start
  | succ left ih =>
    unfold gather
    dsimp only
    split
    · exact keeps s start
    · split
      · exact keeps s start
      · exact ih _ _ (keeps s start)

theorem scatter_keeps {inv : Nat → S → Prop} (keeps : ∀ left s c, inv (left + 1) s → inv left (putc c s).1)
    (left : Nat) (array : Memory) (put : Nat) (start : inv left s) :
    ∃ rest, inv rest (scatter putc left s array put).1 := by
  induction left generalizing s put with
  | zero => exact ⟨0, start⟩
  | succ left ih =>
    unfold scatter
    dsimp only
    split
    · exact ⟨left, keeps left s _ start⟩
    · exact ih _ (keeps left s _ start)

end Loops

theorem Bounded.refl (f : FILE) : Bounded f f :=
  ⟨rfl, Iff.rfl, fun _ _ one other _ _ => by rw [Option.some.inj (one.symm.trans other)]⟩

theorem Bounded.trans {f g h : FILE} (first : Bounded f g) (second : Bounded g h) : Bounded f h := by
  refine ⟨second.size.trans first.size, second.none.trans first.none, fun buf buf'' here there i outside => ?_⟩
  obtain ⟨buf', middle⟩ : ∃ buf', g.buf = some buf' := by
    refine Option.ne_none_iff_exists'.mp fun gone => ?_
    exact absurd (first.none.mp gone) (here ▸ Option.some_ne_none buf)
  rw [second.outside buf' buf'' middle there i (first.size ▸ outside)]
  exact first.outside buf buf' here middle i outside

theorem Bounded.of_same {f g : FILE} (buf : g.buf = f.buf) (size : g.size = f.size) : Bounded f g := by
  refine ⟨size, by rw [buf], fun one other here there _ _ => ?_⟩
  rw [buf, here] at there
  rw [Option.some.inj there]

structure Fine (s t : Stream Disk) : Prop where
  inside : Inside t.f
  bounded : Bounded s.f t.f
  used : t.f.used = s.f.used
  writes : t.fd.writes = s.fd.writes
  lost : s.fd.lost ≤ t.fd.lost

variable {s t u : Stream Disk}

theorem Fine.refl (inside : Inside s.f) : Fine s s := ⟨inside, Bounded.refl s.f, rfl, rfl, Nat.le_refl _⟩

theorem Fine.trans (first : Fine s t) (second : Fine t u) : Fine s u :=
  ⟨second.inside, first.bounded.trans second.bounded, second.used.trans first.used,
    second.writes.trans first.writes, first.lost.trans second.lost⟩

theorem laid_outside {memory : Memory} {here place : Nat} {bytes : List Byte}
    (outside : place < here ∨ here + bytes.length ≤ place) : laid memory here bytes place = memory place := by
  unfold laid
  split
  · rw [List.getElem?_eq_none (by omega)]
    rfl
  · rfl

theorem laid_inside {memory : Memory} {here i : Nat} {bytes : List Byte} (inside : i < bytes.length) :
    laid memory here bytes (here + i) = bytes[i] := by
  rw [laid, if_pos (Nat.le_add_right here i), Nat.add_sub_cancel_left, List.getElem?_eq_getElem inside]
  rfl

theorem disk_read_length (d : Disk) (want : Nat) :
    ∃ bytes, (disk.read d want).2 = some bytes ∧ bytes.length ≤ want :=
  ⟨_, rfl, by rw [List.length_map, List.length_range]; omega⟩

structure Looks (d e : Disk) : Prop where
  byte : e.byte = d.byte
  size : e.size = d.size
  writes : e.writes = d.writes
  lost : e.lost = d.lost

theorem disk_read_looks (d : Disk) (want : Nat) : Looks d (disk.read d want).1 := ⟨rfl, rfl, rfl, rfl⟩

variable {f : FILE}

theorem Fine.look {e : Disk} (looks : Looks s.fd e) (inside : Inside f) (bounded : Bounded s.f f)
    (used : f.used = s.f.used) : Fine s ⟨f, e⟩ :=
  ⟨inside, bounded, used, looks.writes, Nat.le_of_eq looks.lost.symm⟩

theorem Inside.marks {f g : FILE} (inside : Inside f) (reads : f.writing = false) (order : g.pos ≤ g.len)
    (less : g.len ≤ f.size) (buf : g.buf = none ↔ f.buf = none) (size : g.size = f.size)
    (writing : g.writing = f.writing) : Inside g := by
  refine ⟨order, by rw [size]; exact less, fun none => ?_, fun some => ?_, fun writes => ?_⟩
  · rw [size]
    exact inside.bare (buf.mp none)
  · rw [size]
    exact inside.room fun none => some (buf.mpr none)
  · rw [writing, reads] at writes
    exact absurd writes Bool.false_ne_true

theorem fill_fine (inside : Inside s.f) (reads : s.f.writing = false) :
    Fine s (fill disk s).1 ∧ (fill disk s).1.fd.lost = s.fd.lost ∧ (fill disk s).1.f.writing = false ∧
      ((fill disk s).2 = true → (fill disk s).1.f.pos < (fill disk s).1.f.len) := by
  unfold fill
  split
  · exact ⟨Fine.refl inside, rfl, reads, fun given => absurd given Bool.false_ne_true⟩
  · dsimp only
    split
    · rename_i bare
      refine ⟨⟨inside.marks reads (Nat.le_refl 0) (Nat.zero_le _) Iff.rfl rfl rfl, Bounded.of_same rfl rfl,
        rfl, rfl, Nat.le_refl _⟩, rfl, reads, fun given => absurd given Bool.false_ne_true⟩
    · rename_i buf held
      obtain ⟨bytes, given, short⟩ := disk_read_length s.fd s.f.size
      have looks := disk_read_looks s.fd s.f.size
      generalize disk.read s.fd s.f.size = p at given looks
      obtain ⟨fd, result⟩ := p
      dsimp only at given looks
      subst given
      cases bytes with
      | nil =>
        refine ⟨Fine.look looks (inside.marks reads (Nat.le_refl 0) (Nat.zero_le _) Iff.rfl rfl rfl)
          (Bounded.of_same rfl rfl) rfl, looks.lost, reads, fun given => absurd given Bool.false_ne_true⟩
      | cons byte rest =>
        have some : some (laid buf 0 (byte :: rest)) = none ↔ s.f.buf = none := by
          rw [held]
          exact ⟨fun none => absurd none (Option.some_ne_none _), fun none => absurd none (Option.some_ne_none _)⟩
        refine ⟨Fine.look looks (inside.marks reads (Nat.zero_le _) short some rfl rfl) ⟨rfl, some, ?_⟩ rfl,
          looks.lost, reads, fun _ => Nat.succ_pos _⟩
        intro old new here there i outside
        rw [held] at here
        rw [← Option.some.inj here, ← Option.some.inj there]
        exact laid_outside (Or.inr (by omega))

theorem next_fine (inside : Inside s.f) (reads : s.f.writing = false) (more : s.f.pos < s.f.len) :
    Fine s (next s).1 :=
  ⟨inside.marks reads more inside.less Iff.rfl rfl rfl, Bounded.of_same rfl rfl, rfl, rfl, Nat.le_refl _⟩

theorem direct_fine (inside : Inside s.f) (reads : s.f.writing = false) :
    Fine s (direct disk s).1 ∧ (direct disk s).1.fd.lost = s.fd.lost := by
  have same : ∀ f : FILE, f.buf = s.f.buf → f.size = s.f.size → f.pos = s.f.pos → f.len = s.f.len →
      f.writing = s.f.writing → Inside f := fun f buf size pos len writing =>
    inside.marks reads (by rw [pos, len]; exact inside.order) (by rw [len]; exact inside.less) (by rw [buf]) size
      writing
  have looks := disk_read_looks s.fd 1
  unfold direct
  generalize disk.read s.fd 1 = p at looks
  obtain ⟨fd, _ | _ | ⟨byte, rest⟩⟩ := p
  · exact ⟨Fine.look looks (same _ rfl rfl rfl rfl rfl) (Bounded.of_same rfl rfl) rfl, looks.lost⟩
  · exact ⟨Fine.look looks (same _ rfl rfl rfl rfl rfl) (Bounded.of_same rfl rfl) rfl, looks.lost⟩
  · exact ⟨Fine.look looks (same _ rfl rfl rfl rfl rfl) (Bounded.of_same rfl rfl) rfl, looks.lost⟩

theorem fgetc_fine (inside : Inside s.f) :
    Fine s (fgetc disk s).1 ∧ (fgetc disk s).1.fd.lost = s.fd.lost := by
  unfold fgetc
  split
  · exact ⟨Fine.refl inside, rfl⟩
  · rename_i mine
    have reads : s.f.writing = false := Bool.eq_false_iff.mpr fun writes => mine (Or.inr writes)
    split
    · exact ⟨⟨inside.marks reads inside.order inside.less Iff.rfl rfl rfl, Bounded.of_same rfl rfl, rfl, rfl,
        Nat.le_refl _⟩, rfl⟩
    · split
      · rename_i more
        exact ⟨next_fine inside reads more, rfl⟩
      · obtain ⟨fine, lost, still, filled⟩ := fill_fine inside reads
        dsimp only
        split
        · rename_i given
          exact ⟨fine.trans (next_fine fine.inside still (filled given)), lost⟩
        · split
          · exact ⟨fine, lost⟩
          · obtain ⟨fine', lost'⟩ := direct_fine fine.inside still
            exact ⟨fine.trans fine', lost'.trans lost⟩

theorem gather_fine (inside : Inside s.f) (last : Int → Bool) (left : Nat) (array : Memory) (got : Nat) :
    Fine s (gather (fgetc disk) last left s array got).1 ∧
      (gather (fgetc disk) last left s array got).1.fd.lost = s.fd.lost := by
  refine (@gather_keeps _ _ _ (fun t => Fine s t ∧ t.fd.lost = s.fd.lost)) ?_ last left array got
    ⟨Fine.refl inside, rfl⟩
  rintro t ⟨fine, lost⟩
  obtain ⟨fine', lost'⟩ := fgetc_fine fine.inside
  exact ⟨fine.trans fine', lost'.trans lost⟩

theorem laid_append (memory : Memory) (here : Nat) (first rest : List Byte) :
    laid memory here (first ++ rest) = laid (laid memory here first) (here + first.length) rest := by
  induction first generalizing memory here with
  | nil => rw [List.nil_append, laid_nil, List.length_nil, Nat.add_zero]
  | cons byte first ih =>
    rw [List.cons_append, laid_cons, ih, laid_cons, List.length_cons, Nat.add_assoc, Nat.add_comm 1]

theorem reach_add (size here first rest : Nat) :
    Disk.reach (Disk.reach size here first) (here + first) rest = Disk.reach size here (first + rest) := by
  unfold Disk.reach
  split_ifs <;> omega

/-- All of `bytes` is in the file. -/
structure Wrote (d e : Disk) (bytes : List Byte) : Prop where
  byte : e.byte = laid d.byte d.here.toNat bytes
  size : e.size = Disk.reach d.size d.here.toNat bytes.length
  here : e.here.toNat = d.here.toNat + bytes.length

theorem put_wrote {d : Disk} {bytes : List Byte} (fits : d.here.toNat + bytes.length < 2 ^ 32) :
    Wrote d (d.put bytes) bytes := by
  refine ⟨rfl, rfl, ?_⟩
  change (d.here + BitVec.ofNat 32 bytes.length).toNat = _
  rw [BitVec.toNat_add, BitVec.toNat_ofNat]
  omega

theorem Wrote.append {d e f : Disk} {first rest : List Byte} (one : Wrote d e first) (two : Wrote e f rest) :
    Wrote d f (first ++ rest) := by
  refine ⟨?_, ?_, ?_⟩
  · rw [two.byte, one.byte, one.here, laid_append]
  · rw [two.size, one.size, one.here, reach_add, List.length_append]
  · rw [two.here, one.here, List.length_append, Nat.add_assoc]

/-- What a write comes to: all of `bytes` is in the file, or some are lost and it is refused. -/
structure Outcome (d : Disk) (bytes : List Byte) (p : Disk × Bool) : Prop where
  writes : p.1.writes = d.writes
  lost : d.lost ≤ p.1.lost
  told : p.2 = true ↔ p.1.lost = d.lost
  wrote : p.2 = true → d.here.toNat + bytes.length < 2 ^ 32 → Wrote d p.1 bytes

theorem writeLoop_outcome (calls : Nat) (d : Disk) (bytes : List Byte) (enough : bytes.length ≤ calls) :
    Outcome d bytes (d.writeLoop calls bytes) := by
  have nothing : ∀ d : Disk, Outcome d [] (d, true) := fun d =>
    ⟨rfl, Nat.le_refl _, iff_of_true rfl rfl, fun _ _ => ⟨(laid_nil _ _).symm, rfl, rfl⟩⟩
  induction calls generalizing d bytes with
  | zero => exact List.eq_nil_of_length_eq_zero (Nat.le_zero.mp enough) ▸ nothing d
  | succ calls ih =>
    unfold Disk.writeLoop
    split
    · rename_i none
      exact none ▸ nothing d
    · rename_i some
      have length := List.length_pos_of_ne_nil some
      split
      · refine ⟨rfl, Nat.le_add_right _ _, iff_of_false Bool.false_ne_true ?_, fun given => by cases given⟩
        dsimp only
        omega
      · rename_i more _
        have after := ih (d.put (bytes.take (more + 1))) (bytes.drop (more + 1))
          (by rw [List.length_drop]; omega)
        refine ⟨after.writes, after.lost, after.told, fun all fits => ?_⟩
        have parts := List.take_append_drop (more + 1) bytes
        have count := (congrArg List.length parts).symm.trans List.length_append
        have first : Wrote d (d.put (bytes.take (more + 1))) (bytes.take (more + 1)) := put_wrote (by omega)
        have whole := first.append (after.wrote all (by rw [first.here]; omega))
        rwa [parts] at whole

theorem disk_write_fine (d : Disk) (bytes : List Byte) :
    (disk.write d bytes).1.writes = d.writes ∧ d.lost ≤ (disk.write d bytes).1.lost :=
  have outcome := writeLoop_outcome bytes.length d bytes (Nat.le_refl _)
  ⟨outcome.writes, outcome.lost⟩

theorem disk_write_told (d : Disk) (bytes : List Byte) :
    (disk.write d bytes).1.lost = d.lost ∧ (disk.write d bytes).2 = bytes.length ∨ (disk.write d bytes).2 < 0 := by
  have told := (writeLoop_outcome bytes.length d bytes (Nat.le_refl _)).told
  change (d.write bytes).1.lost = d.lost ∧ (d.write bytes).2 = bytes.length ∨ (d.write bytes).2 < 0
  unfold Disk.write
  dsimp only
  split
  · rename_i all
    exact Or.inl ⟨told.mp all, rfl⟩
  · exact Or.inr (Int.negSucc_lt_zero 0)

theorem disk_write_one (d : Disk) (byte : Byte) :
    (disk.write d [byte]).1.turn = d.turn + 1 ∧
      (d.writes d.turn ≠ none → (disk.write d [byte]).1.lost = d.lost) := by
  change (d.writeLoop 1 [byte]).1.turn = d.turn + 1 ∧ (_ → (d.writeLoop 1 [byte]).1.lost = d.lost)
  unfold Disk.writeLoop
  rw [if_neg (List.cons_ne_nil byte [])]
  split
  · rename_i refused
    exact ⟨rfl, fun taken => absurd refused taken⟩
  · exact ⟨rfl, fun _ => rfl⟩

structure Flushed (s : Stream Disk) (p : Stream Disk × Int) : Prop where
  file : ∃ err, p.1.f = { s.f with len := 0, err := err }
  writes : p.1.fd.writes = s.fd.writes
  lost : s.fd.lost ≤ p.1.fd.lost
  told : p.1.fd.lost = s.fd.lost ∨ p.2 = EOF ∧ p.1.f.err = true
  kept : s.f.err = true → p.1.f.err = true

theorem upTo_length (memory : Memory) (count : Nat) : (upTo memory count).length = count := by
  rw [upTo, List.length_map, List.length_range]

theorem fflush_flushed (used : s.f.used = true) (writing : s.f.writing = true) :
    Flushed s (fflush disk s) := by
  unfold fflush
  rw [if_neg (not_not.mpr used)]
  split
  · rename_i none
    have empty := none.resolve_left (not_not.mpr writing)
    refine ⟨⟨s.f.err, ?_⟩, rfl, Nat.le_refl _, Or.inl rfl, fun before => before⟩
    rw [← empty]
  · obtain ⟨writes, lost⟩ := disk_write_fine s.fd (upTo (s.f.buf.getD fun _ => 0) s.f.len)
    have told := disk_write_told s.fd (upTo (s.f.buf.getD fun _ => 0) s.f.len)
    dsimp only
    split
    · exact ⟨⟨true, rfl⟩, writes, lost, Or.inr ⟨rfl, rfl⟩, fun _ => rfl⟩
    · rename_i taken
      exact ⟨⟨s.f.err, rfl⟩, writes, lost, Or.inl (told.resolve_right taken).1, fun before => before⟩

theorem Flushed.fine {p : Stream Disk × Int} (flushed : Flushed ⟨f, s.fd⟩ p)
    (bounded : Bounded s.f f) (inside : Inside s.f) (used : f.used = s.f.used) (start : f.pos = 0) :
    Fine s p.1 := by
  obtain ⟨err, file⟩ := flushed.file
  have room : f.buf ≠ none → 0 < f.size := fun some =>
    bounded.size.symm ▸ inside.room fun none => some (bounded.none.mpr none)
  refine ⟨?_, ?_, ?_, flushed.writes, flushed.lost⟩
  · rw [file]
    exact ⟨Nat.le_of_eq start, Nat.zero_le _, fun none => bounded.size.trans (inside.bare (bounded.none.mp none)),
      room, fun _ => room⟩
  · rw [file]
    exact bounded.trans (Bounded.of_same rfl rfl)
  · rw [file]
    exact used

theorem fflush_nothing (used : s.f.used = true) (none : s.f.writing = false ∨ s.f.len = 0) :
    fflush disk s = (s, 0) := by
  unfold fflush
  rw [if_neg (not_not.mpr used), if_pos (none.imp_left (Bool.eq_false_iff.mp ·))]

theorem fflush_fine (inside : Inside s.f) (used : s.f.used = true) (flushable : Flushable s) :
    Fine s (fflush disk s).1 ∧
      ((fflush disk s).1.fd.lost = s.fd.lost ∨ (fflush disk s).2 = EOF ∧ (fflush disk s).1.f.err = true) := by
  by_cases nothing : s.f.writing = false ∨ s.f.len = 0
  · rw [fflush_nothing used nothing]
    exact ⟨Fine.refl inside, Or.inl rfl⟩
  · obtain ⟨writing, some⟩ := not_or.mp nothing
    have writing := Bool.not_eq_false _ ▸ writing
    have flushed := fflush_flushed used writing
    exact ⟨flushed.fine (Bounded.refl s.f) inside rfl (flushable writing some), flushed.told⟩

theorem fclose_run (used : s.f.used = true) : (Op.fclose).run s = (⟨{ (fflush disk s).1.f with
    buf := none, owned := false, used := false, size := 0 }, (fflush disk s).1.fd⟩, .number (fflush disk s).2) := by
  change ((fclose disk s).1, Answer.number (fclose disk s).2) = _
  unfold fclose
  rw [if_neg (not_not.mpr used)]

structure Put (s : Stream Disk) (p : Stream Disk × Int) : Prop where
  fine : Fine s p.1
  writing : p.1.f.writing = true
  marks : p.1.f.pos = s.f.pos ∧ p.1.f.len ≤ s.f.len + 1
  kept : s.f.err = true → p.1.f.err = true
  told : p.1.fd.lost = s.fd.lost ∨ p.2 = EOF ∧ (s.f.buf ≠ none → p.1.f.err = true)
  bare : s.f.buf = none → p.1.fd.turn = s.fd.turn + 1 ∧
    (s.fd.writes s.fd.turn ≠ none → p.1.fd.lost = s.fd.lost)

theorem fputc_put (inside : Inside s.f) (used : s.f.used = true) (room : Room s 1) (c : Int) :
    Put s (fputc disk c s) := by
  unfold fputc
  rw [if_neg (not_not.mpr used)]
  dsimp only
  split
  · rename_i bare
    obtain ⟨writes, lost⟩ := disk_write_fine s.fd [BitVec.ofInt 8 c]
    have told := disk_write_told s.fd [BitVec.ofInt 8 c]
    refine ⟨⟨⟨inside.order, inside.less, inside.bare, inside.room, fun _ some => absurd bare some⟩,
      Bounded.of_same rfl rfl, rfl, writes, lost⟩, rfl, ⟨rfl, Nat.le_succ _⟩, fun before => before, ?_,
      fun _ => disk_write_one s.fd _⟩
    refine told.imp And.left fun refused => ⟨?_, fun some => absurd bare some⟩
    dsimp only
    rw [if_neg (by omega)]
  · rename_i buf held
    have some : s.f.buf ≠ none := by
      rw [held]
      exact Option.some_ne_none buf
    obtain ⟨behind, start⟩ := room some Nat.one_pos
    have less : s.f.len < s.f.size := by
      by_cases writing : s.f.writing = true
      · exact inside.writing writing some
      · exact behind (Bool.eq_false_iff.mpr writing)
    have order := inside.order
    have stored : Bounded s.f { s.f with
        writing := true, buf := Option.some (update buf s.f.len (BitVec.ofInt 8 c)), len := s.f.len + 1 } := by
      refine ⟨rfl, ⟨fun none => absurd none (Option.some_ne_none _), fun none => absurd none some⟩, ?_⟩
      intro old new here there i outside
      rw [held] at here
      rw [← Option.some.inj here, ← Option.some.inj there, update_of_ne (by omega)]
    split
    · rename_i full
      have flushed : Flushed ⟨{ s.f with
          writing := true, buf := Option.some (update buf s.f.len (BitVec.ofInt 8 c)), len := s.f.len + 1 }, s.fd⟩ _ :=
        fflush_flushed used rfl
      have fine := flushed.fine stored inside rfl (start full)
      obtain ⟨err, file⟩ := flushed.file
      have writing := congrArg FILE.writing file
      have marks : _ ∧ _ := ⟨congrArg FILE.pos file, (congrArg FILE.len file).trans_le (Nat.zero_le (s.f.len + 1))⟩
      split
      · exact ⟨fine, writing, marks, flushed.kept, flushed.told.imp_right fun told => ⟨rfl, fun _ => told.2⟩,
          fun bare => absurd bare some⟩
      · rename_i given
        exact ⟨fine, writing, marks, flushed.kept, Or.inl (flushed.told.resolve_right fun told => given told.1),
          fun bare => absurd bare some⟩
    · refine ⟨⟨⟨?_, less, fun none => absurd none (Option.some_ne_none _), fun _ => inside.room some,
        fun _ _ => ?_⟩, stored, rfl, rfl, Nat.le_refl _⟩, rfl, ⟨rfl, Nat.le_refl _⟩, fun before => before,
        Or.inl rfl, fun bare => absurd bare some⟩
      · dsimp only
        omega
      · dsimp only
        omega

theorem Put.room {p : Stream Disk × Int} {left : Nat} (put : Put s p) (room : Room s (left + 1)) :
    Room p.1 left := by
  intro some _
  refine ⟨fun reads => absurd (put.writing.symm.trans reads) (by decide), fun reaches => ?_⟩
  obtain ⟨pos, len⟩ := put.marks
  have size := put.fine.bounded.size
  rw [pos]
  exact (room (fun none => some (put.fine.bounded.none.mpr none)) (Nat.succ_pos left)).2 (by omega)

theorem Room.first {left : Nat} (room : Room s (left + 1)) : Room s 1 := fun some _ =>
  ⟨(room some (Nat.succ_pos left)).1, fun full => (room some (Nat.succ_pos left)).2 (by omega)⟩

/-- Bytes that are lost set `err`, or without a buffer none of those to come is refused. -/
def Tells (s t : Stream Disk) (left : Nat) : Prop :=
  t.f.err = true ∨ t.fd.lost = s.fd.lost ∧ (s.f.buf = none → ∀ i < left, s.fd.writes (t.fd.turn + i) ≠ none)

theorem Tells.put {p : Stream Disk × Int} {left : Nat} (tells : Tells s t (left + 1)) (fine : Fine s t)
    (put : Put t p) : Tells s p.1 left := by
  rcases tells with err | ⟨lost, taken⟩
  · exact Or.inl (put.kept err)
  · by_cases bare : s.f.buf = none
    · obtain ⟨turn, kept⟩ := put.bare (fine.bounded.none.mpr bare)
      have next := taken bare
      refine Or.inr ⟨(kept (fine.writes ▸ next 0 (Nat.succ_pos left))).trans lost, fun _ i less => ?_⟩
      rw [turn, Nat.add_assoc, Nat.add_comm 1]
      exact next (i + 1) (Nat.succ_lt_succ less)
    · rcases put.told with kept | ⟨_, err⟩
      · exact Or.inr ⟨kept.trans lost, fun none => absurd none bare⟩
      · exact Or.inl (err fun none => bare (fine.bounded.none.mp none))

theorem scatter_fine (inside : Inside s.f) (used : s.f.used = true) (left : Nat) (room : Room s left)
    (array : Memory) (put : Nat) : Fine s (scatter (fputc disk) left s array put).1 ∧
      (Tells s s left → ∃ rest, Tells s (scatter (fputc disk) left s array put).1 rest) := by
  obtain ⟨rest, fine, _, told⟩ := (@scatter_keeps _ (fputc disk) s
      (fun rest t => Fine s t ∧ Room t rest ∧ (Tells s s left → Tells s t rest)))
    (by
      rintro left t c ⟨fine, room, told⟩
      have more := fputc_put fine.inside (fine.used.trans used) room.first c
      exact ⟨fine.trans more.fine, more.room room, fun start => (told start).put fine more⟩)
    left array put ⟨Fine.refl inside, room, id⟩
  exact ⟨fine, fun start => ⟨rest, told start⟩⟩

theorem lseek_fine (d : Disk) (offset : U32) (whence : Nat) :
    (lseek disk d offset whence).1.writes = d.writes ∧ (lseek disk d offset whence).1.lost = d.lost := by
  unfold lseek
  split
  · exact ⟨rfl, rfl⟩
  · change (d.seek offset whence).1.writes = d.writes ∧ (d.seek offset whence).1.lost = d.lost
    unfold Disk.seek
    split
    · exact ⟨rfl, rfl⟩
    · split
      · exact ⟨rfl, rfl⟩
      · exact ⟨rfl, rfl⟩

theorem Inside.emptied (inside : Inside f) : Inside { f with len := 0, pos := 0, eof := false } :=
  ⟨Nat.le_refl 0, Nat.zero_le _, inside.bare, inside.room, fun _ => inside.room⟩

theorem Fine.moved {d : Disk} (fine : Fine s t) (inside : Inside f) (buf : f.buf = t.f.buf)
    (size : f.size = t.f.size) (used : f.used = t.f.used) (writes : d.writes = t.fd.writes)
    (lost : d.lost = t.fd.lost) : Fine s ⟨f, d⟩ :=
  ⟨inside, fine.bounded.trans (Bounded.of_same buf size), used.trans fine.used, writes.trans fine.writes,
    fine.lost.trans (Nat.le_of_eq lost.symm)⟩

theorem fseek_fine (inside : Inside s.f) (used : s.f.used = true) (flushable : Flushable s)
    (offset : U32) (whence : Nat) :
    Fine s (fseek disk s offset whence).1 ∧
      ((fseek disk s offset whence).1.fd.lost = s.fd.lost ∨ (fseek disk s offset whence).2 = EOF) := by
  unfold fseek
  rw [if_neg (not_not.mpr used)]
  obtain ⟨p, written, fine, told⟩ : ∃ p, (if s.f.writing = true then fflush disk s else (s, 0)) = p ∧ Fine s p.1 ∧
      (p.1.fd.lost = s.fd.lost ∨ p.2 = EOF) := by
    refine ⟨_, rfl, ?_⟩
    split
    · obtain ⟨fine, told⟩ := fflush_fine inside used flushable
      exact ⟨fine, told.imp_right And.left⟩
    · exact ⟨Fine.refl inside, Or.inl rfl⟩
  dsimp only
  rw [written]
  split
  · exact ⟨fine, Or.inr rfl⟩
  · rename_i given
    have lost := told.resolve_right given
    obtain ⟨d, place, found, writes, same⟩ : ∃ d place,
        (if whence = seekCur then
          if (lseek disk p.1.fd 0 seekCur).2 < 0 then ((lseek disk p.1.fd 0 seekCur).1, none)
          else ((lseek disk p.1.fd 0 seekCur).1, some (offset + (BitVec.ofInt 32 (lseek disk p.1.fd 0 seekCur).2 -
            (BitVec.ofNat 32 p.1.f.len - BitVec.ofNat 32 p.1.f.pos)), seekSet))
        else (p.1.fd, some (offset, whence))) = ((d, place) : Disk × Option (U32 × Nat)) ∧
          d.writes = p.1.fd.writes ∧ d.lost = p.1.fd.lost := by
      obtain ⟨writes, same⟩ := lseek_fine p.1.fd 0 seekCur
      split
      · split
        · exact ⟨_, _, rfl, writes, same⟩
        · exact ⟨_, _, rfl, writes, same⟩
      · exact ⟨_, _, rfl, rfl, rfl⟩
    rw [found]
    rcases place with _ | ⟨offset, whence⟩
    · exact ⟨fine.moved fine.inside rfl rfl rfl writes same, Or.inl (same.trans lost)⟩
    · obtain ⟨writes', same'⟩ := lseek_fine d offset whence
      dsimp only
      split
      · exact ⟨fine.moved fine.inside rfl rfl rfl (writes'.trans writes) (same'.trans same),
          Or.inl ((same'.trans same).trans lost)⟩
      · exact ⟨fine.moved fine.inside.emptied rfl rfl rfl (writes'.trans writes) (same'.trans same),
          Or.inl ((same'.trans same).trans lost)⟩

theorem ftell_fine (inside : Inside s.f) : Fine s (ftell disk s).1 ∧ (ftell disk s).1.fd.lost = s.fd.lost := by
  obtain ⟨writes, same⟩ := lseek_fine s.fd 0 seekCur
  have moved : Fine s ⟨s.f, (lseek disk s.fd 0 seekCur).1⟩ :=
    (Fine.refl inside).moved inside rfl rfl rfl writes same
  unfold ftell
  dsimp only
  split
  · exact ⟨Fine.refl inside, rfl⟩
  · split
    · exact ⟨moved, same⟩
    · split
      · exact ⟨moved, same⟩
      · exact ⟨moved, same⟩

theorem ungetc_fine (inside : Inside s.f) (c : Int) : Fine s (ungetc c s).1 ∧ (ungetc c s).1.fd.lost = s.fd.lost := by
  unfold ungetc
  split
  · exact ⟨Fine.refl inside, rfl⟩
  · exact ⟨⟨⟨inside.order, inside.less, inside.bare, inside.room, inside.writing⟩, Bounded.of_same rfl rfl, rfl, rfl,
      Nat.le_refl _⟩, rfl⟩

def Op.Keeps : Op → Prop
  | .fclose | .setvbuf _ _ => False
  | _ => True

structure Sound (s : Stream Disk) (op : Op) : Prop where
  inside : (op.run s).1.f.used = true → Inside (op.run s).1.f
  bounded : op.Keeps → Bounded s.f (op.run s).1.f
  lost : s.fd.lost ≤ (op.run s).1.fd.lost
  told : (op.run s).1.fd.lost = s.fd.lost ∨ Reported (op.run s).1 (op.run s).2

theorem Fine.sound {op : Op} (fine : Fine s (op.run s).1)
    (told : (op.run s).1.fd.lost = s.fd.lost ∨ Reported (op.run s).1 (op.run s).2) : Sound s op :=
  ⟨fun _ => fine.inside, fun _ => fine.bounded, fine.lost, told⟩

theorem op_sound (inside : Inside s.f) (op : Op) (safe : Safe s op) : Sound s op := by
  -- A reading call loses nothing; a writing one loses a byte only together with its report.
  cases op with
  | fgetc =>
    obtain ⟨fine, lost⟩ := fgetc_fine inside
    exact Fine.sound fine (Or.inl lost)
  | fread array size nmemb =>
    obtain ⟨fine, lost⟩ := gather_fine inside (fun _ => false) (size * nmemb).toNat array 0
    exact Fine.sound fine (Or.inl lost)
  | fgets array n =>
    obtain ⟨fine, lost⟩ := gather_fine inside (fun c => c = 10) (n - 1).toNat array 0
    refine Fine.sound ?_ (Or.inl ?_)
    · change Fine s (lineWith (fgetc disk) s array n).1
      unfold lineWith
      dsimp only
      split
      · exact fine
      · exact fine
    · change (lineWith (fgetc disk) s array n).1.fd.lost = s.fd.lost
      unfold lineWith
      dsimp only
      split
      · exact lost
      · exact lost
  | ungetc c =>
    obtain ⟨fine, lost⟩ := ungetc_fine inside c
    exact Fine.sound fine (Or.inl lost)
  | fputc c =>
    have put := fputc_put inside safe.1 safe.2 c
    exact Fine.sound put.fine (put.told.imp_right fun told => Or.inl (congrArg Answer.number told.1))
  | fwrite array size nmemb =>
    obtain ⟨used, room, taken⟩ := safe
    obtain ⟨fine, told⟩ := scatter_fine inside used (size * nmemb).toNat room array 0
    refine Fine.sound fine ?_
    have start : Tells s s (size * nmemb).toNat := by
      by_cases err : s.f.err = true
      · exact Or.inl err
      · exact Or.inr ⟨rfl, fun bare => taken bare (Bool.eq_false_iff.mpr err)⟩
    obtain ⟨_, err | ⟨lost, _⟩⟩ := told start
    · exact Or.inr (Or.inr err)
    · exact Or.inl lost
  | fflush =>
    obtain ⟨fine, told⟩ := fflush_fine inside safe.1 safe.2
    exact Fine.sound fine (told.imp_right fun told => Or.inr told.2)
  | fclose =>
    obtain ⟨fine, told⟩ := fflush_fine inside safe.1 safe.2
    have closed := fclose_run safe.1
    refine ⟨fun used => ?_, False.elim, ?_, ?_⟩
    · rw [closed] at used
      exact absurd used Bool.false_ne_true
    · rw [closed]
      exact fine.lost
    · rw [closed]
      exact told.imp_right fun told => Or.inr told.2
  | fseek offset whence =>
    obtain ⟨fine, told⟩ := fseek_fine inside safe.1 safe.2 offset whence
    exact Fine.sound fine (told.imp_right fun ended => Or.inl (congrArg Answer.number ended))
  | ftell =>
    obtain ⟨fine, lost⟩ := ftell_fine inside
    exact Fine.sound fine (Or.inl lost)
  | setvbuf buf size =>
    obtain ⟨used, large⟩ := safe
    have given : (Op.setvbuf buf size).run s = ((setvbuf s buf size).1, .number (setvbuf s buf size).2) := rfl
    unfold setvbuf at given
    split at given
    · exact ⟨fun _ => given ▸ inside, False.elim, by rw [given], Or.inl (by rw [given])⟩
    · rename_i fresh
      obtain ⟨_, empty⟩ := not_or.mp fresh
      obtain ⟨len, pos⟩ := not_or.mp empty
      refine ⟨fun _ => ?_, False.elim, by rw [given], Or.inl (by rw [given])⟩
      rw [given]
      refine ⟨?_, ?_, fun bare => ?_, fun held => ?_, fun writing held => ?_⟩
      all_goals dsimp only at *
      · omega
      · omega
      · rw [bare]
        rfl
      · rw [if_pos (Option.isSome_iff_ne_none.mpr held)]
        exact large held
      · rw [if_pos (Option.isSome_iff_ne_none.mpr held), not_not.mp len]
        exact large held

end Ubiqos.Stdio
