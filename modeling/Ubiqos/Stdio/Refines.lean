import Ubiqos.Lib.Along
import Ubiqos.Stdio.Reader

/-!
A stream open for writing beside the bytes and the position, for as long as the descriptor takes what
it is given. What is in the buffer lies over the file from where the descriptor stands.
-/

namespace Ubiqos.Stdio

open Function Words

/-- What the file will have, and how far it will reach, when the buffer is written out. -/
structure Pending (s : Stream Disk) (r : Ref) : Prop where
  used : s.f.used = true
  writing : s.f.writing = true
  byte : r.byte = laid s.fd.byte s.fd.here.toNat (upTo (s.f.buf.getD fun _ => 0) s.f.len)
  size : r.size = Disk.reach s.fd.size s.fd.here.toNat s.f.len
  place : r.place = s.fd.here.toNat + s.f.len
  fits : s.fd.here.toNat + s.f.len < 2 ^ 32

structure Writing (s : Stream Disk) (r : Ref) : Prop where
  inside : Inside s.f
  start : s.f.pos = 0
  pending : Pending s r

variable {s t : Stream Disk} {r : Ref}

theorem upTo_zero (memory : Memory) : upTo memory 0 = [] := rfl

theorem upTo_update (memory : Memory) (count : Nat) (byte : Byte) :
    upTo (update memory count byte) (count + 1) = upTo memory count ++ [byte] := by
  unfold upTo
  rw [List.range_succ, List.map_append, List.map_singleton, update_self]
  congr 1
  refine List.map_congr_left fun i member => ?_
  exact update_of_ne (Nat.ne_of_lt (List.mem_range.mp member)) _ _

theorem disk_write_taken (d : Disk) {bytes : List Byte} (taken : (disk.write d bytes).1.lost = d.lost)
    (fits : d.here.toNat + bytes.length < 2 ^ 32) :
    (disk.write d bytes).2 = bytes.length ∧ Wrote d (disk.write d bytes).1 bytes := by
  have outcome := writeLoop_outcome bytes.length d bytes (Nat.le_refl _)
  have all := outcome.told.mpr taken
  exact ⟨if_pos all, outcome.wrote all fits⟩

theorem fflush_pending (pending : Pending s r) (taken : (fflush disk s).1.fd.lost = s.fd.lost) :
    Pending (fflush disk s).1 r ∧ (fflush disk s).2 = 0 ∧ (fflush disk s).1.f.len = 0 ∧
      (fflush disk s).1.f.pos = s.f.pos := by
  by_cases empty : s.f.len = 0
  · rw [fflush_nothing pending.used (Or.inr empty)]
    exact ⟨pending, rfl, empty, rfl⟩
  · revert taken
    have length := upTo_length (s.f.buf.getD fun _ => 0) s.f.len
    unfold fflush
    rw [if_neg (not_not.mpr pending.used), if_neg (not_or.mpr ⟨not_not.mpr pending.writing, empty⟩)]
    dsimp only
    intro taken
    have given : (disk.write s.fd (upTo (s.f.buf.getD fun _ => 0) s.f.len)).1.lost = s.fd.lost := by
      split at taken
      · exact taken
      · exact taken
    obtain ⟨count, byte, size, here⟩ := disk_write_taken s.fd given (length.symm ▸ pending.fits)
    rw [length] at count size here
    rw [if_neg (by omega)]
    refine ⟨⟨pending.used, pending.writing, ?_, ?_, ?_, ?_⟩, rfl, rfl, rfl⟩
    · dsimp only
      rw [upTo_zero, laid_nil, byte]
      exact pending.byte
    · dsimp only
      rw [size, pending.size]
      unfold Disk.reach
      rw [if_pos rfl]
    · dsimp only
      rw [here]
      exact pending.place
    · dsimp only
      rw [here]
      exact pending.fits

theorem fflush_writing (writing : Writing s r) (taken : (fflush disk s).1.fd.lost = s.fd.lost) :
    Writing (fflush disk s).1 r ∧ (fflush disk s).2 = 0 ∧ (fflush disk s).1.f.len = 0 ∧
      (fflush disk s).1.f.pos = 0 := by
  obtain ⟨pending, answer, len, pos⟩ := fflush_pending writing.pending taken
  have flushed := fflush_flushed writing.pending.used writing.pending.writing
  have start := pos.trans writing.start
  exact ⟨⟨(flushed.fine (Bounded.refl s.f) writing.inside rfl writing.start).inside, start, pending⟩, answer,
    len, start⟩

theorem Pending.byte_more (pending : Pending s r) {c : Int} :
    (r.putc c).1.byte = laid s.fd.byte s.fd.here.toNat
      (upTo (s.f.buf.getD fun _ => 0) s.f.len ++ [BitVec.ofInt 8 c]) ∧
      (r.putc c).1.size = Disk.reach s.fd.size s.fd.here.toNat (s.f.len + 1) ∧
      (r.putc c).1.place = s.fd.here.toNat + (s.f.len + 1 : Nat) := by
  have place := pending.place
  have value : r.place.toNat = s.fd.here.toNat + s.f.len := by omega
  refine ⟨?_, ?_, ?_⟩
  · change update r.byte r.place.toNat (BitVec.ofInt 8 c) = _
    rw [laid_append, upTo_length, laid_cons, laid_nil, value, pending.byte]
  · change max r.size (r.place.toNat + 1) = _
    rw [value, pending.size]
    unfold Disk.reach
    split
    · rw [if_neg (by omega)]
      omega
    · rw [if_neg (by omega)]
      omega
  · change r.place + 1 = _
    omega

theorem byte_value {c : Int} (low : 0 ≤ c) (high : c < 256) : ((BitVec.ofInt 8 c).toNat : Int) = c := by
  rw [BitVec.toNat_ofInt, Int.toNat_of_nonneg (Int.emod_nonneg _ (by decide))]
  exact Int.emod_eq_of_lt low (by omega)

theorem Writing.room (writing : Writing s r) (count : Nat) : Room s count := fun _ _ =>
  ⟨fun reads => absurd (writing.pending.writing.symm.trans reads) (by decide), fun _ => writing.start⟩

theorem fputc_writing (writing : Writing s r) {c : Int} (low : 0 ≤ c) (high : c < 256)
    (fits : s.fd.here.toNat + s.f.len + 1 < 2 ^ 32) (taken : (fputc disk c s).1.fd.lost = s.fd.lost) :
    Writing (fputc disk c s).1 (r.putc c).1 ∧ (fputc disk c s).2 = (r.putc c).2 ∧ (fputc disk c s).2 ≠ EOF := by
  have pending := writing.pending
  have value := byte_value low high
  have some : c ≠ EOF := fun none => by
    unfold EOF at none
    omega
  have put := fputc_put writing.inside pending.used (writing.room 1) c
  obtain ⟨byte, size, place⟩ := pending.byte_more (c := c)
  suffices Pending (fputc disk c s).1 (r.putc c).1 ∧ (fputc disk c s).2 = c from
    ⟨⟨put.fine.inside, put.marks.1.trans writing.start, this.1⟩, this.2.trans value.symm,
      fun ended => some (this.2.symm.trans ended)⟩
  clear put
  revert taken
  unfold fputc
  rw [if_neg (not_not.mpr pending.used)]
  dsimp only
  split
  · rename_i bare
    intro taken
    have less := writing.inside.less
    have nothing := writing.inside.bare bare
    have len : s.f.len = 0 := by omega
    rw [len, upTo_zero, List.nil_append] at byte
    rw [len] at size place fits
    obtain ⟨count, byte', size', here⟩ :=
      disk_write_taken s.fd taken fits
    rw [List.length_singleton] at count size' here
    refine ⟨⟨pending.used, rfl, ?_, ?_, ?_, ?_⟩, if_pos count⟩
    · dsimp only
      rw [len, upTo_zero, laid_nil, byte, byte']
    · dsimp only
      rw [size, len, size']
      rfl
    · dsimp only
      rw [place, here, len]
      omega
    · dsimp only
      omega
  · rename_i buf held
    -- the byte is in the buffer, which may be full now
    have stored : Pending ⟨{ s.f with
        writing := true, buf := Option.some (update buf s.f.len (BitVec.ofInt 8 c)), len := s.f.len + 1 }, s.fd⟩
        (r.putc c).1 := by
      refine ⟨pending.used, rfl, ?_, size, place, fits⟩
      rw [byte, held]
      dsimp only [Option.getD_some]
      rw [upTo_update]
    split
    · intro taken
      have given : (fflush disk ⟨{ s.f with
          writing := true, buf := Option.some (update buf s.f.len (BitVec.ofInt 8 c)), len := s.f.len + 1 },
          s.fd⟩).1.fd.lost = s.fd.lost := by
        split at taken
        · exact taken
        · exact taken
      obtain ⟨after, answer, _⟩ := fflush_pending stored given
      rw [answer, if_neg (by decide)]
      exact ⟨after, rfl⟩
    · exact fun _ => ⟨stored, rfl⟩

theorem scatter_writing (left : Nat) (writing : Writing s r) (array : Memory) (put : Nat)
    (fits : s.fd.here.toNat + s.f.len + left < 2 ^ 32)
    (taken : (scatter (fputc disk) left s array put).1.fd.lost = s.fd.lost) :
    Writing (scatter (fputc disk) left s array put).1 (scatter Ref.putc left r array put).1 ∧
      (scatter (fputc disk) left s array put).2 = (scatter Ref.putc left r array put).2 := by
  induction left generalizing s r put with
  | zero => exact ⟨writing, rfl⟩
  | succ left ih =>
    revert taken
    have bound := (array put).isLt
    have pending := writing.pending
    have more := fputc_put writing.inside pending.used (writing.room 1) (array put).toNat
    have room := more.room (writing.room (left + 1))
    unfold scatter
    dsimp only
    intro taken
    -- a loss on the way would still be one at the end
    have kept : (fputc disk (array put).toNat s).1.fd.lost = s.fd.lost := by
      split at taken
      · exact taken
      · have fine := (scatter_fine more.fine.inside (more.fine.used.trans pending.used) left room array (put + 1)).1
        exact Nat.le_antisymm (fine.lost.trans (Nat.le_of_eq taken)) more.fine.lost
    obtain ⟨next, answer, some⟩ := fputc_writing writing (Int.natCast_nonneg _) (by omega) (by omega) kept
    rw [if_neg some] at taken ⊢
    rw [answer] at some
    rw [if_neg some]
    refine ih next (put + 1) ?_ (taken.trans kept.symm)
    have place := next.pending.place
    have moved : (r.putc (array put).toNat).1.place = r.place + 1 := rfl
    have before := pending.place
    omega

theorem fseek_lost (used : s.f.used = true) (writing : s.f.writing = true) (offset : U32) (whence : Nat) :
    (fseek disk s offset whence).1.fd.lost = (fflush disk s).1.fd.lost := by
  have tell := (lseek_fine (fflush disk s).1.fd 0 seekCur).2
  have go := fun d offset whence => (lseek_fine d offset whence).2
  unfold fseek
  rw [if_neg (not_not.mpr used)]
  dsimp only
  rw [if_pos writing]
  split
  · rfl
  · by_cases cur : whence = seekCur
    · rw [if_pos cur]
      split
      · rename_i found
        split at found
        · rw [← (Prod.mk.inj found).1]
          exact tell
        · cases (Prod.mk.inj found).2
      · rename_i found
        split at found
        · cases (Prod.mk.inj found).2
        · rw [← (Prod.mk.inj found).1]
          split
          · exact (go _ _ _).trans tell
          · exact (go _ _ _).trans tell
    · rw [if_neg cur]
      dsimp only
      split
      · exact go _ _ _
      · exact go _ _ _

theorem fseek_writing (writing : Writing s r) {offset : U32} {whence : Nat}
    (fits : Writes s (.fseek offset whence)) (taken : (fseek disk s offset whence).1.fd.lost = s.fd.lost) :
    Writing (fseek disk s offset whence).1 (r.seek offset whence).1 ∧
      (fseek disk s offset whence).2 = (r.seek offset whence).2 := by
  have pending := writing.pending
  have kept := (fseek_lost pending.used pending.writing offset whence).symm.trans taken
  obtain ⟨flushed, answer, len, pos⟩ := fflush_writing writing kept
  have stands : r.place = (fflush disk s).1.fd.here.toNat := by
    have place := flushed.pending.place
    omega
  have place := pending.place
  have done : (if s.f.writing = true then fflush disk s else (s, 0)) = ((fflush disk s).1, 0) := by
    rw [if_pos pending.writing, ← answer]
  have here : r.place = (fflush disk s).1.fd.here.toNat - (fflush disk s).1.f.len + (fflush disk s).1.f.pos := by
    rw [len, pos, stands]
    omega
  dsimp only [Writes] at fits
  rw [← place] at fits
  rw [fseek_goes pending.used done here fun target found => ?_]
  · unfold Ref.seek
    cases found : Ref.target r.place offset whence with
    | none => exact ⟨flushed, rfl⟩
    | some target =>
      obtain ⟨range, _⟩ := fits target found
      have word := (inRange_word range).1
      dsimp only
      rw [if_pos range]
      refine ⟨⟨flushed.inside.emptied, rfl, ⟨flushed.pending.used, flushed.pending.writing, ?_, ?_, ?_, ?_⟩⟩, rfl⟩
      · have byte := flushed.pending.byte
        rw [len, upTo_zero, laid_nil] at byte
        dsimp only
        rw [upTo_zero, laid_nil, byte]
      · have size := flushed.pending.size
        rw [len] at size
        exact size
      · dsimp only
        omega
      · have bound := (BitVec.ofInt 32 target).isLt
        dsimp only
        omega
  · obtain ⟨range, small⟩ := fits target found
    refine ⟨range, fun cur => ?_⟩
    have before := small cur
    omega

theorem ftell_writing (writing : Writing s r) (fits : Writes s .ftell) :
    (ftell disk s).1 = s ∧ (ftell disk s).2 = r.place := by
  have small : s.fd.here.toNat + s.f.len < 2 ^ 31 := fits
  have place := writing.pending.place
  obtain ⟨tells, above⟩ := tell_here (d := s.fd) (by omega)
  unfold ftell
  rw [if_neg (not_not.mpr writing.pending.used), tells]
  dsimp only
  rw [if_neg above, if_pos writing.pending.writing]
  refine ⟨rfl, ?_⟩
  have range : Ref.InRange ((s.fd.here.toNat : Int) + s.f.len) := ⟨by omega, by omega⟩
  have word : BitVec.ofInt 32 s.fd.here.toInt + BitVec.ofNat 32 s.f.len =
      BitVec.ofInt 32 ((s.fd.here.toNat : Int) + s.f.len) := by
    rw [BitVec.ofInt_add, BitVec.ofInt_natCast, BitVec.ofInt_natCast, BitVec.ofInt_toInt, BitVec.ofNat_toNat,
      BitVec.setWidth_eq]
  dsimp only
  rw [word, (inRange_word range).2, place]

end Ubiqos.Stdio

/-!
Whole runs of a stream and of the bytes and the position beside it.
-/

namespace Ubiqos.Stdio

open Function Words Machine

variable {s : Stream Disk} {r : Ref}

/-- The bytes and the position as they are when the stream has been closed. -/
structure Shut (s : Stream Disk) (r : Ref) : Prop where
  closed : s.f.used = false
  byte : s.fd.byte = r.byte
  size : s.fd.size = r.size

def Meets (s : Stream Disk) (r : Ref) : Prop := Reading s r ∨ Writing s r ∨ Shut s r

theorem op_writing (writing : Writing s r) (op : Op) (fits : Writes s op)
    (taken : (op.run s).1.fd.lost = s.fd.lost) :
    Meets (op.run s).1 (r.run op).1 ∧ (op.run s).2 = (r.run op).2 := by
  cases op with
  | fputc c =>
    obtain ⟨low, high, short⟩ := fits
    obtain ⟨next, answer, _⟩ := fputc_writing writing low high short taken
    exact ⟨Or.inr (Or.inl next), congrArg Answer.number answer⟩
  | fwrite array size nmemb =>
    obtain ⟨next, answer⟩ := scatter_writing (size * nmemb).toNat writing array 0 fits taken
    refine ⟨Or.inr (Or.inl next), ?_⟩
    change Answer.number (writeWith (fputc disk) s array size nmemb).2 =
      Answer.number (writeWith Ref.putc r array size nmemb).2
    unfold writeWith
    dsimp only
    rw [answer]
  | fflush =>
    obtain ⟨next, answer, _⟩ := fflush_writing writing taken
    exact ⟨Or.inr (Or.inl next), congrArg Answer.number answer⟩
  | fclose =>
    rw [fclose_run writing.pending.used] at taken ⊢
    obtain ⟨next, answer, len, _⟩ := fflush_writing writing taken
    have byte := next.pending.byte
    have size := next.pending.size
    rw [len, upTo_zero, laid_nil] at byte
    rw [len] at size
    exact ⟨Or.inr (Or.inr ⟨rfl, byte.symm, size.symm⟩), congrArg Answer.number answer⟩
  | fseek offset whence =>
    obtain ⟨next, answer⟩ := fseek_writing writing fits taken
    exact ⟨Or.inr (Or.inl next), congrArg Answer.number answer⟩
  | ftell =>
    obtain ⟨still, answer⟩ := ftell_writing writing fits
    refine ⟨Or.inr (Or.inl ?_), congrArg Answer.number answer⟩
    change Writing (ftell disk s).1 r
    rw [still]
    exact writing
  | fgetc => exact fits.elim
  | fread array size nmemb => exact fits.elim
  | fgets array n => exact fits.elim
  | ungetc c => exact fits.elim
  | setvbuf buf size => exact fits.elim

/-- A file that was opened, with a buffer of the library's or none, and perhaps one of the program's. -/
def opened (memory : Option Memory) (writing : Bool) (own : Option (Option Memory × Nat)) (d : Disk) : Stream Disk :=
  let s : Stream Disk := ⟨freshFile memory writing, d⟩
  match own with
  | none => s
  | some (buf, size) => (setvbuf s buf size).1

def Ref.start (d : Disk) : Ref := ⟨d.byte, d.size, d.here.toNat, none⟩

abbrev Both := Stream Disk × Ref

def Both.step (p : Both) (op : Op) : Both := ((op.run p.1).1, (p.2.run op).1)

def Careful (p : Both) (op : Op) : Prop :=
  Safe p.1 op ∧ if p.1.f.writing then Writes p.1 op else Reads p.1 op

theorem Safe.used {op : Op} (safe : Safe s op) : s.f.used = true := by
  cases op with
  | fputc c => exact safe.1
  | fwrite array size nmemb => exact safe.1
  | setvbuf buf size => exact safe.1
  | fflush => exact safe.1
  | fclose => exact safe.1
  | fseek offset whence => exact safe.1
  | _ => exact safe

theorem op_meets {p : Both} (meets : Meets p.1 p.2) {op : Op} (careful : Careful p op)
    (taken : (op.run p.1).1.fd.lost = p.1.fd.lost) :
    Meets (p.step op).1 (p.step op).2 ∧ (op.run p.1).2 = (p.2.run op).2 := by
  obtain ⟨safe, fits⟩ := careful
  rcases meets with reading | writing | shut
  · rw [if_neg (Bool.eq_false_iff.mp reading.reads)] at fits
    obtain ⟨next, answer⟩ := op_reading reading op fits
    exact ⟨Or.inl next, answer⟩
  · rw [if_pos writing.pending.writing] at fits
    exact op_writing writing op fits taken
  · exact absurd (shut.closed.symm.trans safe.used) Bool.false_ne_true

section Start
variable {memory : Option Memory} {writing : Bool} {own : Option (Option Memory × Nat)} {d : Disk}

def Roomy (own : Option (Option Memory × Nat)) : Prop := ∀ buf size, own = some (some buf, size) → 0 < size

theorem freshFile_inside (memory : Option Memory) (writing : Bool) : Inside (freshFile memory writing) := by
  cases memory with
  | none =>
    exact ⟨Nat.le_refl 0, Nat.le_refl 0, fun _ => rfl, fun held => absurd rfl held, fun _ =>
      fun held => absurd rfl held⟩
  | some bytes =>
    have room : 0 < bufsiz := by decide
    exact ⟨Nat.le_refl 0, Nat.zero_le _, fun none => absurd none (Option.some_ne_none bytes), fun _ => room,
      fun _ _ => room⟩

theorem opened_inside (roomy : Roomy own) : Inside (opened memory writing own d).f := by
  unfold opened
  dsimp only
  split
  · exact freshFile_inside memory writing
  · rename_i buf size
    have safe : Safe ⟨freshFile memory writing, d⟩ (.setvbuf buf size) := by
      refine ⟨rfl, fun held => ?_⟩
      obtain ⟨bytes, some⟩ := Option.ne_none_iff_exists'.mp held
      exact roomy bytes size (some ▸ rfl)
    exact (op_sound (freshFile_inside memory writing) _ safe).inside rfl

theorem opened_file : ∃ buf size owned, opened memory writing own d =
    ⟨{ freshFile memory writing with buf := buf, size := size, owned := owned }, d⟩ := by
  unfold opened
  dsimp only
  split
  · exact ⟨_, _, _, rfl⟩
  · exact ⟨_, _, _, rfl⟩

theorem opened_meets (roomy : Roomy own) (fits : d.size < 2 ^ 32) :
    Meets (opened memory writing own d) (Ref.start d) := by
  have inside := (@opened_inside memory writing _ d) roomy
  obtain ⟨buf, size, owned, file⟩ := (@opened_file memory writing own d)
  rw [file] at inside ⊢
  cases writing with
  | false =>
    exact Or.inl ⟨inside, rfl, rfl, rfl, rfl, rfl, fits, Nat.zero_le _, fun some => absurd rfl some,
      fun _ _ i less => absurd less (Nat.not_lt_zero i), fun ended => absurd ended Bool.false_ne_true,
      Or.inl ⟨rfl, rfl, rfl⟩⟩
  | true =>
    refine Or.inr (Or.inl ⟨inside, rfl, rfl, rfl, ?_, rfl, ?_, d.here.isLt⟩)
    · exact (laid_nil _ _).symm
    · exact (Int.add_zero _).symm

end Start

def Delivered (s : Stream Disk) (r : Ref) : Prop :=
  s.f.used = false ∨ s.f.writing = false ∨ s.f.len = 0 → s.fd.byte = r.byte ∧ s.fd.size = r.size

theorem Meets.delivered (meets : Meets s r) : Delivered s r := by
  rcases meets with reading | writing | shut
  · exact fun _ => ⟨reading.byte.symm, reading.size.symm⟩
  · intro nothing
    have pending := writing.pending
    have len : s.f.len = 0 := by
      rcases nothing with closed | reads | empty
      · exact absurd (closed.symm.trans pending.used) Bool.false_ne_true
      · exact absurd (reads.symm.trans pending.writing) Bool.false_ne_true
      · exact empty
    have byte := pending.byte
    have size := pending.size
    rw [len, upTo_zero, laid_nil] at byte
    rw [len] at size
    exact ⟨byte.symm, size.symm⟩
  · exact fun _ => ⟨shut.byte, shut.size⟩

structure Both.Run (d : Disk) (p : Both) : Prop where
  inside : p.1.f.used = true → Inside p.1.f
  lost : d.lost ≤ p.1.fd.lost
  meets : p.1.fd.lost = d.lost → Meets p.1 p.2

theorem Both.Run.step {d : Disk} {p : Both} (run : p.Run d) {op : Op} (careful : Careful p op) :
    (p.step op).Run d := by
  have sound := op_sound (run.inside careful.1.used) op careful.1
  refine ⟨sound.inside, run.lost.trans sound.lost, fun kept => ?_⟩
  have before : p.1.fd.lost = d.lost := Nat.le_antisymm (sound.lost.trans (Nat.le_of_eq kept)) run.lost
  exact (op_meets (run.meets before) careful (kept.trans before.symm)).1

/-- In a run of safe calls nothing is stored outside of the buffer, its marks are in order, and bytes that
were not delivered are told of. In one of calls that are for the stream's direction, answers and bytes are
those of the bytes and the position as long as none were lost. -/
theorem streams_are_files (memory : Option Memory) (writing : Bool) (own : Option (Option Memory × Nat)) (d : Disk)
    (ops : List Op) (roomy : Roomy own) (fits : d.size < 2 ^ 32) :
    (Along (fun s op => (op.run s).1) Safe (opened memory writing own d) ops →
      ((ops.foldl (fun s op => (op.run s).1) (opened memory writing own d)).f.used = true →
        Inside (ops.foldl (fun s op => (op.run s).1) (opened memory writing own d)).f) ∧
      ∀ op, Safe (ops.foldl (fun s op => (op.run s).1) (opened memory writing own d)) op →
        Sound (ops.foldl (fun s op => (op.run s).1) (opened memory writing own d)) op) ∧
    (Along Both.step Careful (opened memory writing own d, Ref.start d) ops →
      (ops.foldl Both.step (opened memory writing own d, Ref.start d)).1.fd.lost = d.lost →
      Delivered (ops.foldl Both.step (opened memory writing own d, Ref.start d)).1
        (ops.foldl Both.step (opened memory writing own d, Ref.start d)).2 ∧
      ∀ op, Careful (ops.foldl Both.step (opened memory writing own d, Ref.start d)) op →
        (op.run (ops.foldl Both.step (opened memory writing own d, Ref.start d)).1).1.fd.lost = d.lost →
        (op.run (ops.foldl Both.step (opened memory writing own d, Ref.start d)).1).2 =
          ((ops.foldl Both.step (opened memory writing own d, Ref.start d)).2.run op).2) := by
  have inside := (@opened_inside memory writing _ d) roomy
  constructor
  · intro run
    have after := along_invariant (fun s : Stream Disk => s.f.used = true → Inside s.f) run (fun _ => inside)
      fun s op _ safe inside => (op_sound (inside safe.used) op safe).inside
    exact ⟨after, fun op safe => op_sound (after safe.used) op safe⟩
  · intro run kept
    have same : (opened memory writing own d).fd = d := by
      obtain ⟨_, _, _, file⟩ := (@opened_file memory writing own d)
      rw [file]
    have after := along_invariant (Both.Run d) run
      ⟨fun _ => inside, by rw [same], fun _ => opened_meets roomy fits⟩
      fun p op _ careful run => run.step careful
    have meets := after.meets kept
    exact ⟨meets.delivered, fun op careful taken =>
      (op_meets meets careful (taken.trans kept.symm)).2⟩

def twoBytes : Disk := ⟨fun i => BitVec.ofNat 8 (65 + i), 2, 0, fun _ => bufsiz, fun _ => some 0, 0, 0⟩

/-- Three bytes are written and the stream closed, which takes a call for each, and they are in the file. -/
theorem streams_are_files_closed :
    Delivered ([Op.fwrite (fun _ => 90) 1 3, .fclose].foldl Both.step
        (opened (some fun _ => 0) true none twoBytes, Ref.start twoBytes)).1
      ([Op.fwrite (fun _ => 90) 1 3, .fclose].foldl Both.step
        (opened (some fun _ => 0) true none twoBytes, Ref.start twoBytes)).2 := by
  refine ((streams_are_files (some fun _ => 0) true none twoBytes [.fwrite (fun _ => 90) 1 3, .fclose]
    (fun _ _ none => ?_) (by decide)).2 ⟨⟨⟨rfl, fun _ _ => ⟨fun reads => ?_, fun _ => rfl⟩, fun bare => ?_⟩, ?_⟩,
      ⟨⟨rfl, fun _ _ => rfl⟩, trivial⟩, trivial⟩ ?_).1
  · cases none
  · cases reads
  · cases bare
  · change (_ : Nat) < _
    decide
  · decide +kernel

def oneByte : Stream Disk := opened none false (some (some fun _ => 0, 1)) twoBytes

def mismatched : Stream Disk :=
  ((Op.fputc 90).run ((Op.fgetc).run (opened (some fun _ => 0) false none twoBytes)).1).1

def refused : Stream Disk × Answer :=
  (Op.fwrite (fun _ => 90) 1 1).run (opened none true none { twoBytes with writes := fun _ => none })

/-- A byte that was put back is left out of the position, and read again after a seek. A byte written to a
stream that was read from is stored behind its buffer where that is full, and leaves the position behind the
end of the buffer when it is flushed. What `fwrite` gives a stream without a buffer is refused and `err` not set. -/
theorem streams_slip :
    ((Op.ftell).run ([Op.fgetc, .ungetc 65].foldl Both.step (oneByte, Ref.start twoBytes)).1).2 ≠
        (([Op.fgetc, .ungetc 65].foldl Both.step (oneByte, Ref.start twoBytes)).2.run .ftell).2 ∧
      ((Op.fgetc).run ([Op.fgetc, .ungetc 90, .fseek 0 seekSet].foldl Both.step (oneByte, Ref.start twoBytes)).1).2 ≠
        (([Op.fgetc, .ungetc 90, .fseek 0 seekSet].foldl Both.step (oneByte, Ref.start twoBytes)).2.run .fgetc).2 ∧
      ¬ Bounded ((Op.fgetc).run oneByte).1.f ((Op.fputc 90).run ((Op.fgetc).run oneByte).1).1.f ∧
      ¬ Inside ((Op.fflush).run mismatched).1.f ∧
      refused.1.fd.lost ≠ twoBytes.lost ∧ ¬ Reported refused.1 refused.2 := by
  refine ⟨fun same => ?_, fun same => ?_, fun bounded => ?_, fun inside => ?_, by decide +kernel, ?_⟩
  · exact absurd (Answer.number.inj same) (by decide +kernel)
  · exact absurd (Answer.number.inj same) (by decide +kernel)
  · have kept := bounded.outside _ _ rfl rfl 1 (by decide)
    exact absurd kept (by decide +kernel)
  · exact absurd inside.order (by decide +kernel)
  · rintro (ended | err)
    · exact absurd (Answer.number.inj ended) (by decide +kernel)
    · exact absurd err (by decide +kernel)

end Ubiqos.Stdio
