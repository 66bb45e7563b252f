import Ubiqos.Stdio.Bounds

/-!
A stream open for reading beside the bytes and the position. What was read ahead is the part of the
file before where the descriptor stands.
-/

namespace Ubiqos.Stdio

open Function Words

theorem gather_simulates {S R : Type} {getc : S → S × Int} {getc' : R → R × Int} {rel : S → R → Prop}
    (same : ∀ s r, rel s r → rel (getc s).1 (getc' r).1 ∧ (getc s).2 = (getc' r).2) (last : Int → Bool)
    (left : Nat) {s : S} {r : R} (array : Memory) (got : Nat) (start : rel s r) :
    rel (gather getc last left s array got).1 (gather getc' last left r array got).1 ∧
      (gather getc last left s array got).2 = (gather getc' last left r array got).2 := by
  induction left generalizing s r array got with
  | zero => exact ⟨start, rfl⟩
  | succ left ih =>
    obtain ⟨next, answer⟩ := same s r start
    unfold gather
    dsimp only
    rw [answer]
    split
    · exact ⟨next, rfl⟩
    · split
      · exact ⟨next, rfl⟩
      · exact ih _ _ next

def Placed (unget : Int) (pushed : Option Byte) (place : Int) (here : Nat) : Prop :=
  unget = -1 ∧ pushed = none ∧ place = here ∨
    ∃ c : Byte, unget = c.toNat ∧ pushed = some c ∧ place = here - 1

structure Reading (s : Stream Disk) (r : Ref) : Prop where
  inside : Inside s.f
  used : s.f.used = true
  reads : s.f.writing = false
  fine : s.f.err = false
  byte : r.byte = s.fd.byte
  size : r.size = s.fd.size
  fits : s.fd.size < 2 ^ 32
  ahead : s.f.len ≤ s.fd.here.toNat
  inFile : s.f.len ≠ 0 → s.fd.here.toNat ≤ s.fd.size
  held : ∀ buf, s.f.buf = some buf → ∀ i < s.f.len, buf i = s.fd.byte (s.fd.here.toNat - s.f.len + i)
  ended : s.f.eof = true → s.f.pos = s.f.len ∧ s.fd.size ≤ s.fd.here.toNat
  place : Placed s.f.unget r.pushed r.place (s.fd.here.toNat - s.f.len + s.f.pos)

variable {s t : Stream Disk} {r : Ref}

theorem Placed.here {unget place : Int} {pushed : Option Byte} {here : Nat}
    (placed : Placed unget pushed place here) (none : unget < 0) : unget = -1 ∧ pushed = .none ∧ place = here := by
  rcases placed with there | ⟨c, back, _⟩
  · exact there
  · omega

theorem disk_read_bytes (d : Disk) (want : Nat) (fits : d.size < 2 ^ 32) :
    ∃ bytes, (disk.read d want).2 = some bytes ∧ bytes.length ≤ want ∧
      (disk.read d want).1.here.toNat = d.here.toNat + bytes.length ∧
      (bytes.length ≠ 0 → d.here.toNat + bytes.length ≤ d.size) ∧
      (bytes.length = 0 → want = 0 ∨ d.size ≤ d.here.toNat) ∧
      ∀ (i : Nat) (inside : i < bytes.length), bytes[i] = d.byte (d.here.toNat + i) := by
  refine ⟨_, rfl, ?_⟩
  simp only [List.length_map, List.length_range, List.getElem_map, List.getElem_range]
  have bound := d.here.isLt
  change _ ∧ (d.here + BitVec.ofNat 32 (min (min want (d.reads d.turn + 1)) (d.size - d.here.toNat))).toNat = _ ∧ _
  refine ⟨by omega, ?_, by omega, by omega, fun _ _ => trivial⟩
  rw [BitVec.toNat_add, BitVec.toNat_ofNat]
  omega

theorem getc_ended (place : r.place = s.fd.here.toNat) (size : r.size = s.fd.size) (none : r.pushed = none)
    (ended : s.fd.size ≤ s.fd.here.toNat) : r.getc = (r, EOF) := by
  unfold Ref.getc
  rw [none]
  dsimp only
  rw [if_neg (by omega)]

theorem getc_given {here : Nat} (place : r.place = here) (none : r.pushed = none) (inside : here < r.size) :
    r.getc = ({ r with place := here + 1 }, ((r.byte here).toNat : Int)) := by
  unfold Ref.getc
  rw [none]
  dsimp only
  rw [if_pos (by omega), place, Int.toNat_natCast]

theorem fill_reading (reading : Reading s r) (none : s.f.unget = -1) (empty : s.f.pos = s.f.len) :
    Reading (fill disk s).1 r ∧ (fill disk s).1.f.unget = -1 ∧
      ((fill disk s).2 = true → (fill disk s).1.f.pos < (fill disk s).1.f.len) ∧
      ((fill disk s).2 = false → (fill disk s).1.f.pos = (fill disk s).1.f.len ∧
        ((fill disk s).1.f.buf ≠ .none → (fill disk s).1.fd.size ≤ (fill disk s).1.fd.here.toNat)) := by
  obtain ⟨_, pushed, place⟩ := reading.place.here (by omega)
  have inside := (fill_fine reading.inside reading.reads).1.inside
  revert inside
  unfold fill
  split
  · rename_i stopped
    have ended : s.f.eof = true := by
      have reads := reading.reads
      have fine := reading.fine
      simpa [reads, fine] using stopped
    intro _
    exact ⟨reading, none, fun given => absurd given Bool.false_ne_true,
      fun _ => ⟨empty, fun _ => (reading.ended ended).2⟩⟩
  · dsimp only
    split
    · rename_i bare
      intro inside
      have less := reading.inside.less
      have nothing := reading.inside.bare bare
      have len : s.f.len = 0 := by omega
      refine ⟨⟨inside, reading.used, reading.reads, reading.fine, reading.byte, reading.size, reading.fits,
        Nat.zero_le _, fun some => absurd rfl some, fun _ _ i less => absurd less (Nat.not_lt_zero i), fun ended =>
          ⟨rfl, (reading.ended ended).2⟩, ?_⟩, none, fun given => absurd given Bool.false_ne_true,
          fun _ => ⟨rfl, fun some => absurd bare some⟩⟩
      have same := reading.place
      rwa [empty, len] at same
    · rename_i stopped _ buf held
      have goes : s.f.eof = false := by
        cases at' : s.f.eof with
        | false => rfl
        | true => exact absurd (Or.inr (Or.inl at')) stopped
      obtain ⟨bytes, given, short, moved, inFile, nothing, same⟩ :=
        disk_read_bytes s.fd s.f.size reading.fits
      have looks := disk_read_looks s.fd s.f.size
      generalize disk.read s.fd s.f.size = p at given looks moved
      obtain ⟨fd, result⟩ := p
      dsimp only at given looks moved
      subst given
      have room := reading.inside.room (held ▸ Option.some_ne_none buf)
      have ahead := reading.ahead
      -- No byte read is the end of the file; any number of them is the new buffer.
      cases bytes with
      | nil =>
        intro inside
        have ended : fd.size ≤ fd.here.toNat := by
          have stops := nothing rfl
          rw [looks.size, moved, List.length_nil]
          omega
        refine ⟨⟨inside, reading.used, reading.reads, reading.fine, reading.byte.trans looks.byte.symm,
          reading.size.trans looks.size.symm, looks.size.symm ▸ reading.fits, Nat.zero_le _,
          fun some => absurd rfl some, fun _ _ i less => absurd less (Nat.not_lt_zero i),
          fun _ => ⟨rfl, ended⟩, Or.inl ⟨none, pushed, ?_⟩⟩, none, fun given => absurd given Bool.false_ne_true,
          fun _ => ⟨rfl, fun _ => ended⟩⟩
        dsimp only
        rw [place, moved, List.length_nil]
        omega
      | cons byte rest =>
        intro inside
        refine ⟨⟨inside, reading.used, reading.reads, reading.fine, reading.byte.trans looks.byte.symm,
          reading.size.trans looks.size.symm, looks.size.symm ▸ reading.fits, ?_, fun some => ?_, ?_, ?_,
          Or.inl ⟨none, pushed, ?_⟩⟩, none, fun _ => Nat.succ_pos _, fun given => absurd given.symm Bool.false_ne_true⟩
        · dsimp only
          omega
        · dsimp only
          rw [moved, looks.size]
          exact inFile some
        · intro new here i less
          dsimp only at here less ⊢
          rw [← Option.some.inj here]
          have at' : laid buf 0 (byte :: rest) i = (byte :: rest)[i] := by
            rw [← (@laid_inside buf 0) less, Nat.zero_add]
          rw [at', same i less, looks.byte, moved, Nat.add_sub_cancel]
        · intro ended
          exact absurd (goes.symm.trans ended) (by decide)
        · dsimp only
          rw [place, moved]
          omega

theorem next_reading (reading : Reading s r) (none : s.f.unget = -1) (more : s.f.pos < s.f.len) :
    Reading (next s).1 r.getc.1 ∧ (next s).2 = r.getc.2 := by
  obtain ⟨_, pushed, place⟩ := reading.place.here (by omega)
  have inFile := reading.inFile (by omega)
  have ahead := reading.ahead
  have size := reading.size
  obtain ⟨buf, held⟩ : ∃ buf, s.f.buf = some buf := by
    refine Option.ne_none_iff_exists'.mp fun bare => ?_
    have less := reading.inside.less
    have nothing := reading.inside.bare bare
    omega
  rw [getc_given place pushed (by omega)]
  refine ⟨⟨(next_fine reading.inside reading.reads more).inside, reading.used, reading.reads, reading.fine,
    reading.byte, reading.size, reading.fits, ahead, reading.inFile, reading.held, fun ended => ?_,
    Or.inl ⟨none, pushed, rfl⟩⟩, ?_⟩
  · have stopped := (reading.ended ended).1
    omega
  · dsimp only [next]
    rw [held, Option.getD_some, reading.held buf held s.f.pos more, reading.byte]

theorem direct_reading (reading : Reading s r) (none : s.f.unget = -1) (bare : s.f.buf = .none) :
    Reading (direct disk s).1 r.getc.1 ∧ (direct disk s).2 = r.getc.2 := by
  obtain ⟨_, pushed, place⟩ := reading.place.here (by omega)
  have less := reading.inside.less
  have nothing := reading.inside.bare bare
  have order := reading.inside.order
  have size := reading.size
  have inside := (direct_fine reading.inside reading.reads).1.inside
  revert inside
  obtain ⟨bytes, given, short, moved, inFile, stops, same⟩ := disk_read_bytes s.fd 1 reading.fits
  have looks := disk_read_looks s.fd 1
  unfold direct
  generalize disk.read s.fd 1 = p at given looks moved
  obtain ⟨fd, result⟩ := p
  dsimp only at given looks moved
  subst given
  -- A byte read past the buffer leaves the stream as it is, `eof` apart.
  have still : ∀ (f : FILE) (r' : Ref), f = { s.f with eof := f.eof } → Inside f → r'.byte = r.byte →
      r'.size = r.size → r'.pushed = .none → r'.place = fd.here.toNat → (f.eof = true → fd.size ≤ fd.here.toNat) →
      Reading ⟨f, fd⟩ r' := by
    intro f r' file inside byte size pushed place ended
    have len : f.len = 0 := by
      rw [file]
      dsimp only
      omega
    have pos : f.pos = 0 := by
      rw [file]
      dsimp only
      omega
    refine ⟨inside, ?_, ?_, ?_, byte.trans (reading.byte.trans looks.byte.symm),
      size.trans (reading.size.trans looks.size.symm), looks.size.symm ▸ reading.fits, ?_, fun some => absurd len some,
      fun buf held => ?_, fun eof => ⟨pos.trans len.symm, ended eof⟩, Or.inl ⟨?_, pushed, ?_⟩⟩
    · exact file ▸ reading.used
    · exact file ▸ reading.reads
    · exact file ▸ reading.fine
    · dsimp only
      omega
    · dsimp only at held
      rw [file] at held
      exact absurd (bare.symm.trans held) (Option.some_ne_none buf).symm
    · exact file ▸ none
    · dsimp only
      rw [len, pos, place]
      omega
  have stands : s.fd.here.toNat - s.f.len + s.f.pos = s.fd.here.toNat := by omega
  rw [stands] at place
  cases bytes with
  | nil =>
    intro inside
    have ended : s.fd.size ≤ s.fd.here.toNat := by
      have none := stops rfl
      omega
    rw [getc_ended place size pushed ended]
    refine ⟨still _ _ rfl inside rfl rfl pushed ?_ fun _ => ?_, rfl⟩
    · rw [place, moved, List.length_nil, Nat.add_zero]
    · rw [looks.size, moved]
      exact ended
  | cons byte rest =>
    intro inside
    have one : rest.length = 0 := by
      rw [List.length_cons] at short
      omega
    have before := inFile (Nat.succ_ne_zero _)
    rw [List.length_cons] at before moved
    have first := same 0 (Nat.succ_pos _)
    rw [List.getElem_cons_zero, Nat.add_zero] at first
    rw [getc_given place pushed (by omega)]
    refine ⟨still _ _ rfl inside rfl rfl pushed ?_ fun eof => ?_, ?_⟩
    · dsimp only
      omega
    · have stopped := (reading.ended eof).2
      omega
    · dsimp only
      rw [first, reading.byte]

theorem fgetc_reading (reading : Reading s r) :
    Reading (fgetc disk s).1 r.getc.1 ∧ (fgetc disk s).2 = r.getc.2 := by
  unfold fgetc
  rw [if_neg (not_or.mpr ⟨not_not.mpr reading.used, Bool.eq_false_iff.mp reading.reads⟩)]
  split
  · rename_i back
    rcases reading.place with ⟨none, _⟩ | ⟨c, unget, pushed, place⟩
    · omega
    · have given : r.getc = ({ r with place := r.place + 1, pushed := none }, (c.toNat : Int)) := by
        unfold Ref.getc
        rw [pushed]
      rw [given]
      refine ⟨⟨⟨reading.inside.order, reading.inside.less, reading.inside.bare, reading.inside.room,
        reading.inside.writing⟩, reading.used, reading.reads, reading.fine, reading.byte, reading.size,
        reading.fits, reading.ahead, reading.inFile, reading.held, reading.ended, Or.inl ⟨rfl, rfl, ?_⟩⟩, unget⟩
      dsimp only
      omega
  · rename_i back
    obtain ⟨none, pushed, place⟩ := reading.place.here (by omega)
    split
    · rename_i more
      exact next_reading reading none more
    · rename_i spent
      have empty : s.f.pos = s.f.len := Nat.le_antisymm reading.inside.order (not_lt.mp spent)
      obtain ⟨filled, none', more, stopped⟩ := fill_reading reading none empty
      dsimp only
      split
      · rename_i given
        exact next_reading filled none' (more given)
      · rename_i refused
        obtain ⟨even, ended⟩ := stopped (Bool.eq_false_iff.mpr refused)
        split
        · rename_i buffered
          obtain ⟨_, pushed, place⟩ := filled.place.here (by omega)
          have ahead := filled.ahead
          have stop := ended (Option.isSome_iff_ne_none.mp buffered)
          rw [getc_ended (s := (fill disk s).1) (by omega) filled.size pushed stop]
          exact ⟨filled, rfl⟩
        · rename_i bare
          exact direct_reading filled none' (Option.not_isSome_iff_eq_none.mp bare)

theorem ungetc_reading (reading : Reading s r) {c : Int} (byte : c = EOF ∨ 0 ≤ c ∧ c < 256) :
    Reading (ungetc c s).1 (r.ungetc c).1 ∧ (ungetc c s).2 = (r.ungetc c).2 := by
  have used := reading.used
  have same : (¬ s.f.used ∨ c = EOF ∨ 0 ≤ s.f.unget) ↔ (c = EOF ∨ r.pushed ≠ none) := by
    rcases reading.place with ⟨none, pushed, _⟩ | ⟨old, unget, pushed, _⟩
    · simp [used, none, pushed]
    · simp [used, unget, pushed]
  unfold ungetc Ref.ungetc
  by_cases refused : c = EOF ∨ r.pushed ≠ none
  · rw [if_pos refused, if_pos (same.mpr refused)]
    exact ⟨reading, rfl⟩
  · rw [if_neg refused, if_neg fun back => refused (same.mp back)]
    obtain ⟨some, pushed⟩ := not_or.mp refused
    obtain ⟨low, high⟩ := byte.resolve_left some
    have value : ((BitVec.ofInt 8 c).toNat : Int) = c := by
      rw [BitVec.toNat_ofInt, Int.toNat_of_nonneg (Int.emod_nonneg _ (by decide))]
      exact Int.emod_eq_of_lt low (by omega)
    have kept : (BitVec.ofInt 16 c).toInt = c := by
      rw [BitVec.toInt_ofInt]
      exact Int.bmod_eq_of_le (by omega) (by omega)
    refine ⟨⟨⟨reading.inside.order, reading.inside.less, reading.inside.bare, reading.inside.room,
      reading.inside.writing⟩, used, reading.reads, reading.fine, reading.byte, reading.size, reading.fits,
      reading.ahead, reading.inFile, reading.held, fun ended => absurd ended Bool.false_ne_true,
      Or.inr ⟨BitVec.ofInt 8 c, ?_, rfl, ?_⟩⟩, value.symm⟩
    · dsimp only
      rw [kept, value]
    · rcases reading.place with ⟨_, _, place⟩ | ⟨old, _, still, _⟩
      · dsimp only
        rw [place]
      · exact absurd still (not_not.mp pushed ▸ (Option.some_ne_none old).symm)

theorem inRange_word {target : Int} (inside : Ref.InRange target) :
    ((BitVec.ofInt 32 target).toNat : Int) = target ∧ (BitVec.ofInt 32 target).toInt = target :=
  Words.ofInt_exact inside.1 inside.2

theorem back_word (here : U32) (len pos : Nat) :
    BitVec.ofInt 32 here.toInt - (BitVec.ofNat 32 len - BitVec.ofNat 32 pos) =
      BitVec.ofInt 32 ((here.toNat : Int) - len + pos) := by
  apply BitVec.eq_of_toNat_eq
  rw [BitVec.ofInt_toInt]
  simp only [BitVec.toNat_sub, BitVec.toNat_ofNat, BitVec.toNat_ofInt]
  omega

theorem tell_here {d : Disk} (small : d.here.toNat < 2 ^ 31) :
    lseek disk d 0 seekCur = (d, d.here.toInt) ∧ ¬ d.here.toInt < 0 := by
  constructor
  · change (({ d with here := d.here + 0 } : Disk), (d.here + 0).toInt) = _
    have zero : d.here + 0 = d.here := BitVec.add_zero _
    rw [zero]
  · rw [BitVec.toInt_eq_toNat_cond, if_pos (by omega)]
    omega

theorem go_there (d : Disk) {target : Int} (inside : Ref.InRange target) :
    lseek disk d (BitVec.ofInt 32 target) seekSet = ({ d with here := BitVec.ofInt 32 target }, target) ∧
      ¬ target < 0 := by
  refine ⟨?_, not_lt.mpr inside.1⟩
  change (({ d with here := BitVec.ofInt 32 target } : Disk), (BitVec.ofInt 32 target).toInt) = _
  rw [(inRange_word inside).2]

theorem fseek_goes {place : Int} {offset : U32} {whence : Nat} (used : s.f.used = true)
    (flushed : (if s.f.writing = true then fflush disk s else (s, 0)) = (t, 0))
    (here : place = t.fd.here.toNat - t.f.len + t.f.pos)
    (inside : ∀ target, Ref.target place offset whence = some target →
      Ref.InRange target ∧ (whence = seekCur → t.fd.here.toNat < 2 ^ 31)) :
    fseek disk s offset whence = match Ref.target place offset whence with
      | some target => (⟨{ t.f with len := 0, pos := 0, eof := false },
          { t.fd with here := BitVec.ofInt 32 target }⟩, 0)
      | none => (t, -1) := by
  unfold fseek
  rw [if_neg (not_not.mpr used)]
  dsimp only
  rw [flushed]
  dsimp only
  rw [if_neg (by decide)]
  by_cases set : whence = seekSet
  · have found : Ref.target place offset whence = some offset.toInt := if_pos set
    obtain ⟨range, _⟩ := inside _ found
    obtain ⟨goes, low⟩ := go_there t.fd range
    rw [BitVec.ofInt_toInt] at goes
    subst set
    rw [found, if_neg (by decide)]
    dsimp only
    rw [goes, if_neg low, BitVec.ofInt_toInt]
  · by_cases cur : whence = seekCur
    · have found : Ref.target place offset whence = some (place + offset.toInt) := by
        unfold Ref.target
        rw [if_neg set, if_pos cur]
      obtain ⟨range, small⟩ := inside _ found
      obtain ⟨tells, above⟩ := tell_here (small cur)
      obtain ⟨goes, low⟩ := go_there t.fd range
      have word : offset + (BitVec.ofInt 32 t.fd.here.toInt - (BitVec.ofNat 32 t.f.len - BitVec.ofNat 32 t.f.pos)) =
          BitVec.ofInt 32 (place + offset.toInt) := by
        rw [back_word, ← here, BitVec.ofInt_add, BitVec.ofInt_toInt, BitVec.add_comm]
      rw [found, if_pos cur, tells]
      dsimp only
      rw [if_neg above]
      dsimp only
      rw [word, goes]
      dsimp only
      rw [if_neg low]
    · have found : Ref.target place offset whence = none := by
        unfold Ref.target
        rw [if_neg set, if_neg cur]
      have refused : lseek disk t.fd offset whence = (t.fd, -1) := by
        unfold lseek
        split
        · rfl
        · change Disk.seek t.fd offset whence = _
          unfold Disk.seek
          rw [if_neg set, if_neg cur]
      rw [found, if_neg cur]
      dsimp only
      rw [refused]
      dsimp only
      rw [if_pos (by decide)]

theorem fseek_reading (reading : Reading s r) {offset : U32} {whence : Nat}
    (fits : Reads s (.fseek offset whence)) :
    Reading (fseek disk s offset whence).1 (r.seek offset whence).1 ∧
      (fseek disk s offset whence).2 = (r.seek offset whence).2 := by
  have ahead := reading.ahead
  have flushed : (if s.f.writing = true then fflush disk s else (s, 0)) = (s, 0) :=
    if_neg (Bool.eq_false_iff.mp reading.reads)
  rw [fseek_goes reading.used flushed rfl fun target found => (fits target found).2]
  unfold Ref.seek
  cases found : Ref.target (s.fd.here.toNat - s.f.len + s.f.pos) offset whence with
  | none =>
    have none' : Ref.target r.place offset whence = none := by
      unfold Ref.target at found ⊢
      split at found
      · cases found
      · split at found
        · cases found
        · rename_i set cur
          rw [if_neg set, if_neg cur]
    rw [none']
    exact ⟨reading, rfl⟩
  | some target =>
    obtain ⟨none, range, _⟩ := fits target found
    obtain ⟨unget, pushed, place⟩ := reading.place.here none
    have found' : Ref.target r.place offset whence = some target := by
      rw [← found, place]
      congr 1
      omega
    rw [found']
    dsimp only
    rw [if_pos range]
    refine ⟨⟨reading.inside.emptied, reading.used, reading.reads, reading.fine, reading.byte, reading.size,
      reading.fits, Nat.zero_le _, fun some => absurd rfl some, fun _ _ i less => absurd less (Nat.not_lt_zero i),
      fun ended => absurd ended Bool.false_ne_true, Or.inl ⟨unget, rfl, ?_⟩⟩, rfl⟩
    have word := (inRange_word range).1
    dsimp only
    omega

theorem ftell_reading (reading : Reading s r) (fits : Reads s .ftell) :
    (ftell disk s).1 = s ∧ (ftell disk s).2 = r.place := by
  obtain ⟨none, small⟩ := fits
  obtain ⟨_, _, place⟩ := reading.place.here none
  obtain ⟨tells, above⟩ := tell_here small
  have ahead := reading.ahead
  have order := reading.inside.order
  unfold ftell
  rw [if_neg (not_not.mpr reading.used), tells]
  dsimp only
  rw [if_neg above, if_neg (Bool.eq_false_iff.mp reading.reads), back_word]
  refine ⟨rfl, ?_⟩
  have range : Ref.InRange ((s.fd.here.toNat : Int) - s.f.len + s.f.pos) := ⟨by omega, by omega⟩
  dsimp only
  rw [(inRange_word range).2, place]
  omega

theorem op_reading (reading : Reading s r) (op : Op) (fits : Reads s op) :
    Reading (op.run s).1 (r.run op).1 ∧ (op.run s).2 = (r.run op).2 := by
  have each := fun s r (reading : Reading s r) => fgetc_reading reading
  cases op with
  | fgetc =>
    obtain ⟨next, answer⟩ := fgetc_reading reading
    exact ⟨next, congrArg Answer.number answer⟩
  | fread array size nmemb =>
    obtain ⟨next, answer⟩ := gather_simulates each (fun _ => false) (size * nmemb).toNat array 0 reading
    refine ⟨next, ?_⟩
    change Answer.block (readWith (fgetc disk) s array size nmemb).2.1 (readWith (fgetc disk) s array size nmemb).2.2 =
      Answer.block (readWith Ref.getc r array size nmemb).2.1 (readWith Ref.getc r array size nmemb).2.2
    unfold readWith
    dsimp only
    rw [answer]
  | fgets array n =>
    obtain ⟨next, answer⟩ := gather_simulates each (fun c => c = 10) (n - 1).toNat array 0 reading
    change Reading (lineWith (fgetc disk) s array n).1 (lineWith Ref.getc r array n).1 ∧
      Answer.line (lineWith (fgetc disk) s array n).2.1 (lineWith (fgetc disk) s array n).2.2 =
        Answer.line (lineWith Ref.getc r array n).2.1 (lineWith Ref.getc r array n).2.2
    unfold lineWith
    dsimp only
    rw [answer]
    split
    · exact ⟨next, rfl⟩
    · exact ⟨next, rfl⟩
  | ungetc c =>
    obtain ⟨next, answer⟩ := ungetc_reading reading fits
    exact ⟨next, congrArg Answer.number answer⟩
  | fseek offset whence =>
    obtain ⟨next, answer⟩ := fseek_reading reading fits
    exact ⟨next, congrArg Answer.number answer⟩
  | ftell =>
    obtain ⟨still, answer⟩ := ftell_reading reading fits
    refine ⟨?_, congrArg Answer.number answer⟩
    change Reading (ftell disk s).1 r
    rw [still]
    exact reading
  | fputc c => exact fits.elim
  | fwrite array size nmemb => exact fits.elim
  | fflush => exact fits.elim
  | fclose => exact fits.elim
  | setvbuf buf size => exact fits.elim

end Ubiqos.Stdio
