import Ubiqos.Io.Descriptors
import Ubiqos.Lib.Words

/-!
Seeks: `SYS_SEEK` of `kernel/syscalls.c`, which computes from the start and from the
position in the trap and sends a seek from the end to the server. All three add as
thirty-two bits do and store what comes out, whether it is a position or not.
-/

namespace Ubiqos.Io

open Function Machine

section Seeking
variable {n k f : Nat} {s : Files n k f} {i : Fin f} {fd owner : Int}

def seekSet : Nat := 0
def seekCur : Nat := 1
def seekEnd : Nat := 2

/-- `SYS_SEEK`. `size` is what `stat` answers the server. -/
def sysSeek (s : Files n k f) (owner fd : Int) (offset : U32) (whence : Nat) (size : Option U32) :
    Files n k f × Int :=
  if whence = seekEnd then fsSeek s owner fd offset size else fileSeek s owner fd offset whence

def posOf (s : Files n k f) (i : Fin f) : U32 := (s.table.files i).pos

def InRange (target : Int) : Prop := 0 ≤ target ∧ target < 2 ^ 31

instance (target : Int) : Decidable (InRange target) := inferInstanceAs (Decidable (_ ∧ _))

def ExactOrRefused (s : Files n k f) (i : Fin f) (target : Int) (after : Files n k f × Int) : Prop :=
  (InRange target → ((posOf after.1 i).toNat : Int) = target ∧ after.2 = target) ∧
    (¬ InRange target → after.2 < 0 ∧ posOf after.1 i = posOf s i)

/-- A target that is a position, or one that comes out as where the file stands, past
what an answer can say. -/
def Meets (pos : U32) (target : Int) : Prop :=
  InRange target ∨ BitVec.ofInt 32 target = pos ∧ 2 ^ 31 ≤ pos.toNat

@[simp] theorem posOf_setPos (s : Files n k f) (i : Fin f) (pos : U32) :
    posOf (setPos s i pos) i = pos := by
  simp [posOf, setPos, setFile]

theorem toInt_neg (pos : U32) : pos.toInt < 0 ↔ 2 ^ 31 ≤ pos.toNat := by
  have := pos.isLt
  rw [BitVec.toInt_eq_toNat_cond]
  split <;> omega

theorem stored_meets (s : Files n k f) (i : Fin f) (target : Int) :
    ExactOrRefused s i target (setPos s i (BitVec.ofInt 32 target), (BitVec.ofInt 32 target).toInt) ↔
      Meets (posOf s i) target := by
  simp only [ExactOrRefused, Meets, posOf_setPos]
  by_cases inside : InRange target
  · obtain ⟨exact, answer⟩ := Words.ofInt_exact inside.1 inside.2
    simp only [inside, exact, answer, not_true, false_implies, true_implies, and_self, true_or]
  · simp only [inside, false_implies, not_false_eq_true, true_implies, true_and, false_or, toInt_neg]
    constructor
    · rintro ⟨high, same⟩
      exact ⟨same, same ▸ high⟩
    · rintro ⟨same, high⟩
      exact ⟨same ▸ high, same⟩

theorem ofInt_toNat_add (base offset : U32) :
    BitVec.ofInt 32 (base.toNat + offset.toInt) = base + offset := by
  rw [BitVec.ofInt_add, BitVec.ofInt_toInt, BitVec.ofInt_natCast, BitVec.ofNat_toNat, BitVec.setWidth_eq]

/-- A seek through a descriptor that is open does what it says exactly at a target that
is a position, or at the one the file has already when an answer reads as negative. -/
theorem sysSeek_exact (opened : fileAt s.table fd owner = some i) (offset : U32) :
    (∀ size, ExactOrRefused s i offset.toInt (sysSeek s owner fd offset seekSet size) ↔
      Meets (posOf s i) offset.toInt) ∧
    (∀ size, ExactOrRefused s i ((posOf s i).toNat + offset.toInt)
        (sysSeek s owner fd offset seekCur size) ↔
      Meets (posOf s i) ((posOf s i).toNat + offset.toInt)) ∧
    (∀ size : U32, (target s fd owner).isSome = true →
      (ExactOrRefused s i (size.toNat + offset.toInt) (sysSeek s owner fd offset seekEnd (some size)) ↔
        Meets (posOf s i) (size.toNat + offset.toInt))) := by
  refine ⟨fun size => ?_, fun size => ?_, fun size mounted => ?_⟩
  · have stored := stored_meets s i offset.toInt
    rw [BitVec.ofInt_toInt] at stored
    have seek : sysSeek s owner fd offset seekSet size = (setPos s i offset, offset.toInt) := by
      simp [sysSeek, fileSeek, opened, seekSet, seekEnd]
    rw [seek]
    exact stored
  · have stored := stored_meets s i ((posOf s i).toNat + offset.toInt)
    rw [ofInt_toNat_add] at stored
    have seek : sysSeek s owner fd offset seekCur size =
        (setPos s i (posOf s i + offset), (posOf s i + offset).toInt) := by
      simp [sysSeek, fileSeek, opened, seekCur, seekEnd, posOf]
    rw [seek]
    exact stored
  · have stored := stored_meets s i (size.toNat + offset.toInt)
    rw [ofInt_toNat_add] at stored
    obtain ⟨found, volume⟩ := Option.isSome_iff_exists.mp mounted
    have seek : sysSeek s owner fd offset seekEnd (some size) =
        (setPos s i (size + offset), (size + offset).toInt) := by
      simp [sysSeek, fsSeek, opened, volume]
    rw [seek]
    exact stored

def oneFile : Files 2 1 1 :=
  [Request.mount (text "sd"), .open 1 (text "/sd/a") 0x42 none].foldl serve (fileStart 2 1 1)

theorem sysSeek_exact_oneFile :
    fileAt oneFile.table 0 1 = some 0 ∧
      ExactOrRefused oneFile 0 7 (sysSeek oneFile 1 0 2 seekEnd (some 5)) :=
  ⟨by decide +kernel, ((sysSeek_exact (by decide +kernel) 2).2.2 5 (by decide +kernel)).mpr
    (.inl (by decide))⟩

/-- A seek to minus one answers it, and the file stands at the last of all positions. -/
theorem seek_below_start :
    ¬ ExactOrRefused oneFile 0 (-1) (sysSeek oneFile 1 0 (-1) seekSet none) ∧
      (sysSeek oneFile 1 0 (-1) seekSet none).2 = -1 ∧
      posOf (sysSeek oneFile 1 0 (-1) seekSet none).1 0 = 0xffffffff := by
  have moved : posOf (sysSeek oneFile 1 0 (-1) seekSet none).1 0 = 0xffffffff := by decide +kernel
  refine ⟨?_, by decide +kernel, moved⟩
  rintro ⟨_, refused⟩
  have stays := (refused (by decide)).2
  rw [moved] at stays
  exact absurd stays (by decide +kernel)

end Seeking

end Ubiqos.Io
