import Ubiqos.Loader.Area
import Ubiqos.Lib.Patches
import Mathlib.Tactic.IntervalCases

/-!
The copy of a module and its relocations, from `kernel/scheduler.c`. The image and
the module it was copied from are two memories, each counted from its own start. A
relocation patches some bits of a word at any byte; which bits those are is all
that the kinds differ in, and the rest of the word is read back and kept.
-/

namespace Ubiqos.Loader

open Function Patches

abbrev Image := Nat → Byte

def relocGet32 (p : Image) (i : Nat) : Word :=
  (p i).setWidth 32 ||| (p (i + 1)).setWidth 32 <<< 8 |||
    (p (i + 2)).setWidth 32 <<< 16 ||| (p (i + 3)).setWidth 32 <<< 24

def relocPut32 (p : Image) (i : Nat) (v : Word) : Image :=
  update (update (update (update p i (v.setWidth 8)) (i + 1) ((v >>> 8).setWidth 8))
    (i + 2) ((v >>> 16).setWidth 8)) (i + 3) ((v >>> 24).setWidth 8)

def relocAbs32 : Nat := 0
def relocHi20 : Nat := 1
def relocLo12I : Nat := 2
def relocLo12S : Nat := 3

structure Reloc where
  kind : Nat
  offset : Nat
  target : Word
  deriving DecidableEq

/-- The `i`-th entry. Its place is counted in a word. -/
def Header.reloc (h : Header) (src : Image) (i : Nat) : Reloc :=
  let table := h.relocOffset.toNat + i * 8 % 2 ^ 32
  let w0 := relocGet32 src table
  ⟨(w0 >>> 28).toNat, (w0 &&& 0x0fffffff).toNat, relocGet32 src (table + 4)⟩

def Header.relocs (h : Header) (src : Image) : List Reloc :=
  (List.range h.relocCount.toNat).map (h.reloc src)

/-- The word a relocation leaves where `word` was; other kinds are passed over. -/
def relocated (kind : Nat) (word v : Word) : Word :=
  if kind = relocAbs32 then v
  else if kind = relocHi20 then (word &&& 0x00000fff) ||| ((v + 0x800) &&& 0xfffff000)
  else if kind = relocLo12I then (word &&& 0x000fffff) ||| ((v &&& 0xfff) <<< 20)
  else if kind = relocLo12S then
    let lo := v &&& 0xfff
    (word &&& ~~~(0xfe000f80 : Word)) ||| ((lo >>> 5) <<< 25) ||| ((lo &&& 0x1f) <<< 7)
  else word

def relocate (base : Word) (image : Image) (r : Reloc) : Image :=
  relocPut32 image r.offset (relocated r.kind (relocGet32 image r.offset) (base + r.target))

/-- `relocate_image`. -/
def relocateImage (base : Word) (image : Image) (h : Header) (src : Image) : Image :=
  (h.relocs src).foldl (relocate base) image

/-- `ubiqos_module_image_size`. -/
def Header.imageSize (h : Header) : Nat := h.nameOffset.toNat

/-- The bytes of `ubiqos_module_relocated_copy` before it relocates them: what the file
carries, and zeroes for what it does not. -/
def Header.imageCopy (h : Header) (src old : Image) : Image := fun i =>
  if i < h.imageSize then src i
  else if i < (h.imageSize + h.bssSize.toNat) % 2 ^ 32 then 0 else old i

/-- `ubiqos_module_relocated_copy`, in memory that was found at `base`. -/
def moduleRelocatedCopy (base : Word) (h : Header) (src old : Image) : Image :=
  relocateImage base (h.imageCopy src old) h src

def bitAt (p : Image) (n : Nat) : Bool := (p (n / 8)).getLsbD (n % 8)

theorem relocGet32_bit (p : Image) (i : Nat) {j : Nat} (small : j < 32) :
    (relocGet32 p i).getLsbD j = bitAt p (8 * i + j) := by
  have byte : (8 * i + j) / 8 = i + j / 8 := by omega
  have place : (8 * i + j) % 8 = j % 8 := by omega
  rw [bitAt, byte, place]
  unfold relocGet32
  interval_cases j <;> simp

theorem relocPut32_bit (p : Image) (i : Nat) (v : Word) (n : Nat) :
    bitAt (relocPut32 p i v) n =
      if 8 * i ≤ n ∧ n < 8 * i + 32 then v.getLsbD (n - 8 * i) else bitAt p n := by
  split
  · rename_i inside
    obtain ⟨j, rfl⟩ : ∃ j, n = 8 * i + j := ⟨n - 8 * i, by omega⟩
    have small : j < 32 := by omega
    have byte : (8 * i + j) / 8 = i + j / 8 := by omega
    have place : (8 * i + j) % 8 = j % 8 := by omega
    rw [bitAt, byte, place, Nat.add_sub_cancel_left]
    unfold relocPut32
    interval_cases j <;> simp
  · rename_i outside
    have first : n / 8 ≠ i := by omega
    have second : n / 8 ≠ i + 1 := by omega
    have third : n / 8 ≠ i + 2 := by omega
    have fourth : n / 8 ≠ i + 3 := by omega
    rw [bitAt, bitAt, relocPut32, update_of_ne fourth, update_of_ne third, update_of_ne second,
      update_of_ne first]

def fieldMask (kind : Nat) : Word :=
  if kind = relocAbs32 then 0xffffffff
  else if kind = relocHi20 then 0xfffff000
  else if kind = relocLo12I then 0xfff00000
  else if kind = relocLo12S then 0xfe000f80
  else 0

def fieldBits (kind : Nat) (v : Word) : Word := relocated kind 0 v

theorem relocated_bit (kind : Nat) (word v : Word) {j : Nat} (small : j < 32) :
    (relocated kind word v).getLsbD j =
      if (fieldMask kind).getLsbD j then (fieldBits kind v).getLsbD j else word.getLsbD j := by
  unfold fieldBits relocated fieldMask
  split
  · interval_cases j <;> simp
  · split
    · interval_cases j <;> simp
    · split
      · interval_cases j <;> simp
      · split
        · interval_cases j <;> simp
        · simp

def Reloc.Field (r : Reloc) (n : Nat) : Prop :=
  8 * r.offset ≤ n ∧ (fieldMask r.kind).getLsbD (n - 8 * r.offset) = true

instance (r : Reloc) (n : Nat) : Decidable (r.Field n) := inferInstanceAs (Decidable (_ ∧ _))

def Reloc.patch (base : Word) (r : Reloc) : Patch Nat Bool where
  covers n := r.Field n
  value n := (fieldBits r.kind (base + r.target)).getLsbD (n - 8 * r.offset)

def Separate (relocs : List Reloc) : Prop := relocs.Pairwise fun r s => ∀ n, r.Field n → ¬ s.Field n

theorem relocate_bits (base : Word) (image : Image) (r : Reloc) :
    bitAt (relocate base image r) = lay (bitAt image) (r.patch base) := by
  funext n
  rw [relocate, relocPut32_bit]
  split
  · rename_i inside
    obtain ⟨j, rfl⟩ : ∃ j, n = 8 * r.offset + j := ⟨n - 8 * r.offset, by omega⟩
    have small : j < 32 := by omega
    rw [Nat.add_sub_cancel_left, relocated_bit _ _ _ small, relocGet32_bit _ _ small]
    simp [lay, Reloc.patch, Reloc.Field]
  · rename_i outside
    have away : ¬ r.Field n := by
      rintro ⟨low, set⟩
      have small := BitVec.lt_of_getLsbD set
      omega
    simp [lay, Reloc.patch, away]

theorem relocateImage_bits (base : Word) (image : Image) (h : Header) (src : Image) :
    bitAt (relocateImage base image h src) =
      layAll (bitAt image) ((h.relocs src).map (Reloc.patch base)) := by
  unfold relocateImage
  induction h.relocs src generalizing image with
  | nil => rfl
  | cons r rest ih =>
    rw [List.foldl_cons, ih, relocate_bits]
    rfl

theorem bitAt_injective {p q : Image} (same : bitAt p = bitAt q) : p = q := by
  funext i
  apply BitVec.eq_of_getLsbD_eq
  intro j small
  have here := congrFun same (8 * i + j)
  have byte : (8 * i + j) / 8 = i := by omega
  have place : (8 * i + j) % 8 = j := by omega
  rwa [bitAt, bitAt, byte, place] at here

theorem covered_iff (base : Word) (relocs : List Reloc) (n : Nat) :
    Covered (relocs.map (Reloc.patch base)) n ↔ ∃ r ∈ relocs, r.Field n := by
  simp [Covered, Reloc.patch]

theorem separate_apart (base : Word) {relocs : List Reloc} (separate : Separate relocs) :
    (relocs.map (Reloc.patch base)).Pairwise Apart := by
  rw [List.pairwise_map]
  apply separate.imp
  intro r s away n covers
  simpa [Reloc.patch] using away n (by simpa [Reloc.patch] using covers)

/-- The register a `lui` leaves. -/
def luiValue (instruction : Word) : Word := instruction &&& 0xfffff000

def immediateI (instruction : Word) : BitVec 12 := (instruction >>> 20).setWidth 12

def immediateS (instruction : Word) : BitVec 12 :=
  ((instruction >>> 25) <<< 5 ||| (instruction >>> 7 &&& 0x1f)).setWidth 12

theorem luiValue_toNat (w : Word) : (luiValue w).toNat = w.toNat / 4096 * 4096 := by
  have masked : luiValue w = (w >>> 12) <<< 12 := by
    apply BitVec.eq_of_getLsbD_eq
    intro j small
    unfold luiValue
    interval_cases j <;> simp
  have bound := w.isLt
  rw [masked, BitVec.toNat_shiftLeft, BitVec.toNat_ushiftRight, Nat.shiftRight_eq_div_pow,
    Nat.shiftLeft_eq]
  omega

theorem upper_lower (v : Word) : luiValue (v + 0x800) + (v.setWidth 12).signExtend 32 = v := by
  have lower : ((v.setWidth 12).signExtend 32).toNat =
      if v.toNat % 4096 < 2048 then v.toNat % 4096 else 2 ^ 32 - 4096 + v.toNat % 4096 := by
    rw [BitVec.toNat_signExtend, BitVec.msb_eq_decide]
    simp only [BitVec.toNat_setWidth]
    split <;> split <;> simp_all <;> omega
  have rounded : (v + 0x800).toNat = (v.toNat + 2048) % 2 ^ 32 := by simp [BitVec.toNat_add]
  apply BitVec.eq_of_toNat_eq
  rw [BitVec.toNat_add, luiValue_toNat, rounded, lower]
  split <;> omega

theorem lower_field {kind : Nat} {word v : Word}
    (set : ∀ j, (fieldMask kind).getLsbD j = true →
      word.getLsbD j = (fieldBits kind v).getLsbD j) :
    (kind = relocHi20 → luiValue word = luiValue (v + 0x800)) ∧
      (kind = relocLo12I → immediateI word = v.setWidth 12) ∧
      (kind = relocLo12S → immediateS word = v.setWidth 12) := by
  refine ⟨?_, ?_, ?_⟩
  · rintro rfl
    apply BitVec.eq_of_getLsbD_eq
    intro j small
    have here := set j
    revert here
    unfold luiValue fieldBits relocated fieldMask
    interval_cases j <;> simp [relocAbs32, relocHi20]
  · rintro rfl
    apply BitVec.eq_of_getLsbD_eq
    intro j small
    have here := set (20 + j)
    revert here
    unfold immediateI fieldBits relocated fieldMask
    interval_cases j <;> simp [relocAbs32, relocHi20, relocLo12I]
  · rintro rfl
    apply BitVec.eq_of_getLsbD_eq
    intro j small
    have here := set (if j < 5 then 7 + j else 20 + j)
    revert here
    unfold immediateS fieldBits relocated fieldMask
    interval_cases j <;> simp [relocAbs32, relocHi20, relocLo12I, relocLo12S]

section Relocated
variable {base : Word} {image : Image} {h : Header} {src : Image}

theorem relocateImage_outside {n : Nat} (outside : ∀ r ∈ h.relocs src, ¬ r.Field n) :
    bitAt (relocateImage base image h src) n = bitAt image n := by
  rw [relocateImage_bits, layAll_outside]
  rw [covered_iff]
  rintro ⟨r, member, field⟩
  exact outside r member field

theorem relocateImage_field (separate : Separate (h.relocs src)) {r : Reloc}
    (member : r ∈ h.relocs src) {j : Nat} (set : (fieldMask r.kind).getLsbD j = true) :
    (relocGet32 (relocateImage base image h src) r.offset).getLsbD j =
      (fieldBits r.kind (base + r.target)).getLsbD j := by
  have small := BitVec.lt_of_getLsbD set
  have covers : (r.patch base).covers (8 * r.offset + j) = true := by
    simp [Reloc.patch, Reloc.Field, set]
  rw [relocGet32_bit _ _ small, relocateImage_bits,
    layAll_covered (separate_apart base separate) (List.mem_map_of_mem member) covers]
  simp [Reloc.patch]

theorem relocateImage_congr {other : Image}
    (same : ∀ n, (∀ r ∈ h.relocs src, ¬ r.Field n) → bitAt other n = bitAt image n) :
    relocateImage base other h src = relocateImage base image h src := by
  apply bitAt_injective
  rw [relocateImage_bits, relocateImage_bits]
  apply layAll_congr
  intro n outside
  apply same
  intro r member field
  exact outside ((covered_iff base _ n).mpr ⟨r, member, field⟩)

theorem relocateImage_again (base other : Word) (image : Image) (h : Header) (src : Image) :
    relocateImage other (relocateImage base image h src) h src = relocateImage other image h src :=
  relocateImage_congr fun _ outside => relocateImage_outside outside

/-- A copy that is moved any number of times is the one made for its last place. -/
theorem moduleRelocatedCopy_moves (base : Word) (places : List Word) (h : Header) (src old : Image) :
    places.foldl (fun image other => relocateImage other image h src)
        (moduleRelocatedCopy base h src old) =
      moduleRelocatedCopy (places.getLast?.getD base) h src old := by
  induction places using List.reverseRecOn with
  | nil => rfl
  | append_singleton front last ih =>
    have place : (front ++ [last]).getLast?.getD base = last := by simp
    rw [List.foldl_append, ih, place]
    exact relocateImage_again _ last _ h src

theorem separate_words {relocs : List Reloc}
    (words : relocs.Pairwise fun r s => r.offset + 4 ≤ s.offset ∨ s.offset + 4 ≤ r.offset) :
    Separate relocs := by
  apply words.imp
  rintro r s away n ⟨low, set⟩ ⟨low', set'⟩
  have small := BitVec.lt_of_getLsbD set
  have small' := BitVec.lt_of_getLsbD set'
  omega

/-- Relocation reconstructs addresses, and changes nothing but the fields of its table,
whatever these held. -/
theorem relocateImage_reconstructs (base : Word) (image : Image) (h : Header) (src : Image)
    (separate : Separate (h.relocs src)) :
    let done := relocateImage base image h src
    (∀ r ∈ h.relocs src, r.kind = relocAbs32 → relocGet32 done r.offset = base + r.target) ∧
    (∀ r ∈ h.relocs src, ∀ s ∈ h.relocs src, r.kind = relocHi20 → s.target = r.target →
      (s.kind = relocLo12I →
        luiValue (relocGet32 done r.offset) +
          (immediateI (relocGet32 done s.offset)).signExtend 32 = base + r.target) ∧
      (s.kind = relocLo12S →
        luiValue (relocGet32 done r.offset) +
          (immediateS (relocGet32 done s.offset)).signExtend 32 = base + r.target)) ∧
    (∀ n, (∀ r ∈ h.relocs src, ¬ r.Field n) → bitAt done n = bitAt image n) ∧
    (∀ other, (∀ n, (∀ r ∈ h.relocs src, ¬ r.Field n) → bitAt other n = bitAt image n) →
      relocateImage base other h src = done) ∧
    ∀ elsewhere, relocateImage elsewhere done h src = relocateImage elsewhere image h src := by
  intro done
  have field : ∀ r ∈ h.relocs src, ∀ j, (fieldMask r.kind).getLsbD j = true →
      (relocGet32 done r.offset).getLsbD j = (fieldBits r.kind (base + r.target)).getLsbD j :=
    fun r member j set => relocateImage_field separate member set
  refine ⟨?_, ?_, fun n => relocateImage_outside, fun other => relocateImage_congr,
    fun elsewhere => relocateImage_again base elsewhere image h src⟩
  · intro r member abs
    apply BitVec.eq_of_getLsbD_eq
    intro j small
    have whole : (fieldMask r.kind).getLsbD j = true := by
      rw [abs]
      unfold fieldMask
      interval_cases j <;> rfl
    rw [field r member j whole, abs]
    rfl
  · intro r member s member' upper target
    have high := (lower_field (field r member)).1 upper
    obtain ⟨-, lowI, lowS⟩ := lower_field (field s member')
    rw [target] at lowI lowS
    constructor
    · intro kind
      rw [high, lowI kind, upper_lower]
    · intro kind
      rw [high, lowS kind, upper_lower]

/-- A `lui` and a store at an odd word, for a target with its eleventh bit set. -/
theorem relocateImage_reconstructs_store :
    let src : Image := fun i =>
      ([0x00, 0, 0, 0x10, 0xf0, 0x0f, 0, 0, 0x06, 0, 0, 0x30, 0xf0, 0x0f, 0, 0] : List Byte).getD i 0
    let h : Header := ⟨0x0509000B, 16, 0, 1, 10, 0, 4096, 0, 0, 0, 0, 0, 0, 2, 0, 0⟩
    let done := relocateImage 0x2000000c (fun _ => 0xff) h src
    luiValue (relocGet32 done 0) + (immediateS (relocGet32 done 6)).signExtend 32 = 0x20000ffc := by
  intro src h done
  have separate : Separate (h.relocs src) := separate_words (by decide +kernel)
  exact ((relocateImage_reconstructs 0x2000000c (fun _ => 0xff) h src separate).2.1
    ⟨1, 0, 0xff0⟩ (by decide +kernel) ⟨3, 6, 0xff0⟩ (by decide +kernel) rfl rfl).2 rfl

end Relocated

end Ubiqos.Loader
