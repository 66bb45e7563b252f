import Ubiqos.Loader.Arguments

/-!
The memory a module's process starts with: `create_process` in
`kernel/scheduler.c` packs the arguments, their vector, the thread-local block
and the first trap frame into one area of `mem_size` bytes. The frame is placed
from the top and the rest from the bottom, and nothing compares the two.
-/

namespace Ubiqos.Loader

open Function

abbrev Word := BitVec 32

/-- `ubiqos_module_header_t`. -/
structure Header where
  syncCode : Word
  moduleSize : Word
  nameOffset : Word
  typeLang : BitVec 16
  attrRev : BitVec 16
  execOffset : Word
  memSize : Word
  tlsOffset : Word
  tlsInit : Word
  tlsTotal : Word
  revision : BitVec 16
  reserved : BitVec 16
  relocOffset : Word
  relocCount : Word
  bssSize : Word
  headerCrc : Word

inductive Machine where
  | rv32 | arm32
  deriving DecidableEq

/-- `UBIQOS_ARCH_HERE`. -/
def Machine.arch : Machine → BitVec 16
  | .rv32 => 1
  | .arm32 => 2

/-- `UBIQOS_TLS_TCB_BYTES`. -/
def Machine.tcbBytes : Machine → Nat
  | .rv32 => 0
  | .arm32 => 8

def Header.words (h : Header) : List Word :=
  [h.syncCode, h.moduleSize, h.nameOffset, h.attrRev ++ h.typeLang, h.execOffset, h.memSize,
    h.tlsOffset, h.tlsInit, h.tlsTotal, h.reserved ++ h.revision, h.relocOffset, h.relocCount,
    h.bssSize]

/-- `verify_ubiqos_header`. -/
def verifyHeader (machine : Machine) (h : Header) : Bool :=
  if h.syncCode ≠ 0x0509000B then false
  else if h.attrRev &&& 0xff ≠ 10 then false
  else if h.typeLang >>> 8 ≠ 3 ∧ (h.typeLang >>> 4) &&& 0x0f ≠ machine.arch then false
  else h.headerCrc = ~~~h.words.sum

/-- What `ubiqos_frame_start` is given, and the kernel's own global pointer. -/
structure Start where
  entry : Word
  ret : Word
  argc : Word
  argv : Word
  tls : Word
  gp : Word

/-- `ubiqos_frame_t` as it is left, word by word. -/
def Machine.frame : Machine → Start → List Word
  | .rv32, s =>
    [s.ret, s.gp, s.tls, 0, 0, 0, 0, 0, s.argc, s.argv, 0, 0, 0, 0, 0, 0] ++
      List.replicate 14 0 ++ [s.entry, 0, 0, 0, 0, 0]
  | .arm32, s =>
    [0, 0, 0, 0, 0, 0, s.tls, 0, 0, 0xFFFFFFFD, s.argc, s.argv, 0, 0, 0, s.ret,
      s.entry &&& ~~~1, 0x01000000]

/-- `sizeof(ubiqos_frame_t)`. -/
def Machine.frameBytes : Machine → Nat
  | .rv32 => 144
  | .arm32 => 72

theorem frame_length (machine : Machine) (start : Start) :
    4 * (machine.frame start).length = machine.frameBytes := by
  cases machine <;> rfl

structure Part where
  base : Nat
  length : Nat
  byte : Nat → Byte

def wordBytes (words : List Word) (i : Nat) : Byte :=
  ((words.getD (i / 4) 0) >>> (8 * (i % 4))).setWidth 8

def ofWords (base : Nat) (words : List Word) : Part := ⟨base, 4 * words.length, wordBytes words⟩

def Part.store (memory : Nat → Byte) (part : Part) (a : Nat) : Byte :=
  if part.base ≤ a ∧ a < part.base + part.length then part.byte (a - part.base) else memory a

def Part.Apart (one other : Part) : Prop :=
  one.base + one.length ≤ other.base ∨ other.base + other.length ≤ one.base

/-- A module, where its image lies, and the area the pool has found for it. The
pool's blocks begin at a word and lie clear of the end of the address space. -/
structure Startup where
  machine : Machine
  header : Header
  modulePtr : Nat
  run : Nat
  image : Nat → Byte
  mem : Nat
  aligned : mem % 4 = 0
  within : mem + header.memSize.toNat + 256 ≤ 2 ^ 32
  args : CText
  old : Nat → Byte
  processReturn : Word
  gp : Word

namespace Startup
variable (s : Startup)

def bytes : Nat := s.header.memSize.toNat

def n : Nat := (copied s.bytes s.args).length

def splitter : Splitter := splitArgs s.bytes s.args (fun i => s.old (s.mem + i))

def argvWords : List Word :=
  BitVec.ofNat 32 (s.modulePtr + s.header.nameOffset.toNat) ::
    s.splitter.argv.map (fun w => BitVec.ofNat 32 (s.mem + w)) ++ [0]

def argv : Nat := (s.mem + s.n + 1 + 3) / 4 * 4

def argc : Nat := s.splitter.argv.length + 1

def tlsBase : Nat := (s.argv + 4 * (s.argc + 1) + 3) / 4 * 4

def tlsData : Nat := s.tlsBase + s.machine.tcbBytes

def dataBase : Nat := (s.tlsData + s.header.tlsTotal.toNat + 3) % 2 ^ 32 / 4 * 4

def stackTop : Nat := (s.mem + s.bytes) / 16 * 16

def frameAt : Nat := (s.stackTop + 2 ^ 32 - s.machine.frameBytes) % 2 ^ 32

/-- `stack_limit_above(data_base)`. -/
def stackLimit : Nat := (s.dataBase + 128 + 7) % 2 ^ 32 / 8 * 8

def tlsByte (i : Nat) : Byte :=
  if s.header.tlsInit ≠ 0 ∧ i < s.header.tlsInit.toNat then
    s.image (s.header.tlsOffset.toNat + i)
  else 0

def start : Start :=
  { entry := BitVec.ofNat 32 (s.run + s.header.execOffset.toNat)
    ret := s.processReturn
    argc := BitVec.ofNat 32 s.argc
    argv := BitVec.ofNat 32 s.argv
    tls := BitVec.ofNat 32 s.tlsBase
    gp := s.gp }

def parts : List Part :=
  [⟨s.mem, s.n + 1, s.splitter.text⟩,
    ofWords s.argv s.argvWords,
    ⟨s.tlsBase, s.machine.tcbBytes, fun _ => 0⟩,
    ⟨s.tlsData, s.header.tlsTotal.toNat, s.tlsByte⟩,
    ofWords s.frameAt (s.machine.frame s.start)]

def memory : Nat → Byte := s.parts.foldl Part.store s.old

/-- No two parts meet, all lie in the area and hold what was written there, and
the stack stops between the data and the frame it starts from. -/
structure LaidOut : Prop where
  inside : ∀ part ∈ s.parts, s.mem ≤ part.base ∧ part.base + part.length ≤ s.mem + s.bytes
  apart : s.parts.Pairwise Part.Apart
  holds : ∀ part ∈ s.parts, ∀ i < part.length, s.memory (part.base + i) = part.byte i
  limit : s.dataBase ≤ s.stackLimit ∧ s.stackLimit ≤ s.frameAt

def chars : Nat := min (s.bytes / 2) s.args.chars.length

def wordCount : Nat := min 15 (words (s.args.chars.take (s.bytes / 2))).length

def vectorEnd : Nat := (s.mem + s.chars + 1 + 3) / 4 * 4 + 4 * (s.wordCount + 2)

/-- Everything from the bottom, rounded as it is rounded but in numbers that do
not wrap, ends below the frame. -/
def Fits : Prop :=
  ((s.vectorEnd + s.machine.tcbBytes + s.header.tlsTotal.toNat + 3) / 4 * 4 + 128 + 7) / 8 * 8 +
    s.machine.frameBytes ≤ (s.mem + s.bytes) / 16 * 16

instance : Decidable s.Fits := inferInstanceAs (Decidable (_ ≤ _))

end Startup

section Parts
variable {part other : Part} {parts : List Part} {memory : Nat → Byte}

theorem Part.store_here {i : Nat} (inside : i < part.length) :
    part.store memory (part.base + i) = part.byte i := by
  have within : part.base ≤ part.base + i ∧ part.base + i < part.base + part.length := by omega
  rw [Part.store, if_pos within, Nat.add_sub_cancel_left]

theorem Part.store_apart (apart : part.Apart other) {i : Nat} (inside : i < part.length) :
    other.store memory (part.base + i) = memory (part.base + i) := by
  have outside : ¬ (other.base ≤ part.base + i ∧ part.base + i < other.base + other.length) := by
    unfold Part.Apart at apart
    omega
  rw [Part.store, if_neg outside]

theorem stored_holds (apart : parts.Pairwise Part.Apart) :
    ∀ part ∈ parts, ∀ i < part.length,
      parts.foldl Part.store memory (part.base + i) = part.byte i := by
  have kept : ∀ (later : List Part) (memory : Nat → Byte) (part : Part),
      (∀ other ∈ later, part.Apart other) → ∀ i < part.length,
        later.foldl Part.store memory (part.base + i) = memory (part.base + i) := by
    intro later
    induction later with
    | nil => exact fun _ _ _ _ _ => rfl
    | cons first rest ih =>
      intro memory part away i inside
      rw [List.foldl_cons, ih _ part (fun other member =>
        away other (List.mem_cons_of_mem first member)) i inside]
      exact Part.store_apart (away first List.mem_cons_self) inside
  induction parts generalizing memory with
  | nil => simp
  | cons first rest ih =>
    obtain ⟨away, apart⟩ := List.pairwise_cons.mp apart
    intro part member i inside
    rw [List.foldl_cons]
    rcases List.mem_cons.mp member with rfl | later
    · rw [kept rest _ part away i inside, Part.store_here inside]
    · exact ih apart part later i inside

end Parts

section Layout
variable (s : Startup)

theorem argvWords_length : s.argvWords.length = s.argc + 1 := by
  simp [Startup.argvWords, Startup.argc]

theorem argv_above : s.mem + s.n + 1 ≤ s.argv ∧ s.argv % 4 = 0 := by
  unfold Startup.argv
  omega

theorem tlsBase_eq : s.tlsBase = s.argv + 4 * (s.argc + 1) := by
  have aligned := (argv_above s).2
  unfold Startup.tlsBase
  omega

theorem tlsBase_vectorEnd : s.tlsBase = s.vectorEnd := by
  have copiedWords := (split_words s.bytes s.args (fun i => s.old (s.mem + i))).length_eq
  rw [List.length_take] at copiedWords
  have count : s.argc = s.wordCount + 1 := congrArg (· + 1) copiedWords
  have length : s.n = s.chars := List.length_take
  rw [tlsBase_eq, count, Startup.argv, length]
  rfl

/-- The areas are laid out as they should be exactly if what is packed from the
bottom ends, with the spare of the stack, below the frame. -/
theorem startup_laidOut : s.LaidOut ↔ s.Fits := by
  have within := s.within
  have above := argv_above s
  have tls := tlsBase_eq s
  have vector : 4 * s.argvWords.length = 4 * (s.argc + 1) := by rw [argvWords_length]
  have frame := frame_length s.machine s.start
  have small : s.machine.frameBytes ≤ 144 := by cases s.machine <;> decide
  have ends := tlsBase_vectorEnd s
  have data : s.tlsData = s.tlsBase + s.machine.tcbBytes := rfl
  have top : s.stackTop = (s.mem + s.bytes) / 16 * 16 := rfl
  have total : s.bytes = s.header.memSize.toNat := rfl
  -- Of the parts only the TLS data and the first frame can run past the end of the area.
  constructor
  · intro laid
    have tlsInside := laid.inside ⟨s.tlsData, s.header.tlsTotal.toNat, s.tlsByte⟩
      (by simp [Startup.parts])
    have frameInside := laid.inside (ofWords s.frameAt (s.machine.frame s.start))
      (by simp [Startup.parts])
    have limit := laid.limit.2
    simp only [ofWords, frame] at tlsInside frameInside
    unfold Startup.stackLimit Startup.dataBase at limit
    unfold Startup.frameAt at limit frameInside
    unfold Startup.Fits
    omega
  · intro fits
    unfold Startup.Fits at fits
    have noWrap : s.dataBase = (s.tlsData + s.header.tlsTotal.toNat + 3) / 4 * 4 := by
      unfold Startup.dataBase
      omega
    have limit : s.stackLimit = (s.dataBase + 128 + 7) / 8 * 8 := by
      unfold Startup.stackLimit
      omega
    have placed : s.frameAt = s.stackTop - s.machine.frameBytes := by
      unfold Startup.frameAt
      omega
    have apart : s.parts.Pairwise Part.Apart := by
      simp only [Startup.parts, List.pairwise_cons, List.mem_cons, List.not_mem_nil, or_false,
        forall_eq_or_imp, forall_eq, Part.Apart, ofWords, frame, vector, IsEmpty.forall_iff,
        implies_true, and_true, List.Pairwise.nil]
      omega
    refine ⟨?_, apart, stored_holds apart, ?_⟩
    · simp only [Startup.parts, List.mem_cons, List.not_mem_nil, or_false, forall_eq_or_imp,
        forall_eq, ofWords, frame, vector]
      omega
    · omega

end Layout

def greedyHeader : Header where
  syncCode := 0x0509000B
  moduleSize := 512
  nameOffset := 256
  typeLang := 0x0111
  attrRev := 0x010a
  execOffset := 56
  memSize := 4096
  tlsOffset := 0
  tlsInit := 0
  tlsTotal := 5000
  revision := 1
  reserved := 0
  relocOffset := 512
  relocCount := 0
  bssSize := 0
  headerCrc := 0xf9ecd622

/-- The loader takes it, and its block runs a thousand bytes past its area. -/
theorem greedy_module_overruns :
    ¬ ∀ s : Startup, verifyHeader s.machine s.header = true → s.LaidOut := by
  intro always
  have accepted : verifyHeader .rv32 greedyHeader = true := by decide
  have laid := always
    { machine := .rv32
      header := greedyHeader
      modulePtr := 0x10100000
      run := 0x10100000
      image := fun _ => 0
      mem := 0x20010000
      aligned := by decide
      within := by decide
      args := ⟨[], by simp⟩
      old := fun _ => 0
      processReturn := 0
      gp := 0 } accepted
  have ends := (laid.inside ⟨_, _, _⟩ (List.mem_cons_of_mem _ (List.mem_cons_of_mem _
    (List.mem_cons_of_mem _ List.mem_cons_self)))).2
  exact absurd ends (by decide)

end Ubiqos.Loader
