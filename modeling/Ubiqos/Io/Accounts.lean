import Ubiqos.Io.Paths
import Ubiqos.Lib.Tally
import Ubiqos.Lib.Along

/-!
Who holds what. An open file counts the slots that name it, a ring the slots
that read it and those that write it. In the middle of a call a slot may be
counted and not yet stand in the table, or be taken out and still be counted:
`Owed t extra` is the accounts with such slots on the side, and every call is a
few steps that move a slot between the table and the side.
-/

namespace Ubiqos.Io

open Function Machine Tally

inductive Op where
  | addDescriptor (name : String) (configured : Bool)
  | openDevice (name : String) (opens : Bool) (owner : Int)
  | openAs (name : String) (opens : Bool) (owner path : Int)
  | openFile (path : List Byte) (owner : Int)
  | pipe (owner : Int)
  | pipepair (owner : Int)
  | dup (path newPath owner : Int)
  | close (path owner : Int)
  | inherit (parent child : Int)
  | closeAll (owner : Int)
  | write (path owner : Int) (bytes : List Byte)
  | read (path owner : Int) (len : Nat)

section Accounts
variable {n k f : Nat}

def step (t : Table n k f) : Op → Table n k f
  | .addDescriptor name configured => addDescriptor t name configured
  | .openDevice name opens owner => (openDevice t name opens owner).1
  | .openAs name opens owner path => (openAs t name opens owner path).1
  | .openFile path owner => (openFile t path owner).1
  | .pipe owner => (pipe t owner).1
  | .pipepair owner => (pipepair t owner).1
  | .dup path newPath owner => (dup t path newPath owner).1
  | .close path owner => (close t path owner).1
  | .inherit parent child => inherit t parent child
  | .closeAll owner => closeAll t owner
  | .write path owner bytes =>
    match pipeEntry t path owner with
    | some spot => (pipeWrite t spot bytes).1
    | none => t
  | .read path owner len =>
    match pipeEntry t path owner with
    | some spot => (pipeRead t spot len).1
    | none => t

def named (i : Fin f) (slot : Slot f) : Bool := slot.file = some i
def reading (q : Ring) (slot : Slot f) : Bool := slot.inn = some q
def writing (q : Ring) (slot : Slot f) : Bool := slot.out = some q

def Slot.names (slot : Slot f) : Nat :=
  slot.device.isSome.toNat + slot.file.isSome.toNat + slot.pipe.isSome.toNat

/-- A slot that is not free holds one thing, and a second ring only beside a first
and without the mark of a one-way end. -/
def Single (slot : Slot f) : Prop :=
  isFree slot = true ∨ (slot.names = 1 ∧
    (slot.back.isSome = true → slot.pipe.isSome = true ∧ slot.write = false))

structure Owed (t : Table n k f) (extra : List (Slot f)) : Prop where
  files : ∀ i, (t.files i).refs = tally (named i) t.paths + extra.countP (named i)
  readers : ∀ q, (t.pipes q).readers = tally (reading q) t.paths + extra.countP (reading q)
  writers : ∀ q, (t.pipes q).writers = tally (writing q) t.paths + extra.countP (writing q)
  single : ∀ spot, Single (t.paths spot)

def Exact (t : Table n k f) : Prop := Owed t []

def Uncounted (slot : Slot f) : Prop := slot.file = none ∧ slot.inn = none ∧ slot.out = none

theorem uncounted_of_free {slot : Slot f} (free : isFree slot = true) : Uncounted slot := by
  simp only [isFree, vacant, Bool.and_eq_true, Option.isNone_iff_eq_none] at free
  obtain ⟨⟨⟨_, noFile⟩, noPipe⟩, _⟩ := free
  exact ⟨noFile, by simp [Slot.inn, noPipe], by simp [Slot.out, noPipe]⟩

theorem Uncounted.tests {slot : Slot f} (none : Uncounted slot) :
    (∀ i, named i slot = false) ∧ (∀ q, reading q slot = false) ∧ ∀ q, writing q slot = false := by
  obtain ⟨noFile, noIn, noOut⟩ := none
  exact ⟨by simp [named, noFile], by simp [reading, noIn], by simp [writing, noOut]⟩

theorem free_of_vacant {slot : Slot f} (single : Single slot) (empty : vacant slot = true) :
    isFree slot = true := by
  rcases single with free | ⟨one, _⟩
  · exact free
  · simp only [vacant, Bool.and_eq_true, Option.isNone_iff_eq_none] at empty
    obtain ⟨⟨noDevice, noFile⟩, noPipe⟩ := empty
    simp [Slot.names, noDevice, noFile, noPipe] at one

theorem Single.of_file {slot : Slot f} (single : Single slot) {i : Fin f}
    (file : slot.file = some i) : slot.device = none ∧ slot.pipe = none ∧ slot.back = none := by
  obtain ⟨device, _, pipe, back, write⟩ := slot
  subst file
  rcases single with free | ⟨one, beside⟩
  · simp [isFree, vacant] at free
  · cases device <;> cases pipe <;> simp [Slot.names] at one
    simpa using beside

theorem Single.of_pipe {slot : Slot f} (single : Single slot) {q : Ring}
    (pipe : slot.pipe = some q) : slot.device = none ∧ slot.file = none := by
  obtain ⟨device, file, _, back, write⟩ := slot
  subst pipe
  rcases single with free | ⟨one, _⟩
  · simp [isFree, vacant] at free
  · cases device <;> cases file <;> simp [Slot.names] at one
    exact ⟨rfl, rfl⟩

section Steps
variable {t : Table n k f} {extra : List (Slot f)} {slot : Slot f} {spot : Pid n × Fin k}

theorem Owed.ignore (none : Uncounted slot) : Owed t (slot :: extra) ↔ Owed t extra := by
  obtain ⟨noFile, noIn, noOut⟩ := none.tests
  constructor
  · intro owed
    exact ⟨by simpa [noFile] using owed.files, by simpa [noIn] using owed.readers,
      by simpa [noOut] using owed.writers, owed.single⟩
  · intro owed
    exact ⟨by simpa [noFile] using owed.files, by simpa [noIn] using owed.readers,
      by simpa [noOut] using owed.writers, owed.single⟩

theorem Owed.swap (owed : Owed t (slot :: extra)) (single : Single slot) :
    Owed (setSlot t spot slot) (t.paths spot :: extra) := by
  constructor
  · intro i
    have moved := tally_update (named i) t.paths spot slot
    have before := owed.files i
    simp only [setSlot, List.countP_cons] at before moved ⊢
    omega
  · intro q
    have moved := tally_update (reading q) t.paths spot slot
    have before := owed.readers q
    simp only [setSlot, List.countP_cons] at before moved ⊢
    omega
  · intro q
    have moved := tally_update (writing q) t.paths spot slot
    have before := owed.writers q
    simp only [setSlot, List.countP_cons] at before moved ⊢
    omega
  · intro other
    by_cases here : other = spot
    · subst here
      simpa [setSlot] using single
    · simpa [setSlot, here] using owed.single other

theorem Owed.place (owed : Owed t (slot :: extra)) (single : Single slot)
    (free : isFree (t.paths spot) = true) : Owed (setSlot t spot slot) extra :=
  (Owed.ignore (uncounted_of_free free)).mp (owed.swap single)

theorem Owed.lift (owed : Owed t extra) (none : Uncounted slot) (single : Single slot) :
    Owed (setSlot t spot slot) (t.paths spot :: extra) :=
  ((Owed.ignore none).mpr owed).swap single

section Counts
variable (t : Table n k f) (a q : Ring)

@[simp] theorem addReader_readers :
    ((addReader t a).pipes q).readers = (t.pipes q).readers + if a = q then 1 else 0 := by
  by_cases same : a = q
  · simp [addReader, setPipe, same]
  · simp [addReader, setPipe, same, Ne.symm same]

@[simp] theorem addReader_writers : ((addReader t a).pipes q).writers = (t.pipes q).writers := by
  by_cases same : a = q
  · simp [addReader, setPipe, same]
  · simp [addReader, setPipe, Ne.symm same]

@[simp] theorem addWriter_writers :
    ((addWriter t a).pipes q).writers = (t.pipes q).writers + if a = q then 1 else 0 := by
  by_cases same : a = q
  · simp [addWriter, setPipe, same]
  · simp [addWriter, setPipe, same, Ne.symm same]

@[simp] theorem addWriter_readers : ((addWriter t a).pipes q).readers = (t.pipes q).readers := by
  by_cases same : a = q
  · simp [addWriter, setPipe, same]
  · simp [addWriter, setPipe, Ne.symm same]

@[simp] theorem dropReader_readers :
    ((dropReader t a).pipes q).readers = (t.pipes q).readers - if a = q then 1 else 0 := by
  by_cases same : a = q
  · simp [dropReader, setPipe, same]
  · simp [dropReader, setPipe, same, Ne.symm same]

@[simp] theorem dropReader_writers : ((dropReader t a).pipes q).writers = (t.pipes q).writers := by
  by_cases same : a = q
  · simp [dropReader, setPipe, same]
  · simp [dropReader, setPipe, Ne.symm same]

@[simp] theorem dropWriter_writers :
    ((dropWriter t a).pipes q).writers = (t.pipes q).writers - if a = q then 1 else 0 := by
  by_cases same : a = q
  · simp [dropWriter, setPipe, same]
  · simp [dropWriter, setPipe, same, Ne.symm same]

@[simp] theorem dropWriter_readers : ((dropWriter t a).pipes q).readers = (t.pipes q).readers := by
  by_cases same : a = q
  · simp [dropWriter, setPipe, same]
  · simp [dropWriter, setPipe, Ne.symm same]

end Counts

theorem addEnd_frame (t : Table n k f) (slot : Slot f) :
    (addEnd t slot).paths = t.paths ∧ (addEnd t slot).files = t.files := by
  unfold addEnd
  cases slot.pipe <;> cases slot.back <;> cases slot.write <;> exact ⟨rfl, rfl⟩

theorem addFile_frame (t : Table n k f) (slot : Slot f) :
    (addFile t slot).paths = t.paths ∧ (addFile t slot).pipes = t.pipes := by
  unfold addFile
  cases slot.file <;> exact ⟨rfl, rfl⟩

theorem addHolder_paths (t : Table n k f) (slot : Slot f) : (addHolder t slot).paths = t.paths :=
  (addEnd_frame _ slot).1.trans (addFile_frame t slot).1

theorem addFile_refs (t : Table n k f) (slot : Slot f) (i : Fin f) :
    ((addFile t slot).files i).refs = (t.files i).refs + if named i slot then 1 else 0 := by
  cases names : slot.file with
  | none => simp [addFile, named, names]
  | some j =>
    by_cases same : i = j
    · simp [addFile, setFile, named, names, same]
    · simp [addFile, setFile, named, names, same, Ne.symm same]

theorem addEnd_counts (t : Table n k f) (slot : Slot f) (q : Ring) :
    ((addEnd t slot).pipes q).readers = (t.pipes q).readers + (if reading q slot then 1 else 0) ∧
      ((addEnd t slot).pipes q).writers = (t.pipes q).writers + if writing q slot then 1 else 0 := by
  obtain ⟨device, file, pipe, back, write⟩ := slot
  cases pipe with
  | none => simp [addEnd, reading, writing, Slot.inn, Slot.out]
  | some a =>
    cases back with
    | none => cases write <;> simp [addEnd, reading, writing, Slot.inn, Slot.out]
    | some b => simp [addEnd, reading, writing, Slot.inn, Slot.out]

theorem Owed.hold (owed : Owed t extra) (slot : Slot f) : Owed (addHolder t slot) (slot :: extra) := by
  constructor
  · intro i
    rw [addHolder_paths, addHolder, (addEnd_frame _ slot).2, addFile_refs, owed.files,
      List.countP_cons]
    omega
  · intro q
    rw [addHolder_paths, addHolder, (addEnd_counts _ slot q).1, (addFile_frame t slot).2,
      owed.readers, List.countP_cons]
    omega
  · intro q
    rw [addHolder_paths, addHolder, (addEnd_counts _ slot q).2, (addFile_frame t slot).2,
      owed.writers, List.countP_cons]
    omega
  · intro other
    rw [addHolder_paths]
    exact owed.single other

theorem dropEnd_frame (t : Table n k f) (slot : Slot f) :
    (dropEnd t slot).paths = t.paths ∧ (dropEnd t slot).files = t.files := by
  unfold dropEnd
  cases slot.pipe <;> cases slot.back <;> cases slot.write <;> exact ⟨rfl, rfl⟩

theorem dropEnd_counts (t : Table n k f) (slot : Slot f) (q : Ring) :
    ((dropEnd t slot).pipes q).readers = (t.pipes q).readers - (if reading q slot then 1 else 0) ∧
      ((dropEnd t slot).pipes q).writers =
        (t.pipes q).writers - if writing q slot then 1 else 0 := by
  obtain ⟨device, file, pipe, back, write⟩ := slot
  cases pipe with
  | none => simp [dropEnd, reading, writing, Slot.inn, Slot.out]
  | some a =>
    cases back with
    | none => cases write <;> simp [dropEnd, reading, writing, Slot.inn, Slot.out]
    | some b => simp [dropEnd, reading, writing, Slot.inn, Slot.out]

theorem Owed.dropEnd (owed : Owed t (slot :: extra)) (noFile : slot.file = none) :
    Owed (dropEnd t slot) extra := by
  constructor
  · intro i
    have before := owed.files i
    rw [(dropEnd_frame t slot).1, (dropEnd_frame t slot).2]
    simpa [named, noFile] using before
  · intro q
    have before := owed.readers q
    rw [List.countP_cons] at before
    rw [(dropEnd_frame t slot).1, (dropEnd_counts t slot q).1]
    omega
  · intro q
    have before := owed.writers q
    rw [List.countP_cons] at before
    rw [(dropEnd_frame t slot).1, (dropEnd_counts t slot q).2]
    omega
  · intro other
    rw [(dropEnd_frame t slot).1]
    exact owed.single other

theorem Owed.dropFile (owed : Owed t (slot :: extra)) {i : Fin f} (file : slot.file = some i)
    (noPipe : slot.pipe = none) :
    Owed (setFile t i { t.files i with refs := (t.files i).refs - 1 }) extra := by
  have noIn : ∀ q, reading q slot = false := by simp [reading, Slot.inn, noPipe]
  have noOut : ∀ q, writing q slot = false := by simp [writing, Slot.out, noPipe]
  constructor
  · intro j
    have before := owed.files j
    rw [List.countP_cons] at before
    by_cases same : j = i
    · subst same
      have here : named j slot = true := by simp [named, file]
      simp only [here, if_true] at before
      simp only [setFile, update_self]
      omega
    · have away : named j slot = false := by simp [named, file, Ne.symm same]
      simpa [setFile, same, away] using before
  · simpa [setFile, noIn] using owed.readers
  · simpa [setFile, noOut] using owed.writers
  · exact owed.single

theorem fileRelease_owed (owed : Owed t extra) {i : Fin f} (file : (t.paths spot).file = some i) :
    Owed (fileRelease t spot) extra ∧ isFree ((fileRelease t spot).paths spot) = true := by
  obtain ⟨noDevice, noPipe, noBack⟩ := (owed.single spot).of_file file
  have free : isFree ({ t.paths spot with file := none } : Slot f) = true := by
    simp [isFree, vacant, noDevice, noPipe, noBack]
  have lifted : Owed (setSlot t spot { t.paths spot with file := none }) (t.paths spot :: extra) :=
    owed.lift (uncounted_of_free free) (.inl free)
  have released : fileRelease t spot = setFile (setSlot t spot { t.paths spot with file := none }) i
      { t.files i with refs := (t.files i).refs - 1 } := by
    simp [fileRelease, file, setFile, setSlot]
  rw [released]
  exact ⟨lifted.dropFile file noPipe, by simpa [setFile, setSlot] using free⟩

theorem pipeRelease_owed (owed : Owed t extra) {q : Ring} (pipe : (t.paths spot).pipe = some q) :
    Owed (pipeRelease t spot) extra ∧ isFree ((pipeRelease t spot).paths spot) = true := by
  obtain ⟨noDevice, noFile⟩ := (owed.single spot).of_pipe pipe
  have free : isFree ({ t.paths spot with pipe := none, back := none } : Slot f) = true := by
    simp [isFree, vacant, noDevice, noFile]
  have lifted : Owed (setSlot t spot { t.paths spot with pipe := none, back := none })
      (t.paths spot :: extra) := owed.lift (uncounted_of_free free) (.inl free)
  have moved : ∀ slot : Slot f, setSlot (dropEnd t (t.paths spot)) spot slot =
      dropEnd (setSlot t spot slot) (t.paths spot) := by
    intro slot
    unfold Io.dropEnd
    cases (t.paths spot).pipe <;> cases (t.paths spot).back <;> cases (t.paths spot).write <;> rfl
  have released : pipeRelease t spot =
      dropEnd (setSlot t spot { t.paths spot with pipe := none, back := none }) (t.paths spot) := by
    simp [pipeRelease, pipe, moved]
  rw [released]
  constructor
  · exact lifted.dropEnd noFile
  · rw [(dropEnd_frame _ _).1]
    simpa [setSlot] using free

theorem fileRelease_others {other : Pid n × Fin k} (away : other ≠ spot) :
    (fileRelease t spot).paths other = t.paths other := by
  unfold fileRelease
  cases (t.paths spot).file with
  | none => rfl
  | some i => simp [setSlot, setFile, away]

theorem pipeRelease_others {other : Pid n × Fin k} (away : other ≠ spot) :
    (pipeRelease t spot).paths other = t.paths other := by
  unfold pipeRelease
  cases (t.paths spot).pipe with
  | none => rfl
  | some q => simp [setSlot, (dropEnd_frame t _).1, away]

theorem noDevice_owed (owed : Owed t extra) (noFile : (t.paths spot).file = none)
    (noPipe : (t.paths spot).pipe = none) :
    Owed (setSlot t spot { t.paths spot with device := none }) extra ∧
      isFree ({ t.paths spot with device := none } : Slot f) = true := by
  have noBack : (t.paths spot).back = none := by
    rcases owed.single spot with free | ⟨_, beside⟩
    · simp only [isFree, Bool.and_eq_true, Option.isNone_iff_eq_none] at free
      exact free.2
    · simpa [noPipe] using beside
  have free : isFree ({ t.paths spot with device := none } : Slot f) = true := by
    simp [isFree, vacant, noFile, noPipe, noBack]
  have uncounted : Uncounted (t.paths spot) :=
    ⟨noFile, by simp [Slot.inn, noPipe], by simp [Slot.out, noPipe]⟩
  exact ⟨(Owed.ignore uncounted).mp (owed.lift (uncounted_of_free free) (.inl free)), free⟩

theorem entry_some {n k : Nat} {test : Pid n × Fin k → Bool} {path owner : Int}
    {spot : Pid n × Fin k} (found : (place n k path owner).filter test = some spot) :
    place n k path owner = some spot ∧ test spot = true := by
  rw [Option.filter_eq_some_iff] at found
  exact found

theorem entry_none {n k : Nat} {test : Pid n × Fin k → Bool} {path owner : Int}
    {spot : Pid n × Fin k} (found : (place n k path owner).filter test = none)
    (here : place n k path owner = some spot) : test spot = false := by
  simpa [here, Option.filter] using found

theorem close_owed (owed : Owed t extra) (path owner : Int) :
    Owed (close t path owner).1 extra ∧
      (∀ spot, place n k path owner = some spot →
        isFree ((close t path owner).1.paths spot) = true) ∧
      ∀ other, place n k path owner ≠ some other →
        (close t path owner).1.paths other = t.paths other := by
  unfold close
  cases file : fileEntry t path owner with
  | some spot =>
    obtain ⟨here, isFile⟩ := entry_some file
    obtain ⟨i, names⟩ := Option.isSome_iff_exists.mp isFile
    obtain ⟨after, free⟩ := fileRelease_owed owed names
    refine ⟨after, ?_, ?_⟩
    · intro other same
      rw [here] at same
      rw [← Option.some.inj same]
      exact free
    · intro other away
      apply fileRelease_others
      rintro rfl
      exact away here
  | none =>
    cases pipe : pipeEntry t path owner with
    | some spot =>
      obtain ⟨here, isPipe⟩ := entry_some pipe
      obtain ⟨q, names⟩ := Option.isSome_iff_exists.mp isPipe
      obtain ⟨after, free⟩ := pipeRelease_owed owed names
      refine ⟨after, ?_, ?_⟩
      · intro other same
        rw [here] at same
        rw [← Option.some.inj same]
        exact free
      · intro other away
        apply pipeRelease_others
        rintro rfl
        exact away here
    | none =>
      cases device : pathOf t path owner with
      | some spot =>
        obtain ⟨here, _⟩ := entry_some device
        have noFile := entry_none file here
        have noPipe := entry_none pipe here
        rw [Option.isSome_eq_false_iff, Option.isNone_iff_eq_none] at noFile noPipe
        obtain ⟨after, free⟩ := noDevice_owed owed noFile noPipe
        refine ⟨after, ?_, ?_⟩
        · intro other same
          rw [here] at same
          rw [← Option.some.inj same]
          simpa [setSlot] using free
        · intro other away
          have different : other ≠ spot := by
            rintro rfl
            exact away here
          simp [setSlot, different]
      | none =>
        refine ⟨owed, ?_, fun _ _ => rfl⟩
        intro spot here
        have noFile := entry_none file here
        have noPipe := entry_none pipe here
        have noDevice := entry_none device here
        apply free_of_vacant (owed.single spot)
        simp only [vacant, Bool.and_eq_true, Option.isNone_iff_eq_none]
        rw [Option.isSome_eq_false_iff, Option.isNone_iff_eq_none] at noFile noPipe noDevice
        exact ⟨⟨noDevice, noFile⟩, noPipe⟩

theorem closePath_owed (owed : Owed t extra) (pid : Pid n) (p : Fin k) :
    Owed (closePath pid t p) extra ∧ isFree ((closePath pid t p).paths (pid, p)) = true ∧
      ∀ other, other ≠ (pid, p) → (closePath pid t p).paths other = t.paths other := by
  -- each of the three parts of the loop's body leaves one kind of name out of the slot
  have filed : Owed (fileRelease t (pid, p)) extra ∧
      ((fileRelease t (pid, p)).paths (pid, p)).file = none := by
    cases file : (t.paths (pid, p)).file with
    | none => simpa [fileRelease, file] using owed
    | some i =>
      obtain ⟨after, free⟩ := fileRelease_owed owed file
      exact ⟨after, (uncounted_of_free free).1⟩
  obtain ⟨owed', noFile⟩ := filed
  have piped : Owed (pipeRelease (fileRelease t (pid, p)) (pid, p)) extra ∧
      ((pipeRelease (fileRelease t (pid, p)) (pid, p)).paths (pid, p)).file = none ∧
      ((pipeRelease (fileRelease t (pid, p)) (pid, p)).paths (pid, p)).pipe = none := by
    cases pipe : ((fileRelease t (pid, p)).paths (pid, p)).pipe with
    | none => simpa [pipeRelease, pipe, noFile] using owed'
    | some q =>
      obtain ⟨after, free⟩ := pipeRelease_owed owed' pipe
      refine ⟨after, (uncounted_of_free free).1, ?_⟩
      simp only [isFree, vacant, Bool.and_eq_true, Option.isNone_iff_eq_none] at free
      exact free.1.2
  obtain ⟨owed'', noFile', noPipe⟩ := piped
  obtain ⟨final, free⟩ := noDevice_owed owed'' noFile' noPipe
  refine ⟨final, by simpa [closePath, setSlot] using free, ?_⟩
  intro other away
  simp only [closePath, setSlot, update_of_ne away]
  rw [pipeRelease_others away, fileRelease_others away]

theorem closePaths_owed (pid : Pid n) (visited : List (Fin k)) (owed : Owed t extra) :
    Owed (visited.foldl (closePath pid) t) extra ∧
      (∀ p, (p ∈ visited ∨ isFree (t.paths (pid, p)) = true) →
        isFree ((visited.foldl (closePath pid) t).paths (pid, p)) = true) ∧
      ∀ other, other.1 ≠ pid → (visited.foldl (closePath pid) t).paths other = t.paths other := by
  induction visited generalizing t with
  | nil => exact ⟨owed, by simp, fun _ _ => rfl⟩
  | cons p rest ih =>
    obtain ⟨after, free, others⟩ := closePath_owed owed pid p
    obtain ⟨final, frees, away⟩ := ih after
    refine ⟨final, ?_, ?_⟩
    · intro q either
      apply frees
      by_cases same : q = p
      · subst same
        exact Or.inr free
      · rcases either with member | already
        · rcases List.mem_cons.mp member with here | later
          · exact absurd here same
          · exact Or.inl later
        · right
          rw [others (pid, q) (by simp [same])]
          exact already
    · intro other different
      rw [List.foldl_cons, away other different, others other]
      rintro rfl
      exact different rfl

theorem closeAll_owed (owed : Owed t extra) (owner : Int) :
    Owed (closeAll t owner) extra ∧
      (∀ pid, index n owner = some pid → ∀ p, isFree ((closeAll t owner).paths (pid, p)) = true) ∧
      ∀ other : Pid n × Fin k, index n owner ≠ some other.1 →
        (closeAll t owner).paths other = t.paths other := by
  unfold closeAll
  cases found : index n owner with
  | none => exact ⟨owed, by simp, fun _ _ => rfl⟩
  | some pid =>
    obtain ⟨final, frees, away⟩ := closePaths_owed pid (List.finRange k) owed
    refine ⟨final, ?_, ?_⟩
    · intro other same p
      rw [← Option.some.inj same]
      exact frees p (Or.inl (List.mem_finRange p))
    · intro other different
      apply away
      intro same
      exact different (by rw [same])

theorem closePath_vacant (t : Table n k f) (pid : Pid n) (p : Fin k) :
    vacant ((closePath pid t p).paths (pid, p)) = true ∧
      ∀ other, other ≠ (pid, p) → (closePath pid t p).paths other = t.paths other := by
  constructor
  · simp only [closePath, setSlot, update_self, vacant, Option.isNone_none, Bool.true_and,
      Bool.and_eq_true, Option.isNone_iff_eq_none]
    have filed : ((fileRelease t (pid, p)).paths (pid, p)).file = none := by
      unfold fileRelease
      split
      · assumption
      · simp [setSlot]
    unfold pipeRelease
    split
    · rename_i noPipe
      exact ⟨filed, noPipe⟩
    · simp [setSlot, filed]
  · intro other away
    simp only [closePath, setSlot, update_of_ne away]
    rw [pipeRelease_others away, fileRelease_others away]

theorem closeAll_vacant (t : Table n k f) (pid : Pid n) (p : Fin k) :
    vacant ((closeAll t (pid : Nat)).paths (pid, p)) = true := by
  have found : index n ((pid : Nat) : Int) = some pid := by simp [index]
  simp only [closeAll, found]
  have reaches : ∀ (t : Table n k f) (p : Fin k),
      vacant ((closePath pid t p).paths (pid, p)) = true :=
    fun t p => (closePath_vacant t pid p).1
  refine foldl_visits (fun (p : Fin k) (t : Table n k f) => vacant (t.paths (pid, p)) = true)
    reaches ?_ p (List.mem_finRange p)
  intro t q p already
  by_cases here : p = q
  · subst here
    exact (closePath_vacant t pid p).1
  · rw [(closePath_vacant t pid q).2 (pid, p) (by simp [here])]
    exact already

theorem closeAll_others (t : Table n k f) {pid other : Pid n} (away : other ≠ pid) (p : Fin k) :
    (closeAll t (pid : Nat)).paths (other, p) = t.paths (other, p) := by
  have found : index n ((pid : Nat) : Int) = some pid := by simp [index]
  simp only [closeAll, found]
  refine foldl_invariant (fun u : Table n k f => u.paths (other, p) = t.paths (other, p)) rfl ?_
  intro u q _ same
  rw [(closePath_vacant u pid q).2 (other, p) (by simp [away]), same]

def Spares (t t' : Table n k f) : Prop :=
  ∀ spot, isFree (t.paths spot) = false → t'.paths spot = t.paths spot

theorem ne_of_free {other : Pid n × Fin k} (occupied : isFree (t.paths other) = false)
    (free : isFree (t.paths spot) = true) : other ≠ spot := by
  rintro rfl
  rw [free] at occupied
  cases occupied

theorem spares_setSlot {t' : Table n k f} (same : t'.paths = t.paths)
    (free : isFree (t.paths spot) = true) : Spares t (setSlot t' spot slot) := by
  intro other occupied
  simp [setSlot, ne_of_free occupied free, same]

theorem firstSlot_some {pid : Pid n} {test : Slot f → Bool} {p : Fin k}
    (found : firstSlot t pid test = some p) : test (t.paths (pid, p)) = true := by
  simpa using List.find?_some found

theorem Owed.recount {extra' : List (Slot f)} (owed : Owed t extra)
    (files : ∀ i, extra'.countP (named i) = extra.countP (named i))
    (readers : ∀ q, extra'.countP (reading q) = extra.countP (reading q))
    (writers : ∀ q, extra'.countP (writing q) = extra.countP (writing q)) : Owed t extra' :=
  ⟨fun i => by rw [owed.files, files], fun q => by rw [owed.readers, readers],
    fun q => by rw [owed.writers, writers], owed.single⟩

theorem addDescriptor_owed (owed : Owed t extra) (name : String) (configured : Bool) :
    Owed (addDescriptor t name configured) extra ∧
      (addDescriptor t name configured).paths = t.paths := by
  unfold addDescriptor
  split
  · exact ⟨owed, rfl⟩
  · split
    · exact ⟨⟨owed.files, owed.readers, owed.writers, owed.single⟩, rfl⟩
    · exact ⟨owed, rfl⟩

theorem openDevice_owed (owed : Owed t extra) (name : String) (opens : Bool) (owner : Int) :
    Owed (openDevice t name opens owner).1 extra ∧ Spares t (openDevice t name opens owner).1 := by
  unfold openDevice
  split
  · rename_i pid d _ _
    split
    · exact ⟨owed, fun _ _ => rfl⟩
    · rename_i p found
      have free := free_of_vacant (owed.single (pid, p)) (firstSlot_some found)
      split
      · constructor
        · refine Owed.place ((Owed.ignore ⟨rfl, ?_, ?_⟩).mpr owed) (.inr ?_) free
          · rfl
          · rfl
          · simp [Slot.names]
        · exact spares_setSlot rfl free
      · exact ⟨owed, fun _ _ => rfl⟩
  · exact ⟨owed, fun _ _ => rfl⟩

theorem openAs_owed (owed : Owed t extra) (name : String) (opens : Bool) (owner path : Int)
    (careful : opens = true → name ∈ t.devices →
      ∀ spot, place n k path owner = some spot → isFree (t.paths spot) = true) :
    Owed (openAs t name opens owner path).1 extra ∧ Spares t (openAs t name opens owner path).1 := by
  unfold openAs
  split
  · rename_i spot d here listed
    split
    · rename_i opened
      have known : name ∈ t.devices := by
        obtain ⟨inside, same, _⟩ := List.findIdx?_eq_some_iff_getElem.mp listed
        simp only [decide_eq_true_eq] at same
        rw [← same]
        exact List.getElem_mem inside
      have free := careful opened known spot here
      obtain ⟨noFile, noIn, noOut⟩ := uncounted_of_free free
      have uncounted : Uncounted ({ t.paths spot with device := some d } : Slot f) :=
        ⟨noFile, noIn, noOut⟩
      have one : ({ t.paths spot with device := some d } : Slot f).names = 1 ∧
          (t.paths spot).back = none := by
        simp only [isFree, vacant, Bool.and_eq_true, Option.isNone_iff_eq_none] at free
        simp [Slot.names, free]
      constructor
      · exact ((Owed.ignore uncounted).mpr owed).place (.inr ⟨one.1, by simp [one.2]⟩) free
      · exact spares_setSlot rfl free
    · exact ⟨owed, fun _ _ => rfl⟩
  · exact ⟨owed, fun _ _ => rfl⟩

theorem Owed.newFile (owed : Owed t extra) {i : Fin f} (unused : (t.files i).refs = 0)
    (path : List Byte) (file : slot.file = some i) (noPipe : slot.pipe = none) :
    Owed (setFile t i ⟨path, 0, 1⟩) (slot :: extra) := by
  have noIn : ∀ q, reading q slot = false := by simp [reading, Slot.inn, noPipe]
  have noOut : ∀ q, writing q slot = false := by simp [writing, Slot.out, noPipe]
  constructor
  · intro j
    have before := owed.files j
    rw [List.countP_cons]
    by_cases same : j = i
    · subst same
      have here : named j slot = true := by simp [named, file]
      simp only [here, if_true, setFile, update_self]
      omega
    · have away : named j slot = false := by simp [named, file, Ne.symm same]
      simpa [setFile, same, away] using before
  · simpa [setFile, noIn] using owed.readers
  · simpa [setFile, noOut] using owed.writers
  · exact owed.single

theorem openFile_owed (owed : Owed t extra) (path : List Byte) (owner : Int) :
    Owed (openFile t path owner).1 extra ∧ Spares t (openFile t path owner).1 := by
  unfold openFile
  split
  · exact ⟨owed, fun _ _ => rfl⟩
  · rename_i pid _
    split
    · rename_i i p unused found
      have free := firstSlot_some found
      have refs : (t.files i).refs = 0 := by simpa using List.find?_some unused
      constructor
      · simp only [isFree, vacant, Bool.and_eq_true, Option.isNone_iff_eq_none] at free
        refine Owed.place (owed.newFile refs _ rfl ?_) (.inr ?_) (firstSlot_some found)
        · exact free.1.2
        · simp [setFile, Slot.names, free]
      · exact spares_setSlot rfl free
    · exact ⟨owed, fun _ _ => rfl⟩

def readEnd (q : Ring) : Slot f := ⟨none, none, some q, none, false⟩
def writeEnd (q : Ring) : Slot f := ⟨none, none, some q, none, true⟩
def bothEnd (a b : Ring) : Slot f := ⟨none, none, some a, some b, false⟩

section Ends
variable (i : Fin f) (a b q : Ring)

@[simp] theorem named_readEnd : named i (readEnd q) = false := rfl
@[simp] theorem named_writeEnd : named i (writeEnd q) = false := rfl
@[simp] theorem named_bothEnd : named i (bothEnd a b) = false := rfl
@[simp] theorem reading_readEnd : reading q (readEnd a : Slot f) = decide (a = q) := by
  simp [reading, readEnd, Slot.inn]
@[simp] theorem reading_writeEnd : reading q (writeEnd a : Slot f) = false := rfl
@[simp] theorem reading_bothEnd : reading q (bothEnd a b : Slot f) = decide (a = q) := by
  simp [reading, bothEnd, Slot.inn]
@[simp] theorem writing_readEnd : writing q (readEnd a : Slot f) = false := rfl
@[simp] theorem writing_writeEnd : writing q (writeEnd a : Slot f) = decide (a = q) := by
  simp [writing, writeEnd, Slot.out]
@[simp] theorem writing_bothEnd : writing q (bothEnd a b : Slot f) = decide (b = q) := by
  simp [writing, bothEnd, Slot.out]

end Ends

theorem single_readEnd (q : Ring) : Single (readEnd q : Slot f) := .inr ⟨rfl, by simp [readEnd]⟩
theorem single_writeEnd (q : Ring) : Single (writeEnd q : Slot f) := .inr ⟨rfl, by simp [writeEnd]⟩
theorem single_bothEnd (a b : Ring) : Single (bothEnd a b : Slot f) := .inr ⟨rfl, fun _ => ⟨rfl, rfl⟩⟩

theorem free_with {pipe back : Option Ring} {write : Bool} (free : isFree slot = true) :
    ({ slot with pipe := pipe, back := back, write := write } : Slot f) =
      ⟨none, none, pipe, back, write⟩ := by
  simp only [isFree, vacant, Bool.and_eq_true, Option.isNone_iff_eq_none] at free
  simp [free]

theorem Owed.fresh (owed : Owed t extra) {q : Ring} (free : freeRing t q = true) :
    Owed (freshRing t q) (readEnd q :: writeEnd q :: extra) := by
  simp only [freeRing, decide_eq_true_eq] at free
  constructor
  · intro i
    simpa [freshRing, setPipe] using owed.files i
  · intro p
    have before := owed.readers p
    by_cases same : p = q
    · subst same
      simp [freshRing, setPipe]
      omega
    · simpa [freshRing, setPipe, same, Ne.symm same] using before
  · intro p
    have before := owed.writers p
    by_cases same : p = q
    · subst same
      simp [freshRing, setPipe]
      omega
    · simpa [freshRing, setPipe, same, Ne.symm same] using before
  · exact owed.single

theorem filter_pair {size : Nat} {test : Fin size → Bool} {a b : Fin size} {rest : List (Fin size)}
    (found : (List.finRange size).filter test = a :: b :: rest) :
    test a = true ∧ test b = true ∧ a ≠ b := by
  have first : a ∈ (List.finRange size).filter test := by simp [found]
  have second : b ∈ (List.finRange size).filter test := by simp [found]
  have nodup := (List.nodup_finRange size).filter test
  rw [found] at nodup
  refine ⟨(List.mem_filter.mp first).2, (List.mem_filter.mp second).2, ?_⟩
  rintro rfl
  simp at nodup

theorem place_two {t' : Table n k f} {first second : Slot f} {a b : Pid n × Fin k}
    (owed : Owed t' (first :: second :: extra)) (same : t'.paths = t.paths)
    (single : Single first) (single' : Single second) (freeA : isFree (t.paths a) = true)
    (freeB : isFree (t.paths b) = true) (different : b ≠ a) :
    Owed (setSlot (setSlot t' a first) b second) extra ∧
      Spares t (setSlot (setSlot t' a first) b second) := by
  have placed : Owed (setSlot t' a first) (second :: extra) :=
    owed.place single (by rw [same]; exact freeA)
  have still : isFree ((setSlot t' a first).paths b) = true := by
    simpa [setSlot, different, same] using freeB
  refine ⟨placed.place single' still, ?_⟩
  intro other occupied
  simp [setSlot, ne_of_free occupied freeA, ne_of_free occupied freeB, same]

theorem pipe_owed (owed : Owed t extra) (owner : Int) :
    Owed (pipe t owner).1 extra ∧ Spares t (pipe t owner).1 := by
  unfold pipe
  split
  · exact ⟨owed, fun _ _ => rfl⟩
  · rename_i pid _
    split
    · rename_i q r w rest unused found
      obtain ⟨vacantR, vacantW, different⟩ := filter_pair found
      have ring : freeRing t q = true := List.find?_some unused
      have freeR := free_of_vacant (owed.single (pid, r)) vacantR
      have freeW := free_of_vacant (owed.single (pid, w)) vacantW
      have other : (pid, w) ≠ (pid, r) := by simp [Ne.symm different]
      have slotR : ({ (freshRing t q).paths (pid, r) with
          pipe := some q, back := none, write := false } : Slot f) = readEnd q := free_with freeR
      have slotW : ({ (setSlot (freshRing t q) (pid, r) (readEnd q)).paths (pid, w) with
          pipe := some q, back := none, write := true } : Slot f) = writeEnd q :=
        free_with (by simpa [setSlot, freshRing, setPipe, other] using freeW)
      dsimp only
      rw [slotR, slotW]
      exact place_two (owed.fresh ring) rfl (single_readEnd q) (single_writeEnd q) freeR freeW other
    · exact ⟨owed, fun _ _ => rfl⟩

theorem pipepair_owed (owed : Owed t extra) (owner : Int) :
    Owed (pipepair t owner).1 extra ∧ Spares t (pipepair t owner).1 := by
  unfold pipepair
  split
  · exact ⟨owed, fun _ _ => rfl⟩
  · rename_i pid _
    split
    · rename_i a b _ p0 p1 _ rings found
      obtain ⟨freeA, freeB, apart⟩ := filter_pair rings
      obtain ⟨free0, free1, different⟩ := filter_pair found
      have other : (pid, p1) ≠ (pid, p0) := by simp [Ne.symm different]
      have slot0 : ({ (freshRing (freshRing t a) b).paths (pid, p0) with
          pipe := some a, back := some b, write := false } : Slot f) = bothEnd a b := free_with free0
      have slot1 : ({ (setSlot (freshRing (freshRing t a) b) (pid, p0) (bothEnd a b)).paths (pid, p1)
          with pipe := some b, back := some a, write := false } : Slot f) = bothEnd b a :=
        free_with (by simpa [setSlot, freshRing, setPipe, other] using free1)
      -- four ends are counted; crossed over they are two slots
      have still : freeRing (freshRing t a) b = true := by
        simpa [freeRing, freshRing, setPipe, Ne.symm apart] using freeB
      have four := (owed.fresh freeA).fresh still
      have two : Owed (freshRing (freshRing t a) b) (bothEnd a b :: bothEnd b a :: extra) := by
        refine four.recount ?_ ?_ ?_
        · simp
        · intro q
          simp only [List.countP_cons, reading_readEnd, reading_writeEnd, reading_bothEnd]
          simp
          omega
        · intro q
          simp only [List.countP_cons, writing_readEnd, writing_writeEnd, writing_bothEnd]
          simp
      dsimp only
      rw [slot0, slot1]
      exact place_two two rfl (single_bothEnd a b) (single_bothEnd b a) free0 free1 other
    · exact ⟨owed, fun _ _ => rfl⟩

theorem addHolder_setSlot (t : Table n k f) (spot : Pid n × Fin k) (slot held : Slot f) :
    addHolder (setSlot t spot slot) held = setSlot (addHolder t held) spot slot := by
  obtain ⟨device, file, pipe, back, write⟩ := held
  cases file <;> cases pipe <;> cases back <;> cases write <;> rfl

theorem copySlot_owed (owed : Owed t extra) (source : Pid n × Fin k) {target : Pid n × Fin k}
    (free : isFree (t.paths target) = true) :
    Owed (copySlot t source target) extra ∧
      ∀ other, other ≠ target → (copySlot t source target).paths other = t.paths other := by
  unfold copySlot
  rw [addHolder_setSlot]
  constructor
  · exact (owed.hold (t.paths source)).place (owed.single source)
      (by rw [addHolder_paths]; exact free)
  · intro other away
    simp [setSlot, away, addHolder_paths]

theorem dup_owed (owed : Owed t extra) (path newPath owner : Int) :
    Owed (dup t path newPath owner).1 extra ∧
      ∀ spot, isFree (t.paths spot) = false → place n k newPath owner ≠ some spot →
        (dup t path newPath owner).1.paths spot = t.paths spot := by
  unfold dup
  split
  · exact ⟨owed, fun _ _ _ => rfl⟩
  · rename_i source here
    split
    · exact ⟨owed, fun _ _ _ => rfl⟩
    · split
      · exact ⟨owed, fun _ _ _ => rfl⟩
      · split
        · split
          · exact ⟨owed, fun _ _ _ => rfl⟩
          · rename_i p found
            have free := firstSlot_some found
            obtain ⟨after, others⟩ := copySlot_owed owed source free
            exact ⟨after, fun spot occupied _ => others spot (ne_of_free occupied free)⟩
        · split
          · exact ⟨owed, fun _ _ _ => rfl⟩
          · rename_i p found
            -- `dup2` closes what was there, so the copy again lands on a free slot
            have target : place n k newPath owner = some (source.1, p) := by
              unfold place at here ⊢
              cases pid : index n owner with
              | none => simp [pid] at here
              | some pid' =>
                cases q : index k path with
                | none => simp [pid, q] at here
                | some q' =>
                  simp only [pid, q, Option.some.injEq] at here
                  simp [found, ← here]
            obtain ⟨closed, free, others⟩ := close_owed owed newPath owner
            obtain ⟨after, others'⟩ := copySlot_owed closed source (free _ target)
            refine ⟨after, ?_⟩
            intro spot _ away
            rw [others' spot (fun same => away (by rw [target, same])), others spot away]

theorem inheritPaths_owed (parent child : Pid n) (visited : List (Fin k)) (nodup : visited.Nodup)
    (owed : Owed t extra) (free : ∀ p ∈ visited, isFree (t.paths (child, p)) = true) :
    Owed (visited.foldl (inheritPath parent child) t) extra ∧
      ∀ other, (∀ p ∈ visited, other ≠ (child, p)) →
        (visited.foldl (inheritPath parent child) t).paths other = t.paths other := by
  induction visited generalizing t with
  | nil => exact ⟨owed, fun _ _ => rfl⟩
  | cons p rest ih =>
    obtain ⟨notRest, nodupRest⟩ := List.nodup_cons.mp nodup
    obtain ⟨after, others⟩ := copySlot_owed owed (parent, p) (free p List.mem_cons_self)
    have stillFree : ∀ q ∈ rest, isFree ((inheritPath parent child t p).paths (child, q)) = true := by
      intro q member
      have away : (child, q) ≠ (child, p) := by
        intro same
        exact notRest ((Prod.mk.inj same).2 ▸ member)
      have same : (inheritPath parent child t p).paths (child, q) = t.paths (child, q) :=
        others _ away
      rw [same]
      exact free q (List.mem_cons_of_mem p member)
    obtain ⟨final, away⟩ := ih nodupRest after stillFree
    refine ⟨final, ?_⟩
    intro other outside
    have later := away other (fun q member => outside q (List.mem_cons_of_mem p member))
    exact later.trans (others other (outside p List.mem_cons_self))

theorem inherit_owed (owed : Owed t extra) (parent child : Int)
    (careful : (index n parent).isSome = true →
      ∀ pid, index n child = some pid → ∀ p, isFree (t.paths (pid, p)) = true) :
    Owed (inherit t parent child) extra ∧ Spares t (inherit t parent child) := by
  unfold inherit
  split
  · rename_i _ _ parentIs childIs
    have known : (index n parent).isSome = true := by rw [parentIs]; rfl
    obtain ⟨final, away⟩ := inheritPaths_owed _ _ (List.finRange k) (List.nodup_finRange k) owed
      (fun p _ => careful known _ childIs p)
    refine ⟨final, ?_⟩
    intro spot occupied
    apply away
    intro p _
    exact ne_of_free occupied (careful known _ childIs p)
  · exact ⟨owed, fun _ _ => rfl⟩

theorem fill_counts (q : Pipe) (bytes : List Byte) :
    (fill q bytes).1.readers = q.readers ∧ (fill q bytes).1.writers = q.writers := by
  induction bytes generalizing q with
  | nil => exact ⟨rfl, rfl⟩
  | cons byte rest ih =>
    unfold fill
    split
    · exact ih _
    · exact ⟨rfl, rfl⟩

theorem drain_counts (q : Pipe) (len : Nat) :
    (drain q len).1.readers = q.readers ∧ (drain q len).1.writers = q.writers := by
  induction len generalizing q with
  | zero => exact ⟨rfl, rfl⟩
  | succ len ih =>
    unfold drain
    split
    · exact ⟨rfl, rfl⟩
    · exact ih _

theorem setPipe_owed (owed : Owed t extra) {q : Ring} {pipe : Pipe}
    (readers : pipe.readers = (t.pipes q).readers) (writers : pipe.writers = (t.pipes q).writers) :
    Owed (setPipe t q pipe) extra := by
  refine ⟨owed.files, ?_, ?_, owed.single⟩
  · intro p
    by_cases same : p = q
    · subst same
      simpa [setPipe, readers] using owed.readers p
    · simpa [setPipe, same] using owed.readers p
  · intro p
    by_cases same : p = q
    · subst same
      simpa [setPipe, writers] using owed.writers p
    · simpa [setPipe, same] using owed.writers p

theorem pipeWrite_owed (owed : Owed t extra) (spot : Pid n × Fin k) (bytes : List Byte) :
    Owed (pipeWrite t spot bytes).1 extra ∧ (pipeWrite t spot bytes).1.paths = t.paths := by
  unfold pipeWrite
  split
  · exact ⟨owed, rfl⟩
  · split
    · exact ⟨owed, rfl⟩
    · obtain ⟨readers, writers⟩ := fill_counts (t.pipes _) bytes
      exact ⟨setPipe_owed owed readers writers, rfl⟩

theorem pipeRead_owed (owed : Owed t extra) (spot : Pid n × Fin k) (len : Nat) :
    Owed (pipeRead t spot len).1 extra ∧ (pipeRead t spot len).1.paths = t.paths := by
  unfold pipeRead
  split
  · exact ⟨owed, rfl⟩
  · obtain ⟨readers, writers⟩ := drain_counts (t.pipes _) len
    exact ⟨setPipe_owed owed readers writers, rfl⟩

def Careful (t : Table n k f) : Op → Prop
  | .inherit parent child => (index n parent).isSome = true →
      ∀ pid, index n child = some pid → ∀ p, isFree (t.paths (pid, p)) = true
  | .openAs name opens owner path => opens = true → name ∈ t.devices →
      ∀ spot, place n k path owner = some spot → isFree (t.paths spot) = true
  | _ => True

instance careful_decidable (t : Table n k f) : (op : Op) → Decidable (Careful t op)
  | .inherit parent child => inferInstanceAs (Decidable ((index n parent).isSome = true →
      ∀ pid, index n child = some pid → ∀ p, isFree (t.paths (pid, p)) = true))
  | .openAs name opens owner path => inferInstanceAs (Decidable (opens = true → name ∈ t.devices →
      ∀ spot, place n k path owner = some spot → isFree (t.paths spot) = true))
  | .addDescriptor .. | .openDevice .. | .openFile .. | .pipe .. | .pipepair .. | .dup ..
  | .close .. | .closeAll .. | .write .. | .read .. => isTrue trivial

def Releases (n k : Nat) (spot : Pid n × Fin k) : Op → Prop
  | .close path owner => place n k path owner = some spot
  | .closeAll owner => index n owner = some spot.1
  | .dup _ newPath owner => place n k newPath owner = some spot
  | _ => False

theorem step_owed (owed : Owed t extra) {op : Op} (careful : Careful t op) :
    Owed (step t op) extra ∧ ∀ spot, isFree (t.paths spot) = false → ¬ Releases n k spot op →
      (step t op).paths spot = t.paths spot := by
  cases op with
  | addDescriptor name configured =>
    obtain ⟨after, same⟩ := addDescriptor_owed owed name configured
    exact ⟨after, fun spot _ _ => by rw [step, same]⟩
  | openDevice name opens owner =>
    obtain ⟨after, spares⟩ := openDevice_owed owed name opens owner
    exact ⟨after, fun spot occupied _ => spares spot occupied⟩
  | openAs name opens owner path =>
    obtain ⟨after, spares⟩ := openAs_owed owed name opens owner path careful
    exact ⟨after, fun spot occupied _ => spares spot occupied⟩
  | openFile path owner =>
    obtain ⟨after, spares⟩ := openFile_owed owed path owner
    exact ⟨after, fun spot occupied _ => spares spot occupied⟩
  | pipe owner =>
    obtain ⟨after, spares⟩ := pipe_owed owed owner
    exact ⟨after, fun spot occupied _ => spares spot occupied⟩
  | pipepair owner =>
    obtain ⟨after, spares⟩ := pipepair_owed owed owner
    exact ⟨after, fun spot occupied _ => spares spot occupied⟩
  | dup path newPath owner => exact dup_owed owed path newPath owner
  | close path owner =>
    obtain ⟨after, _, others⟩ := close_owed owed path owner
    exact ⟨after, fun spot _ away => others spot away⟩
  | inherit parent child =>
    obtain ⟨after, spares⟩ := inherit_owed owed parent child careful
    exact ⟨after, fun spot occupied _ => spares spot occupied⟩
  | closeAll owner =>
    obtain ⟨after, _, others⟩ := closeAll_owed owed owner
    exact ⟨after, fun spot _ away => others spot away⟩
  | write path owner bytes =>
    unfold step
    dsimp only
    split
    · obtain ⟨after, same⟩ := pipeWrite_owed owed _ bytes
      exact ⟨after, fun spot _ _ => by rw [same]⟩
    · exact ⟨owed, fun _ _ _ => rfl⟩
  | read path owner len =>
    unfold step
    dsimp only
    split
    · obtain ⟨after, same⟩ := pipeRead_owed owed _ len
      exact ⟨after, fun spot _ _ => by rw [same]⟩
    · exact ⟨owed, fun _ _ _ => rfl⟩

end Steps

def run (n k f : Nat) (ops : List Op) : Table n k f := ops.foldl step (ioInit n k f)

theorem init_exact (n k f : Nat) : Exact (ioInit n k f) := by
  have nothing : ∀ test : Slot f → Bool, test .empty = false →
      tally test (ioInit n k f).paths = 0 := by
    intro test none
    rw [tally_eq_zero]
    intro spot
    exact none
  refine ⟨?_, ?_, ?_, fun _ => .inl rfl⟩
  · intro i
    rw [nothing (named i) rfl]
    rfl
  · intro q
    rw [nothing (reading q) rfl]
    rfl
  · intro q
    rw [nothing (writing q) rfl]
    rfl

theorem run_exact {ops : List Op} (careful : Along step Careful (ioInit n k f) ops) :
    Exact (run n k f ops) :=
  along_invariant Exact careful (init_exact n k f) (fun _ _ _ careful exact => (step_owed exact careful).1)

/-- As long as no call writes over a slot that is in use, every count is the number
of slots it counts, a slot in use holds one thing, and the next call leaves it
alone unless it is the call that lets go of it. -/
theorem run_accounts_exact {ops : List Op} (careful : Along step Careful (ioInit n k f) ops) :
    (∀ i, ((run n k f ops).files i).refs = tally (named i) (run n k f ops).paths) ∧
    (∀ q, ((run n k f ops).pipes q).readers = tally (reading q) (run n k f ops).paths) ∧
    (∀ q, ((run n k f ops).pipes q).writers = tally (writing q) (run n k f ops).paths) ∧
    (∀ spot, isFree ((run n k f ops).paths spot) = true ∨ ((run n k f ops).paths spot).names = 1) ∧
    ∀ op, Careful (run n k f ops) op → ∀ spot, isFree ((run n k f ops).paths spot) = false →
      ¬ Releases n k spot op →
      (step (run n k f ops) op).paths spot = (run n k f ops).paths spot := by
  have exact := run_exact careful
  refine ⟨exact.files, exact.readers, exact.writers, ?_, ?_⟩
  · intro spot
    rcases exact.single spot with free | ⟨one, _⟩
    · exact Or.inl free
    · exact Or.inr one
  · intro op allowed
    exact (step_owed exact allowed).2

/-- A shell makes a pipe, hands its paths to a child, which moves the reading end to
its standard input and makes a pair of its own. -/
def pipeline : List Op :=
  [.addDescriptor "term" true, .openAs "term" true 1 0, .pipe 1, .openFile [0x2f, 0x66] 1,
    .inherit 1 2, .dup 1 0 2, .pipepair 2, .closeAll 1]

theorem run_accounts_exact_pipeline :
    Along step Careful (ioInit 3 8 2) pipeline ∧
      ((run 3 8 2 pipeline).pipes 0).readers = tally (reading 0) (run 3 8 2 pipeline).paths :=
  have careful : Along step Careful (ioInit 3 8 2) pipeline := by decide
  ⟨careful, (run_accounts_exact careful).2.1 0⟩

/-- A child that is already running opens a pipe, and is then given its parent's paths
over it. The ring keeps a reader and a writer that no slot stands for. -/
theorem late_inherit_leaks :
    ((run 3 4 2 [.pipe 2, .inherit 1 2]).pipes 0).readers = 1 ∧
      (∀ spot, reading 0 ((run 3 4 2 [.pipe 2, .inherit 1 2]).paths spot) = false) ∧
      isFree ((run 3 4 2 [.pipe 2]).paths (2, 0)) = false ∧
      isFree ((run 3 4 2 [.pipe 2, .inherit 1 2]).paths (2, 0)) = true ∧
      ((run 3 4 2 [.pipe 2, .inherit 1 2]).pipes 0).readers ≠
        tally (reading 0) (run 3 4 2 [.pipe 2, .inherit 1 2]).paths := by
  have none : ∀ spot, reading 0 ((run 3 4 2 [.pipe 2, .inherit 1 2]).paths spot) = false := by decide
  refine ⟨by decide, none, by decide, by decide, ?_⟩
  rw [(tally_eq_zero _ _).mpr none]
  decide

end Accounts

end Ubiqos.Io
