import Ubiqos.Wasm.Sandbox
import Ubiqos.Lib.Along

/-!
Files that a guest unlinks while they are open. The host keeps such a file until
its descriptor is closed, by a mark on the names it remembers. The kernel's side
is a card of files, where what a name means is its `place`, however it is spelt.
-/

namespace Ubiqos.Wasm

open Function Guarded.Program

/-- The names of a machine. Nothing is made or removed at a directory or a device. -/
structure Card (Place : Type) where
  place : Text → Place
  directory : Place → Bool
  device : Place → Bool
  null : device (place (ascii "/dev/null")) = true
  cwd : Text
  cwdEnds : 0 ∉ cwd

inductive Handle (Place : Type)
  | file (place : Place) (id : Nat)
  | other
  deriving DecidableEq

/-- Each file has a number of its own. `answers` are the descriptors that the kernel
will hand out. -/
structure Disk (Place : Type) where
  files : Place → Option Nat
  opened : Int → Option (Handle Place)
  next : Nat
  answers : List Int

section Kernel
variable {Place : Type} [DecidableEq Place] (card : Card Place)

def Card.fixed (p : Place) : Bool := card.directory p || card.device p

def Disk.opens (d : Disk Place) (name : Text) (flags : Nat) : Int × Disk Place :=
  match d.answers with
  | [] => (-1, d)
  | fd :: rest =>
    let d := { d with answers := rest }
    if fd < 0 ∨ (d.opened fd).isSome then (-1, d)
    else if card.device (card.place name) then
      (fd, { d with opened := update d.opened fd (some .other) })
    else if card.directory (card.place name) then (-1, d)
    else
      match d.files (card.place name) with
      | some id => (fd, { d with opened := update d.opened fd (some (.file (card.place name) id)) })
      | none =>
        if flags &&& 0x40 = 0 then (-1, d)
        else
          (fd, { d with
            files := update d.files (card.place name) (some d.next)
            opened := update d.opened fd (some (.file (card.place name) d.next))
            next := d.next + 1 })

def Disk.close (d : Disk Place) (fd : Int) : Int × Disk Place :=
  if (d.opened fd).isSome then (0, { d with opened := update d.opened fd none }) else (-1, d)

def Disk.remove (d : Disk Place) (name : Text) : Int × Disk Place :=
  if card.fixed (card.place name) ∨ d.files (card.place name) = none then (-1, d)
  else (0, { d with files := update d.files (card.place name) none })

def Disk.stat (d : Disk Place) (name : Text) : Option (Nat × Nat) :=
  if card.directory (card.place name) then some (attrDirectory, 0)
  else if card.device (card.place name) ∨ (d.files (card.place name)).isSome then some (0, 0)
  else none

def Card.kernel : Kernel (Disk Place) where
  opens := Disk.opens card
  close := Disk.close
  remove := Disk.remove card
  stat := Disk.stat card
  getcwd _ := card.cwd
  write d _ bytes := (bytes.length, d)
  read d _ _ := (none, d)
  readFits _ _ _ _ member := by cases member
  random d _ := (none, d)
  randomFits _ _ _ member := by cases member
  seek d _ _ _ := (0, d)
  dirAt _ _ _ := none
  ticks d := (0, d)
  sleep d _ := d
  font _ := none

end Kernel

def ends {κ : Type} (m : Wasi κ α) (h : Host κ) : Except Stop α × Host κ := ((m h).1, (m h).2.1)

section Runs
variable {Place : Type} [DecidableEq Place] (card : Card Place) (room : Room)

/-- What a guest does, with its memory at that time. After `exit` another program
may be started. -/
inductive Step
  | pathOpen (mem : Nat → Byte) (dirfd path pathLen oflags : U32) (rightsBase : BitVec 64)
      (fdflags outFd : U32)
  | pathUnlinkFile (mem : Nat → Byte) (dirfd path pathLen : U32)
  | fdClose (fd : U32)
  | exit

abbrev Guest (Place : Type) := Host (Disk Place)

def noPaths : Fin maxTracked → Tracked := fun _ => ⟨0, false, false, []⟩

def leave (h : Guest Place) : Guest Place :=
  let swept := sweepDoomed card.kernel h
  { swept with paths := noPaths, kernel := { swept.kernel with opened := fun _ => none } }

def named (h : Guest Place) (mem : Nat → Byte) (dirfd path pathLen : U32) : Option Text :=
  if path.toNat + pathLen.toNat ≤ room.size ∧ dirfd.toNat = preopenFd then
    pathName card.kernel h.kernel ((List.range pathLen.toNat).map fun i => mem (moved path.toNat 0 + i)) 80
  else none

/-- The guest's files, and the files it has unlinked. -/
abbrev Traced (Place : Type) := Guest Place × List Nat

def move (s : Traced Place) : Step → Traced Place
  | .pathOpen mem dirfd path pathLen oflags rightsBase fdflags outFd =>
    ((ends (pathOpen card.kernel room.size dirfd path pathLen oflags rightsBase fdflags outFd)
      { s.1 with mem := mem }).2, s.2)
  | .pathUnlinkFile mem dirfd path pathLen =>
    let done := ends (pathUnlinkFile card.kernel room.size dirfd path pathLen)
      { s.1 with mem := mem }
    let gone :=
      match named card room s.1 mem dirfd path pathLen, done.1 with
      | some name, .error (.returned 0) => s.1.kernel.files (card.place name)
      | _, _ => none
    (done.2, gone.toList ++ s.2)
  | .fdClose fd => ((ends (fdClose card.kernel fd) s.1).2, s.2)
  | .exit => (leave card s.1, s.2)

def run (disk : Disk Place) (steps : List Step) : Traced Place :=
  steps.foldl (move card room) (⟨fun _ => 0, noPaths, disk, none⟩, [])

def Known (h : Guest Place) (name : Text) : Prop :=
  card.fixed (card.place name) = true ∨
    ∀ fd, (∃ i, (h.paths i).fd = fd ∧ fd ≠ 0 ∧ (h.paths i).name = name) ↔
      ∃ id, h.kernel.opened fd = some (.file (card.place name) id)

/-- What is opened is no file that was unlinked; what is unlinked is open under this
name alone; what a close removes is open on that descriptor alone. -/
def Allowed (s : Traced Place) : Step → Prop
  | .pathOpen mem dirfd path pathLen _ _ _ outFd =>
    outFd.toNat + 4 ≤ room.size →
      ∀ name ∈ named card room s.1 mem dirfd path pathLen,
        ∀ id ∈ s.1.kernel.files (card.place name), id ∉ s.2
  | .pathUnlinkFile mem dirfd path pathLen =>
    ∀ name ∈ named card room s.1 mem dirfd path pathLen, Known card s.1 name
  | .fdClose fd =>
    ∀ t ∈ trackedAs s.1 fd.toInt, t.doomed = true →
      ∀ id ∈ s.1.kernel.files (card.place t.name), fd.toInt ≠ 0 ∧
        ∀ other, other ≠ fd.toInt →
          s.1.kernel.opened other ≠ some (.file (card.place t.name) id)
  | .exit => True

end Runs

section Ends
variable {κ : Type} {size : Nat} {source : Source} {p d n : Nat}

theorem ends_finish (code : Nat) (h : Host κ) :
    ends (finish code : Wasi κ α) h = (.error (.returned code), h) := rfl

theorem ends_act (g : Host κ → β × Host κ) (f : β → Wasi κ α) (h : Host κ) :
    ends (act g >>= f) h = ends (f (g h).1) (g h).2 := rfl

theorem ends_asks (g : κ → β × κ) (f : β → Wasi κ α) (h : Host κ) :
    ends (asks g >>= f) h = ends (f (g h.kernel).1) { h with kernel := (g h.kernel).2 } := rfl

theorem ends_fetch (f : Text → Wasi κ α) (h : Host κ) :
    ends (fetch source p d n >>= f) h =
      ends (f ((List.range n).map fun i => h.mem (moved p d + i))) h := rfl

theorem ends_storeNumber (v : Nat) (f : Unit → Wasi κ α) (h : Host κ) :
    ends (storeNumber source p d n v >>= f) h =
      ends (f ()) { h with mem := overlay h.mem (moved p d) (bytesOf n v) } := rfl

theorem ends_checkMem (f : Unit → Wasi κ α) (h : Host κ) :
    ends (checkMem size source p n >>= f) h =
      if p + n ≤ size then ends (f ()) h else (.error .trapped, h) := by
  by_cases fits : p + n ≤ size
  · simp [ends, bind, andThen, checkMem, check, fits]
  · simp [ends, bind, andThen, checkMem, check, fits]

theorem ends_early {c : Prop} [Decidable c] (code : Nat) (f : Unit → Wasi κ α) (h : Host κ) :
    ends (if c then finish code >>= f else f ()) h =
      if c then (.error (.returned code), h) else ends (f ()) h := by
  split <;> rfl

end Ends

section Calls
variable {Place : Type} [DecidableEq Place] {card : Card Place} {room : Room} {s : Traced Place}
variable {mem : Nat → Byte} {dirfd path pathLen : U32} {name : Text}

theorem unlink_unnamed (unnamed : named card room s.1 mem dirfd path pathLen = none) :
    let t := move card room s (.pathUnlinkFile mem dirfd path pathLen)
    t.1.paths = s.1.paths ∧ t.1.kernel = s.1.kernel ∧ t.2 = s.2 := by
  have done : (ends (pathUnlinkFile card.kernel room.size dirfd path pathLen)
      { s.1 with mem := mem }).2 = { s.1 with mem := mem } := by
    unfold pathUnlinkFile
    rw [ends_checkMem]
    split
    · rw [ends_early]
      split
      · rfl
      · rename_i fits root
        rw [named, if_pos ⟨fits, not_not.mp root⟩] at unnamed
        rw [ends_fetch, ends_act]
        simp only [unnamed]
        rfl
    · rfl
  simp [move, done, unnamed]

theorem unlink_named (isNamed : named card room s.1 mem dirfd path pathLen = some name) :
    let t := move card room s (.pathUnlinkFile mem dirfd path pathLen)
    t.1.paths = (doom name s.1).2.paths ∧
      if (doom name s.1).1 then
        t.1.kernel = s.1.kernel ∧ t.2 = (s.1.kernel.files (card.place name)).toList ++ s.2
      else t.1.kernel = (Disk.remove card s.1.kernel name).2 ∧
        t.2 = (if (Disk.remove card s.1.kernel name).1 < 0 then []
          else (s.1.kernel.files (card.place name)).toList) ++ s.2 := by
  have call : ends (pathUnlinkFile card.kernel room.size dirfd path pathLen)
      { s.1 with mem := mem } =
      if (doom name s.1).1 then
        (.error (.returned ok), { (doom name s.1).2 with mem := mem })
      else (.error (.returned (if (Disk.remove card s.1.kernel name).1 < 0 then enoent else ok)),
        { (doom name s.1).2 with mem := mem, kernel := (Disk.remove card s.1.kernel name).2 }) := by
    unfold pathUnlinkFile
    unfold named at isNamed
    split at isNamed
    · rename_i both
      rw [ends_checkMem, if_pos both.1, ends_early, if_neg (not_not.mpr both.2), ends_fetch, ends_act]
      simp only [isNamed]
      rw [ends_act, ends_early]
      rfl
    · cases isNamed
  simp only [move, call, isNamed]
  split
  · exact ⟨rfl, rfl, rfl⟩
  · by_cases missing : (Disk.remove card s.1.kernel name).1 < 0
    · simp only [if_pos missing]
      exact ⟨trivial, trivial, rfl⟩
    · simp only [if_neg missing]
      exact ⟨trivial, trivial, rfl⟩

/-- What a name is opened on: a directory or a device, a file, or a new file. -/
inductive Found (card : Card Place) (before after : Disk Place) (p : Place) : Handle Place → Prop
  | other (files : after.files = before.files) (next : after.next = before.next) :
      Found card before after p .other
  | kept (id : Nat) (there : before.files p = some id) (files : after.files = before.files)
      (next : after.next = before.next) : Found card before after p (.file p id)
  | made (absent : before.files p = none) (free : card.fixed p = false)
      (files : after.files = update before.files p (some before.next))
      (next : after.next = before.next + 1) : Found card before after p (.file p before.next)

variable (card) in
theorem opens_cases (d : Disk Place) (name : Text) (flags : Nat) :
    let r := d.opens card name flags
    (r.1 < 0 ∧ r.2.files = d.files ∧ r.2.opened = d.opened ∧ r.2.next = d.next) ∨
      (0 ≤ r.1 ∧ d.opened r.1 = none ∧ ∃ handle, r.2.opened = update d.opened r.1 (some handle) ∧
        Found card d r.2 (card.place name) handle ∧
        (card.device (card.place name) = true → handle = .other)) := by
  unfold Disk.opens
  cases d.answers with
  | nil => exact .inl ⟨by simp, rfl, rfl, rfl⟩
  | cons fd rest =>
    by_cases refused : fd < 0 ∨ (d.opened fd).isSome
    · exact .inl (by simp [refused])
    simp only [if_neg refused]
    have free : 0 ≤ fd ∧ d.opened fd = none := by simpa using refused
    by_cases device : card.device (card.place name) = true
    · simp only [if_pos device]
      exact .inr ⟨free.1, free.2, .other, rfl, .other rfl rfl, fun _ => rfl⟩
    simp only [if_neg device]
    by_cases directory : card.directory (card.place name) = true
    · exact .inl (by simp [directory])
    simp only [if_neg directory]
    cases there : d.files (card.place name) with
    | some id =>
      exact .inr ⟨free.1, free.2, .file _ id, rfl, .kept id there rfl rfl,
        fun isDevice => absurd isDevice device⟩
    | none =>
      by_cases plain : flags &&& 0x40 = 0
      · exact .inl (by simp [plain])
      · simp only [if_neg plain]
        exact .inr ⟨free.1, free.2, .file _ d.next, rfl,
          .made there (by simp [Card.fixed, device, directory]) rfl rfl,
          fun isDevice => absurd isDevice device⟩

theorem rememberKind_kernel {κ : Type} (fd : Int) (name : Text) (dir : Bool) (h : Host κ) :
    (rememberKind fd name dir h).kernel = h.kernel := by
  unfold rememberKind
  split <;> rfl

theorem rememberKind_paths {κ : Type} (fd : Int) (name : Text) (dir : Bool) (h : Host κ) (k : κ)
    (mem : Nat → Byte) :
    (rememberKind fd name dir { h with kernel := k, mem := mem }).paths =
      (rememberKind fd name dir h).paths := by
  simp only [rememberKind]
  split <;> rfl

variable (card) in
theorem opening_ends (h : Guest Place) (mem : Nat → Byte) (opened name : Text) (flags code : Nat)
    (dir : Bool) (out : Nat) :
    let r := Disk.opens card h.kernel opened flags
    let t := (ends (do
      let fd ← asks fun k => card.kernel.opens k opened flags
      if fd < 0 then finish code
      act fun h => ((), rememberKind fd name dir h)
      storeNumber (.argument 8) out 0 4 fd.toNat
      finish ok : Wasi (Disk Place) Unit) { h with mem := mem }).2
    t.kernel = r.2 ∧ t.paths = if r.1 < 0 then h.paths else (rememberKind r.1 name dir h).paths := by
  intro r
  rw [ends_asks, ends_early]
  by_cases failed : (card.kernel.opens h.kernel opened flags).1 < 0
  · rw [if_pos failed]
    exact ⟨rfl, (if_pos failed).symm⟩
  · rw [if_neg failed, ends_act, ends_storeNumber, ends_finish]
    exact ⟨rememberKind_kernel ..,
      (rememberKind_paths _ _ _ h _ mem).trans (if_neg failed).symm⟩

structure Gained (card : Card Place) (before after : Guest Place) (name : Text) : Prop where
  made : ∃ fd dir handle, 0 ≤ fd ∧ before.kernel.opened fd = none ∧
    after.paths = (rememberKind fd name dir before).paths ∧
    after.kernel.opened = update before.kernel.opened fd (some handle) ∧
    Found card before.kernel after.kernel (card.place name) handle

structure Same (before after : Guest Place) : Prop where
  paths : after.paths = before.paths
  files : after.kernel.files = before.kernel.files
  opened : after.kernel.opened = before.kernel.opened
  next : after.kernel.next = before.kernel.next

theorem gained_of_opened {h after : Guest Place} {opened name : Text} {flags : Nat} {dir : Bool}
    (kernel : after.kernel = (Disk.opens card h.kernel opened flags).2)
    (paths : after.paths = if (Disk.opens card h.kernel opened flags).1 < 0 then h.paths
      else (rememberKind (Disk.opens card h.kernel opened flags).1 name dir h).paths)
    (means : opened = name ∨ card.device (card.place opened) = true) :
    Same h after ∨ Gained card h after name := by
  rcases opens_cases card h.kernel opened flags with
    ⟨failed, files, open', next⟩ | ⟨positive, fresh, handle, open', found, held⟩
  · rw [if_pos failed] at paths
    exact .inl ⟨paths, by rw [kernel, files], by rw [kernel, open'], by rw [kernel, next]⟩
  · rw [if_neg (by omega)] at paths
    have known : Found card h.kernel after.kernel (card.place name) handle := by
      rw [kernel]
      rcases means with rfl | device
      · exact found
      · cases held device
        cases found with
        | other files next => exact .other files next
    exact .inr ⟨_, dir, handle, positive, fresh, paths, by rw [kernel, open'], known⟩

variable (card room s mem dirfd path pathLen) in
theorem open_cases (oflags : U32) (rightsBase : BitVec 64) (fdflags outFd : U32) :
    let t := move card room s (.pathOpen mem dirfd path pathLen oflags rightsBase fdflags outFd)
    t.2 = s.2 ∧ (Same s.1 t.1 ∨ ∃ name, named card room s.1 mem dirfd path pathLen = some name ∧
      outFd.toNat + 4 ≤ room.size ∧ Gained card s.1 t.1 name) := by
  refine ⟨rfl, ?_⟩
  simp only [move]
  unfold pathOpen
  rw [ends_checkMem]
  by_cases fits : path.toNat + pathLen.toNat ≤ room.size
  case neg => exact .inl (by simpa [fits] using ⟨rfl, rfl, rfl, rfl⟩)
  rw [if_pos fits, ends_checkMem]
  by_cases answered : outFd.toNat + 4 ≤ room.size
  case neg => exact .inl (by simpa [answered] using ⟨rfl, rfl, rfl, rfl⟩)
  rw [if_pos answered, ends_early]
  by_cases root : dirfd.toNat ≠ preopenFd
  case pos => exact .inl (by simpa [root] using ⟨rfl, rfl, rfl, rfl⟩)
  rw [if_neg root, ends_fetch, ends_act]
  have meant : named card room s.1 mem dirfd path pathLen = _ := if_pos ⟨fits, not_not.mp root⟩
  cases isNamed : named card room s.1 mem dirfd path pathLen with
  | none =>
    rw [isNamed] at meant
    simp only [← meant]
    exact .inl ⟨rfl, rfl, rfl, rfl⟩
  | some name =>
    rw [isNamed] at meant
    simp only [← meant]
    rw [ends_act]
    by_cases directory : isDirectory card.kernel s.1.kernel name = true
    · rw [if_pos directory]
      have opening := opening_ends card s.1 mem (ascii "/dev/null") name 0 ebadf true
        outFd.toNat
      exact (gained_of_opened opening.1 opening.2 (.inr card.null)).imp_right
        fun gained => ⟨name, rfl, answered, gained⟩
    · rw [if_neg directory]
      have opening := opening_ends card s.1 mem name name
        (openFlags oflags rightsBase fdflags) enoent false outFd.toNat
      exact (gained_of_opened opening.1 opening.2 (.inl rfl)).imp_right
        fun gained => ⟨name, rfl, answered, gained⟩

def victim (h : Guest Place) (fd : U32) : Text :=
  if isDoomed h fd.toInt then ((nameOf h fd.toInt).getD []).take 47 else []

variable (card room s) in
theorem close_step (fd : U32) :
    let t := move card room s (.fdClose fd)
    t.2 = s.2 ∧ t.1.paths = (forget fd.toInt s.1).paths ∧
      t.1.kernel = if victim s.1 fd ≠ [] then
        (Disk.remove card (s.1.kernel.close fd.toInt).2 (victim s.1 fd)).2
      else (s.1.kernel.close fd.toInt).2 := by
  refine ⟨rfl, ?_⟩
  simp only [move]
  unfold fdClose
  rw [ends_act, ends_act, ends_asks]
  change (ends (if victim s.1 fd ≠ [] then _ else _) _).2.paths = _ ∧
    (ends (if victim s.1 fd ≠ [] then _ else _) _).2.kernel = _
  by_cases removes : victim s.1 fd = []
  · rw [if_neg (not_not.mpr removes), if_neg (not_not.mpr removes)]
    exact ⟨rfl, rfl⟩
  · rw [if_pos removes, if_pos removes]
    exact ⟨rfl, rfl⟩

end Calls

end Ubiqos.Wasm
