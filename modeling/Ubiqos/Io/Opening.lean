import Mathlib.Data.List.TakeWhile
import Ubiqos.Io.Descriptors
import Ubiqos.Tmpfs.Files
import Ubiqos.Fat.Frames

/-!
`UBIQOS_MSG_FS_OPEN` with the volumes behind it. The request looks at the name, the
volume, the kind of file and the flags, truncates by removing the file, and asks for
an open file and a descriptor last.
-/

namespace Ubiqos.Io

open Function

/-- What `open` uses of a `ubiqos_fsops_t`; a null pointer is `none`, and so is the
outcome of a call that does not end. `stat` says of a file whether it is a directory
and how long it is. -/
structure Ops (σ : Type) where
  stat : Option (Text → σ → Option (Option (Bool × U32) × σ))
  remove : Option (Text → σ → Option σ)

/-- The mounted volumes over one store. `holds` is what is in their files, and asking
after a file does not change it. -/
structure Volumes (σ View : Type) where
  ops : Text → Ops σ
  holds : σ → View
  looks : ∀ vol stat, (ops vol).stat = some stat →
    ∀ rest s found t, stat rest s = some (found, t) → holds t = holds s

structure Server (n k f : Nat) (σ : Type) where
  files : Files n k f
  store : σ

section Requests
variable {n k f : Nat} {σ View : Type}

/-- `ops->stat ? ops->stat(rest, &size) : -1`. -/
def statOf (ops : Ops σ) (rest : Text) (store : σ) : Option (Option (Bool × U32) × σ) :=
  match ops.stat with
  | some stat => stat rest store
  | none => some (none, store)

/-- The size that is left. What `remove` answers is not looked at. -/
def truncate (ops : Ops σ) (flags : Nat) (rest : Text) (found : Option (Bool × U32)) (store : σ) :
    Option (U32 × σ) :=
  match ops.remove with
  | some remove =>
    if flags.testBit 9 && found.isSome then (remove rest store).map (fun store => (0, store))
    else some ((found.map (·.2)).getD 0, store)
  | none => some ((found.map (·.2)).getD 0, store)

def attach (s : Server n k f σ) (abs : Text) (owner : Int) (flags : Nat) (size : U32) :
    Server n k f σ × Int :=
  let fd := (openFile s.files.table abs owner).2
  let files := call s.files (.openFile abs owner)
  if fd < 0 then ({ s with files := files }, -1)
  else if flags.testBit 10 && size != 0 then
    match fileAt files.table fd owner with
    | some i => ({ s with files := setPos files i size }, fd)
    | none => ({ s with files := files }, fd)
  else ({ s with files := files }, fd)

def Server.fsOpen (v : Volumes σ View) (s : Server n k f σ) (owner : Int) (name : Text) (flags : Nat) :
    Option (Server n k f σ × Int) :=
  let abs := makeAbs (cwdOf s.files owner) name
  if isSecret abs && flags % 4 != 1 then some (s, fsRefused)
  else
    match vfsSplit s.files.mounted abs with
    | none => some (s, -1)
    | some (vol, rest) =>
      (statOf (v.ops vol) rest s.store).bind fun (found, store) =>
        if found.any (·.1) then some ({ s with store := store }, -1)
        else if found.isNone && !(flags.testBit 6 || flags.testBit 9) then
          some ({ s with store := store }, -1)
        else
          (truncate (v.ops vol) flags rest found store).map fun (size, store) =>
            attach { s with store := store } abs owner flags size

def Untouched (v : Volumes σ View) (s : Server n k f σ) (after : Server n k f σ × Int) : Prop :=
  after.2 < 0 → v.holds after.1.store = v.holds s.store ∧ after.1.files.table = s.files.table

def HasRoom (t : Table n k f) (owner : Int) : Prop :=
  ∃ pid, index n owner = some pid ∧ (∃ i, (t.files i).refs = 0) ∧
    ∃ p, isFree (t.paths (pid, p)) = true

/-- The request passes every look and truncates: the store is `before`, and `after` when
the file has been removed. -/
structure Removes (v : Volumes σ View) (s : Server n k f σ) (owner : Int) (name : Text) (flags : Nat)
    (before after : σ) : Prop where
  admitted : (isSecret (makeAbs (cwdOf s.files owner) name) && flags % 4 != 1) = false
  truncates : flags.testBit 9 = true
  there : ∃ vol rest size remove, vfsSplit s.files.mounted (makeAbs (cwdOf s.files owner) name) =
      some (vol, rest) ∧
    statOf (v.ops vol) rest s.store = some (some (false, size), before) ∧
    (v.ops vol).remove = some remove ∧ remove rest before = some after

variable {v : Volumes σ View} {s : Server n k f σ} {owner : Int} {name : Text} {flags : Nat}

theorem statOf_holds {vol rest : Text} {store after : σ} {found : Option (Bool × U32)}
    (asked : statOf (v.ops vol) rest store = some (found, after)) : v.holds after = v.holds store := by
  cases stat : (v.ops vol).stat with
  | none =>
    simp only [statOf, stat] at asked
    cases asked
    rfl
  | some look =>
    simp only [statOf, stat] at asked
    exact v.looks vol look stat rest store found after asked

theorem openFile_answer (t : Table n k f) (abs : Text) (owner : Int) :
    (HasRoom t owner ∧ 0 ≤ (openFile t abs owner).2) ∨
      (¬ HasRoom t owner ∧ openFile t abs owner = (t, -1)) := by
  cases who : index n owner with
  | none => exact .inr ⟨by simp [HasRoom, who], by simp [openFile, who]⟩
  | some pid =>
    cases unused : (List.finRange f).find? (fun i => (t.files i).refs = 0) with
    | none =>
      refine .inr ⟨?_, by simp [openFile, who, unused]⟩
      rintro ⟨_, _, ⟨i, refs⟩, _⟩
      exact absurd refs (by simpa using List.find?_eq_none.mp unused i (List.mem_finRange i))
    | some i =>
      cases free : firstSlot t pid isFree with
      | none =>
        refine .inr ⟨?_, by simp [openFile, who, unused, free]⟩
        rintro ⟨other, same, _, p, empty⟩
        rw [who, Option.some.injEq] at same
        subst same
        exact absurd empty (by simpa using List.find?_eq_none.mp free p (List.mem_finRange p))
      | some p =>
        refine .inl ⟨⟨pid, who, ⟨i, ?_⟩, p, ?_⟩, by simp [openFile, who, unused, free]⟩
        · simpa using List.find?_some unused
        · exact firstSlot_some free

theorem attach_room (room : HasRoom s.files.table owner) (abs : Text) (size : U32) :
    0 ≤ (attach s abs owner flags size).2 := by
  rcases openFile_answer s.files.table abs owner with ⟨_, granted⟩ | ⟨full, _⟩
  · simp only [attach]
    rw [if_neg (by omega)]
    split
    · split <;> exact granted
    · exact granted
  · exact absurd room full

theorem attach_full (full : ¬ HasRoom s.files.table owner) (abs : Text) (size : U32) :
    (attach s abs owner flags size).2 = -1 ∧ (attach s abs owner flags size).1.store = s.store ∧
      (attach s abs owner flags size).1.files.table = s.files.table := by
  rcases openFile_answer s.files.table abs owner with ⟨room, _⟩ | ⟨_, refused⟩
  · exact absurd room full
  · simp [attach, refused, call, step]

theorem attach_untouched {store : σ} (same : v.holds store = v.holds s.store) (abs : Text) (size : U32) :
    Untouched v s (attach { s with store := store } abs owner flags size) := by
  intro refused
  by_cases room : HasRoom s.files.table owner
  · have granted := @attach_room _ _ _ _ { s with store := store } _ flags room abs size
    omega
  · obtain ⟨_, kept, table⟩ := @attach_full _ _ _ _ { s with store := store } _ flags room abs size
    exact ⟨by rw [kept, same], table⟩

theorem fsOpen_cases {after : Server n k f σ × Int} (answers : s.fsOpen v owner name flags = some after) :
    Untouched v s after ∨ ∃ before store size, Removes v s owner name flags before store ∧
      after = attach { s with store := store } (makeAbs (cwdOf s.files owner) name) owner flags size := by
  simp only [Server.fsOpen] at answers
  split at answers
  · cases answers
    exact .inl fun _ => ⟨rfl, rfl⟩
  · rename_i admitted
    split at answers
    · cases answers
      exact .inl fun _ => ⟨rfl, rfl⟩
    · rename_i vol rest volume
      obtain ⟨⟨found, before⟩, asked, answers⟩ := Option.bind_eq_some_iff.mp answers
      have looked := statOf_holds asked
      simp only at answers
      split at answers
      · cases answers
        exact .inl fun _ => ⟨looked, rfl⟩
      · rename_i file
        split at answers
        · cases answers
          exact .inl fun _ => ⟨looked, rfl⟩
        · obtain ⟨⟨size, store⟩, cut, rfl⟩ := Option.map_eq_some_iff.mp answers
          simp only [truncate] at cut
          split at cut
          · rename_i remove removes
            split at cut
            · rename_i both
              obtain ⟨gone, removed, same⟩ := Option.map_eq_some_iff.mp cut
              cases same
              simp only [Bool.and_eq_true] at both
              obtain ⟨⟨dir, length⟩, rfl⟩ := Option.isSome_iff_exists.mp both.2
              have plain : dir = false := by simpa using file
              subst plain
              exact .inr ⟨before, store, 0, ⟨by simpa using admitted, both.1, vol, rest, length, remove, volume,
                asked, removes, removed⟩, rfl⟩
            · cases cut
              exact .inl (attach_untouched looked _ _)
          · cases cut
            exact .inl (attach_untouched looked _ _)

theorem Removes.answers {before store : σ} (removes : Removes v s owner name flags before store) :
    s.fsOpen v owner name flags = some
      (attach { s with store := store } (makeAbs (cwdOf s.files owner) name) owner flags 0) := by
  obtain ⟨admitted, truncates, vol, rest, size, remove, volume, asked, has, removed⟩ := removes
  simp [Server.fsOpen, admitted, volume, asked, truncate, has, truncates, removed]

theorem fsOpen_untouched_iff :
    (∀ after, s.fsOpen v owner name flags = some after → Untouched v s after) ↔
      ∀ before after, Removes v s owner name flags before after →
        v.holds after = v.holds s.store ∨ HasRoom s.files.table owner := by
  constructor
  · intro untouched before store removes
    by_cases room : HasRoom s.files.table owner
    · exact .inr room
    · obtain ⟨refused, kept, _⟩ := @attach_full _ _ _ _ { s with store := store } _ flags room
        (makeAbs (cwdOf s.files owner) name) 0
      have same := (untouched _ removes.answers (by rw [refused]; decide)).1
      rw [kept] at same
      exact .inl same
  · intro condition after answers
    rcases fsOpen_cases answers with untouched | ⟨before, store, size, removes, rfl⟩
    · exact untouched
    · rcases condition before store removes with same | room
      · exact attach_untouched same _ _
      · intro refused
        have granted := @attach_room _ _ _ _ { s with store := store } _ flags room
          (makeAbs (cwdOf s.files owner) name) size
        omega

end Requests

/-- The files of `/tmp` and the statics of the card's library. -/
structure Store where
  tmp : Tmpfs.Files
  sd : Fat.Fs

def cstring (path : Text) : Fat.CString :=
  ⟨path.takeWhile (· ≠ 0), fun zero => by simpa using List.mem_takeWhile_imp zero⟩

/-- `attr >= 0`, and `attr & UBIQOS_ATTR_DIRECTORY`. -/
def answered (attr : Int) (size : Nat) : Option (Bool × U32) :=
  if attr < 0 then none else some (attr.toNat.testBit 4, BitVec.ofNat 32 size)

/-- `ubiqos_tmpfs_ops`. -/
def tmpOps : Ops Store where
  stat := some fun path s =>
    let reply := Tmpfs.stat s.tmp path
    some (answered reply.rc reply.size, s)
  remove := some fun path s => some { s with tmp := (Tmpfs.remove s.tmp path).2 }

/-- `ubiqos_fat_ops`. -/
def sdOps : Ops Store where
  stat := some fun path s =>
    ((Fat.stat (cstring path)).run s.sd).map fun (found, sd) =>
      (found.map fun (attr, size) => (attr &&& 0x10 != 0, BitVec.ofNat 32 size), { s with sd := sd })
  remove := some fun path s =>
    ((Fat.remove (cstring path)).run s.sd).map fun (_, sd) => { s with sd := sd }

/-- `dev_ops` and `var_ops`, which remove nothing. -/
def seenOps (looks : Text → Option (Bool × U32)) : Ops Store where
  stat := some fun path s => some (looks path, s)
  remove := none

def volumes (dev var : Text → Option (Bool × U32)) : Volumes Store (Tmpfs.Files × (Nat → Fat.Block)) where
  ops vol :=
    if vol = text "tmp" then tmpOps
    else if vol = text "sd" then sdOps
    else if vol = text "var" then seenOps var
    else seenOps dev
  holds s := (s.tmp, s.sd.card)
  looks := by
    intro vol stat is rest s found t asked
    split at is
    · cases is
      cases asked
      rfl
    · split at is
      · cases is
        obtain ⟨⟨answer, sd⟩, runs, same⟩ := Option.map_eq_some_iff.mp asked
        cases same
        rw [Fat.frames_stat Fat.unread_card _ _ _ _ runs]
      · split at is
        · cases is
          cases asked
          rfl
        · cases is
          cases asked
          rfl

/-- An open that is refused has changed no file and taken no slot exactly when it did not
come to a truncation, or the removal changed nothing, or there was room for it. -/
theorem fsOpen_refused_untouched {n k f : Nat} (dev var : Text → Option (Bool × U32))
    (s : Server n k f Store) (owner : Int) (name : Text) (flags : Nat) :
    (∀ after, s.fsOpen (volumes dev var) owner name flags = some after →
        after.2 < 0 → after.1.store.tmp = s.store.tmp ∧ after.1.store.sd.card = s.store.sd.card ∧
          after.1.files.table = s.files.table) ↔
      ∀ before after, Removes (volumes dev var) s owner name flags before after →
        (after.tmp = s.store.tmp ∧ after.sd.card = s.store.sd.card) ∨ HasRoom s.files.table owner := by
  have exact := @fsOpen_untouched_iff _ _ _ _ _ (volumes dev var) s owner name flags
  simpa only [Untouched, volumes, Prod.mk.injEq, and_assoc] using exact

/-- With the only open file in use, truncating another answers minus one and takes it away. -/
theorem refused_open_removes :
    let sd : Fat.Fs := ⟨⟨0, 0, 0, 0, 0, 0, 0⟩, false, fun _ _ => 0, [], fun _ => 0, fun _ => 0,
      Fat.invalidLba, 2, ⟨[], false, 0, 0, 0, 0⟩, fun _ _ => 0, 0⟩
    let tmp := ((Tmpfs.run Tmpfs.emptied
      [.write (fun _ => some fun _ => 0) (text "/a") 0 [0x61]]).map (·.2)).getD Tmpfs.emptied
    let files := [Request.mount (text "tmp"), .open 1 (text "/tmp/b") 0x42 none].foldl serve
      (fileStart 2 2 1)
    let s : Server 2 2 1 Store := ⟨files, tmp, sd⟩
    Tmpfs.stat s.store.tmp (text "/a") = ⟨0, [], 1⟩ ∧
      (s.fsOpen (volumes (fun _ => none) fun _ => none) 1 (text "/tmp/a") 0x201).map
          (fun after => (after.2, Tmpfs.stat after.1.store.tmp (text "/a"))) =
        some (-1, Tmpfs.code (-1)) := by
  decide +kernel

end Ubiqos.Io
