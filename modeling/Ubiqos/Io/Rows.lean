import Ubiqos.Io.Opened
import Ubiqos.Lib.Detours

/-!
The path table as one process has it: a row of descriptors and what each names. Its own calls act on
the row alone, but for what an `open` finds, and no call of another process changes it.
-/

namespace Ubiqos.Io

open Function Machine Detours

universe u

section Rows
variable {k : Nat} {α : Type u}

/-- `ubiqos_open_flags`, given what the name leads to. -/
def openRow (row : Row k α) (answer : Option α) : Row k α × Int :=
  match answer, (Detours.vacant row).head? with
  | some a, some p => (update row p (some a), (p : Nat))
  | _, _ => (row, -1)

/-- `ubiqos_dup`. -/
def dupRow (row : Row k α) (path newPath : Int) : Row k α × Int :=
  match index k path with
  | none => (row, -1)
  | some source =>
    match row source with
    | none => (row, -1)
    | some a =>
      if newPath = path then (row, path)
      else if newPath < 0 then
        match (Detours.vacant row).head? with
        | none => (row, -1)
        | some p => (update row p (some a), (p : Nat))
      else
        match index k newPath with
        | none => (row, -1)
        | some p => (update row p (some a), newPath)

/-- `ubiqos_close`. -/
def closeRow (row : Row k α) (path : Int) : Row k α × Int :=
  match index k path with
  | none => (row, -1)
  | some p =>
    match row p with
    | none => (row, -1)
    | some _ => (update row p none, 0)

end Rows

section Views
variable {n k f : Nat} {t : Table n k f} {pid : Pid n} {owner : Int}

def rowOf (t : Table n k f) (pid : Pid n) : Row k (Slot f) := fun p =>
  if isFree (t.paths (pid, p)) then none else some (t.paths (pid, p))

variable {p : Fin k}

theorem rowOf_free (free : isFree (t.paths (pid, p)) = true) : rowOf t pid p = none := by
  simp [rowOf, free]

theorem rowOf_held (held : isFree (t.paths (pid, p)) = false) :
    rowOf t pid p = some (t.paths (pid, p)) := by
  simp [rowOf, held]

theorem vacant_eq {slot : Slot f} (single : Single slot) : Io.vacant slot = isFree slot := by
  cases free : isFree slot with
  | true =>
    rw [isFree, Bool.and_eq_true] at free
    exact free.1
  | false =>
    cases empty : Io.vacant slot with
    | false => rfl
    | true => rw [free_of_vacant single empty] at free; cases free

theorem firstSlot_row (t : Table n k f) (pid : Pid n) :
    firstSlot t pid isFree = (Detours.vacant (rowOf t pid)).head? := by
  rw [Detours.vacant, List.head?_filter, firstSlot]
  congr 1
  funext p
  cases free : isFree (t.paths (pid, p)) <;> simp [rowOf, free]

theorem firstSlot_vacant (exact : Exact t) (pid : Pid n) :
    firstSlot t pid Io.vacant = (Detours.vacant (rowOf t pid)).head? := by
  rw [← firstSlot_row, firstSlot, firstSlot]
  congr 1
  funext p
  exact vacant_eq (exact.single (pid, p))

variable {t' : Table n k f}

theorem rowOf_same (same : ∀ p, t'.paths (pid, p) = t.paths (pid, p)) :
    rowOf t' pid = rowOf t pid := by
  funext p
  rw [rowOf, rowOf, same]

theorem rowOf_update {slot : Slot f}
    (written : t'.paths (pid, p) = slot) (held : isFree slot = false)
    (others : ∀ q, q ≠ p → t'.paths (pid, q) = t.paths (pid, q)) :
    rowOf t' pid = update (rowOf t pid) p (some slot) := by
  funext q
  by_cases same : q = p
  · subst same
    rw [update_self, rowOf_held (written ▸ held), written]
  · rw [update_of_ne same, rowOf, rowOf, others q same]

theorem rowOf_freed (freed : isFree (t'.paths (pid, p)) = true)
    (others : ∀ q, q ≠ p → t'.paths (pid, q) = t.paths (pid, q)) :
    rowOf t' pid = update (rowOf t pid) p none := by
  funext q
  by_cases same : q = p
  · subst same
    rw [update_self, rowOf_free freed]
  · rw [update_of_ne same, rowOf, rowOf, others q same]

theorem place_owned (owns : index n owner = some pid) (path : Int) :
    place n k path owner = (index k path).map (pid, ·) := by
  rw [place, owns]
  cases index k path <;> rfl

variable {spot : Pid n × Fin k}

theorem close_answer (exact : Exact t) (path : Int)
    (here : place n k path owner = some spot) :
    (close t path owner).2 = if isFree (t.paths spot) then -1 else 0 := by
  have empty := vacant_eq (exact.single spot)
  unfold close fileEntry pipeEntry pathOf
  rw [here]
  rw [← empty, Io.vacant]
  cases file : (t.paths spot).file <;> cases pipe : (t.paths spot).pipe <;>
    cases device : (t.paths spot).device <;> simp [Option.filter, file, pipe, device]

theorem close_row (exact : Exact t) (owns : index n owner = some pid) (path : Int) :
    (rowOf (close t path owner).1 pid, (close t path owner).2) = closeRow (rowOf t pid) path := by
  obtain ⟨-, freed, others⟩ := close_owed exact path owner
  have placed := place_owned (k := k) owns path
  cases inside : index k path with
  | none =>
    rw [inside, Option.map_none] at placed
    have answer : (close t path owner).2 = -1 := by
      simp [close, fileEntry, pipeEntry, pathOf, placed]
    rw [closeRow, inside, answer, rowOf_same fun p => others (pid, p) (by simp [placed])]
  | some p =>
    rw [inside, Option.map_some] at placed
    have elsewhere : ∀ q, q ≠ p → (close t path owner).1.paths (pid, q) = t.paths (pid, q) :=
      fun q away => others (pid, q) (by simp [placed, away.symm])
    rw [closeRow, inside, close_answer exact path placed, rowOf_freed (freed _ placed) elsewhere]
    cases free : isFree (t.paths (pid, p)) with
    | true => simp [rowOf_free free, update_eq_self_iff]
    | false => simp [rowOf_held free]

theorem copySlot_paths (t : Table n k f) (source target : Pid n × Fin k) :
    (copySlot t source target).paths = update t.paths target (t.paths source) := by
  rw [copySlot, addHolder_setSlot]
  exact congrArg (update · target (t.paths source)) (addHolder_paths t _)

theorem copySlot_row (t : Table n k f) {source p : Fin k}
    (held : isFree (t.paths (pid, source)) = false) :
    rowOf (copySlot t (pid, source) (pid, p)) pid =
      update (rowOf t pid) p (some (t.paths (pid, source))) := by
  refine rowOf_update (by rw [copySlot_paths, update_self]) held ?_
  intro q away
  rw [copySlot_paths, update_of_ne (by simp [away])]

theorem dup_row (exact : Exact t) (owns : index n owner = some pid) (path newPath : Int) :
    (rowOf (dup t path newPath owner).1 pid, (dup t path newPath owner).2) =
      dupRow (rowOf t pid) path newPath := by
  have placed := place_owned (k := k) owns path
  cases inside : index k path with
  | none =>
    rw [inside, Option.map_none] at placed
    simp [dup, dupRow, placed, inside]
  | some source =>
    rw [inside, Option.map_some] at placed
    have empty := vacant_eq (exact.single (pid, source))
    cases free : isFree (t.paths (pid, source)) with
    | true => simp [dup, dupRow, placed, inside, empty, free, rowOf_free]
    | false =>
      by_cases self : newPath = path
      · simp [dup, dupRow, placed, inside, empty, free, rowOf_held, self]
      · by_cases fresh : newPath < 0
        · cases first : (Detours.vacant (rowOf t pid)).head? with
          | none =>
            simp [dup, dupRow, placed, inside, empty, free, rowOf_held free, self, fresh,
              firstSlot_row, first]
          | some p =>
            simp [dup, dupRow, placed, inside, empty, free, rowOf_held free, self, fresh,
              firstSlot_row, first, copySlot_row t free]
        · cases target : index k newPath with
          | none =>
            simp [dup, dupRow, placed, inside, empty, free, rowOf_held free, self, fresh, target]
          | some p =>
            -- The slot that is closed first is another one, so the source is still there.
            have other : source ≠ p := by
              rintro rfl
              exact self ((index_value target).trans (index_value inside).symm)
            have there := place_owned (k := k) owns newPath
            rw [target, Option.map_some] at there
            have kept : (close t newPath owner).1.paths (pid, source) = t.paths (pid, source) :=
              (close_owed exact newPath owner).2.2 _ (by simp [there, other.symm])
            have shut : rowOf (close t newPath owner).1 pid = update (rowOf t pid) p none :=
              rowOf_freed ((close_owed exact newPath owner).2.1 _ there) fun q away =>
                (close_owed exact newPath owner).2.2 _ (by simp [there, away.symm])
            have copied := copySlot_row (close t newPath owner).1 (p := p)
              (by rw [kept]; exact free)
            rw [shut, update_idem, kept] at copied
            simp [dup, dupRow, placed, inside, empty, free, rowOf_held free, self, fresh, target,
              copied]

theorem openFile_row (t : Table n k f) (owns : index n owner = some pid) (path : List Byte) :
    ∃ answer, (rowOf (openFile t path owner).1 pid, (openFile t path owner).2) =
      openRow (rowOf t pid) answer := by
  cases unused : (List.finRange f).find? (fun i => (t.files i).refs = 0) with
  | none => exact ⟨none, by simp [openFile, openRow, owns, unused]⟩
  | some i =>
    cases first : firstSlot t pid isFree with
    | none => exact ⟨none, by simp [openFile, openRow, owns, unused, first]⟩
    | some p =>
      refine ⟨some { t.paths (pid, p) with file := some i }, ?_⟩
      have written : rowOf (openFile t path owner).1 pid =
          update (rowOf t pid) p (some { t.paths (pid, p) with file := some i }) := by
        refine rowOf_update ?_ (by simp [isFree, Io.vacant]) ?_
        · simp [openFile, owns, unused, first, setSlot, setFile]
        · intro q away
          simp [openFile, owns, unused, first, setSlot, setFile, away]
      have room := (firstSlot_row t pid).symm.trans first
      rw [written]
      simp [openFile, openRow, owns, unused, first, room]

theorem openDevice_row (exact : Exact t) (owns : index n owner = some pid) (name : String)
    (opens : Bool) :
    ∃ answer, (rowOf (openDevice t name opens owner).1 pid, (openDevice t name opens owner).2) =
      openRow (rowOf t pid) answer := by
  cases listed : t.devices.findIdx? (· = name) with
  | none => exact ⟨none, by simp [openDevice, openRow, owns, listed]⟩
  | some d =>
    cases first : firstSlot t pid Io.vacant with
    | none => exact ⟨none, by simp [openDevice, openRow, owns, listed, first]⟩
    | some p =>
      cases opens with
      | false => exact ⟨none, by simp [openDevice, openRow, owns, listed, first]⟩
      | true =>
        refine ⟨some ⟨some d, none, none, none, (t.paths (pid, p)).write⟩, ?_⟩
        have written : rowOf (openDevice t name true owner).1 pid =
            update (rowOf t pid) p (some ⟨some d, none, none, none, (t.paths (pid, p)).write⟩) := by
          refine rowOf_update ?_ (by simp [isFree, Io.vacant]) ?_
          · simp [openDevice, owns, listed, first, setSlot]
          · intro q away
            simp [openDevice, owns, listed, first, setSlot, away]
        have room := (firstSlot_vacant exact pid).symm.trans first
        rw [written]
        simp [openDevice, openRow, owns, listed, first, room]

def Op.writes : Op → Option Int
  | .openDevice _ _ owner | .openAs _ _ owner _ | .openFile _ owner | .pipe owner | .pipepair owner
  | .dup _ _ owner | .close _ owner | .closeAll owner => some owner
  | .inherit _ child => some child
  | .addDescriptor .. | .write .. | .read .. => none

theorem place_owner {path : Int} (here : place n k path owner = some spot) :
    index n owner = some spot.1 := (place_some here).1

theorem index_away {who : Pid n} (owns : index n owner = some who)
    (other : index n owner ≠ some pid) : who ≠ pid := by
  rintro rfl
  exact other owns

theorem setSlot_others (t : Table n k f) (spot : Pid n × Fin k) (slot : Slot f)
    (other : spot.1 ≠ pid) (p : Fin k) : (setSlot t spot slot).paths (pid, p) = t.paths (pid, p) :=
  update_of_ne (fun same => other (congrArg Prod.fst same).symm) _ _

theorem step_row (exact : Exact t) (op : Op) (other : ∀ owner, op.writes = some owner →
    index n owner ≠ some pid) : rowOf (step t op) pid = rowOf t pid := by
  refine rowOf_same fun p => ?_
  cases op with
  | addDescriptor name configured =>
    rw [step, (addDescriptor_owed exact name configured).2]
  | openDevice name opens owner =>
    rw [step, openDevice]
    split
    · rename_i owns _
      split
      · rfl
      · split
        · exact setSlot_others t _ _ (index_away owns (other owner rfl)) p
        · rfl
    · rfl
  | openAs name opens owner path =>
    rw [step, openAs]
    split
    · rename_i here _
      split
      · exact setSlot_others t _ _ (index_away (place_owner here) (other owner rfl)) p
      · rfl
    · rfl
  | openFile path owner =>
    rw [step, openFile]
    split
    · rfl
    · rename_i owns
      split
      · exact setSlot_others _ _ _ (index_away owns (other owner rfl)) p
      · rfl
  | pipe owner =>
    rw [step, pipe]
    split
    · rfl
    · rename_i owns
      have away := index_away owns (other owner rfl)
      split
      · dsimp only
        rw [setSlot_others _ _ _ away, setSlot_others _ _ _ away]
        rfl
      · rfl
  | pipepair owner =>
    rw [step, pipepair]
    split
    · rfl
    · rename_i owns
      have away := index_away owns (other owner rfl)
      split
      · dsimp only
        rw [setSlot_others _ _ _ away, setSlot_others _ _ _ away]
        rfl
      · rfl
  | dup path newPath owner =>
    rw [step, dup]
    split
    · rfl
    · rename_i source here
      have away := index_away (place_owner here) (other owner rfl)
      have copied (u : Table n k f) (q : Fin k) :
          (copySlot u source (source.1, q)).paths (pid, p) = u.paths (pid, p) := by
        rw [copySlot_paths, update_of_ne (by simp [away.symm])]
      have shut : (close t newPath owner).1.paths (pid, p) = t.paths (pid, p) :=
        (close_owed exact newPath owner).2.2 _ fun there => other owner rfl (place_owner there)
      split
      · rfl
      · split
        · rfl
        · split
          · split
            · rfl
            · exact copied t _
          · split
            · rfl
            · exact (copied _ _).trans shut
  | close path owner =>
    refine (close_owed exact path owner).2.2 _ fun here => ?_
    exact other owner rfl (place_owner here)
  | inherit parent child =>
    rw [step, inherit]
    split
    · rename_i owns
      refine foldl_invariant (fun u : Table n k f => u.paths (pid, p) = t.paths (pid, p)) rfl ?_
      intro u q _ same
      have away := index_away owns (other child rfl)
      rw [inheritPath, copySlot_paths, update_of_ne (by simp [away.symm]), same]
    · rfl
  | closeAll owner => exact (closeAll_owed exact owner).2.2 (pid, p) (other owner rfl)
  | write path owner bytes =>
    rw [step]
    split
    · rw [(pipeWrite_owed exact _ bytes).2]
    · rfl
  | read path owner len =>
    rw [step]
    split
    · rw [(pipeRead_owed exact _ len).2]
    · rfl

/-- The calls of a row. -/
def Op.ofRow : Op → Bool
  | .openFile .. | .openDevice .. | .dup .. | .close .. => true
  | _ => false

def valued (t : Table n k f) : Op → Table n k f × Int
  | .openFile path owner => openFile t path owner
  | .openDevice name opens owner => openDevice t name opens owner
  | .dup path newPath owner => dup t path newPath owner
  | .close path owner => close t path owner
  | op => (step t op, 0)

def rowCall (row : Row k (Slot f)) (answer : Option (Slot f)) : Op → Row k (Slot f) × Int
  | .openFile .. | .openDevice .. => openRow row answer
  | .dup path newPath _ => dupRow row path newPath
  | .close path _ => closeRow row path
  | _ => (row, 0)

def Op.by (pid : Pid n) (op : Op) : Bool := op.writes.any fun owner => index n owner = some pid

/-- What the calls of one process return, in a run of everybody's. -/
def returned (pid : Pid n) : Table n k f → List Op → List Int
  | _, [] => []
  | t, op :: ops => (if op.by pid then [(valued t op).2] else []) ++ returned pid (step t op) ops

/-- The row through its own calls, each `open` with what it finds. -/
inductive Rowed (pid : Pid n) : List Op → Row k (Slot f) → Row k (Slot f) → List Int → Prop
  | done (row : Row k (Slot f)) : Rowed pid [] row row []
  | other {op : Op} {ops : List Op} {row last : Row k (Slot f)} {values : List Int}
      (away : op.by pid = false) (rest : Rowed pid ops row last values) :
      Rowed pid (op :: ops) row last values
  | own {op : Op} {ops : List Op} {row last : Row k (Slot f)} {values : List Int}
      (mine : op.by pid = true) (answer : Option (Slot f))
      (rest : Rowed pid ops (rowCall row answer op).1 last values) :
      Rowed pid (op :: ops) row last ((rowCall row answer op).2 :: values)

theorem valued_row (exact : Exact t) {op : Op} (mine : op.by pid = true) (plain : op.ofRow = true) :
    (valued t op).1 = step t op ∧
      ∃ answer, (rowOf (valued t op).1 pid, (valued t op).2) = rowCall (rowOf t pid) answer op := by
  cases op with
  | openFile path owner => exact ⟨rfl, openFile_row t (by simpa [Op.by, Op.writes] using mine) path⟩
  | openDevice name opens owner =>
    exact ⟨rfl, openDevice_row exact (by simpa [Op.by, Op.writes] using mine) name opens⟩
  | dup path newPath owner =>
    exact ⟨rfl, none, dup_row exact (by simpa [Op.by, Op.writes] using mine) path newPath⟩
  | close path owner => exact ⟨rfl, none, close_row exact (by simpa [Op.by, Op.writes] using mine) path⟩
  | _ => cases plain

/-- In a run of everybody's calls each process has the row that its own calls make of it, and
they return what they would on the row alone. -/
theorem run_row {ops : List Op} (exact : Exact t) (careful : Along step Careful t ops)
    (plain : ∀ op ∈ ops, op.by pid = true → op.ofRow = true) :
    Rowed pid ops (rowOf t pid) (rowOf (ops.foldl step t) pid) (returned pid t ops) := by
  induction ops generalizing t with
  | nil => exact .done _
  | cons op ops ih =>
    have later := ih (step_owed exact careful.1).1 careful.2 fun o member =>
      plain o (List.mem_cons_of_mem op member)
    rw [List.foldl_cons, returned]
    cases mine : op.by pid with
    | false =>
      refine .other mine ?_
      rw [step_row exact op fun owner wrote same => by simp [Op.by, wrote, same] at mine] at later
      exact later
    | true =>
      obtain ⟨stepped, answer, row⟩ := valued_row exact mine (plain op List.mem_cons_self mine)
      obtain ⟨now, value⟩ := Prod.ext_iff.mp row
      rw [← stepped, show rowOf (valued t op).1 pid = _ from now] at later
      rw [if_pos rfl, List.singleton_append, show (valued t op).2 = _ from value, ← stepped]
      exact .own mine answer later

theorem run_row_two :
    let ops : List Op := [.openFile [0x2f] 1, .openFile [0x2f] 2, .dup 0 3 1, .close 0 2, .close 0 1]
    Rowed (1 : Pid 3) ops (rowOf (ioInit 3 8 2) 1) (rowOf (run 3 8 2 ops) 1)
      (returned 1 (ioInit 3 8 2) ops) :=
  run_row (init_exact 3 8 2) (by decide) (by decide)

end Views

end Ubiqos.Io
