import Ubiqos.Io.Accounts

/-!
Calls of a driver's close entry point. `ubiqos_io_close` looks at the other slots of
its own process first, and `ubiqos_io_dup` closes what it writes over the same way;
the end of a process looks at nothing. A call is kept with the table at that moment.
`shuts` says which devices have a driver with a close entry point.
-/

namespace Ubiqos.Io

open Function Machine

structure DriverCall (n k f : Nat) where
  table : Table n k f
  spot : Pid n × Fin k
  device : Nat

section Shutting
variable {n k f : Nat} {t : Table n k f} {shuts : Nat → Bool} {spot : Pid n × Fin k} {pid : Pid n}

def deviceAt (t : Table n k f) (spot : Pid n × Fin k) : Option Nat := (t.paths spot).device

/-- `device_shared`. -/
def deviceShared (t : Table n k f) (spot : Pid n × Fin k) : Bool :=
  (List.finRange k).any (fun p => p ≠ spot.2 && deviceAt t (spot.1, p) = deviceAt t spot)

def driverClose (shuts : Nat → Bool) (t : Table n k f) (spot : Pid n × Fin k) : List (DriverCall n k f) :=
  match deviceAt t spot with
  | some d => if shuts d then [⟨t, spot, d⟩] else []
  | none => []

def shutAt (t : Table n k f) (path owner : Int) : Option (Pid n × Fin k) :=
  match fileEntry t path owner with
  | some _ => none
  | none =>
    match pipeEntry t path owner with
    | some _ => none
    | none => (pathOf t path owner).filter (fun spot => !deviceShared t spot)

def closeCalls (shuts : Nat → Bool) (t : Table n k f) (path owner : Int) : List (DriverCall n k f) :=
  match shutAt t path owner with
  | some spot => driverClose shuts t spot
  | none => []

/-- Whether `dup` closes the descriptor it is given first. -/
def dupCloses (t : Table n k f) (path newPath owner : Int) : Bool :=
  match place n k path owner with
  | none => false
  | some source =>
    !vacant (t.paths source) && newPath ≠ path && 0 ≤ newPath && (index k newPath).isSome

def dupCalls (shuts : Nat → Bool) (t : Table n k f) (path newPath owner : Int) :
    List (DriverCall n k f) :=
  if dupCloses t path newPath owner then closeCalls shuts t newPath owner else []

/-- One turn of `ubiqos_io_close_all`: the device comes after the file and the pipe. -/
def closePathCalls (shuts : Nat → Bool) (pid : Pid n) (t : Table n k f) (p : Fin k) :
    List (DriverCall n k f) :=
  driverClose shuts (pipeRelease (fileRelease t (pid, p)) (pid, p)) (pid, p)

def closePathsCalls (shuts : Nat → Bool) (pid : Pid n) : Table n k f → List (Fin k) →
    List (DriverCall n k f)
  | _, [] => []
  | t, p :: rest => closePathCalls shuts pid t p ++ closePathsCalls shuts pid (closePath pid t p) rest

def closeAllCalls (shuts : Nat → Bool) (t : Table n k f) (owner : Int) : List (DriverCall n k f) :=
  match index n owner with
  | none => []
  | some pid => closePathsCalls shuts pid t (List.finRange k)

def stepCalls (shuts : Nat → Bool) (t : Table n k f) : Op → List (DriverCall n k f)
  | .dup path newPath owner => dupCalls shuts t path newPath owner
  | .close path owner => closeCalls shuts t path owner
  | .closeAll owner => closeAllCalls shuts t owner
  | _ => []

def driverCalls (shuts : Nat → Bool) : Table n k f → List Op → List (DriverCall n k f)
  | _, [] => []
  | t, op :: rest => stepCalls shuts t op ++ driverCalls shuts (step t op) rest

def Lone (call : DriverCall n k f) : Prop :=
  ∀ other, other ≠ call.spot → deviceAt call.table other ≠ some call.device

instance (call : DriverCall n k f) : Decidable (Lone call) :=
  inferInstanceAs (Decidable (∀ other, other ≠ call.spot → _))

def NobodyElse (shuts : Nat → Bool) (t : Table n k f) (spot : Pid n × Fin k) : Prop :=
  ∀ d, deviceAt t spot = some d → shuts d = true → ∀ other, other.1 ≠ spot.1 → deviceAt t other ≠ some d

def OnlyOne (shuts : Nat → Bool) (t : Table n k f) (spot : Pid n × Fin k) : Prop :=
  ∀ d, deviceAt t spot = some d → shuts d = true → ∀ other, other ≠ spot → deviceAt t other ≠ some d

/-- A close, or a `dup` over a descriptor, that comes to a driver finds the device with
no other process; a process that ends finds each of its devices in that slot alone. -/
def Spared (shuts : Nat → Bool) (t : Table n k f) : Op → Prop
  | .close path owner => ∀ spot, shutAt t path owner = some spot → NobodyElse shuts t spot
  | .dup path newPath owner => dupCloses t path newPath owner = true →
      ∀ spot, shutAt t newPath owner = some spot → NobodyElse shuts t spot
  | .closeAll owner => ∀ pid, index n owner = some pid → ∀ p, OnlyOne shuts t (pid, p)
  | _ => True

theorem driverClose_lone : (∀ call ∈ driverClose shuts t spot, Lone call) ↔ OnlyOne shuts t spot := by
  simp only [driverClose, OnlyOne]
  cases device : deviceAt t spot with
  | none => simp
  | some d =>
    cases closes : shuts d with
    | false => simp [closes]
    | true => simp [closes, Lone]

theorem deviceShared_false (alone : deviceShared t spot = false) (p : Fin k) (other : p ≠ spot.2) :
    deviceAt t (spot.1, p) ≠ deviceAt t spot := by
  intro same
  have shared : deviceShared t spot = true :=
    List.any_eq_true.mpr ⟨p, List.mem_finRange p, by simp [other, same]⟩
  rw [alone] at shared
  cases shared

theorem onlyOne_of_alone (alone : deviceShared t spot = false) :
    OnlyOne shuts t spot ↔ NobodyElse shuts t spot := by
  constructor
  · intro one d device closes other apart
    exact one d device closes other (fun same => apart (by rw [same]))
  · intro nobody d device closes other apart
    by_cases own : other.1 = spot.1
    · have differs := deviceShared_false alone other.2 (fun same => apart (Prod.ext own same))
      rw [← own, device] at differs
      exact differs
    · exact nobody d device closes other own

theorem shutAt_alone {path owner : Int} (reached : shutAt t path owner = some spot) :
    deviceShared t spot = false := by
  simp only [shutAt] at reached
  split at reached
  · cases reached
  · split at reached
    · cases reached
    · simpa using (Option.filter_eq_some_iff.mp reached).2

theorem closeCalls_lone (path owner : Int) : (∀ call ∈ closeCalls shuts t path owner, Lone call) ↔
    ∀ spot, shutAt t path owner = some spot → NobodyElse shuts t spot := by
  simp only [closeCalls]
  cases reached : shutAt t path owner with
  | none => simp
  | some spot =>
    simp only [Option.some.injEq, forall_eq']
    rw [driverClose_lone, onlyOne_of_alone (shutAt_alone reached)]

theorem fileRelease_device (t : Table n k f) (spot other : Pid n × Fin k) :
    deviceAt (fileRelease t spot) other = deviceAt t other := by
  simp only [fileRelease, deviceAt]
  split
  · rfl
  · by_cases same : other = spot
    · simp [setSlot, setFile, same]
    · simp [setSlot, setFile, same]

theorem pipeRelease_device (t : Table n k f) (spot other : Pid n × Fin k) :
    deviceAt (pipeRelease t spot) other = deviceAt t other := by
  simp only [pipeRelease, deviceAt]
  split
  · rfl
  · by_cases same : other = spot
    · simp [setSlot, same]
    · simp [setSlot, same, (dropEnd_frame t _).1]

theorem closePath_device (t : Table n k f) (pid : Pid n) (p : Fin k) (other : Pid n × Fin k) :
    deviceAt (closePath pid t p) other = if other = (pid, p) then none else deviceAt t other := by
  have before := (pipeRelease_device (fileRelease t (pid, p)) (pid, p) other).trans
    (fileRelease_device t (pid, p) other)
  by_cases same : other = (pid, p)
  · simp [closePath, deviceAt, setSlot, same]
  · simpa [closePath, deviceAt, setSlot, same] using before

theorem OnlyOne.congr {t' : Table n k f} (same : ∀ other, deviceAt t' other = deviceAt t other) :
    OnlyOne shuts t' spot ↔ OnlyOne shuts t spot := by
  simp only [OnlyOne, same]

theorem closePathsCalls_lone (visited : List (Fin k)) (nodup : visited.Nodup) (t : Table n k f) :
    (∀ call ∈ closePathsCalls shuts pid t visited, Lone call) ↔
      ∀ p ∈ visited, OnlyOne shuts t (pid, p) := by
  induction visited generalizing t with
  | nil => simp [closePathsCalls]
  | cons p rest ih =>
    obtain ⟨notRest, nodupRest⟩ := List.nodup_cons.mp nodup
    simp only [closePathsCalls, List.forall_mem_append, List.forall_mem_cons, ih nodupRest]
    have now : (∀ call ∈ closePathCalls shuts pid t p, Lone call) ↔ OnlyOne shuts t (pid, p) := by
      rw [closePathCalls, driverClose_lone]
      exact OnlyOne.congr (fun other => (pipeRelease_device _ _ other).trans (fileRelease_device t _ other))
    rw [now, and_congr_right_iff]
    intro one
    apply forall₂_congr
    intro q member
    have differs : (pid, q) ≠ (pid, p) := by
      intro same
      rw [Prod.mk.injEq] at same
      exact notRest (same.2 ▸ member)
    simp only [OnlyOne, closePath_device, if_neg differs]
    constructor
    · intro later d device closes other apart names
      by_cases first : other = (pid, p)
      · subst first
        exact one d names closes (pid, q) differs device
      · have := later d device closes other apart
        rw [if_neg first] at this
        exact this names
    · intro before d device closes other apart names
      split at names
      · cases names
      · exact before d device closes other apart names

theorem stepCalls_lone (t : Table n k f) (op : Op) :
    (∀ call ∈ stepCalls shuts t op, Lone call) ↔ Spared shuts t op := by
  cases op with
  | close path owner => exact closeCalls_lone path owner
  | dup path newPath owner =>
    simp only [stepCalls, dupCalls, Spared]
    split
    · rename_i closes
      simp only [closes, true_implies]
      exact closeCalls_lone newPath owner
    · rename_i closes
      simp [closes]
  | closeAll owner =>
    simp only [stepCalls, closeAllCalls, Spared]
    cases index n owner with
    | none => simp
    | some pid =>
      simp only [Option.some.injEq, forall_eq', closePathsCalls_lone _ (List.nodup_finRange k)]
      simp
  | _ => simp [stepCalls, Spared]

/-- Along a run no driver is closed under a slot that names its device exactly when
every close, `dup` and end of a process in it is spared that. -/
theorem driverCalls_lone (shuts : Nat → Bool) (ops : List Op) :
    (∀ call ∈ driverCalls shuts (ioInit n k f) ops, Lone call) ↔
      Along step (Spared shuts) (ioInit n k f) ops := by
  generalize ioInit n k f = t
  induction ops generalizing t with
  | nil => simp [driverCalls, Along]
  | cons op rest ih =>
    rw [driverCalls, List.forall_mem_append, stepCalls_lone, ih]
    rfl

/-- A child that ends closes the driver under its parent's descriptor, and so does a
process that closes what it has inherited. -/
theorem shared_driver_closed :
    (∃ call ∈ driverCalls (fun _ => true) (ioInit 3 2 1)
      [.openDevice "null" true 1, .inherit 1 2, .closeAll 2], ¬ Lone call) ∧
    (∃ call ∈ driverCalls (fun _ => true) (ioInit 3 2 1)
      [.openDevice "null" true 1, .inherit 1 2, .close 0 2], ¬ Lone call) ∧
    ∃ call ∈ driverCalls (fun _ => true) (ioInit 3 2 1)
      [.openDevice "null" true 1, .dup 0 1 1, .closeAll 1], ¬ Lone call := by
  decide +kernel

end Shutting

end Ubiqos.Io
