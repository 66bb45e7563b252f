import Ubiqos.Kernel.Receive
import Ubiqos.Servers.Handle

/-!
What a pulse makes the filesystem server and the socket server do. Receive returns zero
for one, and both servers turn away only what is below zero: a pulse is handled as a
request of process zero at address zero, and what it does depends on its type. The
reaping that begins each turn of the socket server stands before the receive.
-/

namespace Ubiqos.Servers

open Function Acting Io

inductive Delivery (n : Nat) where
  | message (client : Pid n) (m : Msg n)
  | pulse (p : Pulse n)

section Delivery
variable {n : Nat} {s s' : Kernel n} {pid : Pid n}

def Delivery.msg : Delivery n → Msg n
  | .message _ m => m
  | .pulse p => ⟨p.type, p.value, 0, p.origin⟩

variable [NeZero n]

def Delivery.client : Delivery n → Pid n
  | .message client _ => client
  | .pulse _ => 0

end Delivery

inductive Side
  | files
  | sockets
  deriving DecidableEq

/-- The servers' own state, whom each is serving, and the answers given, latest first. -/
structure Machine (σ : Type) (n : Nat) where
  own : Own σ
  serving : Side → Option (Pid n)
  answered : List (Pid n × Int)

inductive Event (σ : Type) (n : Nat) where
  | delivery (side : Side) (d : Delivery n)
  | elsewhere (changes : σ → σ)

section Turns
variable {σ : Type} {n : Nat} (view : View σ) (world : Act → σ → Reply × σ)

def outside (what : Act) (own : Own σ) : Reply × Own σ :=
  ((world what own.rest).1, { own with rest := (world what own.rest).2 })

def serve : Side → Int → Msg n → Work σ Int
  | .files => handle view
  | .sockets => lwipServe view

/-- `ubiqos_msg_reply`, as far as the server sees of it. -/
def Machine.reply (w : Machine σ n) (side : Side) (rc : Int) : Machine σ n :=
  match w.serving side with
  | none => w
  | some client =>
    { w with serving := update w.serving side none, answered := (client, rc) :: w.answered }

def Machine.receives (w : Machine σ n) (side : Side) : Delivery n → Machine σ n
  | .message client _ => { w with serving := update w.serving side (some client) }
  | .pulse _ => w

def turn (side : Side) (client : Int) (m : Msg n) (w : Machine σ n) : List Act × Machine σ n :=
  if client < 0 then ([], w)
  else
    let (acts, rc, own) := (serve view side client m w.own).run (outside world)
    (acts, { w with own := own }.reply side rc)

variable [NeZero n]

def Machine.step (w : Machine σ n) : Event σ n → Machine σ n
  | .delivery side d =>
    (turn view world side (d.client : Nat) d.msg (w.receives side d)).2
  | .elsewhere changes => { w with own := { w.own with rest := changes w.own.rest } }

def Machine.run (w : Machine σ n) (events : List (Event σ n)) : Machine σ n :=
  events.foldl (Machine.step view world) w

def Ignores (w : Machine σ n) (side : Side) (p : Pulse n) : Prop :=
  turn view world side ((Delivery.pulse p).client : Nat) (Delivery.pulse p).msg
    (w.receives side (.pulse p)) = ([], w)

end Turns

section Quiet
variable {σ : Type} (view : View σ)

def zeroPlace (rest : σ) : Text := Io.makeAbs (view.cwdOf rest 0) []

def Refused (rest : σ) (op : VolumeOp) : Prop :=
  ∀ volume path, vfsSplit (view.mounted rest) (zeroPlace view rest) = some (volume, path) →
    view.offers rest volume op = false

def NoDirectory (rest : σ) : Prop :=
  (zeroPlace view rest).drop 1 ≠ [] ∧
    ∀ volume path, vfsSplit (view.mounted rest) (zeroPlace view rest) = some (volume, path) →
      path.drop 1 ≠ [] ∧ view.offers rest volume .statNth = false

/-- The card is not found dead, and the type is none of the server's; or one of those that
take an empty name of process zero and refuse it; or one that is refused because the host
has the card. -/
def Quiet (own : Own σ) (type : U32) : Prop :=
  (own.cardMounted && view.sdFailed own.rest) = false ∧
    match kindOf type with
    | none => True
    | some .remove => Refused view own.rest .remove
    | some .mkdir => Refused view own.rest .mkdir
    | some .rmdir => Refused view own.rest .rmdir
    | some .chdir => NoDirectory view own.rest
    | some .usbdisk | some .mount => view.hostHasCard own.rest = true
    | some _ => False

variable {view} {own : Own σ} {n : Nat} {m : Msg n}

theorem drop_quiet (alive : (own.cardMounted && view.sdFailed own.rest) = false) :
    dropCardIfDead view own = .done () own := by
  simp only [dropCardIfDead, look_bind, alive]
  rfl

theorem volumeOrFail_run (abs : Text) (op : VolumeOp) (call : Text → Text → Work σ Int) (own : Own σ) :
    volumeOrFail view abs op call own =
      match vfsSplit (view.mounted own.rest) abs with
      | none => .done (-1) own
      | some (volume, path) =>
        if view.offers own.rest volume op then call volume path own else .done (-1) own := by
  have first : volumeOrFail view abs op call own =
      (match vfsSplit (view.mounted own.rest) abs with
        | none => pure (-1)
        | some (volume, path) => do
          if view.offers (← look).rest volume op then call volume path else return -1 : Work σ Int) own := rfl
  rw [first]
  cases vfsSplit (view.mounted own.rest) abs with
  | none => rfl
  | some place =>
    simp only [look_bind]
    split <;> rfl

theorem volumeOrFail_null {op : VolumeOp} {call : Text → Text → Work σ Int} :
    (Refused view own.rest op →
      (makeAbs view 0 0 >>= fun abs => volumeOrFail view abs op call) own = .done (-1) own) ∧
    (¬ Refused view own.rest op → ∃ volume path,
      (makeAbs view 0 0 >>= fun abs => volumeOrFail view abs op call) own = call volume path own) := by
  have first : (makeAbs view 0 0 >>= fun abs => volumeOrFail view abs op call) own =
      volumeOrFail view (zeroPlace view own.rest) op call own := rfl
  rw [first, volumeOrFail_run]
  constructor
  · intro refused
    split
    · rfl
    · rename_i volume path found
      rw [refused volume path found]
      rfl
  · intro offered
    simp only [Refused, not_forall, Bool.not_eq_false] at offered
    obtain ⟨volume, path, found, offers⟩ := offered
    refine ⟨volume, path, ?_⟩
    simp only [found, offers, if_true]

theorem isDirectory_run (abs : Text) (own : Own σ) : isDirectory view abs own =
    if abs.drop 1 = [] then .done true own
    else
      match vfsSplit (view.mounted own.rest) abs with
      | none => .done false own
      | some (volume, path) =>
        if path.drop 1 = [] then .done true own
        else if !view.offers own.rest volume .statNth then .done false own
        else .act (.statNth volume path 0) own fun found own => .done (0 ≤ found.rc) own := by
  rw [isDirectory]
  split
  · rfl
  · have first : (split view abs >>= fun found =>
        (match found with
        | none => pure false
        | some (volume, path) =>
          if path.drop 1 = [] then pure true
          else do
            if !view.offers (← look).rest volume .statNth then return false
            else return 0 ≤ (← perform (.statNth volume path 0)).rc : Work σ Bool)) own =
        (match vfsSplit (view.mounted own.rest) abs with
        | none => pure false
        | some (volume, path) =>
          if path.drop 1 = [] then pure true
          else do
            if !view.offers (← look).rest volume .statNth then return false
            else return 0 ≤ (← perform (.statNth volume path 0)).rc : Work σ Bool) own := rfl
    refine first.trans ?_
    cases vfsSplit (view.mounted own.rest) abs with
    | none => rfl
    | some place =>
      dsimp only
      split
      · rfl
      · rw [look_bind]
        split <;> rfl

theorem changeDir_null : (NoDirectory view own.rest → changeDir view 0 0 own = .done (-1) own) ∧
    (¬ NoDirectory view own.rest → (changeDir view 0 0 own).Acts) := by
  have first : changeDir view 0 0 own =
      (isDirectory view (zeroPlace view own.rest) own).bind (fun is =>
        if is then truth (.cwdSet 0 (zeroPlace view own.rest)) else return -1) := rfl
  rw [first, isDirectory_run, NoDirectory]
  by_cases root : (zeroPlace view own.rest).drop 1 = []
  · rw [if_pos root]
    exact ⟨fun none => absurd root none.1, fun _ => ⟨_, _, _, rfl⟩⟩
  · rw [if_neg root]
    cases vfsSplit (view.mounted own.rest) (zeroPlace view own.rest) with
    | none => exact ⟨fun _ => rfl, fun there => absurd ⟨root, by simp⟩ there⟩
    | some place =>
      obtain ⟨volume, path⟩ := place
      have standing : (∀ volume' path', some (volume, path) = some (volume', path') →
          path'.drop 1 ≠ [] ∧ view.offers own.rest volume' .statNth = false) ↔
          path.drop 1 ≠ [] ∧ view.offers own.rest volume .statNth = false := by
        constructor
        · exact fun all => all volume path rfl
        · rintro one volume' path' same
          cases same
          exact one
      simp only [standing, ne_eq, root, not_false_eq_true, true_and]
      by_cases bare : path.drop 1 = []
      · rw [if_pos bare]
        exact ⟨fun none => absurd bare none.1, fun _ => ⟨_, _, _, rfl⟩⟩
      · rw [if_neg bare]
        cases view.offers own.rest volume .statNth with
        | false => exact ⟨fun _ => rfl, fun there => absurd ⟨bare, rfl⟩ there⟩
        | true => exact ⟨fun none => absurd none.2 (by decide), fun _ => ⟨_, _, _, rfl⟩⟩

theorem truth_acts (what : Act) (own : Own σ) : (truth what own).Acts := ⟨what, own, _, rfl⟩

theorem dispatch_null (null : m.data = 0) (alive : (own.cardMounted && view.sdFailed own.rest) = false) :
    (Quiet view own m.type → ∃ rc, dispatch view 0 m (kindOf m.type) own = .done rc own) ∧
    (¬ Quiet view own m.type → (dispatch view 0 m (kindOf m.type) own).Acts) := by
  simp only [Quiet, alive, true_and]
  have named : ∀ {op : VolumeOp} {what : Text → Text → Act},
      (Refused view own.rest op → ∃ rc, (makeAbs view 0 0 >>= fun abs => volumeOrFail view abs op
        fun volume path => truth (what volume path)) own = .done rc own) ∧
      (¬ Refused view own.rest op → ((makeAbs view 0 0 >>= fun abs => volumeOrFail view abs op
        fun volume path => truth (what volume path)) own).Acts) := by
    intro op what
    refine ⟨fun refused => ⟨-1, volumeOrFail_null.1 refused⟩, fun offered => ?_⟩
    obtain ⟨volume, path, same⟩ := volumeOrFail_null.2 offered
    rw [same]
    exact truth_acts _ _
  cases kindOf m.type with
  | none => exact ⟨fun _ => ⟨-1, rfl⟩, fun loud => absurd trivial loud⟩
  | some k =>
    cases k with
    | remove =>
      rw [dispatch, null]
      exact named
    | mkdir =>
      rw [dispatch, null]
      exact named
    | rmdir =>
      rw [dispatch, null]
      exact named
    | chdir =>
      rw [dispatch, null]
      exact ⟨fun none => ⟨-1, changeDir_null.1 none⟩, changeDir_null.2⟩
    | mount =>
      rw [dispatch, null, mount, look_bind]
      cases view.hostHasCard own.rest with
      | true => exact ⟨fun _ => ⟨-2, rfl⟩, fun free => absurd rfl free⟩
      | false => exact ⟨fun has => (Bool.false_ne_true has).elim, fun _ => ⟨_, _, _, rfl⟩⟩
    | usbdisk =>
      rw [dispatch, null, usbdisk, look_bind]
      cases view.hostHasCard own.rest with
      | true => exact ⟨fun _ => ⟨-2, rfl⟩, fun free => absurd rfl free⟩
      | false => exact ⟨fun has => (Bool.false_ne_true has).elim, fun _ => ⟨_, _, _, rfl⟩⟩
    | _ => exact ⟨False.elim, fun _ => ⟨_, _, _, rfl⟩⟩

theorem handle_null (null : m.data = 0) :
    (Quiet view own m.type → ∃ rc, handle view 0 m own = .done rc own) ∧
    (¬ Quiet view own m.type → (handle view 0 m own).Acts) := by
  by_cases dead : (own.cardMounted && view.sdFailed own.rest) = true
  · have drops : (dropCardIfDead view own).Acts := by
      simp only [dropCardIfDead, look_bind, dead, if_true]
      exact ⟨_, _, _, rfl⟩
    refine ⟨fun quiet => absurd (dead.symm.trans quiet.1) (by decide), fun _ => ?_⟩
    rw [handle, bind_run]
    exact drops.bind _
  · have alive : (own.cardMounted && view.sdFailed own.rest) = false := by simpa using dead
    have first : handle view 0 m own = dispatch view 0 m (kindOf m.type) own := by
      rw [handle, bind_run, drop_quiet alive]
      rfl
    rw [first]
    exact dispatch_null null alive

theorem lwipServe_null (client : Int) : (lwipServe view client m own).Acts ∨
    ∃ rc why, lwipServe view client m own = .done rc { own with served := own.served + 1, why := why } := by
  rw [lwipServe, change_bind]
  split
  · exact .inr ⟨-1, 99, rfl⟩
  · exact .inl ⟨_, _, _, rfl⟩

end Quiet

section Runs
variable {σ : Type} {n : Nat} [NeZero n] {view : View σ} {world : Act → σ → Reply × σ}
  {w : Machine σ n}

def Machine.Idle (w : Machine σ n) : Prop := ∀ side, w.serving side = none

omit [NeZero n] in
theorem reply_idle {side : Side} {rc : Int} (others : ∀ other, other ≠ side → w.serving other = none) :
    (w.reply side rc).Idle := by
  intro other
  rw [Machine.reply]
  by_cases same : other = side
  · subst same
    cases serves : w.serving other with
    | none => exact serves
    | some client => exact update_self _ _ _
  · cases serves : w.serving side with
    | none => exact others other same
    | some client => exact (update_of_ne same _ _).trans (others other same)

theorem step_idle (idle : w.Idle) (event : Event σ n) : (w.step view world event).Idle := by
  cases event with
  | elsewhere changes => exact idle
  | delivery side d =>
    rw [Machine.step, turn, if_neg (by omega)]
    apply reply_idle
    intro other away
    cases d with
    | message client m => exact (update_of_ne away _ _).trans (idle other)
    | pulse p => exact idle other

theorem run_idle (idle : w.Idle) (events : List (Event σ n)) : (w.run view world events).Idle := by
  induction events generalizing w with
  | nil => exact idle
  | cons event rest ih => exact ih (step_idle idle event)

theorem ignores_iff (idle : w.Idle) (side : Side) (p : Pulse n) :
    Ignores view world w side p ↔ side = .files ∧ Quiet view w.own p.type := by
  have answered : ∀ own rc, ({ w with own := own } : Machine σ n).reply side rc = { w with own := own } := by
    intro own rc
    rw [Machine.reply]
    show (match w.serving side with | none => _ | some client => _) = _
    rw [idle side]
  have zero : (((Delivery.pulse p).client : Nat) : Int) = 0 := by simp [Delivery.client]
  rw [Ignores, turn, zero, if_neg (by omega)]
  show (let (acts, rc, own) := (serve view side 0 (Delivery.pulse p).msg w.own).run (outside world)
    (acts, ({ w with own := own } : Machine σ n).reply side rc)) = ([], w) ↔ _
  simp only [answered]
  cases side with
  | files =>
    have null := @handle_null _ view w.own _ (Delivery.pulse p).msg rfl
    simp only [serve, true_and]
    constructor
    · intro nothing
      by_contra loud
      exact (null.2 loud).run _ (congrArg Prod.fst nothing)
    · intro quiet
      obtain ⟨rc, done⟩ := null.1 quiet
      rw [done]
      rfl
  | sockets =>
    simp only [serve, reduceCtorEq, false_and, iff_false]
    intro nothing
    rcases @lwipServe_null _ view w.own _ (Delivery.pulse p).msg 0 with acts | ⟨rc, why, done⟩
    · exact acts.run _ (congrArg Prod.fst nothing)
    · rw [done] at nothing
      have counted := congrArg (fun w => w.2.own.served) nothing
      simp [Tree.run] at counted

/-- In every run, whatever is delivered, whatever the rest of the kernel answers and
however it changes meanwhile: a pulse is ignored by the filesystem server exactly when
it is quiet, and by the socket server never. -/
theorem run_pulse_ignored (own : Own σ) (events : List (Event σ n)) (side : Side) (p : Pulse n) :
    Ignores view world (Machine.run view world ⟨own, fun _ => none, []⟩ events) side p ↔
      side = .files ∧ Quiet view (Machine.run view world ⟨own, fun _ => none, []⟩ events).own p.type :=
  ignores_iff (run_idle (fun _ => rfl) events) side p

def plain : View Unit where
  sdFailed _ := false
  hostHasCard _ := false
  isSdio _ := false
  mounted _ := []
  offers _ _ _ := false
  cwdOf _ _ := []
  fileAt _ _ _ := none
  string _ _ := []
  fsIo _ _ := ⟨0, 0, 0, 0⟩
  fsDir _ _ := ⟨0, 0⟩
  fsOpen _ _ := ⟨0, 0⟩
  fsFdio _ _ := ⟨0, 0, 0, 0⟩
  fsStat _ _ := ⟨0, 0⟩
  fsExec _ _ := ⟨0, 0⟩
  fsSeek _ _ := ⟨0, 0⟩
  fsRename _ _ := ⟨0, 0⟩
  keyReq _ _ := ⟨0, 0, 0⟩
  fsPath _ _ := ⟨0, 0, 0⟩
  sockOp _ _ := 0

def started : Machine Unit 5 := ⟨⟨false, [], 0, 0, 0, 0, ()⟩, fun _ => none, []⟩

/-- A pulse of no type the server has is ignored, also after one that mounts the card. -/
theorem run_pulse_ignored_stray :
    Ignores plain (fun _ s => (⟨1, 0⟩, s)) (Machine.run plain (fun _ s => (⟨1, 0⟩, s)) started
      [.delivery .files (.pulse ⟨1, 2, 9, 0⟩)]) .files ⟨1, 2, 21, 0⟩ := by
  refine (run_pulse_ignored started.own _ .files _).mpr ⟨rfl, rfl, ?_⟩
  have kind : kindOf 21 = none := by decide
  simp only [kind]

/-- A pulse of the type of a mount mounts the card, one of the type of a setting goes
through address zero to the settings, and the socket server counts every one. -/
theorem pulses_act :
    turn plain (fun _ s => (⟨1, 0⟩, s)) .files 0 (Delivery.pulse ⟨1, 2, 9, 0⟩).msg started =
        ([.sdInit, .fatMount, .vfsAdd sd], { started with own.cardMounted := true }) ∧
      (turn plain (fun _ s => (⟨1, 0⟩, s)) .files 0 (Delivery.pulse ⟨1, 2, 20, 0⟩).msg started).1 =
        [.follow 0, .configStore 0] ∧
      ¬ Ignores plain (fun _ s => (⟨1, 0⟩, s)) started .files ⟨1, 2, 9, 0⟩ ∧
      ¬ Ignores plain (fun _ s => (⟨1, 0⟩, s)) started .sockets ⟨1, 2, 0, 0⟩ := by
  refine ⟨rfl, rfl, ?_, ?_⟩
  · intro ignored
    exact List.cons_ne_nil _ _ (congrArg Prod.fst ignored)
  · intro ignored
    exact absurd (congrArg (fun w => w.2.own.served) ignored) (by decide)

end Runs

end Ubiqos.Servers
