import Ubiqos.Kernel.Deadlines

/-!
The interrupt key, as `kernel/io.c` and `kernel/scheduler.c` divide it. A press
reaches the process a terminal has in front. One that asked is told and given a
deadline; at the next press, or at the tick the deadline is past, it is ended.
The deadline is a sum of ticks that wraps, kept in a signed word of which only
the positive half means that there is one.
-/

namespace Ubiqos

open Function Machine
open SleepList (sleepRemove tickHead takeFirst)

variable {n : Nat}

def Ended (s : Kernel n) (pid : Pid n) : Prop := s.state pid = .free ∨ s.state pid = .zombie

structure Spares (pid : Pid n) (s t : Kernel n) : Prop where
  pulse : t.intr.pulse pid = s.intr.pulse pid
  deadline : t.intr.deadline pid = s.intr.deadline pid
  module : t.life.module pid = s.life.module pid
  ticks : t.ticks = s.ticks
  ended : Ended t pid ↔ Ended s pid

section Spares
variable {s t u : Kernel n} {pid : Pid n}

theorem Spares.refl (pid : Pid n) (s : Kernel n) : Spares pid s s := ⟨rfl, rfl, rfl, rfl, Iff.rfl⟩

theorem Spares.trans (first : Spares pid s t) (second : Spares pid t u) : Spares pid s u :=
  ⟨second.pulse.trans first.pulse, second.deadline.trans first.deadline,
    second.module.trans first.module, second.ticks.trans first.ticks,
    second.ended.trans first.ended⟩

theorem Spares.states (intr : t.intr = s.intr) (module : t.life.module = s.life.module)
    (ticks : t.ticks = s.ticks)
    (state : t.state pid = s.state pid ∨ (¬ Ended s pid ∧ ¬ Ended t pid)) : Spares pid s t := by
  refine ⟨by rw [intr], by rw [intr], by rw [module], ticks, ?_⟩
  rcases state with same | ⟨before, after⟩
  · rw [Ended, Ended, same]
  · exact iff_of_false after before

theorem makeReady_spares {other : Pid n} (there : ¬ Ended s other) :
    Spares pid s (makeReady s other) := by
  refine Spares.states rfl rfl rfl ?_
  by_cases same : pid = other
  · subst same
    exact Or.inr ⟨there, by simp [Ended, makeReady]⟩
  · exact Or.inl (update_of_ne same _ _)

theorem wakeWaiters_spares (s : Kernel n) (gone : Pid n) : Spares pid s (wakeWaiters s gone) := by
  refine foldl_invariant (fun t => Spares pid s t) (.refl pid s) ?_
  intro t i _ soFar
  unfold wakeWaiter
  split
  · rename_i waiting
    exact soFar.trans (makeReady_spares (by simp [Ended, waiting.1]))
  · exact soFar

theorem unTime_spares (s : Kernel n) (other : Pid n) : Spares pid s (unTime s other) := by
  unfold unTime
  split
  · exact ⟨rfl, rfl, rfl, rfl, Iff.rfl⟩
  · exact .refl pid s

theorem pulseDeliver_spares (s : Kernel n) (raw : Int) (origin : Pid n) (type value : U32) :
    Spares pid s (pulseDeliver s raw origin type value).1 := by
  unfold pulseDeliver
  split
  · exact .refl pid s
  · rename_i dest _
    dsimp only
    split
    · exact .refl pid s
    · split
      · rename_i waiting
        have untimed : Spares pid s (unTime s dest) := unTime_spares s dest
        have handed : Spares pid (unTime s dest) (makeReady (unTime s dest) dest) := makeReady_spares
          (by rw [Ended, unTime_state, waiting]; simp)
        refine untimed.trans ⟨handed.pulse, handed.deadline, handed.module, handed.ticks, ?_⟩
        exact handed.ended
      · split
        · exact .refl pid s
        · exact ⟨rfl, rfl, rfl, rfl, Iff.rfl⟩

theorem killWaiting_spares {gone : Pid n} (away : gone ≠ pid) :
    Spares pid s (killWaiting s gone) := by
  have marked : Spares pid s
      (setState { s with sleep := sleepRemove s.sleep gone } gone .zombie) :=
    Spares.states rfl rfl rfl (Or.inl (update_of_ne away.symm _ _))
  exact marked.trans (wakeWaiters_spares _ gone)

theorem wakeReader_spares (readable writable : Int → Pid n → Bool) (s : Kernel n) (i : Pid n) :
    Spares pid s (wakeReader readable writable s i) := by
  unfold wakeReader
  split
  · rename_i waiting
    split
    · exact makeReady_spares (by simp [Ended, waiting])
    · exact .refl pid s
  · rename_i waiting
    split
    · exact makeReady_spares (by simp [Ended, waiting])
    · exact .refl pid s
  · exact .refl pid s

theorem overdue_spares (spares : Spares pid s t) (there : ¬ Ended s pid) :
    overdue t pid = overdue s pid := by
  have before : s.state pid ≠ .free := fun free => there (Or.inl free)
  have after : t.state pid ≠ .free := fun free => there (spares.ended.mp (Or.inl free))
  simp [overdue, before, after, spares.pulse, spares.deadline, spares.ticks]

end Spares

variable [NeZero n]

section Kills
variable {s t : Kernel n} {pid : Pid n}

theorem tellParent_spares (s : Kernel n) (gone : Pid n) : Spares pid s (tellParent s gone) := by
  unfold tellParent
  dsimp only
  split
  · exact ⟨rfl, rfl, rfl, rfl, Iff.rfl⟩
  · have noted : ∀ event, Spares pid s (note (noParent s gone) event) :=
      fun _ => ⟨rfl, rfl, rfl, rfl, Iff.rfl⟩
    exact (noted _).trans (pulseDeliver_spares _ _ _ _ _)

theorem killNow_spares {gone : Pid n} (away : gone ≠ pid) : Spares pid s (killNow s gone) := by
  obtain ⟨⟨state, a0, ready, mail, frame⟩, _, others⟩ := depart_frame s gone
  have departed : Spares pid s (depart s gone) := by
    refine Spares.states (by rw [frame]) (by rw [frame]) (by rw [frame]) ?_
    rcases (others pid away.symm).1 with ⟨same, _⟩ | ⟨before, after⟩
    · exact Or.inl same
    · exact Or.inr ⟨by simp [Ended, before], by simp [Ended, after]⟩
  have back : Spares pid s (handBack (armsDropFor (leave s gone) gone) gone) :=
    departed.trans ⟨rfl, rfl, rfl, rfl, Iff.rfl⟩
  have orphaned : Spares pid s (undone s gone) :=
    (back.trans (wakeWaiters_spares _ gone)).trans ⟨rfl, rfl, rfl, rfl, Iff.rfl⟩
  rw [killNow_eq]
  exact orphaned.trans (tellParent_spares _ gone)

theorem killNow_ends (s : Kernel n) (pid : Pid n) : Ended (killNow s pid) pid := by
  obtain ⟨_, freed, _⟩ := depart_frame s pid
  have left : Ended (handBack (armsDropFor (leave s pid) pid) pid) pid := Or.inl freed
  have orphaned : Ended (undone s pid) pid := (wakeWaiters_spares _ pid).ended.mpr left
  rw [killNow_eq]
  exact (tellParent_spares _ pid).ended.mpr orphaned

theorem processKill_spares {raw : Int} (away : raw ≠ (pid : Nat)) :
    Spares pid s (processKill s raw).1 := by
  unfold processKill
  split
  · exact .refl pid s
  · rename_i gone found
    have other : gone ≠ pid := by
      rintro rfl
      exact away (pidOf_some found).1
    have marked : Spares pid s (setEndReason s gone endKilled) := ⟨rfl, rfl, rfl, rfl, Iff.rfl⟩
    dsimp only
    split
    · exact .refl pid s
    · split
      · exact marked.trans (killWaiting_spares other)
      · exact marked.trans (killNow_spares other)

theorem processKill_ended (nonzero : pid ≠ 0) (ended : Ended s pid) :
    processKill s (pid : Nat) = (s, false) := by
  unfold processKill
  rw [pidOf_coe nonzero]
  rcases ended with free | zombie <;> simp [*]

theorem processKill_ends (nonzero : pid ≠ 0) (process : (s.life.module pid).isSome = true) :
    Ended (processKill s (pid : Nat)).1 pid := by
  by_cases ended : Ended s pid
  · rw [processKill_ended nonzero ended]
    exact ended
  · unfold processKill
    rw [pidOf_coe nonzero]
    dsimp only
    have there : ¬ (s.state pid = .free ∨ s.state pid = .zombie ∨ s.life.module pid = none) := by
      rintro (free | zombie | thread)
      · exact ended (Or.inl free)
      · exact ended (Or.inr zombie)
      · simp [thread] at process
    rw [if_neg there]
    split
    · have zombie : Ended (setState { setEndReason s pid endKilled with
          sleep := sleepRemove s.sleep pid } pid .zombie) pid := Or.inr (by simp [setState])
      exact (wakeWaiters_spares _ pid).ended.mpr zombie
    · exact killNow_ends _ pid

end Kills

section Ticks
variable {s t : Kernel n} {pid : Pid n}

theorem fireArm_spares (readable : Int → Pid n → Bool) (s : Kernel n) (i : Fin 8) :
    Spares pid s (fireArm readable s i) := by
  have cleared : ∀ t : Kernel n, Spares pid t (clearArm t i) :=
    fun t => ⟨rfl, rfl, rfl, rfl, Iff.rfl⟩
  unfold fireArm
  dsimp only
  split
  · exact .refl pid s
  · split
    · exact cleared s
    · split
      · have noted : Spares pid s (note s (.fired (s.arms i).pulse)) :=
          ⟨rfl, rfl, rfl, rfl, Iff.rfl⟩
        exact (noted.trans (pulseDeliver_spares _ _ _ _ _)).trans (cleared _)
      · exact .refl pid s

theorem wakeReaders_spares (readable writable : Int → Pid n → Bool) (s : Kernel n) :
    Spares pid s (wakeReaders readable writable s) := by
  have readers : Spares pid s ((slots n).foldl (wakeReader readable writable) s) :=
    foldl_invariant (fun t => Spares pid s t) (.refl pid s)
      (fun t i _ soFar => soFar.trans (wakeReader_spares readable writable t i))
  exact foldl_invariant (fun t => Spares pid s t) readers
    (fun t i _ soFar => soFar.trans (fireArm_spares readable t i))

theorem sleepTick_spares (sched : Scheduled s) : Spares pid s (sleepTick s) := by
  have both : Scheduled (sleepTick s) ∧ Spares pid s (sleepTick s) := by
    refine sleepTick_invariant (fun t => Scheduled t ∧ Spares pid s t) ?_ ?_ ⟨sched, .refl pid s⟩
    · rintro t ⟨sched, soFar⟩
      exact ⟨tickHead_scheduled sched, soFar.trans ⟨rfl, rfl, rfl, rfl, Iff.rfl⟩⟩
    · rintro t sleeper first _ ⟨sched, soFar⟩
      refine ⟨rouse_scheduled sched first, soFar.trans ?_⟩
      have late : Spares pid t (timeOut { t with sleep := takeFirst t.sleep sleeper } sleeper) ∧
          (timeOut { t with sleep := takeFirst t.sleep sleeper } sleeper).state = t.state := by
        unfold timeOut
        split <;> exact ⟨⟨rfl, rfl, rfl, rfl, Iff.rfl⟩, rfl⟩
      refine late.1.trans (makeReady_spares ?_)
      rw [Ended, late.2]
      rcases sched.first_asleep first with asleep | ⟨waiting, _⟩
      · simp [asleep]
      · simp [waiting]
  exact both.2

theorem switch_spares (sched : Scheduled s) : Spares pid s (switch s) := by
  obtain ⟨state, ready, current, frame, moved⟩ := switch_frame sched
  have running : ∀ {now : ProcState}, Runnable now → ¬ (now = .free ∨ now = .zombie) := by
    rintro now (rfl | rfl) <;> simp
  rw [frame]
  refine Spares.states rfl rfl rfl ?_
  rcases moved pid with same | ⟨before, after⟩
  · exact Or.inl same
  · exact Or.inr ⟨running before, running after⟩

theorem intrExpire_spares {i : Pid n} (away : i ≠ pid) : Spares pid s (intrExpire s i) := by
  unfold intrExpire
  split
  · have marked : Spares pid s (setDeadline s i failed) :=
      ⟨rfl, update_of_ne away.symm _ _, rfl, rfl, Iff.rfl⟩
    refine marked.trans (processKill_spares ?_)
    intro same
    exact away (Fin.ext (by exact_mod_cast same))
  · exact .refl pid s

theorem intrTick_spares (there : ¬ Ended s pid) (early : overdue s pid = false) :
    Spares pid s (intrTick s) := by
  refine foldl_invariant (fun t => Spares pid s t) (.refl pid s) ?_
  intro t i _ soFar
  by_cases same : i = pid
  · subst same
    rw [intrExpire, overdue_spares soFar there, early]
    exact soFar
  · exact soFar.trans (intrExpire_spares same)

theorem intrTick_ends (nonzero : pid ≠ 0) (process : (s.life.module pid).isSome = true)
    (there : ¬ Ended s pid) (due : overdue s pid = true) : Ended (intrTick s) pid := by
  obtain ⟨front, back, visited⟩ := List.append_of_mem (mem_slots.mpr nonzero)
  have once := slots_nodup n
  rw [visited] at once
  have apart := List.nodup_append.mp once
  unfold intrTick
  rw [visited, List.foldl_append, List.foldl_cons]
  have before : Spares pid s (front.foldl intrExpire s) := by
    refine foldl_invariant (fun t => Spares pid s t) (.refl pid s) ?_
    intro t i member soFar
    refine soFar.trans (intrExpire_spares ?_)
    exact apart.2.2 i member pid List.mem_cons_self
  generalize front.foldl intrExpire s = t at before
  have turn : Ended (intrExpire t pid) pid := by
    rw [intrExpire, overdue_spares before there, due]
    refine processKill_ends nonzero ?_
    have same : (setDeadline t pid failed).life.module pid = s.life.module pid := before.module
    rw [same]
    exact process
  refine foldl_invariant (fun t => Ended t pid) turn ?_
  intro t i member ended
  refine (intrExpire_spares ?_).ended.mpr ended
  rintro rfl
  exact (List.nodup_cons.mp apart.2.1).1 member

def expiring (readable writable : Int → Pid n → Bool) (s : Kernel n) : Kernel n :=
  sleepTick (swept readable writable s)

theorem expiring_spares (readable writable : Int → Pid n → Bool) (sched : Scheduled s) :
    Spares pid { s with ticks := s.ticks + 1 } (expiring readable writable s) := by
  have met : Along (fireArm readable) (fun s i => meetsFire (Discipline.none n) readable s i = true)
      ((slots n).foldl (wakeReader readable writable) { s with ticks := s.ticks + 1 })
      (List.finRange 8) := by
    refine along_always ?_ _ _
    intro s i
    simp [meetsFire]
  have reached : Moves (Discipline.none n) s (swept readable writable s) :=
    .head (Move.other s _ _ _ _ _) (wakeReaders_moves readable writable _ met)
  have kept : Scheduled (swept readable writable s) :=
    moves_invariant Scheduled (fun _ _ => move_scheduled) reached sched
  have woken : Spares pid { s with ticks := s.ticks + 1 } (swept readable writable s) :=
    wakeReaders_spares readable writable _
  exact woken.trans (sleepTick_spares kept)

variable {readable writable : Int → Pid n → Bool}

theorem tick_early (settled : Settled s)
    (there : ¬ Ended s pid) (early : overdue { s with ticks := s.ticks + 1 } pid = false) :
    Spares pid { s with ticks := s.ticks + 1 } (step s (.tick readable writable)) := by
  have before : Spares pid { s with ticks := s.ticks + 1 } (expiring readable writable s) :=
    expiring_spares readable writable settled.1
  have expired := intrTick_spares (fun ended => there (before.ended.mp ended))
    ((overdue_spares before there).trans early)
  exact (before.trans expired).trans
    (switch_spares (trap_scheduled settled (.tick readable writable)))

theorem tick_due (settled : Settled s) (nonzero : pid ≠ 0)
    (process : (s.life.module pid).isSome = true) (there : ¬ Ended s pid)
    (due : overdue { s with ticks := s.ticks + 1 } pid = true) :
    Ended (step s (.tick readable writable)) pid := by
  have before : Spares pid { s with ticks := s.ticks + 1 } (expiring readable writable s) :=
    expiring_spares readable writable settled.1
  have ends := intrTick_ends nonzero (by rw [before.module]; exact process)
    (fun ended => there (before.ended.mp ended)) ((overdue_spares before there).trans due)
  exact (switch_spares (trap_scheduled settled (.tick readable writable))).ended.mpr ends

theorem tick_ended (settled : Settled s) (nonzero : pid ≠ 0)
    (ended : Ended s pid) : Ended (step s (.tick readable writable)) pid := by
  have before : Spares pid { s with ticks := s.ticks + 1 } (expiring readable writable s) :=
    expiring_spares readable writable settled.1
  have still := before.ended.mpr ended
  have expired : Ended (intrTick (expiring readable writable s)) pid := by
    refine foldl_invariant (fun t => Ended t pid) still ?_
    intro t i _ ended
    by_cases same : i = pid
    · subst same
      unfold intrExpire
      split
      · have marked : Ended (setDeadline t i failed) i := ended
        rw [processKill_ended nonzero marked]
        exact marked
      · exact ended
    · exact (intrExpire_spares same).ended.mpr ended
  exact (switch_spares (trap_scheduled settled (.tick readable writable))).ended.mpr expired

end Ticks

section Presses
variable {s : Kernel n} {pid : Pid n}

variable {raw : Int}

theorem intrRequest_refused (refused : (intrRequest s raw).2 = false) :
    (intrRequest s raw).1 = s := by
  unfold intrRequest at refused ⊢
  split
  · rfl
  · rename_i victim found
    simp only [found] at refused
    split
    · rfl
    · rename_i asked
      rw [if_neg asked] at refused
      exact absurd refused (by simp)

theorem intrRequest_spares (away : raw ≠ (pid : Nat)) :
    Spares pid s (intrRequest s raw).1 := by
  unfold intrRequest
  split
  · exact .refl pid s
  · rename_i victim found
    have other : pid ≠ victim := by
      rintro rfl
      exact away (pidOf_some found).1
    split
    · exact .refl pid s
    · have marked : ∀ deadline, Spares pid s (setDeadline s victim deadline) :=
        fun deadline => ⟨rfl, update_of_ne other _ _, rfl, rfl, Iff.rfl⟩
      exact (marked _).trans (pulseDeliver_spares _ _ _ _ _)

theorem interruptNow_spares (away : raw ≠ (pid : Nat)) :
    Spares pid s (interruptNow s raw).1 := by
  have asked := intrRequest_spares (s := s) away
  unfold interruptNow
  split
  · rename_i t told
    rw [told] at asked
    exact asked
  · rename_i t refused
    rw [refused] at asked
    exact asked.trans (processKill_spares away)

theorem interruptNow_settled (settled : Settled s)
    (other : raw ≠ (s.current : Nat) ∨ s.life.module s.current = none) :
    Settled (interruptNow s raw).1 := by
  have rule : meetsInterrupt (Discipline.none n) s raw = true := by
    simp only [meetsInterrupt, meetsKill, meetsReap, Discipline.none, Bool.true_and]
    split
    · rfl
    · split
      · rfl
      · split
        · rfl
        · split
          · rfl
          · split <;> rfl
  have runs := interruptNow_runs ⟨rfl, settled.2⟩ raw (fun _ => other)
  refine ⟨moves_invariant Scheduled (fun _ _ => move_scheduled)
    (interruptNow_moves s raw rule) settled.1, ?_⟩
  rw [runs.1]
  exact runs.2

def deadlineFor (ticks : U32) : U32 :=
  if ticks + intrGraceTicks = 0 then 1 else ticks + intrGraceTicks

theorem intrRequest_told (told : (intrRequest s (pid : Nat)).2 = true) :
    pid ≠ 0 ∧ s.intr.pulse pid ≠ 0 ∧
      Spares pid (setDeadline s pid (deadlineFor s.ticks)) (intrRequest s (pid : Nat)).1 := by
  unfold intrRequest at told ⊢
  cases found : pidOf n (pid : Nat) with
  | none => simp [found] at told
  | some victim =>
    have same : victim = pid := Fin.ext (by exact_mod_cast (pidOf_some found).1.symm)
    subst same
    have nonzero := pidOf_ne_zero found
    simp only [found] at told ⊢
    split at told
    · exact absurd told (by simp)
    · rename_i asked
      rw [if_neg asked]
      push Not at asked
      exact ⟨nonzero, asked.2.1, pulseDeliver_spares _ _ _ _ _⟩

theorem interruptNow_ends (nonzero : pid ≠ 0)
    (refused : Ended s pid ∨ ((s.life.module pid).isSome = true ∧
      (intrRequest s (pid : Nat)).2 = false)) : Ended (interruptNow s (pid : Nat)).1 pid := by
  unfold interruptNow
  split
  · rename_i t told
    have asked : (intrRequest s (pid : Nat)).2 = true := by rw [told]
    have spares := (intrRequest_told asked).2.2
    rw [told] at spares
    rcases refused with ended | ⟨_, silent⟩
    · exact spares.ended.mpr ended
    · rw [asked] at silent
      exact absurd silent (by simp)
  · rename_i t silent
    have same : t = s := by
      have kept := intrRequest_refused (by rw [silent])
      rwa [silent] at kept
    rw [same]
    rcases refused with ended | ⟨process, _⟩
    · rw [processKill_ended nonzero ended]
      exact ended
    · exact processKill_ends nonzero process

end Presses

/-- `foreground` is a field of a console's device and of a pipe pair's ring: the
process the key at that place is for, or a number that is none. -/
structure Terminals (n : Nat) (Place : Type) where
  kernel : Kernel n
  foreground : Place → Int

inductive KeyEvent (n : Nat) (Place : Type) where
  | tick (readable writable : Int → Pid n → Bool)
  | press (place : Place)

def ticksOf {Place : Type} : List (KeyEvent n Place) → Nat
  | [] => 0
  | .tick _ _ :: rest => ticksOf rest + 1
  | .press _ :: rest => ticksOf rest

section Terminals
variable {Place : Type} [DecidableEq Place]

/-- `ubiqos_io_interrupt` once it has found the device, and
`ubiqos_io_interrupt_path` once it has found the ring. The flag is whether the
key was used up; what a console echoes is not here. -/
def ioInterrupt (w : Terminals n Place) (place : Place) : Terminals n Place × Bool :=
  let victim := w.foreground place
  if victim ≤ 0 then (w, false)
  else
    match intrRequest w.kernel victim with
    | (s, true) => ({ w with kernel := s }, true)
    | (s, false) =>
      ({ kernel := (processKill s victim).1
         foreground := update w.foreground place (-1) }, true)

def Terminals.step (w : Terminals n Place) : KeyEvent n Place → Terminals n Place
  | .tick readable writable =>
    { w with kernel := Ubiqos.step w.kernel (.tick readable writable) }
  | .press place => (ioInterrupt w place).1

/-- A press is brought by the process that runs, which is not the one it is for,
and it does not ask `pid` again. -/
def Unasked (pid : Pid n) (w : Terminals n Place) : KeyEvent n Place → Prop
  | .tick _ _ => True
  | .press place =>
    w.foreground place ≠ (pid : Nat) ∧
      (w.foreground place ≠ (w.kernel.current : Nat) ∨
        w.kernel.life.module w.kernel.current = none)

/-- What the key promises once `pid` has been told: asked again while it is still
there it is ended, and left alone it is ended at the five hundredth tick. -/
structure Heeded (w : Terminals n Place) (pid : Pid n) : Prop where
  second : ∀ events, Along Terminals.step (Unasked pid) w events →
    ¬ Ended (events.foldl Terminals.step w).kernel pid →
      (intrRequest (events.foldl Terminals.step w).kernel (pid : Nat)).2 = false
  ends : ∀ events, Along Terminals.step (Unasked pid) w events → ∀ place,
    (events.foldl Terminals.step w).foreground place = (pid : Nat) →
      Ended (ioInterrupt (events.foldl Terminals.step w) place).1.kernel pid
  early : ∀ events, Along Terminals.step (Unasked pid) w events → ticksOf events < 500 →
    ¬ Ended (events.foldl Terminals.step w).kernel pid
  due : ∀ events, Along Terminals.step (Unasked pid) w events → 500 ≤ ticksOf events →
    Ended (events.foldl Terminals.step w).kernel pid

variable {w : Terminals n Place} {pid : Pid n}

variable {place : Place}

theorem ioInterrupt_kernel (front : 0 < w.foreground place) :
    (ioInterrupt w place).1.kernel = (interruptNow w.kernel (w.foreground place)).1 := by
  unfold ioInterrupt interruptNow
  dsimp only
  rw [if_neg (by omega)]
  cases intrRequest w.kernel (w.foreground place) with
  | mk s told => cases told <;> rfl

theorem press_spares (away : w.foreground place ≠ (pid : Nat)) :
    Spares pid w.kernel (ioInterrupt w place).1.kernel := by
  by_cases front : 0 < w.foreground place
  · rw [ioInterrupt_kernel front]
    exact interruptNow_spares away
  · rw [ioInterrupt, if_pos (by omega)]
    exact .refl pid w.kernel

theorem press_settled (settled : Settled w.kernel)
    (other : w.foreground place ≠ (w.kernel.current : Nat) ∨
      w.kernel.life.module w.kernel.current = none) :
    Settled (ioInterrupt w place).1.kernel := by
  by_cases front : 0 < w.foreground place
  · rw [ioInterrupt_kernel front]
    exact interruptNow_settled settled other
  · rw [ioInterrupt, if_pos (by omega)]
    exact settled

/-- A process that was told `k` ticks ago, at `base`, and has `deadline` in its slot. -/
structure Warned (pid : Pid n) (base deadline : U32) (k : Nat) (w : Terminals n Place) : Prop where
  settled : Settled w.kernel
  there : ¬ Ended w.kernel pid
  process : (w.kernel.life.module pid).isSome = true
  pulse : w.kernel.intr.pulse pid ≠ 0
  deadline : w.kernel.intr.deadline pid = deadline
  ticks : w.kernel.ticks = base + BitVec.ofNat 32 k

/-- The test of `ubiqos_intr_tick`, `k` ticks later. -/
def Late (base deadline : U32) (k : Nat) : Prop :=
  0 < deadline.toInt ∧ 0 ≤ (base + BitVec.ofNat 32 k - deadline).toInt

variable {base deadline : U32} {k : Nat}

omit [DecidableEq Place] in
theorem Warned.overdue_iff (told : Warned pid base deadline k w) :
    overdue { w.kernel with ticks := w.kernel.ticks + 1 } pid = true ↔
      Late base deadline (k + 1) := by
  have there : w.kernel.state pid ≠ .free := fun free => told.there (Or.inl free)
  have counted : w.kernel.ticks + 1 = base + BitVec.ofNat 32 (k + 1) := by
    rw [told.ticks, BitVec.ofNat_add, BitVec.add_assoc]
    rfl
  simp only [overdue, there, told.pulse, told.deadline, counted, Late, ne_eq, not_false_eq_true,
    true_and, decide_eq_true_eq]

omit [DecidableEq Place] in
theorem Warned.spared (told : Warned pid base deadline k w) {v : Terminals n Place}
    (settled : Settled v.kernel) (spares : Spares pid w.kernel v.kernel) :
    Warned pid base deadline k v :=
  ⟨settled, fun ended => told.there (spares.ended.mp ended), by rw [spares.module]; exact told.process,
    by rw [spares.pulse]; exact told.pulse, spares.deadline.trans told.deadline,
    spares.ticks.trans told.ticks⟩

theorem Warned.tick (told : Warned pid base deadline k w) (early : ¬ Late base deadline (k + 1))
    (readable writable : Int → Pid n → Bool) :
    Warned pid base deadline (k + 1) (w.step (.tick readable writable)) := by
  have waits : overdue { w.kernel with ticks := w.kernel.ticks + 1 } pid = false := by
    rw [← Bool.not_eq_true, told.overdue_iff]
    exact early
  have spares : Spares pid { w.kernel with ticks := w.kernel.ticks + 1 }
      (step w.kernel (.tick readable writable)) := tick_early told.settled told.there waits
  refine ⟨step_settled told.settled _, fun ended => told.there (spares.ended.mp ended), ?_, ?_,
    spares.deadline.trans told.deadline, ?_⟩
  · have same := spares.module
    simp only [Terminals.step]
    rw [same]
    exact told.process
  · have same := spares.pulse
    simp only [Terminals.step]
    rw [same]
    exact told.pulse
  · refine spares.ticks.trans ?_
    dsimp only
    rw [told.ticks, BitVec.ofNat_add, BitVec.add_assoc]
    rfl

theorem Warned.press (told : Warned pid base deadline k w)
    (unasked : Unasked pid w (.press place)) : Warned pid base deadline k (w.step (.press place)) :=
  told.spared (press_settled told.settled unasked.2) (press_spares unasked.1)

variable {events : List (KeyEvent n Place)}

theorem Warned.run (told : Warned pid base deadline k w)
    (unasked : Along Terminals.step (Unasked pid) w events)
    (early : ∀ j, k < j → j ≤ k + ticksOf events → ¬ Late base deadline j) :
    Warned pid base deadline (k + ticksOf events) (events.foldl Terminals.step w) := by
  induction events generalizing w k with
  | nil => exact told
  | cons event rest ih =>
    cases event with
    | tick readable writable =>
      have next := told.tick (early (k + 1) (by omega) (by simp only [ticksOf]; omega))
        readable writable
      have after := ih next unasked.2 (fun j above below =>
        early j (by omega) (by simp only [ticksOf]; omega))
      simp only [ticksOf, List.foldl_cons]
      rwa [show k + (ticksOf rest + 1) = k + 1 + ticksOf rest by omega]
    | press place => exact ih (told.press unasked.1) unasked.2 early

theorem ended_run (nonzero : pid ≠ 0) (settled : Settled w.kernel) (ended : Ended w.kernel pid)
     (unasked : Along Terminals.step (Unasked pid) w events) :
    Ended (events.foldl Terminals.step w).kernel pid := by
  have both := along_invariant (fun w => Settled w.kernel ∧ Ended w.kernel pid) unasked
    ⟨settled, ended⟩ ?_
  · exact both.2
  · rintro w event _ allowed ⟨settled, ended⟩
    cases event with
    | tick readable writable =>
      exact ⟨step_settled settled _, tick_ended settled nonzero ended⟩
    | press place =>
      exact ⟨press_settled settled allowed.2, (press_spares allowed.1).ended.mpr ended⟩

theorem Warned.expires (told : Warned pid base deadline k w) (nonzero : pid ≠ 0) {last : Nat}
    (late : Late base deadline last) (early : ∀ j, k < j → j < last → ¬ Late base deadline j)
    (before : k < last)
    (unasked : Along Terminals.step (Unasked pid) w events) (enough : last ≤ k + ticksOf events) :
    Ended (events.foldl Terminals.step w).kernel pid := by
  induction events generalizing w k with
  | nil =>
    simp only [ticksOf] at enough
    omega
  | cons event rest ih =>
    cases event with
    | tick readable writable =>
      by_cases now : k + 1 = last
      · have ends : Ended (step w.kernel (.tick readable writable)) pid :=
          tick_due told.settled nonzero told.process told.there
            (told.overdue_iff.mpr (by rw [now]; exact late))
        exact ended_run (w := w.step (.tick readable writable)) nonzero
          (step_settled told.settled _) ends unasked.2
      · have next := told.tick (early (k + 1) (by omega) (by omega)) readable writable
        refine ih next (fun j above below => early j (by omega) below) (by omega) unasked.2 ?_
        simp only [ticksOf] at enough
        omega
    | press place => exact ih (told.press unasked.1) early before unasked.2 enough

theorem gap (base : U32) {j d : Nat} (small : j ≤ 1000) (small' : d ≤ 1000) :
    (base + BitVec.ofNat 32 j - (base + BitVec.ofNat 32 d)).toInt = (j : Int) - d := by
  rw [add_sub_add_left_eq_sub, BitVec.toInt_eq_toNat_cond, BitVec.toNat_sub, BitVec.toNat_ofNat,
    BitVec.toNat_ofNat]
  split <;> omega

theorem late_iff (base : U32) (positive : 0 < (base + intrGraceTicks).toInt) {j : Nat}
    (near : j ≤ 500) : Late base (base + intrGraceTicks) j ↔ j = 500 := by
  have distance := gap base (j := j) (d := 500) (by omega) (by omega)
  have same : intrGraceTicks = BitVec.ofNat 32 500 := rfl
  unfold Late
  rw [same] at positive ⊢
  rw [distance]
  omega

theorem late_wrapped {base : U32} (zero : base + intrGraceTicks = 0) {j : Nat} (near : j ≤ 500) :
    ¬ Late base 1 j := by
  have one : (1 : U32) = base + BitVec.ofNat 32 501 := by
    have next : BitVec.ofNat 32 501 = intrGraceTicks + 1 := rfl
    rw [next, ← BitVec.add_assoc, zero]
    rfl
  have distance := gap base (j := j) (d := 501) (by omega) (by omega)
  rintro ⟨_, late⟩
  rw [one, distance] at late
  omega

def grace (n : Nat) (Place : Type) : List (KeyEvent n Place) :=
  List.replicate 500 (.tick (fun _ _ => false) (fun _ _ => false))

omit [NeZero n] [DecidableEq Place] in
theorem ticksOf_replicate (count : Nat) (readable writable : Int → Pid n → Bool) :
    ticksOf (List.replicate count (.tick readable writable : KeyEvent n Place)) = count := by
  induction count with
  | zero => rfl
  | succ count ih => simp only [List.replicate_succ, ticksOf, ih]

theorem unasked_replicate (w : Terminals n Place) (pid : Pid n) (count : Nat)
    (readable writable : Int → Pid n → Bool) :
    Along Terminals.step (Unasked pid) w
      (List.replicate count (KeyEvent.tick readable writable)) := by
  induction count generalizing w with
  | zero => trivial
  | succ count ih => exact ⟨trivial, ih _⟩

section Directions
variable {v : Terminals n Place}

theorem Heeded.positive (heeded : Heeded v pid) (nonzero : pid ≠ 0)
    (told : Warned pid base (deadlineFor base) 0 v) : 0 < (base + intrGraceTicks).toInt := by
  by_contra unreachable
  by_cases zero : base + intrGraceTicks = 0
  · -- the deadline is one instead, and the five hundredth tick is not it
    have deadline : deadlineFor base = 1 := if_pos zero
    rw [deadline] at told
    have still := told.run (unasked_replicate v pid 500 (fun _ _ => false) (fun _ _ => false))
      (fun j _ below => late_wrapped zero (by rw [ticksOf_replicate] at below; omega))
    refine still.there (heeded.due (grace n Place) (unasked_replicate _ _ _ _ _) ?_)
    exact Nat.le_of_eq (ticksOf_replicate _ _ _).symm
  · -- a negative deadline reads as none, so the process is told again
    have deadline : deadlineFor base = base + intrGraceTicks := if_neg zero
    have again := heeded.second [] trivial told.there
    have notFree : v.kernel.state pid ≠ .free := fun free => told.there (Or.inl free)
    have negative : ¬ 0 ≤ (v.kernel.intr.deadline pid).toInt := by
      rw [told.deadline, deadline]
      intro positive
      have notZero : (base + intrGraceTicks).toInt ≠ 0 := by
        intro same
        exact zero (BitVec.eq_of_toInt_eq (by simpa using same))
      omega
    have request : (intrRequest v.kernel (pid : Nat)).2 = true := by
      unfold intrRequest
      rw [pidOf_coe nonzero]
      dsimp only
      rw [if_neg]
      rintro (free | silent | held)
      · exact notFree free
      · exact told.pulse silent
      · exact negative held
    rw [List.foldl_nil, request] at again
    exact absurd again (by simp)

theorem Warned.heeded (told : Warned pid base (deadlineFor base) 0 v) (nonzero : pid ≠ 0)
    (positive : 0 < (base + intrGraceTicks).toInt) : Heeded v pid := by
  have notZero : base + intrGraceTicks ≠ 0 := by
    intro zero
    rw [zero] at positive
    exact absurd positive (by simp)
  have deadline : deadlineFor base = base + intrGraceTicks := if_neg notZero
  rw [deadline] at told
  have waits : ∀ {events : List (KeyEvent n Place)},
      Along Terminals.step (Unasked pid) v events → ticksOf events < 500 →
        Warned pid base (base + intrGraceTicks) (0 + ticksOf events)
          (events.foldl Terminals.step v) := by
    intro events unasked few
    refine told.run unasked ?_
    intro j _ below late
    have isLast := (late_iff base positive (by omega)).mp late
    omega
  have due : ∀ events, Along Terminals.step (Unasked pid) v events → 500 ≤ ticksOf events →
      Ended (events.foldl Terminals.step v).kernel pid := by
    intro events unasked enough
    refine told.expires nonzero ((late_iff base positive (Nat.le_refl 500)).mpr rfl) ?_
      (by omega) unasked (by omega)
    intro j _ below late
    have isLast := (late_iff base positive (by omega)).mp late
    omega
  have refused : ∀ events, Along Terminals.step (Unasked pid) v events →
      ¬ Ended (events.foldl Terminals.step v).kernel pid →
        (intrRequest (events.foldl Terminals.step v).kernel (pid : Nat)).2 = false := by
    intro events unasked there
    have few : ticksOf events < 500 := by
      by_contra enough
      exact there (due events unasked (by omega))
    have still := waits unasked few
    unfold intrRequest
    rw [pidOf_coe nonzero]
    dsimp only
    rw [if_pos (Or.inr (Or.inr (by rw [still.deadline]; omega)))]
  refine ⟨refused, ?_, fun events unasked few => (waits unasked few).there, due⟩
  intro events unasked place front
  have positive' : 0 < (pid : Nat) := Nat.pos_of_ne_zero (fun zero => nonzero (Fin.ext zero))
  rw [ioInterrupt_kernel (by rw [front]; omega), front]
  refine interruptNow_ends nonzero ?_
  by_cases ended : Ended (events.foldl Terminals.step v).kernel pid
  · exact Or.inl ended
  · have few : ticksOf events < 500 := by
      by_contra enough
      exact ended (due events unasked (by omega))
    exact Or.inr ⟨(waits unasked few).process, refused events unasked ended⟩

end Directions

/-- Whatever the tick counter says when a process is told, the key keeps its
promise exactly if the deadline is one that the slot can hold. -/
theorem interrupt_heeded (settled : Settled w.kernel) (there : ¬ Ended w.kernel pid)
    (process : (w.kernel.life.module pid).isSome = true)
    (asked : (intrRequest w.kernel (pid : Nat)).2 = true) :
    Heeded { w with kernel := (intrRequest w.kernel (pid : Nat)).1 } pid ↔
      0 < (w.kernel.ticks + intrGraceTicks).toInt := by
  obtain ⟨nonzero, pulse, spares⟩ := intrRequest_told asked
  -- The request sets the deadline and no tick has passed.
  have told : Warned pid w.kernel.ticks (deadlineFor w.kernel.ticks) 0
      { w with kernel := (intrRequest w.kernel (pid : Nat)).1 } := by
    refine ⟨?_, fun ended => there (spares.ended.mp ended), ?_, ?_, ?_, ?_⟩
    · have runs := intrRequest_runs ⟨rfl, settled.2⟩ (pid : Nat)
      refine ⟨moves_invariant Scheduled (fun _ _ => move_scheduled)
        (intrRequest_moves (d := Discipline.none n) _ _) settled.1, ?_⟩
      rw [runs.1]
      exact runs.2
    · rw [spares.module]
      exact process
    · rw [spares.pulse]
      exact pulse
    · rw [spares.deadline]
      exact update_self _ _ _
    · rw [spares.ticks]
      exact (BitVec.add_zero _).symm
  generalize w.kernel.ticks = base at told
  generalize ({ w with kernel := (intrRequest w.kernel (pid : Nat)).1 } : Terminals n Place) = v
    at told
  exact ⟨fun heeded => heeded.positive nonzero told, told.heeded nonzero⟩

end Terminals

def listening : Kernel 3 :=
  run [.create ⟨4096, true, false⟩ 0 (some 8192) none, .tick (fun _ _ => false) (fun _ _ => false),
    .catchIntr 2]

theorem interrupt_heeded_early : Heeded
    (⟨(intrRequest listening ((1 : Pid 3) : Nat)).1, fun _ => 1⟩ : Terminals 3 Unit) 1 := by
  have asked : (intrRequest listening ((1 : Pid 3) : Nat)).2 = true := by decide +kernel
  have there : listening.state 1 = .running := by decide +kernel
  let w : Terminals 3 Unit := ⟨listening, fun _ => 1⟩
  have settled : Settled w.kernel := run_settled _
  exact (interrupt_heeded settled (by rw [Ended, there]; simp) (by decide +kernel) asked).mpr
    (by decide +kernel)

/-- Five hundred ticks before half the range the deadline is the lowest negative
number, and a second press tells the process once more. -/
theorem late_key_unheeded : ¬ Heeded
    (⟨(intrRequest { listening with ticks := 2147483148 } ((1 : Pid 3) : Nat)).1, fun _ => 1⟩ :
      Terminals 3 Unit) 1 := by
  intro heeded
  have there : ¬ Ended (intrRequest { listening with ticks := 2147483148 }
      ((1 : Pid 3) : Nat)).1 1 := by
    have runs : (intrRequest { listening with ticks := 2147483148 }
      ((1 : Pid 3) : Nat)).1.state 1 = .running := by decide +kernel
    rw [Ended, runs]
    simp
  have silent := heeded.second [] trivial there
  have again : (intrRequest (intrRequest { listening with ticks := 2147483148 }
      ((1 : Pid 3) : Nat)).1 ((1 : Pid 3) : Nat)).2 = true := by decide +kernel
  rw [List.foldl_nil, again] at silent
  exact absurd silent (by simp)

end Ubiqos
