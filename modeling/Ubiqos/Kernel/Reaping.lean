import Ubiqos.Kernel.Notices
import Ubiqos.Kernel.Rendezvous
import Ubiqos.Io.Accounts

/-!
The end of a process, seen from the rest of the machine. An empty slot is on no
list and nobody that waits names it; the step that empties it makes, for each
process it takes apart, the calls that give back what that process held. What a
process that does not wait has left in `wait_pid` and `msg_dest` is not looked
at again, and may be the number of a slot that has been emptied since.
-/

namespace Ubiqos

open Function Machine Intrusive

variable {n : Nat} [NeZero n]

/-- `pool_start` and `pool_end`. -/
structure Extent where
  start : Addr
  stop : Addr

def tlsfOwns (pool : Extent) (block : Addr) : Bool :=
  block ≠ 0 ∧ pool.start ≤ block ∧ block < pool.stop

structure Pools where
  mem : Extent
  bulk : Option Extent
  apart : ∀ other ∈ bulk, ∀ block, tlsfOwns other block = true → tlsfOwns mem block = false

def poolOfAddress (pools : Pools) (block : Addr) : Extent :=
  match pools.bulk with
  | some bulk => if tlsfOwns bulk block then bulk else pools.mem
  | none => pools.mem

theorem poolOfAddress_owns (pools : Pools) {pool : Extent} {block : Addr}
    (known : pool = pools.mem ∨ pools.bulk = some pool) (owns : tlsfOwns pool block = true) :
    poolOfAddress pools block = pool := by
  unfold poolOfAddress
  rcases known with rfl | bulk
  · split
    · rename_i bulk found
      rw [if_neg]
      intro both
      rw [pools.apart bulk (by simp [found]) block both] at owns
      cases owns
    · rfl
  · rw [bulk]
    simp [owns]

structure Forgotten (s : Kernel n) (pid : Pid n) : Prop where
  free : s.state pid = .free
  ready : ∀ level queue, Linked s.ready.next (s.ready.head level) queue → pid ∉ queue
  sleep : ∀ sleepers, Linked s.sleep.next s.sleep.head sleepers → pid ∉ sleepers
  pulses : ∀ pulse ∈ Compact.items s.pulses.ring, pulse.dest ≠ pid
  watches : ∀ i, (s.arms i).pid ≠ pid
  waiters : ∀ p, s.state p = .waitChild → s.wait.pid p ≠ (pid : Nat)

structure Unmailed (s : Kernel n) (pid : Pid n) : Prop where
  queues : ∀ server, Live s.state server → ∀ clients,
    Linked s.mail.next (s.mail.head server) clients → pid ∉ clients
  dest : ∀ p, Waits (s.state p) → s.mail.dest p ≠ some pid
  serving : ∀ server, Live s.state server → s.mail.serving server ≠ some pid

variable {pid : Pid n}

theorem run_forgotten (calls : List (Call n))
    (free : (run calls).state pid = .free) : Forgotten (run calls) pid := by
  have sched := (run_settled calls).1
  have clean := run_clean calls
  have dead : (holdings (run calls)).live pid = false := by simp [holdings, free]
  have idle : pid ≠ 0 := by
    rintro rfl
    rw [clean.kernel] at dead
    cases dead
  refine ⟨free, ?_, ?_, ?_, ?_, ?_⟩
  · intro level queue linked member
    obtain ⟨queues, holds⟩ := sched.queues
    rw [linked_unique linked (holds.linked level)] at member
    have ready := ((holds.member level pid).mp member).1
    rw [free] at ready
    cases ready
  · intro sleepers linked member
    obtain ⟨list, holds⟩ := sched.sleepers
    rw [linked_unique linked holds.linked] at member
    have asleep := (holds.member pid).mp member
    simp [Asleep, free] at asleep
  · intro pulse member dest
    have none := (run_mailed calls).gone pid free
    have waiting : pulse ∈ waitingFor (run calls).pulses.ring pid := by
      simp [waitingFor, member, dest]
    rw [none] at waiting
    cases waiting
  · intro i names
    have watch : (holdings (run calls)).watch i = pid := names
    rcases clean.watch i with zero | live
    · exact idle (watch.symm.trans zero)
    · rw [watch, dead] at live
      cases live
  · intro p waits names
    obtain ⟨target, same, live⟩ := clean.awaits p (pid : Nat) (by
      simp [holdings, awaited, waits, names])
    have here : target = pid := Fin.ext (by omega)
    rw [here, dead] at live
    cases live

theorem run_unmailed {calls : List (Call n)} (follows : Follows (orderly n) calls)
    (free : (run calls).state pid = .free) : Unmailed (run calls) pid := by
  obtain ⟨queue, meeting⟩ := run_rendezvous orderly_orderly follows
  have still : ¬ Waits ((run calls).state pid) := by simp [Waits, free]
  refine ⟨?_, ?_, ?_⟩
  · intro server alive clients linked member
    rw [linked_unique linked (meeting.linked server alive)] at member
    exact still ((meeting.member server alive pid).mp member).1
  · intro p waits toward
    obtain ⟨server, dest, alive, _⟩ := meeting.server p waits
    rw [Option.some.inj (toward.symm.trans dest)] at free
    exact alive.2 free
  · intro server alive serves
    exact still (meeting.serving server alive pid serves).1

def closes {k f : Nat} (calls : List (Outside n)) (t : Io.Table n k f) : Io.Table n k f :=
  calls.foldr (fun call t => match call with
    | .ioCloseAll pid => Io.closeAll t (pid : Nat)
    | _ => t) t

omit [NeZero n] in
theorem closes_vacant {k f : Nat} (calls : List (Outside n))
    (member : Outside.ioCloseAll pid ∈ calls) (t : Io.Table n k f) (p : Fin k) :
    Io.vacant ((closes calls t).paths (pid, p)) = true := by
  induction calls with
  | nil => cases member
  | cons call rest ih =>
    cases call with
    | ioCloseAll other =>
      by_cases same : other = pid
      · subst same
        exact Io.closeAll_vacant _ other p
      · have later := ih (by simpa [Ne.symm same] using member)
        rw [closes, List.foldr_cons, Io.closeAll_others _ (Ne.symm same)]
        exact later
    | wifiForgetPid other => exact ih (by simpa using member)
    | moddirUnlink module => exact ih (by simpa using member)
    | tlsfFree block => exact ih (by simpa using member)

structure Released (s s' : Kernel n) (pid : Pid n) : Prop where
  forgotten : Forgotten s' pid
  children : ∀ p, s'.life.parent p ≠ some pid
  /-- The step makes the calls of each process it ends, and no others. -/
  back : ∃ gone : List (Pid n), pid ∈ gone ∧ gone.Nodup ∧
    (∀ p, p ∈ gone ↔ s.state p ≠ .free ∧ s'.state p = .free) ∧
    s'.life.outside = (gone.flatMap (holdings s).departure).reverse ++ s.life.outside
  paths : ∀ (k f : Nat) (t : Io.Table n k f) (p : Fin k),
    Io.vacant ((closes (s'.life.outside.take (s'.life.outside.length - s.life.outside.length))
      t).paths (pid, p)) = true

theorem step_released (calls : List (Call n)) (call : Call n)
    (there : (run calls).state pid ≠ .free)
    (ended : (step (run calls) call).state pid = .free) :
    Released (run calls) (step (run calls) call) pid := by
  have settled := run_settled calls
  have clean := run_clean calls
  have live : (holdings (run calls)).live pid = true := by simp [holdings, there]
  have dead : (holdings (step (run calls) call)).live pid = false := by simp [holdings, ended]
  rcases step_accounts settled clean call with ⟨endings, _⟩ | ⟨_, dealt⟩
  · obtain ⟨gone, departs⟩ := (endings_departs endings clean).2
    have member : pid ∈ gone := (departs.ended pid).mpr ⟨live, dead⟩
    have outside : (step (run calls) call).life.outside =
        (gone.flatMap (holdings (run calls)).departure).reverse ++ (run calls).life.outside :=
      departs.outside
    have after : run (calls ++ [call]) = step (run calls) call := by simp [run]
    refine ⟨?_, departs.orphans pid member, ⟨gone, member, departs.nodup, ?_, outside⟩, ?_⟩
    · rw [← after] at ended ⊢
      exact run_forgotten _ ended
    · intro p
      rw [departs.ended]
      simp [holdings]
    · intro k f t p
      have news : (step (run calls) call).life.outside.take
          ((step (run calls) call).life.outside.length - (run calls).life.outside.length) =
            (gone.flatMap (holdings (run calls)).departure).reverse := by
        rw [outside]
        simp
      rw [news]
      apply closes_vacant
      rw [List.mem_reverse, List.mem_flatMap]
      exact ⟨pid, member, by simp [Holdings.departure]⟩
  · rw [dealt_live dealt live] at dead
    cases dead

theorem handedOut_stepAll {s : Kernel n} {calls : List (Call n)}
    (outlived : Along stepAll (fun s call => survives s call = true) s calls) :
    handedOut stepAll s calls = handedOut step s calls := by
  induction calls generalizing s with
  | nil => rfl
  | cons call rest ih =>
    rw [handedOut, handedOut, ih outlived.2, stepAll_eq outlived.1]

/-- What holds of every slot that is empty, of every step that empties one, and
of the two books the whole time, as long as nobody ends itself by interrupting
itself. -/
theorem run_ends_release (calls : List (Call n)) (pools : Pools)
    (outlived : Along stepAll (fun s call => survives s call = true) (schedulerInit n) calls) :
    (∀ pid, (runAll calls).state pid = .free → Forgotten (runAll calls) pid) ∧
    (Along stepAll (fun s call => meets (orderly n) s call = true) (schedulerInit n) calls →
      ∀ pid, (runAll calls).state pid = .free → Unmailed (runAll calls) pid) ∧
    (∀ call pid, survives (runAll calls) call = true → (runAll calls).state pid ≠ .free →
      (stepAll (runAll calls) call).state pid = .free →
        Released (runAll calls) (stepAll (runAll calls) call) pid) ∧
    (∀ block, (handedOut stepAll (schedulerInit n) calls).count block =
      (returned (runAll calls).life.outside).count block +
        (holdings (runAll calls)).held block) ∧
    (∀ test, (calls.flatMap brought).countP test =
      (unlinked (runAll calls).life.outside).countP test +
        (holdings (runAll calls)).running test) ∧
    ∀ pool block, (pool = pools.mem ∨ pools.bulk = some pool) → tlsfOwns pool block = true →
      poolOfAddress pools block = pool := by
  -- While nobody interrupts itself the whole machine runs as `step` does.
  obtain ⟨same, rules⟩ := along_agrees (fun _ _ => stepAll_eq) outlived
  obtain ⟨blocks, links⟩ := run_books calls
  have reached : runAll calls = run calls := same
  rw [reached, handedOut_stepAll outlived]
  refine ⟨fun _ => run_forgotten calls,
    fun follows _ => run_unmailed ((rules _).mp follows), ?_, blocks, links, ?_⟩
  · intro call pid survived there ended
    rw [stepAll_eq survived] at ended ⊢
    exact step_released calls call there ended
  · intro pool block known owns
    exact poolOfAddress_owns pools known owns

def waitedFor : List (Call 5) :=
  [.kernelThread (some 4096) prioDefault, .kernelThread (some 8192) prioDefault, quiet, .wait 2]

theorem run_ends_release_waited :
    Released (runAll waitedFor) (stepAll (runAll waitedFor) .exit) 2 := by
  have no : ∀ other ∈ (none : Option Extent), ∀ block, tlsfOwns other block = true →
      tlsfOwns ⟨4096, 65536⟩ block = false := by simp
  exact (run_ends_release waitedFor ⟨⟨4096, 65536⟩, none, no⟩ (by decide)).2.2.1 .exit 2 rfl
    (by decide) (by decide)

def Names (s : Kernel n) (p pid : Pid n) : Prop :=
  s.life.parent p = some pid ∨ s.mail.dest p = some pid ∨ s.mail.serving p = some pid ∨
    s.wait.pid p = (pid : Nat)

theorem woken_waiter_still_names :
    (runAll waitedFor).state 2 = .running ∧ (stepAll (runAll waitedFor) .exit).state 2 = .free ∧
      (stepAll (runAll waitedFor) .exit).state 1 = .running ∧
      ¬ ∀ p, p ≠ 2 → ¬ Names (stepAll (runAll waitedFor) .exit) p 2 := by
  refine ⟨by decide, by decide, by decide, ?_⟩
  intro unnamed
  exact unnamed 1 (by decide) (Or.inr (Or.inr (Or.inr (by decide))))

end Ubiqos
