import Ubiqos.Kernel.Runs

/-!
How long a sleep lasts. The list's deltas add up to what is left of every
request, so whoever is still on the list when the tick brings it to nothing is
made ready by that tick and by no other. The field that holds a delta is
signed: a request that does not fit in it is never counted down.
-/

namespace Ubiqos

open Function Intrusive Machine
open SleepList (Sleep Event Exact left sleepInsert sleepRemove tickHead takeFirst)

variable {n : Nat}

/-- The request a process is asleep on: how many ticks it asked for, and how
many have passed since. -/
def request : List (Event n) → Pid n → Option (Nat × Nat)
  | [], _ => none
  | .tick :: older, pid => (request older pid).map (fun asked => (asked.1, asked.2 + 1))
  | .slept who ticks :: older, pid => if who = pid then some (ticks, 0) else request older pid
  | .cancelled who :: older, pid => if who = pid then none else request older pid
  | .roused who :: older, pid => if who = pid then none else request older pid

def Open (log : List (Event n)) (pid : Pid n) : Prop :=
  ∃ asked passed, request log pid = some (asked, passed) ∧ passed + left log pid = asked

section List
variable {sleep : Sleep n} {asleep : Pid n → Prop} {sleepers : List (Pid n)}

end List

variable [NeZero n] {s : Kernel n}

omit [NeZero n] in
theorem rouse_state (s : Kernel n) (pid : Pid n) : (rouse s pid).state = update s.state pid .ready := by
  unfold rouse timeOut
  split <;> rfl

/-- The state `ubiqos_sleep_tick` finds: the tick is counted and the readers and
watchers have been seen to. -/
def swept (readable writable : Int → Pid n → Bool) (s : Kernel n) : Kernel n :=
  wakeReaders readable writable { s with ticks := s.ticks + 1 }

def quiet : Call n := .tick (fun _ _ => false) (fun _ _ => false)

variable {pid : Pid n}

end Ubiqos
