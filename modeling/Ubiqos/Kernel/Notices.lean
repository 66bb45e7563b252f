import Ubiqos.Kernel.Ledger

/-!
The kernel's own notifications: a watch that fires, the end of a child its
parent asked to hear of. Nobody looks at whether the ring had room for one.
`roomy` is the rule under which that does not matter: every pulse the kernel
sends for itself then reaches its process, in the move that reports it.
-/

namespace Ubiqos

open Function Machine

variable {n : Nat}

def Owes (event : PulseEvent n) (pulse : Pulse n) : Prop :=
  event = .fired pulse ∨ ∃ pid, event = .reaped pid pulse

/-- Every watch that fired and every end a parent asked to hear of is followed
at once by the acceptance of its pulse. -/
def Told (log : List (PulseEvent n)) : Prop :=
  ∀ later event older pulse, log = later ++ event :: older → Owes event pulse →
    later.getLast? = some (.accepted pulse)

section Told
variable {log newer : List (PulseEvent n)} {event : PulseEvent n} {pulse : Pulse n}

theorem told_append (now : Told newer) (before : Told log) : Told (newer ++ log) := by
  intro later event older pulse split owes
  rcases List.append_eq_append_iff.mp split with ⟨rest, rfl, inLog⟩ | ⟨rest, inNewer, older⟩
  · have last := before rest event older pulse inLog owes
    rw [List.getLast?_append, last]
    rfl
  · cases rest with
    | nil =>
      have last := before [] event _ pulse (by simpa using older.symm) owes
      simp at last
    | cons first rest =>
      rw [(List.cons.inj older).1] at owes
      exact now later first rest pulse inNewer owes

end Told

variable [NeZero n]

/-- The kernel delivers for itself only where the pulse will be taken: to a
process standing in receive, or while the ring has room. -/
def roomy (n : Nat) : Discipline n :=
  { Discipline.none n with
    notifies := fun s pulse => s.state pulse.dest = .waitRecv ∨ s.pulses.ring.count < maxPulses }

section Notified
variable {s s' : Kernel n} {pulse : Pulse n}

end Notified

def app : Module := ⟨4096, true, false⟩

/-- Process 1 has asked to hear of its child, process 2, which runs. -/
def family : List (Call 5) :=
  [.create app (-1) (some 8192) none, .create app 1 (some 16384) none, quiet, .childPulse 9, quiet]

end Ubiqos
