import Ubiqos.Kernel.Rendezvous

/-!
What an answer can reach. `reply` and `reply_to` let one client go, one that the
caller has received and that has waited for it ever since. A client that was
killed meanwhile is taken apart instead, and those who depend on it hear of
that: its own clients, whoever waits for its end, and a parent that asked.
-/

namespace Ubiqos

open Function Intrusive Machine

variable {n : Nat} [NeZero n]

def Held (s : Kernel n) (server client : Pid n) : Prop :=
  Waits (s.state client) ∧ s.mail.dest client = some server ∧
    holder s.mail.log client = some server

/-- Some call made `server` receive the client's message, and after every call
since then the client has waited for its answer. -/
def HeldSince (calls : List (Call n)) (server client : Pid n) : Prop :=
  ∃ front call back, calls = front ++ call :: back ∧
    (∃ news, (run (front ++ [call])).mail.log = news ++ (run front).mail.log ∧
      .received server client ∈ news) ∧
    ∀ later, later <+: back → Held (run (front ++ call :: later)) server client

theorem HeldSince.now {calls : List (Call n)} {server client : Pid n}
    (since : HeldSince calls server client) : Held (run calls) server client := by
  obtain ⟨front, call, back, whole, _, held⟩ := since
  rw [whole]
  exact held back (List.prefix_refl back)

/-- A process as others left it: what it runs as, whom it waits on, its memory. -/
structure Spared (pid : Pid n) (s s' : Kernel n) : Prop where
  same : Unaffected pid s s'
  dest : s'.mail.dest pid = s.mail.dest pid
  held : holder s'.mail.log pid = holder s.mail.log pid
  module : s'.life.module pid = s.life.module pid
  memBase : s'.life.memBase pid = s.life.memBase pid
  codeBase : s'.life.codeBase pid = s.life.codeBase pid
  allocs : s'.life.allocs pid = s.life.allocs pid

/-- Whom the end of `gone` concerns: its clients, those that wait for it, and
its parent when that one asked and is listening. -/
def Depends (s : Kernel n) (gone pid : Pid n) : Prop :=
  (s.state pid = .waitReply ∧ s.mail.dest pid = some gone) ∨
    (s.state pid = .waitChild ∧ s.wait.pid pid = (gone : Nat)) ∨
    (s.state pid = .waitRecv ∧ s.life.parent gone = some pid ∧ s.life.childPulse pid ≠ 0)

section Spared
variable {s t u : Kernel n} {pid gone : Pid n}

omit [NeZero n] in
theorem Spared.refl (pid : Pid n) (s : Kernel n) : Spared pid s s :=
  ⟨.refl pid s, rfl, rfl, rfl, rfl, rfl, rfl⟩

omit [NeZero n] in
theorem Spared.trans (first : Spared pid s t) (second : Spared pid t u) : Spared pid s u :=
  ⟨first.same.trans second.same, second.dest.trans first.dest, second.held.trans first.held,
    second.module.trans first.module, second.memBase.trans first.memBase,
    second.codeBase.trans first.codeBase, second.allocs.trans first.allocs⟩

omit [NeZero n] in
theorem answer_spared {other : Pid n} (away : pid ≠ other) (value : U32) :
    Spared pid s (answer s other value) :=
  ⟨⟨rfl, by simp [answer, away], rfl, rfl⟩, rfl, rfl, rfl, rfl, rfl, rfl⟩

omit [NeZero n] in
@[simp] theorem unTime_life (s : Kernel n) (pid : Pid n) : (unTime s pid).life = s.life := by
  unfold unTime
  split <;> rfl

end Spared

/-- What an answer by the running process may be to `pid`: nothing; the end of
its wait for that process; or the end of a killed client it depends on. -/
def Reaches (s s' : Kernel n) (pid : Pid n) : Prop :=
  Spared pid s s' ∨ Held s s.current pid ∨
    ∃ gone, Held s s.current gone ∧ s.state gone = .zombie ∧ s'.state gone = .free ∧
      Depends s gone pid

section Reaches
variable {may : Pid n → Pid n → Prop} {queue : Pid n → List (Pid n)} {s s' : Kernel n}

omit [NeZero n] in
theorem Reaches.answered {pid : Pid n} (reaches : Reaches s s' pid) (away : pid ≠ s'.current)
    (value : U32) : Reaches s (answer s' s'.current value) pid := by
  rcases reaches with spared | held | ⟨gone, held, killed, freed, depends⟩
  · exact Or.inl (spared.trans (answer_spared away value))
  · exact Or.inr (Or.inl held)
  · exact Or.inr (Or.inr ⟨gone, held, killed, freed, depends⟩)

omit [NeZero n] in
theorem Reaches.free {pid : Pid n} (reaches : Reaches s s' pid) (free : s.state pid = .free) :
    s'.state pid = .free := by
  rcases reaches with spared | ⟨waits, _⟩ | ⟨_, _, _, _, ⟨waits, _⟩ | ⟨waits, _⟩ | ⟨waits, _⟩⟩
  · exact spared.same.state.trans free
  · rw [free] at waits
    exact absurd waits (by simp [Waits])
  all_goals exact absurd (free.symm.trans waits) (by simp)

end Reaches

local instance five_ne_zero : NeZero 5 := inferInstance

def chained : List (Call 5) :=
  [.kernelThread (some 4096) prioDefault, .create killable 0 (some 8192) none,
    .kernelThread (some 12288) prioDefault, quiet, quiet, quiet, .send 2 (some ⟨7, 0, 0, 0⟩), quiet,
    .send 1 (some ⟨7, 0, 0, 0⟩), .receive 64, .kill 2 true]

end Ubiqos
