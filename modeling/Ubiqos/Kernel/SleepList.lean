import Ubiqos.Kernel.Types
import Ubiqos.Lib.Linked
import Mathlib.Algebra.BigOperators.Group.List.Basic

/-!
The delta list of `kernel/scheduler.c`. Each sleeper stores how many ticks
after the one ahead of it it is due, so the timer changes one number a tick.
`delta` is the 32-bit field as it stands in memory: the C reads it signed in
the tick and unsigned while inserting, and so does the model. `log` is history
only; no function reads it.
-/

namespace Ubiqos.SleepList

open Function Intrusive

inductive Event (n : Nat) where
  | tick
  | slept (pid : Pid n) (ticks : Nat)
  | cancelled (pid : Pid n)
  | roused (pid : Pid n)

structure Sleep (n : Nat) where
  head : Option (Pid n)
  next : Pid n → Option (Pid n)
  delta : Pid n → U32
  log : List (Event n)

variable {n : Nat}

def sleepWalk (s : Sleep n) : Nat → Option (Pid n) → Option (Pid n) → U32 →
    Option (Pid n) × Option (Pid n) × U32
  | 0, prev, cur, remaining => (prev, cur, remaining)
  | _ + 1, prev, none, remaining => (prev, none, remaining)
  | fuel + 1, prev, some cur, remaining =>
    if s.delta cur ≤ remaining then
      sleepWalk s fuel (some cur) (s.next cur) (remaining - s.delta cur)
    else (prev, some cur, remaining)

def sleepInsert (s : Sleep n) (pid : Pid n) (ticks : U32) : Sleep n :=
  let (prev, cur, remaining) := sleepWalk s (n + 1) none s.head ticks
  let next := update s.next pid cur
  let delta := update s.delta pid remaining
  { head := if prev = none then some pid else s.head
    next :=
      match prev with
      | none => next
      | some before => update next before (some pid)
    delta :=
      match cur with
      | none => delta
      | some behind => update delta behind (delta behind - remaining)
    log := .slept pid ticks.toNat :: s.log }

def sleepRemove (s : Sleep n) (pid : Pid n) : Sleep n :=
  match seek s.next pid (n + 1) none s.head with
  | none => s
  | some prev =>
    { head := if prev = none then s.next pid else s.head
      next := update (bypass s.next prev pid) pid none
      delta :=
        match s.next pid with
        | none => s.delta
        | some behind => update s.delta behind (s.delta behind + s.delta pid)
      log := .cancelled pid :: s.log }

/-- The decrement at the start of a tick: `if (sleep_delta > 0) sleep_delta--`. -/
def tickHead (s : Sleep n) : Sleep n :=
  { s with
    delta :=
      match s.head with
      | none => s.delta
      | some pid =>
        if 0 < (s.delta pid).toInt then update s.delta pid (s.delta pid - 1) else s.delta
    log := .tick :: s.log }

def takeFirst (s : Sleep n) (pid : Pid n) : Sleep n :=
  { s with
    head := s.next pid
    next := update s.next pid none
    log := .roused pid :: s.log }

structure Holds (s : Sleep n) (asleep : Pid n → Prop) (sleepers : List (Pid n)) : Prop where
  linked : Linked s.next s.head sleepers
  member : ∀ pid, pid ∈ sleepers ↔ asleep pid

variable {s : Sleep n} {asleep : Pid n → Prop} {sleepers : List (Pid n)}

theorem Holds.congr (holds : Holds s asleep sleepers) {other : Pid n → Prop}
    (same : ∀ pid, other pid ↔ asleep pid) : Holds s other sleepers :=
  ⟨holds.linked, fun pid => (holds.member pid).trans (same pid).symm⟩

def deltaSum (delta : Pid n → U32) (pids : List (Pid n)) : Nat :=
  (pids.map fun pid => (delta pid).toNat).sum

variable {pids : List (Pid n)}

theorem sleepWalk_spec {cur : Option (Pid n)}
    (linked : Linked s.next cur pids) (fuel : Nat) (enough : pids.length < fuel)
    (prev : Option (Pid n)) (remaining : U32) :
    ∃ front back left, pids = front ++ back ∧
      sleepWalk s fuel prev cur remaining = (front.getLast?.or prev, back.head?, left) ∧
      remaining.toNat = deltaSum s.delta front + left.toNat ∧
      ∀ behind, back.head? = some behind → left.toNat < (s.delta behind).toNat := by
  induction pids generalizing cur fuel prev remaining with
  | nil =>
    rw [linked_nil] at linked
    subst linked
    cases fuel with
    | zero => simp at enough
    | succ fuel => exact ⟨[], [], remaining, rfl, rfl, by simp [deltaSum], by simp⟩
  | cons pid rest ih =>
    obtain ⟨here, more⟩ := linked
    subst here
    cases fuel with
    | zero => simp at enough
    | succ fuel =>
      rw [sleepWalk]
      by_cases past : s.delta pid ≤ remaining
      · rw [if_pos past]
        obtain ⟨front, back, left, split, walked, sum, stop⟩ :=
          ih more fuel (by simpa using enough) (some pid) (remaining - s.delta pid)
        refine ⟨pid :: front, back, left, by simp [split], ?_, ?_, stop⟩
        · rw [walked, List.getLast?_cons]
          cases front.getLast? <;> rfl
        · have taken : (remaining - s.delta pid).toNat =
              remaining.toNat - (s.delta pid).toNat := BitVec.toNat_sub_of_le past
          have bound : (s.delta pid).toNat ≤ remaining.toNat := past
          simp only [deltaSum, List.map_cons, List.sum_cons] at sum ⊢
          omega
      · rw [if_neg past]
        refine ⟨[], pid :: rest, remaining, rfl, rfl, by simp [deltaSum], ?_⟩
        intro behind isHead
        have same : pid = behind := by simpa using isHead
        subst same
        simpa [BitVec.le_def] using past

theorem Holds.length_lt (holds : Holds s asleep sleepers) : sleepers.length < n + 1 := by
  have bound := linked_length holds.linked
  rw [Fintype.card_fin] at bound
  omega

variable {pid : Pid n}

theorem sleepInsert_holds (holds : Holds s asleep sleepers)
    (awake : ¬ asleep pid) (ticks : U32) :
    ∃ front back left, sleepers = front ++ back ∧
      Holds (sleepInsert s pid ticks) (fun other => asleep other ∨ other = pid)
        (front ++ pid :: back) ∧
      ticks.toNat = deltaSum s.delta front + left.toNat ∧
      (∀ behind, back.head? = some behind → left.toNat < (s.delta behind).toNat ∧
        (sleepInsert s pid ticks).delta behind = s.delta behind - left) ∧
      (sleepInsert s pid ticks).delta pid = left ∧
      ∀ other ∈ sleepers, back.head? ≠ some other →
        (sleepInsert s pid ticks).delta other = s.delta other := by
  have outside : pid ∉ sleepers := fun member => awake ((holds.member pid).mp member)
  obtain ⟨front, back, left, split, walked, sum, stop⟩ :=
    sleepWalk_spec holds.linked (n + 1) holds.length_lt none ticks
  rw [Option.or_none] at walked
  refine ⟨front, back, left, split, ⟨?_, ?_⟩, sum, ?_, ?_, ?_⟩
  · have linked := holds.linked
    rw [split] at linked outside
    simp only [sleepInsert, walked]
    cases front using List.reverseRecOn with
    | nil =>
      have head := linked_head linked
      refine ⟨by simp, ?_⟩
      simp only [List.getLast?_nil, update_self]
      rw [show back.head? = s.head from head.symm]
      exact linked_update_outside _ outside linked
    | append_singleton initial before _ =>
      have lastIs : (initial ++ [before]).getLast? = some before := by simp
      have nextBefore : s.next before = back.head? := by
        rw [List.append_assoc] at linked
        exact linked_head (linked_suffix linked)
      rw [List.append_assoc] at linked outside ⊢
      have inserted := linked_insert outside linked
      rw [nextBefore] at inserted
      simpa [lastIs] using inserted
  · intro other
    rw [List.mem_append, List.mem_cons, ← holds.member, split, List.mem_append]
    tauto
  · intro behind isHead
    have member : behind ∈ sleepers := by
      rw [split]
      exact List.mem_append_right front (List.mem_of_head? isHead)
    have different : behind ≠ pid := fun same => outside (same ▸ member)
    refine ⟨stop behind isHead, ?_⟩
    simp [sleepInsert, walked, isHead, different]
  · simp only [sleepInsert, walked]
    cases behindIs : back.head? with
    | none => simp
    | some behind =>
      have member : behind ∈ sleepers := by
        rw [split]
        exact List.mem_append_right front (List.mem_of_head? behindIs)
      have different : pid ≠ behind := fun same => outside (same ▸ member)
      simp [different]
  · intro other member notHead
    have different : other ≠ pid := fun same => outside (same ▸ member)
    simp only [sleepInsert, walked]
    cases behindIs : back.head? with
    | none => simp [different]
    | some behind =>
      have apart : other ≠ behind := by
        rintro rfl
        exact notHead behindIs
      simp [different, apart]

theorem sleepRemove_awake (holds : Holds s asleep sleepers)
    (awake : ¬ asleep pid) : sleepRemove s pid = s := by
  have outside : pid ∉ sleepers := fun member => awake ((holds.member pid).mp member)
  simp [sleepRemove, seek_absent holds.linked outside]

theorem sleepRemove_holds (holds : Holds s asleep sleepers)
    (isAsleep : asleep pid) :
    ∃ front back, sleepers = front ++ pid :: back ∧
      Holds (sleepRemove s pid) (fun other => asleep other ∧ other ≠ pid) (front ++ back) ∧
      (∀ behind, back.head? = some behind →
        (sleepRemove s pid).delta behind = s.delta behind + s.delta pid) ∧
      (∀ other, back.head? ≠ some other → (sleepRemove s pid).delta other = s.delta other) ∧
      (sleepRemove s pid).log = .cancelled pid :: s.log := by
  obtain ⟨front, back, split⟩ := List.append_of_mem ((holds.member pid).mpr isAsleep)
  have linked := holds.linked
  rw [split] at linked
  have apart := List.nodup_append.mp (linked_nodup linked)
  have notFront : pid ∉ front := fun member =>
    apart.2.2 pid member pid List.mem_cons_self rfl
  have notBack : pid ∉ back := (List.nodup_cons.mp apart.2.1).1
  have short : front.length < n + 1 := by
    have bound := holds.length_lt
    rw [split, List.length_append] at bound
    omega
  have found := seek_found linked (n + 1) short none
  rw [Option.or_none] at found
  have following : s.next pid = back.head? := linked_head (linked_suffix linked)
  refine ⟨front, back, split, ⟨?_, ?_⟩, ?_, ?_, ?_⟩
  · simpa only [sleepRemove, found] using linked_remove linked
  · intro other
    have stands := holds.member other
    rw [split, List.mem_append, List.mem_cons] at stands
    rw [List.mem_append, ← stands]
    constructor
    · intro member
      refine ⟨by tauto, ?_⟩
      rintro rfl
      exact member.elim notFront notBack
    · rintro ⟨member, different⟩
      tauto
  · intro behind isHead
    simp [sleepRemove, found, following, isHead]
  · intro other notHead
    simp only [sleepRemove, found, following]
    cases behindIs : back.head? with
    | none => rfl
    | some behind =>
      have different : other ≠ behind := by
        rintro rfl
        exact notHead behindIs
      simp [different]
  · simp [sleepRemove, found]

theorem tickHead_holds (holds : Holds s asleep sleepers) :
    Holds (tickHead s) asleep sleepers := ⟨holds.linked, holds.member⟩

theorem takeFirst_holds {rest : List (Pid n)}
    (holds : Holds s asleep (pid :: rest)) :
    Holds (takeFirst s pid) (fun other => asleep other ∧ other ≠ pid) rest := by
  have notRest : pid ∉ rest := (List.nodup_cons.mp (linked_nodup holds.linked)).1
  refine ⟨linked_update_outside _ notRest holds.linked.2, ?_⟩
  intro other
  rw [← holds.member, List.mem_cons]
  constructor
  · intro member
    exact ⟨Or.inr member, fun same => notRest (same ▸ member)⟩
  · rintro ⟨member, different⟩
    exact member.resolve_left different

/-! Exactness. `left log pid` is what is left of the last request of a process
after the ticks that followed it; the deltas of the list must add up to it. -/

def left : List (Event n) → Pid n → Nat
  | [], _ => 0
  | .tick :: older, pid => left older pid - 1
  | .slept who ticks :: older, pid => if who = pid then ticks else left older pid
  | .cancelled _ :: older, pid => left older pid
  | .roused _ :: older, pid => left older pid

def Due (delta : Pid n → U32) (left : Pid n → Nat) : Nat → List (Pid n) → Prop
  | _, [] => True
  | before, pid :: rest => left pid = before + (delta pid).toNat ∧ Due delta left (left pid) rest

structure Exact (s : Sleep n) (sleepers : List (Pid n)) : Prop where
  due : Due s.delta (left s.log) 0 sleepers
  fits : ∀ pid ∈ sleepers, left s.log pid < 2 ^ 31

end Ubiqos.SleepList
