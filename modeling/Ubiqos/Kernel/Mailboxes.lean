import Ubiqos.Kernel.Receive

/-!
Pulses. What the one ring is for is a first-in first-out mailbox for every
process: `pulsesPromised` is what has been accepted for the process that is in
a slot now, less what it cancelled, and `pulsesTaken` what it has been given.
The ring holds exactly the difference, so nothing is lost, doubled, reordered
or left for the next process in the slot.
-/

namespace Ubiqos

open Function Machine

variable {n : Nat}

def pulsesTaken : List (PulseEvent n) → Pid n → List (Pulse n)
  | [], _ => []
  | .taken pulse :: older, pid =>
    if pulse.dest = pid then pulsesTaken older pid ++ [pulse] else pulsesTaken older pid
  | .began who :: older, pid => if who = pid then [] else pulsesTaken older pid
  | .ended who :: older, pid => if who = pid then [] else pulsesTaken older pid
  | _ :: older, pid => pulsesTaken older pid

def pulsesPromised [NeZero n] : List (PulseEvent n) → Pid n → List (Pulse n)
  | [], _ => []
  | .accepted pulse :: older, pid =>
    if pulse.dest = pid then pulsesPromised older pid ++ [pulse] else pulsesPromised older pid
  | .disarmed who :: older, pid =>
    if who = pid then
      let taken := pulsesTaken older pid
      taken ++ ((pulsesPromised older pid).drop taken.length).filter
        (fun pulse => pulse.origin ≠ 0)
    else pulsesPromised older pid
  | .began who :: older, pid => if who = pid then [] else pulsesPromised older pid
  | .ended who :: older, pid => if who = pid then [] else pulsesPromised older pid
  | _ :: older, pid => pulsesPromised older pid

def waitingFor (ring : Compact.Packed (Pulse n)) (pid : Pid n) : List (Pulse n) :=
  (Compact.items ring).filter (fun pulse => pulse.dest = pid)

variable [NeZero n]

structure Mailboxes (state : Pid n → ProcState) (pulses : Pulses n) : Prop where
  exact' : ∀ pid, pulsesTaken pulses.log pid ++ waitingFor pulses.ring pid =
    pulsesPromised pulses.log pid
  waiting : ∀ pid, state pid = .waitRecv → waitingFor pulses.ring pid = []
  gone : ∀ pid, state pid = .free → waitingFor pulses.ring pid = []
  room : pulses.ring.count ≤ maxPulses

section Columns
variable {state state' : Pid n → ProcState} {pulses : Pulses n}

attribute [local simp] pulsesTaken pulsesPromised

theorem Mailboxes.states (inv : Mailboxes state pulses)
    (recv : ∀ pid, state' pid = .waitRecv → state pid = .waitRecv)
    (free : ∀ pid, state' pid = .free → state pid = .free) : Mailboxes state' pulses :=
  ⟨inv.exact', fun pid waits => inv.waiting pid (recv pid waits),
    fun pid isFree => inv.gone pid (free pid isFree), inv.room⟩

theorem Mailboxes.change (inv : Mailboxes state pulses) (pid : Pid n) (now : ProcState)
    (stays : now ≠ .waitRecv ∧ now ≠ .free) : Mailboxes (update state pid now) pulses := by
  refine inv.states ?_ ?_
  · intro other waits
    by_cases same : other = pid
    · exact absurd (by simpa [same] using waits) stays.1
    · simpa [same] using waits
  · intro other isFree
    by_cases same : other = pid
    · exact absurd (by simpa [same] using isFree) stays.2
    · simpa [same] using isFree

theorem Mailboxes.remark (inv : Mailboxes state pulses) (event : PulseEvent n)
    (silent : (∃ pulse, event = .fired pulse) ∨ ∃ pid told, event = .reaped pid told) :
    Mailboxes state { pulses with log := event :: pulses.log } := by
  refine ⟨?_, inv.waiting, inv.gone, inv.room⟩
  rcases silent with ⟨pulse, rfl⟩ | ⟨pid, told, rfl⟩ <;> exact inv.exact'

theorem Mailboxes.hand (inv : Mailboxes state pulses) (pulse : Pulse n)
    (waits : state pulse.dest = .waitRecv) :
    Mailboxes state { pulses with log := .taken pulse :: .accepted pulse :: pulses.log } := by
  refine ⟨?_, inv.waiting, inv.gone, inv.room⟩
  intro pid
  have old := inv.exact' pid
  by_cases same : pulse.dest = pid
  · have empty : waitingFor pulses.ring pid = [] := inv.waiting pid (same ▸ waits)
    rw [empty, List.append_nil] at old
    simp [empty, same, old]
  · simpa [same] using old

theorem Mailboxes.queue (inv : Mailboxes state pulses) {pulse : Pulse n}
    (elsewhere : state pulse.dest ≠ .waitRecv) (there : state pulse.dest ≠ .free)
    (room : pulses.ring.count < maxPulses) :
    Mailboxes state
      { ring := Compact.push pulses.ring pulse, log := .accepted pulse :: pulses.log } := by
  have other : ∀ pid, pulse.dest ≠ pid →
      waitingFor (Compact.push pulses.ring pulse) pid = waitingFor pulses.ring pid := by
    intro pid away
    simp [waitingFor, away]
  refine ⟨?_, ?_, ?_, room⟩
  · intro pid
    by_cases same : pulse.dest = pid
    · simp only [pulsesTaken, pulsesPromised, same, if_true, ← inv.exact' pid]
      simp [waitingFor, same]
    · rw [other pid same]
      simpa [same] using inv.exact' pid
  · intro pid waits
    rw [other pid (fun same => elsewhere (same ▸ waits))]
    exact inv.waiting pid waits
  · intro pid isFree
    rw [other pid (fun same => there (same ▸ isFree))]
    exact inv.gone pid isFree

theorem Mailboxes.take (inv : Mailboxes state pulses) {pid : Pid n} {index : Nat}
    (found : Compact.find pulses.ring (fun pulse => pulse.dest = pid) = some index) :
    Mailboxes state
      { ring := Compact.removeAt pulses.ring index
        log := .taken (pulses.ring.slot index) :: pulses.log } := by
  obtain ⟨front, back, whole, before, hit, rest⟩ := Compact.find_removed found
  have toPid : (pulses.ring.slot index).dest = pid := by simpa using hit
  have none_before : front.filter (fun pulse => pulse.dest = pid) = [] := by
    rw [List.filter_eq_nil_iff]
    intro pulse member
    simpa using before pulse member
  have mine : waitingFor pulses.ring pid = pulses.ring.slot index ::
      back.filter (fun pulse => pulse.dest = pid) := by
    simp [waitingFor, whole, none_before, toPid]
  have left : waitingFor (Compact.removeAt pulses.ring index) pid =
      back.filter (fun pulse => pulse.dest = pid) := by
    simp [waitingFor, rest, none_before]
  have other : ∀ p, p ≠ pid →
      waitingFor (Compact.removeAt pulses.ring index) p = waitingFor pulses.ring p := by
    intro p away
    have skipped : (pulses.ring.slot index).dest ≠ p := by
      rw [toPid]
      exact away.symm
    simp [waitingFor, rest, whole, skipped]
  have smaller : (Compact.removeAt pulses.ring index).count ≤ maxPulses := by
    have bound := inv.room
    simp only [Compact.removeAt]
    omega
  refine ⟨?_, ?_, ?_, smaller⟩
  · intro p
    by_cases same : p = pid
    · subst same
      have old := inv.exact' p
      rw [mine] at old
      simp only [pulsesTaken, pulsesPromised, toPid, if_true]
      rw [left, List.append_assoc, List.singleton_append]
      exact old
    · rw [other p same]
      have skipped : (pulses.ring.slot index).dest ≠ p := by
        rw [toPid]
        exact fun h => same h.symm
      simpa [skipped] using inv.exact' p
  · intro p waits
    by_cases same : p = pid
    · subst same
      have empty := inv.waiting p waits
      rw [mine] at empty
      exact absurd empty (by simp)
    · rw [other p same]
      exact inv.waiting p waits
  · intro p isFree
    by_cases same : p = pid
    · subst same
      have empty := inv.gone p isFree
      rw [mine] at empty
      exact absurd empty (by simp)
    · rw [other p same]
      exact inv.gone p isFree

omit [NeZero n] in
theorem sweep_count (dropped : Pulse n → Bool) (ring : Compact.Packed (Pulse n)) :
    (Compact.sweep dropped ring).count ≤ ring.count := by
  rw [← Compact.items_length, ← Compact.items_length, Compact.sweep_items]
  exact List.length_filter_le _ _

omit [NeZero n] in
theorem waitingFor_sweep (ring : Compact.Packed (Pulse n)) {p : Pid n} (away : p ≠ pid)
    (goes : Pulse n → Bool) (mine : ∀ pulse, goes pulse = true → pulse.dest = pid) :
    waitingFor (Compact.sweep goes ring) p = waitingFor ring p := by
  simp only [waitingFor, Compact.sweep_items, List.filter_filter]
  apply List.filter_congr
  intro pulse _
  cases gone : goes pulse with
  | false => simp
  | true => simp [mine pulse gone, away.symm]

theorem Mailboxes.disarm (inv : Mailboxes state pulses) (pid : Pid n) :
    Mailboxes state
      { ring := Compact.sweep (fun pulse => pulse.dest = pid ∧ pulse.origin = 0) pulses.ring
        log := .disarmed pid :: pulses.log } := by
  have mine : waitingFor
      (Compact.sweep (fun pulse => pulse.dest = pid ∧ pulse.origin = 0) pulses.ring) pid =
      (waitingFor pulses.ring pid).filter (fun pulse => pulse.origin ≠ 0) := by
    simp only [waitingFor, Compact.sweep_items, List.filter_filter]
    apply List.filter_congr
    intro pulse _
    by_cases toPid : pulse.dest = pid <;> simp [toPid]
  have other {p : Pid n} (away : p ≠ pid) := waitingFor_sweep pulses.ring away
    (fun pulse => pulse.dest = pid ∧ pulse.origin = 0) fun _ goes => (of_decide_eq_true goes).1
  refine ⟨?_, ?_, ?_, (sweep_count _ _).trans inv.room⟩
  · intro p
    by_cases same : p = pid
    · subst same
      rw [mine]
      simp [← inv.exact' p]
    · have away : pid ≠ p := fun h => same h.symm
      rw [other same]
      simpa [away] using inv.exact' p
  · intro p waits
    by_cases same : p = pid
    · subst same
      rw [mine, inv.waiting p waits]
      rfl
    · rw [other same]
      exact inv.waiting p waits
  · intro p isFree
    by_cases same : p = pid
    · subst same
      rw [mine, inv.gone p isFree]
      rfl
    · rw [other same]
      exact inv.gone p isFree

theorem Mailboxes.drop (inv : Mailboxes state pulses) (pid : Pid n)
    (recv : ∀ p, state' p = .waitRecv → state p = .waitRecv)
    (free : ∀ p, p ≠ pid → state' p = .free → state p = .free) :
    Mailboxes state'
      { ring := Compact.sweep (fun pulse => pulse.dest = pid) pulses.ring
        log := .ended pid :: pulses.log } := by
  have mine : waitingFor (Compact.sweep (fun pulse => pulse.dest = pid) pulses.ring) pid = [] := by
    simp [waitingFor]
  have other {p : Pid n} (away : p ≠ pid) := waitingFor_sweep pulses.ring away
    (fun pulse => pulse.dest = pid) fun _ goes => of_decide_eq_true goes
  refine ⟨?_, ?_, ?_, (sweep_count _ _).trans inv.room⟩
  · intro p
    by_cases same : p = pid
    · subst same
      rw [mine]
      simp
    · have away : pid ≠ p := fun h => same h.symm
      rw [other same]
      simpa [away] using inv.exact' p
  · intro p waits
    by_cases same : p = pid
    · rw [same, mine]
    · rw [other same]
      exact inv.waiting p (recv p waits)
  · intro p isFree
    by_cases same : p = pid
    · rw [same, mine]
    · rw [other same]
      exact inv.gone p (free p same isFree)

theorem Mailboxes.begin (inv : Mailboxes state pulses) {slot : Pid n}
    (unused : state slot = .free) :
    Mailboxes (update state slot .ready) { pulses with log := .began slot :: pulses.log } := by
  have base : Mailboxes state { pulses with log := .began slot :: pulses.log } := by
    refine ⟨?_, inv.waiting, inv.gone, inv.room⟩
    intro p
    by_cases same : slot = p
    · subst same
      have empty : waitingFor pulses.ring slot = [] := inv.gone slot unused
      simp [empty]
    · simpa [same] using inv.exact' p
  exact base.change _ _ (by simp)

end Columns

abbrev Mailed (s : Kernel n) : Prop := Mailboxes s.state s.pulses

section Moves
variable {s s' : Kernel n} {d : Discipline n}

theorem pulseDeliver_mailed (inv : Mailed s) (raw : Int) (origin : Pid n) (type value : U32) :
    Mailed (pulseDeliver s raw origin type value).1 := by
  unfold pulseDeliver
  split
  · exact inv
  · rename_i dest _
    dsimp only
    split
    · exact inv
    · rename_i there
      split
      · rename_i waits
        have handed := (inv.hand ⟨dest, origin, type, value⟩ waits).change dest .ready (by simp)
        simpa [Mailed, pulseHand, makeReady, answer, note, pulseInto] using handed
      · rename_i elsewhere
        split
        · exact inv
        · rename_i room
          exact inv.queue elsewhere there (Nat.lt_of_not_le room)

theorem leave_mailed (inv : Mailed s) (pid : Pid n) : Mailed (leave s pid) := by
  obtain ⟨⟨_, _, _, _, frame⟩, gone, others⟩ := depart_frame s pid
  have pulses : (depart s pid).pulses = s.pulses := by rw [frame]
  show Mailboxes (depart s pid).state (pulseDropFor (depart s pid) pid).pulses
  simp only [pulseDropFor, pulses]
  refine inv.drop pid ?_ ?_
  · intro p waits
    have away : p ≠ pid := by
      rintro rfl
      exact absurd (gone.symm.trans waits) (by simp)
    obtain ⟨⟨same, _⟩ | ⟨_, now⟩, _⟩ := others p away
    · exact same.symm.trans waits
    · exact absurd (now.symm.trans waits) (by simp)
  · intro p away isFree
    obtain ⟨⟨same, _⟩ | ⟨_, now⟩, _⟩ := others p away
    · exact same.symm.trans isFree
    · exact absurd (now.symm.trans isFree) (by simp)

theorem sleepTick_mailed (inv : Mailed s) : Mailed (sleepTick s) := by
  refine sleepTick_invariant Mailed (fun _ inv => inv) ?_ inv
  intro s pid _ _ inv
  have woken := inv.change pid .ready (by simp)
  unfold rouse timeOut
  split <;> exact woken

theorem move_mailed (move : Move d s s') (inv : Mailed s) : Mailed s' := by
  cases move with
  | wake pid blocked => exact inv.change _ _ (by simp)
  | block state running idle why =>
    refine inv.change _ _ ?_
    rcases why with h | h | h <;> simp [h]
  | sleepBegin ms positive running idle rule => exact inv.change _ _ (by simp)
  | sleepTick => exact sleepTick_mailed inv
  | deliver raw origin type value => exact pulseDeliver_mailed inv raw origin type value
  | notify pulse event reason dest there rule =>
    have noted : Mailed (note s event) := by
      refine inv.remark event ?_
      rcases reason with fired | ⟨pid, reaped⟩
      · exact Or.inl ⟨pulse, fired⟩
      · exact Or.inr ⟨pid, some pulse, reaped⟩
    exact pulseDeliver_mailed noted _ _ _ _
  | unheard pid => exact inv.remark _ (Or.inr ⟨pid, none, rfl⟩)
  | disarm running => exact inv.disarm s.current
  | receivePulse _ out running idle taken =>
    obtain ⟨index, rfl, found⟩ := pulseTake_ring taken
    exact inv.take found
  | receiveBlock out ms positive running idle noMessage noPulse rule short =>
    have empty : waitingFor s.pulses.ring s.current = [] := by
      rw [waitingFor, List.filter_eq_nil_iff]
      intro pulse member
      simpa using pulseTake_none noPulse pulse member
    have blocked : Mailboxes (update s.state s.current .waitRecv) s.pulses := by
      refine ⟨inv.exact', ?_, ?_, inv.room⟩
      · intro p waits
        by_cases same : p = s.current
        · rw [same, empty]
        · exact inv.waiting p (by simpa [same] using waits)
      · intro p isFree
        by_cases same : p = s.current
        · simp [same] at isFree
        · exact inv.gone p (by simpa [same] using isFree)
    simp only [msgReceiveTmo, noMessage, noPulse, positive, if_false]
    split <;> exact blocked
  | send server m running idle dest there rule =>
    rw [msgSend_eq dest there]
    split
    · have woken := (inv.change server .ready (by simp)).change s.current .waitReply
        (by simp)
      simpa [Mailed, setState, msgHand, makeReady, answer, msgOffer] using woken
    · exact inv.change _ _ (by simp)
  | reply client value running idle serving stopped => exact inv.change _ _ (by simp)
  | replyTo client value running idle stopped dest rule =>
    have kept : Mailed (stopServing s client) := by
      unfold stopServing
      split <;> exact inv
    exact kept.change _ _ (by simp)
  | depart pid idle there moving whole rule => exact leave_mailed inv pid
  | replyZombie client running idle serving killed rule =>
    exact leave_mailed (s := setServing s s.current none) inv client
  | replyToZombie client running idle dest killed rule ends =>
    unfold stopServing
    split
    · exact leave_mailed (s := setServing s s.current none) inv client
    · exact leave_mailed inv client
  | killWaiting pid stopped => exact inv.change _ _ (by simp)
  | begin slot module mem code parent priority idle unused => exact inv.begin unused
  | _ => exact inv

theorem switch_mailed (sched : Scheduled s) (inv : Mailed s) : Mailed (switch s) := by
  obtain ⟨state, ready, current, switched, states⟩ := switch_frame sched
  rw [switched]
  refine inv.states ?_ ?_
  · intro p waits
    rcases states p with same | ⟨_, now⟩
    · exact same.symm.trans waits
    · rcases now with h | h <;> exact absurd (h.symm.trans waits) (by simp)
  · intro p isFree
    rcases states p with same | ⟨_, now⟩
    · exact same.symm.trans isFree
    · rcases now with h | h <;> exact absurd (h.symm.trans isFree) (by simp)

theorem run_mailed (calls : List (Call n)) : Mailed (run calls) := by
  refine run_invariant Mailed ?_ (fun _ _ move _ inv => move_mailed move inv)
    (fun _ sched inv => switch_mailed sched inv) (follows_none calls)
  refine ⟨?_, ?_, ?_, by simp [schedulerInit]⟩
  · intro pid
    rfl
  · intro pid _
    rfl
  · intro pid _
    rfl

end Moves

end Ubiqos
