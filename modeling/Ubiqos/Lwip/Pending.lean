import Ubiqos.Lwip.Connects

/-!
Who has the slots of the table. A slot that is used was handed to a process or waits
on the list of one listener, and a slot whose process has ended is freed at the next
turn of the task.
-/

namespace Ubiqos.Lwip

open Function

variable {Addr : Type}

def Waits (n : Net Addr) (l c : Slot) : Prop := (n.sk l).used = true ∧ c ∈ (n.sk l).pending

def Listens (n : Net Addr) (l : Slot) : Prop :=
  ∃ p, (n.sk l).pcb = some p ∧ n.pcbs p = some ⟨true, some l⟩

def Owned (n : Net Addr) (i : Slot) : Prop :=
  (n.sk i).owner = ownerDead ∨ ∃ pid : Nat, n.alive pid = true ∧ (n.sk i).owner = pid

def Careful (n : Net Addr) : Step Addr → Prop
  | .serve caller (.close i) =>
    ∀ slot ∈ slotOf i, n.reap.alive caller = true → (n.reap.sk slot).used = true →
      (n.reap.sk slot).pending = [] ∧ ∀ l, ¬ Waits n.reap l slot
  | input => Timely n input

structure Wired (n : Net Addr) : Prop where
  args : ∀ p k i, n.pcbs p = some ⟨k, some i⟩ → (n.sk i).used = true ∧ (n.sk i).pcb = some p
  own : ∀ i p, (n.sk i).used = true → (n.sk i).pcb = some p → ∃ k, n.pcbs p = some ⟨k, some i⟩
  old : ∀ p, n.made ≤ p → n.pcbs p = none
  unanswered : ∀ lookup ∈ n.lookups, n.current lookup.slot = some lookup.request →
    (n.sk lookup.slot).pcb = none

structure Listed (n : Net Addr) : Prop where
  waits : ∀ l c, Waits n l c →
    (n.sk c).used = true ∧ n.handed c = false ∧ (n.sk c).owner = (n.sk l).owner
  listens : ∀ l c, Waits n l c → Listens n l
  apart : ∀ l m c, Waits n l c → Waits n m c → l = m
  once : ∀ l, (n.sk l).used = true → (n.sk l).pending.Nodup
  accounted : ∀ i, (n.sk i).used = true → n.handed i = true ∨ ∃ l, Waits n l i
  owned : ∀ i, (n.sk i).used = true → Owned n i

section Wiring
variable {n m : Net Addr} {i : Slot}

/-- Slot `i` has changed, and may have got the next control block. -/
structure Wires (n m : Net Addr) (i : Slot) : Prop where
  rest : ∀ j, j ≠ i → m.sk j = n.sk j
  used : (m.sk i).used = true
  pcb : m.pcbs = n.pcbs ∧ m.made = n.made ∧ (m.sk i).pcb = none ∨
    ∃ k, m.pcbs = update n.pcbs n.made (some ⟨k, some i⟩) ∧ m.made = n.made + 1 ∧
      (m.sk i).pcb = some n.made

theorem Wired.wires (wired : Wired n) (wires : Wires n m i)
    (bare : ∀ p k, n.pcbs p ≠ some ⟨k, some i⟩)
    (unanswered : ∀ lookup ∈ m.lookups, m.current lookup.slot = some lookup.request →
      (m.sk lookup.slot).pcb = none) : Wired m := by
  obtain ⟨rest, used, ⟨pcbs, made, none⟩ | ⟨k, pcbs, made, mine⟩⟩ := wires
  · refine ⟨?_, ?_, by rw [pcbs, made]; exact wired.old, unanswered⟩
    · intro p k j held
      rw [pcbs] at held
      have apart : j ≠ i := by
        rintro rfl
        exact bare p k held
      rw [rest j apart]
      exact wired.args p k j held
    · intro j p isUsed has
      have apart : j ≠ i := by
        rintro rfl
        simp [none] at has
      rw [rest j apart] at isUsed has
      rw [pcbs]
      exact wired.own j p isUsed has
  · refine ⟨?_, ?_, ?_, unanswered⟩
    · intro p k' j held
      rw [pcbs] at held
      by_cases new : p = n.made
      · rw [new, update_self] at held
        cases held
        exact ⟨used, new ▸ mine⟩
      · rw [update_of_ne new] at held
        have apart : j ≠ i := by
          rintro rfl
          exact bare p k' held
        rw [rest j apart]
        exact wired.args p k' j held
    · intro j p isUsed has
      rw [pcbs]
      by_cases same : j = i
      · subst same
        rw [mine, Option.some_inj] at has
        subst has
        exact ⟨k, update_self ..⟩
      · rw [rest j same] at isUsed has
        obtain ⟨k', held⟩ := wired.own j p isUsed has
        have before : p ≠ n.made := by
          rintro rfl
          simp [wired.old _ le_rfl] at held
        exact ⟨k', by rw [update_of_ne before, held]⟩
    · intro p later
      have apart : p ≠ n.made := by omega
      rw [pcbs, update_of_ne apart]
      exact wired.old p (by omega)

theorem Wired.bare_of_free (wired : Wired n) (free : (n.sk i).used = false) (p : Nat) (k : Bool) :
    n.pcbs p ≠ some ⟨k, some i⟩ := by
  intro held
  have taken := (wired.args p k i held).1
  simp [free] at taken

theorem Wired.bare_of_none (wired : Wired n) (none : (n.sk i).pcb = none) (p : Nat) (k : Bool) :
    n.pcbs p ≠ some ⟨k, some i⟩ := by
  intro held
  have mine := (wired.args p k i held).2
  simp [none] at mine

structure Still (n m : Net Addr) : Prop where
  used : ∀ j, (m.sk j).used = (n.sk j).used
  owner : ∀ j, (m.sk j).owner = (n.sk j).owner
  pending : ∀ j, (m.sk j).pending = (n.sk j).pending
  pcb : ∀ j, (m.sk j).pcb = (n.sk j).pcb
  pcbs : m.pcbs = n.pcbs
  made : m.made = n.made
  handed : m.handed = n.handed
  alive : ∀ pid, n.alive pid = true → m.alive pid = true
  lookups : m.lookups ⊆ n.lookups
  current : m.current = n.current

theorem still_edit {f : Sock → Sock} (used : ∀ s, (f s).used = s.used)
    (owner : ∀ s, (f s).owner = s.owner) (pending : ∀ s, (f s).pending = s.pending)
    (pcb : ∀ s, (f s).pcb = s.pcb) : Still n (n.edit i f) := by
  have both : ∀ j, (n.edit i f).sk j = f (n.sk j) ∨ (n.edit i f).sk j = n.sk j := by
    intro j
    by_cases same : j = i
    · exact .inl (by simp [Net.edit, same])
    · exact .inr (by simp [Net.edit, same])
  refine ⟨?_, ?_, ?_, ?_, rfl, rfl, rfl, fun _ alive => alive, List.Subset.refl _, rfl⟩
  · exact fun j => by rcases both j with eq | eq <;> simp [eq, used]
  · exact fun j => by rcases both j with eq | eq <;> simp [eq, owner]
  · exact fun j => by rcases both j with eq | eq <;> simp [eq, pending]
  · exact fun j => by rcases both j with eq | eq <;> simp [eq, pcb]

theorem Wired.same (wired : Wired n) (used : ∀ j, (m.sk j).used = (n.sk j).used)
    (pcb : ∀ j, (m.sk j).pcb = (n.sk j).pcb) (pcbs : m.pcbs = n.pcbs) (made : m.made = n.made)
    (lookups : m.lookups ⊆ n.lookups) (current : m.current = n.current) : Wired m where
  args p k j held := by
    rw [pcbs] at held
    rw [used, pcb]
    exact wired.args p k j held
  own j p isUsed has := by
    rw [used] at isUsed
    rw [pcb] at has
    rw [pcbs]
    exact wired.own j p isUsed has
  old p later := by
    rw [made] at later
    rw [pcbs]
    exact wired.old p later
  unanswered lookup member mine := by
    rw [current] at mine
    rw [pcb]
    exact wired.unanswered lookup (lookups member) mine

theorem Wired.still (wired : Wired n) (still : Still n m) : Wired m :=
  wired.same still.used still.pcb still.pcbs still.made still.lookups still.current

end Wiring

section Listing
variable {n m : Net Addr} {i : Slot}

theorem Listed.fewer (listed : Listed n) (waits : ∀ l c, Waits m l c → Waits n l c)
    (kept : ∀ l c, Waits m l c → (m.sk c).used = true ∧ m.handed c = n.handed c ∧
      (m.sk c).owner = (m.sk l).owner)
    (listens : ∀ l c, Waits m l c → Listens n l → Listens m l)
    (once : ∀ l, (m.sk l).used = true → (m.sk l).pending.Nodup)
    (accounted : ∀ j, (m.sk j).used = true → m.handed j = true ∨ ∃ l, Waits m l j)
    (owned : ∀ j, (m.sk j).used = true → Owned m j) : Listed m where
  waits l c now := by
    obtain ⟨isUsed, handed, owner⟩ := kept l c now
    exact ⟨isUsed, handed.trans (listed.waits l c (waits l c now)).2.1, owner⟩
  listens l c now := listens l c now (listed.listens l c (waits l c now))
  apart l l' c first second := listed.apart l l' c (waits l c first) (waits l' c second)
  once := once
  accounted := accounted
  owned := owned

theorem Listed.elsewhere (listed : Listed n) (free : (n.sk i).used = false) {l c : Slot} (now : Waits n l c) :
    l ≠ i ∧ c ≠ i := by
  constructor
  · rintro rfl
    simp [Waits, free] at now
  · rintro rfl
    have isUsed := (listed.waits l c now).1
    simp [free] at isUsed

theorem Still.waits (still : Still n m) (l c : Slot) : Waits m l c ↔ Waits n l c := by
  simp only [Waits, still.used, still.pending]

theorem Still.listens (still : Still n m) (l : Slot) : Listens m l ↔ Listens n l := by
  simp only [Listens, still.pcb, still.pcbs]

theorem Still.owned (still : Still n m) {j : Slot} (owned : Owned n j) : Owned m j := by
  unfold Owned
  rw [still.owner]
  exact owned.imp_right fun ⟨pid, alive, same⟩ => ⟨pid, still.alive pid alive, same⟩

theorem Listed.still (listed : Listed n) (still : Still n m) : Listed m := by
  apply listed.fewer
  · exact fun l c now => (still.waits l c).mp now
  · intro l c now
    obtain ⟨isUsed, _, owner⟩ := listed.waits l c ((still.waits l c).mp now)
    rw [still.used, still.owner, still.owner, still.handed]
    exact ⟨isUsed, rfl, owner⟩
  · exact fun l _ _ before => (still.listens l).mpr before
  · intro l isUsed
    rw [still.used] at isUsed
    rw [still.pending]
    exact listed.once l isUsed
  · intro j isUsed
    rw [still.used] at isUsed
    rw [still.handed]
    simp only [still.waits]
    exact listed.accounted j isUsed
  · intro j isUsed
    rw [still.used] at isUsed
    exact still.owned (listed.owned j isUsed)

structure Opened (n m : Net Addr) (i : Slot) : Prop where
  free : (n.sk i).used = false
  wires : Wires n m i
  pending : (m.sk i).pending = []
  handed : m.handed = update n.handed i true
  alive : m.alive = n.alive
  owned : Owned m i

theorem Wires.listens (wired : Wired n) (wires : Wires n m i) {l : Slot} (apart : l ≠ i)
    (before : Listens n l) : Listens m l := by
  obtain ⟨p, has, held⟩ := before
  refine ⟨p, by rw [wires.rest l apart, has], ?_⟩
  rcases wires.pcb with ⟨pcbs, _⟩ | ⟨k, pcbs, _⟩
  · rw [pcbs, held]
  · have old : p ≠ n.made := by
      rintro rfl
      simp [wired.old _ le_rfl] at held
    rw [pcbs, update_of_ne old, held]

theorem Listed.opened (listed : Listed n) (wired : Wired n) (opened : Opened n m i) : Listed m := by
  obtain ⟨free, wires, empty, handed, alive, owned⟩ := opened
  have waits : ∀ l c, Waits m l c ↔ Waits n l c := by
    intro l c
    by_cases same : l = i
    · simp [Waits, same, empty, free]
    · simp only [Waits, wires.rest l same]
  apply listed.fewer
  · exact fun l c now => (waits l c).mp now
  · intro l c now
    have before := (waits l c).mp now
    obtain ⟨atL, atC⟩ := listed.elsewhere free before
    obtain ⟨isUsed, _, owner⟩ := listed.waits l c before
    rw [wires.rest c atC, wires.rest l atL, handed, update_of_ne atC]
    exact ⟨isUsed, rfl, owner⟩
  · exact fun l c now before => wires.listens wired (listed.elsewhere free ((waits l c).mp now)).1 before
  · intro l isUsed
    by_cases same : l = i
    · simp [same, empty]
    · rw [wires.rest l same] at isUsed ⊢
      exact listed.once l isUsed
  · intro j isUsed
    by_cases same : j = i
    · exact .inl (by simp [handed, same])
    · rw [wires.rest j same] at isUsed
      rw [handed, update_of_ne same]
      simp only [waits]
      exact listed.accounted j isUsed
  · intro j isUsed
    by_cases same : j = i
    · exact same ▸ owned
    · rw [wires.rest j same] at isUsed
      have before := listed.owned j isUsed
      unfold Owned at before ⊢
      rwa [wires.rest j same, alive]

end Listing

section Taking
variable {n m : Net Addr} {i : Slot}

theorem allocSock_free {sk : Table} (found : allocSock sk = some i) : (sk i).used = false := by
  simpa using List.find?_some found

theorem Wired.unanswered_new (wired : Wired n) (wires : Wires n m i)
    (current : ∀ j, j ≠ i → m.current j = n.current j)
    (lookups : ∀ lookup ∈ m.lookups, lookup ∈ n.lookups ∧
      (lookup.slot = i → m.current i ≠ some lookup.request) ∨
        lookup.slot = i ∧ (m.sk i).pcb = none) :
    ∀ lookup ∈ m.lookups, m.current lookup.slot = some lookup.request →
      (m.sk lookup.slot).pcb = none := by
  intro lookup member mine
  rcases lookups lookup member with ⟨before, other⟩ | ⟨same, none⟩
  · have apart : lookup.slot ≠ i := fun same => other same (same ▸ mine)
    rw [current _ apart] at mine
    rw [wires.rest _ apart]
    exact wired.unanswered lookup before mine
  · rw [same, none]

theorem opened_both (wired : Wired n) (listed : Listed n) (opened : Opened n m i)
    (current : ∀ j, j ≠ i → m.current j = n.current j)
    (lookups : ∀ lookup ∈ m.lookups, lookup ∈ n.lookups ∧
      (lookup.slot = i → m.current i ≠ some lookup.request) ∨
        lookup.slot = i ∧ (m.sk i).pcb = none) : Wired m ∧ Listed m :=
  ⟨wired.wires opened.wires (wired.bare_of_free opened.free)
    (wired.unanswered_new opened.wires current lookups), listed.opened wired opened⟩

theorem given_back (wired : Wired n) (listed : Listed n) (free : (n.sk i).used = false)
    (rest : ∀ j, j ≠ i → m.sk j = n.sk j) (freed : (m.sk i).used = false)
    (pcbs : m.pcbs = n.pcbs) (made : m.made = n.made) (lookups : m.lookups = n.lookups)
    (current : ∀ j, j ≠ i → m.current j = n.current j) (cleared : m.current i = none)
    (handed : ∀ j, j ≠ i → m.handed j = n.handed j) (alive : m.alive = n.alive) :
    Wired m ∧ Listed m := by
  have used : ∀ j, (m.sk j).used = true → j ≠ i ∧ (n.sk j).used = true := by
    intro j isUsed
    have apart : j ≠ i := by
      rintro rfl
      simp [freed] at isUsed
    exact ⟨apart, rest j apart ▸ isUsed⟩
  have waits : ∀ l c, Waits m l c ↔ Waits n l c := by
    intro l c
    by_cases same : l = i
    · simp [Waits, same, free, freed]
    · simp only [Waits, rest l same]
  constructor
  · refine ⟨?_, ?_, by rw [pcbs, made]; exact wired.old, ?_⟩
    · intro p k j held
      rw [pcbs] at held
      have elsewhere : j ≠ i := by
        rintro rfl
        exact wired.bare_of_free free p k held
      rw [rest j elsewhere]
      exact wired.args p k j held
    · intro j p isUsed has
      obtain ⟨elsewhere, before⟩ := used j isUsed
      rw [rest j elsewhere] at has
      rw [pcbs]
      exact wired.own j p before has
    · intro lookup member mine
      rw [lookups] at member
      have elsewhere : lookup.slot ≠ i := by
        intro same
        simp [same, cleared] at mine
      rw [current _ elsewhere] at mine
      rw [rest _ elsewhere]
      exact wired.unanswered lookup member mine
  · apply listed.fewer
    · exact fun l c now => (waits l c).mp now
    · intro l c now
      have before := (waits l c).mp now
      obtain ⟨atL, atC⟩ := listed.elsewhere free before
      obtain ⟨isUsed, _, owner⟩ := listed.waits l c before
      rw [rest c atC, rest l atL, handed c atC]
      exact ⟨isUsed, rfl, owner⟩
    · rintro l c now ⟨p, has, held⟩
      exact ⟨p, by rw [rest l (listed.elsewhere free ((waits l c).mp now)).1, has], by rw [pcbs, held]⟩
    · intro l isUsed
      obtain ⟨elsewhere, before⟩ := used l isUsed
      rw [rest l elsewhere]
      exact listed.once l before
    · intro j isUsed
      obtain ⟨elsewhere, before⟩ := used j isUsed
      rw [handed j elsewhere]
      simp only [waits]
      exact listed.accounted j before
    · intro j isUsed
      obtain ⟨elsewhere, before⟩ := used j isUsed
      have owned := listed.owned j before
      unfold Owned at owned ⊢
      rwa [rest j elsewhere, alive]

theorem taken_free (wired : Wired n) (listed : Listed n) (free : (n.sk i).used = false) (s : Sock) :
    Wired ((n.take i s).freeSock i) ∧ Listed ((n.take i s).freeSock i) := by
  apply given_back wired listed free
  · intro j apart
    simp [Net.freeSock, Net.edit, Net.take, apart]
  · simp [Net.freeSock, Net.edit, Net.take, Sock.free]
  · rfl
  · rfl
  · rfl
  · intro j apart
    simp [Net.freeSock, Net.edit, Net.take, apart]
  · simp [Net.freeSock]
  · intro j apart
    simp [Net.freeSock, Net.edit, Net.take, apart]
  · rfl

variable {owner : Nat}

theorem listen_both (wired : Wired n) (listed : Listed n) (alive : n.alive owner = true)
    (port : Port) (listens : Bool) :
    Wired (handOut (n.doListen port owner listens)) ∧ Listed (handOut (n.doListen port owner listens)) := by
  unfold Net.doListen
  split
  · exact ⟨wired, listed⟩
  rename_i i found
  have free := allocSock_free found
  by_cases listening : listens = true
  case neg =>
    rw [if_neg listening]
    exact taken_free wired listed free _
  rw [if_pos listening]
  let m := handOut (some i, ((n.take i zeroed).attach i true).edit i fun s =>
    { s with port := port, owner := owner })
  have wires : Wires n m i := by
    refine ⟨fun j apart => ?_, ?_, .inr ⟨true, rfl, rfl, ?_⟩⟩
    · simp [m, handOut, Net.hand, Net.edit, Net.attach, Net.take, apart]
    · simp [m, handOut, Net.hand, Net.edit, Net.attach, Net.take]
    · simp [m, handOut, Net.hand, Net.edit, Net.attach, Net.take]
  refine opened_both wired listed (m := m) ⟨free, wires, ?_, ?_, rfl, .inr ⟨owner, alive, ?_⟩⟩ ?_ ?_
  · simp [m, handOut, Net.hand, Net.edit, Net.attach, Net.take, zeroed]
  · simp [m, handOut, Net.hand, Net.edit, Net.attach, Net.take]
  · simp [m, handOut, Net.hand, Net.edit, Net.attach, Net.take]
  · intro j apart
    simp [m, handOut, Net.hand, Net.edit, Net.attach, Net.take, apart]
  · intro lookup member
    exact .inl ⟨member, by simp [m, handOut, Net.hand, Net.edit, Net.attach, Net.take]⟩

theorem udp_both (wired : Wired n) (listed : Listed n) (alive : n.alive owner = true)
    (pool : Option (Nat → Byte)) (bound : Option (Nat × Port)) :
    Wired (handOut (n.doUdp owner pool bound)) ∧ Listed (handOut (n.doUdp owner pool bound)) := by
  unfold Net.doUdp
  split
  · exact ⟨wired, listed⟩
  rename_i i found
  have free := allocSock_free found
  split
  · rename_i ring udp port
    let m := handOut (some i, (n.take i (zeroed.giveRing (some ring))).edit i fun s =>
      { s with udp := some udp, owner := owner, port := port })
    have wires : Wires n m i := by
      refine ⟨fun j apart => ?_, ?_, .inl ⟨rfl, rfl, ?_⟩⟩
      · simp [m, handOut, Net.hand, Net.edit, Net.take, apart]
      · simp [m, handOut, Net.hand, Net.edit, Net.take]
      · simp [m, handOut, Net.hand, Net.edit, Net.take, Sock.giveRing, zeroed]
    refine opened_both wired listed (m := m) ⟨free, wires, ?_, ?_, rfl, .inr ⟨owner, alive, ?_⟩⟩ ?_ ?_
    · simp [m, handOut, Net.hand, Net.edit, Net.take, Sock.giveRing, zeroed]
    · simp [m, handOut, Net.hand, Net.edit, Net.take]
    · simp [m, handOut, Net.hand, Net.edit, Net.take]
    · intro j apart
      simp [m, handOut, Net.hand, Net.edit, Net.take, apart]
    · intro lookup member
      exact .inl ⟨member, by simp [m, handOut, Net.hand, Net.edit, Net.take]⟩
  · exact taken_free wired listed free _

theorem start_both (wired : Wired n) (listed : Listed n) (used : (n.sk i).used = true)
    (none : (n.sk i).pcb = none)
    (answered : ∀ lookup ∈ n.lookups, lookup.slot = i → n.current i ≠ some lookup.request)
    (r : Nat) (addr : Addr) (outcome : Outcome) :
    Wired (n.startConnect i r addr outcome) ∧ Listed (n.startConnect i r addr outcome) := by
  let m : Net Addr := { n.attach i false with
    opened := ⟨n.current i, r, addr, (n.sk i).wantPort⟩ :: n.opened }
  have wires : Wires n m i := by
    refine ⟨fun j apart => ?_, ?_, .inr ⟨false, rfl, rfl, ?_⟩⟩
    · simp [m, Net.edit, Net.attach, apart]
    · simp [m, Net.edit, Net.attach, used]
    · simp [m, Net.edit, Net.attach]
  have owner : ∀ j, (m.sk j).owner = (n.sk j).owner := by
    intro j
    by_cases same : j = i
    · simp [m, Net.edit, Net.attach, same]
    · rw [wires.rest j same]
  have waits : ∀ l c, Waits m l c ↔ Waits n l c := by
    intro l c
    by_cases same : l = i
    · simp [Waits, m, Net.edit, Net.attach, same]
    · simp only [Waits, wires.rest l same]
  have isUsed : ∀ j, (m.sk j).used = (n.sk j).used := by
    intro j
    by_cases same : j = i
    · rw [same, wires.used, used]
    · rw [wires.rest j same]
  -- With its pcb attached the socket satisfies both; a refusal then only takes it out of use.
  have attached : Wired m ∧ Listed m := by
    constructor
    · apply wired.wires wires (wired.bare_of_none none)
      exact wired.unanswered_new wires (fun _ _ => rfl)
        (fun lookup member => .inl ⟨member, answered lookup member⟩)
    · apply listed.fewer
      · exact fun l c now => (waits l c).mp now
      · intro l c now
        obtain ⟨taken, _, same⟩ := listed.waits l c ((waits l c).mp now)
        rw [isUsed, owner, owner]
        exact ⟨taken, rfl, same⟩
      · intro l c now before
        apply wires.listens wired _ before
        rintro rfl
        obtain ⟨p, has, _⟩ := before
        simp [none] at has
      · intro l taken
        rw [isUsed] at taken
        by_cases same : l = i
        · subst same
          simpa [m, Net.edit, Net.attach] using listed.once l taken
        · rw [wires.rest l same]
          exact listed.once l taken
      · intro j taken
        rw [isUsed] at taken
        simp only [waits]
        exact listed.accounted j taken
      · intro j taken
        rw [isUsed] at taken
        have owned := listed.owned j taken
        unfold Owned at owned ⊢
        rwa [owner]
  cases outcome with
  | noPcb =>
    have still : Still n (n.edit i fun s => { s with connecting := false, gone := true }) := by
      apply still_edit <;> exact fun _ => rfl
    exact ⟨wired.still still, listed.still still⟩
  | refused =>
    have still : Still m (m.edit i fun s => { s with connecting := false, gone := true }) := by
      apply still_edit <;> exact fun _ => rfl
    exact ⟨attached.1.still still, attached.2.still still⟩
  | started => exact attached

theorem connect_both (asked : Asked n) (wired : Wired n) (listed : Listed n)
    (alive : n.alive owner = true) (host : List Byte) (port : Port) (pool : Option (Nat → Byte))
    (dns : Dns Addr) (outcome : Outcome) :
    Wired (handOut (n.doConnect host port owner pool dns outcome)) ∧
      Listed (handOut (n.doConnect host port owner pool dns outcome)) := by
  unfold Net.doConnect
  split
  · exact ⟨wired, listed⟩
  split
  · exact ⟨wired, listed⟩
  rename_i i found
  have free := allocSock_free found
  let s : Sock := { zeroed.giveRing pool with owner := owner, wantPort := port, connecting := true }
  let began : Net Addr := (n.take i s).ask i port
  -- The request is new, so no look-up under way is an answer to it.
  have others : ∀ lookup ∈ n.lookups, lookup.slot = i → began.current i ≠ some lookup.request := by
    intro lookup member _ mine
    have same : n.requests = lookup.request := by
      simpa [began, Net.ask, Net.take] using mine
    exact (asked.asked lookup member).ne same.symm
  have opened : ∀ m : Net Addr, m.sk = began.sk → m.pcbs = n.pcbs → m.made = n.made →
      m.handed = update n.handed i true → m.alive = n.alive → Opened n m i := by
    intro m sk pcbs made handed alive'
    refine ⟨free, ⟨fun j apart => ?_, ?_, .inl ⟨pcbs, made, ?_⟩⟩, ?_, handed, alive', .inr ⟨owner, ?_, ?_⟩⟩
    · simp [sk, began, Net.ask, Net.take, apart]
    · simp [sk, began, Net.ask, Net.take]
    · simp [sk, began, Net.ask, Net.take, s, Sock.giveRing, zeroed]
    · simp [sk, began, Net.ask, Net.take, s, Sock.giveRing, zeroed]
    · rw [alive', alive]
    · simp [sk, began, Net.ask, Net.take, s]
  have handed : update (update n.handed i false) i true = update n.handed i true := by simp
  have current : ∀ j, j ≠ i → began.current j = n.current j := by
    intro j apart
    simp [began, Net.ask, Net.take, apart]
  cases dns with
  | known addr =>
    have both := opened_both wired listed (opened (began.hand i) rfl rfl rfl handed rfl) current
      (fun lookup member => .inl ⟨member, others lookup member⟩)
    have same : handOut (some i, began.startConnect i n.requests addr outcome) =
        (began.hand i).startConnect i n.requests addr outcome := by
      cases outcome <;> rfl
    change Wired (handOut (some i, began.startConnect i n.requests addr outcome)) ∧
      Listed (handOut (some i, began.startConnect i n.requests addr outcome))
    rw [same]
    apply start_both both.1 both.2
    · simp [Net.hand, began, Net.ask, Net.take]
    · simp [Net.hand, began, Net.ask, Net.take, s, Sock.giveRing, zeroed]
    · exact others
  | later =>
    let waiting : Lookup := ⟨n.requests, i⟩
    let m : Net Addr := Net.hand { began with lookups := n.lookups ++ [waiting] } i
    have both : Wired m ∧ Listed m := by
      refine opened_both wired listed (opened m rfl rfl rfl handed rfl) current ?_
      intro lookup member
      rcases List.mem_append.mp member with before | new
      · exact .inl ⟨before, others lookup before⟩
      · rw [List.mem_singleton.mp new]
        refine .inr ⟨rfl, ?_⟩
        simp [m, Net.hand, began, Net.ask, Net.take, s, Sock.giveRing, zeroed]
    exact both
  | unknown =>
    apply given_back wired listed free
    · intro j apart
      simp [handOut, Net.freeSock, Net.edit, Net.take, apart]
    · simp [handOut, Net.freeSock, Net.edit, Net.take, Sock.free]
    · rfl
    · rfl
    · rfl
    · intro j apart
      simp [handOut, Net.freeSock, Net.edit, Net.take, apart]
    · simp [handOut, Net.freeSock]
    · intro j apart
      simp [handOut, Net.freeSock, Net.edit, Net.take, apart]
    · rfl

end Taking

section Handing
variable {n : Net Addr} {i : Slot}

theorem accept_both (wired : Wired n) (listed : Listed n) (k : Nat) :
    Wired (handOut (n.doAccept k)) ∧ Listed (handOut (n.doAccept k)) := by
  unfold Net.doAccept
  split
  · exact ⟨wired, listed⟩
  rename_i i _
  split
  case h_2 => exact ⟨wired, listed⟩
  rename_i c rest isUsed pending
  let m : Net Addr := (n.edit i fun s => { s with pending := rest }).hand c
  have view : ∀ j, (m.sk j).used = (n.sk j).used ∧ (m.sk j).pcb = (n.sk j).pcb ∧
      (m.sk j).owner = (n.sk j).owner := by
    intro j
    by_cases same : j = i
    · simp [m, Net.hand, Net.edit, same]
    · simp [m, Net.hand, Net.edit, same]
  have first : Waits n i c := ⟨isUsed, by simp [pending]⟩
  have once := listed.once i isUsed
  rw [pending, List.nodup_cons] at once
  have fewer : ∀ l x, Waits m l x → Waits n l x ∧ x ≠ c := by
    rintro l x ⟨used, member⟩
    rw [(view l).1] at used
    by_cases same : l = i
    · subst same
      have inRest : x ∈ rest := by simpa [m, Net.hand, Net.edit] using member
      refine ⟨⟨used, by simp [pending, inRest]⟩, ?_⟩
      rintro rfl
      exact once.1 inRest
    · have before : Waits n l x := ⟨used, by simpa [m, Net.hand, Net.edit, same] using member⟩
      refine ⟨before, ?_⟩
      rintro rfl
      exact same (listed.apart l i x before first)
  have others : ∀ l x, Waits n l x → x ≠ c → Waits m l x := by
    rintro l x ⟨used, member⟩ apart
    refine ⟨(view l).1.trans used, ?_⟩
    by_cases same : l = i
    · subst same
      simpa [m, Net.hand, Net.edit, pending, apart] using member
    · simpa [m, Net.hand, Net.edit, same] using member
  have both : Wired m ∧ Listed m := by
    refine ⟨wired.same (fun j => (view j).1) (fun j => (view j).2.1) rfl rfl (List.Subset.refl _) rfl, ?_⟩
    apply listed.fewer
    · exact fun l x now => (fewer l x now).1
    · intro l x now
      obtain ⟨before, apart⟩ := fewer l x now
      obtain ⟨used, _, owner⟩ := listed.waits l x before
      refine ⟨(view x).1.trans used, by simp [m, Net.hand, Net.edit, apart], ?_⟩
      rw [(view x).2.2, (view l).2.2, owner]
    · rintro l x _ ⟨p, has, held⟩
      exact ⟨p, (view l).2.1.trans has, held⟩
    · intro l used
      rw [(view l).1] at used
      by_cases same : l = i
      · subst same
        simpa [m, Net.hand, Net.edit] using once.2
      · simpa [m, Net.hand, Net.edit, same] using listed.once l used
    · intro j used
      rw [(view j).1] at used
      by_cases same : j = c
      · exact .inl (by simp [m, Net.hand, same])
      · rcases listed.accounted j used with handed | ⟨l, waits⟩
        · exact .inl (by simpa [m, Net.hand, Net.edit, same] using handed)
        · exact .inr ⟨l, others l j waits same⟩
    · intro j used
      rw [(view j).1] at used
      have owned := listed.owned j used
      unfold Owned at owned ⊢
      rwa [(view j).2.2]
  exact both

/-- A connection has come into slot `i` and waits on the list of `server`. -/
structure Queued (n m : Net Addr) (server i : Slot) : Prop where
  free : (n.sk i).used = false
  used : (n.sk server).used = true
  appended : m.sk server = { n.sk server with pending := (n.sk server).pending ++ [i] }
  new : (m.sk i).used = true ∧ (m.sk i).pcb = some n.made ∧ (m.sk i).pending = [] ∧
    (m.sk i).owner = (n.sk server).owner
  rest : ∀ j, j ≠ i → j ≠ server → m.sk j = n.sk j
  handed : m.handed = update n.handed i false
  pcbs : m.pcbs = update n.pcbs n.made (some ⟨false, some i⟩)
  made : m.made = n.made + 1
  current : m.current = update n.current i none
  lookups : m.lookups = n.lookups
  alive : m.alive = n.alive

variable {m : Net Addr} {server : Slot}

theorem Queued.apart (queued : Queued n m server i) : server ≠ i := by
  rintro rfl
  exact Bool.false_ne_true (queued.free.symm.trans queued.used)

theorem Queued.kept (queued : Queued n m server i) {j : Slot} (elsewhere : j ≠ i) :
    (m.sk j).owner = (n.sk j).owner ∧ (m.sk j).used = (n.sk j).used ∧ (m.sk j).pcb = (n.sk j).pcb := by
  by_cases atS : j = server
  · rw [atS, queued.appended]
    exact ⟨rfl, rfl, rfl⟩
  · rw [queued.rest j elsewhere atS]
    exact ⟨rfl, rfl, rfl⟩

theorem Queued.waits (queued : Queued n m server i) (l x : Slot) :
    Waits m l x ↔ Waits n l x ∨ l = server ∧ x = i := by
  by_cases atI : l = i
  · simp [Waits, atI, queued.new.2.2.1, queued.free, queued.apart.symm]
  · by_cases atS : l = server
    · simp [Waits, atS, queued.appended, queued.used]
    · simp [Waits, queued.rest l atI atS, atS]

theorem Queued.listens (queued : Queued n m server i) (wired : Wired n) {l : Slot} (elsewhere : l ≠ i)
    (before : Listens n l) : Listens m l := by
  obtain ⟨p, has, held⟩ := before
  have old : p ≠ n.made := by
    rintro rfl
    simp [wired.old _ le_rfl] at held
  exact ⟨p, (queued.kept elsewhere).2.2.trans has, by rw [queued.pcbs, update_of_ne old, held]⟩

theorem Queued.wired (queued : Queued n m server i) (wired : Wired n) : Wired m := by
  let listener : Net Addr := n.edit server fun s => { s with pending := s.pending ++ [i] }
  have other : ∀ j, j ≠ i → m.sk j = listener.sk j := by
    intro j elsewhere
    by_cases atS : j = server
    · simp [atS, queued.appended, listener, Net.edit]
    · simp [queued.rest j elsewhere atS, listener, Net.edit, atS]
  have listening : Wired listener := by
    refine wired.same ?_ ?_ rfl rfl (List.Subset.refl _) rfl
    all_goals
      intro j
      by_cases atS : j = server <;> simp [listener, Net.edit, atS]
  have wires : Wires listener m i :=
    ⟨other, queued.new.1, .inr ⟨false, queued.pcbs, queued.made, queued.new.2.1⟩⟩
  apply listening.wires wires
  · exact listening.bare_of_free (by simp [listener, Net.edit, queued.apart.symm, queued.free])
  · apply listening.unanswered_new wires
    · exact fun j elsewhere => by rw [queued.current, update_of_ne elsewhere]; rfl
    · exact fun lookup member => .inl ⟨queued.lookups ▸ member, by simp [queued.current]⟩

theorem Queued.listed (queued : Queued n m server i) (wired : Wired n) (listed : Listed n)
    (listening : Listens n server) : Listed m where
  waits l x now := by
    rcases (queued.waits l x).mp now with before | ⟨rfl, rfl⟩
    · obtain ⟨atL, atX⟩ := listed.elsewhere queued.free before
      rw [(queued.kept atX).1, (queued.kept atX).2.1, (queued.kept atL).1, queued.handed, update_of_ne atX]
      exact listed.waits l x before
    · rw [(queued.kept queued.apart).1, queued.handed, update_self]
      exact ⟨queued.new.1, rfl, queued.new.2.2.2⟩
  listens l x now := by
    rcases (queued.waits l x).mp now with before | ⟨rfl, _⟩
    · exact queued.listens wired (listed.elsewhere queued.free before).1 (listed.listens l x before)
    · exact queued.listens wired queued.apart listening
  apart l l' x first second := by
    rcases (queued.waits l x).mp first with before | ⟨rfl, rfl⟩
    · rcases (queued.waits l' x).mp second with before' | ⟨_, rfl⟩
      · exact listed.apart l l' x before before'
      · exact absurd rfl (listed.elsewhere queued.free before).2
    · rcases (queued.waits l' x).mp second with before' | ⟨rfl, _⟩
      · exact absurd rfl (listed.elsewhere queued.free before').2
      · rfl
  once l taken := by
    by_cases atI : l = i
    · rw [atI, queued.new.2.2.1]
      exact List.nodup_nil
    · rw [(queued.kept atI).2.1] at taken
      have once := listed.once l taken
      by_cases atS : l = server
      · have absent : i ∉ (n.sk l).pending := fun member => (listed.elsewhere queued.free ⟨taken, member⟩).2 rfl
        rw [atS, queued.appended, ← atS]
        exact once.append (List.nodup_singleton i) (by simpa using absent)
      · rwa [queued.rest l atI atS]
  accounted j taken := by
    by_cases atI : j = i
    · exact .inr ⟨server, (queued.waits server j).mpr (.inr ⟨rfl, atI⟩)⟩
    · rw [(queued.kept atI).2.1] at taken
      rw [queued.handed, update_of_ne atI]
      exact (listed.accounted j taken).imp_right (Exists.imp fun l before => (queued.waits l j).mpr (.inl before))
  owned j taken := by
    unfold Owned
    rw [queued.alive]
    by_cases atI : j = i
    · rw [atI, queued.new.2.2.2]
      exact listed.owned server queued.used
    · rw [(queued.kept atI).2.1] at taken
      rw [(queued.kept atI).1]
      exact listed.owned j taken

theorem incoming_both (wired : Wired n) (listed : Listed n) {p : Nat}
    (listening : n.pcbs p = some ⟨true, some server⟩) (pool : Option (Nat → Byte)) :
    Wired (n.onAccept server pool) ∧ Listed (n.onAccept server pool) := by
  unfold Net.onAccept
  split
  · exact ⟨wired, listed⟩
  split
  · exact ⟨wired, listed⟩
  rename_i i found
  have free := allocSock_free found
  obtain ⟨used, mine⟩ := wired.args p true server listening
  have apart : server ≠ i := by
    rintro rfl
    simp [free] at used
  have queued : Queued n ((((n.take i (zeroed.giveRing pool)).attach i false).edit i fun s =>
      { s with owner := (((n.take i (zeroed.giveRing pool)).attach i false).sk server).owner }).edit
        server fun s => { s with pending := s.pending ++ [i] }) server i := by
    refine ⟨free, used, ?_, ?_, fun j atI atS => ?_, rfl, rfl, rfl, rfl, rfl, rfl⟩
    · simp [Net.edit, Net.attach, Net.take, apart]
    · simp [Net.edit, Net.attach, Net.take, apart, apart.symm, Sock.giveRing, zeroed]
    · simp [Net.edit, Net.attach, Net.take, atI, atS]
  exact ⟨queued.wired wired, queued.listed wired listed ⟨p, mine, listening⟩⟩

end Handing

section Freeing
variable {n m : Net Addr} {i : Slot}

theorem shut_sk (j : Slot) : (n.shut i).sk j = if j = i then (n.sk i).free else n.sk j := by
  unfold Net.shut
  split <;> by_cases same : j = i <;> simp [Net.freeSock, Net.edit, same]

theorem shut_rest : (n.shut i).made = n.made ∧ (n.shut i).lookups = n.lookups ∧
    (n.shut i).alive = n.alive ∧ (n.shut i).handed = update n.handed i false ∧
    (n.shut i).current = update n.current i none := by
  unfold Net.shut
  split <;> simp [Net.freeSock, Net.edit]

theorem letGo_arg (b : Pcb) (k : Bool) (j : Slot) : b.letGo ≠ some ⟨k, some j⟩ := by
  unfold Pcb.letGo
  split <;> simp

theorem shut_pcbs (wired : Wired n) (used : (n.sk i).used = true) (p : Nat) (k : Bool) (j : Slot) :
    (n.shut i).pcbs p = some ⟨k, some j⟩ ↔ n.pcbs p = some ⟨k, some j⟩ ∧ j ≠ i := by
  have bare : n.pcbs p = some ⟨k, some j⟩ → (n.sk i).pcb ≠ some p → j ≠ i := by
    rintro held other rfl
    exact other (wired.args p k j held).2
  unfold Net.shut
  split
  · rename_i none
    constructor
    · exact fun held => ⟨held, bare held (by simp [none])⟩
    · exact fun held => held.1
  · rename_i q mine
    obtain ⟨k', own⟩ := wired.own i q used mine
    change update n.pcbs q ((n.pcbs q).bind Pcb.letGo) p = _ ↔ _
    by_cases same : p = q
    · subst same
      rw [update_self, own]
      constructor
      · exact fun held => absurd held (letGo_arg _ k j)
      · rintro ⟨held, apart⟩
        cases held
        exact absurd rfl apart
    · rw [update_of_ne same]
      constructor
      · exact fun held => ⟨held, bare held (by simp [mine, Ne.symm same])⟩
      · exact fun held => held.1

theorem Wired.shut (wired : Wired n) (used : (n.sk i).used = true) : Wired (n.shut i) where
  args p k j held := by
    obtain ⟨before, apart⟩ := (shut_pcbs wired used p k j).mp held
    rw [shut_sk, if_neg apart]
    exact wired.args p k j before
  own j p taken has := by
    have apart : j ≠ i := by
      rintro rfl
      simp [shut_sk, Sock.free] at taken
    rw [shut_sk, if_neg apart] at taken has
    obtain ⟨k, held⟩ := wired.own j p taken has
    exact ⟨k, (shut_pcbs wired used p k j).mpr ⟨held, apart⟩⟩
  old p later := by
    rw [shut_rest.1] at later
    unfold Net.shut
    split
    · exact wired.old p later
    · rename_i q _
      change update n.pcbs q ((n.pcbs q).bind Pcb.letGo) p = none
      by_cases same : p = q
      · subst same
        rw [update_self, wired.old p later, Option.bind_none]
      · rw [update_of_ne same, wired.old p later]
  unanswered lookup member mine := by
    rw [shut_rest.2.1] at member
    rw [shut_rest.2.2.2.2] at mine
    have apart : lookup.slot ≠ i := by
      intro same
      simp [same] at mine
    rw [update_of_ne apart] at mine
    rw [shut_sk, if_neg apart]
    exact wired.unanswered lookup member mine

theorem Listens.shut (wired : Wired n) (used : (n.sk i).used = true) {l : Slot} (apart : l ≠ i)
    (before : Listens n l) : Listens (n.shut i) l := by
  obtain ⟨p, has, held⟩ := before
  exact ⟨p, by rw [shut_sk, if_neg apart, has], (shut_pcbs wired used p true l).mpr ⟨held, apart⟩⟩

/-- Slots that are freed, none of them with or among connections that wait on another. -/
structure Frees (n m : Net Addr) (gone : Slot → Prop) : Prop where
  kept : ∀ j, ¬ gone j → m.sk j = n.sk j ∧ m.handed j = n.handed j
  freed : ∀ j, gone j → (m.sk j).used = false
  alive : m.alive = n.alive
  listens : ∀ l, ¬ gone l → Listens n l → Listens m l
  together : ∀ l c, Waits n l c → (gone l ↔ gone c)

theorem Listed.frees (listed : Listed n) {gone : Slot → Prop} (frees : Frees n m gone) : Listed m := by
  have kept : ∀ j, (m.sk j).used = true → ¬ gone j := by
    intro j used isGone
    simp [frees.freed j isGone] at used
  have before : ∀ l c, Waits m l c → ¬ gone l ∧ Waits n l c := by
    rintro l c ⟨used, member⟩
    have still := kept l used
    rw [(frees.kept l still).1] at used member
    exact ⟨still, used, member⟩
  apply listed.fewer
  · exact fun l c now => (before l c now).2
  · intro l c now
    obtain ⟨still, waits⟩ := before l c now
    have stillC : ¬ gone c := fun isGone => still ((frees.together l c waits).mpr isGone)
    obtain ⟨used, _, owner⟩ := listed.waits l c waits
    rw [(frees.kept l still).1, (frees.kept c stillC).1]
    exact ⟨used, (frees.kept c stillC).2, owner⟩
  · exact fun l c now listens => frees.listens l (before l c now).1 listens
  · intro l used
    have still := kept l used
    rw [(frees.kept l still).1] at used ⊢
    exact listed.once l used
  · intro j used
    have still := kept j used
    rw [(frees.kept j still).1] at used
    rw [(frees.kept j still).2]
    refine (listed.accounted j used).imp_right ?_
    rintro ⟨l, waits⟩
    have stillL : ¬ gone l := fun isGone => still ((frees.together l j waits).mp isGone)
    refine ⟨l, ?_⟩
    unfold Waits at waits ⊢
    rwa [(frees.kept l stillL).1]
  · intro j used
    have still := kept j used
    rw [(frees.kept j still).1] at used
    have owned := listed.owned j used
    unfold Owned at owned ⊢
    rwa [(frees.kept j still).1, frees.alive]

theorem close_both (wired : Wired n) (listed : Listed n) (k : Nat)
    (careful : ∀ slot ∈ slotOf k, (n.sk slot).used = true →
      (n.sk slot).pending = [] ∧ ∀ l, ¬ Waits n l slot) :
    Wired (n.doClose k) ∧ Listed (n.doClose k) := by
  unfold Net.doClose
  split
  · exact ⟨wired, listed⟩
  rename_i i found
  split
  case isFalse => exact ⟨wired, listed⟩
  rename_i used
  obtain ⟨empty, alone⟩ := careful i found used
  have frees : Frees n (n.shut i) fun j => j = i := by
    constructor
    · intro j apart
      exact ⟨by rw [shut_sk, if_neg apart], by rw [shut_rest.2.2.2.1, update_of_ne apart]⟩
    · rintro j rfl
      simp [shut_sk, Sock.free]
    · exact shut_rest.2.2.1
    · exact fun l apart before => before.shut wired used apart
    · intro l c waits
      constructor
      · rintro rfl
        simp [Waits, empty] at waits
      · rintro rfl
        exact absurd waits (alone l)
  exact ⟨wired.shut used, listed.frees frees⟩

def Dead (n : Net Addr) (j : Slot) : Prop := (n.sk j).used = true ∧ (n.sk j).owner = ownerDead

theorem reap_visits (j : Slot) : ¬ Dead n.reap j := by
  have freed : ∀ (m : Net Addr) (i : Slot), ¬ Dead (m.reapSlot i) i := by
    intro m i
    unfold Net.reapSlot
    split
    · simp [Dead, shut_sk, Sock.free]
    · rename_i alive
      exact alive
  have stays : ∀ (m : Net Addr) (i other : Slot), ¬ Dead m other → ¬ Dead (m.reapSlot i) other := by
    intro m i other alive
    unfold Net.reapSlot
    split
    · by_cases same : other = i
      · simp [Dead, shut_sk, same, Sock.free]
      · simpa [Dead, shut_sk, same] using alive
    · exact alive
  exact Machine.foldl_visits (fun j m => ¬ Dead m j) freed stays j (List.mem_finRange j)

/-- What the loop has freed so far was dead, and nothing else has changed. -/
structure Reaping (n m : Net Addr) : Prop where
  wired : Wired m
  kept : ∀ j, ¬ Dead n j → m.sk j = n.sk j ∧ m.handed j = n.handed j
  dead : ∀ j, Dead n j → m.sk j = n.sk j ∨ (m.sk j).used = false
  alive : m.alive = n.alive
  listens : ∀ l, ¬ Dead n l → Listens n l → Listens m l

theorem Reaping.slot (reaping : Reaping n m) (i : Slot) : Reaping n (m.reapSlot i) := by
  unfold Net.reapSlot
  split
  case isFalse => exact reaping
  rename_i dead
  have gone : Dead n i := by
    by_contra alive
    rw [(reaping.kept i alive).1] at dead
    exact alive dead
  have apart : ∀ j, ¬ Dead n j → j ≠ i := by
    rintro j alive rfl
    exact alive gone
  constructor
  · exact reaping.wired.shut dead.1
  · intro j alive
    rw [shut_sk, if_neg (apart j alive), shut_rest.2.2.2.1, update_of_ne (apart j alive)]
    exact reaping.kept j alive
  · intro j isDead
    rw [shut_sk]
    split
    · exact .inr rfl
    · exact reaping.dead j isDead
  · exact shut_rest.2.2.1.trans reaping.alive
  · exact fun l alive before =>
      (reaping.listens l alive before).shut reaping.wired dead.1 (apart l alive)

theorem reap_frees (wired : Wired n) (listed : Listed n) : Wired n.reap ∧ Frees n n.reap (Dead n) := by
  have reaping : Reaping n n.reap :=
    Machine.foldl_invariant (Reaping n)
      ⟨wired, fun _ _ => ⟨rfl, rfl⟩, fun _ _ => .inl rfl, rfl, fun _ _ before => before⟩
      (fun _ i _ reaping => reaping.slot i)
  refine ⟨reaping.wired, reaping.kept, ?_, reaping.alive, reaping.listens, ?_⟩
  · intro j dead
    rcases reaping.dead j dead with same | freed
    · exact absurd (by rwa [Dead, same]) (reap_visits (n := n) j)
    · exact freed
  · intro l c waits
    obtain ⟨used, _, owner⟩ := listed.waits l c waits
    simp [Dead, waits.1, used, owner]

theorem reap_both (wired : Wired n) (listed : Listed n) : Wired n.reap ∧ Listed n.reap :=
  ⟨(reap_frees wired listed).1, listed.frees (reap_frees wired listed).2⟩

/-- `on_err`: the socket has lost its connection, and the stack the block for it. -/
def Net.dropped (n : Net Addr) (p : Nat) (i : Slot) : Net Addr :=
  { n.edit i Sock.onErr with pcbs := update n.pcbs p none }

section Dropped
variable {p : Nat} (held : n.pcbs p = some ⟨false, some i⟩)

theorem dropped_view (p : Nat) (j : Slot) : ((n.dropped p i).sk j).used = (n.sk j).used ∧
    ((n.dropped p i).sk j).owner = (n.sk j).owner ∧
      ((n.dropped p i).sk j).pending = (n.sk j).pending := by
  by_cases same : j = i
  · simp [Net.dropped, Net.edit, same, Sock.onErr]
  · simp [Net.dropped, Net.edit, same]

theorem dropped_pcb (p : Nat) (j : Slot) :
    ((n.dropped p i).sk j).pcb = if j = i then none else (n.sk j).pcb := by
  by_cases same : j = i
  · simp [Net.dropped, Net.edit, same, Sock.onErr]
  · simp [Net.dropped, Net.edit, same]

theorem dropped_waits (l c : Slot) : Waits (n.dropped p i) l c ↔ Waits n l c := by
  simp only [Waits, dropped_view]

include held

theorem dropped_pcbs (wired : Wired n) (q : Nat) (k : Bool) (j : Slot) :
    (n.dropped p i).pcbs q = some ⟨k, some j⟩ ↔ n.pcbs q = some ⟨k, some j⟩ ∧ j ≠ i := by
  obtain ⟨used, mine⟩ := wired.args p false i held
  change update n.pcbs p none q = _ ↔ _
  by_cases same : q = p
  · subst same
    rw [update_self, held]
    constructor
    · intro absent
      cases absent
    · rintro ⟨is, apart⟩
      cases is
      exact absurd rfl apart
  · rw [update_of_ne same]
    constructor
    · intro is
      refine ⟨is, ?_⟩
      rintro rfl
      exact same (Option.some_inj.mp ((wired.args q k j is).2.symm.trans mine))
    · exact fun is => is.1

theorem Wired.dropped (wired : Wired n) : Wired (n.dropped p i) := by
  constructor
  · intro q k j is
    obtain ⟨before, apart⟩ := (dropped_pcbs held wired q k j).mp is
    rw [(dropped_view p j).1, dropped_pcb, if_neg apart]
    exact wired.args q k j before
  · intro j q taken has
    rw [dropped_pcb] at has
    split at has
    · cases has
    · rename_i apart
      rw [(dropped_view p j).1] at taken
      obtain ⟨k, is⟩ := wired.own j q taken has
      exact ⟨k, (dropped_pcbs held wired q k j).mpr ⟨is, apart⟩⟩
  · intro q later
    change update n.pcbs p none q = none
    by_cases same : q = p
    · rw [same, update_self]
    · rw [update_of_ne same]
      exact wired.old q later
  · intro lookup member current
    rw [dropped_pcb]
    split
    · rfl
    · exact wired.unanswered lookup member current

theorem Listed.dropped (listed : Listed n) (wired : Wired n) : Listed (n.dropped p i) := by
  apply listed.fewer
  · exact fun l c now => (dropped_waits l c).mp now
  · intro l c now
    obtain ⟨taken, _, same⟩ := listed.waits l c ((dropped_waits l c).mp now)
    rw [(dropped_view p c).1, (dropped_view p c).2.1, (dropped_view p l).2.1]
    exact ⟨taken, rfl, same⟩
  · rintro l c now ⟨q, has, is⟩
    have apart : l ≠ i := by
      rintro rfl
      obtain rfl : q = p := Option.some_inj.mp (has.symm.trans (wired.args p false l held).2)
      rw [held] at is
      cases is
    exact ⟨q, by rw [dropped_pcb, if_neg apart, has],
      (dropped_pcbs held wired q true l).mpr ⟨is, apart⟩⟩
  · intro l taken
    rw [(dropped_view p l).1] at taken
    rw [(dropped_view p l).2.2]
    exact listed.once l taken
  · intro j taken
    rw [(dropped_view p j).1] at taken
    simp only [dropped_waits]
    exact listed.accounted j taken
  · intro j taken
    rw [(dropped_view p j).1] at taken
    have owned := listed.owned j taken
    unfold Owned at owned ⊢
    rwa [(dropped_view p j).2.1]

end Dropped

theorem failed_both (wired : Wired n) (listed : Listed n) (p : Nat) :
    Wired (n.step (.failed p)) ∧ Listed (n.step (.failed p)) := by
  simp only [Net.step]
  split
  case h_2 => exact ⟨wired, listed⟩
  rename_i i connection
  have held : n.pcbs p = some ⟨false, some i⟩ := by
    unfold Net.connection at connection
    split at connection
    · rename_i arg is
      rw [is, connection]
    · cases connection
  exact ⟨wired.dropped held, listed.dropped held wired⟩

theorem ended_both (wired : Wired n) (listed : Listed n) (pid : Nat) :
    Wired (n.step (.ended pid)) ∧ Listed (n.step (.ended pid)) := by
  let m : Net Addr := { n.forgetPid pid with alive := update n.alive pid false }
  have view : ∀ j, (m.sk j).used = (n.sk j).used ∧ (m.sk j).pcb = (n.sk j).pcb ∧
      (m.sk j).pending = (n.sk j).pending ∧
      (m.sk j).owner = if (n.sk j).used = true ∧ (n.sk j).owner = pid then ownerDead
        else (n.sk j).owner := by
    intro j
    simp only [m, Net.forgetPid]
    split <;> simp
  have waits : ∀ l c, Waits m l c ↔ Waits n l c := by
    intro l c
    simp only [Waits, view]
  have both : Wired m ∧ Listed m := by
    refine ⟨wired.same (fun j => (view j).1) (fun j => (view j).2.1) rfl rfl (List.Subset.refl _) rfl, ?_⟩
    apply listed.fewer
    · exact fun l c now => (waits l c).mp now
    · intro l c now
      have before := (waits l c).mp now
      obtain ⟨taken, _, same⟩ := listed.waits l c before
      rw [(view c).1, (view c).2.2.2, (view l).2.2.2, same]
      exact ⟨taken, rfl, by simp [taken, before.1]⟩
    · rintro l c _ ⟨p, has, held⟩
      exact ⟨p, (view l).2.1.trans has, held⟩
    · intro l taken
      rw [(view l).1] at taken
      rw [(view l).2.2.1]
      exact listed.once l taken
    · intro j taken
      rw [(view j).1] at taken
      simp only [waits]
      exact listed.accounted j taken
    · intro j taken
      rw [(view j).1] at taken
      unfold Owned
      rw [(view j).2.2.2]
      split
      · exact .inl rfl
      · rename_i other
        rcases listed.owned j taken with dead | ⟨pid', alive, owner⟩
        · exact .inl dead
        · refine .inr ⟨pid', ?_, owner⟩
          have apart : pid' ≠ pid := by
            rintro rfl
            exact other ⟨taken, owner⟩
          change update n.alive pid false pid' = true
          rw [update_of_ne apart, alive]
  exact both

end Freeing

section Runs
variable {n : Net Addr}

theorem resolved_both (asked : Asked n) (wired : Wired n) (listed : Listed n) {lookup : Lookup}
    (addr : Option Addr) (outcome : Outcome) (timely : Timely n (.resolved lookup addr outcome)) :
    Wired (n.step (.resolved lookup addr outcome)) ∧
      Listed (n.step (.resolved lookup addr outcome)) := by
  simp only [Net.step]
  split
  case isFalse => exact ⟨wired, listed⟩
  rename_i waits
  have erased : ∀ other ∈ n.lookups.erase lookup, other ∈ n.lookups := fun _ => List.mem_of_mem_erase
  let rest : Net Addr := { n with lookups := n.lookups.erase lookup }
  have still : Still n rest :=
    ⟨fun _ => rfl, fun _ => rfl, fun _ => rfl, fun _ => rfl, rfl, rfl, rfl, fun _ alive => alive,
      erased, rfl⟩
  have wired' := wired.still still
  have listed' := listed.still still
  simp only [Net.onResolved]
  split
  · exact ⟨wired', listed'⟩
  rename_i busy
  simp only [Bool.or_eq_true, Bool.not_eq_true', not_or, Bool.not_eq_false] at busy
  cases addr with
  | none =>
    have told : Still rest (rest.edit lookup.slot fun s =>
        { s with connecting := false, gone := true }) := by
      apply still_edit <;> exact fun _ => rfl
    exact ⟨wired'.still told, listed'.still told⟩
  | some addr =>
    have mine : n.current lookup.slot = some lookup.request := timely busy.1 busy.2
    apply start_both wired' listed' busy.1 (wired.unanswered lookup waits mine)
    -- no other look-up is for the same request
    intro other member same current
    obtain rfl : other = lookup :=
      List.inj_on_of_nodup_map asked.apart (erased other member) waits
        (Option.some_inj.mp (current.symm.trans mine))
    exact asked.apart.of_map.not_mem_erase member

theorem onRecv_still (i : Slot) (p : Chain) (err : Bool) : Still n (n.edit i fun s => s.onRecv p err) := by
  apply still_edit
  all_goals
    intro s
    unfold Sock.onRecv
    repeat' split
    all_goals rfl

theorem doRecv_still (i : Slot) (len : Nat) : Still n (n.edit i fun s => (s.doRecv len).2.2) := by
  apply still_edit
  all_goals
    intro s
    unfold Sock.doRecv
    repeat' split
    all_goals rfl

theorem onConnected_still (i : Slot) (err : Bool) : Still n (n.edit i fun s => s.onConnected err) := by
  apply still_edit
  all_goals
    intro s
    unfold Sock.onConnected
    split <;> rfl

theorem handle_both (asked : Asked n) (wired : Wired n) (listed : Listed n) {caller : Nat}
    (alive : n.alive caller = true) (call : Call Addr)
    (careful : ∀ i, call = .close i → ∀ slot ∈ slotOf i, (n.sk slot).used = true →
      (n.sk slot).pending = [] ∧ ∀ l, ¬ Waits n l slot) :
    Wired (n.sockHandle caller call) ∧ Listed (n.sockHandle caller call) := by
  cases call with
  | listen port listens => exact listen_both wired listed alive port listens
  | accept i => exact accept_both wired listed i
  | recv i len =>
    simp only [Net.sockHandle]
    split
    · exact ⟨wired, listed⟩
    · exact ⟨wired.still (doRecv_still _ len), listed.still (doRecv_still _ len)⟩
  | close i => exact close_both wired listed i (careful i rfl)
  | connect host port pool dns outcome =>
    exact connect_both asked wired listed alive host port pool dns outcome
  | udp pool bound => exact udp_both wired listed alive pool bound

theorem timely_of_careful {input : Step Addr} (careful : Careful n input) : Timely n input := by
  cases input with
  | resolved lookup addr outcome => exact careful
  | _ => trivial

theorem step_both (asked : Asked n) (wired : Wired n) (listed : Listed n) (input : Step Addr)
    (careful : Careful n input) : Wired (n.step input) ∧ Listed (n.step input) := by
  obtain ⟨wired', listed'⟩ := reap_both wired listed
  cases input with
  | turn => exact ⟨wired', listed'⟩
  | serve caller call =>
    simp only [Net.step]
    split
    · rename_i alive
      apply handle_both (asked.calm calm_reap) wired' listed' alive
      rintro i rfl slot found used
      exact careful slot found alive used
    · exact ⟨wired', listed'⟩
  | incoming p pool =>
    simp only [Net.step]
    split
    · rename_i listening
      exact incoming_both wired listed listening pool
    · exact ⟨wired, listed⟩
  | received p buffers =>
    simp only [Net.step]
    split
    · exact ⟨wired.still (onRecv_still _ buffers false), listed.still (onRecv_still _ buffers false)⟩
    · exact ⟨wired, listed⟩
  | failed p => exact failed_both wired listed p
  | connected p =>
    simp only [Net.step]
    split
    · exact ⟨wired.still (onConnected_still _ false), listed.still (onConnected_still _ false)⟩
    · exact ⟨wired, listed⟩
  | resolved lookup addr outcome => exact resolved_both asked wired listed addr outcome careful
  | started pid =>
    have still : Still n (n.step (.started pid)) := by
      refine ⟨fun _ => rfl, fun _ => rfl, fun _ => rfl, fun _ => rfl, rfl, rfl, rfl, ?_,
        List.Subset.refl _, rfl⟩
      intro other alive
      change update n.alive pid true other = true
      by_cases same : other = pid
      · rw [same, update_self]
      · rw [update_of_ne same, alive]
    exact ⟨wired.still still, listed.still still⟩
  | ended pid => exact ended_both wired listed pid

theorem boot_both : Wired (boot Addr) ∧ Listed (boot Addr) := by
  constructor
  · constructor <;> simp [boot, zeroed]
  · constructor <;> simp [boot, zeroed, Waits]

/-- A slot that is used has been handed out and waits on no list, or waits on exactly
one open listener's; its process is alive, or is one that has ended since the last
turn, and the next turn frees it. -/
theorem run_accounts {steps : List (Step Addr)}
    (careful : Machine.Along Net.step Careful (boot Addr) steps) :
    let n := run steps
    (∀ i, (n.sk i).used = true → Owned n i ∧
      ((n.handed i = true ∧ ∀ l, ¬ Waits n l i) ∨
        (n.handed i = false ∧ ∃! l, Waits n l i ∧ Listens n l))) ∧
      (∀ l, (n.sk l).used = true → (n.sk l).pending.Nodup) ∧
      (∀ l c, Waits n l c → (n.sk c).used = true) ∧
      ∀ i, (n.reap.sk i).used = true →
        ∃ pid : Nat, n.alive pid = true ∧ (n.reap.sk i).owner = pid := by
  intro n
  -- `Wired` and `Listed` step together, and `Asked` says whom an answer is for.
  obtain ⟨asked, wired, listed⟩ : Asked n ∧ Wired n ∧ Listed n :=
    Machine.along_invariant (fun n => Asked n ∧ Wired n ∧ Listed n) careful
      ⟨asked_boot, boot_both⟩ (fun m input _ fine all =>
        ⟨all.1.step input (timely_of_careful fine), step_both all.1 all.2.1 all.2.2 input fine⟩)
  refine ⟨?_, listed.once, fun l c waits => (listed.waits l c waits).1, ?_⟩
  · intro i used
    refine ⟨listed.owned i used, ?_⟩
    by_cases waits : ∃ l, Waits n l i
    · obtain ⟨l, waits⟩ := waits
      refine .inr ⟨(listed.waits l i waits).2.1, l, ⟨waits, listed.listens l i waits⟩, ?_⟩
      exact fun m other => listed.apart m l i other.1 waits
    · exact .inl ⟨(listed.accounted i used).resolve_right waits, fun l held => waits ⟨l, held⟩⟩
  · intro i used
    obtain ⟨_, frees⟩ := reap_frees wired listed
    rcases (reap_both wired listed).2.owned i used with dead | ⟨pid, alive, owner⟩
    · exact absurd ⟨used, dead⟩ (reap_visits (n := n) i)
    · exact ⟨pid, frees.alive ▸ alive, owner⟩

end Runs

section Trials

def secondSlot : Slot := ⟨1, by decide⟩

def connected : List (Step Nat) := [.started 1, .serve 1 (.listen 80 true), .incoming 0 none]

/-- When the process has ended, its listener and the connection have their slots until
the next turn. When the listener is closed, the connection keeps its slot and nobody
can have it. -/
theorem still_occupied :
    ((run (connected ++ [.ended 1])).alive 1 = false ∧
      ((run (connected ++ [.ended 1])).sk firstSlot).used = true ∧
      ((run (connected ++ [.ended 1])).sk firstSlot).owner = ownerDead ∧
      ((run (connected ++ [.ended 1])).sk secondSlot).used = true) ∧
    ((run (connected ++ [.serve 1 (.close 0)])).sk firstSlot).used = false ∧
      ((run (connected ++ [.serve 1 (.close 0)])).sk secondSlot).used = true ∧
      (run (connected ++ [.serve 1 (.close 0)])).handed secondSlot = false := by
  decide +kernel

theorem run_accounts_ended :
    ((run (connected ++ [.serve 1 (.accept 0), .ended 1])).sk secondSlot).used = true ∧
      Owned (run (connected ++ [.serve 1 (.accept 0), .ended 1])) secondSlot := by
  have careful : Machine.Along Net.step Careful (boot Nat)
      (connected ++ [.serve 1 (.accept 0), .ended 1]) :=
    ⟨trivial, trivial, trivial, trivial, trivial, trivial⟩
  have used : ((run (connected ++ [.serve 1 (.accept 0), .ended 1])).sk secondSlot).used = true := by
    decide +kernel
  exact ⟨used, ((run_accounts careful).1 secondSlot used).1⟩

end Trials

end Ubiqos.Lwip
