import Ubiqos.Kernel.Receive

/-!
Who waits on whom. A stopped client is either in its server's queue or held by
it: taken out by a receive and not yet answered. The table has three records of
this, the queue's links, `msg_dest` and `msg_serving`, and the log has a fourth,
which no function can get wrong. `Meeting` says that they agree.

Slot zero is never a server: no message can be addressed to it, and its queue
fields keep the zeroes they were born with.
-/

namespace Ubiqos

open Function Intrusive Machine
open SleepList (sleepRemove tickHead)

variable {n : Nat} [NeZero n]

def Waits (state : ProcState) : Prop := state = .waitReply ∨ state = .zombie

instance (state : ProcState) : Decidable (Waits state) := inferInstanceAs (Decidable (_ ∨ _))

def holder : List (MailEvent n) → Pid n → Option (Pid n)
  | [], _ => none
  | .sent client _ :: rest, pid => if client = pid then none else holder rest pid
  | .received server client :: rest, pid =>
    if client = pid then some server else holder rest pid

def Live (state : Pid n → ProcState) (server : Pid n) : Prop := server ≠ 0 ∧ state server ≠ .free

/-- `may` is what senders keep to. -/
structure Meeting (may : Pid n → Pid n → Prop) (state : Pid n → ProcState) (mail : Mail n)
    (queue : Pid n → List (Pid n)) : Prop where
  linked : ∀ server, Live state server → Linked mail.next (mail.head server) (queue server)
  last : ∀ server, Live state server → mail.tail server = (queue server).getLast?
  member : ∀ server, Live state server → ∀ pid, pid ∈ queue server ↔
    Waits (state pid) ∧ mail.dest pid = some server ∧ holder mail.log pid = none
  server : ∀ pid, Waits (state pid) → ∃ server, mail.dest pid = some server ∧ Live state server ∧
    may pid server ∧ (holder mail.log pid = none ∨ holder mail.log pid = some server)
  serving : ∀ server, Live state server → ∀ pid, mail.serving server = some pid →
    Waits (state pid) ∧ holder mail.log pid = some server

section Columns
variable {may : Pid n → Pid n → Prop} {state state' : Pid n → ProcState} {mail : Mail n}
  {queue : Pid n → List (Pid n)}

theorem Meeting.dest_of_held (inv : Meeting may state mail queue) {pid server : Pid n}
    (waits : Waits (state pid)) (held : holder mail.log pid = some server) :
    mail.dest pid = some server := by
  obtain ⟨other, dest, _, _, none | some⟩ := inv.server pid waits
  · rw [held] at none
    exact absurd none (by simp)
  · rw [dest, ← some, held]

theorem Meeting.states (inv : Meeting may state mail queue)
    (waits : ∀ pid, Waits (state' pid) ↔ Waits (state pid))
    (there : ∀ pid, state' pid = .free ↔ state pid = .free) : Meeting may state' mail queue := by
  have live : ∀ server, Live state' server ↔ Live state server := by
    intro server
    simp [Live, there]
  refine ⟨?_, ?_, ?_, ?_, ?_⟩
  · exact fun server alive => inv.linked server ((live server).mp alive)
  · exact fun server alive => inv.last server ((live server).mp alive)
  · intro server alive pid
    rw [waits]
    exact inv.member server ((live server).mp alive) pid
  · intro pid waiting
    obtain ⟨server, dest, alive, rest⟩ := inv.server pid ((waits pid).mp waiting)
    exact ⟨server, dest, (live server).mpr alive, rest⟩
  · intro server alive pid serving
    rw [waits]
    exact inv.serving server ((live server).mp alive) pid serving

variable {now : ProcState}

theorem Meeting.change (inv : Meeting may state mail queue) {pid : Pid n}
    (waits : Waits now ↔ Waits (state pid)) (there : now = .free ↔ state pid = .free) :
    Meeting may (update state pid now) mail queue := by
  refine inv.states ?_ ?_
  · intro other
    by_cases same : other = pid
    · rw [same, update_self, waits]
    · rw [update_of_ne same]
  · intro other
    by_cases same : other = pid
    · rw [same, update_self, there]
    · rw [update_of_ne same]

theorem Meeting.stop (inv : Meeting may state mail queue) {serving : Pid n → Option (Pid n)}
    (fewer : ∀ server pid, serving server = some pid → mail.serving server = some pid) :
    Meeting may state { mail with serving := serving } queue :=
  ⟨inv.linked, inv.last, inv.member, inv.server,
    fun server alive pid serves => inv.serving server alive pid (fewer server pid serves)⟩

theorem Meeting.unserved (inv : Meeting may state mail queue) {client me : Pid n}
    (held : holder mail.log client = some me) (here : mail.serving me ≠ some client) :
    ∀ server, Live state server → mail.serving server ≠ some client := by
  intro server alive serves
  have holds := (inv.serving server alive client serves).2
  rw [held] at holds
  rw [Option.some.inj holds] at here
  exact here serves

theorem Meeting.letGo (inv : Meeting may state mail queue) {client : Pid n}
    {dest : Pid n → Option (Pid n)} (taken : holder mail.log client ≠ none)
    (unserved : ∀ server, Live state server → mail.serving server ≠ some client)
    (there : state client ≠ .free) (alive : now ≠ .free) (moving : ¬ Waits now)
    (others : ∀ pid, pid ≠ client → dest pid = mail.dest pid) :
    Meeting may (update state client now) { mail with dest := dest } queue := by
  have live : ∀ server, Live (update state client now) server ↔ Live state server := by
    intro server
    by_cases same : server = client <;> simp [Live, same, there, alive]
  have kept : ∀ pid, Waits (update state client now pid) → pid ≠ client ∧ Waits (state pid) := by
    intro pid waiting
    by_cases same : pid = client
    · rw [same, update_self] at waiting
      exact absurd waiting moving
    · exact ⟨same, by rwa [update_of_ne same] at waiting⟩
  refine ⟨?_, ?_, ?_, ?_, ?_⟩
  · exact fun server there => inv.linked server ((live server).mp there)
  · exact fun server there => inv.last server ((live server).mp there)
  · intro server there pid
    rw [inv.member server ((live server).mp there)]
    by_cases same : pid = client
    · simp [same, taken]
    · simp [same, others pid same]
  · intro pid waiting
    obtain ⟨away, waited⟩ := kept pid waiting
    obtain ⟨server, dest, there, rest⟩ := inv.server pid waited
    exact ⟨server, (others pid away).trans dest, (live server).mpr there, rest⟩
  · intro server there pid serves
    have before := (live server).mp there
    have away : pid ≠ client := by
      rintro rfl
      exact unserved server before serves
    simpa [away] using inv.serving server before pid serves

omit [NeZero n] in
theorem not_waits_running : ¬ Waits .running := by simp [Waits]

variable {me server : Pid n} {mail' : Mail n}

theorem Meeting.offer (inv : Meeting may state mail queue)
    {queue' : Pid n → List (Pid n)} (taken : Option (Pid n))
    (running : state me = .running) (alive : Live state server) (allowed : may me server)
    (linked : ∀ q, Live state q → Linked mail'.next (mail'.head q) (queue' q))
    (last : ∀ q, Live state q → mail'.tail q = (queue' q).getLast?)
    (grown : ∀ q pid, pid ∈ queue' q ↔
      pid ∈ queue q ∨ (pid = me ∧ q = server ∧ taken = none))
    (dest : mail'.dest = update mail.dest me (some server))
    (holds : ∀ pid, holder mail'.log pid = if pid = me then taken else holder mail.log pid)
    (took : taken = none ∨ taken = some server)
    (serving : ∀ q pid, mail'.serving q = some pid →
      mail.serving q = some pid ∨ (q = server ∧ pid = me ∧ taken = some server)) :
    Meeting may (update state me .waitReply) mail' queue' := by
  have live : ∀ q, Live (update state me .waitReply) q ↔ Live state q := by
    intro q
    by_cases same : q = me <;> simp [Live, same, running]
  have fresh : ∀ pid, Waits (state pid) → pid ≠ me := by
    rintro pid waiting rfl
    rw [running] at waiting
    exact not_waits_running waiting
  refine ⟨?_, ?_, ?_, ?_, ?_⟩
  · exact fun q there => linked q ((live q).mp there)
  · exact fun q there => last q ((live q).mp there)
  · intro q there pid
    rw [grown, inv.member q ((live q).mp there), dest, holds]
    by_cases same : pid = me
    · subst same
      simp only [running, not_waits_running, false_and, false_or, true_and, update_self,
        Option.some.injEq, if_true]
      simp only [Waits, true_or, true_and, eq_comm]
    · simp [same]
  · intro pid waiting
    by_cases same : pid = me
    · refine ⟨server, by simp [dest, same], (live server).mpr alive, same ▸ allowed, ?_⟩
      simpa [holds, same] using took
    · rw [update_of_ne same] at waiting
      obtain ⟨q, toward, there, rest⟩ := inv.server pid waiting
      exact ⟨q, by simpa [dest, same] using toward, (live q).mpr there, by simpa [holds, same] using rest⟩
  · intro q there pid serves
    rcases serving q pid serves with old | ⟨rfl, rfl, took⟩
    · obtain ⟨waited, held⟩ := inv.serving q ((live q).mp there) pid old
      have away := fresh pid waited
      simpa [away, holds] using And.intro waited held
    · exact ⟨by simp [Waits], by simp [holds, took]⟩

theorem Meeting.hand (inv : Meeting may state mail queue) (msg : Pid n → Msg n)
    (running : state me = .running) (alive : Live state server) (allowed : may me server) :
    Meeting may (update state me .waitReply)
      { mail with
        msg := msg
        next := update mail.next me none
        dest := update mail.dest me (some server)
        serving := update mail.serving server (some me)
        log := .received server me :: .sent me server :: mail.log } queue := by
  have outside : ∀ q, Live state q → me ∉ queue q := by
    intro q there member
    have waiting := ((inv.member q there me).mp member).1
    rw [running] at waiting
    exact not_waits_running waiting
  refine inv.offer (some server) running alive allowed ?_ inv.last (by simp) rfl ?_
    (Or.inr rfl) ?_
  · exact fun q there => linked_update_outside _ (outside q there) (inv.linked q there)
  · intro pid
    by_cases same : pid = me
    · simp [holder, same]
    · simp [holder, same, Ne.symm same]
  · intro q pid serves
    by_cases same : q = server
    · have chosen : me = pid := by simpa [same] using serves
      exact Or.inr ⟨same, chosen.symm, rfl⟩
    · exact Or.inl (by simpa [same] using serves)

theorem Meeting.enqueue (inv : Meeting may state mail queue)
    (msg : Pid n → Msg n) (running : state me = .running) (alive : Live state server)
    (allowed : may me server) {head next : Pid n → Option (Pid n)}
    (put : (mail.tail server = none ∧ head = update mail.head server (some me) ∧
        next = update mail.next me none) ∨
      ∃ last, mail.tail server = some last ∧ head = mail.head ∧
        next = update (update mail.next me none) last (some me)) :
    Meeting may (update state me .waitReply)
      { mail with
        msg := msg
        next := next
        head := head
        tail := update mail.tail server (some me)
        dest := update mail.dest me (some server)
        log := .sent me server :: mail.log }
      (update queue server (queue server ++ [me])) := by
  have outside : ∀ q, Live state q → me ∉ queue q := by
    intro q there member
    have waiting := ((inv.member q there me).mp member).1
    rw [running] at waiting
    exact not_waits_running waiting
  have ends := inv.last server alive
  refine inv.offer none running alive allowed ?_ ?_ ?_ rfl ?_ (Or.inl rfl)
    (fun q pid serves => Or.inl serves)
  · intro q there
    rcases put with ⟨empty, rfl, rfl⟩ | ⟨last, some, rfl, rfl⟩
    · have nobody : queue server = [] := by simpa [empty, eq_comm] using ends
      by_cases same : q = server
      · simp [same, nobody]
      · simp only [update_of_ne same]
        exact linked_update_outside _ (outside q there) (inv.linked q there)
    · obtain ⟨front, whole⟩ := List.getLast?_eq_some_iff.mp (ends.symm.trans some)
      by_cases same : q = server
      · subst same
        have linked := inv.linked q there
        rw [whole] at linked
        have fresh := outside q there
        rw [whole] at fresh
        simpa [whole] using linked_snoc fresh linked
      · have lastDest := ((inv.member server alive last).mp (by simp [whole])).2.1
        have lastOutside : last ∉ queue q := by
          intro member
          have elsewhere := ((inv.member q there last).mp member).2.1
          exact same (Option.some.inj (elsewhere.symm.trans lastDest))
        simp only [update_of_ne same]
        exact linked_update_outside _ lastOutside
          (linked_update_outside _ (outside q there) (inv.linked q there))
  · intro q there
    by_cases same : q = server
    · simp [same]
    · simpa [same] using inv.last q there
  · intro q pid
    by_cases same : q = server
    · simp [same]
    · simp [same]
  · intro pid
    by_cases same : pid = me
    · simp [holder, same]
    · simp [holder, same, Ne.symm same]

theorem Meeting.take (inv : Meeting may state mail queue) {me client : Pid n}
    (alive : Live state me) (first : mail.head me = some client) :
    ∃ rest, queue me = client :: rest ∧ Meeting may state
      { mail with
        head := update mail.head me (mail.next client)
        tail := if mail.next client = none then update mail.tail me none else mail.tail
        next := update mail.next client none
        serving := update mail.serving me (some client)
        log := .received me client :: mail.log }
      (update queue me rest) := by
  have linked := inv.linked me alive
  obtain ⟨rest, whole⟩ : ∃ rest, queue me = client :: rest := by
    have atHead := linked_head linked
    rw [first] at atHead
    exact List.head?_eq_some_iff.mp atHead.symm
  obtain ⟨waits, dest, _⟩ := (inv.member me alive client).mp (by simp [whole])
  rw [whole, linked_cons] at linked
  have absent : client ∉ rest := by
    have nodup := linked_nodup (inv.linked me alive)
    rw [whole] at nodup
    exact (List.nodup_cons.mp nodup).1
  -- A client waits on one server, so clearing its link cuts no other queue.
  have elsewhere : ∀ q, Live state q → q ≠ me → client ∉ queue q := by
    intro q there away member
    have other := ((inv.member q there client).mp member).2.1
    exact away (Option.some.inj (other.symm.trans dest))
  have held : ∀ pid, holder (.received me client :: mail.log) pid =
      if pid = client then some me else holder mail.log pid := by
    intro pid
    by_cases same : pid = client
    · simp [holder, same]
    · simp [holder, same, Ne.symm same]
  refine ⟨rest, whole, ?_, ?_, ?_, ?_, ?_⟩
  · intro q there
    by_cases same : q = me
    · subst same
      simpa using linked_update_outside none absent linked.2
    · simpa [same] using linked_update_outside none (elsewhere q there same) (inv.linked q there)
  · intro q there
    have before := inv.last q there
    have empty := linked_head linked.2
    by_cases same : q = me
    · subst same
      rw [whole, List.getLast?_cons] at before
      cases rest with
      | nil =>
        rw [List.head?_nil] at empty
        simp [empty]
      | cons second others =>
        rw [List.head?_cons] at empty
        simp only [empty, update_self]
        simpa [List.getLast?_cons] using before
    · simp only [update_of_ne same]
      split
      · simpa [same] using before
      · exact before
  · intro q there pid
    rw [held]
    by_cases same : q = me
    · subst same
      have before := inv.member q there pid
      rw [whole, List.mem_cons] at before
      rw [update_self]
      by_cases isClient : pid = client
      · simp [isClient, absent]
      · simpa [isClient] using before
    · rw [update_of_ne same]
      by_cases isClient : pid = client
      · simp [isClient, elsewhere q there same]
      · simpa [isClient] using inv.member q there pid
  · intro pid waiting
    obtain ⟨server, toward, there, allowed, standing⟩ := inv.server pid waiting
    refine ⟨server, toward, there, allowed, ?_⟩
    rw [held]
    by_cases isClient : pid = client
    · rw [isClient, dest] at toward
      simp [isClient, Option.some.inj toward]
    · simpa [isClient] using standing
  · intro q there pid serves
    rw [held]
    by_cases same : q = me
    · have chosen : client = pid := by simpa [same] using serves
      simp [← chosen, waits, same]
    · have old : mail.serving q = some pid := by simpa [same] using serves
      obtain ⟨waited, holds⟩ := inv.serving q there pid old
      have away : pid ≠ client := by
        rintro rfl
        have noHolder := ((inv.member me alive pid).mp (by simp [whole])).2.2
        rw [noHolder] at holds
        exact absurd holds (by simp)
      exact ⟨waited, by simpa [away] using holds⟩

theorem Meeting.begin (inv : Meeting may state mail queue) {slot : Pid n}
    (unused : state slot = .free) (moving : ¬ Waits now) :
    Meeting may (update state slot now)
      { mail with
        next := update mail.next slot none
        head := update mail.head slot none
        tail := update mail.tail slot none
        serving := update mail.serving slot none
        dest := update mail.dest slot none }
      (update queue slot []) := by
  -- Nobody waits on a FREE slot, so clearing its columns loses no client.
  have unwaited : ∀ pid, Waits (state pid) → pid ≠ slot ∧ mail.dest pid ≠ some slot := by
    intro pid waiting
    constructor
    · rintro rfl
      rw [unused] at waiting
      exact absurd waiting (by simp [Waits])
    · intro dest
      obtain ⟨server, toward, there, _⟩ := inv.server pid waiting
      rw [Option.some.inj (dest.symm.trans toward)] at unused
      exact there.2 unused
  have live : ∀ q, q ≠ slot → (Live (update state slot now) q ↔ Live state q) := by
    intro q away
    simp [Live, away]
  have waits : ∀ pid, Waits (update state slot now pid) → pid ≠ slot ∧ Waits (state pid) := by
    intro pid waiting
    by_cases same : pid = slot
    · rw [same, update_self] at waiting
      exact absurd waiting moving
    · exact ⟨same, by rwa [update_of_ne same] at waiting⟩
  refine ⟨?_, ?_, ?_, ?_, ?_⟩
  · intro q there
    by_cases same : q = slot
    · simp [same]
    · have before := (live q same).mp there
      have outside : slot ∉ queue q := fun member =>
        (unwaited slot ((inv.member q before slot).mp member).1).1 rfl
      simpa [same] using linked_update_outside none outside (inv.linked q before)
  · intro q there
    by_cases same : q = slot
    · simp [same]
    · simpa [same] using inv.last q ((live q same).mp there)
  · intro q there pid
    by_cases same : q = slot
    · subst same
      simp only [update_self, List.not_mem_nil, false_iff]
      rintro ⟨waiting, dest, _⟩
      obtain ⟨away, waited⟩ := waits pid waiting
      exact (unwaited pid waited).2 (by simpa [away] using dest)
    · rw [update_of_ne same, inv.member q ((live q same).mp there)]
      by_cases isSlot : pid = slot
      · simp [isSlot, unused, Waits]
      · simp [isSlot]
  · intro pid waiting
    obtain ⟨away, waited⟩ := waits pid waiting
    obtain ⟨server, toward, there, rest⟩ := inv.server pid waited
    have other : server ≠ slot := by
      rintro rfl
      exact there.2 unused
    exact ⟨server, by simpa [away] using toward, (live server other).mpr there, rest⟩
  · intro q there pid serves
    have away : q ≠ slot := by
      rintro rfl
      simp at serves
    have old : mail.serving q = some pid := by simpa [away] using serves
    obtain ⟨waited, holds⟩ := inv.serving q ((live q away).mp there) pid old
    exact ⟨by simpa [(unwaited pid waited).1] using waited, holds⟩

/-- What becomes of the columns when `pid` ends and lets its clients go: the
links of those that waited on it may be anything afterwards. -/
structure Unlinked (pid : Pid n) (state : Pid n → ProcState) (mail : Mail n)
    (state' : Pid n → ProcState) (mail' : Mail n) : Prop where
  each : ∀ p, (state' p = state p ∧ mail'.dest p = mail.dest p) ∨
    (state p = .waitReply ∧ mail.dest p = some pid ∧ state' p = .ready)
  next : ∀ p, mail.dest p ≠ some pid → mail'.next p = mail.next p
  head : ∀ p, p ≠ pid → mail'.head p = mail.head p
  tail : ∀ p, p ≠ pid → mail'.tail p = mail.tail p
  serving : ∀ p client, mail'.serving p = some client → mail.serving p = some client
  log : mail'.log = mail.log

omit [NeZero n] in
theorem Unlinked.others {pid : Pid n} (unlinked : Unlinked pid state mail state' mail')
    {p : Pid n} (elsewhere : mail.dest p ≠ some pid) :
    state' p = state p ∧ mail'.dest p = mail.dest p := by
  rcases unlinked.each p with same | ⟨_, was, _⟩
  · exact same
  · exact absurd was elsewhere

theorem Meeting.depart (inv : Meeting may state mail queue) {pid : Pid n}
    (unlinked : Unlinked pid state mail state' mail')
    (released : ∀ p, p ≠ pid → state p = .waitReply → mail.dest p = some pid → state' p = .ready)
    (unqueued : Waits (state pid) → holder mail.log pid ≠ none)
    (unserved : ∀ server, Live state server → mail.serving server ≠ some pid)
    (attended : ∀ p, state p = .zombie → mail.dest p ≠ some pid) :
    Meeting may (update state' pid .free) mail' queue := by
  -- whoever waits afterwards waited before, on somebody else, and is untouched
  have waits : ∀ p, Waits (update state' pid .free p) →
      p ≠ pid ∧ Waits (state p) ∧ mail.dest p ≠ some pid := by
    intro p waiting
    have away : p ≠ pid := by
      rintro rfl
      rw [update_self] at waiting
      exact absurd waiting (by simp [Waits])
    rw [update_of_ne away] at waiting
    rcases unlinked.each p with ⟨same, _⟩ | ⟨_, _, now⟩
    · rw [same] at waiting
      refine ⟨away, waiting, ?_⟩
      intro dest
      rcases waiting with stopped | killed
      · have now := released p away stopped dest
        rw [same, stopped] at now
        exact absurd now (by simp)
      · exact attended p killed dest
    · rw [now] at waiting
      exact absurd waiting (by simp [Waits])
  have still : ∀ p, p ≠ pid → Waits (state p) → mail.dest p ≠ some pid →
      Waits (update state' pid .free p) := by
    intro p away waiting dest
    rw [update_of_ne away, (unlinked.others dest).1]
    exact waiting
  have live : ∀ q, Live (update state' pid .free) q ↔ q ≠ pid ∧ Live state q := by
    intro q
    by_cases same : q = pid
    · simp [Live, same]
    · simp only [Live, update_of_ne same, ne_eq, same, not_false_eq_true, true_and]
      rcases unlinked.each q with ⟨kept, _⟩ | ⟨was, _, now⟩
      · rw [kept]
      · simp [was, now]
  refine ⟨?_, ?_, ?_, ?_, ?_⟩
  · intro q there
    obtain ⟨away, before⟩ := (live q).mp there
    rw [unlinked.head q away]
    refine linked_congr ?_ (inv.linked q before)
    intro node member
    refine (unlinked.next node ?_).symm
    rw [((inv.member q before node).mp member).2.1]
    exact fun same => away (Option.some.inj same)
  · intro q there
    obtain ⟨away, before⟩ := (live q).mp there
    rw [unlinked.tail q away]
    exact inv.last q before
  · intro q there p
    obtain ⟨away, before⟩ := (live q).mp there
    rw [inv.member q before, unlinked.log]
    constructor
    · rintro ⟨waiting, dest, nobody⟩
      have isPid : p ≠ pid := by
        rintro rfl
        exact unqueued waiting nobody
      have elsewhere : mail.dest p ≠ some pid := by
        rw [dest]
        exact fun same => away (Option.some.inj same)
      exact ⟨still p isPid waiting elsewhere, (unlinked.others elsewhere).2.trans dest, nobody⟩
    · rintro ⟨waiting, dest, nobody⟩
      obtain ⟨_, waited, elsewhere⟩ := waits p waiting
      exact ⟨waited, (unlinked.others elsewhere).2.symm.trans dest, nobody⟩
  · intro p waiting
    obtain ⟨_, waited, elsewhere⟩ := waits p waiting
    obtain ⟨server, toward, there, rest⟩ := inv.server p waited
    have away : server ≠ pid := by
      rintro rfl
      exact elsewhere toward
    rw [unlinked.log]
    exact ⟨server, (unlinked.others elsewhere).2.trans toward, (live server).mpr ⟨away, there⟩, rest⟩
  · intro q there p serves
    obtain ⟨away, before⟩ := (live q).mp there
    have served := unlinked.serving q p serves
    obtain ⟨waited, holds⟩ := inv.serving q before p served
    have isPid : p ≠ pid := by
      rintro rfl
      exact unserved q before served
    have elsewhere : mail.dest p ≠ some pid := by
      rw [inv.dest_of_held waited holds]
      exact fun same => away (Option.some.inj same)
    rw [unlinked.log]
    exact ⟨still p isPid waited elsewhere, holds⟩

end Columns

abbrev Rendezvous (may : Pid n → Pid n → Prop) (s : Kernel n) : Prop :=
  ∃ queue, Meeting may s.state s.mail queue

section Unlinking
variable {s t u : Kernel n} {pid : Pid n}

abbrev Unlinks (pid : Pid n) (s s' : Kernel n) : Prop :=
  Unlinked pid s.state s.mail s'.state s'.mail

omit [NeZero n] in
theorem Unlinked.dest_before (unlinks : Unlinks pid s t) {p : Pid n}
    (dest : t.mail.dest p = some pid) : s.mail.dest p = some pid := by
  rcases unlinks.each p with ⟨_, same⟩ | ⟨_, was, _⟩
  · exact same.symm.trans dest
  · exact was

omit [NeZero n] in
theorem Unlinked.trans (first : Unlinks pid s t) (second : Unlinks pid t u) : Unlinks pid s u := by
  have onward : ∀ p, s.mail.dest p ≠ some pid → t.mail.dest p ≠ some pid :=
    fun p elsewhere dest => elsewhere (first.dest_before dest)
  refine ⟨?_, ?_, ?_, ?_, ?_, second.log.trans first.log⟩
  · intro p
    rcases first.each p with ⟨same, dest⟩ | ⟨was, dest, now⟩
    · rcases second.each p with ⟨kept, again⟩ | ⟨was, _, now⟩
      · exact Or.inl ⟨kept.trans same, again.trans dest⟩
      · exact Or.inr ⟨same.symm.trans was, by rwa [← dest], now⟩
    · rcases second.each p with ⟨kept, _⟩ | ⟨again, _⟩
      · exact Or.inr ⟨was, dest, kept.trans now⟩
      · exact absurd (now.symm.trans again) (by simp)
  · exact fun p elsewhere => (second.next p (onward p elsewhere)).trans (first.next p elsewhere)
  · exact fun p away => (second.head p away).trans (first.head p away)
  · exact fun p away => (second.tail p away).trans (first.tail p away)
  · exact fun p client serves => first.serving p client (second.serving p client serves)

omit [NeZero n] in
theorem Unlinked.refl (pid : Pid n) (s : Kernel n) : Unlinks pid s s :=
  ⟨fun _ => Or.inl ⟨rfl, rfl⟩, fun _ _ => rfl, fun _ _ => rfl, fun _ _ => rfl,
    fun _ _ serves => serves, rfl⟩

omit [NeZero n] in
theorem release_unlinks {client : Pid n} (dest : s.mail.dest client = some pid) :
    Unlinks pid s (release s client) := by
  unfold release
  split
  · rename_i stopped
    refine ⟨?_, fun _ _ => rfl, fun _ _ => rfl, fun _ _ => rfl, fun _ _ serves => serves, rfl⟩
    intro p
    by_cases same : p = client
    · subst same
      exact Or.inr ⟨stopped, dest, by simp [makeReady]⟩
    · exact Or.inl (by simp [makeReady, answer, same])
  · exact .refl pid s

omit [NeZero n] in
theorem release_released (s : Kernel n) (client : Pid n) :
    (release s client).state client ≠ .waitReply := by
  unfold release
  split
  · simp [makeReady]
  · assumption

omit [NeZero n] in
theorem unlinkQueue_unlinks (fuel : Nat) {head : Option (Pid n)} {clients : List (Pid n)}
    (linked : Linked s.mail.next head clients)
    (dests : ∀ client ∈ clients, s.mail.dest client = some pid) :
    Unlinks pid s (unlinkQueue fuel s head) := by
  induction fuel generalizing s head clients with
  | zero => exact .refl pid s
  | succ fuel ih =>
    cases clients with
    | nil =>
      rw [linked_nil] at linked
      rw [linked]
      exact .refl pid s
    | cons client rest =>
      have absent := (List.nodup_cons.mp (linked_nodup linked)).1
      have dest := dests client List.mem_cons_self
      rw [linked.1, unlinkQueue]
      generalize cutIs :
        { s with mail := { s.mail with next := update s.mail.next client none } } = cut
      have cuts : Unlinks pid s cut := by
        subst cutIs
        refine ⟨fun _ => Or.inl ⟨rfl, rfl⟩, ?_, fun _ _ => rfl, fun _ _ => rfl,
          fun _ _ serves => serves, rfl⟩
        intro p elsewhere
        have away : p ≠ client := by
          rintro rfl
          exact elsewhere dest
        exact update_of_ne away _ _
      have same : (release cut client).mail = cut.mail := by
        unfold release
        split <;> rfl
      have released : Unlinks pid cut (release cut client) :=
        release_unlinks (by rw [← cutIs]; exact dest)
      refine (cuts.trans released).trans (ih (?_ : Linked _ _ rest) ?_)
      · rw [same, ← cutIs]
        exact linked_update_outside none absent linked.2
      · intro later member
        rw [same, ← cutIs]
        exact dests later (List.mem_cons_of_mem client member)

omit [NeZero n] in
theorem unlinkAside_unlinks (pid : Pid n) (s : Kernel n) (i : Pid n) : Unlinks pid s (unlinkAside pid s i) := by
  unfold unlinkAside
  split
  · rename_i waiting
    obtain ⟨stopped, dest⟩ := waiting
    have isStopped : (setDest s i none).state i = .waitReply := stopped
    rw [release, if_pos isStopped]
    refine ⟨?_, fun _ _ => rfl, fun _ _ => rfl, fun _ _ => rfl, fun _ _ serves => serves, rfl⟩
    intro p
    by_cases same : p = i
    · subst same
      exact Or.inr ⟨stopped, dest, by simp [makeReady]⟩
    · exact Or.inl (by simp [makeReady, answer, setDest, same])
  · exact .refl pid s

theorem unlinkAsides_visited (pid : Pid n) (s : Kernel n) (p : Pid n) (nonzero : p ≠ 0)
    (stopped : ((slots n).foldl (unlinkAside pid) s).state p = .waitReply) :
    ((slots n).foldl (unlinkAside pid) s).mail.dest p ≠ some pid := by
  refine foldl_visits (fun p (t : Kernel n) => t.state p = .waitReply → t.mail.dest p ≠ some pid) ?_ ?_ p
    (mem_slots.mpr nonzero) stopped
  · intro t i
    unfold unlinkAside
    split
    · intro stopped
      exact absurd stopped (release_released _ i)
    · rename_i other
      exact fun stopped dest => other ⟨stopped, dest⟩
  · intro t i p done stopped dest
    have unlinks := unlinkAside_unlinks pid t i
    rcases unlinks.each p with ⟨same, _⟩ | ⟨_, _, now⟩
    · exact done (same.symm.trans stopped) (unlinks.dest_before dest)
    · exact absurd (stopped.symm.trans now) (by simp)

theorem msgUnlinkAll_unlinks {may : Pid n → Pid n → Prop} {queue : Pid n → List (Pid n)}
    (inv : Meeting may s.state s.mail queue) (alive : Live s.state pid)
    (idle : ¬ Waits (s.state 0)) :
    Unlinks pid s (msgUnlinkAll s pid) ∧
      ∀ p, s.mail.dest p = some pid → (msgUnlinkAll s pid).state p ≠ .waitReply := by
  have dests : ∀ client ∈ queue pid, s.mail.dest client = some pid :=
    fun client member => ((inv.member pid alive client).mp member).2.1
  have drained := unlinkQueue_unlinks (n + 1) (inv.linked pid alive) dests
  generalize queueIs : unlinkQueue (n + 1) s (s.mail.head pid) = afterQueue at drained
  have emptied : Unlinks pid afterQueue (emptyQueue afterQueue pid) :=
    ⟨fun _ => Or.inl ⟨rfl, rfl⟩, fun _ _ => rfl, fun _ away => update_of_ne away _ _,
      fun _ away => update_of_ne away _ _, fun _ _ serves => serves, rfl⟩
  have start := drained.trans emptied
  have turn : ∀ t, ∀ i ∈ slots n, Unlinks pid s t → Unlinks pid s (unlinkAside pid t i) :=
    fun t i _ soFar => soFar.trans (unlinkAside_unlinks pid t i)
  have aside := foldl_invariant (fun t => Unlinks pid s t) start turn
  have visited := unlinkAsides_visited pid (emptyQueue afterQueue pid)
  generalize asideIs : (slots n).foldl (unlinkAside pid) (emptyQueue afterQueue pid) = afterAside
    at aside visited
  have whole : msgUnlinkAll s pid = unlinkServing afterAside pid := by
    simp only [msgUnlinkAll, queueIs, asideIs]
  have done : ∀ p, s.mail.dest p = some pid → afterAside.state p ≠ .waitReply := by
    intro p dest stopped
    rcases aside.each p with ⟨same, kept⟩ | ⟨_, _, now⟩
    · have nonzero : p ≠ 0 := by
        rintro rfl
        exact idle (Or.inl (same.symm.trans stopped))
      exact visited p nonzero stopped (kept.trans dest)
    · exact absurd (stopped.symm.trans now) (by simp)
  -- the one it was serving waited on it, so it has been let go by now
  have served : unlinkServing afterAside pid = afterAside ∨
      unlinkServing afterAside pid = setServing afterAside pid none := by
    unfold unlinkServing
    split
    · exact Or.inl rfl
    · rename_i client serving
      obtain ⟨waited, held⟩ := inv.serving pid alive client (aside.serving pid client serving)
      have gone : (setServing afterAside pid none).state client ≠ .waitReply :=
        done client (inv.dest_of_held waited held)
      rw [release, if_neg gone]
      exact Or.inr rfl
  rw [whole]
  rcases served with same | stopped
  · rw [same]
    exact ⟨aside, done⟩
  · rw [stopped]
    have stops : Unlinks pid afterAside (setServing afterAside pid none) := by
      refine ⟨fun _ => Or.inl ⟨rfl, rfl⟩, fun _ _ => rfl, fun _ _ => rfl, fun _ _ => rfl, ?_, rfl⟩
      intro p client serves
      by_cases same : p = pid
      · simp [setServing, same] at serves
      · simpa [setServing, same] using serves
    exact ⟨aside.trans stops, done⟩

end Unlinking

/-- What the rule of a run must give: messages go where they may, `reply_to`
names a client the caller has received, and nobody is taken apart while a
killed client waits on it. -/
structure Orderly (may : Pid n → Pid n → Prop) (d : Discipline n) : Prop where
  sends : ∀ s server, d.sends s server = true → may s.current server
  answers : ∀ s pid, d.answers s pid = true → holder s.mail.log pid = some s.current
  ends : ∀ s pid, d.ends s pid = true → ∀ z, s.state z = .zombie → s.mail.dest z ≠ some pid

section Moves
variable {may : Pid n → Pid n → Prop} {d : Discipline n} {s : Kernel n}

theorem Sched.idle_moving (sched : Scheduled s) : ¬ Waits (s.state 0) := by
  rcases sched.idle with h | h <;> simp [Waits, h]

theorem depart_unlinks {queue : Pid n → List (Pid n)} (inv : Meeting may s.state s.mail queue)
    (sched : Scheduled s) {pid : Pid n} (alive : Live s.state pid) :
    ∃ state, (depart s pid).state = update state pid .free ∧
      Unlinked pid s.state s.mail state (depart s pid).mail ∧
      ∀ p, s.mail.dest p = some pid → state p ≠ .waitReply := by
  obtain ⟨ready, taken⟩ : ∃ ready, takeOut s pid = { s with ready := ready } := by
    unfold takeOut
    split <;> exact ⟨_, rfl⟩
  have unlinks := msgUnlinkAll_unlinks
    (s := { s with ready := ready, sleep := sleepRemove s.sleep pid }) inv alive sched.idle_moving
  simp only [depart, taken, setState]
  exact ⟨_, rfl, unlinks⟩

theorem leave_rendezvous {queue : Pid n → List (Pid n)} (inv : Meeting may s.state s.mail queue)
    (sched : Scheduled s) {pid : Pid n} (alive : Live s.state pid)
    (unqueued : Waits (s.state pid) → holder s.mail.log pid ≠ none)
    (unserved : ∀ server, Live s.state server → s.mail.serving server ≠ some pid)
    (attended : ∀ p, s.state p = .zombie → s.mail.dest p ≠ some pid) :
    Rendezvous may (leave s pid) := by
  obtain ⟨state, departed, unlinked, released⟩ := depart_unlinks inv sched alive
  refine ⟨queue, ?_⟩
  show Meeting may (depart s pid).state (depart s pid).mail queue
  rw [departed]
  refine inv.depart unlinked ?_ unqueued unserved attended
  intro p _ stopped dest
  rcases unlinked.each p with ⟨same, _⟩ | ⟨_, _, now⟩
  · exact absurd (same.trans stopped) (released p dest)
  · exact now

omit [NeZero n] in
theorem pulseDeliver_mail (s : Kernel n) (raw : Int) (origin : Pid n) (type value : U32) :
    (pulseDeliver s raw origin type value).1.mail = s.mail ∧
      ((pulseDeliver s raw origin type value).1.state = s.state ∨
        ∃ dest, s.state dest = .waitRecv ∧
          (pulseDeliver s raw origin type value).1.state = update s.state dest .ready) := by
  unfold pulseDeliver
  split
  · exact ⟨rfl, Or.inl rfl⟩
  · rename_i dest _
    dsimp only
    split
    · exact ⟨rfl, Or.inl rfl⟩
    · split
      · rename_i waiting
        refine ⟨?_, Or.inr ⟨dest, waiting, ?_⟩⟩
        · simp [pulseHand, makeReady, answer, note, pulseInto]
        · simp [pulseHand, makeReady, answer, note, pulseInto]
      · split
        · exact ⟨rfl, Or.inl rfl⟩
        · exact ⟨rfl, Or.inl rfl⟩

theorem pulseDeliver_rendezvous (inv : Rendezvous may s) (raw : Int) (origin : Pid n)
    (type value : U32) : Rendezvous may (pulseDeliver s raw origin type value).1 := by
  obtain ⟨queue, meeting⟩ := inv
  obtain ⟨mail, state⟩ := pulseDeliver_mail s raw origin type value
  refine ⟨queue, ?_⟩
  rw [mail]
  rcases state with same | ⟨dest, waiting, woken⟩
  · rw [same]
    exact meeting
  · rw [woken]
    exact meeting.change (by simp [Waits, waiting]) (by simp [waiting])

theorem sleepTick_rendezvous (sched : Scheduled s) (inv : Rendezvous may s) :
    Rendezvous may (sleepTick s) := by
  have both := sleepTick_invariant (fun s => Scheduled s ∧ Rendezvous may s) (s := s)
    (fun _ inv => ⟨tickHead_scheduled inv.1, inv.2⟩) ?_ ⟨sched, inv⟩
  · exact both.2
  · intro s pid first _ inv
    obtain ⟨queue, meeting⟩ := inv.2
    have asleep := inv.1.first_asleep first
    refine ⟨rouse_scheduled inv.1 first, queue, ?_⟩
    have mail : (rouse s pid).mail = s.mail := by
      unfold rouse timeOut
      split <;> rfl
    rw [mail, rouse_state]
    refine meeting.change ?_ ?_
    · rcases asleep with h | h <;> simp [Waits, h]
    · rcases asleep with h | h <;> simp [h]

theorem msgSend_rendezvous (inv : Rendezvous may s) (running : s.state s.current = .running)
    {server : Pid n} (m : Msg n) (alive : Live s.state server) (allowed : may s.current server) :
    Rendezvous may (setState
      (if s.state server = .waitRecv then msgHand (msgOffer s server m) server s.current
        else msgQueue (msgOffer s server m) server s.current) s.current .waitReply) := by
  obtain ⟨queue, meeting⟩ := inv
  by_cases waiting : s.state server = .waitRecv
  · rw [if_pos waiting]
    have different := current_apart running waiting
    have woken : Meeting may (update s.state server .ready) s.mail queue :=
      meeting.change (by simp [Waits, waiting]) (by simp [waiting])
    refine ⟨queue, ?_⟩
    have live : Live (update s.state server .ready) server := ⟨alive.1, by simp⟩
    have handed := woken.hand (update s.mail.msg s.current { m with sender := s.current })
      (by simp [different, running]) live allowed
    simpa [setState, msgHand, makeReady, answer, msgOffer] using handed
  · rw [if_neg waiting]
    refine ⟨update queue server (queue server ++ [s.current]), ?_⟩
    cases last : s.mail.tail server with
    | none =>
      have queued := meeting.enqueue (update s.mail.msg s.current { m with sender := s.current })
        running alive allowed (Or.inl ⟨last, rfl, rfl⟩)
      simpa [setState, msgQueue, msgOffer, last] using queued
    | some final =>
      have queued := meeting.enqueue (update s.mail.msg s.current { m with sender := s.current })
        running alive allowed (Or.inr ⟨final, last, rfl, rfl⟩)
      simpa [setState, msgQueue, msgOffer, last] using queued

variable {client : Pid n}

omit [NeZero n] in
theorem stopServing_serving (serving : s.mail.serving s.current = some client) :
    setServing s s.current none = stopServing s client := by
  rw [stopServing, if_pos serving]

theorem stopServing_meeting {queue : Pid n → List (Pid n)} (inv : Meeting may s.state s.mail queue)
     (held : holder s.mail.log client = some s.current) :
    Meeting may (stopServing s client).state (stopServing s client).mail queue ∧
      holder (stopServing s client).mail.log client = some s.current ∧
      ∀ server, Live (stopServing s client).state server →
        (stopServing s client).mail.serving server ≠ some client := by
  have stopped : Meeting may (stopServing s client).state (stopServing s client).mail queue := by
    unfold stopServing
    split
    · refine inv.stop ?_
      intro server pid serves
      by_cases same : server = s.current
      · simp [same] at serves
      · simpa [same] using serves
    · exact inv
  have still : holder (stopServing s client).mail.log client = some s.current := by
    unfold stopServing
    split <;> exact held
  refine ⟨stopped, still, stopped.unserved still ?_⟩
  unfold stopServing
  split
  · simp [setServing]
  · assumption

theorem answered_rendezvous {queue : Pid n → List (Pid n)} (inv : Meeting may s.state s.mail queue)
     (held : holder s.mail.log client = some s.current)
    (stopped : s.state client = .waitReply) {dest : Pid n → Option (Pid n)}
    (others : ∀ pid, pid ≠ client → dest pid = (stopServing s client).mail.dest pid) :
    Meeting may (update (stopServing s client).state client .ready)
      { (stopServing s client).mail with dest := dest } queue := by
  obtain ⟨kept, still, unserved⟩ := stopServing_meeting inv held
  have same := (stopServing_frame s client).1
  exact kept.letGo (by simp [still]) unserved (by simp [same, stopped]) (by simp) (by simp [Waits])
    others

theorem zombie_rendezvous {queue : Pid n → List (Pid n)} (inv : Meeting may s.state s.mail queue)
    (sched : Scheduled s) (nonzero : client ≠ 0)
    (held : holder s.mail.log client = some s.current) (killed : s.state client = .zombie)
    (attended : ∀ p, (stopServing s client).state p = .zombie →
      (stopServing s client).mail.dest p ≠ some client) :
    Rendezvous may (leave (stopServing s client) client) := by
  obtain ⟨kept, still, unserved⟩ := stopServing_meeting inv held
  have same := (stopServing_frame s client).1
  have scheduled : Scheduled (stopServing s client) := by
    unfold stopServing
    split <;> exact sched
  exact leave_rendezvous kept scheduled ⟨nonzero, by simp [same, killed]⟩ (by simp [still]) unserved
    attended

theorem move_rendezvous (rule : Orderly may d) {s' : Kernel n} (move : Move d s s')
    (sched : Scheduled s) (inv : Rendezvous may s) : Rendezvous may s' := by
  obtain ⟨queue, meeting⟩ := inv
  cases move with
  | wake pid blocked =>
    refine ⟨queue, meeting.change ?_ ?_⟩
    · rcases blocked with h | h | h <;> simp [Waits, h]
    · rcases blocked with h | h | h <;> simp [h]
  | block state running idle why =>
    refine ⟨queue, meeting.change ?_ ?_⟩
    · rcases why with h | h | h <;> simp [Waits, h, running]
    · rcases why with h | h | h <;> simp [h, running]
  | sleepBegin ms positive running idle rule =>
    exact ⟨queue, meeting.change (by simp [Waits, running]) (by simp [running])⟩
  | sleepTick => exact sleepTick_rendezvous sched ⟨queue, meeting⟩
  | deliver raw origin type value => exact pulseDeliver_rendezvous ⟨queue, meeting⟩ _ _ _ _
  | notify pulse event reason dest there rule =>
    exact pulseDeliver_rendezvous (s := note s event) ⟨queue, meeting⟩ _ _ _ _
  | receiveMsg client out running idle first =>
    obtain ⟨rest, _, taken⟩ := meeting.take ⟨idle, by simp [running]⟩ first
    exact ⟨_, taken⟩
  | receivePulse _ out running idle taken =>
    obtain ⟨index, rfl, _⟩ := pulseTake_ring taken
    exact ⟨queue, meeting⟩
  | receiveBlock out ms positive running idle noMessage noPulse rule short =>
    have blocked : Meeting may (update s.state s.current .waitRecv) s.mail queue :=
      meeting.change (by simp [Waits, running]) (by simp [running])
    simp only [msgReceiveTmo, noMessage, noPulse, positive, if_false]
    split <;> exact ⟨queue, blocked⟩
  | send server m running idle dest there sends =>
    rw [msgSend_eq dest there]
    exact msgSend_rendezvous ⟨queue, meeting⟩ running m ⟨dest, there⟩ (rule.sends s server sends)
  | reply client value running idle serving stopped =>
    have held := (meeting.serving s.current ⟨idle, by simp [running]⟩ client serving).2
    rw [stopServing_serving serving]
    exact ⟨queue, answered_rendezvous meeting held stopped (fun _ _ => rfl)⟩
  | replyNobody =>
    refine ⟨queue, meeting.stop ?_⟩
    intro server pid serves
    by_cases same : server = s.current
    · simp [same] at serves
    · simpa [same] using serves
  | replyTo client value running idle stopped dest answers =>
    refine ⟨queue, answered_rendezvous meeting (rule.answers s client answers) stopped ?_⟩
    exact fun pid away => update_of_ne away _ _
  | depart pid idle there moving whole ends =>
    have still : ¬ Waits (s.state pid) := by simp [Waits, moving, whole]
    refine leave_rendezvous meeting sched ⟨idle, there⟩ (fun waits => absurd waits still) ?_
      (rule.ends s pid ends)
    intro server alive serves
    exact still (meeting.serving server alive pid serves).1
  | replyZombie client running idle serving killed ends =>
    have held := (meeting.serving s.current ⟨idle, by simp [running]⟩ client serving).2
    have nonzero : client ≠ 0 := by
      rintro rfl
      exact sched.idle_moving (Or.inr killed)
    rw [stopServing_serving serving] at ends ⊢
    exact zombie_rendezvous meeting sched nonzero held killed (rule.ends _ client ends)
  | replyToZombie client running idle nonzero killed answers ends =>
    exact zombie_rendezvous meeting sched nonzero (rule.answers s client answers) killed
      (rule.ends _ client ends)
  | killWaiting pid stopped =>
    exact ⟨queue, meeting.change (by simp [Waits, stopped]) (by simp [stopped])⟩
  | begin slot module mem code parent priority idle unused =>
    exact ⟨_, meeting.begin unused (by simp [Waits])⟩
  | _ => exact ⟨queue, meeting⟩

theorem switch_rendezvous (sched : Scheduled s) (inv : Rendezvous may s) :
    Rendezvous may (switch s) := by
  obtain ⟨queue, meeting⟩ := inv
  obtain ⟨state, ready, current, switched, states⟩ := switch_frame sched
  rw [switched]
  refine ⟨queue, meeting.states ?_ ?_⟩
  · intro pid
    rcases states pid with same | ⟨was | was, now | now⟩
    · simp [same]
    all_goals simp [Waits, was, now]
  · intro pid
    rcases states pid with same | ⟨was | was, now | now⟩
    · simp [same]
    all_goals simp [was, now]

theorem init_rendezvous : Rendezvous may (schedulerInit n) := by
  have nobody : ∀ server : Pid n, ¬ Live (schedulerInit n).state server := by
    rintro server ⟨nonzero, there⟩
    simp [schedulerInit, nonzero] at there
  refine ⟨fun _ => [], fun q there => absurd there (nobody q), fun q there => absurd there (nobody q),
    fun q there => absurd there (nobody q), ?_, fun q there => absurd there (nobody q)⟩
  intro pid waiting
  by_cases zero : pid = 0 <;> simp [Waits, schedulerInit, zero] at waiting

theorem run_rendezvous (rule : Orderly may d) {calls : List (Call n)} (follows : Follows d calls) :
    Rendezvous may (run calls) :=
  run_invariant (Rendezvous may) init_rendezvous
    (fun _ _ move sched inv => move_rendezvous rule move sched inv)
    (fun _ sched inv => switch_rendezvous sched inv) follows

end Moves

/-- A server answers with `reply_to` only those it has received, and nobody is
taken apart while a killed client waits on it. -/
def orderly (n : Nat) : Discipline n :=
  { Discipline.none n with
    answers := fun s pid => holder s.mail.log pid = some s.current
    ends := fun s pid => ∀ z, s.state z = .zombie → s.mail.dest z ≠ some pid }

omit [NeZero n] in
theorem orderly_orderly : Orderly (fun _ _ => True) (orderly n) :=
  ⟨fun _ _ _ => trivial, fun _ _ answers => by simpa [orderly] using answers,
    fun _ _ ends => by simpa [orderly] using ends⟩

/-- Between two states: the log has grown by `news`, and whoever waits now has
waited on the same server all along, unless it is the sender of the news. -/
structure Awaits (news : List (MailEvent n)) (s s' : Kernel n) : Prop where
  log : s'.mail.log = news ++ s.mail.log
  before : ∀ pid, Waits (s'.state pid) →
    (Waits (s.state pid) ∧ s'.mail.dest pid = s.mail.dest pid) ∨
      (pid = s.current ∧ ∃ server, .sent pid server ∈ news)

section Awaits
variable {d : Discipline n} {s t u : Kernel n}

omit [NeZero n] in
theorem Awaits.trans {first second : List (MailEvent n)} (one : Awaits first s t)
    (two : Awaits second t u) (current : t.current = s.current) : Awaits (second ++ first) s u := by
  refine ⟨by rw [two.log, one.log, List.append_assoc], ?_⟩
  intro pid waiting
  rcases two.before pid waiting with ⟨waited, dest⟩ | ⟨sender, server, sent⟩
  · rcases one.before pid waited with ⟨always, same⟩ | ⟨sender, server, sent⟩
    · exact Or.inl ⟨always, dest.trans same⟩
    · exact Or.inr ⟨sender, server, List.mem_append_right second sent⟩
  · exact Or.inr ⟨sender.trans current, server, List.mem_append_left first sent⟩

omit [NeZero n] in
theorem Awaits.quiet (log : t.mail.log = s.mail.log)
    (before : ∀ pid, Waits (t.state pid) → Waits (s.state pid) ∧ t.mail.dest pid = s.mail.dest pid) :
    Awaits [] s t :=
  ⟨log, fun pid waiting => Or.inl (before pid waiting)⟩

omit [NeZero n] in
theorem Awaits.change {pid : Pid n} {now : ProcState} (state : t.state = update s.state pid now)
    (moving : ¬ Waits now) (log : t.mail.log = s.mail.log)
    (dest : ∀ p, p ≠ pid → t.mail.dest p = s.mail.dest p) : Awaits [] s t := by
  refine .quiet log ?_
  intro p waiting
  rw [state] at waiting
  have away : p ≠ pid := by
    rintro rfl
    exact moving (by simpa using waiting)
  exact ⟨by simpa [away] using waiting, dest p away⟩

end Awaits

def Attended (s : Kernel n) : Prop :=
  ∀ pid, Waits (s.state pid) → ∃ server, s.mail.dest pid = some server ∧ server ≠ pid ∧
    s.state server ≠ .free ∧
    (pid ∈ walk s.mail.next n (s.mail.head server) ∨ holder s.mail.log pid = some server)

theorem Meeting.attended {s : Kernel n} {queue : Pid n → List (Pid n)}
    (inv : Meeting (fun client server => client ≠ server) s.state s.mail queue) : Attended s := by
  intro pid waits
  obtain ⟨server, dest, alive, other, standing⟩ := inv.server pid waits
  refine ⟨server, dest, other.symm, alive.2, ?_⟩
  rcases standing with nobody | held
  · have linked := inv.linked server alive
    have short := linked_length linked
    rw [Fintype.card_fin] at short
    rw [walk_linked linked n short]
    exact Or.inl ((inv.member server alive pid).mpr ⟨waits, dest, nobody⟩)
  · exact Or.inr held

def killable : Module := ⟨0, true, false⟩

end Ubiqos
