import Ubiqos.Kernel.Holdings
import Ubiqos.Lib.Tally

/-!
Two books over whole runs. Every block the pools grant is held by one process
that is there or has been given back, and every module link a process was made
with belongs to a process that runs or has been let go of. A process that ends
gives back what it held at that moment, once, and nothing else goes back with
it.
-/

namespace Ubiqos

open Function Machine

variable {n : Nat}

def returned (calls : List (Outside n)) : List Addr :=
  calls.filterMap fun call => match call with
    | .tlsfFree block => some block
    | _ => none

def unlinked (calls : List (Outside n)) : List Module :=
  calls.filterMap fun call => match call with
    | .moddirUnlink module => some module
    | _ => none

theorem returned_append (left right : List (Outside n)) :
    returned (left ++ right) = returned left ++ returned right := List.filterMap_append

theorem unlinked_append (left right : List (Outside n)) :
    unlinked (left ++ right) = unlinked left ++ unlinked right := List.filterMap_append

theorem returned_reverse (calls : List (Outside n)) :
    returned calls.reverse = (returned calls).reverse := List.filterMap_reverse

theorem unlinked_reverse (calls : List (Outside n)) :
    unlinked calls.reverse = (unlinked calls).reverse := List.filterMap_reverse

theorem returned_frees (blocks : List Addr) :
    returned (blocks.map (Outside.tlsfFree (n := n))) = blocks := by
  induction blocks with
  | nil => rfl
  | cons block rest ih => simp [returned]

theorem unlinked_frees (blocks : List Addr) :
    unlinked (blocks.map (Outside.tlsfFree (n := n))) = [] := by
  induction blocks with
  | nil => rfl
  | cons block rest ih => simp [unlinked]

namespace Holdings

def blocks (h : Holdings n) (pid : Pid n) : List Addr :=
  h.allocs pid ++ h.memBase pid :: [h.codeBase pid].filter (· ≠ 0)

variable [NeZero n]

def held (h : Holdings n) (block : Addr) : Nat :=
  ∑ pid, if pid ≠ 0 ∧ h.live pid = true then (h.blocks pid).count block else 0

def running (h : Holdings n) (test : Module → Bool) : Nat :=
  ∑ pid, if pid ≠ 0 ∧ h.live pid = true ∧ (h.module pid).any test = true then 1 else 0

omit [NeZero n] in
theorem departure_returned (h : Holdings n) (pid : Pid n) :
    returned (h.departure pid) = h.blocks pid := by
  have links : returned ((h.module pid).toList.map (Outside.moddirUnlink (n := n))) = [] := by
    cases h.module pid <;> rfl
  unfold departure blocks
  rw [returned_append, returned_append, returned_append, returned_append, links, returned_frees]
  by_cases none : h.codeBase pid = 0
  · simp [none, returned]
  · simp [none, returned]

omit [NeZero n] in
theorem departure_unlinked (h : Holdings n) (pid : Pid n) :
    unlinked (h.departure pid) = (h.module pid).toList := by
  have links : unlinked ((h.module pid).toList.map (Outside.moddirUnlink (n := n))) =
      (h.module pid).toList := by
    cases h.module pid <;> rfl
  unfold departure
  rw [unlinked_append, unlinked_append, unlinked_append, unlinked_append, links, unlinked_frees]
  by_cases none : h.codeBase pid = 0
  · simp [none, unlinked]
  · simp [none, unlinked]

end Holdings

variable [NeZero n]

section Books
variable {h k : Holdings n}

theorem held_change {pid : Pid n} (idle : pid ≠ 0) (live : ∀ p, p ≠ pid → k.live p = h.live p)
    (others : ∀ p, p ≠ pid → k.blocks p = h.blocks p) (block : Addr) :
    k.held block + (if h.live pid = true then (h.blocks pid).count block else 0) =
      h.held block + if k.live pid = true then (k.blocks pid).count block else 0 := by
  have same : ∀ p, p ≠ pid →
      (if p ≠ 0 ∧ k.live p = true then (k.blocks p).count block else 0) =
        if p ≠ 0 ∧ h.live p = true then (h.blocks p).count block else 0 := by
    intro p away
    rw [live p away, others p away]
  have changed := Tally.sum_change pid same
  simpa [Holdings.held, idle] using changed

theorem running_change {pid : Pid n} (idle : pid ≠ 0)
    (live : ∀ p, p ≠ pid → k.live p = h.live p)
    (others : ∀ p, p ≠ pid → k.module p = h.module p) (test : Module → Bool) :
    k.running test + (if h.live pid = true ∧ (h.module pid).any test = true then 1 else 0) =
      h.running test + if k.live pid = true ∧ (k.module pid).any test = true then 1 else 0 := by
  have same : ∀ p, p ≠ pid →
      (if p ≠ 0 ∧ k.live p = true ∧ (k.module p).any test = true then 1 else 0) =
        if p ≠ 0 ∧ h.live p = true ∧ (h.module p).any test = true then 1 else 0 := by
    intro p away
    rw [live p away, others p away]
  have changed := Tally.sum_change pid same
  simpa [Holdings.running, idle] using changed

theorem countP_toList (module : Option Module) (test : Module → Bool) :
    module.toList.countP test = if module.any test = true then 1 else 0 := by
  cases module with
  | none => rfl
  | some other => simp [List.countP_singleton]

theorem ending_blocks (ending : Ending h k) (block : Addr) :
    (returned k.outside).count block + k.held block =
      (returned h.outside).count block + h.held block := by
  cases ending with
  | ends pid idle there =>
    have others : ∀ p, p ≠ pid → (h.release pid).blocks p = h.blocks p := by
      intro p away
      simp [Holdings.release, Holdings.blocks, away]
    have changed := held_change idle (h := h) (k := h.release pid)
      (fun p away => by simp [Holdings.release, away]) others block
    have dead : (h.release pid).live pid = false := by simp [Holdings.release]
    have back : (returned (h.release pid).outside).count block =
        (h.blocks pid).count block + (returned h.outside).count block := by
      simp only [Holdings.release]
      rw [returned_append, returned_reverse, Holdings.departure_returned, List.count_append,
        List.count_reverse]
    rw [if_pos there, dead] at changed
    simp only [Bool.false_eq_true, if_false] at changed
    omega
  | _ => rfl

theorem ending_links (ending : Ending h k) (test : Module → Bool) :
    (unlinked k.outside).countP test + k.running test =
      (unlinked h.outside).countP test + h.running test := by
  cases ending with
  | ends pid idle there =>
    have changed := running_change idle (h := h) (k := h.release pid)
      (fun p away => by simp [Holdings.release, away]) (fun p away => rfl) test
    have dead : (h.release pid).live pid = false := by simp [Holdings.release]
    have back : (unlinked (h.release pid).outside).countP test =
        (h.module pid).toList.countP test + (unlinked h.outside).countP test := by
      simp only [Holdings.release]
      rw [unlinked_append, unlinked_reverse, Holdings.departure_unlinked, List.countP_append,
        List.countP_reverse]
    rw [countP_toList] at back
    rw [dead] at changed
    simp only [there, true_and, Bool.false_eq_true, false_and, if_false] at changed
    omega
  | _ => rfl

theorem dealt_blocks {links : List Module} {blocks : List Addr} (dealt : Dealt h links blocks k)
    (block : Addr) :
    (returned k.outside).count block + k.held block =
      (returned h.outside).count block + h.held block + blocks.count block := by
  cases dealt with
  | nothing => simp
  | grows pid header idle there =>
    have others : ∀ p, p ≠ pid → (h.grow pid header).blocks p = h.blocks p := by
      intro p away
      simp [Holdings.grow, Holdings.blocks, away]
    have changed := held_change idle (h := h) (k := h.grow pid header) (fun p away => rfl) others block
    have more : ((h.grow pid header).blocks pid).count block =
        (h.blocks pid).count block + [header].count block := by
      simp only [Holdings.grow, Holdings.blocks, update_self, List.count_append,
        List.count_cons, List.count_nil]
      omega
    have live : (h.grow pid header).live pid = true := there
    rw [if_pos there, if_pos live] at changed
    have same : (h.grow pid header).outside = h.outside := rfl
    rw [same]
    omega
  | shrinks pid header idle there own =>
    have others : ∀ p, p ≠ pid → (h.shrink pid header).blocks p = h.blocks p := by
      intro p away
      simp [Holdings.shrink, Holdings.blocks, away]
    have changed := held_change idle (h := h) (k := h.shrink pid header) (fun p away => rfl) others block
    have fewer : ((h.shrink pid header).blocks pid).count block + [header].count block =
        (h.blocks pid).count block := by
      have whole := (List.perm_cons_erase own).count_eq block
      rw [List.count_cons] at whole
      simp only [Holdings.shrink, Holdings.blocks, update_self, List.count_append,
        List.count_singleton]
      omega
    have live : (h.shrink pid header).live pid = true := there
    have back : (returned (h.shrink pid header).outside).count block =
        (returned h.outside).count block + [header].count block := by
      simp [Holdings.shrink, returned, List.count_cons]
    rw [if_pos there, if_pos live] at changed
    simp only [List.count_nil]
    omega
  | asks pid type => rfl
  | refuses module blocks =>
    have back : returned (h.refuse module blocks).outside = blocks ++ returned h.outside := by
      have kept := returned_append (blocks.map (Outside.tlsfFree (n := n))) h.outside
      rw [returned_frees] at kept
      exact kept
    have same : (h.refuse module blocks).held block = h.held block := rfl
    rw [back, same, List.count_append]
    omega
  | begins slot module mem code parent idle unused =>
    have others : ∀ p, p ≠ slot →
        (h.start slot module mem code parent).blocks p = h.blocks p := by
      intro p away
      simp [Holdings.start, Holdings.blocks, away]
    have changed := held_change idle (h := h) (k := h.start slot module mem code parent)
      (fun p away => by simp [Holdings.start, away]) others block
    have fresh : (h.start slot module mem code parent).blocks slot =
        mem :: [code].filter (· ≠ 0) := by
      simp [Holdings.start, Holdings.blocks]
    have live : (h.start slot module mem code parent).live slot = true := by
      simp [Holdings.start]
    have same : (h.start slot module mem code parent).outside = h.outside := rfl
    rw [fresh, live, unused] at changed
    simp only [Bool.false_eq_true, if_false, if_true] at changed
    rw [same]
    omega

theorem dealt_links {links : List Module} {blocks : List Addr} (dealt : Dealt h links blocks k)
    (test : Module → Bool) :
    (unlinked k.outside).countP test + k.running test =
      (unlinked h.outside).countP test + h.running test + links.countP test := by
  cases dealt with
  | nothing => simp
  | grows pid header idle there => rfl
  | shrinks pid header idle there own => rfl
  | asks pid type => rfl
  | refuses refused blocks =>
    have back : unlinked (h.refuse refused blocks).outside = refused :: unlinked h.outside := by
      have kept := unlinked_append (blocks.map (Outside.tlsfFree (n := n))) h.outside
      rw [unlinked_frees, List.nil_append] at kept
      exact congrArg (List.cons refused) kept
    have same : (h.refuse refused blocks).running test = h.running test := rfl
    rw [back, same, List.countP_cons, List.countP_singleton]
    omega
  | begins slot begun mem code parent idle unused =>
    have changed := running_change idle (h := h) (k := h.start slot begun mem code parent)
      (fun p away => by simp [Holdings.start, away])
      (fun p away => by simp [Holdings.start, away]) test
    have same : (h.start slot begun mem code parent).outside = h.outside := rfl
    have there : (h.start slot begun mem code parent).live slot = true ∧
        (h.start slot begun mem code parent).module slot = begun := by
      simp [Holdings.start]
    rw [unused, there.1, there.2] at changed
    simp only [Bool.false_eq_true, false_and, true_and, if_false] at changed
    rw [same, countP_toList]
    omega

end Books

structure Clean (h : Holdings n) : Prop where
  kernel : h.live 0 = true
  root : h.parent 0 = some 0
  code : ∀ pid, h.live pid = false → h.codeBase pid = 0
  watch : ∀ i, h.watch i = 0 ∨ h.live (h.watch i) = true
  awaits : ∀ pid raw, h.awaits pid = some raw →
    ∃ target : Pid n, raw = ((target : Nat) : Int) ∧ h.live target = true

section Clean
variable {h k : Holdings n}

theorem ending_clean (ending : Ending h k) (clean : Clean h) : Clean k := by
  cases ending with
  | ends pid idle there =>
    refine ⟨?_, ?_, ?_, ?_, ?_⟩
    · simp [Holdings.release, idle.symm, clean.kernel]
    · simp [Holdings.release, idle.symm, clean.root]
    · intro p dead
      by_cases here : p = pid
      · simp [Holdings.release, here]
      · simp only [Holdings.release, update_of_ne here] at dead ⊢
        exact clean.code p dead
    · intro i
      simp only [Holdings.release]
      by_cases here : h.watch i = pid
      · simp [here]
      · simp only [here, if_false, update_of_ne here]
        exact clean.watch i
    · intro p raw waits
      simp only [Holdings.release] at waits ⊢
      split at waits
      · cases waits
      · rename_i elsewhere
        obtain ⟨target, rfl, live⟩ := clean.awaits p raw waits
        have away : target ≠ pid := by
          rintro rfl
          exact elsewhere (Or.inr waits)
        exact ⟨target, rfl, by simpa [away] using live⟩
  | marks pid reason there =>
    exact ⟨clean.kernel, clean.root, clean.code, clean.watch, clean.awaits⟩
  | wakes pid =>
    refine ⟨clean.kernel, clean.root, clean.code, clean.watch, ?_⟩
    intro p raw waits
    simp only [Holdings.wake] at waits
    split at waits
    · cases waits
    · exact clean.awaits p raw waits
  | waits pid target there =>
    refine ⟨clean.kernel, clean.root, clean.code, clean.watch, ?_⟩
    intro p raw waits
    by_cases here : p = pid
    · subst here
      simp only [update_self, Option.some.injEq] at waits
      exact ⟨target, waits.symm, there⟩
    · simp only [update_of_ne here] at waits
      exact clean.awaits p raw waits
  | watches i pid there =>
    refine ⟨clean.kernel, clean.root, clean.code, ?_, clean.awaits⟩
    intro j
    by_cases here : j = i
    · subst here
      simpa using there
    · simpa [here] using clean.watch j
  | unwatches pid =>
    refine ⟨clean.kernel, clean.root, clean.code, ?_, clean.awaits⟩
    intro i
    by_cases here : h.watch i = pid
    · simp [here]
    · simpa [here] using clean.watch i

theorem dealt_clean {links : List Module} {blocks : List Addr} (dealt : Dealt h links blocks k)
    (clean : Clean h) : Clean k := by
  cases dealt with
  | begins slot module mem code parent idle unused =>
    have stays : ∀ p, h.live p = true → update h.live slot true p = true := by
      intro p live
      by_cases here : p = slot <;> simp [here, live]
    refine ⟨stays 0 clean.kernel, ?_, ?_, ?_, ?_⟩
    · simp [Holdings.start, idle.symm, clean.root]
    · intro p dead
      by_cases here : p = slot
      · simp [Holdings.start, here] at dead
      · simp only [Holdings.start, update_of_ne here] at dead ⊢
        exact clean.code p dead
    · intro i
      exact (clean.watch i).imp id (stays _)
    · intro p raw waits
      obtain ⟨target, same, live⟩ := clean.awaits p raw waits
      exact ⟨target, same, stays target live⟩
  | _ => exact ⟨clean.kernel, clean.root, clean.code, clean.watch, clean.awaits⟩

end Clean

/-- `gone` are the processes that ended, in order. Everyone else keeps what they
had, and the calls made are those the end of each of them makes, once. A parent
that is there, then and now, and asked, is told of each end. -/
structure Departs (gone : List (Pid n)) (h k : Holdings n) : Prop where
  nodup : gone.Nodup
  ended : ∀ pid, pid ∈ gone ↔ h.live pid = true ∧ k.live pid = false
  stays : ∀ pid, k.live pid = true → h.live pid = true ∧ k.departure pid = h.departure pid
  orphans : ∀ pid ∈ gone, ∀ p, k.parent p ≠ some pid
  outside : k.outside = (gone.flatMap h.departure).reverse ++ h.outside
  asks : k.asks = h.asks
  family : ∀ pid parent, k.live pid = true → k.live parent = true →
    h.parent pid = some parent → k.parent pid = some parent
  reports : ∃ told : Pid n → Option (Pulse n),
    k.reports = (gone.map (fun pid => (pid, told pid))).reverse ++ h.reports ∧
    ∀ pid ∈ gone, ∀ parent, h.parent pid = some parent → parent ≠ 0 → h.asks parent ≠ 0 →
      k.live parent = true → told pid = some (k.endPulse pid parent)

section Departs
variable {h k l : Holdings n}

theorem Departs.refl (h : Holdings n) : Departs [] h h :=
  ⟨List.nodup_nil, by simp, fun _ live => ⟨live, rfl⟩, by simp, by simp, rfl,
    fun _ _ _ _ known => known, fun _ => none, by simp⟩

theorem Departs.frame {gone : List (Pid n)} (departs : Departs gone h k)
    (live : l.live = k.live) (departure : l.departure = k.departure) (parent : l.parent = k.parent)
    (asks : l.asks = k.asks) (reason : ∀ pid ∈ gone, l.reason pid = k.reason pid)
    (outside : l.outside = k.outside) (reports : l.reports = k.reports) : Departs gone h l := by
  obtain ⟨told, log, tells⟩ := departs.reports
  refine ⟨departs.nodup, ?_, ?_, ?_, outside.trans departs.outside, asks.trans departs.asks, ?_,
    told, reports.trans log, ?_⟩
  · rw [live]
    exact departs.ended
  · rw [live, departure]
    exact departs.stays
  · rw [parent]
    exact departs.orphans
  · rw [live, parent]
    exact departs.family
  · intro pid member dead known away asked there
    rw [live] at there
    rw [tells pid member dead known away asked there, Holdings.endPulse, Holdings.endPulse, asks,
      reason pid member]

section Ends
variable {gone : List (Pid n)} (departs : Departs gone h k) {pid : Pid n}
  (there : k.live pid = true)
include departs there

theorem Departs.fresh : pid ∉ gone := by
  intro member
  have dead := ((departs.ended pid).mp member).2
  rw [there] at dead
  cases dead

/-- What the parent is told last, and that the earlier reports still say what they said. -/
theorem Departs.told :
    ∃ told : Pid n → Option (Pulse n),
      (k.release pid).reports =
        ((gone ++ [pid]).map (fun pid => (pid, told pid))).reverse ++ h.reports ∧
      ∀ p ∈ gone ++ [pid], ∀ parent, h.parent p = some parent → parent ≠ 0 → h.asks parent ≠ 0 →
        (k.release pid).live parent = true → told p = some ((k.release pid).endPulse p parent) := by
  obtain ⟨told, log, tells⟩ := departs.reports
  have fresh := departs.fresh there
  have elsewhere : ∀ p ∈ gone, p ≠ pid := by
    rintro p member rfl
    exact fresh member
  have earlier : gone.map (fun p => (p, update told pid (k.report pid) p)) =
      gone.map (fun p => (p, told p)) := by
    refine List.map_congr_left fun p member => ?_
    rw [update_of_ne (elsewhere p member)]
  refine ⟨update told pid (k.report pid), ?_, ?_⟩
  · simp only [Holdings.release, log, List.map_append, earlier, List.map_cons, List.map_nil,
      update_self, List.reverse_append, List.reverse_singleton, List.nil_append,
      List.cons_append]
  · intro p member parent known nonzero asked live
    have other : parent ≠ pid := by
      rintro rfl
      simp [Holdings.release] at live
    have was : k.live parent = true := by simpa [Holdings.release, other] using live
    rcases List.mem_append.mp member with before | now
    · rw [update_of_ne (elsewhere p before)]
      exact tells p before parent known nonzero asked was
    · rw [List.mem_singleton] at now
      subst now
      have asks : k.asks parent ≠ 0 := by rwa [departs.asks]
      rw [update_self, Holdings.report, departs.family p parent there was known]
      simp only [ne_eq, nonzero, not_false_eq_true, other, was, asks, and_self, if_true]
      rfl

end Ends

theorem Departs.ending {gone : List (Pid n)} (departs : Departs gone h k) (clean : Clean k)
    (ending : Ending k l) : ∃ gone, Departs gone h l := by
  cases ending with
  | ends pid idle there =>
    have fresh := departs.fresh there
    refine ⟨gone ++ [pid], ?_, ?_, ?_, ?_, ?_, departs.asks, ?_, departs.told there⟩
    · exact List.nodup_append.mpr ⟨departs.nodup, by simp, by
        intro p inGone q isPid
        rintro rfl
        exact fresh (by simpa using (List.mem_singleton.mp isPid) ▸ inGone)⟩
    · intro p
      by_cases here : p = pid
      · subst here
        simp [Holdings.release, (departs.stays p there).1]
      · simp [Holdings.release, here, departs.ended]
    · intro p live
      by_cases here : p = pid
      · simp [Holdings.release, here] at live
      · simp only [Holdings.release, update_of_ne here] at live
        obtain ⟨before, same⟩ := departs.stays p live
        refine ⟨before, Eq.trans ?_ same⟩
        simp [Holdings.departure, Holdings.release, here]
    · intro p member q names
      have kept : q ≠ pid ∧ k.parent q = some p ∧ (q = 0 ∨ k.parent q ≠ some pid) := by
        by_cases here : q = pid
        · simp [Holdings.release, here] at names
        · simp only [Holdings.release, update_of_ne here] at names
          split at names
          · cases names
          · rename_i other
            rw [not_and_or, not_not] at other
            exact ⟨here, names, other⟩
      rcases List.mem_append.mp member with earlier | now
      · exact departs.orphans p earlier q kept.2.1
      · rw [List.mem_singleton] at now
        subst now
        rcases kept.2.2 with zero | other
        · rw [zero, clean.root] at kept
          exact idle (Option.some.inj kept.2.1).symm
        · exact other kept.2.1
    · simp only [Holdings.release, departs.outside, List.flatMap_append, List.flatMap_singleton,
        List.reverse_append, (departs.stays pid there).2, List.append_assoc]
    · intro p parent live also known
      have other : p ≠ pid ∧ parent ≠ pid := by
        constructor <;> rintro rfl
        · simp [Holdings.release] at live
        · simp [Holdings.release] at also
      simp only [Holdings.release, update_of_ne other.1, update_of_ne other.2] at live also ⊢
      have kept := departs.family p parent live also known
      simp [kept, other.2]
  | marks pid reason there =>
    refine ⟨gone, departs.frame rfl rfl rfl rfl ?_ rfl rfl⟩
    intro p member
    have away : p ≠ pid := by
      rintro rfl
      exact departs.fresh there member
    exact update_of_ne away _ _
  | wakes pid => exact ⟨gone, departs.frame rfl rfl rfl rfl (fun _ _ => rfl) rfl rfl⟩
  | waits pid target there => exact ⟨gone, departs.frame rfl rfl rfl rfl (fun _ _ => rfl) rfl rfl⟩
  | watches i pid there => exact ⟨gone, departs.frame rfl rfl rfl rfl (fun _ _ => rfl) rfl rfl⟩
  | unwatches pid => exact ⟨gone, departs.frame rfl rfl rfl rfl (fun _ _ => rfl) rfl rfl⟩

theorem endings_departs (endings : Endings h k) (clean : Clean h) :
    Clean k ∧ ∃ gone, Departs gone h k := by
  induction endings with
  | refl => exact ⟨clean, [], .refl h⟩
  | tail _ last ih =>
    obtain ⟨clean, gone, departs⟩ := ih
    exact ⟨ending_clean last clean, departs.ending clean last⟩

end Departs

section Runs
variable {s : Kernel n}

theorem step_holdings (settled : Settled s) (call : Call n) :
    holdings (step s call) = holdings (trap s call).1 := by
  have sched := trap_scheduled settled call
  unfold step
  split
  · rename_i t outcome
    rw [outcome] at sched ⊢
    exact switch_holdings sched
  · rename_i t outcome
    rw [outcome]

theorem Clean.tidy (clean : Clean (holdings s)) (slot : Pid n) (free : s.state slot = .free) :
    s.life.codeBase slot = 0 := clean.code slot (by simp [holdings, free])

theorem step_accounts (settled : Settled s) (clean : Clean (holdings s)) (call : Call n) :
    (Endings (holdings s) (holdings (step s call)) ∧ brought call = [] ∧ granted s call = []) ∨
      (Deals call ∧
        Dealt (holdings s) (brought call) (granted s call) (holdings (step s call))) := by
  rw [step_holdings settled]
  by_cases deals : Deals call
  · exact Or.inr ⟨deals, trap_dealt settled.2 clean.tidy call deals⟩
  · refine Or.inl ⟨trap_endings settled.2 settled.1 call deals, ?_, ?_⟩
    · cases call <;> first | rfl | exact absurd trivial deals
    · cases call <;> first | rfl | exact absurd trivial deals

theorem dealt_news {h k : Holdings n} {links : List Module} {blocks : List Addr}
    (dealt : Dealt h links blocks k) : ∃ news, k.outside = news ++ h.outside := by
  cases dealt with
  | nothing => exact ⟨[], rfl⟩
  | grows pid header idle there => exact ⟨[], rfl⟩
  | shrinks pid header idle there own => exact ⟨[.tlsfFree header], rfl⟩
  | asks pid type => exact ⟨[], rfl⟩
  | refuses module blocks => exact ⟨.moddirUnlink module :: blocks.map .tlsfFree, rfl⟩
  | begins slot module mem code parent idle unused => exact ⟨[], rfl⟩

theorem dealt_live {h k : Holdings n} {links : List Module} {blocks : List Addr}
    (dealt : Dealt h links blocks k) {pid : Pid n} (live : h.live pid = true) :
    k.live pid = true := by
  cases dealt with
  | begins slot module mem code parent idle unused =>
    by_cases here : pid = slot <;> simp [Holdings.start, here, live]
  | _ => exact live

theorem step_news (settled : Settled s) (clean : Clean (holdings s)) (call : Call n) :
    ∃ news, (step s call).life.outside = news ++ s.life.outside := by
  rcases step_accounts settled clean call with ⟨endings, _⟩ | ⟨_, dealt⟩
  · obtain ⟨gone, departs⟩ := (endings_departs endings clean).2
    exact ⟨_, departs.outside⟩
  · exact dealt_news dealt

theorem step_clean (settled : Settled s) (call : Call n) (clean : Clean (holdings s)) :
    Clean (holdings (step s call)) := by
  rcases step_accounts settled clean call with ⟨endings, _⟩ | ⟨_, dealt⟩
  · exact (endings_departs endings clean).1
  · exact dealt_clean dealt clean

theorem run_clean (calls : List (Call n)) : Clean (holdings (run calls)) := by
  have both : Settled (run calls) ∧ Clean (holdings (run calls)) := by
    refine foldl_invariant (fun s => Settled s ∧ Clean (holdings s)) ⟨init_settled, ?_⟩ ?_
    · refine ⟨by simp [holdings, schedulerInit], rfl, fun _ _ => rfl, fun _ => Or.inl rfl, ?_⟩
      intro pid raw waits
      by_cases here : pid = 0 <;> simp [holdings, schedulerInit, awaited, here] at waits
    · intro s call _ both
      exact ⟨step_settled both.1 call, step_clean both.1 call both.2⟩
  exact both.2

/-- The blocks a run of `machine` is granted. -/
def handedOut (machine : Kernel n → Call n → Kernel n) : Kernel n → List (Call n) → List Addr
  | _, [] => []
  | s, call :: rest => granted s call ++ handedOut machine (machine s call) rest

theorem endings_books {h k : Holdings n} (endings : Endings h k) :
    (∀ block, (returned k.outside).count block + k.held block =
      (returned h.outside).count block + h.held block) ∧
    ∀ test, (unlinked k.outside).countP test + k.running test =
      (unlinked h.outside).countP test + h.running test := by
  induction endings with
  | refl => exact ⟨fun _ => rfl, fun _ => rfl⟩
  | tail _ last ih =>
    exact ⟨fun block => (ending_blocks last block).trans (ih.1 block),
      fun test => (ending_links last test).trans (ih.2 test)⟩

theorem step_books (settled : Settled s) (clean : Clean (holdings s)) (call : Call n) :
    (∀ block, (returned (step s call).life.outside).count block + (holdings (step s call)).held block =
      (returned s.life.outside).count block + (holdings s).held block +
        (granted s call).count block) ∧
    ∀ test, (unlinked (step s call).life.outside).countP test +
        (holdings (step s call)).running test =
      (unlinked s.life.outside).countP test + (holdings s).running test +
        (brought call).countP test := by
  rcases step_accounts settled clean call with ⟨endings, noLink, noBlock⟩ | ⟨_, dealt⟩
  · rw [noLink, noBlock]
    simpa [holdings] using endings_books endings
  · exact ⟨dealt_blocks dealt, dealt_links dealt⟩

theorem calls_books (settled : Settled s) (clean : Clean (holdings s)) (calls : List (Call n)) :
    (∀ block, (returned (calls.foldl step s).life.outside).count block +
        (holdings (calls.foldl step s)).held block =
      (returned s.life.outside).count block + (holdings s).held block +
        (handedOut step s calls).count block) ∧
    ∀ test, (unlinked (calls.foldl step s).life.outside).countP test +
        (holdings (calls.foldl step s)).running test =
      (unlinked s.life.outside).countP test + (holdings s).running test +
        (calls.flatMap brought).countP test := by
  induction calls generalizing s with
  | nil => exact ⟨fun _ => rfl, fun _ => rfl⟩
  | cons call rest ih =>
    obtain ⟨blocks, links⟩ := step_books settled clean call
    obtain ⟨laterBlocks, laterLinks⟩ :=
      ih (step_settled settled call) (step_clean settled call clean)
    constructor
    · intro block
      rw [List.foldl_cons, laterBlocks block, blocks block, handedOut, List.count_append]
      omega
    · intro test
      rw [List.foldl_cons, laterLinks test, links test, List.flatMap_cons,
        List.countP_append]
      omega

theorem run_books (calls : List (Call n)) :
    (∀ block, (handedOut step (schedulerInit n) calls).count block =
      (returned (run calls).life.outside).count block + (holdings (run calls)).held block) ∧
    ∀ test, (calls.flatMap brought).countP test =
      (unlinked (run calls).life.outside).countP test +
        (holdings (run calls)).running test := by
  obtain ⟨blocks, links⟩ := calls_books init_settled (run_clean []) calls
  have none : ∀ p : Pid n, ¬ (p ≠ 0 ∧ (holdings (schedulerInit n)).live p = true) := by
    rintro p ⟨away, live⟩
    simp [holdings, schedulerInit, away] at live
  constructor
  · intro block
    have start : (holdings (schedulerInit n)).held block = 0 := by
      simp [Holdings.held, none]
    have before := blocks block
    have silent : (returned (schedulerInit n).life.outside).count block = 0 := rfl
    rw [start, silent] at before
    unfold run
    omega
  · intro test
    have start : (holdings (schedulerInit n)).running test = 0 := by
      apply Finset.sum_eq_zero
      intro p _
      rw [if_neg]
      exact fun holds => none p ⟨holds.1, holds.2.1⟩
    have before := links test
    have silent : (unlinked (schedulerInit n).life.outside).countP test = 0 := rfl
    rw [start, silent] at before
    unfold run
    omega

end Runs

end Ubiqos
