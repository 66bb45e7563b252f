import Ubiqos.Kernel.Types
import Ubiqos.Lib.Packed
import Ubiqos.Lib.Linked

/-!
The ready queues of `kernel/scheduler.c`: one queue per priority and a bitmap
of the levels that are not empty. The links are `next_ready` and `priority` of
the process table, kept here as the columns the queue code touches. An index
of `-1` is `none`. `log` is history only: the order in which processes were
put in, which no function reads.
-/

namespace Ubiqos.ReadyQueue

open Function Intrusive

structure Ready (n : Nat) where
  head : Level → Option (Pid n)
  tail : Level → Option (Pid n)
  bitmap : Bitmap.Word
  next : Pid n → Option (Pid n)
  priority : Pid n → Level
  log : List (Pid n)

variable {n : Nat}

def readyEnqueue (r : Ready n) (pid : Pid n) : Ready n :=
  let p := r.priority pid
  let next := update r.next pid none
  { r with
    head := if r.head p = none then update r.head p (some pid) else r.head
    next :=
      match r.head p, r.tail p with
      | some _, some last => update next last (some pid)
      | _, _ => next
    tail := update r.tail p (some pid)
    bitmap := Bitmap.set r.bitmap p
    log := pid :: r.log }

def readyRemove (r : Ready n) (pid : Pid n) : Ready n :=
  let p := r.priority pid
  match seek r.next pid (n + 1) none (r.head p) with
  | none => r
  | some before =>
    let head := if before = none then update r.head p (r.next pid) else r.head
    { r with
      head := head
      next := update (bypass r.next before pid) pid none
      tail := if r.tail p = some pid then update r.tail p before else r.tail
      bitmap := if head p = none then Bitmap.clear r.bitmap p else r.bitmap }

/-- `31 - clz`, the highest level with anyone in it. -/
def highestLevel (bitmap : Bitmap.Word) : Level := ⟨31 - Bitmap.clz bitmap, by omega⟩

def takeHead (r : Ready n) (p : Level) (pid : Pid n) : Ready n :=
  { r with
    head := update r.head p (r.next pid)
    bitmap := if r.next pid = none then Bitmap.clear r.bitmap p else r.bitmap
    next := update r.next pid none }

/-- `none` is where the C would index the table with `-1` or count the zeros of
zero. No reachable state gets there. -/
def readyTakeHighest (r : Ready n) : Option (Pid n × Ready n) :=
  if r.bitmap = 0#32 then none else
    let p := highestLevel r.bitmap
    match r.head p with
    | none => none
    | some pid => some (pid, takeHead r p pid)

def setPriority (r : Ready n) (pid : Pid n) (priority : Level) : Ready n :=
  { r with priority := update r.priority pid priority }

def since : List (Pid n) → Pid n → Nat
  | [], _ => 0
  | entered :: older, pid => if entered = pid then older.length + 1 else since older pid

theorem since_le (log : List (Pid n)) (pid : Pid n) : since log pid ≤ log.length := by
  induction log with
  | nil => rfl
  | cons entered older ih =>
    rw [since]
    split
    · simp
    · simp only [List.length_cons]
      omega

/-- The representation invariant: `queue p` is what following `next` from
`head p` visits, and it holds exactly the ready processes of that priority, in
the order they came. -/
structure Holds (r : Ready n) (ready : Pid n → Prop) (queue : Level → List (Pid n)) : Prop where
  linked : ∀ p, Linked r.next (r.head p) (queue p)
  last : ∀ p, queue p ≠ [] → r.tail p = (queue p).getLast?
  member : ∀ p pid, pid ∈ queue p ↔ ready pid ∧ r.priority pid = p
  bit : ∀ p : Level, r.bitmap.getLsbD p = true ↔ queue p ≠ []
  order : ∀ p, (queue p).Pairwise (fun a b => since r.log a < since r.log b)

variable {r : Ready n} {ready : Pid n → Prop} {queue : Level → List (Pid n)}

theorem Holds.congr (holds : Holds r ready queue) {other : Pid n → Prop}
    (same : ∀ pid, other pid ↔ ready pid) : Holds r other queue :=
  { holds with member := fun p pid => by rw [same]; exact holds.member p pid }

variable {pid : Pid n}

theorem Holds.absent (holds : Holds r ready queue) (notReady : ¬ ready pid)
    (p : Level) : pid ∉ queue p :=
  fun member => notReady ((holds.member p pid).mp member).1

theorem Holds.head_none_iff (holds : Holds r ready queue) (p : Level) :
    r.head p = none ↔ queue p = [] := by
  rw [linked_head (holds.linked p), List.head?_eq_none_iff]

theorem Holds.apart (holds : Holds r ready queue) {p q : Level}
    (first : pid ∈ queue p) (second : pid ∈ queue q) : p = q :=
  ((holds.member p pid).mp first).2.symm.trans ((holds.member q pid).mp second).2

section Joining
variable (holds : Holds r ready queue) (fresh : ¬ ready pid)
include holds fresh

theorem joined_linked :
    Linked (readyEnqueue r pid).next ((readyEnqueue r pid).head (r.priority pid))
      (queue (r.priority pid) ++ [pid]) := by
  cases content : queue (r.priority pid) with
  | nil =>
    have empty := (holds.head_none_iff _).mpr content
    simp [readyEnqueue, empty]
  | cons first rest =>
    have nonempty : queue (r.priority pid) ≠ [] := by simp [content]
    obtain ⟨front, last, split⟩ : ∃ front last, queue (r.priority pid) = front ++ [last] :=
      ⟨_, _, (List.dropLast_append_getLast nonempty).symm⟩
    have tail : r.tail (r.priority pid) = some last := by
      rw [holds.last _ nonempty, split]
      simp
    have head : r.head (r.priority pid) = some first := by
      rw [linked_head (holds.linked _), content]
      rfl
    have linked := holds.linked (r.priority pid)
    rw [split] at linked
    have freshHere : pid ∉ front ++ [last] := by
      rw [← split]
      exact holds.absent fresh _
    have extended := linked_snoc freshHere linked
    rw [← content, split, List.append_assoc]
    simpa [readyEnqueue, head, tail] using extended

theorem joined_elsewhere {p : Level} (here : p ≠ r.priority pid) :
    Linked (readyEnqueue r pid).next ((readyEnqueue r pid).head p) (queue p) := by
  have base : Linked (update r.next pid none) (r.head p) (queue p) :=
    linked_update_outside _ (holds.absent fresh p) (holds.linked p)
  have headSame : (readyEnqueue r pid).head p = r.head p := by
    simp only [readyEnqueue]
    split
    · exact update_of_ne here _ _
    · rfl
  rw [headSame]
  simp only [readyEnqueue]
  split
  · rename_i first last headAt tailAt
    refine linked_update_outside _ ?_ base
    intro member
    have nonempty : queue (r.priority pid) ≠ [] := by
      intro empty
      rw [(holds.head_none_iff _).mpr empty] at headAt
      exact absurd headAt (by simp)
    have lastMember : last ∈ queue (r.priority pid) := by
      have value := (holds.last _ nonempty).symm.trans tailAt
      exact List.mem_of_getLast? value
    exact here (holds.apart member lastMember)
  · exact base

theorem joined_order (p : Level) :
    (update queue (r.priority pid) (queue (r.priority pid) ++ [pid]) p).Pairwise
      (fun a b => since (pid :: r.log) a < since (pid :: r.log) b) := by
  have older : ∀ other ∈ queue p, other ≠ pid :=
    fun other member same => holds.absent fresh p (same ▸ member)
  have kept : ∀ other ∈ queue p, since (pid :: r.log) other = since r.log other := by
    intro other member
    rw [since, if_neg (older other member).symm]
  have old : (queue p).Pairwise (fun a b => since (pid :: r.log) a < since (pid :: r.log) b) := by
    refine (holds.order p).imp_of_mem ?_
    intro a b first second less
    rw [kept a first, kept b second]
    exact less
  by_cases here : p = r.priority pid
  · subst here
    rw [update_self]
    refine List.pairwise_append.mpr ⟨old, List.pairwise_singleton _ _, ?_⟩
    intro other member entered isPid
    rw [List.mem_singleton.mp isPid]
    show since (pid :: r.log) other < since (pid :: r.log) pid
    rw [kept other member, since, if_pos rfl]
    exact Nat.lt_succ_of_le (since_le r.log other)
  · rw [update_of_ne here]
    exact old

theorem readyEnqueue_holds :
    Holds (readyEnqueue r pid) (fun other => ready other ∨ other = pid)
      (update queue (r.priority pid) (queue (r.priority pid) ++ [pid])) := by
  constructor
  · intro p
    by_cases here : p = r.priority pid
    · subst here
      rw [update_self]
      exact joined_linked holds fresh
    · rw [update_of_ne here]
      exact joined_elsewhere holds fresh here
  · intro p nonempty
    by_cases here : p = r.priority pid
    · subst here
      simp [readyEnqueue]
    · rw [update_of_ne here] at nonempty ⊢
      simpa [readyEnqueue, here] using holds.last p nonempty
  · intro p other
    by_cases here : p = r.priority pid
    · subst here
      simp only [update_self, List.mem_append, List.mem_singleton]
      rw [holds.member]
      constructor
      · rintro (⟨old, same⟩ | rfl)
        · exact ⟨Or.inl old, same⟩
        · exact ⟨Or.inr rfl, rfl⟩
      · rintro ⟨old | rfl, same⟩
        · exact Or.inl ⟨old, same⟩
        · exact Or.inr rfl
    · rw [update_of_ne here, holds.member]
      constructor
      · rintro ⟨old, same⟩
        exact ⟨Or.inl old, same⟩
      · rintro ⟨old | rfl, same⟩
        · exact ⟨old, same⟩
        · exact absurd same.symm here
  · intro p
    have flag := Bitmap.getLsbD_set r.bitmap (r.priority pid) p p.isLt
    simp only [readyEnqueue]
    rw [flag, Bool.or_eq_true, holds.bit]
    by_cases here : p = r.priority pid
    · subst here
      simp
    · have different : (r.priority pid : Nat) ≠ p := fun same => here (Fin.ext same.symm)
      simp [update_of_ne here, different]
  · exact joined_order holds fresh

end Joining

section Leaving

theorem Holds.left_member (holds : Holds r ready queue) (p : Level) (other : Pid n) :
    other ∈ update queue (r.priority pid) ((queue (r.priority pid)).erase pid) p ↔
      (ready other ∧ other ≠ pid) ∧ r.priority other = p := by
  by_cases here : p = r.priority pid
  · subst here
    rw [update_self, (linked_nodup (holds.linked _)).mem_erase_iff, holds.member]
    tauto
  · rw [update_of_ne here, holds.member]
    constructor
    · rintro ⟨was, same⟩
      refine ⟨⟨was, ?_⟩, same⟩
      rintro rfl
      exact here same.symm
    · rintro ⟨⟨was, _⟩, same⟩
      exact ⟨was, same⟩

theorem Holds.left_bit (holds : Holds r ready queue) (isReady : ready pid) {gone : Prop}
    [Decidable gone] (emptied : gone ↔ (queue (r.priority pid)).erase pid = []) (p : Level) :
    (if gone then Bitmap.clear r.bitmap (r.priority pid) else r.bitmap).getLsbD p = true ↔
      update queue (r.priority pid) ((queue (r.priority pid)).erase pid) p ≠ [] := by
  by_cases here : p = r.priority pid
  · subst here
    rw [update_self, ne_eq, ← emptied]
    have inside : pid ∈ queue (r.priority pid) := (holds.member _ _).mpr ⟨isReady, rfl⟩
    split
    · rename_i empty
      rw [Bitmap.getLsbD_clear _ _ _ (Fin.isLt _)]
      simp [empty]
    · rename_i left
      rw [holds.bit]
      exact iff_of_true (List.ne_nil_of_mem inside) left
  · rw [update_of_ne here, ← holds.bit p]
    have different : (r.priority pid : Nat) ≠ p := fun same => here (Fin.ext same.symm)
    split
    · rw [Bitmap.getLsbD_clear _ _ _ p.isLt]
      simp [different]
    · rfl

theorem Holds.left_order (holds : Holds r ready queue) (p : Level) :
    (update queue (r.priority pid) ((queue (r.priority pid)).erase pid) p).Pairwise
      (fun a b => since r.log a < since r.log b) := by
  by_cases here : p = r.priority pid
  · subst here
    rw [update_self]
    exact (holds.order _).sublist List.erase_sublist
  · rw [update_of_ne here]
    exact holds.order p

variable {front back : List (Pid n)}

theorem Holds.found (holds : Holds r ready queue)
    (split : queue (r.priority pid) = front ++ pid :: back) :
    seek r.next pid (n + 1) none (r.head (r.priority pid)) = some front.getLast? := by
  have linked := holds.linked (r.priority pid)
  rw [split] at linked
  have short : front.length < n + 1 := by
    have bound := linked_length linked
    simp only [List.length_append, List.length_cons, Fintype.card_fin] at bound
    omega
  rw [seek_found linked (n + 1) short none, Option.or_none]

theorem removed_linked (holds : Holds r ready queue)
    (split : queue (r.priority pid) = front ++ pid :: back) :
    Linked (readyRemove r pid).next ((readyRemove r pid).head (r.priority pid))
      (front ++ back) := by
  have linked := holds.linked (r.priority pid)
  rw [split] at linked
  have newHead : (readyRemove r pid).head (r.priority pid) =
      if front.getLast? = none then r.next pid else r.head (r.priority pid) := by
    simp only [readyRemove, holds.found split]
    split <;> simp
  rw [newHead]
  simpa only [readyRemove, holds.found split] using linked_remove linked

theorem removed_elsewhere (holds : Holds r ready queue)
    (split : queue (r.priority pid) = front ++ pid :: back) {p : Level}
    (here : p ≠ r.priority pid) :
    Linked (readyRemove r pid).next ((readyRemove r pid).head p) (queue p) := by
  have elsewhere : ∀ other ∈ front ++ pid :: back, other ∉ queue p :=
    fun other inside there => here (holds.apart there (split ▸ inside))
  have headSame : (readyRemove r pid).head p = r.head p := by
    simp only [readyRemove, holds.found split]
    split
    · exact update_of_ne here _ _
    · rfl
  rw [headSame]
  simp only [readyRemove, holds.found split]
  refine linked_bypass_outside (elsewhere pid (by simp)) ?_ (holds.linked p)
  intro ahead isLast
  have member := List.mem_of_getLast? isLast
  exact elsewhere ahead (by simp [member])

theorem removed_last (holds : Holds r ready queue)
    (split : queue (r.priority pid) = front ++ pid :: back) (notBack : pid ∉ back) :
    (readyRemove r pid).tail (r.priority pid) = (front ++ back).getLast? := by
  have tailWas : r.tail (r.priority pid) = (front ++ pid :: back).getLast? := by
    rw [← split]
    exact holds.last _ (by simp [split])
  simp only [readyRemove, holds.found split]
  cases back using List.reverseRecOn with
  | nil =>
    simp only [List.getLast?_append, List.getLast?_singleton, Option.some_or] at tailWas
    simp [tailWas]
  | append_singleton middle end' _ =>
    have tailIs : r.tail (r.priority pid) = some end' := by
      have snoc : front ++ pid :: (middle ++ [end']) = (front ++ pid :: middle) ++ [end'] := by
        simp
      rw [tailWas, snoc, List.getLast?_concat]
    have different : end' ≠ pid := fun same => notBack (by simp [same])
    simp [tailIs, different, ← List.append_assoc]

theorem readyRemove_holds (holds : Holds r ready queue) (isReady : ready pid) :
    Holds (readyRemove r pid) (fun other => ready other ∧ other ≠ pid)
      (update queue (r.priority pid) ((queue (r.priority pid)).erase pid)) := by
  have inside : pid ∈ queue (r.priority pid) := (holds.member _ _).mpr ⟨isReady, rfl⟩
  obtain ⟨front, back, split⟩ := List.append_of_mem inside
  have nodup := linked_nodup (holds.linked (r.priority pid))
  rw [split] at nodup
  have apart := List.nodup_append.mp nodup
  have notFront : pid ∉ front := fun member =>
    apart.2.2 pid member pid List.mem_cons_self rfl
  have notBack : pid ∉ back := (List.nodup_cons.mp apart.2.1).1
  have erased : (queue (r.priority pid)).erase pid = front ++ back := by
    rw [split, List.erase_append_right _ notFront, List.erase_cons_head]
  have found := holds.found split
  constructor
  · intro p
    by_cases here : p = r.priority pid
    · subst here
      rw [update_self, erased]
      exact removed_linked holds split
    · rw [update_of_ne here]
      exact removed_elsewhere holds split here
  · intro p nonempty
    by_cases here : p = r.priority pid
    · subst here
      rw [update_self, erased]
      exact removed_last holds split notBack
    · rw [update_of_ne here] at nonempty ⊢
      have same := holds.last p nonempty
      simp only [readyRemove, found]
      split
      · rw [update_of_ne here]
        exact same
      · exact same
  · intro p other
    have priority : (readyRemove r pid).priority = r.priority := by simp [readyRemove, found]
    rw [priority]
    exact holds.left_member p other
  · intro p
    have bitmap : (readyRemove r pid).bitmap =
        if (readyRemove r pid).head (r.priority pid) = none then
          Bitmap.clear r.bitmap (r.priority pid) else r.bitmap := by
      simp only [readyRemove, found]
    have emptied : (readyRemove r pid).head (r.priority pid) = none ↔
        (queue (r.priority pid)).erase pid = [] := by
      rw [erased, linked_head (removed_linked holds split), List.head?_eq_none_iff]
    rw [bitmap]
    exact holds.left_bit isReady emptied p
  · intro p
    have log : (readyRemove r pid).log = r.log := by simp [readyRemove, found]
    rw [log]
    exact holds.left_order p

theorem takeHead_holds (holds : Holds r ready queue) (isReady : ready pid) {rest : List (Pid n)}
    (content : queue (r.priority pid) = pid :: rest) :
    Holds (takeHead r (r.priority pid) pid) (fun other => ready other ∧ other ≠ pid)
      (update queue (r.priority pid) ((queue (r.priority pid)).erase pid)) := by
  have linked := holds.linked (r.priority pid)
  rw [content] at linked
  have notRest : pid ∉ rest := (List.nodup_cons.mp (linked_nodup linked)).1
  have others : ∀ p, p ≠ r.priority pid → pid ∉ queue p := fun p away member =>
    away ((holds.member p pid).mp member).2.symm
  have erased : (queue (r.priority pid)).erase pid = rest := by
    rw [content, List.erase_cons_head]
  have emptied : r.next pid = none ↔ (queue (r.priority pid)).erase pid = [] := by
    rw [erased, linked_head linked.2, List.head?_eq_none_iff]
  constructor
  · intro p
    by_cases here : p = r.priority pid
    · subst here
      simp only [takeHead, update_self, erased]
      exact linked_update_outside _ notRest linked.2
    · simp only [takeHead, update_of_ne here]
      exact linked_update_outside _ (others p here) (holds.linked p)
  · intro p nonempty
    by_cases here : p = r.priority pid
    · subst here
      rw [update_self, erased] at nonempty ⊢
      have same := holds.last (r.priority pid) (by simp [content])
      rw [content, List.getLast?_cons_of_ne_nil nonempty] at same
      exact same
    · rw [update_of_ne here] at nonempty ⊢
      exact holds.last p nonempty
  · exact holds.left_member
  · exact holds.left_bit isReady emptied
  · exact holds.left_order

end Leaving

theorem readyTakeHighest_holds (holds : Holds r ready queue) {someone : Pid n}
    (runnable : ready someone) :
    r.bitmap ≠ 0#32 ∧ ∃ pid taken, readyTakeHighest r = some (pid, taken) ∧ ready pid ∧
      (∀ other, ready other → r.priority other ≤ r.priority pid) ∧
      (∀ other, ready other → r.priority other = r.priority pid → other ≠ pid →
        since r.log pid < since r.log other) ∧
      Holds taken (fun other => ready other ∧ other ≠ pid)
        (update queue (r.priority pid) (queue (r.priority pid)).tail) ∧
      taken.priority = r.priority ∧ taken.log = r.log := by
  have stands : someone ∈ queue (r.priority someone) := (holds.member _ _).mpr ⟨runnable, rfl⟩
  have nonzero : r.bitmap ≠ 0#32 := by
    intro zero
    have clear := (Bitmap.eq_zero_iff r.bitmap).mp zero _ (r.priority someone).isLt
    have full := (holds.bit (r.priority someone)).mpr (List.ne_nil_of_mem stands)
    rw [clear] at full
    exact absurd full (by decide)
  refine ⟨nonzero, ?_⟩
  obtain ⟨highBit, above⟩ := Bitmap.clz_highest nonzero
  have filled : queue (highestLevel r.bitmap) ≠ [] := (holds.bit _).mp highBit
  obtain ⟨pid, rest, content⟩ := List.exists_cons_of_ne_nil filled
  have atHead : r.head (highestLevel r.bitmap) = some pid := by
    rw [linked_head (holds.linked _), content]
    rfl
  have inside : pid ∈ queue (highestLevel r.bitmap) := by simp [content]
  obtain ⟨isReady, level⟩ := (holds.member _ _).mp inside
  rw [← level] at content atHead
  refine ⟨pid, takeHead r (r.priority pid) pid, ?_, isReady, ?_, ?_, ?_, rfl, rfl⟩
  · rw [readyTakeHighest, if_neg nonzero]
    simp only [← level, atHead]
  · intro other otherReady
    by_contra higher
    have otherStands : other ∈ queue (r.priority other) :=
      (holds.member _ _).mpr ⟨otherReady, rfl⟩
    have flag := (holds.bit (r.priority other)).mpr (List.ne_nil_of_mem otherStands)
    have beyond : 31 - Bitmap.clz r.bitmap < r.priority other := by
      rw [level] at higher
      exact Fin.lt_def.mp (not_le.mp higher)
    rw [above _ beyond] at flag
    exact absurd flag (by decide)
  · intro other otherReady sameLevel different
    have otherStands : other ∈ queue (r.priority pid) :=
      (holds.member _ _).mpr ⟨otherReady, sameLevel⟩
    have order := holds.order (r.priority pid)
    rw [content] at otherStands order
    have behind : other ∈ rest := (List.mem_cons.mp otherStands).resolve_left different
    exact (List.pairwise_cons.mp order).1 other behind
  · have tail : (queue (r.priority pid)).tail = (queue (r.priority pid)).erase pid := by
      rw [content, List.tail_cons, List.erase_cons_head]
    rw [tail]
    exact takeHead_holds holds isReady content

theorem setPriority_holds (holds : Holds r ready queue) (notReady : ¬ ready pid)
    (priority : Level) : Holds (setPriority r pid priority) ready queue :=
  { linked := holds.linked
    last := holds.last
    member := by
      intro p other
      rw [holds.member]
      constructor
      · rintro ⟨isReady, same⟩
        have different : other ≠ pid := fun isPid => notReady (isPid ▸ isReady)
        exact ⟨isReady, by simp [setPriority, different, same]⟩
      · rintro ⟨isReady, same⟩
        have different : other ≠ pid := fun isPid => notReady (isPid ▸ isReady)
        exact ⟨isReady, by simpa [setPriority, different] using same⟩
    bit := holds.bit
    order := holds.order }

end Ubiqos.ReadyQueue
