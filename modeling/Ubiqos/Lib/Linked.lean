import Mathlib.Data.Fintype.Card
import Mathlib.Data.List.Induction
import Mathlib.Data.List.Nodup
import Mathlib.Logic.Function.Basic

/-!
Intrusive singly linked lists. The links are one field of a table indexed by
`Node`; `none` is the end mark. `Linked next head nodes` says that following
`next` from `head` visits exactly `nodes` and then ends. Nothing here knows
what the table holds, so the same rules serve every list threaded through it.
-/

namespace Intrusive

universe u
variable {Node : Type u}

def Linked (next : Node → Option Node) : Option Node → List Node → Prop
  | head, [] => head = none
  | head, node :: rest => head = some node ∧ Linked next (next node) rest

/-- The list read off the links, giving up after `fuel` nodes. -/
def walk (next : Node → Option Node) : Nat → Option Node → List Node
  | 0, _ => []
  | _ + 1, none => []
  | fuel + 1, some node => node :: walk next fuel (next node)

@[simp] theorem linked_nil (next : Node → Option Node) (head : Option Node) :
    Linked next head [] ↔ head = none := Iff.rfl

@[simp] theorem linked_cons (next : Node → Option Node) (head : Option Node)
    (node : Node) (rest : List Node) :
    Linked next head (node :: rest) ↔ head = some node ∧ Linked next (next node) rest :=
  Iff.rfl

theorem linked_head {next : Node → Option Node} {head : Option Node} {nodes : List Node}
    (linked : Linked next head nodes) : head = nodes.head? := by
  cases nodes with
  | nil => exact linked
  | cons node rest => exact linked.1

theorem linked_unique {next : Node → Option Node} {head : Option Node} {left right : List Node}
    (first : Linked next head left) (second : Linked next head right) : left = right := by
  induction left generalizing head right with
  | nil =>
    cases right with
    | nil => rfl
    | cons node rest =>
      rw [linked_nil] at first
      simp [first] at second
  | cons node rest ih =>
    cases right with
    | nil =>
      rw [linked_nil] at second
      simp [second] at first
    | cons other tail =>
      obtain ⟨atNode, more⟩ := first
      obtain ⟨atOther, others⟩ := second
      have same : node = other := Option.some.inj (atNode.symm.trans atOther)
      subst same
      rw [ih more others]

theorem linked_suffix {next : Node → Option Node} {head : Option Node}
    {front : List Node} {node : Node} {back : List Node}
    (linked : Linked next head (front ++ node :: back)) : Linked next (next node) back := by
  induction front generalizing head with
  | nil => exact linked.2
  | cons first rest ih => exact ih linked.2

theorem linked_nodup {next : Node → Option Node} {head : Option Node} {nodes : List Node}
    (linked : Linked next head nodes) : nodes.Nodup := by
  induction nodes generalizing head with
  | nil => exact List.nodup_nil
  | cons node rest ih =>
    refine List.nodup_cons.mpr ⟨?_, ih linked.2⟩
    intro member
    obtain ⟨front, back, split⟩ := List.append_of_mem member
    have again : Linked next (next node) back := by
      have tail := linked.2
      rw [split] at tail
      exact linked_suffix tail
    have same := linked_unique again linked.2
    have longer := congrArg List.length same
    rw [split] at longer
    simp only [List.length_append, List.length_cons] at longer
    omega

theorem linked_congr {next other : Node → Option Node} {head : Option Node} {nodes : List Node}
    (agree : ∀ node ∈ nodes, next node = other node) (linked : Linked next head nodes) :
    Linked other head nodes := by
  induction nodes generalizing head with
  | nil => exact linked
  | cons node rest ih =>
    refine ⟨linked.1, ?_⟩
    rw [← agree node List.mem_cons_self]
    exact ih (fun later member => agree later (List.mem_cons_of_mem node member)) linked.2

theorem linked_length [Fintype Node] {next : Node → Option Node} {head : Option Node}
    {nodes : List Node} (linked : Linked next head nodes) :
    nodes.length ≤ Fintype.card Node :=
  (linked_nodup linked).length_le_card

theorem linked_length_below {next : Nat → Option Nat} {head : Option Nat} {nodes : List Nat}
    (linked : Linked next head nodes) (bound : Nat) (below : ∀ node ∈ nodes, node < bound) :
    nodes.length ≤ bound := by
  have within : nodes ⊆ List.range bound := fun node member => List.mem_range.mpr (below node member)
  have fits := ((linked_nodup linked).subperm within).length_le
  rwa [List.length_range] at fits

theorem walk_linked {next : Node → Option Node} {head : Option Node} {nodes : List Node}
    (linked : Linked next head nodes) (fuel : Nat) (enough : nodes.length ≤ fuel) :
    walk next fuel head = nodes := by
  induction nodes generalizing head fuel with
  | nil =>
    rw [linked_nil] at linked
    subst linked
    cases fuel <;> rfl
  | cons node rest ih =>
    cases fuel with
    | zero => simp at enough
    | succ fuel =>
      rw [linked.1, walk]
      rw [ih linked.2 fuel (Nat.le_of_succ_le_succ enough)]

section Updates
variable [DecidableEq Node]
open Function

variable {node : Node}

theorem linked_update_outside {next : Node → Option Node} {head : Option Node}
    {nodes : List Node} (value : Option Node) (outside : node ∉ nodes)
    (linked : Linked next head nodes) : Linked (update next node value) head nodes := by
  refine linked_congr ?_ linked
  intro other member
  have different : other ≠ node := fun same => outside (same ▸ member)
  rw [update_of_ne different]

variable {front : List Node}

theorem linked_snoc {next : Node → Option Node} {head : Option Node}
     {last node : Node} (fresh : node ∉ front ++ [last])
    (linked : Linked next head (front ++ [last])) :
    Linked (update (update next node none) last (some node)) head (front ++ [last, node]) := by
  induction front generalizing head with
  | nil =>
    have different : node ≠ last := by simpa using fresh
    refine ⟨linked.1, ?_, ?_⟩
    · rw [update_self]
    · rw [update_of_ne different, update_self]
      rfl
  | cons first rest ih =>
    have nodup := linked_nodup linked
    have firstLast : first ≠ last := by
      have absent := (List.nodup_cons.mp nodup).1
      intro same
      exact absent (by simp [same])
    have firstNode : first ≠ node := by
      intro same
      exact fresh (by simp [same])
    refine ⟨linked.1, ?_⟩
    rw [update_of_ne firstLast, update_of_ne firstNode]
    exact ih (fun member => fresh (List.mem_cons_of_mem first member)) linked.2

variable {back : List Node}

theorem linked_unlink {next : Node → Option Node} {head : Option Node}
     {before node : Node}
    (linked : Linked next head (front ++ before :: node :: back)) :
    Linked (update next before (next node)) head (front ++ before :: back) := by
  induction front generalizing head with
  | nil =>
    have nodup := linked_nodup linked
    have outside : before ∉ back := by
      have absent := (List.nodup_cons.mp nodup).1
      exact fun member => absent (List.mem_cons_of_mem node member)
    refine ⟨linked.1, ?_⟩
    rw [update_self]
    exact linked_update_outside _ outside linked.2.2
  | cons first rest ih =>
    have nodup := linked_nodup linked
    have different : first ≠ before := by
      have absent := (List.nodup_cons.mp nodup).1
      intro same
      exact absent (by simp [same])
    refine ⟨linked.1, ?_⟩
    rw [update_of_ne different]
    exact ih linked.2

theorem linked_insert {next : Node → Option Node} {head : Option Node}
     {before node : Node}
    (fresh : node ∉ front ++ before :: back)
    (linked : Linked next head (front ++ before :: back)) :
    Linked (update (update next node (next before)) before (some node)) head
      (front ++ before :: node :: back) := by
  induction front generalizing head with
  | nil =>
    have nodup := linked_nodup linked
    have outside : before ∉ back := (List.nodup_cons.mp nodup).1
    have different : node ≠ before := fun same => fresh (by simp [same])
    have nodeOutside : node ∉ back := fun member => fresh (by simp [member])
    refine ⟨linked.1, ?_, ?_⟩
    · rw [update_self]
    · rw [update_of_ne different, update_self]
      exact linked_update_outside _ outside (linked_update_outside _ nodeOutside linked.2)
  | cons first rest ih =>
    have nodup := linked_nodup linked
    have firstBefore : first ≠ before := by
      have absent := (List.nodup_cons.mp nodup).1
      intro same
      exact absent (by simp [same])
    have firstNode : first ≠ node := fun same => fresh (by simp [same])
    refine ⟨linked.1, ?_⟩
    rw [update_of_ne firstBefore, update_of_ne firstNode]
    exact ih (fun member => fresh (List.mem_cons_of_mem first member)) linked.2

/-- The predecessor search of a removal loop: `some before` when `wanted` is
found, with `before` the node ahead of it; `none` when the list ends first. -/
def seek (next : Node → Option Node) (wanted : Node) :
    Nat → Option Node → Option Node → Option (Option Node)
  | 0, _, _ => none
  | _ + 1, _, none => none
  | fuel + 1, before, some node =>
    if node = wanted then some before else seek next wanted fuel (some node) (next node)

theorem seek_found {next : Node → Option Node} {wanted : Node} {head : Option Node}
    {front back : List Node} (linked : Linked next head (front ++ wanted :: back))
    (fuel : Nat) (enough : front.length < fuel) (before : Option Node) :
    seek next wanted fuel before head = some (front.getLast?.or before) := by
  induction front generalizing head fuel before with
  | nil =>
    cases fuel with
    | zero => simp at enough
    | succ fuel => simp [seek, linked.1]
  | cons first rest ih =>
    have absent := (List.nodup_cons.mp (linked_nodup linked)).1
    have different : first ≠ wanted := by
      intro same
      exact absent (by simp [same])
    cases fuel with
    | zero => simp at enough
    | succ fuel =>
      rw [linked.1, seek, if_neg different]
      rw [ih linked.2 fuel (by simpa using enough)]
      rw [List.getLast?_cons]
      cases rest.getLast? <;> rfl

theorem seek_absent {next : Node → Option Node} {wanted : Node} {head : Option Node}
    {nodes : List Node} (linked : Linked next head nodes) (absent : wanted ∉ nodes)
    (fuel : Nat) (before : Option Node) : seek next wanted fuel before head = none := by
  induction nodes generalizing head fuel before with
  | nil =>
    rw [linked_nil] at linked
    subst linked
    cases fuel <;> rfl
  | cons node rest ih =>
    have different : node ≠ wanted := fun same => absent (by simp [same])
    cases fuel with
    | zero => rfl
    | succ fuel =>
      rw [linked.1, seek, if_neg different]
      exact ih linked.2 (fun member => absent (List.mem_cons_of_mem node member)) fuel _

def bypass (next : Node → Option Node) (before : Option Node) (node : Node) :
    Node → Option Node :=
  match before with
  | none => next
  | some ahead => update next ahead (next node)

theorem linked_remove {next : Node → Option Node} {head : Option Node}
    (linked : Linked next head (front ++ node :: back)) :
    Linked (update (bypass next front.getLast? node) node none)
      (if front.getLast? = none then next node else head) (front ++ back) := by
  have nodup := linked_nodup linked
  have apart := List.nodup_append.mp nodup
  have notBack : node ∉ back := (List.nodup_cons.mp apart.2.1).1
  have notFront : node ∉ front := fun member =>
    apart.2.2 node member node List.mem_cons_self rfl
  have outside : node ∉ front ++ back := by simp [notFront, notBack]
  cases front using List.reverseRecOn with
  | nil =>
    refine linked_update_outside _ outside ?_
    exact linked.2
  | append_singleton initial ahead _ =>
    refine linked_update_outside _ outside ?_
    have lastIs : (initial ++ [ahead]).getLast? = some ahead := by simp
    rw [List.append_assoc] at linked ⊢
    simpa [bypass, lastIs] using linked_unlink linked

theorem linked_bypass_outside {next : Node → Option Node} {head before : Option Node}
    {nodes : List Node} (outside : node ∉ nodes)
    (ahead : ∀ other, before = some other → other ∉ nodes) (linked : Linked next head nodes) :
    Linked (update (bypass next before node) node none) head nodes := by
  refine linked_update_outside _ outside ?_
  cases before with
  | none => exact linked
  | some other => exact linked_update_outside _ (ahead other rfl) linked

end Updates
end Intrusive

/-!
Intrusive lists linked both ways. `Doubly next prev last before head nodes` says
that `next` leads from `head` through `nodes` to `last`, and that `prev` leads
back from each node to the one ahead of it, from the first to `before`. A whole
list is a stretch from nowhere to nowhere.
-/

namespace Intrusive

open Function

universe u
variable {Node : Type u}

def Doubly (next prev : Node → Option Node) (last : Option Node) :
    Option Node → Option Node → List Node → Prop
  | _, head, [] => head = last
  | before, head, node :: rest =>
    head = some node ∧ prev node = before ∧ Doubly next prev last (some node) (next node) rest

variable {next prev next' prev' : Node → Option Node} {last before head : Option Node}
  {nodes : List Node}

theorem doubly_head (list : Doubly next prev last before head nodes) :
    head = nodes.head?.or last := by
  cases nodes with
  | nil => exact list
  | cons node rest => exact list.1

theorem doubly_linked (list : Doubly next prev none before head nodes) :
    Linked next head nodes := by
  induction nodes generalizing before head with
  | nil => exact list
  | cons node rest ih => exact ⟨list.1, ih list.2.2⟩

theorem doubly_congr (list : Doubly next prev last before head nodes)
    (agree : ∀ node ∈ nodes, next' node = next node ∧ prev' node = prev node) :
    Doubly next' prev' last before head nodes := by
  induction nodes generalizing before head with
  | nil => exact list
  | cons node rest ih =>
    obtain ⟨atNode, back, more⟩ := list
    obtain ⟨sameNext, samePrev⟩ := agree node List.mem_cons_self
    refine ⟨atNode, samePrev.trans back, ?_⟩
    rw [sameNext]
    exact ih more (fun later member => agree later (List.mem_cons_of_mem node member))

theorem doubly_append {front back : List Node} :
    Doubly next prev last before head (front ++ back) ↔
      Doubly next prev (back.head?.or last) before head front ∧
        Doubly next prev last (front.getLast?.or before) (back.head?.or last) back := by
  induction front generalizing before head with
  | nil =>
    constructor
    · intro list
      have start := doubly_head list
      subst start
      exact ⟨rfl, list⟩
    · rintro ⟨start, list⟩
      have same : head = back.head?.or last := start
      subst same
      exact list
  | cons node rest ih =>
    have final : (node :: rest).getLast?.or before = rest.getLast?.or (some node) := by
      rw [List.getLast?_cons]
      cases rest.getLast? <;> rfl
    rw [final]
    simp only [List.cons_append, Doubly, ih]
    tauto

variable {node : Node}

theorem doubly_neighbours {front back : List Node}
    (list : Doubly next prev none none head (front ++ node :: back)) :
    prev node = front.getLast? ∧ next node = back.head? := by
  obtain ⟨_, _, ahead, rest⟩ := doubly_append.mp list
  exact ⟨by simpa using ahead, by simpa using doubly_head rest⟩

theorem doubly_rehead (list : Doubly next prev last before head nodes) (nodup : nodes.Nodup)
    {ahead : Option Node}
    (told : ∀ node, nodes.head? = some node → prev' node = ahead)
    (others : ∀ node ∈ nodes, nodes.head? ≠ some node → prev' node = prev node) :
    Doubly next prev' last ahead head nodes := by
  cases nodes with
  | nil => exact list
  | cons node rest =>
    have absent := (List.nodup_cons.mp nodup).1
    refine ⟨list.1, told node rfl, doubly_congr list.2.2 ?_⟩
    intro later member
    refine ⟨rfl, others later (List.mem_cons_of_mem node member) ?_⟩
    intro same
    rw [← Option.some.inj same] at member
    exact absent member

variable [DecidableEq Node]

theorem doubly_relast {front : List Node} {final : Node} (beyond : Option Node)
    (list : Doubly next prev last before head (front ++ [final])) (fresh : final ∉ front) :
    Doubly (update next final beyond) prev beyond before head (front ++ [final]) := by
  rw [doubly_append] at list ⊢
  obtain ⟨start, atFinal, back, _⟩ := list
  refine ⟨doubly_congr start ?_, atFinal, back, ?_⟩
  · intro node member
    have different : node ≠ final := fun same => fresh (same ▸ member)
    exact ⟨update_of_ne different _ _, rfl⟩
  · exact update_self final beyond next

theorem doubly_push (list : Doubly next prev none none head nodes)
    (fresh : node ∉ nodes) (told : ∀ first, head = some first → prev' first = some node)
    (here : prev' node = none)
    (others : ∀ other ∈ nodes, head ≠ some other → prev' other = prev other) :
    Doubly (update next node head) prev' none none (some node) (node :: nodes) := by
  have nodup := linked_nodup (doubly_linked list)
  have start : head = nodes.head? := by simpa using doubly_head list
  refine ⟨rfl, here, ?_⟩
  rw [update_self]
  have moved : Doubly next prev' none (some node) head nodes := by
    refine doubly_rehead list nodup ?_ ?_
    · intro first isFirst
      exact told first (start.trans isFirst)
    · intro other member notFirst
      exact others other member (by rwa [start])
  refine doubly_congr moved ?_
  intro other member
  have different : other ≠ node := fun same => fresh (same ▸ member)
  exact ⟨update_of_ne different _ _, rfl⟩

theorem doubly_remove {front back : List Node}
    (list : Doubly next prev none none head (front ++ node :: back)) :
    Doubly (bypass next (prev node) node) (bypass prev (next node) node) none none
      (if prev node = none then next node else head) (front ++ back) := by
  have nodup := linked_nodup (doubly_linked list)
  obtain ⟨ahead, behind⟩ := doubly_neighbours list
  obtain ⟨start, _, _, rest⟩ := doubly_append.mp list
  have apart := List.nodup_append.mp nodup
  have nodupBack : back.Nodup := (List.nodup_cons.mp apart.2.1).2
  -- the part behind the node, now led back past it
  have tail : Doubly next (bypass prev (next node) node) none (prev node) (next node) back := by
    refine doubly_rehead rest nodupBack ?_ ?_
    · intro first isFirst
      rw [behind, isFirst, bypass, update_self]
    · intro other _ notFirst
      rw [behind]
      cases isFirst : back.head? with
      | none => rfl
      | some first =>
        have different : other ≠ first := fun same => notFirst (by rw [isFirst, same])
        exact update_of_ne different _ _
  cases front using List.reverseRecOn with
  | nil =>
    have nobody : prev node = none := ahead
    rw [nobody] at tail
    simpa [nobody, bypass] using tail
  | append_singleton initial final _ =>
    have lastIs : prev node = some final := by simpa using ahead
    have finalFresh : final ∉ initial := by
      have parts := (List.nodup_append.mp apart.1).2.2
      exact fun member => parts final member final (by simp) rfl
    have finalBack : final ∉ back := fun member =>
      apart.2.2 final (by simp) final (List.mem_cons_of_mem node member) rfl
    rw [if_neg (by simp [lastIs]), doubly_append]
    constructor
    · have stretch := doubly_relast (next node) start finalFresh
      rw [lastIs, behind]
      rw [behind] at stretch
      rw [Option.or_none]
      refine doubly_congr stretch ?_
      intro other member
      refine ⟨by rw [bypass, behind], ?_⟩
      cases isFirst : back.head? with
      | none => rfl
      | some first =>
        have inBack : first ∈ back := List.mem_of_head? isFirst
        have different : other ≠ first := fun same =>
          apart.2.2 other member first (List.mem_cons_of_mem node inBack) same
        exact update_of_ne different _ _
    · rw [Option.or_none, Option.or_none, ← ahead, ← behind]
      refine doubly_congr tail ?_
      intro other member
      have different : other ≠ final := fun same => finalBack (same ▸ member)
      exact ⟨by rw [lastIs, bypass, update_of_ne different], rfl⟩

end Intrusive
