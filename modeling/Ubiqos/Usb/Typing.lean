import Mathlib.Data.List.Dedup
import Ubiqos.Lib.Along
import Ubiqos.Lib.Cyclic
import Ubiqos.Usb.Keyboard

/-!
What is typed on the keyboards, told from their own reports, and what comes of
it in the ring. The driver keeps one previous report and one interrupt queue for
all of them, so the two agree only while no second keyboard, no error report and
no forgotten report comes between, and while nothing overtakes a Ctrl-C.
-/

namespace Ubiqos.Usb

open Cyclic Function Machine

/-- Every test of whether a key is down carries this proof. -/
local instance lawful_byte : LawfulBEq Byte := inferInstance

def repeatStroke (b : Board) (k mods : Byte) : List (List Byte) :=
  match navSequence k with
  | some sq => [sq]
  | none => if translate b k mods ≠ 0 then [utf8 (translate b k mods)] else []

def strokeOf (b : Board) (k mods : Byte) : List (List Byte) :=
  if (scrollKey b k mods).isSome then [] else repeatStroke b k mods

def ErrorReport (keys : List Byte) : Prop := ∃ k ∈ keys, k = 1 ∨ k = 2 ∨ k = 3

instance (keys : List Byte) : Decidable (ErrorReport keys) :=
  inferInstanceAs (Decidable (∃ k ∈ keys, _))

def newKeys (before keys : List Byte) : List Byte := keys.filter fun k => k ≠ 0 ∧ k ∉ before

structure Press where
  place : Place
  key : Byte
  began : Time
  due : Time

structure Repeat where
  newest : Option Press
  down : Place → List Byte
  now : Time

/-- The newest key is still down on its keyboard, its time has come, and it has
not been repeating for too long. -/
def Repeat.Clocked (r : Repeat) : Prop :=
  ∃ press, r.newest = some press ∧ press.key ∈ r.down press.place ∧
    (r.now - press.began).toInt ≤ repeatLimit ∧ 0 ≤ (r.now - press.due).toInt

/-- The driver beside the keyboards: the keys every keyboard has down by its own
reports, the key pressed last, and all that was typed, handled and read so far. -/
structure World where
  host : Host
  down : Place → List Byte
  newest : Option Press
  typed : List (List Byte)
  notes : List Note
  taken : List Byte
  repeats : List Repeat

def Fires (now : Time) (h : Host) : Prop :=
  h.repeatKey ≠ 0 ∧ (now - h.repeatBegan).toInt ≤ repeatLimit ∧ 0 ≤ (now - h.repeatDue).toInt

instance (now : Time) (h : Host) : Decidable (Fires now h) :=
  inferInstanceAs (Decidable (_ ∧ _))

def World.types (b : Board) (w : World) (place : Place) (report : List Byte) (now : Time)
    (next : World) : World :=
  if ErrorReport (keysOf report) then next
  else
    let fresh := (newKeys (w.down place) (keysOf report)).dedup
    { next with
      down := update w.down place (keysOf report)
      typed := w.typed ++ fresh.flatMap fun k => strokeOf b k (modsOf report)
      newest :=
        match (fresh.filter fun k => !(scrollKey b k (modsOf report)).isSome).getLast? with
        | some k => some ⟨place, k, now, now + repeatDelay⟩
        | none => w.newest }

def World.step (b : Board) (w : World) (input : Input) : World :=
  let result := Usb.step b w.host input
  let next := { w with
    host := result.1
    notes := w.notes ++ result.2.1
    taken := w.taken ++ result.2.2 }
  match input with
  | .report place keyboard _ report now =>
    if 8 ≤ report.length ∧ keyboard then w.types b place report now next else next
  | .tick now =>
    if Fires now w.host then
      let strokes := repeatStroke b w.host.repeatKey w.host.repeatMods
      { next with
        typed := w.typed ++ strokes
        newest := w.newest.map fun press => { press with due := now + repeatRate }
        repeats := w.repeats ++ strokes.map fun _ => ⟨w.newest, w.down, now⟩ }
    else next
  | .hidMount place _ _ => { next with down := update w.down place [] }
  | .hidUmount place => { next with down := update w.down place [] }
  | .umount addr => { next with down := fun place => if place.1 = addr then [] else w.down place }
  | _ => next

def Note.bytes : Note → List Byte
  | .pushed bytes => bytes
  | .lost bytes _ => bytes
  | .consumed => [ctrlC]

def Note.entered : Note → List Byte
  | .pushed bytes => bytes
  | _ => []

def Host.queued (h : Host) : List Byte :=
  contents keysSize h.keys h.tail (held keysSize h.head h.tail)

def Host.waiting (h : Host) : Nat := h.evq.count .intr

/-- Every stroke came to the ring or found it too full, once and in the order
typed, but for the Ctrl-C's that still wait; the ring holds the strokes that
came, whole, less what was read; and every repeat was due. -/
structure Delivered (w : World) : Prop where
  order : w.notes.map Note.bytes ++ List.replicate w.host.waiting [ctrlC] = w.typed
  ring : w.taken ++ w.host.queued = w.notes.flatMap Note.entered
  full : ∀ bytes free, Note.lost bytes free ∈ w.notes → free < bytes.length
  repeats : ∀ r ∈ w.repeats, r.Clocked

def InOrder : Nat → List (List Byte) → Prop
  | _, [] => True
  | n, stroke :: rest => if stroke = [ctrlC] then InOrder (n + 1) rest else n = 0 ∧ InOrder 0 rest

instance InOrder.decidable : (n : Nat) → (strokes : List (List Byte)) → Decidable (InOrder n strokes)
  | _, [] => isTrue trivial
  | n, stroke :: rest =>
    have : Decidable (InOrder (n + 1) rest) := InOrder.decidable _ _
    have : Decidable (InOrder 0 rest) := InOrder.decidable _ _
    if same : stroke = [ctrlC] then
      decidable_of_iff (InOrder (n + 1) rest) (by rw [InOrder, if_pos same])
    else decidable_of_iff (n = 0 ∧ InOrder 0 rest) (by rw [InOrder, if_neg same])

def Passes (h : Host) (strokes : List (List Byte)) (events : Nat) : Prop :=
  InOrder h.waiting strokes ∧ ([ctrlC] ∈ strokes → h.evq.length + events < evqSize)

def Agrees (b : Board) (w : World) (place : Place) (report : List Byte) : Prop :=
  if ErrorReport (keysOf report) then
    ∀ k ∈ newKeys w.host.was (keysOf report), ∀ mods, repeatStroke b k mods = []
  else
    newKeys w.host.was (keysOf report) = newKeys (w.down place) (keysOf report) ∧
      (newKeys (w.down place) (keysOf report)).Nodup

def Orderly (b : Board) (w : World) : Input → Prop
  | .report place keyboard _ report _ => 8 ≤ report.length ∧ keyboard →
      Agrees b w place report ∧
        Passes w.host
          ((newKeys w.host.was (keysOf report)).flatMap fun k => strokeOf b k (modsOf report))
          (2 * (newKeys w.host.was (keysOf report)).length)
  | .tick now => Fires now w.host →
      Passes w.host (repeatStroke b w.host.repeatKey w.host.repeatMods) 1
  | _ => True

instance (h : Host) (strokes : List (List Byte)) (events : Nat) :
    Decidable (Passes h strokes events) :=
  inferInstanceAs (Decidable (_ ∧ _))

instance (b : Board) (w : World) (place : Place) (report : List Byte) :
    Decidable (Agrees b w place report) :=
  if error : ErrorReport (keysOf report) then
    decidable_of_iff (∀ k ∈ newKeys w.host.was (keysOf report), ∀ mods, repeatStroke b k mods = [])
      (by rw [Agrees, if_pos error])
  else
    decidable_of_iff
      (newKeys w.host.was (keysOf report) = newKeys (w.down place) (keysOf report) ∧
        (newKeys (w.down place) (keysOf report)).Nodup)
      (by rw [Agrees, if_neg error])

instance (b : Board) (w : World) : (input : Input) → Decidable (Orderly b w input)
  | .report place keyboard _ report _ =>
    inferInstanceAs (Decidable (8 ≤ report.length ∧ keyboard = true →
      Agrees b w place report ∧ Passes w.host _ _))
  | .tick now => inferInstanceAs (Decidable (Fires now w.host → Passes w.host _ _))
  | .hidMount .. | .hidUmount _ | .mount _ | .umount _ | .cdc _ | .recovered | .drain _ | .read _ =>
    isTrue trivial

section Ring
variable {h : Host}

structure Host.Placed (h : Host) : Prop where
  head : h.head < keysSize
  tail : h.tail < keysSize

theorem freeSlots_eq (placed : h.Placed) : held keysSize h.head h.tail + freeSlots h + 1 = keysSize := by
  have head := placed.head
  have tail := placed.tail
  unfold held freeSlots keysSize at *
  omega

theorem push_queued (placed : h.Placed) (c : Byte) (room : held keysSize h.head h.tail + 1 < keysSize) :
    (push h c).Placed ∧ (push h c).queued = h.queued ++ [c] ∧
      held keysSize (push h c).head (push h c).tail = held keysSize h.head h.tail + 1 ∧
      push h c = { h with keys := (push h c).keys, head := (push h c).head } := by
  have here := head_eq placed.head placed.tail
  have further := held_succ room
  have apart : (h.head + 1) % keysSize ≠ h.tail := by
    intro meets
    rw [meets, held_self placed.tail] at further
    omega
  unfold push
  dsimp only
  rw [if_pos apart]
  refine ⟨⟨Nat.mod_lt _ (by decide), placed.tail⟩, ?_, further, rfl⟩
  unfold Host.queued
  dsimp only
  rw [further]
  have pushed : contents keysSize
      (update h.keys ((h.tail + held keysSize h.head h.tail) % keysSize) c) h.tail
      (held keysSize h.head h.tail + 1) = h.queued ++ [c] := contents_push c (by omega)
  rw [here] at pushed
  exact pushed

theorem pushes_queued (placed : h.Placed) (sq : List Byte)
    (room : held keysSize h.head h.tail + sq.length < keysSize) :
    (sq.foldl push h).Placed ∧ (sq.foldl push h).queued = h.queued ++ sq ∧
      sq.foldl push h =
        { h with keys := (sq.foldl push h).keys, head := (sq.foldl push h).head } := by
  induction sq generalizing h with
  | nil => exact ⟨placed, (List.append_nil _).symm, rfl⟩
  | cons c rest ih =>
    rw [List.length_cons] at room
    obtain ⟨placed₁, queued₁, held₁, frame₁⟩ := push_queued placed c (by omega)
    obtain ⟨placed₂, queued₂, frame₂⟩ := ih placed₁ (by omega)
    rw [List.foldl_cons]
    refine ⟨placed₂, ?_, ?_⟩
    · rw [queued₂, queued₁, List.append_assoc]
      rfl
    · rw [frame₂, frame₁]

theorem read_queued (placed : h.Placed) (n : Nat) :
    (read n h).1.Placed ∧ (read n h).2 ++ (read n h).1.queued = h.queued ∧
      (read n h).1 = { h with tail := (read n h).1.tail } := by
  induction n generalizing h with
  | zero => exact ⟨placed, rfl, rfl⟩
  | succ n ih =>
    rw [read]
    split
    · rename_i some
      have filled : held keysSize h.head h.tail ≠ 0 := by
        intro none
        have meets := head_eq placed.head placed.tail
        rw [none, Nat.add_zero, Nat.mod_eq_of_lt placed.tail] at meets
        exact some meets.symm
      have fewer := held_pred placed.head placed.tail filled
      obtain ⟨placed', queued', frame'⟩ :=
        ih (h := { h with tail := (h.tail + 1) % keysSize })
          ⟨placed.head, Nat.mod_lt _ (by decide)⟩
      refine ⟨placed', ?_, ?_⟩
      · rw [List.cons_append, queued']
        unfold Host.queued
        rw [← fewer, contents_pop _ placed.tail]
      · rw [frame']
    · exact ⟨placed, rfl, rfl⟩

end Ring

def Host.clock (h : Host) : Byte × Time × Time := (h.repeatKey, h.repeatBegan, h.repeatDue)

@[simp] theorem evPush_clock (h : Host) (event : Event) : (evPush h event).clock = h.clock := by
  unfold evPush
  split <;> rfl

section Strokes
variable {b : Board} {h h' h'' : Host} {strokes more : List (List Byte)} {notes later : List Note}

/-- What the driver made of some strokes: handled in order or waiting, and in the
ring whole or not at all. -/
structure Stroked (h : Host) (strokes : List (List Byte)) (h' : Host) (notes : List Note) : Prop where
  placed : h'.Placed
  order : notes.map Note.bytes ++ List.replicate h'.waiting [ctrlC] =
    List.replicate h.waiting [ctrlC] ++ strokes
  queued : h'.queued = h.queued ++ notes.flatMap Note.entered
  full : ∀ bytes free, Note.lost bytes free ∈ notes → free < bytes.length
  waits : h'.waiting = h.waiting + strokes.count [ctrlC]

theorem Stroked.nothing (placed : h.Placed) : Stroked h [] h [] :=
  ⟨placed, (List.append_nil _).symm, (List.append_nil _).symm, by simp, rfl⟩

theorem Stroked.trans (first : Stroked h strokes h' notes) (second : Stroked h' more h'' later) :
    Stroked h (strokes ++ more) h'' (notes ++ later) := by
  refine ⟨second.placed, ?_, ?_, ?_, ?_⟩
  · rw [List.map_append, List.append_assoc, second.order, ← List.append_assoc, first.order,
      List.append_assoc]
  · rw [second.queued, first.queued, List.append_assoc, List.flatMap_append]
  · intro bytes free member
    rcases List.mem_append.mp member with early | late
    · exact first.full bytes free early
    · exact second.full bytes free late
  · rw [second.waits, first.waits, List.count_append, Nat.add_assoc]

theorem evPush_stroked (event : Event) (placed : h.Placed) (other : event ≠ .intr) :
    Stroked h [] (evPush h event) [] := by
  unfold evPush
  split
  · have same : (h.evq ++ [event]).count .intr = h.evq.count .intr := by
      rw [List.count_append, List.count_singleton]
      simp [other]
    refine ⟨⟨placed.head, placed.tail⟩, ?_, (List.append_nil _).symm, by simp, same⟩
    change [] ++ List.replicate ((h.evq ++ [event]).count .intr) [ctrlC] = _
    rw [same]
    exact (List.append_nil _).symm
  · exact .nothing placed

theorem intr_stroked (placed : h.Placed) (room : h.evq.length + 1 < evqSize) :
    Stroked h [[ctrlC]] (evPush h .intr) [] := by
  unfold evPush
  rw [if_pos room]
  have more : (h.evq ++ [Event.intr]).count .intr = h.evq.count .intr + 1 := by
    rw [List.count_append]
    rfl
  refine ⟨⟨placed.head, placed.tail⟩, ?_, (List.append_nil _).symm, by simp, more⟩
  change [] ++ List.replicate ((h.evq ++ [Event.intr]).count .intr) [ctrlC] = _
  rw [more, List.replicate_succ']
  rfl

theorem pushLocked_spec (placed : h.Placed) (sq : List Byte) :
    (pushLocked h sq).1.Placed ∧ (pushLocked h sq).2.bytes = sq ∧
      (pushLocked h sq).1.queued = h.queued ++ (pushLocked h sq).2.entered ∧
      (∀ bytes free, (pushLocked h sq).2 = .lost bytes free → free < bytes.length) ∧
      (pushLocked h sq).1 =
        { h with keys := (pushLocked h sq).1.keys, head := (pushLocked h sq).1.head } := by
  have free := freeSlots_eq placed
  unfold pushLocked
  split
  · rename_i room
    obtain ⟨placed', queued, frame⟩ := pushes_queued placed sq (by omega)
    exact ⟨placed', rfl, queued, by simp, frame⟩
  · rename_i lacks
    refine ⟨placed, rfl, (List.append_nil _).symm, ?_, rfl⟩
    intro bytes free' lost
    simp only [Note.lost.injEq] at lost
    rw [← lost.1, ← lost.2]
    exact Nat.not_le.mp lacks

theorem pushLocked_stroked (placed : h.Placed) {sq : List Byte} (other : sq ≠ [ctrlC])
    (first : h.waiting = 0) : Stroked h [sq] (pushLocked h sq).1 [(pushLocked h sq).2] := by
  obtain ⟨placed', bytes, queued, full, frame⟩ := pushLocked_spec placed sq
  have waiting : (pushLocked h sq).1.waiting = 0 := by
    rw [frame]
    exact first
  have none : [sq].count [ctrlC] = 0 := by
    simp [other]
  refine ⟨placed', ?_, ?_, ?_, ?_⟩
  · rw [waiting, first, List.map_singleton, bytes]
    rfl
  · rw [List.flatMap_singleton]
    exact queued
  · intro bytes free member
    exact full bytes free (List.mem_singleton.mp member).symm
  · rw [waiting, first, none]

theorem pushLocked_clock (h : Host) (sq : List Byte) (placed : h.Placed) :
    (pushLocked h sq).1.clock = h.clock := by
  rw [(pushLocked_spec placed sq).2.2.2.2]
  rfl

theorem emit_clock (h : Host) (c : Byte) (placed : h.Placed) : (emit h c).1.clock = h.clock := by
  unfold emit
  split
  · exact evPush_clock h _
  · exact pushLocked_clock h _ placed

theorem evPush_evq_le (h : Host) (event : Event) : (evPush h event).evq.length ≤ h.evq.length + 1 := by
  unfold evPush
  split
  · simp
  · exact Nat.le_succ _

theorem pushLocked_evq (h : Host) (sq : List Byte) (placed : h.Placed) :
    (pushLocked h sq).1.evq = h.evq := by
  rw [(pushLocked_spec placed sq).2.2.2.2]

theorem navSequence_ne {k : Byte} {sq : List Byte} (nav : navSequence k = some sq) :
    sq ≠ [ctrlC] := by
  unfold navSequence at nav
  intro same
  subst same
  repeat' split at nav
  all_goals exact absurd nav (by decide)

theorem utf8_eq (c : Byte) : utf8 c = [ctrlC] ↔ c = ctrlC := by
  unfold utf8
  split
  · simp
  · rename_i wide
    refine iff_of_false (by simp) ?_
    rintro rfl
    exact wide (by decide)

theorem emit_stroked (placed : h.Placed) {c : Byte} (passes : InOrder h.waiting [utf8 c])
    (room : c = ctrlC → h.evq.length + 1 < evqSize) :
    Stroked h [utf8 c] (emit h c).1 (emit h c).2 := by
  unfold emit
  split
  · rename_i key
    rw [(utf8_eq c).mpr key]
    exact intr_stroked placed (room key)
  · rename_i other
    have plain : utf8 c ≠ [ctrlC] := fun same => other ((utf8_eq c).mp same)
    rw [InOrder, if_neg plain] at passes
    exact pushLocked_stroked placed plain passes.1

theorem inOrder_append {n : Nat} (inOrder : InOrder n (strokes ++ more)) :
    InOrder n strokes ∧ InOrder (n + strokes.count [ctrlC]) more := by
  induction strokes generalizing n with
  | nil => exact ⟨trivial, inOrder⟩
  | cons stroke rest ih =>
    rw [List.cons_append, InOrder] at inOrder
    by_cases key : stroke = [ctrlC]
    · rw [if_pos key] at inOrder
      obtain ⟨front, back⟩ := ih inOrder
      have more : n + (stroke :: rest).count [ctrlC] = n + 1 + rest.count [ctrlC] := by
        rw [key, List.count_cons_self]
        omega
      rw [InOrder, if_pos key, more]
      exact ⟨front, back⟩
    · rw [if_neg key] at inOrder
      obtain ⟨none, after⟩ := inOrder
      obtain ⟨front, back⟩ := ih after
      rw [InOrder, if_neg key, List.count_cons_of_ne key, none]
      exact ⟨⟨rfl, front⟩, back⟩

theorem Stroked.settle (stroked : Stroked h strokes h' notes) (keys : h''.keys = h'.keys)
    (head : h''.head = h'.head) (tail : h''.tail = h'.tail) (evq : h''.evq = h'.evq) :
    Stroked h strokes h'' notes := by
  have waiting : h''.waiting = h'.waiting := by rw [Host.waiting, evq, Host.waiting]
  have queued : h''.queued = h'.queued := by rw [Host.queued, keys, head, tail, Host.queued]
  refine ⟨⟨head ▸ stroked.placed.head, tail ▸ stroked.placed.tail⟩, ?_, ?_, stroked.full, ?_⟩
  · rw [waiting]
    exact stroked.order
  · rw [queued]
    exact stroked.queued
  · rw [waiting]
    exact stroked.waits

theorem scrollToLive_stroked (placed : h.Placed) (b : Board) :
    Stroked h [] (scrollToLive b h) [] ∧ (scrollToLive b h).evq.length ≤ h.evq.length + 1 := by
  unfold scrollToLive
  split
  · exact ⟨evPush_stroked _ placed (by decide), evPush_evq_le _ _⟩
  · exact ⟨.nothing placed, Nat.le_succ _⟩

theorem send_stroked (placed : h.Placed) (k mods : Byte)
    (passes : InOrder h.waiting (repeatStroke b k mods))
    (room : [ctrlC] ∈ repeatStroke b k mods → h.evq.length + 1 < evqSize) :
    Stroked h (repeatStroke b k mods)
      (match navSequence k with
        | some sq => ((pushLocked h sq).1, [(pushLocked h sq).2])
        | none => if translate b k mods ≠ 0 then emit h (translate b k mods) else (h, [])).1
      (match navSequence k with
        | some sq => ((pushLocked h sq).1, [(pushLocked h sq).2])
        | none => if translate b k mods ≠ 0 then emit h (translate b k mods) else (h, [])).2 := by
  unfold repeatStroke at *
  cases nav : navSequence k with
  | some sq =>
    rw [nav] at passes
    dsimp only at passes
    rw [InOrder, if_neg (navSequence_ne nav)] at passes
    exact pushLocked_stroked placed (navSequence_ne nav) passes.1
  | none =>
    rw [nav] at passes room
    dsimp only at passes room ⊢
    split
    · rename_i some
      rw [if_pos some] at passes room
      exact emit_stroked placed passes (fun key => room (by rw [(utf8_eq _).mpr key]; simp))
    · exact .nothing placed

theorem pressKey_stroked (placed : h.Placed) (k mods : Byte) (now : Time)
    (passes : InOrder h.waiting (strokeOf b k mods))
    (room : [ctrlC] ∈ strokeOf b k mods → h.evq.length + 2 < evqSize) :
    Stroked h (strokeOf b k mods) (pressKey b mods now h k).1 (pressKey b mods now h k).2 := by
  unfold strokeOf at *
  unfold pressKey
  cases scroll : scrollKey b k mods with
  | some view => exact evPush_stroked _ placed (by simp)
  | none =>
    rw [scroll] at passes room
    dsimp only [Option.isSome] at passes room ⊢
    rw [if_neg (by simp)] at passes room ⊢
    obtain ⟨live, longer⟩ := scrollToLive_stroked placed b
    have same : (scrollToLive b h).waiting = h.waiting := live.waits
    have sent := send_stroked (b := b) live.placed k mods (same ▸ passes)
      (fun member => by have := room member; omega)
    have typed := live.trans sent
    cases nav : navSequence k with
    | some sq =>
      simp only [nav] at typed ⊢
      exact typed.settle rfl rfl rfl rfl
    | none =>
      simp only [nav] at typed ⊢
      by_cases some : translate b k mods ≠ 0
      · simp only [if_pos some] at typed ⊢
        exact typed.settle rfl rfl rfl rfl
      · have nothing : repeatStroke b k mods = [] := by
          rw [repeatStroke, nav]
          exact if_neg some
        rw [nothing]
        simp only [if_neg some]
        exact (Stroked.nothing placed).settle rfl rfl rfl rfl

theorem pressKey_evq_le (placed : h.Placed) (k mods : Byte) (now : Time) :
    (pressKey b mods now h k).1.evq.length ≤ h.evq.length + 2 := by
  obtain ⟨live, longer⟩ := scrollToLive_stroked placed b
  unfold pressKey
  cases scroll : scrollKey b k mods with
  | some view => exact (evPush_evq_le _ _).trans (Nat.le_succ _)
  | none =>
    cases nav : navSequence k with
    | some sq =>
      dsimp only
      rw [pushLocked_evq _ _ live.placed]
      omega
    | none =>
      dsimp only
      split
      · unfold emit
        split
        · exact (evPush_evq_le _ _).trans (Nat.succ_le_succ longer)
        · dsimp only
          rw [pushLocked_evq _ _ live.placed]
          omega
      · exact Nat.le_add_right _ _

theorem newKeys_old {was rest : List Byte} {k : Byte} (old : k = 0 ∨ k ∈ was) :
    newKeys was (k :: rest) = newKeys was rest := by
  unfold newKeys
  rw [List.filter_cons_of_neg]
  simpa [imp_iff_not_or] using old

theorem newKeys_fresh {was rest : List Byte} {k : Byte} (fresh : ¬ (k = 0 ∨ k ∈ was)) :
    newKeys was (k :: rest) = k :: newKeys was rest := by
  unfold newKeys
  rw [List.filter_cons_of_pos]
  simpa [not_or] using fresh

theorem pressKeys_stroked (placed : h.Placed) (mods : Byte) (now : Time) (was keys : List Byte)
    (passes : Passes h ((newKeys was keys).flatMap fun k => strokeOf b k mods)
      (2 * (newKeys was keys).length)) :
    Stroked h ((newKeys was keys).flatMap fun k => strokeOf b k mods)
      (pressKeys b mods now was keys h).1 (pressKeys b mods now was keys h).2 := by
  induction keys generalizing h with
  | nil => exact .nothing placed
  | cons k rest ih =>
    rw [pressKeys]
    by_cases old : k = 0 ∨ k ∈ was
    · rw [newKeys_old old] at passes ⊢
      rw [if_pos old]
      exact ih placed passes
    · rw [newKeys_fresh old, List.flatMap_cons, List.length_cons] at passes
      rw [newKeys_fresh old, List.flatMap_cons, if_neg old]
      obtain ⟨inOrder, room⟩ := passes
      obtain ⟨front, back⟩ := inOrder_append inOrder
      have first := pressKey_stroked placed k mods now front
        (fun member => by have := room (List.mem_append_left _ member); omega)
      have longer := pressKey_evq_le (b := b) placed k mods now
      rw [← first.waits] at back
      exact first.trans (ih first.placed
        ⟨back, fun member => by have := room (List.mem_append_right _ member); omega⟩)

theorem pressKey_clock (h : Host) (k mods : Byte) (now : Time) :
    (pressKey b mods now h k).1.clock =
      if (scrollKey b k mods).isSome then h.clock else (k, now, now + repeatDelay) := by
  unfold pressKey
  cases scroll : scrollKey b k mods with
  | some view => exact evPush_clock h _
  | none => rfl

def clockOf (b : Board) (mods : Byte) (now : Time) (fresh : List Byte) : Option (Byte × Time × Time) :=
  ((fresh.filter fun k => !(scrollKey b k mods).isSome).getLast?).map
    fun k => (k, now, now + repeatDelay)

theorem clockOf_cons (k mods : Byte) (now : Time) (fresh : List Byte) (before : Byte × Time × Time) :
    (clockOf b mods now (k :: fresh)).getD before =
      (clockOf b mods now fresh).getD
        (if (scrollKey b k mods).isSome then before else (k, now, now + repeatDelay)) := by
  unfold clockOf
  by_cases scroll : (scrollKey b k mods).isSome = true
  · rw [List.filter_cons_of_neg (by simp [scroll]), if_pos scroll]
  · rw [List.filter_cons_of_pos (by simp [scroll]), if_neg scroll]
    cases fresh.filter fun k => !(scrollKey b k mods).isSome with
    | nil => rfl
    | cons d more =>
      rw [List.getLast?_cons_cons, List.getLast?_eq_some_getLast (List.cons_ne_nil d more)]
      rfl

theorem clockOf_some {mods : Byte} {now : Time} {fresh : List Byte} {clock : Byte × Time × Time}
    (set : clockOf b mods now fresh = some clock) :
    ∃ k ∈ fresh, clock = (k, now, now + repeatDelay) := by
  obtain ⟨k, last, rfl⟩ := Option.map_eq_some_iff.mp set
  exact ⟨k, List.mem_of_mem_filter (List.mem_of_getLast? last), rfl⟩

theorem pressKeys_clock (mods : Byte) (now : Time) (was keys : List Byte) (h : Host) :
    (pressKeys b mods now was keys h).1.clock =
      (clockOf b mods now (newKeys was keys)).getD h.clock := by
  induction keys generalizing h with
  | nil => rfl
  | cons k rest ih =>
    rw [pressKeys]
    by_cases old : k = 0 ∨ k ∈ was
    · rw [if_pos old, newKeys_old old]
      exact ih h
    · rw [if_neg old, newKeys_fresh old, clockOf_cons, ← pressKey_clock]
      exact ih _

theorem letGo_settles (mods : Byte) (keys : List Byte) (h : Host) :
    (letGo mods keys h).keys = h.keys ∧ (letGo mods keys h).head = h.head ∧
      (letGo mods keys h).tail = h.tail ∧ (letGo mods keys h).evq = h.evq := by
  unfold letGo
  split
  · split <;> exact ⟨rfl, rfl, rfl, rfl⟩
  · exact ⟨rfl, rfl, rfl, rfl⟩

theorem letGo_clock (mods : Byte) (keys : List Byte) (h : Host)
    (repeats : (letGo mods keys h).repeatKey ≠ 0) :
    h.repeatKey ∈ keys ∧ (letGo mods keys h).clock = h.clock := by
  unfold letGo at *
  split at repeats
  · rename_i some
    rw [if_pos some]
    split at repeats
    · rename_i still
      rw [if_pos still]
      exact ⟨still, rfl⟩
    · exact absurd rfl repeats
  · rename_i none
    exact absurd (not_not.mp none) repeats

theorem hidWant_stroked (placed : h.Placed) (place : Place) (noSlot : Bool) :
    Stroked h [] (hidWant place noSlot h) [] := by
  unfold hidWant
  split
  · exact evPush_stroked _ placed (by simp)
  · exact .nothing placed

@[simp] theorem hidWant_clock (place : Place) (noSlot : Bool) (h : Host) :
    (hidWant place noSlot h).clock = h.clock := by
  unfold hidWant
  split
  · exact evPush_clock _ _
  · rfl

theorem reportKeys_stroked (placed : h.Placed) (report : List Byte) (now : Time)
    (passes : Passes h ((newKeys h.was (keysOf report)).flatMap fun k => strokeOf b k (modsOf report))
      (2 * (newKeys h.was (keysOf report)).length)) :
    Stroked h ((newKeys h.was (keysOf report)).flatMap fun k => strokeOf b k (modsOf report))
      (reportKeys b report now h).1 (reportKeys b report now h).2 := by
  obtain ⟨keys, head, tail, evq⟩ := letGo_settles (modsOf report) (keysOf report)
    (pressKeys b (modsOf report) now h.was (keysOf report) h).1
  exact (pressKeys_stroked placed _ now _ _ passes).settle keys head tail evq

theorem reportKeys_clock (report : List Byte) (now : Time) (h : Host)
    (repeats : (reportKeys b report now h).1.repeatKey ≠ 0) :
    (reportKeys b report now h).1.repeatKey ∈ keysOf report ∧
      (reportKeys b report now h).1.clock =
        (clockOf b (modsOf report) now (newKeys h.was (keysOf report))).getD h.clock := by
  obtain ⟨still, clock⟩ := letGo_clock _ _ _ repeats
  rw [pressKeys_clock] at clock
  refine ⟨?_, clock⟩
  have same : (reportKeys b report now h).1.repeatKey =
      (pressKeys b (modsOf report) now h.was (keysOf report) h).1.repeatKey :=
    congrArg Prod.fst (letGo_clock _ _ _ repeats).2
  rw [same]
  exact still

end Strokes

end Ubiqos.Usb
