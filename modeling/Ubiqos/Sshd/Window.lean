import Ubiqos.Sshd.Session
import Mathlib.Algebra.BigOperators.Group.List.Basic

/-!
What a session has typed, given, credited and sent, counted from what it did. A
byte that the client sent is with the shell, in `tosh` or ended a command; `Moves`
says so for one step, `feed_shell` and `queue_input` first.
-/

namespace Ubiqos.Sshd

namespace Event

@[simp] def kept : Event → List Byte
  | typed _ kept => kept
  | _ => []

@[simp] def given : Event → List Byte
  | wrote bytes => bytes
  | _ => []

@[simp] def used : Event → Nat
  | typed d _ => d.length
  | _ => 0

@[simp] def credited : Event → Nat
  | sent (.windowAdjust _ given) => given
  | _ => 0

@[simp] def carried : Event → Nat
  | sent (.channelData _ data) => data.length
  | _ => 0

@[simp] def allowed : Event → Nat
  | opened window => window
  | granted more => more
  | _ => 0

@[simp] def opens : Event → Bool
  | opened _ => true
  | _ => false

end Event

namespace Session

def kept (es : List Event) : List Byte := es.flatMap Event.kept

def given (es : List Event) : List Byte := es.flatMap Event.given

def used (es : List Event) : Nat := (es.map Event.used).sum

def credited (es : List Event) : Nat := (es.map Event.credited).sum

def carried (es : List Event) : Nat := (es.map Event.carried).sum

def allowed (es : List Event) : Nat := (es.map Event.allowed).sum

def opened (es : List Event) : Bool := es.any Event.opens

def clientWindow (es : List Event) : Nat := CHAN_WINDOW + credited es - used es

def Told (es : List Event) : Prop :=
  ∀ pre rows cols bytes post, es = pre ++ .report rows cols bytes :: post →
    bytes = size_report rows cols ∧ given pre = kept pre

section Sums
variable {e : Event} {es out : List Event}

@[simp] theorem kept_append : kept (es ++ out) = kept es ++ kept out := List.flatMap_append
@[simp] theorem given_append : given (es ++ out) = given es ++ given out := List.flatMap_append
@[simp] theorem used_append : used (es ++ out) = used es + used out := by simp [used]
@[simp] theorem credited_append : credited (es ++ out) = credited es + credited out := by
  simp [credited]
@[simp] theorem carried_append : carried (es ++ out) = carried es + carried out := by simp [carried]
@[simp] theorem allowed_append : allowed (es ++ out) = allowed es + allowed out := by simp [allowed]
@[simp] theorem opened_append : opened (es ++ out) = (opened es || opened out) := by simp [opened]

@[simp] theorem kept_cons : kept (e :: es) = e.kept ++ kept es := rfl
@[simp] theorem given_cons : given (e :: es) = e.given ++ given es := rfl
@[simp] theorem used_cons : used (e :: es) = e.used + used es := by simp [used]
@[simp] theorem credited_cons : credited (e :: es) = e.credited + credited es := by simp [credited]
@[simp] theorem carried_cons : carried (e :: es) = e.carried + carried es := by simp [carried]
@[simp] theorem allowed_cons : allowed (e :: es) = e.allowed + allowed es := by simp [allowed]
@[simp] theorem opened_cons : opened (e :: es) = (e.opens || opened es) := rfl

@[simp] theorem kept_nil : kept [] = [] := rfl
@[simp] theorem given_nil : given [] = [] := rfl
@[simp] theorem used_nil : used [] = 0 := rfl
@[simp] theorem credited_nil : credited [] = 0 := rfl
@[simp] theorem carried_nil : carried [] = 0 := rfl
@[simp] theorem allowed_nil : allowed [] = 0 := rfl
@[simp] theorem opened_nil : opened [] = false := rfl

end Sums

/-- Every byte that was queued or came in is given, queued or counted, and a
report comes after all that was queued. -/
structure Moves (s s' : Session) (out : List Event) : Prop where
  order : given out ++ s'.tosh = s.tosh ++ kept out
  window : s'.place ≠ .ended →
    credited out + s'.tosh.length + s'.intr_bytes = used out + s.tosh.length + s.intr_bytes
  told : ∀ pre rows cols bytes post, out = pre ++ .report rows cols bytes :: post →
    bytes = size_report rows cols ∧ given pre = s.tosh ++ kept pre

def Aside (e : Event) : Prop :=
  e.kept = [] ∧ e.given = [] ∧ e.used = 0 ∧ e.credited = 0 ∧ ∀ rows cols bytes, e ≠ .report rows cols bytes

section Asides
variable {s s' : Session} {out : List Event}

theorem asides (all : ∀ e ∈ out, Aside e) :
    kept out = [] ∧ given out = [] ∧ used out = 0 ∧ credited out = 0 := by
  induction out with
  | nil => exact ⟨rfl, rfl, rfl, rfl⟩
  | cons e rest ih =>
    obtain ⟨kept, given, used, credited, _⟩ := all e List.mem_cons_self
    obtain ⟨kept', given', used', credited'⟩ := ih (fun e later => all e (List.mem_cons_of_mem _ later))
    rw [kept_cons, given_cons, used_cons, credited_cons, kept, given, used, credited, kept', given', used',
      credited']
    exact ⟨rfl, rfl, rfl, rfl⟩

theorem Moves.aside (tosh : s'.tosh = s.tosh) (intr : s'.intr_bytes = s.intr_bytes)
    (all : ∀ e ∈ out, Aside e) : Moves s s' out := by
  obtain ⟨kept, given, used, credited⟩ := asides all
  constructor
  · simp [kept, given, tosh]
  · intro _
    simp [used, credited, tosh, intr]
  · intro pre rows cols bytes post split
    exact absurd rfl ((all _ (by simp [split])).2.2.2.2 rows cols bytes)

variable {q : Session}

theorem Moves.start (tosh : q.tosh = s.tosh) (intr : q.intr_bytes = s.intr_bytes)
    (moves : Moves q s' out) : Moves s s' out where
  order := by rw [← tosh]; exact moves.order
  window := by rw [← tosh, ← intr]; exact moves.window
  told := by rw [← tosh]; exact moves.told

theorem Moves.refl (s : Session) : Moves s s [] := Moves.aside rfl rfl (by simp)

theorem Moves.cons {e : Event} (order : e.given ++ q.tosh = s.tosh ++ e.kept)
    (window : e.credited + q.tosh.length + q.intr_bytes = e.used + s.tosh.length + s.intr_bytes)
    (told : ∀ rows cols bytes, e = .report rows cols bytes → bytes = size_report rows cols ∧ s.tosh = [])
    (moves : Moves q s' out) : Moves s s' (e :: out) := by
  constructor
  · simp only [given_cons, kept_cons, List.append_assoc]
    rw [moves.order, ← List.append_assoc, order, List.append_assoc]
  · intro live
    have later := moves.window live
    simp only [credited_cons, used_cons]
    omega
  · intro pre rows cols bytes post split
    cases pre with
    | nil =>
      simp only [List.nil_append, List.cons.injEq] at split
      obtain ⟨whole, empty⟩ := told rows cols bytes split.1
      exact ⟨whole, by simp [empty]⟩
    | cons first pre =>
      simp only [List.cons_append, List.cons.injEq] at split
      obtain ⟨rfl, later⟩ := split
      obtain ⟨whole, before⟩ := moves.told pre rows cols bytes post later
      refine ⟨whole, ?_⟩
      simp only [given_cons, kept_cons]
      rw [before, ← List.append_assoc, order, List.append_assoc]

theorem Moves.heard {d rest : List Byte} (tosh : q.tosh = s.tosh ++ rest)
    (intr : q.intr_bytes + rest.length = s.intr_bytes + d.length) (moves : Moves q s' out) :
    Moves s s' (.typed d rest :: out) := by
  apply moves.cons
  · exact tosh
  · simp only [Event.credited, Event.used, tosh, List.length_append]
    omega
  · simp

end Asides

section Queue
variable {s : Session} {m : Moment}

theorem queue_input_all (d : List Byte) (answers : List Bool)
    (room : s.tosh.length + d.length ≤ CHAN_WINDOW) :
    ∃ intr echo, s.queue_input d answers =
        { s with tosh := s.tosh ++ spared d answers, intr_bytes := intr, intr_echo := echo } ∧
      intr + (spared d answers).length = s.intr_bytes + d.length := by
  induction d generalizing s answers with
  | nil => exact ⟨s.intr_bytes, s.intr_echo, by simp [queue_input, spared], by simp [spared]⟩
  | cons c d ih =>
    simp only [List.length_cons] at room
    by_cases ended : consumed c answers = true
    · obtain ⟨intr, echo, same, count⟩ :=
        ih (s := { s with intr_bytes := s.intr_bytes + 1, intr_echo := true }) answers.tail
          (by simp only; omega)
      refine ⟨intr, echo, ?_, ?_⟩
      · simp only [queue_input, spared, if_pos ended, same]
      · simp only [spared, if_pos ended, List.length_cons] at count ⊢
        omega
    · obtain ⟨intr, echo, same, count⟩ := ih (s := { s with tosh := s.tosh ++ [c] }) answers.tail
        (by simp only [List.length_append, List.length_singleton]; omega)
      have space : ¬ CHAN_WINDOW ≤ s.tosh.length := by omega
      refine ⟨intr, echo, ?_, ?_⟩
      · simp only [queue_input, spared, if_neg ended, if_neg space, same, List.append_assoc,
          List.singleton_append]
      · simp only [spared, if_neg ended, List.length_cons] at count ⊢
        omega

theorem pour_all (tosh : List Byte) (ends : List PipeEnd) :
    (pour tosh ends).1 ++ (pour tosh ends).2 = tosh := by
  induction ends generalizing tosh with
  | nil => cases tosh <;> rfl
  | cons e ends ih =>
    cases tosh with
    | nil => rfl
    | cons c rest =>
      simp only [pour]
      split
      · rfl
      · simp only [List.append_assoc, ih]
        exact List.take_append_drop _ _

def Whole (m : Moment) (s : Session) : Prop :=
  s.size_pending = true → ∀ room ∈ m.pipe,
    room = 0 ∨ (size_report s.size_rows s.size_cols).length ≤ room

instance (m : Moment) (s : Session) : Decidable (Whole m s) := inferInstanceAs (Decidable (_ → _))

theorem write_some_whole {e : PipeEnd} {bytes : List Byte}
    (whole : ∀ room ∈ e, room = 0 ∨ bytes.length ≤ room) (some : ¬ write_some e bytes.length ≤ 0) :
    bytes.take (write_some e bytes.length).toNat = bytes := by
  cases e with
  | none =>
    simp only [write_some] at some
    split at some <;> simp at some
  | some room =>
    simp only [write_some] at some ⊢
    split at some
    · simp at some
    · rename_i wanted
      rw [if_neg wanted]
      rcases whole room rfl with none | enough
      · omega
      · apply List.take_of_length_le
        omega

theorem tell_size_cases (whole : Whole m s) :
    ∃ pending, (tell_size m s).1 = { s with size_pending := pending } ∧
      ((tell_size m s).2 = [] ∨ s.tosh = [] ∧
        (tell_size m s).2 = [.report s.size_rows s.size_cols (size_report s.size_rows s.size_cols)]) := by
  simp only [tell_size]
  split
  · rename_i due
    simp only [Bool.and_eq_true, List.isEmpty_iff] at due
    refine ⟨_, rfl, ?_⟩
    split
    · exact .inl rfl
    · rename_i some
      refine .inr ⟨due.1, ?_⟩
      rw [write_some_whole (whole due.2) some]
  · exact ⟨s.size_pending, rfl, .inl rfl⟩

end Queue

section Feed
variable {s : Session} {m : Moment}

theorem credit_moves (m : Moment) (s : Session) : Moves s (credit m 0 s).1 (credit m 0 s).2 := by
  simp only [credit, Nat.zero_add]
  split
  · rename_i none
    exact Moves.aside rfl none.symm (by simp)
  · split
    · exact Moves.cons (q := { s with intr_bytes := 0 }) (by simp)
        (by simp only [Event.credited, Event.used]; omega) (by simp) (Moves.refl _)
    · -- The link is gone, and the credit with it.
      exact ⟨by simp [go], fun live => absurd rfl live, by simp⟩

theorem credit_given (m : Moment) (n : Nat) (s : Session) :
    credit m n s = credit m 0 { s with intr_bytes := n + s.intr_bytes } := by
  simp only [credit, Nat.zero_add]

theorem feed_shell_moves (whole : Whole m s) :
    Moves s (feed_shell m s).1 (feed_shell m s).2 := by
  have poured := pour_all s.tosh m.ends
  simp only [feed_shell]
  generalize pour s.tosh m.ends = parts at poured
  obtain ⟨taken, left⟩ := parts
  obtain ⟨pending, told, report⟩ := tell_size_cases (m := m) (s := { s with tosh := left }) whole
  simp only at poured report ⊢
  rw [told, credit_given]
  -- Taken bytes are counted as interrupts are until both are credited.
  have paid := credit_moves m { s with
    tosh := left, size_pending := pending, intr_bytes := taken.length + s.intr_bytes }
  generalize credit m 0 _ = out at paid ⊢
  have reported : Moves { s with
      tosh := left, size_pending := pending, intr_bytes := taken.length + s.intr_bytes } out.1
      ((tell_size m { s with tosh := left }).2 ++ out.2) := by
    rcases report with none | ⟨empty, one⟩
    · rw [none]
      exact paid
    · rw [one]
      refine paid.cons (by simp) (by simp) ?_
      intro rows cols bytes same
      cases same
      exact ⟨rfl, empty⟩
  cases taken with
  | nil =>
    simp only [List.nil_append] at poured
    exact reported.start poured (by simp)
  | cons c rest =>
    refine reported.cons ?_ ?_ (by simp)
    · simp only [Event.given, Event.kept, List.append_nil]
      exact poured
    · have length := congrArg List.length poured
      simp only [List.length_append] at length
      simp only [Event.credited, Event.used]
      omega

/-- Feeding touches neither the channel nor the place, unless the link is gone. -/
structure Aims (s s' : Session) (out : List Event) : Prop where
  running : s'.running = s.running
  window : s'.chan_window = s.chan_window
  place : s'.place = s.place ∨ s'.place = .ended
  carried : carried out = 0
  allowed : allowed out = 0
  opened : opened out = false
  used : used out = 0

theorem Aims.trans {t u : Session} {out out' : List Event} (first : Aims s t out)
    (next : Aims t u out') : Aims s u (out ++ out') where
  running := next.running.trans first.running
  window := next.window.trans first.window
  place := by
    rcases next.place with same | ended
    · rw [same]
      exact first.place
    · exact .inr ended
  carried := by simp [first.carried, next.carried]
  allowed := by simp [first.allowed, next.allowed]
  opened := by simp [first.opened, next.opened]
  used := by simp [first.used, next.used]

theorem tell_size_aims (m : Moment) (s : Session) : Aims s (tell_size m s).1 (tell_size m s).2 := by
  simp only [tell_size]
  split
  · split
    · exact ⟨rfl, rfl, .inl rfl, rfl, rfl, rfl, rfl⟩
    · exact ⟨rfl, rfl, .inl rfl, rfl, rfl, rfl, rfl⟩
  · exact ⟨rfl, rfl, .inl rfl, rfl, rfl, rfl, rfl⟩

theorem credit_aims (m : Moment) (n : Nat) (s : Session) :
    Aims s (credit m n s).1 (credit m n s).2 := by
  simp only [credit]
  split
  · exact ⟨rfl, rfl, .inl rfl, rfl, rfl, rfl, rfl⟩
  · split
    · exact ⟨rfl, rfl, .inl rfl, rfl, rfl, rfl, rfl⟩
    · exact ⟨rfl, rfl, .inr rfl, rfl, rfl, rfl, rfl⟩

theorem feed_shell_aims (m : Moment) (s : Session) :
    Aims s (feed_shell m s).1 (feed_shell m s).2 := by
  have wrote : Aims s { s with tosh := (pour s.tosh m.ends).2 }
      (if (pour s.tosh m.ends).1.isEmpty then [] else [.wrote (pour s.tosh m.ends).1]) := by
    split <;> exact ⟨rfl, rfl, .inl rfl, rfl, rfl, rfl, rfl⟩
  simp only [feed_shell]
  exact (wrote.trans (tell_size_aims m _)).trans (credit_aims m _ _)

end Feed

end Session

end Ubiqos.Sshd
