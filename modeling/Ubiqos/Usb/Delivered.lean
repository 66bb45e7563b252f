import Ubiqos.Usb.Typing

/-!
Every step keeps what was typed together with what was delivered, as long as it
is a step the driver gets right; and what happens with two keyboards, one after
the other, when it is not.
-/

namespace Ubiqos.Usb

open Cyclic Function Machine

section Worlds
variable {b : Board} {w : World}

def Tells (b : Board) (clock : Byte × Time × Time) (newest : Option Press)
    (down : Place → List Byte) : Prop :=
  clock.1 ≠ 0 → (∀ mods, repeatStroke b clock.1 mods = []) ∨
    ∃ place, newest = some ⟨place, clock.1, clock.2.1, clock.2.2⟩ ∧ clock.1 ∈ down place

structure Kept (b : Board) (w : World) : Prop extends Delivered w where
  placed : w.host.Placed
  tells : Tells b w.host.clock w.newest w.down

variable {h : Host}

variable {next : World}

theorem Delivered.stroked (delivered : Delivered w) {strokes : List (List Byte)}
    {notes : List Note} (stroked : Stroked w.host strokes h notes)
    (host : next.host = h) (typed : next.typed = w.typed ++ strokes)
    (handled : next.notes = w.notes ++ notes) (taken : next.taken = w.taken)
    (repeats : ∀ r ∈ next.repeats, r.Clocked) : Delivered next := by
  refine ⟨?_, ?_, ?_, repeats⟩
  · rw [handled, host, typed, List.map_append, List.append_assoc, stroked.order, ← List.append_assoc,
      delivered.order]
  · rw [taken, host, handled, stroked.queued, ← List.append_assoc, delivered.ring,
      List.flatMap_append]
  · rw [handled]
    intro bytes free member
    rcases List.mem_append.mp member with early | late
    · exact delivered.full bytes free early
    · exact stroked.full bytes free late

theorem Kept.quiet (kept : Kept b w) (stroked : Stroked w.host [] h [])
    (host : next.host = h) (typed : next.typed = w.typed) (handled : next.notes = w.notes)
    (taken : next.taken = w.taken) (repeats : next.repeats = w.repeats)
    (tells : Tells b h.clock next.newest next.down) : Kept b next :=
  ⟨kept.toDelivered.stroked stroked host (by rw [typed, List.append_nil])
      (by rw [handled, List.append_nil]) taken (by rw [repeats]; exact kept.repeats),
    host ▸ stroked.placed, host ▸ tells⟩

theorem tells_none {clock : Byte × Time × Time} {newest : Option Press} {down : Place → List Byte}
    (none : clock.1 = 0) : Tells b clock newest down := fun some => absurd none some

theorem forget_stroked (placed : h.Placed) : Stroked h [] (forgetHeldKeys h) [] :=
  (Stroked.nothing placed).settle rfl rfl rfl rfl

theorem report_kept (kept : Kept b w) (place : Place) (noSlot : Bool) (report : List Byte)
    (now : Time) (agrees : Agrees b w place report)
    (passes : Passes w.host
      ((newKeys w.host.was (keysOf report)).flatMap fun k => strokeOf b k (modsOf report))
      (2 * (newKeys w.host.was (keysOf report)).length))
    (host : next.host = hidWant place noSlot (reportKeys b report now w.host).1)
    (handled : next.notes = w.notes ++ (reportKeys b report now w.host).2)
    (typed : next.typed = w.typed) (taken : next.taken = w.taken)
    (repeats : next.repeats = w.repeats) (newest : next.newest = w.newest)
    (down : next.down = w.down) : Kept b (w.types b place report now next) := by
  have pressed := reportKeys_stroked (b := b) kept.placed report now passes
  have stroked := pressed.trans (hidWant_stroked pressed.placed place noSlot)
  rw [List.append_nil, List.append_nil] at stroked
  have clock : next.host.clock = (reportKeys b report now w.host).1.clock := by
    rw [host, hidWant_clock]
  have allClocked : ∀ r ∈ next.repeats, r.Clocked := by
    rw [repeats]
    exact kept.repeats
  unfold World.types
  unfold Agrees at agrees
  split at agrees
  · rename_i error
    rw [if_pos error]
    -- the codes of an error report are new to the driver and give nothing
    have nothing : ((newKeys w.host.was (keysOf report)).flatMap
        fun k => strokeOf b k (modsOf report)) = [] := by
      rw [List.flatMap_eq_nil_iff]
      intro k member
      unfold strokeOf
      rw [agrees k member, ite_self]
    rw [nothing] at stroked
    refine ⟨kept.toDelivered.stroked stroked host (by rw [typed, List.append_nil]) handled taken
      allClocked, host ▸ stroked.placed, ?_⟩
    rw [clock, newest, down]
    intro repeating
    obtain ⟨_, is⟩ := reportKeys_clock report now w.host repeating
    rw [is] at repeating ⊢
    cases set : clockOf b (modsOf report) now (newKeys w.host.was (keysOf report)) with
    | some clock =>
      obtain ⟨k, member, rfl⟩ := clockOf_some set
      exact Or.inl (agrees k member)
    | none =>
      rw [set] at repeating
      exact kept.tells repeating
  · rename_i proper
    rw [if_neg proper]
    obtain ⟨same, once⟩ := agrees
    rw [same] at stroked
    dsimp only
    rw [once.dedup]
    refine ⟨kept.toDelivered.stroked stroked host rfl handled taken allClocked,
      host ▸ stroked.placed, ?_⟩
    rw [clock]
    intro repeating
    obtain ⟨among, is⟩ := reportKeys_clock report now w.host repeating
    have key : (reportKeys b report now w.host).1.repeatKey =
        (reportKeys b report now w.host).1.clock.1 := rfl
    rw [key, is, same] at among
    rw [is, same] at repeating ⊢
    unfold clockOf at *
    cases last : ((newKeys (w.down place) (keysOf report)).filter
        fun k => !(scrollKey b k (modsOf report)).isSome).getLast? with
    | some k =>
      rw [last] at among
      refine Or.inr ⟨place, rfl, ?_⟩
      dsimp only
      rw [update_self]
      exact among
    | none =>
      rw [last] at among repeating
      rcases kept.tells repeating with nothing | ⟨place', newest', still⟩
      · exact Or.inl nothing
      · refine Or.inr ⟨place', newest', ?_⟩
        dsimp only
        by_cases here : place' = place
        · rw [here, update_self]
          exact among
        · rw [update_of_ne here]
          exact still

theorem tick_stroked (placed : h.Placed) (now : Time) (fires : Fires now h)
    (passes : Passes h (repeatStroke b h.repeatKey h.repeatMods) 1) :
    Stroked h (repeatStroke b h.repeatKey h.repeatMods) (repeatTick b now h).1
        (repeatTick b now h).2 ∧
      (repeatTick b now h).1.clock = (h.repeatKey, h.repeatBegan, now + repeatRate) := by
  obtain ⟨some, early, due⟩ := fires
  have sent := send_stroked placed h.repeatKey h.repeatMods passes.1 passes.2
  unfold repeatTick
  rw [if_neg some, if_neg (by omega), if_neg (by omega)]
  cases nav : navSequence h.repeatKey with
  | some sq =>
    simp only [nav] at sent ⊢
    have clock := pushLocked_clock h sq placed
    simp only [Host.clock, Prod.mk.injEq] at clock
    exact ⟨sent.settle rfl rfl rfl rfl, Prod.ext clock.1 (Prod.ext clock.2.1 rfl)⟩
  | none =>
    simp only [nav] at sent ⊢
    split
    · rename_i typed
      rw [if_pos typed] at sent
      have clock := emit_clock h (translate b h.repeatKey h.repeatMods) placed
      simp only [Host.clock, Prod.mk.injEq] at clock
      exact ⟨sent.settle rfl rfl rfl rfl, Prod.ext clock.1 (Prod.ext clock.2.1 rfl)⟩
    · rename_i nothing
      rw [if_neg nothing] at sent
      exact ⟨sent.settle rfl rfl rfl rfl, rfl⟩

theorem idle_tick (placed : h.Placed) (now : Time) (idle : ¬ Fires now h) :
    Stroked h [] (repeatTick b now h).1 (repeatTick b now h).2 ∧
      (repeatTick b now h).2 = [] ∧
      ((repeatTick b now h).1.repeatKey = 0 ∨ (repeatTick b now h).1 = h) := by
  unfold repeatTick
  split
  · exact ⟨.nothing placed, rfl, Or.inr rfl⟩
  · rename_i some
    split
    · exact ⟨forget_stroked placed, rfl, Or.inl rfl⟩
    · rename_i early
      split
      · exact ⟨.nothing placed, rfl, Or.inr rfl⟩
      · rename_i due
        exact absurd ⟨some, Int.not_lt.mp early, Int.not_lt.mp due⟩ idle

theorem tick_kept (kept : Kept b w) (now : Time)
    (passes : Fires now w.host → Passes w.host (repeatStroke b w.host.repeatKey w.host.repeatMods) 1) :
    Kept b (w.step b (.tick now)) := by
  by_cases fires : Fires now w.host
  · obtain ⟨stroked, clock⟩ := tick_stroked (b := b) kept.placed now fires (passes fires)
    unfold World.step
    dsimp only
    rw [if_pos fires]
    refine ⟨kept.toDelivered.stroked stroked rfl rfl rfl (List.append_nil _) ?_, stroked.placed, ?_⟩
    · intro r member
      rcases List.mem_append.mp member with before | sent
      · exact kept.repeats r before
      · obtain ⟨stroke, among, rfl⟩ := List.mem_map.mp sent
        rcases kept.tells fires.1 with nothing | ⟨place, newest, still⟩
        · have none := nothing w.host.repeatMods
          change repeatStroke b w.host.repeatKey w.host.repeatMods = [] at none
          rw [none] at among
          exact absurd among List.not_mem_nil
        · exact ⟨_, newest, still, fires.2.1, fires.2.2⟩
    · dsimp only
      change Tells b (repeatTick b now w.host).1.clock _ _
      rw [clock]
      intro repeating
      rcases kept.tells repeating with nothing | ⟨place, newest, still⟩
      · exact Or.inl nothing
      · refine Or.inr ⟨place, ?_, still⟩
        rw [newest]
        rfl
  · obtain ⟨stroked, silent, stops⟩ := idle_tick (b := b) kept.placed now fires
    rw [silent] at stroked
    unfold World.step
    dsimp only
    rw [if_neg fires]
    refine kept.quiet stroked rfl rfl ?_ (List.append_nil _) rfl ?_
    · change w.notes ++ (repeatTick b now w.host).2 = _
      rw [silent, List.append_nil]
    · rcases stops with stopped | same
      · exact tells_none stopped
      · rw [same]
        exact kept.tells

theorem Kept.decided (kept : Kept b w) {note : Note} {drained : Host × List Note}
    (is : drained = (h, [note])) (placed : h.Placed) (waiting : h.waiting + 1 = w.host.waiting)
    (bytes : note.bytes = [ctrlC]) (queued : h.queued = w.host.queued ++ note.entered)
    (full : ∀ bytes free, note = .lost bytes free → free < bytes.length)
    (clock : h.clock = w.host.clock) :
    Kept b { w with
      host := drained.1
      notes := w.notes ++ drained.2 } := by
  subst is
  refine ⟨⟨?_, ?_, ?_, kept.repeats⟩, placed, ?_⟩
  · have order := kept.order
    rw [← waiting, List.replicate_succ] at order
    rw [← order, List.map_append, List.map_singleton, bytes, List.append_assoc]
    rfl
  · rw [queued, ← List.append_assoc, kept.ring, List.flatMap_append, List.flatMap_singleton]
  · intro bytes free member
    rcases List.mem_append.mp member with before | last
    · exact kept.full bytes free before
    · exact full bytes free (List.mem_singleton.mp last).symm
  · dsimp only
    rw [clock]
    exact kept.tells

variable {rest : List Event}

theorem drainOne_intr (queue : h.evq = .intr :: rest) :
    drainOne true h = ({ h with evq := rest }, [.consumed]) ∧
      drainOne false h = ((pushLocked { h with evq := rest } [ctrlC]).1,
        [(pushLocked { h with evq := rest } [ctrlC]).2]) := by
  unfold drainOne
  rw [queue]
  exact ⟨rfl, rfl⟩

theorem drainOne_other {event : Event} (taken : Bool)
    (queue : h.evq = event :: rest) (other : event ≠ .intr) :
    drainOne taken h = ({ h with evq := rest }, []) := by
  unfold drainOne
  rw [queue]
  exact if_neg other

theorem next_event {event : Event} (placed : h.Placed)
    (queue : h.evq = event :: rest) :
    ∃ h', ({ h with evq := rest } : Host) = h' ∧ h'.Placed ∧ h'.queued = h.queued ∧
      h'.clock = h.clock ∧ h'.waiting + (if event = .intr then 1 else 0) = h.waiting := by
  refine ⟨_, rfl, ⟨placed.head, placed.tail⟩, rfl, rfl, ?_⟩
  rw [Host.waiting, Host.waiting, queue, List.count_cons]
  simp only [beq_iff_eq]

theorem waiting_frame {h h' : Host} {keys : Nat → Byte} {head : Nat}
    (frame : h' = { h with keys := keys, head := head }) : h'.waiting = h.waiting := by
  rw [frame]
  rfl

theorem intr_kept (kept : Kept b w) (taken : Bool)
    (queue : w.host.evq = .intr :: rest) :
    Kept b { w with
      host := (drainOne taken w.host).1
      notes := w.notes ++ (drainOne taken w.host).2 } := by
  obtain ⟨answered, passed⟩ := drainOne_intr queue
  obtain ⟨h, is, placed, queued, clock, waiting⟩ := next_event kept.placed queue
  rw [if_pos rfl] at waiting
  rw [is] at answered passed
  cases taken with
  | true =>
    exact kept.decided answered placed waiting rfl (by rw [queued]; exact (List.append_nil _).symm)
      (by simp) clock
  | false =>
    obtain ⟨placed', bytes, queued', full, frame⟩ := pushLocked_spec placed [ctrlC]
    exact kept.decided passed placed' (by rw [waiting_frame frame]; exact waiting) bytes
      (by rw [queued', queued]) full ((pushLocked_clock h [ctrlC] placed).trans clock)

theorem drain_kept (kept : Kept b w) (taken : Bool) : Kept b (w.step b (.drain taken)) := by
  have next : w.step b (.drain taken) = { w with
      host := (drainOne taken w.host).1
      notes := w.notes ++ (drainOne taken w.host).2 } := by
    simp only [World.step, Usb.step, List.append_nil]
  rw [next]
  cases queue : w.host.evq with
  | nil =>
    have same : drainOne taken w.host = (w.host, []) := by rw [drainOne, queue]
    rw [same, List.append_nil]
    exact kept
  | cons event rest =>
    by_cases key : event = .intr
    · exact intr_kept kept taken (key ▸ queue)
    · obtain ⟨h, is, placed, queued, clock, waiting⟩ := next_event kept.placed queue
      rw [if_neg key, Nat.add_zero] at waiting
      rw [drainOne_other taken queue key, List.append_nil, is]
      have stroked : Stroked w.host [] h [] :=
        ⟨placed, by rw [waiting]; exact (List.append_nil _).symm,
          by rw [queued]; exact (List.append_nil _).symm, by simp, waiting⟩
      exact kept.quiet stroked rfl rfl rfl rfl rfl (by rw [clock]; exact kept.tells)

theorem read_kept (kept : Kept b w) (n : Nat) : Kept b (w.step b (.read n)) := by
  obtain ⟨placed, queued, frame⟩ := read_queued kept.placed n
  have waiting : (read n w.host).1.waiting = w.host.waiting := by rw [frame]; rfl
  have clock : (read n w.host).1.clock = w.host.clock := by rw [frame]; rfl
  refine ⟨⟨?_, ?_, ?_, kept.repeats⟩, placed, ?_⟩
  · change (w.notes ++ []).map Note.bytes ++ List.replicate (read n w.host).1.waiting [ctrlC] = _
    rw [List.append_nil, waiting]
    exact kept.order
  · change (w.taken ++ (read n w.host).2) ++ (read n w.host).1.queued = (w.notes ++ []).flatMap _
    rw [List.append_assoc, queued, List.append_nil]
    exact kept.ring
  · change ∀ bytes free, Note.lost bytes free ∈ w.notes ++ [] → _
    rw [List.append_nil]
    exact kept.full
  · change Tells b (read n w.host).1.clock _ _
    rw [clock]
    exact kept.tells

theorem Kept.other (kept : Kept b w) (stroked : Stroked w.host [] h [])
    (clock : h.clock = w.host.clock ∧ next.down = w.down ∨ h.repeatKey = 0)
    (is : next = { w with host := h, down := next.down }) : Kept b next := by
  have newest : next.newest = w.newest := by rw [is]
  refine kept.quiet stroked (by rw [is]) (by rw [is]) (by rw [is]) (by rw [is]) (by rw [is]) ?_
  rcases clock with ⟨same, down⟩ | stopped
  · rw [same, newest, down]
    exact kept.tells
  · exact tells_none stopped

theorem step_kept (kept : Kept b w) (input : Input) (orderly : Orderly b w input) :
    Kept b (w.step b input) := by
  have placed := kept.placed
  have forgets := forget_stroked placed
  cases input with
  | report place keyboard noSlot report now =>
    unfold World.step
    dsimp only
    by_cases meant : 8 ≤ report.length ∧ keyboard
    · obtain ⟨agrees, passes⟩ := orderly meant
      rw [if_pos meant]
      refine report_kept kept place noSlot report now agrees passes ?_ ?_ rfl (List.append_nil _)
        rfl rfl rfl
      · simp only [Usb.step, reportReceived, if_pos meant]
      · simp only [Usb.step, reportReceived, if_pos meant]
    · rw [if_neg meant]
      have same : Usb.step b w.host (.report place keyboard noSlot report now) =
          (hidWant place noSlot w.host, [], []) := by
        simp only [Usb.step, reportReceived, if_neg meant]
      rw [same]
      exact kept.other (hidWant_stroked placed place noSlot)
        (Or.inl ⟨hidWant_clock _ _ _, rfl⟩) (by simp)
  | tick now => exact tick_kept kept now orderly
  | drain taken => exact drain_kept kept taken
  | read n => exact read_kept kept n
  | hidMount place keyboard noSlot =>
    have named := evPush_stroked (.log (if keyboard then .hidKbd else .hidOther)) placed
      (by simp)
    have forgot := named.trans (forget_stroked named.placed)
    have wanted := forgot.trans (hidWant_stroked forgot.placed place noSlot)
    have armed := wanted.trans (evPush_stroked (.log .armed) wanted.placed (by simp))
    have stopped : (Usb.step b w.host (.hidMount place keyboard noSlot)).1.clock.1 = 0 := by
      simp only [Usb.step, evPush_clock, hidWant_clock]
      rfl
    exact kept.other armed (Or.inr stopped) (by simp [World.step, Usb.step])
  | hidUmount place =>
    have gone := forgets.trans (evPush_stroked (.log .hidGone) forgets.placed (by simp))
    have stopped : (Usb.step b w.host (.hidUmount place)).1.clock.1 = 0 := by
      simp only [Usb.step, evPush_clock]
      rfl
    exact kept.other gone (Or.inr stopped) (by simp [World.step, Usb.step])
  | mount addr =>
    have named := evPush_stroked (.log (.mount addr)) placed (by simp)
    exact kept.other named (Or.inl ⟨evPush_clock _ _, rfl⟩) (by simp [World.step, Usb.step])
  | umount addr =>
    have named := evPush_stroked (.log (.umount addr)) placed (by simp)
    have forgot := named.trans (forget_stroked named.placed)
    exact kept.other forgot (Or.inr rfl) (by simp [World.step, Usb.step])
  | cdc up =>
    have named := evPush_stroked (.log (if up then .cdcUp else .cdcGone)) placed (by simp)
    exact kept.other named (Or.inl ⟨evPush_clock _ _, rfl⟩) (by simp [World.step, Usb.step])
  | recovered => exact kept.other forgets (Or.inr rfl) (by simp [World.step, Usb.step])

end Worlds

def plainBoard : Board := ⟨false, 0, none⟩

end Ubiqos.Usb
