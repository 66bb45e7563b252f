import Ubiqos.Sshd.Window
import Ubiqos.Lib.Along

/-!
A session over any run: what the shell was given is what the client typed, the
client's window counts every byte that is on its way, and no more channel data
goes out than the client allowed.
-/

namespace Ubiqos.Sshd.Session

def Busy (s : Session) : Prop :=
  match s.place with
  | .listening _ | .ended => True
  | _ => s.running = true

structure Exact (s : Session) (es : List Event) : Prop where
  order : given es ++ s.tosh = kept es
  window : s.place ≠ .ended → credited es + s.tosh.length + s.intr_bytes = used es
  fits : used es ≤ CHAN_WINDOW + credited es
  told : Told es
  live : s.running = true → opened es = true
  busy : s.Busy
  room : opened es = true → s.chan_window + carried es ≤ allowed es
  fresh : opened es = false → carried es = 0

section Next
variable {s s' : Session} {es out : List Event}

theorem Told.append (told : Told es) (order : given es ++ s.tosh = kept es) (moves : Moves s s' out) :
    Told (es ++ out) := by
  intro pre rows cols bytes post split
  rcases List.append_eq_append_iff.mp split with ⟨middle, front, back⟩ | ⟨middle, front, back⟩
  · obtain ⟨whole, before⟩ := moves.told middle rows cols bytes post back
    refine ⟨whole, ?_⟩
    rw [front, given_append, kept_append, before, ← List.append_assoc, order]
  · cases middle with
    | nil =>
      simp only [List.append_nil, List.nil_append] at front back
      obtain ⟨whole, before⟩ := moves.told [] rows cols bytes post back.symm
      simp only [given_nil, kept_nil, List.append_nil] at before
      rw [← before, List.append_nil, front] at order
      exact ⟨whole, order⟩
    | cons first rest =>
      simp only [List.cons_append, List.cons.injEq] at back
      obtain ⟨rfl, _⟩ := back
      exact told pre rows cols bytes rest front

theorem Exact.next (exact : Exact s es) (was : s.place ≠ .ended) (moves : Moves s s' out)
    (small : used out ≤ clientWindow es)
    (live : s'.running = true → opened (es ++ out) = true) (busy : s'.Busy)
    (room : opened (es ++ out) = true → s'.chan_window + carried (es ++ out) ≤ allowed (es ++ out))
    (fresh : opened (es ++ out) = false → carried (es ++ out) = 0) : Exact s' (es ++ out) where
  order := by
    rw [given_append, kept_append, List.append_assoc, moves.order, ← List.append_assoc, exact.order]
  window := by
    intro now
    have before := exact.window was
    have change := moves.window now
    simp only [credited_append, used_append]
    omega
  fits := by
    have before := exact.fits
    simp only [clientWindow] at small
    simp only [credited_append, used_append]
    omega
  told := exact.told.append exact.order moves
  live := live
  busy := busy
  room := room
  fresh := fresh

theorem Exact.calm (exact : Exact s es) (was : s.place ≠ .ended) (moves : Moves s s' out)
    (small : used out ≤ clientWindow es) (live : s'.running = true → opened es = true)
    (window : s'.chan_window + carried out ≤ s.chan_window + allowed out)
    (sends : carried out ≠ 0 → opened es = true) (opens : opened out = false) (busy : s'.Busy) :
    Exact s' (es ++ out) := by
  apply exact.next was moves small
  · intro now
    simp [live now]
  · exact busy
  · intro open_
    have before := exact.room (by simpa [opens] using open_)
    simp only [carried_append, allowed_append]
    omega
  · intro shut
    simp only [opened_append, opens, Bool.or_false] at shut
    have nothing : carried out = 0 := by
      by_contra some
      simp [sends some] at shut
    simp [exact.fresh shut, nothing]

theorem Exact.moved (exact : Exact s es) (was : s.place ≠ .ended) (all : ∀ e ∈ out, Aside e)
    (quiet : carried out = 0 ∧ allowed out = 0 ∧ opened out = false) (tosh : s'.tosh = s.tosh)
    (intr : s'.intr_bytes = s.intr_bytes) (live : s'.running = true → opened es = true)
    (window : s'.chan_window = s.chan_window) (busy : s'.Busy) : Exact s' (es ++ out) := by
  obtain ⟨carried, allowed, opens⟩ := quiet
  obtain ⟨_, _, used, _⟩ := asides all
  exact exact.calm was (Moves.aside tosh intr all) (by omega) live (by omega)
    (fun some => absurd carried some) opens busy

end Next

section Shell
variable {m : Moment} {s : Session} {es : List Event}

theorem feed_exact {q : Session} (exact : Exact s es) (was : s.place ≠ .ended) (whole : Whole m q)
    {front : List Event} (running : q.running = s.running) (window : q.chan_window = s.chan_window)
    (moves : Moves q (feed_shell m q).1 (feed_shell m q).2 →
      Moves s (feed_shell m q).1 (front ++ (feed_shell m q).2))
    (small : used front ≤ clientWindow es)
    (quiet : carried front = 0 ∧ allowed front = 0 ∧ opened front = false) (busy : q.Busy) :
    Exact (feed_shell m q).1 (es ++ (front ++ (feed_shell m q).2)) := by
  have aims := feed_shell_aims m q
  obtain ⟨carried, allowed, opens⟩ := quiet
  apply exact.calm was (moves (feed_shell_moves whole))
  · simp only [used_append, aims.used]
    exact small
  · intro now
    rw [aims.running, running] at now
    exact exact.live now
  · simp only [carried_append, allowed_append, carried, allowed, aims.carried, aims.allowed,
      aims.window, window]
    exact Nat.le_refl _
  · intro some
    simp [carried, aims.carried] at some
  · simp [opens, aims.opened]
  · rcases aims.place with same | ended
    · simp only [Busy, same, aims.running]
      exact busy
    · simp [Busy, ended]

theorem check_exact (exact : Exact s es) (whole : Whole m s) {moved : Bool}
    (place : s.place = .checking moved) : Exact (s.check m moved).1 (es ++ (s.check m moved).2) := by
  have was : s.place ≠ .ended := by simp [place]
  simp only [check]
  split
  · exact @feed_exact _ s _ (s.go (.listening moved)) exact was whole [] rfl rfl (Moves.start rfl rfl) (Nat.zero_le _)
      ⟨rfl, rfl, rfl⟩ trivial
  · split
    · split
      · exact @feed_exact _ s _ (({ s with idle := 0 } : Session).go (.listening moved)) exact was whole [] rfl rfl
          (Moves.start rfl rfl) (Nat.zero_le _) ⟨rfl, rfl, rfl⟩ trivial
      · simp only [channel_eof_and_close]
        split
        · exact exact.moved was (by simp [Aside])
            ⟨rfl, rfl, rfl⟩ rfl rfl exact.live rfl trivial
        · exact exact.moved was (by simp) ⟨rfl, rfl, rfl⟩ rfl rfl exact.live rfl trivial
    · exact @feed_exact _ s _ (({ s with idle := s.idle + 1 } : Session).go (.listening moved)) exact was whole [] rfl
        rfl (Moves.start rfl rfl) (Nat.zero_le _) ⟨rfl, rfl, rfl⟩ trivial

theorem drain_exact (exact : Exact s es) {moved : Bool} (place : s.place = .draining moved) :
    Exact (s.drain m moved).1 (es ++ (s.drain m moved).2) := by
  have was : s.place ≠ .ended := by simp [place]
  have running : s.running = true := by
    have busy := exact.busy
    simpa only [Busy, place] using busy
  simp only [drain]
  split
  · exact exact.moved was (by simp) ⟨rfl, rfl, rfl⟩ rfl rfl exact.live rfl running
  · split
    · exact exact.moved was (by simp) ⟨rfl, rfl, rfl⟩ rfl rfl exact.live rfl running
    · exact exact.moved was (by simp) ⟨rfl, rfl, rfl⟩ rfl rfl exact.live rfl running

theorem send_exact (exact : Exact s es) {rest : List Byte} {echo moved : Bool}
    (place : s.place = .sending rest echo moved) (waits : s.waits = false) :
    Exact (s.send_channel_data m rest echo moved).1 (es ++ (s.send_channel_data m rest echo moved).2) := by
  have was : s.place ≠ .ended := by simp [place]
  have running : s.running = true := by
    have busy := exact.busy
    simpa only [Busy, place] using busy
  simp only [send_channel_data]
  split
  · cases echo with
    | true => exact exact.moved was (by simp) ⟨rfl, rfl, rfl⟩ rfl rfl exact.live rfl running
    | false => exact exact.moved was (by simp) ⟨rfl, rfl, rfl⟩ rfl rfl exact.live rfl running
  · rename_i some
    have fits : part rest ≤ s.chan_window := by
      simpa [Session.waits, place, some] using waits
    simp only [send]
    split
    · apply exact.calm was
      · exact Moves.aside rfl rfl (by simp [Aside])
      · simp
      · exact exact.live
      · simp only [carried_cons, carried_nil, Event.carried, List.length_take, part] at fits ⊢
        omega
      · intro _
        exact exact.live running
      · rfl
      · exact running
    · apply exact.calm was
      · exact Moves.aside rfl rfl (by simp)
      · simp
      · exact exact.live
      · simp only [go, carried_nil, allowed_nil]
        omega
      · simp
      · rfl
      · trivial

end Shell

def sentData (payload : Memory) (n : Nat) : Option (List Byte) := (channel_data (reader payload n 1)).1

def requestType (payload : Memory) (n : Nat) : List Byte :=
  (r_str (r_u32 (reader payload n 1)).2).1

def listens (s : Session) : Bool :=
  match s.place with
  | .listening _ => true
  | _ => false

def Lawful (s : Session) (es : List Event) (payload : Memory) (n : Nat) : Prop :=
  (payload 0 = 94 → ∀ d ∈ sentData payload n, s.running = true ∧ d.length ≤ clientWindow es) ∧
  (s.listens = true → payload 0 = 90 → opened es = false) ∧
  (s.listens = true → payload 0 = 98 → requestType payload n = ascii "shell" →
    opened es = true ∧ s.running = false)

instance (s : Session) (es : List Event) (payload : Memory) (n : Nat) :
    Decidable (Lawful s es payload n) := inferInstanceAs (Decidable (_ ∧ _ ∧ _))

section Packets
variable {m : Moment} {s : Session} {es : List Event}

theorem clientWindow_fits (exact : Exact s es) (was : s.place ≠ .ended) {d : List Byte}
    (small : d.length ≤ clientWindow es) : s.tosh.length + d.length ≤ CHAN_WINDOW := by
  have window := exact.window was
  have fits := exact.fits
  simp only [clientWindow] at small
  omega

theorem adjust_exact {q : Session} (exact : Exact s es) (was : s.place ≠ .ended) (tosh : q.tosh = s.tosh)
    (intr : q.intr_bytes = s.intr_bytes) (running : q.running = s.running)
    (window : q.chan_window = s.chan_window) (busy : q.Busy) (r : Rd) :
    Exact (q.adjust r).1.1 (es ++ (q.adjust r).1.2) := by
  simp only [adjust, bind_apply, ret_apply]
  apply exact.calm was
  · exact Moves.aside tosh intr (by simp [Aside])
  · simp
  · intro now
    rw [show (_ : Session).running = q.running from rfl, running] at now
    exact exact.live now
  · simp only [carried_cons, allowed_cons, Event.carried, Event.allowed, carried_nil, allowed_nil, window]
    have wraps := Nat.mod_le (s.chan_window + (r_u32 (r_u32 r).2).1) (2 ^ 32)
    omega
  · simp
  · rfl
  · exact busy

theorem meanwhile_exact (exact : Exact s es) (was : s.place ≠ .ended) {payload : Memory} {n : Nat}
    (lawful : Lawful s es payload n) :
    Exact (s.meanwhile m (payload 0) (reader payload n 1)).1.1
      (es ++ (s.meanwhile m (payload 0) (reader payload n 1)).1.2) := by
  simp only [meanwhile]
  split
  · exact adjust_exact exact was rfl rfl rfl rfl exact.busy _
  · split
    · rename_i data
      have within := lawful.1 data
      simp only [sentData] at within
      simp only [typed_meanwhile, bind_apply]
      cases found : (channel_data (reader payload n 1)).1 with
      | none => exact exact.moved was (by simp [ret_apply]) ⟨rfl, rfl, rfl⟩ rfl rfl exact.live rfl exact.busy
      | some d =>
        obtain ⟨_, small⟩ := within d (by simp [found])
        obtain ⟨intr, echo, queued, count⟩ :=
          queue_input_all d m.interrupts (clientWindow_fits exact was small)
        simp only [ret_apply, queued]
        apply exact.calm was
        · exact Moves.heard rfl count (Moves.refl _)
        · simpa using small
        · exact exact.live
        · simp
        · simp
        · rfl
        · exact exact.busy
    · split
      · exact exact.moved was (by simp [ret_apply]) ⟨rfl, rfl, rfl⟩ rfl rfl exact.live rfl trivial
      · exact exact.moved was (by simp [ret_apply]) ⟨rfl, rfl, rfl⟩ rfl rfl exact.live rfl exact.busy

theorem pass_busy (s : Session) : s.pass.Busy := by
  simp only [pass]
  split
  · assumption
  · trivial

theorem send_cases (m : Moment) (s : Session) (reply : Reply) :
    (send m s reply).1 = s ∧ (send m s reply).2 = [.sent reply] ∨
      (send m s reply).1 = s.go .ended ∧ (send m s reply).2 = [] := by
  simp only [send]
  split
  · exact .inl ⟨rfl, rfl⟩
  · exact .inr ⟨rfl, rfl⟩

theorem reply_exact {q : Session} {front : List Event} (exact : Exact s es) (was : s.place ≠ .ended)
    (all : ∀ e ∈ front, Aside e) (quiet : carried front = 0 ∧ allowed front = 0 ∧ opened front = false)
    (tosh : q.tosh = s.tosh) (intr : q.intr_bytes = s.intr_bytes)
    (live : q.running = true → opened es = true) (window : q.chan_window = s.chan_window)
    (want : Byte) (ok : Bool) :
    Exact (reply_to m q want ok).1 (es ++ (front ++ (reply_to m q want ok).2)) := by
  obtain ⟨carries, allows, opens⟩ := quiet
  have silent := (@Exact.moved _ q.pass _ (front ++ [])) exact was (by simpa using all)
    (by simp [carries, allows, opens]) tosh intr live window (pass_busy q)
  have gone := (@Exact.moved _ (q.pass.go .ended) _ (front ++ [])) exact was (by simpa using all)
    (by simp [carries, allows, opens]) tosh intr live window trivial
  have told : ∀ reply, Aside (.sent reply) → Event.carried (.sent reply) = 0 →
      Exact q.pass (es ++ (front ++ [.sent reply])) := by
    intro reply aside none
    apply (@Exact.moved _ q.pass _ _) exact was _ _ tosh intr live window (pass_busy q)
    · intro e member
      rcases List.mem_append.mp member with old | new
      · exact all e old
      · rw [List.mem_singleton.mp new]
        exact aside
    · simpa [carries, allows, opens] using none
  simp only [reply_to]
  split
  · exact silent
  · rcases send_cases m q.pass (if ok then .channelSuccess q.chan_id else .channelFailure q.chan_id)
      with ⟨same, out⟩ | ⟨same, out⟩
    · rw [same, out]
      cases ok with
      | true => exact told _ (by simp [Aside]) rfl
      | false => exact told _ (by simp [Aside]) rfl
    · rw [same, out]
      exact gone

theorem channel_open_exact (exact : Exact s es) (was : s.place ≠ .ended) (first : opened es = false) (r : Rd) :
    Exact (s.channel_open m r).1.1 (es ++ (s.channel_open m r).1.2) := by
  have idle : s.running ≠ true := by
    intro running
    simp [exact.live running] at first
  have none := exact.fresh first
  simp only [channel_open, bind_apply]
  generalize (r_str r).1 = type
  generalize (r_u32 (r_str r).2).1 = sender
  generalize (r_u32 (r_u32 (r_str r).2).2).1 = window
  split
  · -- Refused: its window is written, and no channel is there to use it.
    simp only [ret_apply]
    split
    · exact exact.next was
        (Moves.aside rfl rfl (by simp [Aside]))
        (by simp) (fun now => absurd now idle) (pass_busy _)
        (by simp [first]) (by simp [none])
    · exact exact.next was (Moves.aside rfl rfl (by simp)) (by simp) (fun now => absurd now idle)
        (pass_busy _) (by simp [first]) (by simp [none])
  · simp only [ret_apply]
    rcases send_cases m ({ s with chan_window := window, chan_id := sender } : Session).pass
      (.openConfirmation sender) with ⟨same, out⟩ | ⟨same, out⟩
    · rw [same, out]
      exact exact.next was
        (Moves.aside rfl rfl (by simp [Aside]))
        (by simp) (fun now => absurd now idle) (pass_busy _)
        (by simp [none, pass, go]) (by simp)
    · rw [same, out]
      exact exact.next was
        (Moves.aside rfl rfl (by simp [Aside]))
        (by simp) (fun now => absurd now idle) trivial
        (by simp [none, pass, go]) (by simp)

theorem window_change_keeps (s : Session) (cols rows : Nat) (past : Bool) :
    (s.window_change cols rows past).tosh = s.tosh ∧
      (s.window_change cols rows past).intr_bytes = s.intr_bytes ∧
      (s.window_change cols rows past).running = s.running ∧
      (s.window_change cols rows past).chan_window = s.chan_window := by
  simp only [window_change]
  split <;> exact ⟨rfl, rfl, rfl, rfl⟩

theorem channel_request_exact (exact : Exact s es) (was : s.place ≠ .ended) (r : Rd)
    (lawful : (r_str (r_u32 r).2).1 = ascii "shell" → opened es = true ∧ s.running = false) :
    Exact (s.channel_request m r).1.1 (es ++ (s.channel_request m r).1.2) := by
  simp only [channel_request, bind_apply]
  generalize (r_str (r_u32 r).2).1 = type at lawful
  generalize (r_byte (r_str (r_u32 r).2).2).1 = want
  split
  · exact (@reply_exact _ _ _ _ []) exact was (by simp) ⟨rfl, rfl, rfl⟩ rfl rfl exact.live rfl want true
  · split
    · simp only [bind_apply, ret_apply]
      obtain ⟨tosh, intr, running, window⟩ := window_change_keeps s
        (r_u32 (r_byte (r_str (r_u32 r).2).2).2).1
        (r_u32 (r_u32 (r_byte (r_str (r_u32 r).2).2).2).2).1
        (r_over (r_u32 (r_u32 (r_byte (r_str (r_u32 r).2).2).2).2).2).1
      exact (@reply_exact _ _ _ _ []) exact was (by simp) ⟨rfl, rfl, rfl⟩ tosh intr
        (by rw [running]; exact exact.live) window want true
    · split
      · rename_i shell
        have asked := lawful (by simpa [r_is] using shell)
        exact (@reply_exact _ _ _ { s with running := m.starts } [.shell]) exact was
          (by simp [Aside]) ⟨rfl, rfl, rfl⟩ rfl rfl
          (fun _ => asked.1) rfl want m.starts
      · exact (@reply_exact _ _ _ _ []) exact was (by simp) ⟨rfl, rfl, rfl⟩ rfl rfl exact.live rfl want false

theorem channel_data_in_exact (exact : Exact s es) (was : s.place ≠ .ended) (whole : Whole m s) (r : Rd)
    (lawful : ∀ d ∈ (channel_data r).1, s.running = true ∧ d.length ≤ clientWindow es) :
    Exact (s.channel_data_in m r).1.1 (es ++ (s.channel_data_in m r).1.2) := by
  simp only [channel_data_in, bind_apply]
  cases found : (channel_data r).1 with
  | none => exact exact.moved was (by simp [ret_apply]) ⟨rfl, rfl, rfl⟩ rfl rfl exact.live rfl (pass_busy s)
  | some d =>
    obtain ⟨running, small⟩ := lawful d (by simp [found])
    obtain ⟨intr, echo, queued, count⟩ :=
      queue_input_all d m.interrupts (clientWindow_fits exact was small)
    simp only [running, Bool.true_and]
    split
    · simp only [ret_apply, queued]
      exact @feed_exact _ s _
        (({ s with
          tosh := s.tosh ++ spared d m.interrupts, intr_bytes := intr, intr_echo := echo } : Session).pass)
        exact was whole [.typed d (spared d m.interrupts)] rfl rfl (Moves.heard rfl count) (by simpa using small)
        ⟨rfl, rfl, rfl⟩ (pass_busy _)
    · rename_i empty
      have nothing : d = [] := by simpa using empty
      subst nothing
      exact exact.moved was
        (by simp [ret_apply, Aside, spared])
        ⟨rfl, rfl, rfl⟩ rfl rfl exact.live rfl (pass_busy s)

theorem handle_exact (exact : Exact s es) (was : s.place ≠ .ended) (whole : Whole m s)
    {payload : Memory} {n seq : Nat} (listens : s.listens = true) (lawful : Lawful s es payload n) :
    Exact (s.handle m seq (payload 0) (reader payload n 1)).1.1
      (es ++ (s.handle m seq (payload 0) (reader payload n 1)).1.2) := by
  obtain ⟨data, open_, shell⟩ := lawful
  simp only [handle]
  split
  · rename_i number
    exact channel_open_exact exact was (open_ listens number) _
  · split
    · rename_i number
      exact channel_request_exact exact was _ (shell listens number)
    · split
      · rename_i number
        exact channel_data_in_exact exact was whole _ (data number)
      · split
        · exact adjust_exact (q := s.pass) exact was rfl rfl rfl rfl (pass_busy s) _
        · split
          · exact exact.moved was (by simp [ret_apply]) ⟨rfl, rfl, rfl⟩ rfl rfl exact.live rfl trivial
          · split
            · simp only [global_request, bind_apply, ret_apply]
              split
              · exact exact.moved was
                  (by simp [Aside])
                  ⟨rfl, rfl, rfl⟩ rfl rfl exact.live rfl (pass_busy s)
              · exact exact.moved was (by simp) ⟨rfl, rfl, rfl⟩ rfl rfl exact.live rfl (pass_busy s)
            · exact exact.moved was (by simp [ret_apply]) ⟨rfl, rfl, rfl⟩ rfl rfl exact.live rfl (pass_busy s)

end Packets

/-- The packet that comes is lawful, and a report that is due finds no room in the
shell's pipe or enough. -/
def Orderly (run : Session × List Event) (input : Moment × Arrival) : Prop :=
  Whole input.1 run.1 ∧ (run.1.waits = true →
    match input.2 with
    | .packet _ payload n => Lawful run.1 run.2 payload n
    | _ => True)

instance (run : Session × List Event) (input : Moment × Arrival) : Decidable (Orderly run input) :=
  match input with
  | (_, .packet _ _ _) => inferInstanceAs (Decidable (_ ∧ (_ → Lawful _ _ _ _)))
  | (_, .quiet) => inferInstanceAs (Decidable (_ ∧ (_ → True)))
  | (_, .gone) => inferInstanceAs (Decidable (_ ∧ (_ → True)))

def log (run : Session × List Event) (input : Moment × Arrival) : Session × List Event :=
  ((run.1.step input.1 input.2).1, run.2 ++ (run.1.step input.1 input.2).2)

theorem ended_waits {s : Session} (was : s.place = .ended) : s.waits = false := by
  simp [Session.waits, was]

theorem unheard_exact {s : Session} {es : List Event} (exact : Exact s es) (was : s.place ≠ .ended)
    (gone : Bool) : Exact (s.unheard gone) (es ++ []) := by
  have ends := (@Exact.moved _ (s.go .ended) _ []) exact was (by simp) ⟨rfl, rfl, rfl⟩ rfl rfl exact.live rfl trivial
  have goes := (@Exact.moved _ s.pass _ []) exact was (by simp) ⟨rfl, rfl, rfl⟩ rfl rfl exact.live rfl (pass_busy s)
  simp only [unheard]
  split
  · split
    · exact goes
    · exact ends
  · exact ends

theorem step_exact {s : Session} {es : List Event} {m : Moment} {a : Arrival} (exact : Exact s es)
    (orderly : Orderly (s, es) (m, a)) : Exact (s.step m a).1 (es ++ (s.step m a).2) := by
  obtain ⟨whole, lawful⟩ := orderly
  by_cases waits : s.waits = true
  · have was : s.place ≠ .ended := by
      intro ended
      simp [ended_waits ended] at waits
    have lawful := lawful waits
    simp only [step, if_pos waits]
    cases a with
    | quiet => exact unheard_exact exact was false
    | gone => exact unheard_exact exact was true
    | packet seq payload n =>
      cases place : s.place with
      | listening moved =>
        simp only [hear, place]
        exact handle_exact exact was whole (by simp [listens, place]) lawful
      | ended => exact absurd place was
      | sending rest echo moved =>
        simp only [hear, place]
        exact meanwhile_exact exact was lawful
      | draining moved => simp [Session.waits, place] at waits
      | checking moved => simp [Session.waits, place] at waits
  · simp only [step, if_neg waits]
    cases place : s.place with
    | draining moved =>
      simp only [advance, place]
      exact drain_exact exact place
    | sending rest echo moved =>
      simp only [advance, place]
      exact send_exact exact place (by simpa using waits)
    | checking moved =>
      simp only [advance, place]
      exact check_exact exact whole place
    | listening moved => simp [Session.waits, place] at waits
    | ended => simpa [advance, place] using exact

theorem enter_exact (chan_id chan_window rows cols : Nat) :
    Exact (enter chan_id chan_window rows cols) [] where
  order := rfl
  window _ := rfl
  fits := Nat.zero_le _
  told := by
    intro pre rows cols bytes post split
    simp at split
  live := by simp [enter]
  busy := trivial
  room := by simp
  fresh _ := rfl

/-- Whatever the client, the shell and the link do in between: each byte typed is with
the shell, in the queue or used up as an interrupt, each report is whole and has
nothing queued before it, and neither window is overdrawn. -/
theorem input_exact (chan_id chan_window rows cols : Nat) (inputs : List (Moment × Arrival))
    (orderly : Machine.Along log Orderly (enter chan_id chan_window rows cols, []) inputs) :
    let run := inputs.foldl log (enter chan_id chan_window rows cols, [])
    given run.2 ++ run.1.tosh = kept run.2 ∧ Told run.2 ∧
      (run.1.place ≠ .ended →
        clientWindow run.2 + run.1.tosh.length + run.1.intr_bytes = CHAN_WINDOW) ∧
      carried run.2 ≤ allowed run.2 := by
  intro run
  have exact : Exact run.1 run.2 :=
    Machine.along_invariant (fun run => Exact run.1 run.2) orderly
      (enter_exact chan_id chan_window rows cols)
      (fun run input _ allowed exact => step_exact exact allowed)
  refine ⟨exact.order, exact.told, ?_, ?_⟩
  · intro live
    have window := exact.window live
    have fits := exact.fits
    simp only [clientWindow]
    omega
  · cases first : opened run.2 with
    | false => simp [exact.fresh first]
    | true =>
      have room := exact.room first
      omega

def heard (bytes : List Byte) : Arrival := .packet 0 (fun i => (bytes[i]?).getD 0) bytes.length

def resized : List (Moment × Arrival) :=
  [({}, heard (90 :: w_str "session" ++ w_u32 0 ++ w_u32 100 ++ w_u32 50)),
    ({}, heard (98 :: w_u32 0 ++ w_str "shell" ++ [0])), ({}, .quiet), ({}, .quiet),
    ({}, heard (98 :: w_u32 0 ++ w_str "window-change" ++ [0] ++ w_u32 80 ++ w_u32 24)), ({}, .quiet)]

/-- Three keys with a Ctrl-C among them that ends a command, a shell that takes one and
says two lines back, and a report when the pipe has room. -/
theorem input_exact_typed :
    let typing : List (Moment × Arrival) := [({ pipe := some 20 }, .quiet),
      ({ interrupts := [false, true, false], ends := [some 1] },
        heard (94 :: w_u32 0 ++ w_strn [0x61, 3, 0x62])),
      ({ said := [0x6f, 0x0a, 0x6b] }, .quiet), ({}, .quiet), ({}, .quiet), ({}, .quiet)]
    let inputs := resized ++ typing
    let run := inputs.foldl log (enter 0 0 0 0, [])
    given run.2 ++ run.1.tosh = kept run.2 ∧ carried run.2 ≤ allowed run.2 := by
  intro typing inputs run
  have whole := input_exact 0 0 0 0 inputs (by decide +kernel)
  exact ⟨whole.1, whole.2.2.2⟩

/-- A pipe with room for three bytes takes three bytes of the report. -/
theorem part_of_report :
    let inputs : List (Moment × Arrival) := resized ++ [({ pipe := some 3 }, .quiet)]
    (inputs.foldl log (enter 0 0 0 0, [])).2 =
        [.opened 100, .sent (.openConfirmation 0), .shell, .report 24 80 [0x1b, 0x5b, 0x38]] ∧
      size_report 24 80 = [0x1b, 0x5b, 0x38, 0x3b, 0x32, 0x34, 0x3b, 0x38, 0x30, 0x74] ∧
      ¬ Told [.opened 100, .sent (.openConfirmation 0), .shell, .report 24 80 [0x1b, 0x5b, 0x38]] := by
  refine ⟨by decide +kernel, by decide +kernel, ?_⟩
  intro told
  have whole := (told [.opened 100, .sent (.openConfirmation 0), .shell] 24 80 _ [] rfl).1
  exact absurd whole (by decide +kernel)

end Ubiqos.Sshd.Session
