import Ubiqos.Netcon.Session
import Ubiqos.Sshd.Session

/-!
The line ends of both servers of a shell. Each read of the pair is translated on its own, and
what a translation makes of a line feed depends on the byte before it.
-/

namespace Ubiqos.Netcon

open Machine

def Translated (r : Relay) : Prop := r.gone = false → r.sent = translate 0 r.drained

def Offered (r : Relay) : Input → Prop
  | .drained n k => r.pc = .drain → k < 0 ∨ ((crlf (bufSz * 2) 0 [] (chunk r n)).length ≤ k ∧
      ¬ ((chunk r n).head? = some LF ∧ r.drained.getLast? = some CR))
  | _ => True

def Live (r : Relay) : Prop := r.pc ≠ .ended → r.gone = false

variable {r : Relay}

theorem step_live (live : Live r) (input : Input) : Live (step r input) := by
  cases input with
  | accept shell =>
    rw [step]
    split
    · cases shell <;> exact fun _ => rfl
    · exact live
  | shellWrites bytes =>
    rw [step]
    split
    · exact live
    · exact live
  | shellExits => exact live
  | wrote k =>
    rw [step]
    split
    · rename_i turn
      exact fun _ => live (by simp [turn])
    · exact live
  | received got answers k =>
    rw [step]
    split
    · rename_i turn
      cases got with
      | none => exact fun ends => absurd rfl ends
      | some got => exact fun _ => live (by simp [turn])
    · exact live
  | drained n k =>
    rw [step]
    split
    · rename_i turn
      have works : r.gone = false := live (by simp [turn])
      simp only [drain]
      split
      · exact fun _ => works
      · split
        · exact fun ends => absurd rfl ends
        · exact fun _ => works
    · exact live
  | checked =>
    rw [step]
    split
    · rename_i turn
      exact fun _ => live (by simp [turn])
    · exact live

theorem translate_seam {piece : List Byte} (seam : piece.head? = some LF) :
    translate 0 piece = CR :: translate CR piece := by
  obtain ⟨rest, rfl⟩ : ∃ rest, piece = LF :: rest := by
    cases piece with
    | nil => cases seam
    | cons c rest => exact ⟨rest, by rw [Option.some.inj seam]⟩
  rfl

theorem sent_exact {read piece : List Byte} (some : piece ≠ []) {k : Nat} :
    (translate 0 piece).take k = translate (read.getLast?.getD 0) piece ↔
      (translate 0 piece).length ≤ k ∧ ¬ (piece.head? = Option.some LF ∧ read.getLast? = Option.some CR) := by
  by_cases seam : piece.head? = Option.some LF ∧ read.getLast? = Option.some CR
  · rw [seam.2, Option.getD_some, translate_seam seam.1]
    refine ⟨fun same => ?_, fun both => absurd ⟨seam.1, rfl⟩ both.2⟩
    obtain ⟨rest, rfl⟩ : ∃ rest, piece = LF :: rest := by
      cases piece with
      | nil => exact absurd rfl some
      | cons c rest => exact ⟨rest, by rw [Option.some.inj seam.1]⟩
    cases k with
    | zero => cases same
    | succ k => exact absurd (List.cons_eq_cons.mp same).1 (by decide)
  · have whole : translate (read.getLast?.getD 0) piece = translate 0 piece := by
      apply translate_piece
      rintro ⟨feed, last⟩
      cases ends : read.getLast? with
      | none =>
        rw [ends] at last
        exact absurd last (by decide)
      | some c =>
        rw [ends] at last
        exact seam ⟨feed, by rw [ends]; exact congrArg Option.some last⟩
    rw [whole, List.take_eq_self_iff]
    exact ⟨fun all => ⟨all, seam⟩, fun both => both.1⟩

theorem chunk_crlf (n : Nat) : crlf (bufSz * 2) 0 [] (chunk r n) = translate 0 (chunk r n) := by
  have length := List.length_take_le (max 1 (min n bufSz)) r.pending
  apply crlf_eq
  unfold chunk bufSz at *
  rw [List.length_nil]
  omega

theorem drain_exact (live : Live r) (well : Translated r) (turn : r.pc = .drain) (n : Nat) (k : Int) :
    Translated (drain r n k) ↔ Offered r (.drained n k) := by
  have works : r.gone = false := live (by simp [turn])
  have sent := well works
  simp only [drain]
  split
  · rename_i none
    have nothing : chunk r n = [] := by rw [chunk, none, List.take_nil]
    have offered : Offered r (.drained n k) := by
      intro _
      rw [nothing]
      refine (lt_or_ge k 0).imp id fun positive => ⟨positive, fun both => ?_⟩
      cases both.1
    exact ⟨fun _ => offered, fun _ _ => sent⟩
  · rename_i waiting
    split
    · rename_i fails
      exact ⟨fun _ _ => .inl fails, fun _ stays => absurd stays (by simp)⟩
    · rename_i takes
      have some : chunk r n ≠ [] := by
        intro nothing
        rcases List.take_eq_nil_iff.mp nothing with zero | none
        · omega
        · exact waiting none
      have exact := (@sent_exact r.drained) some (k := k.toNat)
      have asks : (translate 0 (chunk r n)).length ≤ k.toNat ↔ ((translate 0 (chunk r n)).length : Int) ≤ k := by omega
      simp only [Translated, Offered, chunk_crlf, works, turn, true_imp_iff, sent, translate_append,
        List.append_cancel_left_eq, exact, takes, false_or, asks]

theorem step_exact (live : Live r) (well : Translated r) (input : Input) :
    Translated (step r input) ↔ Offered r input := by
  cases input with
  | drained n k =>
    rw [step]
    split
    · rename_i turn
      exact drain_exact live well turn n k
    · rename_i other
      exact ⟨fun _ turn => absurd turn other, fun _ => well⟩
  | accept shell =>
    refine ⟨fun _ => trivial, fun _ => ?_⟩
    rw [step]
    split
    · cases shell <;> exact fun _ => rfl
    · exact well
  | shellWrites bytes =>
    refine ⟨fun _ => trivial, fun _ => ?_⟩
    rw [step]
    split
    · exact well
    · exact well
  | shellExits => exact ⟨fun _ => trivial, fun _ => well⟩
  | wrote k =>
    refine ⟨fun _ => trivial, fun _ => ?_⟩
    rw [step]
    split
    · exact well
    · exact well
  | received got answers k =>
    refine ⟨fun _ => trivial, fun _ => ?_⟩
    rw [step]
    split
    · cases got with
      | none => exact fun stays => absurd stays (by simp [receive])
      | some got => exact well
    · exact well
  | checked =>
    refine ⟨fun _ => trivial, fun _ => ?_⟩
    rw [step]
    split
    · exact well
    · exact well

end Ubiqos.Netcon

namespace Ubiqos.Sshd.Session

open Machine
open Netcon (translate LF CR)

def unsent : Place → List Byte
  | .sending rest false _ => rest
  | _ => []

def data : Event → List Byte
  | .sent (.channelData _ bytes) => bytes
  | _ => []

/-- A session, what it read of the shell's output and what of it was sent. -/
structure Output where
  session : Session
  read : List Byte
  sent : List Byte

def readBy (m : Moment) (s : Session) : List Byte :=
  match s.place with
  | .draining _ => m.said.take 512
  | _ => []

def sentBy (m : Moment) (a : Arrival) (s : Session) : List Byte :=
  match s.place with
  | .sending _ false _ => (s.step m a).2.flatMap data
  | _ => []

def turn (o : Output) (input : Moment × Arrival) : Output :=
  ⟨(o.session.step input.1 input.2).1, o.read ++ readBy input.1 o.session,
    o.sent ++ sentBy input.1 input.2 o.session⟩

/-- The client has, or is being sent, the translation of all that was read; a session that
ended has sent a part of it. -/
def Translated (o : Output) : Prop :=
  if o.session.place = .ended then o.sent <+: translate 0 o.read
  else o.sent ++ unsent o.session.place = translate 0 o.read

def Offered (o : Output) (input : Moment × Arrival) : Prop :=
  ¬ ((readBy input.1 o.session).head? = some LF ∧ o.read.getLast? = some CR)

theorem crlf_eq {cap k : Nat} {prev : Byte} {bytes : List Byte} (room : k + 2 * bytes.length ≤ cap) :
    crlf cap bytes prev k = translate prev bytes := by
  induction bytes generalizing prev k with
  | nil => rfl
  | cons c rest ih =>
    rw [List.length_cons] at room
    have fits : ¬ cap < k + 2 := by omega
    rw [crlf, if_neg fits, Netcon.translate]
    by_cases feed : c = LF ∧ prev ≠ CR
    · have both : (c == 0x0a && prev != 0x0d) = true := by
        simpa [LF, CR] using feed
      rw [if_pos both, if_pos feed, ih (by omega), feed.1]
      rfl
    · have neither : ¬ (c == 0x0a && prev != 0x0d) = true := by
        simpa [LF, CR] using feed
      rw [if_neg neither, if_neg feed, ih (by omega)]
      rfl

section Silent
variable {s : Session} {m : Moment}

theorem pass_unsent (s : Session) : unsent s.pass.place = [] := by
  simp only [pass]
  split <;> rfl

theorem send_unsent (silent : unsent s.place = []) (reply : Reply) : unsent (send m s reply).1.place = [] := by
  simp only [send]
  split
  · exact silent
  · rfl

theorem reply_unsent (want : Byte) (ok : Bool) : unsent (reply_to m s want ok).1.place = [] := by
  simp only [reply_to]
  split
  · exact pass_unsent s
  · exact send_unsent (pass_unsent s) _

theorem tell_size_place (m : Moment) (s : Session) : (tell_size m s).1.place = s.place := by
  simp only [tell_size]
  split <;> rfl

theorem credit_unsent (silent : unsent s.place = []) (given : Nat) :
    unsent (credit m given s).1.place = [] := by
  simp only [credit]
  split
  · exact silent
  · split
    · exact silent
    · rfl

theorem feed_shell_unsent (silent : unsent s.place = []) : unsent (feed_shell m s).1.place = [] := by
  simp only [feed_shell]
  exact credit_unsent (by rw [tell_size_place]; exact silent) _

theorem check_unsent (moved : Bool) : unsent (s.check m moved).1.place = [] := by
  simp only [check]
  split
  · exact feed_shell_unsent rfl
  · split
    · split
      · exact feed_shell_unsent rfl
      · rfl
    · exact feed_shell_unsent rfl

theorem queue_input_place (d : List Byte) (answers : List Bool) : (s.queue_input d answers).place = s.place := by
  induction d generalizing s answers with
  | nil => rfl
  | cons c d ih =>
    rw [queue_input]
    split
    · rw [ih]
    · split
      · rfl
      · rw [ih]

theorem channel_open_unsent (r : Rd) : unsent (s.channel_open m r).1.1.place = [] := by
  simp only [channel_open, bind_apply]
  generalize (r_str r).1 = type
  generalize (r_u32 (r_str r).2).1 = sender
  generalize (r_u32 (r_u32 (r_str r).2).2).1 = window
  split
  · simp only [ret_apply]
    exact pass_unsent _
  · simp only [ret_apply]
    exact send_unsent (pass_unsent _) _

theorem channel_request_unsent (r : Rd) : unsent (s.channel_request m r).1.1.place = [] := by
  simp only [channel_request, bind_apply]
  generalize (r_str (r_u32 r).2).1 = type
  generalize (r_byte (r_str (r_u32 r).2).2).1 = want
  split
  · exact reply_unsent want true
  · split
    · simp only [bind_apply, ret_apply]
      exact reply_unsent want true
    · split
      · exact reply_unsent want m.starts
      · exact reply_unsent want false

theorem channel_data_in_unsent (r : Rd) : unsent (s.channel_data_in m r).1.1.place = [] := by
  simp only [channel_data_in, bind_apply]
  cases (channel_data r).1 with
  | none => exact pass_unsent s
  | some d =>
    dsimp only
    split
    · exact feed_shell_unsent (pass_unsent _)
    · exact pass_unsent s

theorem handle_unsent (seq : Nat) (msg : Byte) (r : Rd) : unsent (s.handle m seq msg r).1.1.place = [] := by
  have passes := pass_unsent s
  simp only [handle]
  split
  · exact channel_open_unsent r
  · split
    · exact channel_request_unsent r
    · split
      · exact channel_data_in_unsent r
      · split
        · exact passes
        · split
          · rfl
          · split
            · exact passes
            · exact passes

theorem meanwhile_place (msg : Byte) (r : Rd) :
    (s.meanwhile m msg r).1.1.place = s.place ∨ (s.meanwhile m msg r).1.1.place = .ended := by
  simp only [meanwhile]
  split
  · exact .inl rfl
  · split
    · left
      simp only [typed_meanwhile, bind_apply]
      cases (channel_data r).1 with
      | none => rfl
      | some d => exact queue_input_place d m.interrupts
    · split
      · exact .inr rfl
      · exact .inl rfl

theorem meanwhile_data (msg : Byte) (r : Rd) : (s.meanwhile m msg r).1.2.flatMap data = [] := by
  simp only [meanwhile]
  split
  · rfl
  · split
    · simp only [typed_meanwhile, bind_apply]
      cases (channel_data r).1 <;> rfl
    · split <;> rfl

theorem hear_listening {moved : Bool} (place : s.place = .listening moved) (seq : Nat) (msg : Byte) (r : Rd) :
    unsent (s.hear m seq msg r).1.1.place = [] := by
  simp only [hear, place]
  exact handle_unsent seq msg r

end Silent

section Steps
variable {o : Output} {m : Moment} {a : Arrival} {moved : Bool}

theorem translated_of_sent {session : Session} {read sent : List Byte} (silent : unsent session.place = [])
    (all : sent = translate 0 read) : Translated ⟨session, read, sent⟩ := by
  rw [Translated]
  split
  · exact all ▸ List.prefix_refl _
  · rw [silent, List.append_nil, all]

theorem turn_drains (well : Translated o) (place : o.session.place = .draining moved) :
    Translated (turn o (m, a)) ↔ Offered o (m, a) := by
  have sent : o.sent = translate 0 o.read := by
    rw [Translated, place, if_neg (by simp)] at well
    exact (List.append_nil _).symm.trans well
  have goes : o.session.step m a = o.session.drain m moved := by
    simp only [step, waits, advance, place]
    rfl
  have reads : readBy m o.session = m.said.take 512 := by simp only [readBy, place]
  have sends : sentBy m a o.session = [] := by simp only [sentBy, place]
  by_cases none : m.said.take 512 = []
  · have offered : Offered o (m, a) := by
      rw [Offered, reads, none]
      rintro ⟨feed, -⟩
      cases feed
    refine ⟨fun _ => offered, fun _ => ?_⟩
    rw [turn, reads, sends, none, List.append_nil, List.append_nil, goes]
    refine translated_of_sent ?_ sent
    simp only [drain, none]
    split
    · rfl
    · split <;> rfl
  · have short : 2 * (m.said.take 512).length ≤ 1024 := by
      have length := List.length_take_le 512 m.said
      omega
    have after : (o.session.drain m moved).1.place = .sending (translate 0 (m.said.take 512)) false moved := by
      have some : (!(m.said.take 512).isEmpty) = true := by simpa using none
      simp only [drain, if_pos some, go]
      rw [crlf_eq (by omega)]
    have exact := (@Netcon.sent_exact o.read) none (k := (translate 0 (m.said.take 512)).length)
    rw [List.take_length] at exact
    rw [Translated, turn, reads, sends, goes, after, if_neg (by simp), unsent, List.append_nil, sent,
      Netcon.translate_append, List.append_cancel_left_eq, exact, Offered, reads]
    exact ⟨fun both => both.2, fun whole => ⟨le_rfl, whole⟩⟩

theorem unread_exact (reads : readBy m o.session = []) (goes : Translated (turn o (m, a))) :
    Translated (turn o (m, a)) ↔ Offered o (m, a) := by
  refine ⟨fun _ => ?_, fun _ => goes⟩
  rw [Offered, reads]
  rintro ⟨feed, -⟩
  cases feed

theorem sending_translated (well : Translated o) {rest : List Byte} {echo : Bool}
    (place : o.session.place = .sending rest echo moved) : Translated (turn o (m, a)) := by
  have reads : readBy m o.session = [] := by simp only [readBy, place]
  have all : o.sent ++ unsent (.sending rest echo moved) = translate 0 o.read := by
    rwa [Translated, place, if_neg (by simp)] at well
  -- what a step sends of the rest, with what it leaves of it
  have carry : ∀ {next : Session × List Event}, o.session.step m a = next →
      (next.1.place = .ended ∧ next.2.flatMap data = [] ∨
        next.1.place ≠ .ended ∧ (echo = false → next.2.flatMap data ++ unsent next.1.place = rest) ∧
          (echo = true → unsent next.1.place = [])) → Translated (turn o (m, a)) := by
    intro next goes what
    have sends : sentBy m a o.session = if echo then [] else next.2.flatMap data := by
      cases echo <;> simp only [sentBy, place, goes] <;> rfl
    rw [Translated, turn, reads, sends, goes, List.append_nil]
    rcases what with ⟨ended, none⟩ | ⟨on, spoken, echoed⟩
    · rw [if_pos ended, none, ite_self, List.append_nil]
      exact all ▸ List.prefix_append _ _
    · rw [if_neg on]
      cases echo with
      | true =>
        rw [echoed rfl, ← all]
        simp [unsent]
      | false =>
        rw [← all, List.append_assoc]
        exact congrArg (o.sent ++ ·) (spoken rfl)
  by_cases waiting : o.session.waits = true
  · have hears : ∀ gone, (o.session.unheard gone).place = .ended := by
      intro gone
      simp only [unheard, place, go]
    cases a with
    | quiet => exact carry (if_pos waiting) (.inl ⟨hears false, rfl⟩)
    | gone => exact carry (if_pos waiting) (.inl ⟨hears true, rfl⟩)
    | packet seq payload n =>
      have goes : o.session.step m (.packet seq payload n) =
          (o.session.meanwhile m (payload 0) (reader payload n 1)).1 := by
        rw [step, if_pos waiting]
        simp only [hear, place]
      have none := meanwhile_data (m := m) (s := o.session) (payload 0) (reader payload n 1)
      refine carry goes ?_
      rcases meanwhile_place (m := m) (s := o.session) (payload 0) (reader payload n 1) with same | ended
      · refine .inr ⟨by rw [same, place]; simp, fun plain => ?_, fun echoed => ?_⟩
        · rw [none, same, place, plain]
          rfl
        · rw [same, place, echoed]
          rfl
      · exact .inl ⟨ended, none⟩
  · have goes : o.session.step m a = o.session.send_channel_data m rest echo moved := by
      simp only [step, if_neg waiting, advance, place]
    refine carry goes ?_
    by_cases empty : rest = []
    · have after : o.session.send_channel_data m rest echo moved =
          (o.session.go (if echo then .checking moved else .draining true), []) := by
        rw [empty]
        rfl
      rw [after, empty]
      simp only [go]
      cases echo with
      | true => exact .inr ⟨by simp, fun plain => absurd plain (by simp), fun _ => rfl⟩
      | false => exact .inr ⟨by simp, fun _ => rfl, fun echoed => absurd echoed (by simp)⟩
    · have some : ¬ rest.isEmpty = true := by simpa using empty
      simp only [send_channel_data, if_neg some, send]
      split
      · refine .inr ⟨by simp, fun plain => ?_, fun echoed => ?_⟩
        · subst plain
          simp [data, unsent]
        · subst echoed
          rfl
      · exact .inl ⟨rfl, rfl⟩

theorem turn_exact (well : Translated o) : Translated (turn o (m, a)) ↔ Offered o (m, a) := by
  cases place : o.session.place with
  | draining moved => exact turn_drains well place
  | sending rest echo moved =>
    exact unread_exact (by simp only [readBy, place]) (sending_translated well place)
  | checking moved =>
    have sent : o.sent = translate 0 o.read := by
      rw [Translated, place, if_neg (by simp)] at well
      exact (List.append_nil _).symm.trans well
    have reads : readBy m o.session = [] := by simp only [readBy, place]
    have sends : sentBy m a o.session = [] := by simp only [sentBy, place]
    have goes : o.session.step m a = o.session.check m moved := by
      simp only [step, waits, advance, place]
      rfl
    refine unread_exact reads ?_
    rw [turn, reads, sends, List.append_nil, List.append_nil, goes]
    exact translated_of_sent (check_unsent moved) sent
  | listening moved =>
    have sent : o.sent = translate 0 o.read := by
      rw [Translated, place, if_neg (by simp)] at well
      exact (List.append_nil _).symm.trans well
    have reads : readBy m o.session = [] := by simp only [readBy, place]
    have sends : sentBy m a o.session = [] := by simp only [sentBy, place]
    have waiting : o.session.waits = true := by simp only [waits, place]
    refine unread_exact reads ?_
    rw [turn, reads, sends, List.append_nil, List.append_nil]
    refine translated_of_sent ?_ sent
    have unheards : ∀ gone, unsent (o.session.unheard gone).place = [] := by
      intro gone
      simp only [unheard, place]
      split
      · exact pass_unsent _
      · rfl
    cases a with
    | packet seq payload n =>
      rw [step, if_pos waiting]
      exact hear_listening place seq _ _
    | quiet =>
      rw [step, if_pos waiting]
      exact unheards false
    | gone =>
      rw [step, if_pos waiting]
      exact unheards true
  | ended =>
    have reads : readBy m o.session = [] := by simp only [readBy, place]
    have sends : sentBy m a o.session = [] := by simp only [sentBy, place]
    have goes : o.session.step m a = (o.session, []) := by
      simp only [step, waits, advance, place]
      rfl
    refine unread_exact reads ?_
    rwa [turn, reads, sends, List.append_nil, List.append_nil, goes]

end Steps

/-- Both servers send the translation of what was read, in every state of a run, just when every
piece that is read begins on its own and, for `netcon`, the socket takes what it is offered. -/
theorem line_ends (clients : List Netcon.Input) (chan_id chan_window rows cols : Nat)
    (inputs : List (Moment × Arrival)) :
    ((∀ front, front <+: clients → Netcon.Translated (front.foldl Netcon.step Netcon.boot)) ↔
      Along Netcon.step Netcon.Offered Netcon.boot clients) ∧
    ((∀ front, front <+: inputs →
        Translated (front.foldl turn ⟨enter chan_id chan_window rows cols, [], []⟩)) ↔
      Along turn Offered ⟨enter chan_id chan_window rows cols, [], []⟩ inputs) := by
  constructor
  · exact (@along_iff _ _ _ _ Netcon.Live) (fun _ => rfl) (fun _ => rfl)
      (fun _ input _ live => Netcon.step_live live input)
      (fun _ input _ live well => Netcon.step_exact live well input)
  · exact (@along_iff _ _ _ _ (fun _ => True)) trivial rfl (fun _ _ _ _ => trivial)
      (fun _ _ _ _ well => turn_exact well)

/-- The two bytes of a line's end in two reads: both servers send a second carriage return. -/
theorem cut_line_end :
    (let packet (bytes : List Byte) : Arrival := .packet 0 (fun i => (bytes[i]?).getD 0) bytes.length
     let inputs : List (Moment × Arrival) :=
       [({}, packet (90 :: w_str "session" ++ w_u32 0 ++ w_u32 100 ++ w_u32 50)),
         ({}, packet (98 :: w_u32 0 ++ w_str "shell" ++ [0])), ({ said := [0x61, 0x0d] }, .quiet), ({}, .quiet),
         ({}, .quiet), ({ said := [0x0a] }, .quiet), ({}, .quiet)]
     let o := inputs.foldl turn ⟨enter 0 0 0 0, [], []⟩
     o.read = [0x61, 0x0d, 0x0a] ∧ o.sent = [0x61, 0x0d, 0x0d, 0x0a] ∧ ¬ Translated o) ∧
    let clients : List Netcon.Input := [.accept true, .wrote 0, .received (some []) [] 0,
      .shellWrites [0x61, 0x0d], .drained 256 2, .shellWrites [0x0a], .drained 256 2]
    let r := clients.foldl Netcon.step Netcon.boot
    r.drained = [0x61, 0x0d, 0x0a] ∧ r.sent = [0x61, 0x0d, 0x0d, 0x0a] ∧ ¬ Netcon.Translated r := by
  refine ⟨⟨by decide +kernel, by decide +kernel, ?_⟩, by decide +kernel, by decide +kernel, ?_⟩
  · rw [Translated]
    decide +kernel
  · exact fun all => absurd (all (by decide +kernel)) (by decide +kernel)

end Ubiqos.Sshd.Session
