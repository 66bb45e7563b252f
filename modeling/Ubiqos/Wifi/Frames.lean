import Ubiqos.Lib.Buffered
import Ubiqos.Lib.Words

/-!
Commands to the WiFi coprocessor and its replies, `src/modules/wifilib/wifilib.c`: a frame goes out
through a small accumulator that long parameters bypass, and a reply is read as a whole before
anything is made of it.
-/

namespace Ubiqos.Wifi

open Buffered Cells

abbrev Byte := BitVec 8

def START_CMD : Byte := 0xe0
def END_CMD : Byte := 0xee
def ERR_CMD : Byte := 0xef
def REPLY_FLAG : Byte := 0x80

def byte (n : Nat) : Byte := BitVec.ofNat 8 n

def txAcc : Nat := 64

/-- The accumulator with `tx_len`, and every call of `spi_write`. -/
abbrev Tx := Sink Byte

def txFlush (t : Tx) : Tx := flush t

def txByte (t : Tx) (v : Byte) : Tx := push txAcc t v

def txBegin (t : Tx) (cmd nparam : Byte) : Tx :=
  let t := { t with waiting := [], count := 0 }
  txByte (txByte (txByte t START_CMD) cmd) nparam

def txParam (t : Tx) (p : List Byte) : Tx := p.foldl txByte (txByte t (byte p.length))

def txParamLong (t : Tx) (p : List Byte) : Tx :=
  let t := txByte t (byte (p.length / 256))
  let t := txByte t (byte p.length)
  pass t p

/-- `while (total & 3u)`. -/
def txPad (t : Tx) (total : Nat) : Tx :=
  if total % 4 = 0 then t else txPad (txByte t 0xff) (total + 1)
termination_by (4 - total % 4) % 4
decreasing_by omega

def txEnd (t : Tx) : Tx :=
  let t := txByte t END_CMD
  txFlush (txPad t t.total)

/-- `nina_arg_t`, whose length is one that its prefix holds. -/
structure Arg where
  bytes : List Byte
  longForm : Bool
  fits : bytes.length < if longForm then 2 ^ 16 else 2 ^ 8

structure Command where
  cmd : Byte
  args : List Arg
  few : args.length < 2 ^ 8

def txArg (t : Tx) (a : Arg) : Tx :=
  if a.longForm then txParamLong t a.bytes else txParam t (a.bytes.take (a.bytes.length % 256))

/-- The bytes of one attempt of `nina_xact_n`. -/
def sendFrame (t : Tx) (c : Command) : Tx :=
  txEnd (c.args.foldl txArg (txBegin t c.cmd (byte c.args.length)))

def Arg.sent (a : Arg) : List Byte :=
  (if a.longForm then [byte (a.bytes.length / 256), byte a.bytes.length] else [byte a.bytes.length]) ++
    a.bytes

def Command.body (c : Command) : List Byte :=
  [START_CMD, c.cmd, byte c.args.length] ++ c.args.flatMap Arg.sent ++ [END_CMD]

def Command.frame (c : Command) : List Byte :=
  c.body ++ List.replicate ((4 - c.body.length % 4) % 4) 0xff

theorem emits_arg (a : Arg) : Emits (txArg · a) a.sent := by
  have fits := a.fits
  intro s
  unfold txArg Arg.sent
  split
  · exact (((emits_push txAcc _).next (emits_push txAcc _)).next (emits_pass a.bytes)) s
  · rename_i short
    rw [if_neg short] at fits
    have small : a.bytes.length < 256 := fits
    rw [Nat.mod_eq_of_lt small, List.take_length]
    exact ((emits_push txAcc _).next (emits_pushAll txAcc a.bytes)) s

theorem emits_pad (total : Nat) :
    Emits (txPad · total) (List.replicate ((4 - total % 4) % 4) 0xff) := by
  intro s
  induction s, total using txPad.induct with
  | case1 s total whole =>
    beta_reduce
    rw [txPad, if_pos whole, whole]
    exact emits_nil s
  | case2 s total short ih =>
    have one : (4 - total % 4) % 4 = (4 - (total + 1) % 4) % 4 + 1 := by omega
    beta_reduce
    rw [txPad, if_neg short, one, List.replicate_succ]
    obtain ⟨output, total'⟩ := emits_push txAcc (0xff : Byte) s
    obtain ⟨padded, counted⟩ := ih
    rw [txByte] at padded counted ⊢
    rw [padded, counted, output, total', List.append_assoc]
    refine ⟨rfl, ?_⟩
    simp only [List.length_cons, List.length_nil]
    omega

theorem sendFrame_written (t : Tx) (c : Command) :
    (sendFrame t c).written.flatten = t.written.flatten ++ c.frame := by
  have begun : Emits (fun s => txByte (txByte (txByte s START_CMD) c.cmd) (byte c.args.length))
      [START_CMD, c.cmd, byte c.args.length] :=
    ((emits_push txAcc _).next (emits_push txAcc _)).next (emits_push txAcc _)
  have body := (begun.next (emits_foldl emits_arg c.args)).next (emits_push txAcc END_CMD)
  obtain ⟨output, total⟩ := body { t with waiting := [], count := 0 }
  -- what `tx_begin` finds waiting is dropped, not written
  have cleared : Sink.output { t with waiting := [], count := 0 } = t.written.flatten :=
    List.append_nil _
  rw [cleared] at output
  have counted := total.trans (Nat.zero_add _)
  rw [sendFrame, txEnd, txFlush, written_flush, (emits_pad _ _).1]
  calc _ = (t.written.flatten ++ c.body) ++ List.replicate ((4 - c.body.length % 4) % 4) 0xff :=
        congrArg₂ (· ++ ·) output (by rw [← Command.body] at counted; rw [← counted]; rfl)
    _ = _ := List.append_assoc ..

def NINA_MAX_PARAMS : Nat := 8

def RX_ACC : Nat := 96

/-- What the chip answers, byte by byte, for as long as it is asked. -/
abbrev Wire := Nat → Byte

/-- `nina_reply_t` and `rx_acc`, with every place of `rx_acc` that is written. -/
structure Rx where
  pos : Nat := 0
  rxAcc : Nat → Byte := fun _ => 0
  stored : List Nat := []
  n : Nat := 0
  entries : List (Nat × Nat) := []

/-- `for (int i = 0; i < 256; i++) if (xfer(0xff) == END_CMD) return;` -/
def resyncFrom (wire : Wire) : Nat → Nat → Nat
  | 0, pos => pos
  | i + 1, pos => if wire pos = END_CMD then pos + 1 else resyncFrom wire i (pos + 1)

def resync (wire : Wire) (r : Rx) : Rx := { r with pos := resyncFrom wire 256 r.pos }

def awaitHead (wire : Wire) : Nat → Nat → Byte → Byte × Nat
  | 0, pos, b => (b, pos)
  | i + 1, pos, _ =>
    if wire pos = START_CMD ∨ wire pos = ERR_CMD then (wire pos, pos + 1)
    else awaitHead wire i (pos + 1) (wire pos)

/-- `rx_acc[used + j] = xfer(0xff)`. -/
def rxByte (wire : Wire) (place : Nat) (r : Rx) : Rx :=
  { r with
    pos := r.pos + 1
    rxAcc := Function.update r.rxAcc place (wire r.pos)
    stored := r.stored ++ [place] }

def rxBytes (wire : Wire) : Nat → Nat → Rx → Rx
  | 0, _, r => r
  | left + 1, place, r => rxBytes wire left (place + 1) (rxByte wire place r)

def rxParams (wire : Wire) : Nat → Nat → Rx → Bool × Rx
  | 0, _, r => (true, r)
  | left + 1, used, r =>
    let len := (wire r.pos).toNat
    let r := { r with pos := r.pos + 1 }
    if used + len > RX_ACC then (false, resync wire r)
    else
      let r := rxBytes wire len used r
      rxParams wire left (used + len) { r with entries := r.entries ++ [(len, used)] }

def rxReply (wire : Wire) (cmd : Byte) (r : Rx) : Bool × Rx :=
  let (b, pos) := awaitHead wire 64 r.pos 0
  let r := { r with pos := pos, entries := [] }
  if b ≠ START_CMD then (false, resync wire r)
  else if wire r.pos ≠ cmd ||| REPLY_FLAG then (false, resync wire { r with pos := r.pos + 1 })
  else
    let n := (wire (r.pos + 1)).toNat
    let r := { r with pos := r.pos + 2 }
    if n > NINA_MAX_PARAMS then (false, resync wire r)
    else
      match rxParams wire n 0 { r with n := n } with
      | (false, r) => (false, r)
      | (true, r) =>
        if wire r.pos ≠ END_CMD then (false, resync wire { r with pos := r.pos + 1 })
        else (true, { r with pos := r.pos + 1 })

/-- `r->val[i]` with `r->len[i]`. -/
def Rx.values (r : Rx) : List (List Byte) :=
  r.entries.map fun e => (List.range e.1).map fun j => r.rxAcc (e.2 + j)

def replyFrame (cmd : Byte) (params : List (List Byte)) : List Byte :=
  [START_CMD, cmd ||| REPLY_FLAG, byte params.length] ++
    params.flatMap (fun p => byte p.length :: p) ++ [END_CMD]

/-- The frame comes within 64 bytes, and what it holds is within what there is room for. -/
structure Replies (wire : Wire) (start : Nat) (cmd : Byte) (params : List (List Byte)) : Prop where
  few : params.length ≤ NINA_MAX_PARAMS
  fits : (params.map List.length).sum ≤ RX_ACC
  sits : ∃ skipped : List Byte, skipped.length < 64 ∧
    (∀ b ∈ skipped, b ≠ START_CMD ∧ b ≠ ERR_CMD) ∧
    Sits wire start (skipped ++ replyFrame cmd params)

variable {wire : Wire} {cmd : Byte} {r : Rx} {params : List (List Byte)}

theorem awaitHead_finds {skipped : List Byte} {fuel pos : Nat} (b : Byte)
    (soon : skipped.length < fuel) (clean : ∀ b ∈ skipped, b ≠ START_CMD ∧ b ≠ ERR_CMD)
    (sits : Sits wire pos (skipped ++ [START_CMD])) :
    awaitHead wire fuel pos b = (START_CMD, pos + skipped.length + 1) := by
  induction fuel generalizing skipped pos b with
  | zero => omega
  | succ fuel ih =>
    cases skipped with
    | nil =>
      have here : wire pos = START_CMD := (sits_cons.mp sits).1
      rw [awaitHead, if_pos (Or.inl here), here]
      rfl
    | cons x skipped =>
      obtain ⟨here, rest⟩ := sits_cons.mp sits
      obtain ⟨first, clean⟩ := List.forall_mem_cons.mp clean
      rw [awaitHead, here, if_neg (not_or.mpr first), ih x (Nat.lt_of_succ_lt_succ soon) clean rest]
      rw [List.length_cons, Nat.add_right_comm pos 1, Nat.add_assoc pos]

theorem awaitHead_found {fuel pos : Nat} {b : Byte} (other : b ≠ START_CMD)
    (found : (awaitHead wire fuel pos b).1 = START_CMD) :
    ∃ skipped : List Byte, skipped.length < fuel ∧ (∀ b ∈ skipped, b ≠ START_CMD ∧ b ≠ ERR_CMD) ∧
      Sits wire pos (skipped ++ [START_CMD]) := by
  induction fuel generalizing pos b with
  | zero => exact absurd found other
  | succ fuel ih =>
    by_cases head : wire pos = START_CMD ∨ wire pos = ERR_CMD
    · rw [awaitHead, if_pos head] at found
      exact ⟨[], Nat.succ_pos _, nofun, sits_cons.mpr ⟨found, nofun⟩⟩
    · rw [awaitHead, if_neg head] at found
      obtain ⟨skipped, soon, clean, sits⟩ := ih (not_or.mp head).1 found
      exact ⟨wire pos :: skipped, Nat.succ_lt_succ soon,
        List.forall_mem_cons.mpr ⟨not_or.mp head, clean⟩, sits_cons.mpr ⟨rfl, sits⟩⟩

theorem rxBytes_eq (len place : Nat) (r : Rx) :
    rxBytes wire len place r =
      { r with
        pos := r.pos + len
        rxAcc := fun i => if place ≤ i ∧ i < place + len then wire (r.pos + (i - place)) else r.rxAcc i
        stored := r.stored ++ List.range' place len } := by
  induction len generalizing place r with
  | zero =>
    have none : (fun i => if place ≤ i ∧ i < place + 0 then wire (r.pos + (i - place)) else r.rxAcc i) =
        r.rxAcc := funext fun i => if_neg (by omega)
    rw [rxBytes, none]
    simp
  | succ len ih =>
    rw [rxBytes, ih]
    simp only [rxByte, List.range'_succ, List.append_assoc, List.singleton_append, Rx.mk.injEq,
      and_true]
    refine ⟨by omega, funext fun i => ?_⟩
    by_cases first : i = place
    · subst first
      simp
    · rw [Function.update_of_ne first]
      by_cases inside : place ≤ i ∧ i < place + (len + 1)
      · rw [if_pos inside, if_pos (by omega)]
        congr 1
        omega
      · rw [if_neg inside, if_neg (by omega)]

def rxParam (wire : Wire) (used : Nat) (r : Rx) : Rx :=
  let len := (wire r.pos).toNat
  let r := rxBytes wire len used { r with pos := r.pos + 1 }
  { r with entries := r.entries ++ [(len, used)] }

variable {left used : Nat}

theorem rxParams_succ (room : used + (wire r.pos).toNat ≤ RX_ACC) :
    rxParams wire (left + 1) used r =
      rxParams wire left (used + (wire r.pos).toNat) (rxParam wire used r) := by
  rw [rxParams]
  exact if_neg (Nat.not_lt.mpr room)

/-- What the earlier entries stand for lies below `used`. -/
def Rx.Below (r : Rx) (used : Nat) : Prop := ∀ e ∈ r.entries, e.2 + e.1 ≤ used

theorem rxParam_below {used : Nat} (below : r.Below used) :
    (rxParam wire used r).Below (used + (wire r.pos).toNat) := by
  intro e mem
  simp only [rxParam, rxBytes_eq, List.mem_append, List.mem_singleton] at mem
  rcases mem with old | rfl
  · exact Nat.le_add_right_of_le (below e old)
  · exact Nat.le_refl _

theorem rxParam_values {used : Nat} (below : r.Below used) :
    (rxParam wire used r).values =
      r.values ++ [(List.range (wire r.pos).toNat).map fun j => wire (r.pos + 1 + j)] := by
  have old : ∀ e ∈ r.entries, ∀ j ∈ List.range e.1,
      (rxParam wire used r).rxAcc (e.2 + j) = r.rxAcc (e.2 + j) := by
    intro e mem j inside
    have low := below e mem
    rw [List.mem_range] at inside
    simp only [rxParam, rxBytes_eq]
    exact if_neg (by omega)
  have new : ∀ j ∈ List.range (wire r.pos).toNat,
      (rxParam wire used r).rxAcc (used + j) = wire (r.pos + 1 + j) := by
    intro j inside
    rw [List.mem_range] at inside
    simp only [rxParam, rxBytes_eq]
    rw [if_pos (by omega), Nat.add_sub_cancel_left]
  have entries : (rxParam wire used r).entries = r.entries ++ [((wire r.pos).toNat, used)] := by
    simp only [rxParam, rxBytes_eq]
  rw [Rx.values, entries, List.map_append, List.map_singleton]
  exact congrArg₂ (· ++ ·) (List.map_congr_left fun e mem => List.map_congr_left (old e mem))
    (congrArg (fun p => [p]) (List.map_congr_left new))

theorem rxParam_pos {used : Nat} : (rxParam wire used r).pos = r.pos + 1 + (wire r.pos).toNat := by
  simp only [rxParam, rxBytes_eq]

def encoded (params : List (List Byte)) : List Byte := params.flatMap fun p => byte p.length :: p

theorem encoded_cons (p : List Byte) :
    encoded (p :: params) = byte p.length :: (p ++ encoded params) := rfl

theorem rxParams_takes (below : r.Below used) (many : params.length = left)
    (fits : used + (params.map List.length).sum ≤ RX_ACC) (sits : Sits wire r.pos (encoded params)) :
    (rxParams wire left used r).1 = true ∧
      (rxParams wire left used r).2.values = r.values ++ params ∧
      (rxParams wire left used r).2.pos = r.pos + (encoded params).length := by
  induction params generalizing left used r with
  | nil =>
    subst many
    exact ⟨rfl, (List.append_nil _).symm, rfl⟩
  | cons p params ih =>
    subst many
    rw [List.map_cons, List.sum_cons] at fits
    have small : p.length < 2 ^ 8 := by unfold RX_ACC at fits; omega
    obtain ⟨head, rest⟩ := sits_cons.mp (encoded_cons p ▸ sits)
    obtain ⟨here, after⟩ := sits_append.mp rest
    have len : (wire r.pos).toNat = p.length := by
      rw [head]
      exact Nat.mod_eq_of_lt small
    have pos : (rxParam wire used r).pos = r.pos + 1 + p.length := by rw [rxParam_pos, len]
    have values := (@rxParam_values wire) below
    rw [len, sits_read here] at values
    obtain ⟨taken, read, stands⟩ := ih (len ▸ rxParam_below below) rfl
      (Nat.add_assoc .. ▸ fits) (pos ▸ after)
    rw [List.length_cons, rxParams_succ (by omega), len]
    refine ⟨taken, ?_, ?_⟩
    · rw [read, values, List.append_assoc, List.singleton_append]
    · rw [stands, pos]
      rw [encoded_cons, List.length_cons, List.length_append]
      omega

theorem rxParams_taken (taken : (rxParams wire left used r).1 = true)
    (within : used ≤ RX_ACC) :
    ∃ params : List (List Byte), params.length = left ∧
      used + (params.map List.length).sum ≤ RX_ACC ∧ Sits wire r.pos (encoded params) := by
  induction left generalizing used r with
  | zero => exact ⟨[], rfl, within, nofun⟩
  | succ left ih =>
    by_cases room : used + (wire r.pos).toNat ≤ RX_ACC
    · rw [rxParams_succ room] at taken
      obtain ⟨params, rfl, fits, sits⟩ := ih taken room
      refine ⟨(List.range (wire r.pos).toNat).map (fun j => wire (r.pos + 1 + j)) :: params, rfl, ?_, ?_⟩
      · simp only [List.map_cons, List.sum_cons, List.length_map, List.length_range]
        omega
      · rw [rxParam_pos] at sits
        refine sits_cons.mpr ⟨?_, sits_append.mpr ⟨fun i inside => ?_, ?_⟩⟩
        · rw [List.length_map, List.length_range, byte, BitVec.ofNat_toNat, BitVec.setWidth_eq]
        · rw [List.getElem_map, List.getElem_range]
        · rwa [List.length_map, List.length_range]
    · simp only [rxParams, if_pos (Nat.lt_of_not_le room), Bool.false_eq_true] at taken

theorem replyFrame_eq : replyFrame cmd params =
    START_CMD :: (cmd ||| REPLY_FLAG) :: byte params.length :: (encoded params ++ [END_CMD]) := rfl

theorem sits_replyFrame {pos : Nat} : Sits wire pos (replyFrame cmd params) ↔
    wire pos = START_CMD ∧ wire (pos + 1) = cmd ||| REPLY_FLAG ∧
      wire (pos + 2) = byte params.length ∧ Sits wire (pos + 3) (encoded params) ∧
        wire (pos + 3 + (encoded params).length) = END_CMD := by
  rw [replyFrame_eq, sits_cons, sits_cons, sits_cons, sits_append, sits_cons]
  exact and_congr_right fun _ => and_congr_right fun _ => and_congr_right fun _ =>
    and_congr_right fun _ => and_iff_left nofun

theorem rxReply_head {pos : Nat} (head : awaitHead wire 64 r.pos 0 = (START_CMD, pos)) :
    rxReply wire cmd r =
      let r := { r with pos := pos, entries := [] }
      if wire r.pos ≠ cmd ||| REPLY_FLAG then (false, resync wire { r with pos := r.pos + 1 })
      else
        let n := (wire (r.pos + 1)).toNat
        let r := { r with pos := r.pos + 2 }
        if n > NINA_MAX_PARAMS then (false, resync wire r)
        else
          match rxParams wire n 0 { r with n := n } with
          | (false, r) => (false, r)
          | (true, r) =>
            if wire r.pos ≠ END_CMD then (false, resync wire { r with pos := r.pos + 1 })
            else (true, { r with pos := r.pos + 1 }) := by
  unfold rxReply
  rw [head]
  exact if_neg (not_not_intro rfl)

theorem rxReply_takes (replies : Replies wire r.pos cmd params) :
    (rxReply wire cmd r).1 = true ∧ (rxReply wire cmd r).2.values = params := by
  obtain ⟨few, fits, skipped, soon, clean, sits⟩ := replies
  obtain ⟨before, frame⟩ := sits_append.mp sits
  obtain ⟨start, kind, many, body, stop⟩ := sits_replyFrame.mp frame
  have head := awaitHead_finds 0 soon clean (sits_append.mpr ⟨before, sits_cons.mpr ⟨start, nofun⟩⟩)
  have count : (wire (r.pos + skipped.length + 2)).toNat = params.length := by
    rw [many]
    exact Nat.mod_eq_of_lt (by unfold NINA_MAX_PARAMS at few; omega)
  obtain ⟨taken, read, stands⟩ := (@rxParams_takes _
    { r with pos := r.pos + skipped.length + 3, entries := [], n := params.length } _ _ 0) nofun rfl
      (by rwa [Nat.zero_add]) body
  rw [rxReply_head head]
  dsimp only
  rw [if_neg (not_not_intro kind)]
  simp only [Nat.add_assoc] at count taken read stands stop ⊢
  rw [count, if_neg (Nat.not_lt.mpr few)]
  revert taken read stands
  cases rxParams wire params.length 0 _ with
  | mk ok out =>
    rintro rfl read stands
    dsimp only at stands read ⊢
    rw [stands]
    simp only [Nat.add_assoc, stop, ne_eq, not_true_eq_false, ↓reduceIte]
    exact ⟨trivial, read⟩

theorem rxReply_taken (taken : (rxReply wire cmd r).1 = true) :
    ∃ params, Replies wire r.pos cmd params := by
  have started : (awaitHead wire 64 r.pos 0).1 = START_CMD := by
    by_contra other
    simp only [rxReply, if_pos other, Bool.false_eq_true] at taken
  obtain ⟨skipped, soon, clean, sits⟩ := awaitHead_found (by decide) started
  rw [rxReply_head (awaitHead_finds 0 soon clean sits)] at taken
  obtain ⟨before, start⟩ := sits_append.mp sits
  -- each check that fails gives a reply that is not taken
  by_cases kind : wire (r.pos + skipped.length + 1) = cmd ||| REPLY_FLAG
  swap; · simp only [ne_eq, kind, not_false_eq_true, ↓reduceIte, Bool.false_eq_true] at taken
  by_cases many : (wire (r.pos + skipped.length + 1 + 1)).toNat ≤ NINA_MAX_PARAMS
  swap
  · simp only [kind, not_true_eq_false, Nat.lt_of_not_le many, ↓reduceIte, ne_eq,
      Bool.false_eq_true] at taken
  simp only [kind, ne_eq, not_true_eq_false, ↓reduceIte, gt_iff_lt, Nat.not_lt.mpr many] at taken
  generalize entered : ({ r with
      pos := r.pos + skipped.length + 1 + 2
      n := (wire (r.pos + skipped.length + 1 + 1)).toNat
      entries := [] } : Rx) = x at taken
  have pos : x.pos = r.pos + skipped.length + 3 := by rw [← entered]
  have below : x.Below 0 := by rw [← entered]; exact nofun
  have body : (rxParams wire (wire (r.pos + skipped.length + 1 + 1)).toNat 0 x).1 = true := by
    revert taken
    cases rxParams wire _ 0 x with
    | mk ok out => cases ok <;> simp
  obtain ⟨params, count, fits, lies⟩ := rxParams_taken body (Nat.zero_le _)
  rw [Nat.zero_add] at fits
  obtain ⟨-, -, stands⟩ := rxParams_takes below count (by rwa [Nat.zero_add]) lies
  rw [pos] at lies stands
  refine ⟨params, count ▸ many, fits, skipped, soon, clean, sits_append.mpr ⟨before, ?_⟩⟩
  refine sits_replyFrame.mpr ⟨(sits_cons.mp start).1, kind, ?_, lies, ?_⟩
  · rw [byte, count, BitVec.ofNat_toNat, BitVec.setWidth_eq]
  · by_contra other
    revert taken body stands
    cases rxParams wire _ 0 x with
    | mk ok out =>
      rintro taken rfl stands
      dsimp only at stands taken
      rw [stands, if_pos other] at taken
      exact absurd taken Bool.false_ne_true

theorem rxReply_iff :
    (rxReply wire cmd r).1 = true ∧ (rxReply wire cmd r).2.values = params ↔
      Replies wire r.pos cmd params := by
  refine ⟨fun ⟨taken, values⟩ => ?_, rxReply_takes⟩
  obtain ⟨params', replies⟩ := rxReply_taken taken
  rwa [← values, (rxReply_takes replies).2]

/-- From one state to a later one: what has been written since, and how many entries there are. -/
structure Within (r : Rx) (more : Nat) (r' : Rx) : Prop where
  stored : ∀ i ∈ r'.stored, i ∈ r.stored ∨ i < RX_ACC
  entries : r'.entries.length ≤ r.entries.length + more

theorem rxParam_within {used : Nat} (room : used + (wire r.pos).toNat ≤ RX_ACC) :
    Within r 1 (rxParam wire used r) := by
  constructor
  · intro i mem
    simp only [rxParam, rxBytes_eq, List.mem_append, List.mem_range'_1] at mem
    exact mem.imp_right fun inside => Nat.lt_of_lt_of_le inside.2 room
  · simp only [rxParam, rxBytes_eq, List.length_append, List.length_singleton, le_refl]

theorem rxParams_within (left used : Nat) : Within r left (rxParams wire left used r).2 := by
  induction left generalizing used r with
  | zero => exact ⟨fun _ => Or.inl, Nat.le_refl _⟩
  | succ left ih =>
    by_cases room : used + (wire r.pos).toNat ≤ RX_ACC
    · have one := rxParam_within room
      have rest := ih (r := rxParam wire used r) (used + (wire r.pos).toNat)
      rw [rxParams_succ room]
      refine ⟨fun i mem => (rest.stored i mem).elim (one.stored i) Or.inr, ?_⟩
      have := rest.entries
      have := one.entries
      omega
    · rw [rxParams]
      dsimp only
      rw [if_pos (Nat.lt_of_not_le room)]
      exact ⟨fun _ => Or.inl, Nat.le_add_right _ _⟩

theorem rxReply_within (wire : Wire) (cmd : Byte) (r : Rx) :
    (∀ i ∈ (rxReply wire cmd r).2.stored, i ∈ r.stored ∨ i < RX_ACC) ∧
      (rxReply wire cmd r).2.entries.length ≤ NINA_MAX_PARAMS := by
  unfold rxReply
  dsimp only
  generalize awaitHead wire 64 r.pos 0 = head
  split
  · exact ⟨fun _ => Or.inl, Nat.zero_le _⟩
  split
  · exact ⟨fun _ => Or.inl, Nat.zero_le _⟩
  split
  · exact ⟨fun _ => Or.inl, Nat.zero_le _⟩
  rename_i many
  have within := fun x : Rx => (@rxParams_within wire x) (wire (head.2 + 1)).toNat 0
  generalize entered : ({ r with
      pos := head.2 + 2
      n := (wire (head.2 + 1)).toNat
      entries := [] } : Rx) = x
  obtain ⟨stored, entries⟩ := within x
  have before : x.stored = r.stored ∧ x.entries = [] := by rw [← entered]; exact ⟨rfl, rfl⟩
  rw [before.1] at stored
  rw [before.2, List.length_nil, Nat.zero_add] at entries
  revert stored entries
  cases rxParams wire _ 0 x with
  | mk ok out =>
    intro stored entries
    have few : out.entries.length ≤ NINA_MAX_PARAMS := le_trans entries (Nat.not_lt.mp many)
    cases ok
    · exact ⟨stored, few⟩
    · dsimp only
      split
      · exact ⟨stored, few⟩
      · exact ⟨stored, few⟩

structure Channel where
  tx : Tx
  rx : Rx
  selects : Nat

/-- What the chip does: whether it can be selected, each time, and what it answers. -/
structure Chip where
  select : Nat → Bool
  wire : Wire

def ninaAttempt (chip : Chip) (c : Command) (ch : Channel) : Bool × Channel :=
  if chip.select ch.selects then
    let ch := { ch with tx := sendFrame ch.tx c, selects := ch.selects + 1 }
    if chip.select ch.selects then
      let (ok, rx) := rxReply chip.wire c.cmd ch.rx
      (ok, { ch with rx := rx, selects := ch.selects + 1 })
    else (false, { ch with selects := ch.selects + 1 })
  else (false, { ch with selects := ch.selects + 1 })

def ninaAttempts (chip : Chip) (c : Command) : Nat → Channel → Bool × Channel
  | 0, ch => (false, ch)
  | left + 1, ch =>
    match ninaAttempt chip c ch with
    | (true, ch) => (true, ch)
    | (false, ch) => ninaAttempts chip c left ch

def ninaXactN (chip : Chip) (c : Command) (mayRetry : Bool) (ch : Channel) : Bool × Channel :=
  ninaAttempts chip c (if mayRetry then 2 else 1) ch

/-- Some number of whole frames have gone out, and a result of true stands for a reply. -/
structure Sent (chip : Chip) (c : Command) (most : Nat) (ch : Channel) (out : Bool × Channel) : Prop where
  frames : ∃ sent ≤ most, out.2.tx.written.flatten =
    ch.tx.written.flatten ++ (List.replicate sent c.frame).flatten
  answered : out.1 = true → ∃ start, Replies chip.wire start c.cmd out.2.rx.values

theorem ninaAttempt_sent (chip : Chip) (c : Command) (ch : Channel) :
    Sent chip c 1 ch (ninaAttempt chip c ch) := by
  have one : (sendFrame ch.tx c).written.flatten =
      ch.tx.written.flatten ++ (List.replicate 1 c.frame).flatten := by
    rw [sendFrame_written, List.replicate_one, List.flatten_singleton]
  unfold ninaAttempt
  split
  · dsimp only
    split
    · exact ⟨⟨1, Nat.le_refl _, one⟩, fun ok => ⟨_, rxReply_iff.mp ⟨ok, rfl⟩⟩⟩
    · exact ⟨⟨1, Nat.le_refl _, one⟩, nofun⟩
  · exact ⟨⟨0, Nat.zero_le _, (List.append_nil _).symm⟩, nofun⟩

theorem ninaAttempts_sent (chip : Chip) (c : Command) (most : Nat) (ch : Channel) :
    Sent chip c most ch (ninaAttempts chip c most ch) := by
  induction most generalizing ch with
  | zero => exact ⟨⟨0, Nat.le_refl _, (List.append_nil _).symm⟩, nofun⟩
  | succ most ih =>
    have step := ninaAttempt_sent chip c ch
    rw [ninaAttempts]
    revert step
    cases ninaAttempt chip c ch with
    | mk ok ch' =>
      rintro ⟨⟨first, few, written⟩, answered⟩
      cases ok
      · obtain ⟨⟨rest, few', written'⟩, answered'⟩ := ih ch'
        refine ⟨⟨first + rest, by omega, ?_⟩, answered'⟩
        dsimp only at written
        rw [written', written, List.replicate_add, List.flatten_append, List.append_assoc]
      · exact ⟨⟨first, by omega, written⟩, answered⟩

/-- Commands go out as their frames, and replies are taken exactly when they are well formed. -/
theorem commands_framed (t : Tx) (c : Command) (wire : Wire) (cmd : Byte) (r : Rx)
    (params : List (List Byte)) (chip : Chip) (mayRetry : Bool) (ch : Channel) :
    (sendFrame t c).written.flatten = t.written.flatten ++ c.frame ∧
    ((rxReply wire cmd r).1 = true ∧ (rxReply wire cmd r).2.values = params ↔
      Replies wire r.pos cmd params) ∧
    ((∀ i ∈ (rxReply wire cmd r).2.stored, i ∈ r.stored ∨ i < RX_ACC) ∧
      (rxReply wire cmd r).2.entries.length ≤ NINA_MAX_PARAMS) ∧
    Sent chip c (if mayRetry then 2 else 1) ch (ninaXactN chip c mayRetry ch) :=
  ⟨sendFrame_written t c, rxReply_iff, rxReply_within wire cmd r, ninaAttempts_sent chip c _ ch⟩

end Ubiqos.Wifi
