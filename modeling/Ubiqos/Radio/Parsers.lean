import Ubiqos.Radio.Fields

/-!
The parsers of what the radio's co-processor sends: `watch_event`, the field walk of `rpc_full`
and `parse_ap` in `modules/ehspi/ehspi.c`, `walk` and `unwrap` in `modules/ehrpc/ehrpc.c`. Each is
a walk, or walks within a walk, over a frame that lies in a memory with more behind it.
-/

namespace Ubiqos.Radio

/-- `EH_BUF`. -/
def ehBuf : Nat := 1600

/-- What a parser is given: no frame is longer than the buffer it is received in. -/
structure Frame where
  mem : Memory
  length : Nat
  fits : length ≤ ehBuf

def TLV_EPNAME : Byte := 0x01
def TLV_DATA : Byte := 0x02
def RPC_RESP : U32 := 2
def RPC_EVENT : U32 := 3
def RESP_OFFSET : U32 := 256
def EVENT_STA_DISCONNECTED : Nat := 776

def short (mem : Memory) (place : Nat) : Nat := (mem place).toNat + 2 ^ 8 * (mem (place + 1)).toNat

section Runs
variable {σ τ : Type}

def Run.begin (d : σ) : Run σ := ⟨[], [], d⟩

def Run.hold (r : Run σ) (d : τ) : Run τ := ⟨r.reads, r.present, d⟩

@[simp] theorem Run.good_hold {total : Nat} {r : Run σ} {d : τ} : (r.hold d).Good total ↔ r.Good total :=
  ⟨fun good => ⟨good.reads, good.present⟩, fun good => ⟨good.reads, good.present⟩⟩

theorem Run.good_begin {total : Nat} {d : σ} : (Run.begin d).Good total :=
  ⟨by simp [Run.begin], by simp [Run.begin]⟩

end Runs

/-- `unwrap`: where the message is, and how long. -/
def unwrap (frame : Frame) : Run (Option (Nat × Nat)) :=
  let r := Run.begin none
  if frame.length < 3 then r
  else
    let r := r.read 0 1
    if frame.mem 0 ≠ TLV_EPNAME then r
    else
      let eplen := short frame.mem 1
      let r := r.read 1 2
      if frame.length < 3 + eplen + 3 then r
      else
        let p := 3 + eplen
        let r := r.read p 1
        if frame.mem p ≠ TLV_DATA then r
        else
          let dlen := short frame.mem (p + 1)
          let r := r.read (p + 1) 2
          if frame.length < p + 3 + dlen then r else r.hold (some (p + 3, dlen))

/-- The beginning of `watch_event`: a message that is cut short is read as far as it goes. -/
def watchBody (frame : Frame) : Run (Option (Nat × Nat)) :=
  let r := Run.begin none
  if frame.length < 6 then r
  else
    let r := r.read 0 1
    if frame.mem 0 ≠ TLV_EPNAME then r
    else
      let p := 3 + short frame.mem 1
      let r := r.read 1 2
      if frame.length < p + 3 then r
      else
        let r := r.read p 1
        if frame.mem p ≠ TLV_DATA then r
        else
          let dlen := short frame.mem (p + 1)
          let r := r.read (p + 1) 2
          let p := p + 3
          if frame.length < p then r
          else r.hold (some (p, if frame.length < p + dlen then frame.length - p else dlen))

/-- The same in `rpc_full`. -/
def rpcBody (frame : Frame) : Run (Option (Nat × Nat)) :=
  let r := Run.begin none
  if frame.length < 10 then r
  else
    let r := r.read 0 1
    if frame.mem 0 ≠ TLV_EPNAME then r
    else
      let p := 3 + short frame.mem 1
      let r := r.read 1 2
      if frame.length < p + 3 then r
      else
        let r := r.read p 1
        if frame.mem p ≠ TLV_DATA then r
        else
          let dlen := short frame.mem (p + 1)
          let r := r.read (p + 1) 2
          if frame.length < p + 3 + dlen then r else r.hold (some (p + 3, dlen))

def walkStyle : Style := ⟨true, true, true, .sum⟩

/-- `walk`, with any function for the fields. -/
def walk {σ : Type} (frame : Frame) (fn : σ → Piece → σ) (arg : σ) (fuel : Nat) : Option (Run σ) :=
  loop walkStyle frame.mem 0 frame.length (plain fn) fuel 0 (Run.begin arg)

/-- `ubiqos_eh_ap_t`, as far as it is filled in. -/
structure Ap where
  rssi : U32
  channel : U32
  auth : U32
  ssid : List Byte
  bssid : List Byte

def copy (mem : Memory) (start count : Nat) : List Byte := (List.range count).map fun i => mem (start + i)

def apStyle : Style := ⟨false, true, false, .sum⟩

def apField (mem : Memory) : Piece → Run Ap → Option (Run Ap)
  | .varint number v, r =>
    if number = 3 then some (r.hold { r.data with channel := v })
    else if number = 5 then some (r.hold { r.data with rssi := v })
    else if number = 6 then some (r.hold { r.data with auth := v })
    else some r
  | .bytes number start k, r =>
    if number = 1 ∧ k.toNat = 6 then some ((r.read start 6).hold { r.data with bssid := copy mem start 6 })
    else if number = 2 then
      let c := min k.toNat 32
      some ((r.read start c).hold { r.data with ssid := copy mem start c })
    else some r

/-- `parse_ap`. -/
def parseAp (frame : Frame) (out : Ap) (fuel : Nat) : Option (Run Ap) :=
  loop apStyle frame.mem 0 frame.length (apField frame.mem) fuel 0 (Run.begin out)

structure Envelope where
  type : U32
  id : U32
  payload : Option (Nat × U32)

def envelopeField (e : Envelope) : Piece → Envelope
  | .varint number v =>
    if number = 1 then { e with type := v } else if number = 2 then { e with id := v } else e
  | .bytes number start k => if 256 ≤ number then { e with payload := some (start, k) } else e

structure Answer where
  result : U32
  mac : List Byte
  pl : List Byte

def answerField (mem : Memory) (mac : Bool) : Piece → Run Answer → Option (Run Answer)
  | .varint number v, r =>
    if number = 1 ∧ mac = false ∨ number = 2 ∧ mac = true then some (r.hold { r.data with result := v })
    else some r
  | .bytes number start k, r =>
    if number = 1 ∧ mac ∧ k.toNat = 6 then
      some ((r.read start 6).hold { r.data with mac := copy mem start 6 })
    else some r

def taken (mem : Memory) (plCap : Option Nat) (start : Nat) (k : U32) (r : Run Envelope) : Run Answer :=
  match plCap with
  | none => r.hold ⟨0, [], []⟩
  | some cap => (r.read start (min k.toNat cap)).hold ⟨0, [], copy mem start (min k.toNat cap)⟩

/-- What `rpc_full` makes of a frame: nothing when it is not the answer. The caller may ask for
an address and for so much of the answer as it came. -/
def rpcFrame (frame : Frame) (msgId : U32) (mac : Bool) (plCap : Option Nat) (fuel : Nat) :
    Option (Run (Option Answer)) :=
  let r := rpcBody frame
  match r.data with
  | none => some (r.hold none)
  | some (base, dlen) =>
    (loop apStyle frame.mem base dlen (plain envelopeField) fuel 0 (r.hold ⟨0, 0, none⟩)).bind fun r =>
      if r.data.type ≠ RPC_RESP ∨ r.data.id ≠ msgId + RESP_OFFSET then some (r.hold none)
      else
        match r.data.payload with
        | none => some (r.hold (some ⟨0, [], []⟩))
        | some (start, k) =>
          (loop apStyle frame.mem start k.toNat (answerField frame.mem mac) fuel 0
            (taken frame.mem plCap start k r)).map fun r => r.hold (some r.data)

def eventStyle : Style := ⟨false, false, false, .room⟩
def reasonStyle : Style := ⟨false, false, false, .none⟩

/-- `lost_reason`, `lost_rssi` and `sta_lost`. -/
structure Lost where
  reason : U32
  rssi : U32
  lost : Bool

def reasonField (l : Lost) : Piece → Lost
  | .varint number v =>
    if number = 4 then { l with reason := v } else if number = 5 then { l with rssi := v } else l
  | .bytes _ _ _ => l

/-- In `da += get_varint(d, en, &da)` the number is read first. -/
def disconnectedField (mem : Memory) (fuel : Nat) : Piece → Run Lost → Option (Run Lost)
  | .bytes number start k, r =>
    if number = 2 then loop reasonStyle mem start k.toNat (plain reasonField) fuel 0 r else some r
  | .varint _ _, r => some r

def eventField (mem : Memory) (fuel : Nat) : Piece → Run Lost → Option (Run Lost)
  | .bytes number start k, r =>
    if number = EVENT_STA_DISCONNECTED then
      loop eventStyle mem start k.toNat (disconnectedField mem fuel) fuel 0 r
    else some r
  | .varint _ _, r => some r

/-- `for (fields = 0; fields < 2 && at < dlen; fields++)`: nothing for a return. -/
def watchHead (mem : Memory) (base dlen : Nat) : Nat → Nat → U32 → U32 → Run (Option (Nat × Nat)) →
    Run (Option (Nat × U32 × U32))
  | 0, place, type, id, r => r.hold (some (place, type, id))
  | fields + 1, place, type, id, r =>
    if place < dlen then
      let tag := getVarint false mem base dlen 0 0 place
      let r := r.read (base + place) (tag.2 - place)
      if tag.1.toNat % 8 ≠ 0 then r.hold none
      else
        let v := getVarint false mem base dlen 0 0 tag.2
        let r := r.read (base + tag.2) (v.2 - tag.2)
        if tag.1.toNat / 8 = 1 then watchHead mem base dlen fields v.2 v.1 id r
        else if tag.1.toNat / 8 = 2 then watchHead mem base dlen fields v.2 type v.1 r
        else watchHead mem base dlen fields v.2 type id r
    else r.hold (some (place, type, id))

def watchEvent (frame : Frame) (l : Lost) (fuel : Nat) : Option (Run Lost) :=
  let r := watchBody frame
  match r.data with
  | none => some (r.hold l)
  | some (base, dlen) =>
    let r := watchHead frame.mem base dlen 2 0 0 0 r
    match r.data with
    | none => some (r.hold l)
    | some (place, type, id) =>
      if type ≠ RPC_EVENT ∨ id.toNat ≠ EVENT_STA_DISCONNECTED then some (r.hold l)
      else
        (loop eventStyle frame.mem base dlen (eventField frame.mem fuel) fuel place
          (r.hold { l with reason := 0, rssi := 0 })).map fun r => r.hold { r.data with lost := true }

/-- A parser ends, reads only bytes of its frame, and takes no field as present that runs past
the bytes it lies in. -/
def Stays {σ : Type} (frame : Frame) (parser : Nat → Option (Run σ)) : Prop :=
  ∃ fuel r, parser fuel = some r ∧ r.Good frame.length

section Bodies
variable {frame : Frame}

def Wraps (frame : Frame) (r : Run (Option (Nat × Nat))) : Prop :=
  r.Good frame.length ∧ ∀ base dlen, r.data = some (base, dlen) → base + dlen ≤ frame.length

theorem unwrap_wraps (frame : Frame) : Wraps frame (unwrap frame) := by
  simp only [unwrap, Wraps]
  split_ifs with short name wide data whole
  · exact ⟨Run.good_begin, by simp [Run.begin]⟩
  all_goals simp only [Run.good_hold, Run.good_read, Run.good_begin, and_true]
  · exact ⟨by omega, by simp [Run.begin, Run.read]⟩
  · exact ⟨by omega, by simp [Run.begin, Run.read]⟩
  · exact ⟨by omega, by simp [Run.begin, Run.read]⟩
  · exact ⟨by omega, by simp [Run.begin, Run.read]⟩
  · refine ⟨by omega, ?_⟩
    intro base dlen found
    cases found
    omega

theorem rpcBody_wraps (frame : Frame) : Wraps frame (rpcBody frame) := by
  simp only [rpcBody, Wraps]
  split_ifs with short name wide data whole
  · exact ⟨Run.good_begin, by simp [Run.begin]⟩
  all_goals simp only [Run.good_hold, Run.good_read, Run.good_begin, and_true]
  · exact ⟨by omega, by simp [Run.begin, Run.read]⟩
  · exact ⟨by omega, by simp [Run.begin, Run.read]⟩
  · exact ⟨by omega, by simp [Run.begin, Run.read]⟩
  · exact ⟨by omega, by simp [Run.begin, Run.read]⟩
  · refine ⟨by omega, ?_⟩
    intro base dlen found
    cases found
    omega

theorem watchBody_wraps (frame : Frame) : Wraps frame (watchBody frame) := by
  simp only [watchBody, Wraps]
  split_ifs with short name wide data excess
  · exact ⟨Run.good_begin, by simp [Run.begin]⟩
  all_goals simp only [Run.good_hold, Run.good_read, Run.good_begin, and_true]
  · exact ⟨by omega, by simp [Run.begin, Run.read]⟩
  · exact ⟨by omega, by simp [Run.begin, Run.read]⟩
  · exact ⟨by omega, by simp [Run.begin, Run.read]⟩
  · refine ⟨by omega, ?_⟩
    intro base dlen found
    cases found
    omega
  · refine ⟨by omega, ?_⟩
    intro base dlen found
    cases found
    omega

theorem watchHead_good {base dlen : Nat} (inside : base + dlen ≤ frame.length) (n : Nat) {place : Nat}
    (on : place ≤ dlen) (type id : U32) {r : Run (Option (Nat × Nat))} (good : r.Good frame.length) :
    (watchHead frame.mem base dlen n place type id r).Good frame.length := by
  induction n generalizing place type id r with
  | zero => exact Run.good_hold.mpr good
  | succ n ih =>
    rw [watchHead]
    split
    · rename_i more
      have tag := (@getVarint_stays false frame.mem base dlen) 0 0 more.le
      have v := (@getVarint_stays false frame.mem base dlen) 0 0 tag.2
      have first : (r.read (base + place)
          ((getVarint false frame.mem base dlen 0 0 place).2 - place)).Good frame.length :=
        Run.good_read.mpr ⟨by omega, good⟩
      simp only
      split
      · exact Run.good_hold.mpr first
      · have both := Run.good_read.mpr ⟨(by omega :
            base + (getVarint false frame.mem base dlen 0 0 place).2 +
              ((getVarint false frame.mem base dlen 0 0 (getVarint false frame.mem base dlen 0 0 place).2).2 -
                (getVarint false frame.mem base dlen 0 0 place).2) ≤ frame.length), first⟩
        split
        · exact ih v.2 _ _ both
        · split
          · exact ih v.2 _ _ both
          · exact ih v.2 _ _ both
    · exact Run.good_hold.mpr good

end Bodies

section Parsers
variable {σ : Type} {frame : Frame}

theorem small_of {base len : Nat} (frame : Frame) (inside : base + len ≤ frame.length) : len + 8 < 2 ^ 32 := by
  have fits := frame.fits
  unfold ehBuf at fits
  omega

theorem walk_stays (fn : σ → Piece → σ) (arg : σ) :
    Stays frame (walk frame fn arg) ↔ Stops walkStyle frame.mem 0 frame.length 0 := by
  have inside : 0 + frame.length ≤ frame.length := (Nat.zero_add _).le
  constructor
  · rintro ⟨fuel, r, ends, good⟩
    exact ((@loop_stops _ _ _ _ _ _ _ _ (fun _ => True)) (small_of frame inside) (fun _ _ _ => plain_back)
      (fun _ _ _ _ _ _ => trivial) ends good).1
  · intro stops
    exact ⟨frame.length + 1, loop_good (small_of frame inside) inside stops
      (fun _ _ _ good => plain_good good) (by omega) Run.good_begin⟩

theorem apField_back {mem : Memory} {total : Nat} (piece : Piece) (r r' : Run Ap)
    (found : apField mem piece r = some r') (good : r'.Good total) : r.Good total := by
  cases piece with
  | varint number v =>
    simp only [apField] at found
    split_ifs at found
    · cases found
      exact Run.good_hold.mp good
    · cases found
      exact Run.good_hold.mp good
    · cases found
      exact Run.good_hold.mp good
    · cases found
      exact good
  | bytes number start k =>
    simp only [apField] at found
    split_ifs at found
    · cases found
      exact (Run.good_read.mp (Run.good_hold.mp good)).2
    · cases found
      exact (Run.good_read.mp (Run.good_hold.mp good)).2
    · cases found
      exact good

def Within (total : Nat) : Piece → Prop
  | .varint _ _ => True
  | .bytes _ start k => start + k.toNat ≤ total

theorem fields_within {style : Style} {mem : Memory} {base len total : Nat} (small : len + 8 < 2 ^ 32)
    (inside : base + len ≤ total) (place : Nat) :
    ∀ piece ∈ (fields style mem base len place).1, Within total piece := by
  intro piece member
  cases piece with
  | varint number v => trivial
  | bytes number start k => exact (fields_inside (by omega) member).trans inside

theorem apField_good {mem : Memory} {total : Nat} {piece : Piece} (within : Within total piece) (r : Run Ap)
    (good : r.Good total) : ∃ r', apField mem piece r = some r' ∧ r'.Good total := by
  cases piece with
  | varint number v =>
    simp only [apField]
    split_ifs
    · exact ⟨_, rfl, Run.good_hold.mpr good⟩
    · exact ⟨_, rfl, Run.good_hold.mpr good⟩
    · exact ⟨_, rfl, Run.good_hold.mpr good⟩
    · exact ⟨_, rfl, good⟩
  | bytes number start k =>
    unfold Within at within
    simp only [apField]
    split_ifs with address name
    · exact ⟨_, rfl, Run.good_hold.mpr (Run.good_read.mpr ⟨by omega, good⟩)⟩
    · exact ⟨_, rfl, Run.good_hold.mpr (Run.good_read.mpr ⟨by omega, good⟩)⟩
    · exact ⟨_, rfl, good⟩

theorem parseAp_stays (out : Ap) :
    Stays frame (parseAp frame out) ↔ Stops apStyle frame.mem 0 frame.length 0 := by
  have inside : 0 + frame.length ≤ frame.length := (Nat.zero_add _).le
  constructor
  · rintro ⟨fuel, r, ends, good⟩
    exact ((@loop_stops _ _ _ _ _ _ _ _ (fun _ => True)) (small_of frame inside) apField_back
      (fun _ _ _ _ _ _ => trivial) ends good).1
  · intro stops
    exact ⟨frame.length + 1, loop_good (small_of frame inside) inside stops
      (fun piece member r good => apField_good (fields_within (small_of frame inside) inside 0 piece member) r good)
      (by omega) Run.good_begin⟩

def RpcStops (frame : Frame) (msgId : U32) : Prop :=
  ∀ base dlen, (rpcBody frame).data = some (base, dlen) →
    Stops apStyle frame.mem base dlen 0 ∧
      let e := (fields apStyle frame.mem base dlen 0).1.foldl envelopeField ⟨0, 0, none⟩
      e.type = RPC_RESP → e.id = msgId + RESP_OFFSET →
        ∀ start k, e.payload = some (start, k) → Stops apStyle frame.mem start k.toNat 0

theorem answerField_back {mem : Memory} {mac : Bool} {total : Nat} (piece : Piece) (r r' : Run Answer)
    (found : answerField mem mac piece r = some r') (good : r'.Good total) : r.Good total := by
  cases piece with
  | varint number v =>
    simp only [answerField] at found
    split at found
    · cases found
      exact Run.good_hold.mp good
    · cases found
      exact good
  | bytes number start k =>
    simp only [answerField] at found
    split at found
    · cases found
      exact (Run.good_read.mp (Run.good_hold.mp good)).2
    · cases found
      exact good

theorem answerField_good {mem : Memory} {mac : Bool} {total : Nat} {piece : Piece} (within : Within total piece)
    (r : Run Answer) (good : r.Good total) : ∃ r', answerField mem mac piece r = some r' ∧ r'.Good total := by
  cases piece with
  | varint number v =>
    simp only [answerField]
    split
    · exact ⟨_, rfl, Run.good_hold.mpr good⟩
    · exact ⟨_, rfl, good⟩
  | bytes number start k =>
    unfold Within at within
    simp only [answerField]
    split
    · exact ⟨_, rfl, Run.good_hold.mpr (Run.good_read.mpr ⟨by omega, good⟩)⟩
    · exact ⟨_, rfl, good⟩

theorem payload_within {total : Nat} (pieces : List Piece) (within : ∀ piece ∈ pieces, Within total piece)
    {e : Envelope} (first : ∀ start k, e.payload = some (start, k) → start + k.toNat ≤ total) :
    ∀ start k, (pieces.foldl envelopeField e).payload = some (start, k) → start + k.toNat ≤ total := by
  induction pieces generalizing e with
  | nil => exact first
  | cons piece rest ih =>
    refine ih (fun other member => within other (List.mem_cons_of_mem _ member)) ?_
    have here := within piece List.mem_cons_self
    cases piece with
    | varint number v =>
      simp only [envelopeField]
      split_ifs
      · exact first
      · exact first
      · exact first
    | bytes number start k =>
      simp only [envelopeField]
      split
      · intro start' k' same
        cases same
        exact here
      · exact first

theorem taken_good {mem : Memory} {total start : Nat} {k : U32} (within : start + k.toNat ≤ total)
    (plCap : Option Nat) {r : Run Envelope} (good : r.Good total) : (taken mem plCap start k r).Good total := by
  cases plCap with
  | none => exact Run.good_hold.mpr good
  | some cap => exact Run.good_hold.mpr (Run.good_read.mpr ⟨by omega, good⟩)

theorem taken_back {mem : Memory} {total start : Nat} {k : U32} {plCap : Option Nat} {r : Run Envelope}
    (good : (taken mem plCap start k r).Good total) : r.Good total := by
  cases plCap with
  | none => exact Run.good_hold.mp good
  | some cap => exact (Run.good_read.mp (Run.good_hold.mp good)).2

theorem rpcFrame_stays (msgId : U32) (mac : Bool) (plCap : Option Nat) :
    Stays frame (rpcFrame frame msgId mac plCap) ↔ RpcStops frame msgId := by
  obtain ⟨header, wraps⟩ := rpcBody_wraps frame
  -- Two walks, one inside a piece of the other: each must stop within its own bounds.
  cases body : (rpcBody frame).data with
  | none =>
    constructor
    · intro _ base dlen found
      rw [body] at found
      cases found
    · intro _
      exact ⟨0, _, by rw [rpcFrame, body], Run.good_hold.mpr header⟩
  | some message =>
    obtain ⟨base, dlen⟩ := message
    have inside := wraps base dlen body
    have small := small_of frame inside
    have start : ((rpcBody frame).hold (⟨0, 0, none⟩ : Envelope)).Good frame.length := Run.good_hold.mpr header
    have payloads := payload_within _ ((@fields_within apStyle frame.mem) small inside 0)
      (e := ⟨0, 0, none⟩) (by simp)
    constructor
    · rintro ⟨fuel, r, ends, good⟩ base' dlen' found
      rw [body] at found
      cases found
      rw [rpcFrame, body] at ends
      obtain ⟨outer, walked, ends⟩ := Option.bind_eq_some_iff.mp ends
      have known (well : outer.Good frame.length) := loop_plain small walked well
      have stops (well : outer.Good frame.length) : Stops apStyle frame.mem base dlen 0 :=
        ((@loop_stops _ _ _ _ _ _ _ _ (fun _ => True)) small (fun _ _ _ => plain_back) (fun _ _ _ _ _ _ => trivial)
          walked well).1
      split at ends
      · rename_i other
        cases ends
        have well := Run.good_hold.mp good
        refine ⟨stops well, fun type id => ?_⟩
        rw [known well] at other
        exact absurd other (by rintro (no | no); exacts [no type, no id])
      · split at ends
        · rename_i nothing
          cases ends
          have well := Run.good_hold.mp good
          refine ⟨stops well, fun _ _ start k payload => ?_⟩
          rw [known well] at nothing
          exact absurd (nothing.symm.trans payload) (by simp)
        · rename_i start k some
          obtain ⟨inner, later, rfl⟩ := Option.map_eq_some_iff.mp ends
          have well := taken_back (loop_back answerField_back later (Run.good_hold.mp good))
          refine ⟨stops well, fun _ _ start' k' payload => ?_⟩
          rw [known well] at some
          cases some.symm.trans payload
          exact ((@loop_stops _ _ _ _ _ _ _ _ (fun _ => True)) (small_of frame (payloads start k payload))
            answerField_back (fun _ _ _ _ _ _ => trivial) later (Run.good_hold.mp good)).1
    · intro stops
      obtain ⟨outer, within⟩ := stops base dlen body
      obtain ⟨r, walked, good⟩ := (@loop_good _ _ _ _ _ _ _ (plain envelopeField) small inside (frame.length + 1)) outer
        (fun _ _ _ good => plain_good good) (by omega) start
      have known := loop_plain small walked good
      refine ⟨frame.length + 1, ?_⟩
      rw [rpcFrame, body]
      simp only [walked, Option.bind_some]
      split
      · exact ⟨_, rfl, Run.good_hold.mpr good⟩
      · rename_i ours
        split
        · exact ⟨_, rfl, Run.good_hold.mpr good⟩
        · rename_i start k some
          rw [not_or, not_not, not_not, known] at ours
          rw [known] at some
          have lies := payloads start k some
          obtain ⟨last, ends, well⟩ := (@loop_good _ _ _ _ _ _ _ _ (small_of frame lies) lies (frame.length + 1))
            (within ours.1 ours.2 start k some)
            (fun piece member r good => (@answerField_good _ mac)
              (fields_within (small_of frame lies) lies 0 piece member) r good)
            (by omega) (taken_good lies plCap good)
          exact ⟨_, Option.map_eq_some_iff.mpr ⟨last, ends, rfl⟩, Run.good_hold.mpr well⟩

def ReasonFits (mem : Memory) : Piece → Prop
  | .bytes number start k => number = 2 → Stops reasonStyle mem start k.toNat 0
  | .varint _ _ => True

def EventFits (mem : Memory) : Piece → Prop
  | .bytes number start k => number = EVENT_STA_DISCONNECTED → Stops eventStyle mem start k.toNat 0 ∧
      ∀ piece ∈ (fields eventStyle mem start k.toNat 0).1, ReasonFits mem piece
  | .varint _ _ => True

/-- The fields of an event that tells of a lost network, those of what it holds, and those of
what that holds. -/
def WatchStops (frame : Frame) : Prop :=
  ∀ base dlen, (watchBody frame).data = some (base, dlen) →
    ∀ place type id, (watchHead frame.mem base dlen 2 0 0 0 (watchBody frame)).data = some (place, type, id) →
      type = RPC_EVENT → id.toNat = EVENT_STA_DISCONNECTED →
        Stops eventStyle frame.mem base dlen place ∧
          ∀ piece ∈ (fields eventStyle frame.mem base dlen place).1, EventFits frame.mem piece

theorem disconnectedField_back {mem : Memory} {fuel total : Nat} (piece : Piece) (r r' : Run Lost)
    (found : disconnectedField mem fuel piece r = some r') (good : r'.Good total) : r.Good total := by
  cases piece with
  | varint number v =>
    cases found
    exact good
  | bytes number start k =>
    simp only [disconnectedField] at found
    split at found
    · exact loop_back (fun _ _ _ => plain_back) found good
    · cases found
      exact good

theorem disconnectedField_fits {fuel : Nat} {piece : Piece} (within : Within frame.length piece) (r r' : Run Lost)
    (found : disconnectedField frame.mem fuel piece r = some r') (good : r'.Good frame.length) :
    ReasonFits frame.mem piece := by
  cases piece with
  | varint number v => trivial
  | bytes number start k =>
    intro two
    simp only [disconnectedField, if_pos two] at found
    exact ((@loop_stops _ _ _ _ _ _ _ _ (fun _ => True)) (small_of frame within) (fun _ _ _ => plain_back)
      (fun _ _ _ _ _ _ => trivial) found good).1

theorem disconnectedField_good {fuel : Nat} {piece : Piece} (enough : frame.length < fuel)
    (within : Within frame.length piece) (fits : ReasonFits frame.mem piece) (r : Run Lost)
    (good : r.Good frame.length) :
    ∃ r', disconnectedField frame.mem fuel piece r = some r' ∧ r'.Good frame.length := by
  cases piece with
  | varint number v => exact ⟨_, rfl, good⟩
  | bytes number start k =>
    unfold Within at within
    simp only [disconnectedField]
    split
    · rename_i two
      exact loop_good (small_of frame within) within (fits two) (fun _ _ _ good => plain_good good) (by omega) good
    · exact ⟨_, rfl, good⟩

theorem eventField_back {mem : Memory} {fuel total : Nat} (piece : Piece) (r r' : Run Lost)
    (found : eventField mem fuel piece r = some r') (good : r'.Good total) : r.Good total := by
  cases piece with
  | varint number v =>
    cases found
    exact good
  | bytes number start k =>
    simp only [eventField] at found
    split at found
    · exact loop_back disconnectedField_back found good
    · cases found
      exact good

theorem eventField_fits {fuel : Nat} {piece : Piece} (within : Within frame.length piece) (r r' : Run Lost)
    (found : eventField frame.mem fuel piece r = some r') (good : r'.Good frame.length) :
    EventFits frame.mem piece := by
  cases piece with
  | varint number v => trivial
  | bytes number start k =>
    intro event
    simp only [eventField, if_pos event] at found
    have small := small_of frame within
    exact loop_stops small disconnectedField_back
      (fun piece member => disconnectedField_fits (fields_within small within 0 piece member)) found good

theorem eventField_good {fuel : Nat} {piece : Piece} (enough : frame.length < fuel)
    (within : Within frame.length piece) (fits : EventFits frame.mem piece) (r : Run Lost)
    (good : r.Good frame.length) :
    ∃ r', eventField frame.mem fuel piece r = some r' ∧ r'.Good frame.length := by
  cases piece with
  | varint number v => exact ⟨_, rfl, good⟩
  | bytes number start k =>
    unfold Within at within
    have small := small_of frame within
    simp only [eventField]
    split
    · rename_i event
      obtain ⟨stops, each⟩ := fits event
      exact loop_good small within stops
        (fun piece member => disconnectedField_good enough (fields_within small within 0 piece member)
          (each piece member)) (by omega) good
    · exact ⟨_, rfl, good⟩

theorem watchEvent_stays (l : Lost) : Stays frame (watchEvent frame l) ↔ WatchStops frame := by
  obtain ⟨header, wraps⟩ := watchBody_wraps frame
  cases body : (watchBody frame).data with
  | none =>
    constructor
    · intro _ base dlen found
      rw [body] at found
      cases found
    · intro _
      exact ⟨0, _, by rw [watchEvent, body], Run.good_hold.mpr header⟩
  | some message =>
    obtain ⟨base, dlen⟩ := message
    have inside := wraps base dlen body
    have small := small_of frame inside
    have begun := watchHead_good inside 2 (Nat.zero_le dlen) 0 0 header
    cases head : (watchHead frame.mem base dlen 2 0 0 0 (watchBody frame)).data with
    | none =>
      constructor
      · intro _ base' dlen' found place type id read
        rw [body] at found
        cases found
        rw [head] at read
        cases read
      · intro _
        refine ⟨0, (watchHead frame.mem base dlen 2 0 0 0 (watchBody frame)).hold l, ?_, Run.good_hold.mpr begun⟩
        rw [watchEvent, body]
        simp only [head]
    | some ids =>
      obtain ⟨place, type, id⟩ := ids
      have within := (@fields_within eventStyle frame.mem) small inside place
      by_cases event : type ≠ RPC_EVENT ∨ id.toNat ≠ EVENT_STA_DISCONNECTED
      · constructor
        · intro _ base' dlen' found place' type' id' read ours lost
          rw [body] at found
          cases found
          rw [head] at read
          cases read
          exact absurd event (by rintro (no | no); exacts [no ours, no lost])
        · intro _
          refine ⟨0, (watchHead frame.mem base dlen 2 0 0 0 (watchBody frame)).hold l, ?_,
            Run.good_hold.mpr begun⟩
          rw [watchEvent, body]
          simp only [head, if_pos event]
      · rw [not_or, not_not, not_not] at event
        constructor
        · rintro ⟨fuel, r, ends, good⟩ base' dlen' found place' type' id' read - -
          rw [body] at found
          cases found
          rw [head] at read
          cases read
          rw [watchEvent, body] at ends
          simp only [head, event.1, event.2, ne_eq, not_true_eq_false, or_self, if_false] at ends
          obtain ⟨last, walked, rfl⟩ := Option.map_eq_some_iff.mp ends
          exact loop_stops small eventField_back
            (fun piece member => eventField_fits (within piece member)) walked (Run.good_hold.mp good)
        · intro stops
          obtain ⟨outer, each⟩ := stops base dlen body place type id head event.1 event.2
          obtain ⟨last, walked, good⟩ := @loop_good _ _ _ _ _ _
            ((watchHead frame.mem base dlen 2 0 0 0 (watchBody frame)).hold { l with reason := 0, rssi := 0 })
            _ small inside (frame.length + 1) _ outer
            (fun piece member => eventField_good (Nat.lt_succ_self _) (within piece member) (each piece member))
            (by omega) (Run.good_hold.mpr begun)
          refine ⟨frame.length + 1, last.hold { last.data with lost := true }, ?_, Run.good_hold.mpr good⟩
          rw [watchEvent, body]
          simp only [head, event.1, event.2, ne_eq, not_true_eq_false, or_self, if_false]
          exact Option.map_eq_some_iff.mpr ⟨last, walked, rfl⟩

end Parsers

/-- Each parser stays in its frame just when every field that it meets and that runs past the
bytes it lies in is not taken, modulo the word, for one that ends there. -/
theorem parsers_stay (frame : Frame) :
    (∀ l, Stays frame (watchEvent frame l) ↔ WatchStops frame) ∧
    (∀ msgId mac plCap, Stays frame (rpcFrame frame msgId mac plCap) ↔ RpcStops frame msgId) ∧
    (∀ out, Stays frame (parseAp frame out) ↔ Stops apStyle frame.mem 0 frame.length 0) ∧
    (∀ (σ : Type) (fn : σ → Piece → σ) (arg : σ),
      Stays frame (walk frame fn arg) ↔ Stops walkStyle frame.mem 0 frame.length 0) ∧
    Wraps frame (unwrap frame) :=
  ⟨watchEvent_stays, rpcFrame_stays, parseAp_stays, fun _ => walk_stays, unwrap_wraps frame⟩

def loopedFrame : Frame :=
  ⟨fun i => [0x0a, 0xfa, 0xff, 0xff, 0xff, 0x0f].getD i 0, 6, by decide⟩

theorem looped_past (style : Style) :
    (fields style loopedFrame.mem 0 loopedFrame.length 0).2 = some (6, 2 ^ 32 - 6) := by
  have tag : getVarint style.cut loopedFrame.mem 0 6 0 0 0 = (10, 1) := by
    cases style.cut <;> decide +kernel
  have length : (getVarint style.cut loopedFrame.mem 0 6 0 0 1).2 = 6 := by
    cases style.cut <;> decide +kernel
  have sent : encoded loopedFrame.mem 0 6 1 = 2 ^ 32 - 6 := by decide +kernel
  have long : loopedFrame.length = 6 := rfl
  rw [fields, long]
  simp only [tag, length, sent]
  simp

theorem looped_runs {style : Style} (sum : style.check = .sum) :
    ¬ Stops style loopedFrame.mem 0 loopedFrame.length 0 := by
  intro stops
  have stopped := stops (6, 2 ^ 32 - 6) (by rw [looped_past]; rfl)
  rw [sum] at stopped
  revert stopped
  decide

/-- Two of the parsers never end on it. -/
theorem looped_frame :
    (∀ out, ¬ Stays loopedFrame (parseAp loopedFrame out)) ∧
    ∀ (σ : Type) (fn : σ → Piece → σ) (arg : σ), ¬ Stays loopedFrame (walk loopedFrame fn arg) :=
  ⟨fun out stays => looped_runs rfl ((parseAp_stays out).mp stays),
    fun _ fn arg stays => looped_runs rfl ((walk_stays fn arg).mp stays)⟩

end Ubiqos.Radio
