import Ubiqos.Lib.Along
import Ubiqos.Video.Chargen

/-!
The display's pump of `kernel/video.c`. The picture is played from forty-eight
line buffers, again and again; at every call the pump looks where the beam is
and builds the lines it will come to next. Lines are numbered across frames, and
both counters are taken back together now and then, long before 32 bits are full.
-/

namespace Ubiqos.Video

open Machine

/-- `V_ACTIVE`. -/
def vActive : Nat := 480
/-- `LINE_BUFS`. -/
def lineBufs : Nat := 48
def vFrontPorch : Nat := 10
def vSyncWidth : Nat := 2
def vBackPorch : Nat := 52
/-- `BLANK_LINES`. -/
def blankLines : Nat := vFrontPorch + vSyncWidth + vBackPorch
/-- `FRAME_ENTRIES`. -/
def frameEntries : Nat := vActive * 2 + blankLines
/-- `REBASE_LINES`. -/
def rebaseLines : Nat := vActive * 1048576

def add32 (a b : Nat) : Nat := (a + b) % 2 ^ 32
def sub32 (a b : Nat) : Nat := (a + (2 ^ 32 - b)) % 2 ^ 32

inductive Entry
  | vsyncOff
  | vsyncOn
  | active
  | pixels (buf : Nat)
  deriving DecidableEq

/-- `build_frame_list`, a turn of its loop. -/
def frameLine (line : Nat) : List Entry :=
  (if line < vFrontPorch ∨ vFrontPorch + vSyncWidth ≤ line then
    if line < blankLines then [.vsyncOff] else []
  else [.vsyncOn]) ++
  if blankLines ≤ line then [.active, .pixels ((line - blankLines) % lineBufs)] else []

def frameList : List Entry := (List.range (blankLines + vActive)).flatMap frameLine

structure Display where
  linebuf : Memory
  beamEpoch : Nat
  beamLast : Nat
  renderedTo : Nat
  underruns : Nat
  firstUnderrunPump : Nat
  pumps : Nat
  lines : Nat
  bandsDone : Nat
  singlesDone : Nat
  usTotal : Nat
  usMax : Nat

/-- `beam_line`, of the entry the address channel has come to. -/
def beamLine (idx : Nat) : Nat :=
  if frameEntries ≤ idx ∨ idx < blankLines then 0
  else
    let idx := (idx - blankLines) / 2
    if idx < vActive then idx else vActive - 1

/-- What a call of the pump meets: the cells, the beam and the timer twice. -/
structure Call where
  screen : Screen
  idx : Nat
  t0 : Nat
  t1 : Nat

/-- The loop of `video_pump`; the number is its `built`. -/
def build (screen : Screen) (target built : Nat) (d : Display) : Display × Nat :=
  if d.renderedTo < target ∧ built < lineBufs then
    let y := d.renderedTo % vActive
    let buf := d.renderedTo % lineBufs * lineWords hActive
    if d.renderedTo % cellH = 0 then
      if target < add32 d.renderedTo cellH then (d, built)
      else
        build screen target (built + cellH)
          { d with
            linebuf := chargenBand hActive screen y buf d.linebuf
            renderedTo := add32 d.renderedTo cellH
            lines := add32 d.lines cellH
            bandsDone := add32 d.bandsDone 1 }
    else
      build screen target (built + 1)
        { d with
          linebuf := chargenLine hActive screen y buf d.linebuf
          renderedTo := add32 d.renderedTo 1
          singlesDone := add32 d.singlesDone 1
          lines := add32 d.lines 1 }
  else (d, built)
termination_by lineBufs - built
decreasing_by all_goals (unfold cellH lineBufs at *; omega)

def Display.noticed (d : Display) (call : Call) : Display :=
  let cur := beamLine call.idx
  { d with
    beamEpoch := if cur < d.beamLast then add32 d.beamEpoch vActive else d.beamEpoch
    beamLast := cur }

def Display.now (d : Display) : Nat := add32 d.beamEpoch d.beamLast

def Display.caughtUp (d : Display) : Display :=
  if d.renderedTo < d.now then
    { d with
      firstUnderrunPump := if d.underruns = 0 then d.pumps else d.firstUnderrunPump
      underruns := add32 d.underruns (sub32 d.now d.renderedTo)
      renderedTo := d.now }
  else d

def Display.rebased (d : Display) : Display :=
  if rebaseLines ≤ d.beamEpoch then
    { d with
      beamEpoch := sub32 d.beamEpoch rebaseLines
      renderedTo := sub32 d.renderedTo rebaseLines }
  else d

def Display.timed (d : Display) (dt : Nat) : Display :=
  { d with
    pumps := add32 d.pumps 1
    usTotal := add32 d.usTotal dt
    usMax := if d.usMax < dt then dt else d.usMax }

/-- `video_pump`, and the number of lines it built. -/
def videoPump (call : Call) (d : Display) : Display × Nat :=
  let d := (d.noticed call).caughtUp
  let now := if rebaseLines ≤ d.beamEpoch then sub32 d.now rebaseLines else d.now
  let d := d.rebased
  let target := sub32 (add32 now lineBufs) 2
  let built := build call.screen target 0 d
  (built.1.timed (sub32 call.t1 call.t0), built.2)

/-- `pump_start` as far as its own first call: every buffer filled once, and the
bookkeeping begun where the beam is. -/
def pumpStart (screen : Screen) (idx : Nat) (d : Display) : Display :=
  { d with
    linebuf := (List.range lineBufs).foldl
      (fun mem i => chargenLine hActive screen i (i * lineWords hActive) mem) d.linebuf
    beamEpoch := 0
    beamLast := beamLine idx
    renderedTo := beamLine idx }

section Lines
variable {screen : Screen} {r s t : Nat} {m n o : Memory}

/-- The lines from `r` to `s` are drawn, a later one over an earlier one, and
nothing else. -/
structure Drew (screen : Screen) (r s : Nat) (m n : Memory) : Prop where
  drawn : ∀ L, r ≤ L → L < s → s ≤ L + lineBufs → ∀ x < lineWords hActive,
    n (L % lineBufs * lineWords hActive + x) = scanline screen (L % vActive) x
  spared : ∀ b, (∀ L, r ≤ L → L < s → L % lineBufs ≠ b) → ∀ x < lineWords hActive,
    n (b * lineWords hActive + x) = m (b * lineWords hActive + x)

theorem Drew.refl (r : Nat) (m : Memory) : Drew screen r r m m :=
  ⟨fun _ above below => absurd below (Nat.not_lt.mpr above), fun _ _ _ _ => rfl⟩

theorem Drew.trans (first : Drew screen r s m n) (second : Drew screen s t n o) (rs : r ≤ s)
    (st : s ≤ t) : Drew screen r t m o := by
  constructor
  · intro L above below kept x inside
    rcases Nat.lt_or_ge L s with early | late
    · rw [second.spared _ ?_ x inside]
      · exact first.drawn L above early (by omega) x inside
      · intro L' after before same
        unfold lineBufs at kept same
        omega
    · exact second.drawn L late below kept x inside
  · intro b away x inside
    rw [second.spared b (fun L above below => away L (by omega) below) x inside]
    exact first.spared b (fun L above below => away L above (by omega)) x inside

theorem line_words : cellCols hActive * 2 = lineWords hActive := by decide

theorem line_drew (r : Nat) (m : Memory) : Drew screen r (r + 1) m
    (chargenLine hActive screen (r % vActive) (r % lineBufs * lineWords hActive) m) := by
  constructor
  · intro L above below _ x inside
    obtain rfl : L = r := by omega
    rw [chargenLine_apply, line_words, if_pos (by omega), Nat.add_sub_cancel_left]
  · intro b away x inside
    have other := away r (Nat.le_refl r) (Nat.lt_succ_self r)
    rw [chargenLine_apply, line_words, if_neg]
    unfold lineWords hActive at *
    omega

theorem lines_drew (r count : Nat) (buffers : r % lineBufs + count ≤ lineBufs)
    (rows : r % vActive + count ≤ vActive) (m : Memory) :
    Drew screen r (r + count) m ((List.range count).foldl (fun mem gy => chargenLine hActive screen
      (r % vActive + gy) (r % lineBufs * lineWords hActive + gy * lineWords hActive) mem) m) := by
  induction count with
  | zero => exact .refl r m
  | succ count ih =>
    have row : (r + count) % vActive = r % vActive + count := by
      unfold vActive at *
      omega
    have buffer : (r + count) % lineBufs = r % lineBufs + count := by
      unfold lineBufs at *
      omega
    rw [List.range_succ, List.foldl_append, List.foldl_cons, List.foldl_nil, ← row, ← Nat.add_mul, ← buffer]
    exact (ih (by omega) (by omega)).trans (line_drew (r + count) _) (Nat.le_add_right _ _) (Nat.le_succ _)

theorem band_drew (aligned : r % cellH = 0) (m : Memory) : Drew screen r (r + cellH) m
    (chargenBand hActive screen (r % vActive) (r % lineBufs * lineWords hActive) m) := by
  unfold cellH at aligned
  rw [chargenBand_lines (by unfold cellH vActive; omega)]
  exact lines_drew r cellH (by unfold lineBufs cellH; omega) (by unfold vActive cellH; omega) m

end Lines

section Build
variable {screen : Screen} {target built : Nat} {d : Display}

structure Built (screen : Screen) (target built : Nat) (d : Display) (result : Display × Nat) :
    Prop where
  epoch : result.1.beamEpoch = d.beamEpoch
  last : result.1.beamLast = d.beamLast
  reached : result.1.renderedTo + built = d.renderedTo + result.2
  more : built ≤ result.2
  few : built ≤ lineBufs + cellH → result.2 ≤ lineBufs + cellH
  within : result.1.renderedTo ≤ target
  drew : Drew screen d.renderedTo result.1.renderedTo d.linebuf result.1.linebuf

theorem build_spec (screen : Screen) (target built : Nat) (d : Display)
    (ahead : d.renderedTo ≤ target) (small : target + cellH < 2 ^ 32) :
    Built screen target built d (build screen target built d) := by
  have stays : ∀ built (d : Display), d.renderedTo ≤ target → Built screen target built d (d, built) :=
    fun built d ahead => ⟨rfl, rfl, rfl, Nat.le_refl _, id, ahead, .refl _ _⟩
  fun_induction build screen target built d with
  | case1 built d _ _ => exact stays built d ahead
  | case4 built d _ => exact stays built d ahead
  | case2 built d going y buf aligned fits ih =>
    have exact : add32 d.renderedTo cellH = d.renderedTo + cellH :=
      Nat.mod_eq_of_lt (by omega)
    dsimp only at ih
    rw [exact] at fits ih
    have rest := ih (by omega)
    have reached := rest.reached
    have more := rest.more
    dsimp only at reached
    rw [exact]
    refine ⟨rest.epoch, rest.last, by omega, by omega, ?_, rest.within, ?_⟩
    · intro few
      exact rest.few (by omega)
    · exact (band_drew aligned _).trans rest.drew (Nat.le_add_right _ _) (by omega)
  | case3 built d going y buf unaligned ih =>
    have exact : add32 d.renderedTo 1 = d.renderedTo + 1 := Nat.mod_eq_of_lt (by omega)
    dsimp only at ih
    rw [exact] at ih
    have rest := ih (by omega)
    have reached := rest.reached
    have more := rest.more
    dsimp only at reached
    rw [exact]
    refine ⟨rest.epoch, rest.last, by omega, by omega, ?_, rest.within, ?_⟩
    · intro few
      have below := going.2
      exact rest.few (by omega)
    · exact (line_drew _ _).trans rest.drew (Nat.le_add_right _ _) (by omega)

end Build

section Pump
variable {d : Display} {call : Call}

theorem add32_eq {a b : Nat} (fits : a + b < 2 ^ 32) : add32 a b = a + b := Nat.mod_eq_of_lt fits

theorem sub32_eq {a b : Nat} (fits : a < 2 ^ 32) (above : b ≤ a) : sub32 a b = a - b := by
  unfold sub32
  omega

theorem beamLine_lt (idx : Nat) : beamLine idx < vActive := by
  unfold beamLine
  dsimp only
  split
  · decide
  · split
    · assumption
    · decide

/-- The counters are small, and the lines are built as far ahead as the buffers
allow: one is being played and the address of one may be latched. -/
structure Steady (d : Display) : Prop where
  last : d.beamLast < vActive
  epoch : d.beamEpoch < rebaseLines
  ahead : d.beamEpoch + d.beamLast ≤ d.renderedTo
  within : d.renderedTo + 2 ≤ d.beamEpoch + d.beamLast + lineBufs

def wrapped (d : Display) (call : Call) : Nat := if beamLine call.idx < d.beamLast then vActive else 0

def nowLine (d : Display) (call : Call) : Nat := d.beamEpoch + wrapped d call + beamLine call.idx

def takenBack (d : Display) (call : Call) : Nat :=
  if rebaseLines ≤ d.beamEpoch + wrapped d call then rebaseLines else 0

theorem wrapped_le (d : Display) (call : Call) : wrapped d call ≤ vActive := by
  unfold wrapped
  split <;> omega

theorem noticed_epoch (steady : Steady d) (call : Call) :
    (d.noticed call).beamEpoch = d.beamEpoch + wrapped d call := by
  have epoch := steady.epoch
  unfold Display.noticed wrapped
  dsimp only
  split
  · exact add32_eq (by unfold vActive rebaseLines vActive at *; omega)
  · rfl

theorem noticed_now (steady : Steady d) (call : Call) : (d.noticed call).now = nowLine d call := by
  have epoch := steady.epoch
  have few := wrapped_le d call
  have line := beamLine_lt call.idx
  have last : (d.noticed call).beamLast = beamLine call.idx := rfl
  unfold Display.now
  rw [noticed_epoch steady, last]
  exact add32_eq (by unfold vActive rebaseLines vActive at *; omega)

theorem caughtUp_spec (steady : Steady d) (call : Call) :
    (d.noticed call).caughtUp.beamEpoch = d.beamEpoch + wrapped d call ∧
      (d.noticed call).caughtUp.beamLast = beamLine call.idx ∧
      (d.noticed call).caughtUp.renderedTo = max d.renderedTo (nowLine d call) ∧
      (d.noticed call).caughtUp.linebuf = d.linebuf := by
  have epoch := noticed_epoch steady call
  have now := noticed_now steady call
  have same : (d.noticed call).renderedTo = d.renderedTo := rfl
  unfold Display.caughtUp
  rw [now, same]
  split
  · rename_i behind
    exact ⟨epoch, rfl, (Nat.max_eq_right (Nat.le_of_lt behind)).symm, rfl⟩
  · rename_i ahead
    exact ⟨epoch, rfl, (Nat.max_eq_left (Nat.not_lt.mp ahead)).symm, rfl⟩

theorem rebased_spec {back : Nat} (ahead : d.beamEpoch ≤ d.renderedTo) (small : d.renderedTo < 2 ^ 32)
    (is : back = if rebaseLines ≤ d.beamEpoch then rebaseLines else 0) :
    d.rebased.beamEpoch + back = d.beamEpoch ∧ d.rebased.renderedTo + back = d.renderedTo ∧
      d.rebased.beamLast = d.beamLast ∧ d.rebased.linebuf = d.linebuf := by
  unfold Display.rebased
  by_cases late : rebaseLines ≤ d.beamEpoch
  · rw [if_pos late] at is ⊢
    have epoch := sub32_eq (by omega : d.beamEpoch < 2 ^ 32) late
    have reached := sub32_eq small (by omega : rebaseLines ≤ d.renderedTo)
    refine ⟨?_, ?_, rfl, rfl⟩
    · dsimp only
      omega
    · dsimp only
      omega
  · rw [if_neg late] at is ⊢
    subst is
    exact ⟨rfl, rfl, rfl, rfl⟩

structure Pumped (d : Display) (call : Call) (result : Display × Nat) : Prop where
  last : result.1.beamLast = beamLine call.idx
  epoch : result.1.beamEpoch + takenBack d call = d.beamEpoch + wrapped d call
  reached : result.1.renderedTo + takenBack d call = max d.renderedTo (nowLine d call) + result.2
  few : result.2 ≤ lineBufs + cellH
  steady : Steady result.1
  drew : Drew call.screen (max d.renderedTo (nowLine d call) - takenBack d call)
    result.1.renderedTo d.linebuf result.1.linebuf

theorem videoPump_spec (steady : Steady d) (call : Call) : Pumped d call (videoPump call d) := by
  obtain ⟨epoch, last, reached, linebuf⟩ := caughtUp_spec steady call
  have small := steady.epoch
  have within := steady.within
  have ahead := steady.ahead
  have before := steady.last
  have few := wrapped_le d call
  have line := beamLine_lt call.idx
  have now : (d.noticed call).caughtUp.now = nowLine d call := by
    unfold Display.now
    rw [epoch, last]
    exact add32_eq (by unfold vActive rebaseLines vActive at *; omega)
  -- All sums stay below 2^32, so the counters are compared as numbers from here on.
  have climbs : d.beamEpoch + d.beamLast ≤ nowLine d call := by
    unfold nowLine wrapped
    split <;> omega
  have back : takenBack d call =
      if rebaseLines ≤ (d.noticed call).caughtUp.beamEpoch then rebaseLines else 0 := by
    rw [epoch]
    rfl
  have least : nowLine d call = d.beamEpoch + wrapped d call + beamLine call.idx := rfl
  have most : max d.renderedTo (nowLine d call) + 2 ≤ nowLine d call + lineBufs := by
    unfold lineBufs at *
    omega
  have low : nowLine d call ≤ max d.renderedTo (nowLine d call) := Nat.le_max_right _ _
  have bound : nowLine d call < rebaseLines + vActive + vActive := by omega
  unfold videoPump
  generalize (d.noticed call).caughtUp = d₁ at epoch last reached linebuf now back ⊢
  obtain ⟨epoch₂, reached₂, last₂, linebuf₂⟩ := rebased_spec (by omega)
    (by unfold rebaseLines vActive lineBufs at *; omega) back
  dsimp only
  generalize is : (if rebaseLines ≤ d₁.beamEpoch then sub32 d₁.now rebaseLines else d₁.now) = now'
  have now₂ : now' + takenBack d call = nowLine d call := by
    rw [back, ← is, ← now]
    split
    · rw [sub32_eq (by unfold rebaseLines vActive lineBufs at *; omega) (by omega)]
      omega
    · rfl
  have target : sub32 (add32 now' lineBufs) 2 = now' + lineBufs - 2 := by
    rw [add32_eq (by unfold rebaseLines vActive lineBufs at *; omega)]
    exact sub32_eq (by unfold rebaseLines vActive lineBufs at *; omega)
      (by unfold lineBufs; omega)
  rw [target]
  have built := build_spec call.screen (now' + lineBufs - 2) 0 d₁.rebased (by omega)
    (by unfold rebaseLines vActive lineBufs cellH at *; omega)
  generalize build call.screen (now' + lineBufs - 2) 0 d₁.rebased = result at built ⊢
  have epoch₃ := built.epoch
  have last₃ := built.last
  have reached₃ := built.reached
  have within₃ := built.within
  have started : d₁.rebased.renderedTo = max d.renderedTo (nowLine d call) - takenBack d call := by
    omega
  refine ⟨?_, ?_, ?_, built.few (Nat.zero_le _), ⟨?_, ?_, ?_, ?_⟩, ?_⟩
  · exact last₃.trans (last₂.trans last)
  · change result.1.beamEpoch + takenBack d call = _
    omega
  · change result.1.renderedTo + takenBack d call = _
    omega
  · change result.1.beamLast < vActive
    rw [last₃, last₂, last]
    exact line
  · change result.1.beamEpoch < rebaseLines
    rw [takenBack] at epoch₂
    split at epoch₂
    · unfold rebaseLines vActive at *
      omega
    · omega
  · change result.1.beamEpoch + result.1.beamLast ≤ result.1.renderedTo
    omega
  · change result.1.renderedTo + 2 ≤ result.1.beamEpoch + result.1.beamLast + lineBufs
    unfold lineBufs at *
    omega
  · rw [← started, ← linebuf, ← linebuf₂]
    exact built.drew

end Pump

/-- The pump over its calls: how many lines the counters were taken back by so
far, the first line built since the beam was ahead, and the cells of every call. -/
structure Watch where
  display : Display
  taken : Nat
  since : Nat
  screens : List Screen

def Watch.step (w : Watch) (call : Call) : Watch where
  display := (videoPump call w.display).1
  taken := w.taken + takenBack w.display call
  since :=
    if w.display.renderedTo < nowLine w.display call then w.taken + nowLine w.display call
    else w.since
  screens := call.screen :: w.screens

def started (screen : Screen) (idx : Nat) (d : Display) : Watch :=
  ⟨pumpStart screen idx d, 0, beamLine idx, []⟩

/-- A line that no later one was built over is in the buffer the frame table
plays for it, as it was drawn for its own place on the screen. -/
def Watch.Shown (w : Watch) (L : Nat) : Prop :=
  ∃ buf, frameList[blankLines + L % vActive * 2 + 1]? = some (.pixels buf) ∧
    ∃ screen ∈ w.screens, ∀ x < lineWords hActive,
      w.display.linebuf (buf * lineWords hActive + x) = scanline screen (L % vActive) x

/-- What every call of the pump leaves behind. Lines are numbered as if the
counters were never taken back. -/
structure Fed (w : Watch) (call : Call) : Prop where
  ahead : (w.step call).display.beamEpoch + beamLine call.idx ≤ (w.step call).display.renderedTo
  within : (w.step call).display.renderedTo ≤
    (w.step call).display.beamEpoch + beamLine call.idx + (lineBufs - 2)
  epoch : (w.step call).taken + (w.step call).display.beamEpoch =
    w.taken + w.display.beamEpoch + wrapped w.display call
  reached : (w.step call).taken + (w.step call).display.renderedTo =
    w.taken + max w.display.renderedTo (nowLine w.display call) + (videoPump call w.display).2
  few : (videoPump call w.display).2 ≤ lineBufs + cellH
  inside : ∀ i, lineBufs * lineWords hActive ≤ i →
    (w.step call).display.linebuf i = w.display.linebuf i
  spares : ∀ L, w.taken + nowLine w.display call ≤ L → L < w.taken + w.display.renderedTo →
    ∀ x < lineWords hActive, (w.step call).display.linebuf (L % lineBufs * lineWords hActive + x) =
      w.display.linebuf (L % lineBufs * lineWords hActive + x)
  shown : ∀ L, (w.step call).since ≤ L → L < (w.step call).taken + (w.step call).display.renderedTo →
    (w.step call).taken + (w.step call).display.renderedTo ≤ L + lineBufs →
    (w.step call).Shown L

section Runs
variable {w : Watch} {call : Call}

structure Kept (w : Watch) : Prop where
  steady : Steady w.display
  whole : w.taken % vActive = 0
  since : w.since ≤ w.taken + w.display.renderedTo
  shown : ∀ L, w.since ≤ L → L < w.taken + w.display.renderedTo →
    w.taken + w.display.renderedTo ≤ L + lineBufs → w.Shown L

def seen (n : Nat) : List Entry :=
  (List.range n).flatMap fun row => [.active, .pixels (row % lineBufs)]

theorem length_seen (n : Nat) : (seen n).length = n * 2 := by
  unfold seen
  rw [List.length_flatMap]
  induction n with
  | zero => rfl
  | succ n ih =>
    rw [List.range_succ, List.map_append, List.sum_append, ih]
    simp only [List.map_cons, List.map_nil, List.sum_cons, List.sum_nil, List.length_cons,
      List.length_nil]
    omega

theorem seen_pixels {n row : Nat} (inside : row < n) :
    (seen n)[row * 2 + 1]? = some (.pixels (row % lineBufs)) := by
  induction n with
  | zero => exact absurd inside (Nat.not_lt_zero row)
  | succ n ih =>
    have last : seen (n + 1) = seen n ++ [.active, .pixels (n % lineBufs)] := by
      unfold seen
      rw [List.range_succ, List.flatMap_append, List.flatMap_singleton]
    have length := length_seen n
    rw [last]
    rcases Nat.lt_succ_iff_lt_or_eq.mp inside with before | rfl
    · rw [List.getElem?_append_left (by omega), ih before]
    · rw [List.getElem?_append_right (by omega), length, Nat.add_sub_cancel_left]
      rfl

theorem frameList_eq : frameList = (List.range blankLines).flatMap frameLine ++ seen vActive := by
  have pairs : ((List.range vActive).map (blankLines + ·)).flatMap frameLine = seen vActive := by
    unfold seen
    rw [List.flatMap_map]
    apply List.flatMap_congr
    intro row _
    have after : ¬ blankLines + row < blankLines := by omega
    have blank : vFrontPorch + vSyncWidth ≤ blankLines + row := by
      unfold blankLines
      omega
    simp [frameLine, after, blank]
  rw [frameList, List.range_add, List.flatMap_append, pairs]

theorem frameList_pixels (row : Nat) (inside : row < vActive) :
    frameList[blankLines + row * 2 + 1]? = some (.pixels (row % lineBufs)) := by
  have length : ((List.range blankLines).flatMap frameLine).length = blankLines := by decide
  rw [frameList_eq, List.getElem?_append_right (by omega), length, Nat.add_assoc,
    Nat.add_sub_cancel_left]
  exact seen_pixels inside

theorem takenBack_mod (d : Display) (call : Call) : takenBack d call % vActive = 0 := by
  unfold takenBack
  split
  · exact Nat.mul_mod_right _ _
  · rfl

theorem frame_mod {a L : Nat} (whole : a % vActive = 0) (above : a ≤ L) :
    (L - a) % vActive = L % vActive ∧ (L - a) % lineBufs = L % lineBufs := by
  unfold vActive lineBufs at *
  omega

theorem Drew.shown {L : Nat} {r s : Nat} {m : Memory} (drew : Drew call.screen r s m
      (w.step call).display.linebuf) (whole : (w.step call).taken % vActive = 0)
    (above : (w.step call).taken + r ≤ L) (below : L < (w.step call).taken + s)
    (kept : (w.step call).taken + s ≤ L + lineBufs) : (w.step call).Shown L := by
  obtain ⟨row, buf⟩ := frame_mod whole (by omega : (w.step call).taken ≤ L)
  have inside : L % vActive < vActive := Nat.mod_lt _ (by decide)
  have same : L % vActive % lineBufs = L % lineBufs := by
    unfold vActive lineBufs
    omega
  refine ⟨_, frameList_pixels _ inside, call.screen, List.mem_cons_self, fun x within => ?_⟩
  have drawn := drew.drawn (L - (w.step call).taken) (by omega) (by omega) (by omega) x within
  rw [row, buf] at drawn
  rw [same]
  exact drawn

theorem step_fed (kept : Kept w) (call : Call) : Fed w call ∧ Kept (w.step call) := by
  have pumped : Pumped w.display call (videoPump call w.display) := videoPump_spec kept.steady call
  have least : nowLine w.display call =
    w.display.beamEpoch + wrapped w.display call + beamLine call.idx := rfl
  have back : takenBack w.display call ≤ w.display.beamEpoch + wrapped w.display call := by
    have epoch := pumped.epoch
    omega
  have reached := pumped.reached
  have epoch := pumped.epoch
  have ahead := pumped.steady.ahead
  have within := pumped.steady.within
  have last := pumped.last
  have taken : (w.step call).taken = w.taken + takenBack w.display call := rfl
  have display : (w.step call).display = (videoPump call w.display).1 := rfl
  have whole : (w.step call).taken % vActive = 0 := by
    rw [taken, Nat.add_mod, kept.whole, takenBack_mod]
    rfl
  have low : nowLine w.display call ≤ max w.display.renderedTo (nowLine w.display call) :=
    Nat.le_max_right _ _
  have high : w.display.renderedTo ≤ max w.display.renderedTo (nowLine w.display call) :=
    Nat.le_max_left _ _
  have drew := pumped.drew
  rw [← display] at reached epoch ahead within last drew
  -- a buffer that holds a line from the beam on is not among those built now
  have away : ∀ L, w.taken + max w.display.renderedTo (nowLine w.display call) +
        (videoPump call w.display).2 ≤ L + lineBufs →
      L < w.taken + max w.display.renderedTo (nowLine w.display call) →
      ∀ x < lineWords hActive, (w.step call).display.linebuf (L % lineBufs * lineWords hActive + x) =
        w.display.linebuf (L % lineBufs * lineWords hActive + x) := by
    intro L far early x inside
    refine drew.spared _ ?_ x inside
    intro l after before same
    have scale := kept.whole
    have rebased := takenBack_mod w.display call
    unfold lineBufs vActive at *
    omega
  have shown : ∀ L, (w.step call).since ≤ L →
      L < (w.step call).taken + (w.step call).display.renderedTo →
      (w.step call).taken + (w.step call).display.renderedTo ≤ L + lineBufs →
      (w.step call).Shown L := by
    intro L since below most
    by_cases now : w.taken + max w.display.renderedTo (nowLine w.display call) ≤ L
    · exact drew.shown whole (by omega) below most
    · have before : ¬ w.display.renderedTo < nowLine w.display call := by
        intro behind
        have begins : (w.step call).since = w.taken + nowLine w.display call := if_pos behind
        omega
      have same : (w.step call).since = w.since := if_neg before
      obtain ⟨buf, plays, screen, among, drawn⟩ := kept.shown L (by omega) (by omega) (by omega)
      refine ⟨buf, plays, screen, List.mem_cons_of_mem _ among, fun x inside => ?_⟩
      have place := frameList_pixels (L % vActive) (Nat.mod_lt _ (by decide))
      rw [plays] at place
      have row : L % vActive % lineBufs = L % lineBufs := by
        unfold vActive lineBufs
        omega
      obtain rfl : buf = L % lineBufs := by simpa [row] using place
      rw [away L (by omega) (by omega) x inside]
      exact drawn x inside
  refine ⟨⟨by omega, by unfold lineBufs at *; omega, by omega, by omega, pumped.few, ?_, ?_, shown⟩,
    ⟨pumped.steady, whole, ?_, shown⟩⟩
  · intro i outside
    have place : i / lineWords hActive * lineWords hActive + i % lineWords hActive = i :=
      Nat.div_add_mod' i (lineWords hActive)
    rw [← place]
    refine drew.spared _ ?_ _ (Nat.mod_lt _ (by decide))
    intro L _ _ same
    unfold lineBufs lineWords hActive at *
    omega
  · intro L above below x inside
    exact away L (by unfold lineBufs at *; omega) (by omega) x inside
  · change (if w.display.renderedTo < nowLine w.display call then w.taken + nowLine w.display call
      else w.since) ≤ _
    have since := kept.since
    split <;> omega

theorem started_kept (screen : Screen) (idx : Nat) (d : Display) : Kept (started screen idx d) := by
  have line := beamLine_lt idx
  refine ⟨⟨line, Nat.zero_lt_succ _, ?_, ?_⟩, rfl, ?_, ?_⟩
  · exact Nat.le_of_eq (Nat.zero_add _)
  · change beamLine idx + 2 ≤ 0 + beamLine idx + lineBufs
    unfold lineBufs
    omega
  · exact Nat.le_of_eq (Nat.zero_add _).symm
  · intro L since below
    change beamLine idx ≤ L at since
    change L < 0 + beamLine idx at below
    omega

end Runs

/-- However the beam moves and however long the pump runs, every call leaves the
lines the beam comes to next, in counters that never wrap. -/
theorem pump_feeds (screen : Screen) (idx : Nat) (d : Display) (calls : List Call) (call : Call) :
    Fed (calls.foldl Watch.step (started screen idx d)) call := by
  have kept : Kept (calls.foldl Watch.step (started screen idx d)) :=
    foldl_invariant Kept (started_kept screen idx d) (fun _ call _ kept => (step_fed kept call).2)
  exact (step_fed kept call).1

end Ubiqos.Video
