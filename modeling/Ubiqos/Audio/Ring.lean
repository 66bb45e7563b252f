import Mathlib.Data.BitVec
import Ubiqos.Lib.Along
import Ubiqos.Lib.Blanks
import Ubiqos.Lib.Cyclic

/-!
The sound device of `modules/audio/audio.c`. A DMA channel reads the ring for
ever and never waits; the driver writes frames in front of it and clears what
lies beyond. The driver knows the channel only by its place in the ring, so a
writer that was overtaken looks to it like one that is almost a ring ahead.

A call of the driver is taken apart into its single stores, and the channel may
read a word between any two of them.
-/

namespace Ubiqos.Audio

open Blanks Cyclic Function

abbrev Byte := BitVec 8
abbrev Word := BitVec 32

/-- `RING_WORDS`. -/
def ringWords : Nat := 1024

inductive Doing
  | idle
  | storing (frames : List Word) (n : Nat)
  | clearing (left place n : Nat)
  | closing (i : Nat)
  deriving DecidableEq

@[simp] def Doing.stores : Doing → Bool
  | .storing (_ :: _) _ => true
  | _ => false

structure Sound where
  ring : Nat → Word
  dmaAt : Nat
  writeAt : Nat
  ready : Bool
  doing : Doing

/-- After `audio_configure`, whether or not it got as far as `ready`. -/
def configured (ready : Bool) : Sound := ⟨fun _ => 0, 0, 0, ready, .idle⟩

inductive Step
  | dma
  | write (buf : List Byte)
  | close
  | work

inductive Note
  | heard (word : Word)
  | accepted (frame : Word)
  | wiped
  | returned (value : Int)
  deriving DecidableEq

/-- `ring_free`, in words of 32 bits. -/
def ringFree (s : Sound) : Nat :=
  (s.dmaAt + (2 ^ 32 - s.writeAt) + (2 ^ 32 - 1)) % 2 ^ 32 % ringWords

def frame (buf : List Byte) (i : Nat) : Word :=
  let byte k : Word := (buf.getD (i * 4 + k) 0).setWidth 32
  let l := byte 0 ||| byte 1 <<< 8
  let r := byte 2 ||| byte 3 <<< 8
  l <<< 16 ||| r &&& 0xffff

/-- The beginning of `audio_write`: as much as fits and no more. -/
def audioWrite (s : Sound) (buf : List Byte) : Sound × List Note :=
  if s.ready then
    let want := buf.length / 4
    let n := min want (ringFree s)
    ({ s with doing := .storing ((List.range n).map (frame buf)) n }, [])
  else (s, [.returned (-1)])

/-- The beginning of `audio_close`. -/
def audioClose (s : Sound) : Sound × List Note :=
  if s.ready then ({ s with doing := .closing 0 }, [])
  else ({ s with writeAt := 0 }, [.wiped, .returned 0])

def work (s : Sound) : Sound × List Note :=
  match s.doing with
  | .idle => (s, [])
  | .storing [] n => ({ s with doing := .clearing (ringFree s) s.writeAt n }, [])
  | .storing (frame :: frames) n =>
    ({ s with
        ring := update s.ring s.writeAt frame
        writeAt := (s.writeAt + 1) % ringWords
        doing := .storing frames n }, [.accepted frame])
  | .clearing 0 _ n => ({ s with doing := .idle }, [.returned (n * 4)])
  | .clearing (left + 1) place n =>
    ({ s with
        ring := update s.ring place 0
        doing := .clearing left ((place + 1) % ringWords) n }, [])
  | .closing i =>
    if i < ringWords then
      ({ s with ring := update s.ring i 0, doing := .closing (i + 1) }, [.wiped])
    else ({ s with writeAt := 0, doing := .idle }, [.wiped, .returned 0])

def step (s : Sound) : Step → Sound × List Note
  | .dma => ({ s with dmaAt := (s.dmaAt + 1) % ringWords }, [.heard (s.ring s.dmaAt)])
  | .write buf => if s.doing = .idle then audioWrite s buf else (s, [])
  | .close => if s.doing = .idle then audioClose s else (s, [])
  | .work => work s

def notes : Sound → List Step → List Note
  | _, [] => []
  | s, input :: rest => (step s input).2 ++ notes (step s input).1 rest

/-- A device that plays every frame once, in order, and is silent between and
after them: `due` is what it has been given and not played. Closing it throws
away what it will not play. -/
inductive Plays : List Word → List Note → Prop
  | done (due : List Word) : Plays due []
  | accepted {due : List Word} {rest : List Note} (frame : Word) : Plays (due ++ [frame]) rest →
      Plays due (.accepted frame :: rest)
  | silence {due : List Word} {rest : List Note} : Plays due rest → Plays due (.heard 0 :: rest)
  | played {due : List Word} {rest : List Note} (frame : Word) : Plays due rest →
      Plays (frame :: due) (.heard frame :: rest)
  | wiped {due kept : List Word} {rest : List Note} : kept.Sublist due → Plays kept rest →
      Plays due (.wiped :: rest)
  | returned {due : List Word} {rest : List Note} (value : Int) : Plays due rest →
      Plays due (.returned value :: rest)

/-- How the writer stands to the reader: no frame is in the ring at all, or it
is in front, or the reader has passed it. The number counts the words from the
reader on that it has not played before. -/
inductive Gauge
  | silent
  | ahead (fresh : Nat)
  | passed (fresh : Nat)
  deriving DecidableEq

def gauge (s : Sound) : Step → Gauge → Gauge
  | .dma, .silent => .silent
  | .dma, .ahead fresh =>
    if s.writeAt = s.dmaAt then .passed (fresh - 1) else .ahead (fresh - 1)
  | .dma, .passed fresh => .passed (fresh - 1)
  | .write buf, .silent =>
    if s.doing = .idle ∧ s.ready ∧ 0 < min (buf.length / 4) (ringFree s) then .ahead ringWords
    else .silent
  | .work, g =>
    match s.doing, g with
    | .storing (_ :: _) _, .ahead fresh =>
      .ahead (max fresh (held ringWords s.writeAt s.dmaAt + 1))
    | .clearing (_ + 1) place _, .ahead fresh =>
      .ahead (max fresh (held ringWords place s.dmaAt + 1))
    | .closing i, g => if i < ringWords then g else .silent
    | _, g => g
  | _, g => g

def Timely (s : Sound) : Step → Gauge → Prop
  | .dma, g => g ≠ .ahead 0 ∧ g ≠ .passed 0
  | .work, .passed _ => s.doing.stores = false
  | _, _ => True

instance (s : Sound) : (input : Step) → (g : Gauge) → Decidable (Timely s input g)
  | .dma, _ => inferInstanceAs (Decidable (_ ∧ _))
  | .work, .passed _ => inferInstanceAs (Decidable (_ = _))
  | .work, .silent => isTrue trivial
  | .work, .ahead _ => isTrue trivial
  | .write _, _ => isTrue trivial
  | .close, _ => isTrue trivial

def InTime : Sound → Gauge → List Step → Prop
  | _, _, [] => True
  | s, g, input :: rest => Timely s input g ∧ InTime (step s input).1 (gauge s input g) rest

instance InTime.decidable : (s : Sound) → (g : Gauge) → (inputs : List Step) →
    Decidable (InTime s g inputs)
  | _, _, [] => isTrue trivial
  | s, g, input :: rest =>
    have : Decidable (InTime (step s input).1 (gauge s input g) rest) := InTime.decidable _ _ rest
    inferInstanceAs (Decidable (_ ∧ _))

/-- The words from `offset` to `count` places after the reader are silence. -/
def Quiet (ring : Nat → Word) (dmaAt offset count : Nat) : Prop :=
  ∀ i, offset ≤ i → i < count → ring ((dmaAt + i) % ringWords) = 0

/-- What is due stands between the reader and the writer, and silence in front of that. -/
structure Ahead (due : List Word) (fresh : Nat) (s : Sound) : Prop where
  lead : held ringWords s.writeAt s.dmaAt ≤ fresh
  bounded : fresh ≤ ringWords
  due : Spaced 0 (contents ringWords s.ring s.dmaAt (held ringWords s.writeAt s.dmaAt)) due
  quiet : Quiet s.ring s.dmaAt (held ringWords s.writeAt s.dmaAt) fresh
  storing : ∀ frames n, s.doing = .storing frames n →
    held ringWords s.writeAt s.dmaAt + frames.length < ringWords
  clearing : ∀ left place n, s.doing = .clearing left place n → place < ringWords ∧
    held ringWords s.writeAt s.dmaAt ≤ held ringWords place s.dmaAt ∧
    held ringWords place s.dmaAt + left < ringWords ∧
    Quiet s.ring s.dmaAt (held ringWords s.writeAt s.dmaAt) (held ringWords place s.dmaAt)

structure Tells (due : List Word) (g : Gauge) (s : Sound) : Prop where
  dma : s.dmaAt < ringWords
  writeAt : s.writeAt < ringWords
  silent : g = .silent → due = [] ∧ (∀ i < ringWords, s.ring i = 0) ∧
    s.doing.stores = false
  ahead : ∀ fresh, g = .ahead fresh → Ahead due fresh s
  passed : ∀ fresh, g = .passed fresh → due = [] ∧ Quiet s.ring s.dmaAt 0 fresh
  closing : ∀ i, s.doing = .closing i → ∀ j < i, s.ring j = 0
  unready : s.ready = false → g = .silent ∧ s.doing = .idle

section Places
variable {ring : Nat → Word} {s : Sound} {place dmaAt offset count : Nat}

theorem held_zero (head : place < ringWords) (tail : dmaAt < ringWords) :
    held ringWords place dmaAt = 0 ↔ place = dmaAt := by
  constructor
  · intro none
    have meets := head_eq head tail
    rw [none, Nat.add_zero, Nat.mod_eq_of_lt tail] at meets
    exact meets.symm
  · rintro rfl
    exact held_self tail

theorem ringFree_eq (dma : s.dmaAt < ringWords) (writeAt : s.writeAt < ringWords) :
    held ringWords s.writeAt s.dmaAt + ringFree s + 1 = ringWords := by
  unfold held ringFree ringWords at *
  omega

theorem wipe_contents (dma : s.dmaAt < ringWords) (inside : place < ringWords) :
    contents ringWords (update s.ring place 0) s.dmaAt (held ringWords s.writeAt s.dmaAt) =
      (contents ringWords s.ring s.dmaAt (held ringWords s.writeAt s.dmaAt)).set
        (held ringWords place s.dmaAt) 0 := by
  conv_lhs => rw [← head_eq inside dma]
  exact contents_set 0 (held_lt dma) (held_lt dma).le

theorem Quiet.next (quiet : Quiet ring dmaAt offset count) :
    Quiet ring ((dmaAt + 1) % ringWords) (offset - 1) (count - 1) := by
  intro i above below
  rw [Nat.mod_add_mod, Nat.add_assoc, Nat.add_comm 1]
  exact quiet (i + 1) (by omega) (by omega)

theorem Quiet.clear (quiet : Quiet ring dmaAt offset count) (place : Nat) :
    Quiet (update ring place 0) dmaAt offset count := by
  intro i above below
  by_cases same : (dmaAt + i) % ringWords = place
  · rw [same, update_self]
  · rw [update_of_ne same]
    exact quiet i above below

theorem blank_clear (blank : ∀ i < ringWords, ring i = 0) (place : Nat) :
    ∀ i < ringWords, update ring place 0 i = 0 := by
  intro i inside
  by_cases same : i = place
  · rw [same, update_self]
  · rw [update_of_ne same, blank i inside]

theorem Quiet.all (blank : ∀ i < ringWords, ring i = 0) : Quiet ring dmaAt offset count :=
  fun _ _ _ => blank _ (Nat.mod_lt _ (by decide))

theorem Quiet.longer (quiet : Quiet ring dmaAt offset (held ringWords place dmaAt))
    (head : place < ringWords) (tail : dmaAt < ringWords) :
    Quiet (update ring place 0) dmaAt offset (held ringWords place dmaAt + 1) := by
  intro i above below
  rcases Nat.lt_succ_iff_lt_or_eq.mp below with before | rfl
  · exact quiet.clear place i above before
  · rw [head_eq head tail, update_self]

end Places

section Steps
variable {s : Sound} {g : Gauge} {due : List Word} {fresh : Nat}

/-- A turn that keeps the books: what it says comes before what is then due. -/
def Leads (due : List Word) (g : Gauge) (turn : Sound × List Note) : Prop :=
  ∃ due', Tells due' g turn.1 ∧ ∀ rest, Plays due' rest → Plays due (turn.2 ++ rest)

theorem Ahead.dma (ahead : Ahead due fresh s) (dma : s.dmaAt < ringWords)
    (writeAt : s.writeAt < ringWords) (other : s.writeAt ≠ s.dmaAt) :
    ∃ due', Ahead due' (fresh - 1) { s with dmaAt := (s.dmaAt + 1) % ringWords } ∧
      ∀ rest, Plays due' rest → Plays due (.heard (s.ring s.dmaAt) :: rest) := by
  have filled : held ringWords s.writeAt s.dmaAt ≠ 0 := fun none =>
    other ((held_zero writeAt dma).mp none)
  have fewer := held_pred writeAt dma filled
  have lead := ahead.lead
  have spaced := ahead.due
  rw [← fewer, contents_pop _ dma] at spaced
  have keeps : ∀ due', Spaced 0 (contents ringWords s.ring ((s.dmaAt + 1) % ringWords)
      (held ringWords s.writeAt ((s.dmaAt + 1) % ringWords))) due' →
      Ahead due' (fresh - 1) { s with dmaAt := (s.dmaAt + 1) % ringWords } := by
    intro due' rest
    have bounded := ahead.bounded
    refine ⟨by dsimp only; omega, by omega, rest, ?_, ?_, ?_⟩
    · have next := ahead.quiet.next
      rw [← fewer, Nat.add_sub_cancel] at next
      exact next
    · intro frames n doing
      have room := ahead.storing frames n doing
      dsimp only
      omega
    · intro left place n doing
      obtain ⟨inside, beyond, room, quiet⟩ := ahead.clearing left place n doing
      have apart := held_pred inside dma (by omega)
      have next := quiet.next
      rw [← fewer, ← apart, Nat.add_sub_cancel, Nat.add_sub_cancel] at next
      exact ⟨inside, by dsimp only; omega, by dsimp only; omega, next⟩
  generalize s.ring s.dmaAt = word at spaced ⊢
  cases spaced with
  | blank rest => exact ⟨due, keeps due rest, fun _ plays => .silence plays⟩
  | entry first rest => exact ⟨_, keeps _ rest, fun _ plays => .played _ plays⟩

theorem dma_tells (tells : Tells due g s) (timely : Timely s .dma g) :
    Leads due (gauge s .dma g)
      ({ s with dmaAt := (s.dmaAt + 1) % ringWords }, [.heard (s.ring s.dmaAt)]) := by
  have inside : (s.dmaAt + 1) % ringWords < ringWords := Nat.mod_lt _ (by decide)
  have first : (s.dmaAt + 0) % ringWords = s.dmaAt := Nat.mod_eq_of_lt tells.dma
  have unready : s.ready = false → gauge s .dma g = .silent ∧ s.doing = .idle := by
    intro not
    obtain ⟨rfl, idle⟩ := tells.unready not
    exact ⟨rfl, idle⟩
  cases g with
  | silent =>
    obtain ⟨rfl, blank, still⟩ := tells.silent rfl
    rw [blank _ tells.dma]
    exact ⟨[], ⟨inside, tells.writeAt, fun _ => ⟨rfl, blank, still⟩, by simp [gauge], by simp [gauge],
      tells.closing, unready⟩, fun _ plays => .silence plays⟩
  | passed fresh =>
    obtain ⟨rfl, quiet⟩ := tells.passed fresh rfl
    have some : fresh ≠ 0 := fun none => timely.2 (by rw [none])
    have now : s.ring s.dmaAt = 0 := by
      rw [← first]
      exact quiet 0 (Nat.le_refl _) (by omega)
    rw [now]
    refine ⟨[], ⟨inside, tells.writeAt, by simp [gauge], by simp [gauge], ?_, tells.closing, unready⟩,
      fun _ plays => .silence plays⟩
    rintro fresh' ⟨⟩
    exact ⟨rfl, quiet.next⟩
  | ahead fresh =>
    have ahead := tells.ahead fresh rfl
    by_cases meets : s.writeAt = s.dmaAt
    · -- everything has been played, and the reader goes past the writer
      have none : held ringWords s.writeAt s.dmaAt = 0 := (held_zero tells.writeAt tells.dma).mpr meets
      have nothing := ahead.due
      have quiet := ahead.quiet
      rw [none] at nothing quiet
      obtain rfl := nil_iff.mp nothing
      have some : fresh ≠ 0 := fun none => timely.1 (by rw [none])
      have now : s.ring s.dmaAt = 0 := by
        rw [← first]
        exact quiet 0 (Nat.le_refl _) (by omega)
      rw [now]
      have past : gauge s .dma (.ahead fresh) = .passed (fresh - 1) := if_pos meets
      rw [past] at unready ⊢
      refine ⟨[], ⟨inside, tells.writeAt, by simp, by simp, ?_, tells.closing, unready⟩,
        fun _ plays => .silence plays⟩
      rintro fresh' ⟨⟩
      exact ⟨rfl, quiet.next⟩
    · obtain ⟨due', next, plays⟩ := ahead.dma tells.dma tells.writeAt meets
      have still : gauge s .dma (.ahead fresh) = .ahead (fresh - 1) := if_neg meets
      rw [still] at unready ⊢
      refine ⟨due', ⟨inside, tells.writeAt, by simp, ?_, by simp, tells.closing, unready⟩, plays⟩
      rintro fresh' ⟨⟩
      exact next

theorem write_tells (tells : Tells due g s) (buf : List Byte) (idle : s.doing = .idle) :
    Tells due (gauge s (.write buf) g) (audioWrite s buf).1 ∧
      ∀ rest, Plays due rest → Plays due ((audioWrite s buf).2 ++ rest) := by
  unfold audioWrite
  by_cases ready : s.ready
  · rw [if_pos ready]
    refine ⟨?_, fun _ plays => plays⟩
    dsimp only
    generalize enough : min (buf.length / 4) (ringFree s) = n
    have room := ringFree_eq tells.dma tells.writeAt
    have within : n ≤ ringFree s := enough ▸ Nat.min_le_right _ _
    have fits : ∀ frames m, Doing.storing ((List.range n).map (frame buf)) n = .storing frames m →
        held ringWords s.writeAt s.dmaAt + frames.length < ringWords := by
      rintro frames m ⟨⟩
      rw [List.length_map, List.length_range]
      omega
    cases g with
    | silent =>
      obtain ⟨rfl, blank, _⟩ := tells.silent rfl
      by_cases some : 0 < n
      · -- the first frames since the ring was cleared: the writer is in front wherever it is
        have begins : gauge s (.write buf) .silent = .ahead ringWords :=
          if_pos ⟨idle, ready, enough ▸ some⟩
        rw [begins]
        refine ⟨tells.dma, tells.writeAt, by simp, ?_, by simp, by simp, by simp [ready]⟩
        rintro fresh' ⟨⟩
        refine ⟨(held_lt tells.dma).le, Nat.le_refl _, .blanks ?_, .all blank, fits, by simp⟩
        intro word member
        obtain ⟨i, _, rfl⟩ := List.mem_map.mp member
        exact blank _ (Nat.mod_lt _ (by decide))
      · have stays : gauge s (.write buf) .silent = .silent :=
          if_neg fun begins => some (enough ▸ begins.2.2)
        rw [stays]
        have none : n = 0 := by omega
        subst none
        exact ⟨tells.dma, tells.writeAt, fun _ => ⟨rfl, blank, by simp⟩, by simp, by simp, by simp,
          by simp [ready]⟩
    | ahead fresh =>
      refine ⟨tells.dma, tells.writeAt, by simp [gauge], ?_, by simp [gauge], by simp, by simp [ready]⟩
      rintro fresh' ⟨⟩
      have ahead := tells.ahead fresh rfl
      exact ⟨ahead.lead, ahead.bounded, ahead.due, ahead.quiet, fits, by simp⟩
    | passed fresh =>
      exact ⟨tells.dma, tells.writeAt, by simp [gauge], by simp [gauge], tells.passed, by simp,
        by simp [ready]⟩
  · rw [if_neg ready]
    refine ⟨?_, fun _ plays => .returned _ plays⟩
    have stays : gauge s (.write buf) g = g := by
      cases g with
      | silent => exact if_neg fun begins => ready begins.2.1
      | ahead => rfl
      | passed => rfl
    rw [stays]
    exact tells

theorem Ahead.store {frame : Word} {frames : List Word} {n : Nat} (ahead : Ahead due fresh s)
    (dma : s.dmaAt < ringWords) (writeAt : s.writeAt < ringWords)
    (doing : s.doing = .storing (frame :: frames) n) :
    Ahead (due ++ [frame]) (max fresh (held ringWords s.writeAt s.dmaAt + 1))
      { s with
        ring := update s.ring s.writeAt frame
        writeAt := (s.writeAt + 1) % ringWords
        doing := .storing frames n } := by
  have room := ahead.storing _ _ doing
  rw [List.length_cons] at room
  have here := head_eq writeAt dma
  have further : held ringWords ((s.writeAt + 1) % ringWords) s.dmaAt =
      held ringWords s.writeAt s.dmaAt + 1 := held_succ (by omega)
  have bounded := ahead.bounded
  refine ⟨?_, by omega, ?_, ?_, ?_, by simp⟩
  · rw [further]
    exact Nat.le_max_right _ _
  · rw [further]
    have pushed : contents ringWords
        (update s.ring ((s.dmaAt + held ringWords s.writeAt s.dmaAt) % ringWords) frame) s.dmaAt
        (held ringWords s.writeAt s.dmaAt + 1) = _ := contents_push frame (by omega)
    rw [here] at pushed
    rw [pushed]
    exact ahead.due.append (.entry frame .nil)
  · rw [further]
    intro i above below
    have other : (s.dmaAt + held ringWords s.writeAt s.dmaAt) % ringWords ≠
        (s.dmaAt + i) % ringWords := place_ne above (by omega)
    rw [here] at other
    dsimp only
    rw [update_of_ne other.symm]
    exact ahead.quiet i (by omega) (by omega)
  · rintro frames' n' ⟨⟩
    rw [further]
    omega

theorem Ahead.clear {left place n : Nat} (ahead : Ahead due fresh s)
    (dma : s.dmaAt < ringWords) (doing : s.doing = .clearing (left + 1) place n) :
    Ahead due (max fresh (held ringWords place s.dmaAt + 1))
      { s with
        ring := update s.ring place 0
        doing := .clearing left ((place + 1) % ringWords) n } := by
  obtain ⟨inside, beyond, room, quiet⟩ := ahead.clearing _ _ _ doing
  have further : held ringWords ((place + 1) % ringWords) s.dmaAt =
      held ringWords place s.dmaAt + 1 := held_succ (by omega)
  have longer := quiet.longer inside dma
  have lead := ahead.lead
  have bounded := ahead.bounded
  refine ⟨by dsimp only; omega, by omega, ?_, ?_, by simp, ?_⟩
  · rw [wipe_contents dma inside, List.set_eq_of_length_le
      (by rw [length_contents]; exact beyond)]
    exact ahead.due
  · intro i above below
    rcases Nat.lt_or_ge i fresh with inner | outer
    · exact ahead.quiet.clear place i above inner
    · exact longer i above (by omega)
  · rintro left' place' n' ⟨⟩
    rw [further]
    exact ⟨Nat.mod_lt _ (by decide), by dsimp only; omega, by omega, longer⟩

theorem Ahead.wipe {i : Nat} (ahead : Ahead due fresh s) (dma : s.dmaAt < ringWords)
    (inside : i < ringWords) :
    ∃ kept, kept.Sublist due ∧
      Ahead kept fresh { s with ring := update s.ring i 0, doing := .closing (i + 1) } := by
  obtain ⟨kept, among, spaced⟩ := ahead.due.set_blank (held ringWords i s.dmaAt)
  refine ⟨kept, among, ahead.lead, ahead.bounded, ?_, ahead.quiet.clear i, by simp, by simp⟩
  rw [wipe_contents dma inside]
  exact spaced

theorem Tells.turn (tells : Tells due g s) (ready : s.ready = true) {doing : Doing}
    (storing : ∀ frames n, doing ≠ .storing frames n)
    (clearing : ∀ left place n, doing ≠ .clearing left place n)
    (closing : ∀ i, doing = .closing i → i = 0) : Tells due g { s with doing := doing } := by
  refine ⟨tells.dma, tells.writeAt, ?_, ?_, tells.passed, ?_, by simp [ready]⟩
  · intro silent
    obtain ⟨none, blank, _⟩ := tells.silent silent
    refine ⟨none, blank, ?_⟩
    cases doing with
    | storing frames n => exact absurd rfl (storing frames n)
    | _ => rfl
  · intro fresh is
    have ahead := tells.ahead fresh is
    exact ⟨ahead.lead, ahead.bounded, ahead.due, ahead.quiet,
      fun frames n begins => absurd begins (storing frames n),
      fun left place n begins => absurd begins (clearing left place n)⟩
  · intro i begins j below
    rw [closing i begins] at below
    exact absurd below (Nat.not_lt_zero j)

theorem close_tells (tells : Tells due g s) :
    Leads due g (audioClose s) := by
  unfold audioClose
  by_cases ready : s.ready
  · rw [if_pos ready]
    exact ⟨due, tells.turn ready (by simp) (by simp) (by simp), fun _ plays => plays⟩
  · rw [if_neg ready]
    obtain ⟨rfl, idle⟩ := tells.unready (Bool.eq_false_iff.mpr ready)
    obtain ⟨rfl, blank, still⟩ := tells.silent rfl
    exact ⟨[], ⟨tells.dma, Nat.zero_lt_succ _, fun _ => ⟨rfl, blank, still⟩, by simp, by simp,
      tells.closing, fun _ => ⟨rfl, idle⟩⟩,
      fun _ plays => .wiped (List.Sublist.refl _) (.returned _ plays)⟩

theorem Tells.ready (tells : Tells due g s) (busy : s.doing ≠ .idle) : s.ready = true := by
  by_contra not
  exact busy (tells.unready (Bool.eq_false_iff.mpr not)).2

theorem stored_tells (tells : Tells due g s) (ready : s.ready = true) (n : Nat) :
    Tells due g { s with doing := .clearing (ringFree s) s.writeAt n } := by
  have room := ringFree_eq tells.dma tells.writeAt
  refine ⟨tells.dma, tells.writeAt, ?_, ?_, tells.passed, by simp, by simp [ready]⟩
  · intro silent
    obtain ⟨none, blank, _⟩ := tells.silent silent
    exact ⟨none, blank, by simp⟩
  · intro fresh is
    have ahead := tells.ahead fresh is
    refine ⟨ahead.lead, ahead.bounded, ahead.due, ahead.quiet, by simp, ?_⟩
    intro left place n is
    obtain ⟨rfl, rfl, rfl⟩ := Doing.clearing.inj is
    exact ⟨tells.writeAt, Nat.le_refl _, by dsimp only; omega,
      fun i above below => absurd below (Nat.not_lt.mpr above)⟩

theorem store_tells (tells : Tells due g s) (ready : s.ready = true) (timely : Timely s .work g) {frame : Word}
    {frames : List Word} {n : Nat} (doing : s.doing = .storing (frame :: frames) n) :
    Leads due (gauge s .work g) (work s) := by
  rw [work, doing]
  cases g with
  | silent =>
    have still := (tells.silent rfl).2.2
    simp [doing] at still
  | passed =>
    have still : s.doing.stores = false := timely
    simp [doing] at still
  | ahead fresh =>
    have next := (tells.ahead fresh rfl).store tells.dma tells.writeAt doing
    have longer : gauge s .work (.ahead fresh) =
        .ahead (max fresh (held ringWords s.writeAt s.dmaAt + 1)) := by
      simp only [gauge, doing]
    rw [longer]
    refine ⟨due ++ [frame], ⟨tells.dma, Nat.mod_lt _ (by decide), by simp, ?_, by simp, by simp, by simp [ready]⟩,
      fun _ plays => .accepted frame plays⟩
    rintro fresh' ⟨⟩
    exact next

theorem clear_tells (tells : Tells due g s) (ready : s.ready = true) {left place n : Nat}
    (doing : s.doing = .clearing (left + 1) place n) : Leads due (gauge s .work g) (work s) := by
  rw [work, doing]
  refine ⟨due, ⟨tells.dma, tells.writeAt, ?_, ?_, ?_, by simp, by simp [ready]⟩, fun _ plays => plays⟩
  · intro silent
    have was : g = .silent := by
      cases g <;> simp_all [gauge]
    obtain ⟨none, blank, _⟩ := tells.silent was
    exact ⟨none, blank_clear blank place, by simp⟩
  · intro fresh' is
    cases g with
    | ahead fresh =>
      simp only [gauge, doing, Gauge.ahead.injEq] at is
      rw [← is]
      exact (tells.ahead fresh rfl).clear tells.dma doing
    | silent => simp [gauge, doing] at is
    | passed => simp [gauge, doing] at is
  · intro fresh' is
    cases g with
    | passed fresh =>
      simp only [gauge, doing, Gauge.passed.injEq] at is
      obtain ⟨none, quiet⟩ := tells.passed fresh rfl
      rw [← is]
      exact ⟨none, quiet.clear place⟩
    | silent => simp [gauge, doing] at is
    | ahead => simp [gauge, doing] at is

theorem wipe_tells (tells : Tells due g s) (ready : s.ready = true) {i : Nat} (doing : s.doing = .closing i)
    (inside : i < ringWords) :
    Leads due g ({ s with ring := update s.ring i 0, doing := .closing (i + 1) }, [.wiped]) := by
  have closing : ∀ i', Doing.closing (i + 1) = .closing i' → ∀ j < i', update s.ring i 0 j = 0 := by
    rintro i' ⟨⟩ j below
    rcases Nat.lt_succ_iff_lt_or_eq.mp below with before | rfl
    · exact (update_of_ne before.ne _ _).trans (tells.closing i doing j before)
    · exact update_self _ _ _
  cases g with
  | silent =>
    obtain ⟨rfl, blank, _⟩ := tells.silent rfl
    exact ⟨[], ⟨tells.dma, tells.writeAt, fun _ => ⟨rfl, blank_clear blank i, by simp⟩, by simp, by simp, closing,
      by simp [ready]⟩, fun _ plays => .wiped (List.Sublist.refl _) plays⟩
  | passed fresh =>
    obtain ⟨rfl, quiet⟩ := tells.passed fresh rfl
    refine ⟨[], ⟨tells.dma, tells.writeAt, by simp, by simp, ?_, closing, by simp [ready]⟩,
      fun _ plays => .wiped (List.Sublist.refl _) plays⟩
    rintro fresh' ⟨⟩
    exact ⟨rfl, quiet.clear i⟩
  | ahead fresh =>
    obtain ⟨kept, among, next⟩ := (tells.ahead fresh rfl).wipe tells.dma inside
    refine ⟨kept, ⟨tells.dma, tells.writeAt, by simp, ?_, by simp, closing, by simp [ready]⟩,
      fun _ plays => .wiped among plays⟩
    rintro fresh' ⟨⟩
    exact next

theorem shut_tells (tells : Tells due g s) (ready : s.ready = true) {i : Nat} (doing : s.doing = .closing i)
    (last : ¬ i < ringWords) :
    Leads due .silent ({ s with writeAt := 0, doing := .idle }, [.wiped, .returned 0]) :=
  have blank : ∀ j < ringWords, s.ring j = 0 := fun j within => tells.closing i doing j (by omega)
  ⟨[], ⟨tells.dma, Nat.zero_lt_succ _, fun _ => ⟨rfl, blank, by simp⟩, by simp, by simp, by simp, by simp [ready]⟩,
    fun _ plays => .wiped (List.nil_sublist _) (.returned _ plays)⟩

theorem work_tells (tells : Tells due g s) (timely : Timely s .work g) : Leads due (gauge s .work g) (work s) := by
  cases doing : s.doing with
  | idle =>
    have stays : gauge s .work g = g := by
      cases g <;> simp [gauge, doing]
    rw [work, doing, stays]
    exact ⟨due, tells, fun _ plays => plays⟩
  | storing frames n =>
    have ready := tells.ready (by simp [doing])
    cases frames with
    | nil =>
      have stays : gauge s .work g = g := by
        cases g <;> simp [gauge, doing]
      rw [work, doing, stays]
      exact ⟨due, stored_tells tells ready n, fun _ plays => plays⟩
    | cons frame frames => exact store_tells tells ready timely doing
  | clearing left place n =>
    have ready := tells.ready (by simp [doing])
    cases left with
    | zero =>
      have stays : gauge s .work g = g := by
        cases g <;> simp [gauge, doing]
      rw [work, doing, stays]
      exact ⟨due, tells.turn ready (by simp) (by simp) (by simp), fun _ plays => .returned _ plays⟩
    | succ left => exact clear_tells tells ready doing
  | closing i =>
    have ready := tells.ready (by simp [doing])
    rw [work, doing]
    by_cases inside : i < ringWords
    · have stays : gauge s .work g = g := by
        cases g <;> simp [gauge, doing, inside]
      rw [stays]
      dsimp only
      rw [if_pos inside]
      exact wipe_tells tells ready doing inside
    · have ended : gauge s .work g = .silent := by
        cases g <;> simp [gauge, doing, inside]
      rw [ended]
      dsimp only
      rw [if_neg inside]
      exact shut_tells tells ready doing inside

theorem step_tells {input : Step} (tells : Tells due g s) (timely : Timely s input g) :
    Leads due (gauge s input g) (step s input) := by
  cases input with
  | dma => exact dma_tells tells timely
  | work => exact work_tells tells timely
  | write buf =>
    by_cases idle : s.doing = .idle
    · rw [step, if_pos idle]
      exact ⟨due, write_tells tells buf idle⟩
    · rw [step, if_neg idle]
      have stays : gauge s (.write buf) g = g := by
        cases g <;> simp [gauge, idle]
      rw [stays]
      exact ⟨due, tells, fun _ plays => plays⟩
  | close =>
    have stays : gauge s .close g = g := by
      cases g <;> rfl
    rw [stays]
    by_cases idle : s.doing = .idle
    · rw [step, if_pos idle]
      exact close_tells tells
    · rw [step, if_neg idle]
      exact ⟨due, tells, fun _ plays => plays⟩

theorem run_plays {inputs : List Step} (tells : Tells due g s) (inTime : InTime s g inputs) :
    Plays due (notes s inputs) := by
  induction inputs generalizing due g s with
  | nil => exact .done due
  | cons input rest ih =>
    obtain ⟨due', next, plays⟩ := step_tells tells inTime.1
    exact plays _ (ih next inTime.2)

theorem configured_tells (ready : Bool) : Tells [] .silent (configured ready) :=
  ⟨Nat.zero_lt_succ _, Nat.zero_lt_succ _, fun _ => ⟨rfl, fun _ _ => rfl, by simp [configured]⟩,
    by simp, by simp, by simp [configured], fun _ => ⟨rfl, rfl⟩⟩

end Steps

def heardOf : List Note → List Word
  | [] => []
  | .heard word :: rest => word :: heardOf rest
  | _ :: rest => heardOf rest

def acceptedOf : List Note → List Word
  | [] => []
  | .accepted frame :: rest => frame :: acceptedOf rest
  | _ :: rest => acceptedOf rest

theorem Plays.begins {due : List Word} {rest : List Note} (plays : Plays due rest) :
    ∃ kept played, Spaced 0 (heardOf rest) played ∧ played <+: kept ∧
      kept.Sublist (due ++ acceptedOf rest) ∧
      (Note.wiped ∉ rest → kept = due ++ acceptedOf rest) := by
  induction plays with
  | done due => exact ⟨due, [], .nil, List.nil_prefix, by simp [acceptedOf], by simp [acceptedOf]⟩
  | accepted frame _ ih =>
    obtain ⟨kept, played, spaced, first, among, whole⟩ := ih
    rw [List.append_assoc, List.singleton_append] at among whole
    exact ⟨kept, played, spaced, first, among, fun unwiped => whole (by simpa using unwiped)⟩
  | silence _ ih =>
    obtain ⟨kept, played, spaced, first, among, whole⟩ := ih
    exact ⟨kept, played, .blank spaced, first, among, fun unwiped => whole (by simpa using unwiped)⟩
  | played frame _ ih =>
    obtain ⟨kept, played, spaced, first, among, whole⟩ := ih
    refine ⟨frame :: kept, frame :: played, .entry frame spaced, ?_, among.cons_cons frame, ?_⟩
    · exact (List.prefix_cons_inj frame).mpr first
    · intro unwiped
      rw [whole (by simpa using unwiped)]
      rfl
  | wiped fewer _ ih =>
    obtain ⟨kept, played, spaced, first, among, _⟩ := ih
    exact ⟨kept, played, spaced, first, among.trans (fewer.append_right _), by simp⟩
  | returned value _ ih =>
    obtain ⟨kept, played, spaced, first, among, whole⟩ := ih
    exact ⟨kept, played, spaced, first, among, fun unwiped => whole (by simpa using unwiped)⟩

/-- Whoever listens to a driver that is in time hears every frame once, in
order, and silence otherwise. -/
theorem ring_plays (ready : Bool) (inputs : List Step)
    (inTime : InTime (configured ready) .silent inputs) :
    Plays [] (notes (configured ready) inputs) ∧
      ∃ kept played, Spaced 0 (heardOf (notes (configured ready) inputs)) played ∧
        played <+: kept ∧ kept.Sublist (acceptedOf (notes (configured ready) inputs)) ∧
        (Note.wiped ∉ notes (configured ready) inputs →
          kept = acceptedOf (notes (configured ready) inputs)) :=
  have plays := run_plays (configured_tells ready) inTime
  ⟨plays, plays.begins⟩

def twoFrames : List Step := [.write [1, 0, 1, 0, 2, 0, 2, 0], .work, .work, .work, .dma, .dma, .dma]

theorem ring_plays_two : heardOf (notes (configured true) twoFrames) = [0x00010001, 0x00020002, 0] ∧
    Plays [] (notes (configured true) twoFrames) :=
  ⟨by decide +kernel, (ring_plays true twoFrames (by decide +kernel)).1⟩

def after (s : Sound) (inputs : List Step) : Sound := inputs.foldl (fun s input => (step s input).1) s

theorem heard_append (l rest : List Note) : heardOf (l ++ rest) = heardOf l ++ heardOf rest ∧
    acceptedOf (l ++ rest) = acceptedOf l ++ acceptedOf rest := by
  induction l with
  | nil => exact ⟨rfl, rfl⟩
  | cons note l ih => cases note <;> simp [heardOf, acceptedOf, ih]

theorem notes_append (s : Sound) (inputs rest : List Step) :
    notes s (inputs ++ rest) = notes s inputs ++ notes (after s inputs) rest := by
  induction inputs generalizing s with
  | nil => rfl
  | cons input inputs ih =>
    rw [List.cons_append, notes, notes, ih, List.append_assoc]
    rfl

/-- The channel alone goes round the ring. -/
theorem dma_turns {s : Sound} (place : s.dmaAt < ringWords) (n : Nat) :
    heardOf (notes s (List.replicate n .dma)) =
      (List.range n).map (fun i => s.ring ((s.dmaAt + i) % ringWords)) ∧
    acceptedOf (notes s (List.replicate n .dma)) = [] := by
  induction n generalizing s with
  | zero => exact ⟨rfl, rfl⟩
  | succ n ih =>
    obtain ⟨heard, accepted⟩ := @ih { s with dmaAt := (s.dmaAt + 1) % ringWords } (Nat.mod_lt _ (by decide))
    rw [List.replicate_succ, notes, step]
    refine ⟨?_, accepted⟩
    have here : (s.dmaAt + 0) % ringWords = s.dmaAt := Nat.mod_eq_of_lt place
    rw [List.range_succ_eq_map, List.map_cons, List.map_map, here]
    refine congrArg (s.ring s.dmaAt :: ·) (heard.trans (List.map_congr_left fun i _ => ?_))
    dsimp only [comp]
    rw [Nat.mod_add_mod, Nat.succ_eq_add_one, Nat.add_assoc, Nat.add_comm 1 i]

def oneFrame : List Step := [.dma, .dma, .write [1, 0, 1, 0], .work, .work, .work]

/-- A writer that stops is followed by its last frame, at every turn of the ring. -/
theorem stopped_writer_repeats :
    ¬ Plays [] (notes (configured true) (oneFrame ++ List.replicate 2047 .dma)) := by
  intro plays
  obtain ⟨kept, played, spaced, first, among, _⟩ := plays.begins
  obtain ⟨heard, accepted⟩ := @dma_turns (after (configured true) oneFrame) (by decide +kernel) 2047
  rw [notes_append, (heard_append _ _).1, heard] at spaced
  rw [notes_append, (heard_append _ _).2, accepted, List.append_nil] at among
  have twice : ((heardOf (notes (configured true) oneFrame) ++ (List.range 2047).map (fun i =>
      (after (configured true) oneFrame).ring (((after (configured true) oneFrame).dmaAt + i) % ringWords))).filter
      (· ≠ 0)).length = 2 := by decide +kernel
  have once : (acceptedOf (notes (configured true) oneFrame)).length = 1 := by decide +kernel
  have most := spaced.loud_le
  have shorter := first.length_le.trans among.length_le
  rw [List.nil_append] at shorter
  omega

end Ubiqos.Audio
