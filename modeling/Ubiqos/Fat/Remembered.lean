import Ubiqos.Fat.Blind
import Ubiqos.Fat.Frames
import Ubiqos.Fat.Searches

/-!
The read cache against the lookup it saves. What a read returns depends on the file's
first cluster and size and on the place the last read left off only as far as that place
is on the file's chain; so a read from the cache and one that looks the file up again
return the same, as long as the lookup finds the file that is remembered.
-/

namespace Ubiqos.Fat

open Prog

def locateEntry (path : List Byte) : Prog Fs (Option Entry) := do
  match ← resolveParent path with
  | none => return none
  | some (dir, leaf) => findEntry dir leaf.name83 (some leaf.long)

def fill (path : List Byte) (found : Option Entry) : Prog Fs Bool := do
  match found with
  | none => return false
  | some e =>
    if e.isDir then return false
    else
      modify fun s => { s with ra := ⟨path.take 63, true, e.cluster, e.size, 0, e.cluster⟩ }
      return true

def Fs.hit (s : Fs) (path : List Byte) : Bool := s.ra.valid && samePath path s.ra.path

def deliver (pos len : Nat) (there : Bool) : Prog Fs (Int × List Byte) := do
  if there then
    let (ok, out) ← readClusters len (len + 2) (← get).ra.cluster pos []
    return (if ok then int32 out.length else -1, out)
  else return (-1, [])

/-- The second half of `ubiqos_fat_read_at`, which reads the file in the cache. -/
def readOn (offset len : BitVec 32) : Prog Fs (Int × List Byte) := do
  let size := (← get).ra.size
  if size ≤ offset.toNat then return (0, [])
  else
    let v := (← get).volume
    deliver (offset.toNat % bytesPerCluster v) (min len.toNat (size - offset.toNat))
      (← seekCluster (offset.toNat / bytesPerCluster v))

theorem remember_eq (path : List Byte) : remember path = (do
    if (← get).hit path then return true else fill path (← locateEntry path)) := by
  unfold remember locateEntry fill Fs.hit
  congr
  funext s
  split
  · rfl
  · simp only [bind_assoc]
    congr
    funext parent
    cases parent <;> rfl

theorem readAt_eq (path : CString) (offset len : BitVec 32) : readAt path offset len = (do
    if !(← get).mounted then return (-1, [])
    else if ← remember path.bytes then readOn offset len
    else return (-1, [])) := rfl

/-- The cluster `n` links behind this one, if the chain goes so far. -/
def follow (v : Volume) (card : Nat → Block) : Nat → Nat → Option Nat
  | 0, c => some c
  | n + 1, c => if chainEnd ≤ link v card c then none else follow v card n (link v card c)

theorem follow_add (v : Volume) (card : Nat → Block) (m n c : Nat) :
    follow v card (m + n) c = (follow v card m c).bind (follow v card n) := by
  induction m generalizing c with
  | zero => rw [Nat.zero_add]; rfl
  | succ m ih =>
    rw [Nat.succ_add]
    simp only [follow]
    split
    · rfl
    · exact ih _

def Fs.Placed (s : Fs) : Prop :=
  Fat.follow s.volume s.card s.ra.index s.ra.first = some s.ra.cluster

structure Onward (s t : Fs) : Prop where
  volume : t.volume = s.volume
  card : t.card = s.card
  answers : s.faults = [] → t.faults = []

/-- How a search for the place `want` ends, where the chain has `place` there. One that
ends with nothing has met the end of the chain, or a failure. -/
def Sought (s : Fs) (place : Option Nat) (want : Nat) (ok : Bool) (t : Fs) : Prop :=
  Onward s t ∧ if ok then ∃ c, place = some c ∧ t.ra = { s.ra with index := want, cluster := c }
    else t.ra.valid = false ∧ (s.faults = [] → place = none)

section Seeking
variable {v : Volume} {card : Nat → Block} {s t : Fs}

theorem Serves.onward (serves : Serves v card [] s) (onward : Onward s t) : Serves v card [] t :=
  ⟨onward.answers serves.answers, onward.volume.trans serves.volume,
    onward.card.trans serves.card, by simp⟩

theorem fatNextCluster_run (c : Nat) (s : Fs) : (fatNextCluster c).run s =
    some (if s.faults.head?.join.isNone then link s.volume s.card c else 0x0fffffff,
      { s with
        faults := s.faults.tail
        sector := s.faults.head?.join.getD (s.card (s.volume.fatLba c)) }) := by
  cases fault : s.faults.head?.join <;>
    simp [fatNextCluster, readSector_outcome, fault, link]

theorem spool_seeks (n : Nat) (s : Fs) :
    Gives (spool n) s (Sought s (follow s.volume s.card n s.ra.cluster) (s.ra.index + n)) := by
  induction n generalizing s with
  | zero => exact gives_pure ⟨⟨rfl, rfl, id⟩, _, rfl, rfl⟩
  | succ n ih =>
    have runs := fatNextCluster_run s.ra.cluster s
    generalize next : (if s.faults.head?.join.isNone then _ else _ : Nat) = c at runs
    have answered : s.faults = [] → c = link s.volume s.card s.ra.cluster := by
      intro answers
      rw [← next, answers]
      rfl
    have linked : c < chainEnd → c = link s.volume s.card s.ra.cluster := by
      intro within
      split at next
      · exact next.symm
      · subst next
        exact absurd within (by decide)
    by_cases ended : chainEnd ≤ c
    · refine gives_run (a := false) (t := { s with
          faults := s.faults.tail
          sector := s.faults.head?.join.getD (s.card (s.volume.fatLba s.ra.cluster))
          ra := { s.ra with cluster := c, valid := false } }) ?_
        ⟨⟨rfl, rfl, fun answers => by simp [answers]⟩, rfl, fun answers => ?_⟩
      · simp [spool, runs, ended, forgetReadCache]
      · rw [follow, ← answered answers, if_pos ended]
    · obtain ⟨ok, u, ends, onward, sought⟩ := ih { s with
        faults := s.faults.tail
        sector := s.faults.head?.join.getD (s.card (s.volume.fatLba s.ra.cluster))
        ra := { s.ra with cluster := c, index := s.ra.index + 1 } }
      refine gives_run (a := ok) (t := u) ?_
        ⟨⟨onward.volume, onward.card, fun answers => onward.answers (by simp [answers])⟩, ?_⟩
      · simpa [spool, runs, ended] using ends
      · rw [follow, ← linked (by omega), if_neg ended]
        cases ok with
        | true =>
          obtain ⟨d, reached, moved⟩ := sought
          refine ⟨d, reached, moved.trans ?_⟩
          simp only [ReadCache.mk.injEq, and_true, true_and]
          omega
        | false => exact ⟨sought.1, fun answers => sought.2 (by simp [answers])⟩

theorem seekCluster_seeks (placed : s.Placed) (want : Nat) :
    Gives (seekCluster want) s (Sought s (follow s.volume s.card want s.ra.first) want) := by
  by_cases back : want < s.ra.index
  · obtain ⟨ok, t, runs, onward, sought⟩ :=
      spool_seeks want { s with ra := { s.ra with index := 0, cluster := s.ra.first } }
    refine gives_run (a := ok) (t := t) ?_ ⟨⟨onward.volume, onward.card, onward.answers⟩, ?_⟩
    · simpa [seekCluster, back] using runs
    · simpa using sought
  · have split' := follow_add s.volume s.card s.ra.index (want - s.ra.index) s.ra.first
    rw [placed, Option.bind_some, Nat.add_sub_cancel' (by omega)] at split'
    obtain ⟨ok, t, runs, sought⟩ := spool_seeks (want - s.ra.index) s
    rw [← split', Nat.add_sub_cancel' (by omega)] at sought
    refine gives_run (a := ok) (t := t) ?_ sought
    simpa [seekCluster, back] using runs

end Seeking

def Serving (v : Volume) (card : Nat → Block) (s t : Fs) : Prop :=
  Serves v card [] s ∧ Serves v card [] t

def SameFile (v : Volume) (card : Nat → Block) (s t : Fs) : Prop :=
  Serving v card s t ∧ s.ra.first = t.ra.first ∧ s.ra.size = t.ra.size ∧ s.Placed ∧ t.Placed

section Twice
variable {v : Volume} {card : Nat → Block}

theorem reads_serving : Reads (Serving v card) where
  volume _ _ serving := serving.1.volume.trans serving.2.volume.symm
  sector lba := by
    rintro s t ⟨first, second⟩
    refine .inr ⟨true, _, _, readSector_run first.answers, readSector_run second.answers,
      ⟨first.sector _, second.sector _⟩, ?_⟩
    rw [first.card, second.card]

theorem twins_seekCluster (want : Nat) : Twins (seekCluster want) (SameFile v card)
    fun ok s t => Serving v card s t ∧ (ok = true → s.ra.cluster = t.ra.cluster) := by
  rintro s t ⟨⟨first, second⟩, file, size, placed, other⟩
  obtain ⟨ok, s', left, onward, sought⟩ := seekCluster_seeks placed want
  obtain ⟨ok', t', right, onward', sought'⟩ := seekCluster_seeks other want
  rw [first.volume, first.card] at sought
  rw [second.volume, second.card, ← file] at sought'
  have serving : Serving v card s' t' := ⟨first.onward onward, second.onward onward'⟩
  cases ok with
  | true =>
    obtain ⟨c, reached, here⟩ := sought
    cases ok' with
    | true =>
      obtain ⟨c', reached', there⟩ := sought'
      rw [reached] at reached'
      cases reached'
      exact .inr ⟨true, s', t', left, right, serving, fun _ => by rw [here, there]⟩
    | false =>
      rw [sought'.2 second.answers] at reached
      cases reached
  | false =>
    cases ok' with
    | true =>
      obtain ⟨c', reached', _⟩ := sought'
      rw [sought.2 first.answers] at reached'
      cases reached'
    | false => exact .inr ⟨false, s', t', left, right, serving, fun done => by cases done⟩

theorem twins_readOn (offset len : BitVec 32) :
    Twins (readOn offset len) (SameFile v card) fun _ => Serving v card := by
  unfold readOn
  apply twins_get (fun s t same => by rw [same.2.2.1])
  intro s t same
  apply twins_ite
  · exact fun _ => twins_pure fun _ _ same => same.1
  · intro _
    apply twins_get (fun s t same => by rw [reads_serving.volume s t same.1])
    intro s t same
    apply Twins.bind (twins_seekCluster _)
    intro ok
    unfold deliver
    cases ok with
    | false => exact twins_pure fun _ _ sought => sought.1
    | true =>
      apply twins_get (fun s t sought => by rw [sought.2 rfl])
      intro s t sought
      apply Twins.bind ((reads_serving.readClusters _ _ _ _ _).narrow fun _ _ sought => sought.1)
      rintro ⟨ok, out⟩
      exact keeps_pure

theorem frames_readClusters {τ : Type} {view : Fs → τ} (unread : Unread view)
    (len n cluster pos : Nat) (out : List Byte) :
    Frames (readClusters len n cluster pos out) view := by
  have sectors : ∀ first n k pos out, Frames (readSectors first len n k pos out) view := by
    intro first n
    induction n with
    | zero => exact fun _ _ _ => frames_pure
    | succ n ih =>
      intro k pos out
      unfold readSectors
      apply frames_ite _ frames_pure
      apply (frames_readSector unread _).bind
      intro ok
      exact frames_ite (frames_get fun _ => ih _ _ _) frames_pure
  induction n generalizing cluster pos out with
  | zero => exact frames_unending
  | succ n ih =>
    unfold readClusters
    apply frames_ite _ frames_pure
    apply frames_get
    intro s
    apply (sectors _ _ _ _ _).bind
    rintro ⟨ok, bytes⟩
    apply frames_ite _ frames_pure
    exact (frames_fatNextCluster unread cluster).bind fun _ => ih _ _ _

theorem frames_deliver {τ : Type} {view : Fs → τ} (unread : Unread view) (pos len : Nat)
    (there : Bool) : Frames (deliver pos len there) view := by
  unfold deliver
  apply frames_ite _ frames_pure
  apply frames_get
  intro s
  apply (frames_readClusters unread _ _ _ _ _).bind
  rintro ⟨ok, out⟩
  exact frames_pure

end Twice

theorem readOn_leaves {s t : Fs} {offset len : BitVec 32} {a : Int × List Byte}
    (placed : s.Placed) (runs : (readOn offset len).run s = some (a, t)) :
    t.volume = s.volume ∧ t.card = s.card ∧ (t.ra.valid = true → t.ra.path = s.ra.path ∧
      t.ra.first = s.ra.first ∧ t.ra.size = s.ra.size ∧ t.Placed) := by
  by_cases past : s.ra.size ≤ offset.toNat
  · have ends : (readOn offset len).run s = some ((0, []), s) := by simp [readOn, past]
    rw [ends] at runs
    cases runs
    exact ⟨rfl, rfl, fun _ => ⟨rfl, rfl, rfl, placed⟩⟩
  · obtain ⟨ok, u, moved, onward, sought⟩ :=
      seekCluster_seeks placed (offset.toNat / bytesPerCluster s.volume)
    have goes : (readOn offset len).run s = (deliver (offset.toNat % bytesPerCluster s.volume)
        (min len.toNat (s.ra.size - offset.toNat)) ok).run u := by
      simp [readOn, past, moved]
    rw [goes] at runs
    have volume : t.volume = s.volume :=
      (frames_deliver unread_volume _ _ _ u a t runs).trans onward.volume
    have card : t.card = s.card := (frames_deliver unread_card _ _ _ u a t runs).trans onward.card
    have rest : t.ra = u.ra := frames_deliver unwritten_ra.1 _ _ _ u a t runs
    refine ⟨volume, card, ?_⟩
    rw [Fs.Placed, volume, card, rest]
    cases ok with
    | true =>
      obtain ⟨c, reached, here⟩ := sought
      rw [here]
      exact fun _ => ⟨rfl, rfl, rfl, reached⟩
    | false => simp [sought.1]

theorem Reads.locateEntry {R : Fs → Fs → Prop} (reads : Reads R)
    (finds : ∀ dir name83 wantLong, Keeps (findEntry dir name83 wantLong) R) (path : List Byte) :
    Keeps (locateEntry path) R := by
  unfold Fat.locateEntry
  apply (reads.resolveParent finds path).bind
  intro parent
  cases parent with
  | none => exact keeps_pure
  | some parent => exact finds _ _ _

theorem frames_locateEntry {τ : Type} {view : Fs → τ} (unread : Unread view) (path : List Byte) :
    Frames (locateEntry path) view := by
  unfold locateEntry
  apply (frames_resolveParent unread path).bind
  intro parent
  cases parent with
  | none => exact frames_pure
  | some parent => exact frames_findEntry unread _ _ _

def Aside (s t : Fs) : Prop := ∃ r, t = { s with ra := r }

theorem searches_aside : Searches Aside where
  volume := by
    rintro s t ⟨r, rfl⟩
    rfl
  sector lba := by
    rintro s t ⟨r, rfl⟩
    exact .inr ⟨_, _, _, readSector_outcome lba s, readSector_outcome lba _, ⟨r, rfl⟩, rfl⟩
  fresh := by
    rintro s t ⟨r, rfl⟩
    exact .inr ⟨_, _, _, rfl, rfl, r, rfl⟩

def Served (v : Volume) (card : Nat → Block) (s t : Fs) : Prop := s = t ∧ Serves v card [] s

theorem searches_served {v : Volume} {card : Nat → Block} : Searches (Served v card) where
  volume := by
    rintro s t ⟨rfl, _⟩
    rfl
  sector lba := by
    rintro s t ⟨rfl, serves⟩
    have runs : (readSector lba).run s = some (true, _) := readSector_run serves.answers
    exact .inr ⟨true, _, _, runs, runs, ⟨rfl, serves.sector _⟩, rfl⟩
  fresh := by
    rintro s t ⟨rfl, serves⟩
    exact .inr ⟨_, _, _, rfl, rfl, rfl, serves.answers, serves.volume, serves.card, by simp⟩

theorem serves_after {α : Type} {x : Prog Fs α} {v : Volume} {card : Nat → Block} {s t : Fs} {a : α}
    (keeps : Keeps x (Served v card)) (serves : Serves v card [] s) (runs : x.run s = some (a, t)) :
    Serves v card [] t := by
  rcases keeps s s ⟨rfl, serves⟩ with ⟨none, _⟩ | ⟨b, s', t', left, _, rfl, after⟩
  · rw [none] at runs
    cases runs
  · rw [left] at runs
    cases runs
    exact after

theorem locateEntry_serves {v : Volume} {card : Nat → Block} {s t : Fs} {path : List Byte}
    {found : Option Entry} (serves : Serves v card [] s)
    (runs : (locateEntry path).run s = some (found, t)) : Serves v card [] t :=
  serves_after (searches_served.locateEntry searches_served.findEntry path) serves runs

theorem repeats_locateEntry {path : List Byte} (stays : goesUp ∉ components (parentOf path)) :
    Repeats (locateEntry path) Calmed (· = none) := by
  unfold locateEntry
  apply (repeats_resolveParent stays).bind
  · rintro parent rfl s found t runs
    cases runs
    rfl
  · intro parent
    cases parent with
    | none => exact repeats_pure
    | some parent => exact repeats_findEntry _ _ _

theorem locateEntry_again {s t : Fs} {path : List Byte} {e : Entry}
    (sure : s.faults = [] ∨ goesUp ∉ components (parentOf path))
    (runs : (locateEntry path).run s = some (some e, t)) :
    ∃ s' t', Serves s.volume s.card [] s' ∧ (locateEntry path).run s' = some (some e, t') := by
  rcases sure with answers | stays
  · exact ⟨s, t, ⟨answers, rfl, rfl, by simp⟩, runs⟩
  · rcases repeats_locateEntry stays s _ _ t rfl runs with none | ⟨t', again, _⟩
    · cases none
    · exact ⟨{ s with faults := [] }, t', ⟨rfl, rfl, rfl, by simp⟩, again⟩

/-- Which entry a lookup of this path comes to, or that it does not end, does not depend
on what the memory of its accumulators held. -/
def Decided (v : Volume) (card : Nat → Block) (path : List Byte) : Prop :=
  ∀ s t, Serves v card [] s → Serves v card [] t →
    ((locateEntry path).run s).map (·.1) = ((locateEntry path).run t).map (·.1)

variable {wantLong : Option (List Byte)}

theorem keeps_findEntry_steady {v : Volume} {card : Nat → Block} {dir : Nat} {name83 : List Byte}
     (steady : Steady name83 wantLong
      (cardSlots v card (clustersFrom readable (link v card) (walkLimit + 1) dir))) :
    Keeps (findEntry dir name83 wantLong) (Serving v card) := by
  rintro s t ⟨first, second⟩
  have chain : ∀ s, Serves v card [] s →
      s.readChain dir = clustersFrom readable (link v card) (walkLimit + 1) dir := by
    intro s serves
    rw [Fs.readChain, serves.volume, serves.card]
  have slots : ∀ s, Serves v card [] s → s.readSlots dir =
      cardSlots v card (clustersFrom readable (link v card) (walkLimit + 1) dir) := by
    intro s serves
    rw [Fs.readSlots, chain s serves, serves.volume, serves.card]
  have same : ((findEntry dir name83 wantLong).run s).map (·.1) =
      ((findEntry dir name83 wantLong).run t).map (·.1) := by
    rw [findEntry_value first.answers, findEntry_value second.answers, chain s first, chain t second,
      slots s first, slots t second, Fs.emptyLfn, firstAnswer_memory steady _ (t.stack t.calls),
      ← Fs.emptyLfn]
  cases left : (findEntry dir name83 wantLong).run s with
  | none =>
    rw [left, Option.map_none, eq_comm, Option.map_eq_none_iff] at same
    exact .inl ⟨rfl, same⟩
  | some outcome =>
    obtain ⟨e, s'⟩ := outcome
    rw [left, Option.map_some, eq_comm, Option.map_eq_some_iff] at same
    obtain ⟨⟨e', t'⟩, right, rfl⟩ := same
    exact .inr ⟨_, s', t', rfl, right, serves_after (searches_served.findEntry _ _ _) first left,
      serves_after (searches_served.findEntry _ _ _) second right⟩

def SteadyDir (v : Volume) (card : Nat → Block) (dir : Nat) : Prop :=
  ∀ name83 wantLong, Steady name83 wantLong
    (cardSlots v card (clustersFrom readable (link v card) (walkLimit + 1) dir))

def SteadyFrom (v : Volume) (card : Nat → Block) : Nat → List (List Byte) → Prop
  | dir, [] => SteadyDir v card dir
  | dir, part :: rest => SteadyDir v card dir ∧ ∀ s t next, Serves v card [] s →
      (resolveStep dir part).run s = some (some next, t) → SteadyFrom v card next rest

theorem keeps_resolveFrom_steady {v : Volume} {card : Nat → Block} {dir : Nat}
    {parts : List (List Byte)} (steady : SteadyFrom v card dir parts) :
    Twins (resolveFrom dir parts) (Serving v card)
      fun found s t => Serving v card s t ∧ ∀ dir ∈ found, SteadyDir v card dir := by
  induction parts generalizing dir with
  | nil =>
    refine twins_pure fun s t serving => ⟨serving, ?_⟩
    intro last same
    cases same
    exact steady
  | cons part rest ih =>
    obtain ⟨here, onward⟩ := steady
    unfold resolveFrom
    refine Twins.bind (reads_serving.resolveStep
      (fun name83 wantLong => keeps_findEntry_steady (here name83 wantLong)) part).reached ?_
    intro found
    cases found with
    | none => exact twins_pure fun s t both => ⟨both.1, fun _ never => by cases never⟩
    | some next =>
      rintro s t ⟨serving, s', t', before, runs⟩
      exact ih (onward s' s next before.1 runs) s t serving

theorem decided_of_steady {v : Volume} {card : Nat → Block} {path : List Byte}
    (steady : SteadyFrom v card v.rootCluster (components (parentOf path))) :
    Decided v card path := by
  have parents : Twins (resolveDir (parentOf path)) (Serving v card)
      fun found s t => Serving v card s t ∧ ∀ dir ∈ found, SteadyDir v card dir := by
    unfold resolveDir
    apply twins_get (fun s t serving => by rw [reads_serving.volume s t serving])
    intro s t serving
    rw [serving.1.volume]
    exact keeps_resolveFrom_steady steady
  have leaves : Twins (resolveParent path) (Serving v card) fun found s t =>
      Serving v card s t ∧ ∀ place ∈ found, SteadyDir v card place.1 := by
    unfold resolveParent
    apply Twins.bind parents
    intro found
    cases found with
    | none => exact twins_pure fun s t both => ⟨both.1, fun _ never => by cases never⟩
    | some dir =>
      refine twins_pure fun s t both => ⟨both.1, ?_⟩
      intro place member
      obtain ⟨leaf, _, rfl⟩ := Option.map_eq_some_iff.mp member
      exact both.2 dir rfl
  have looked : Keeps (locateEntry path) (Serving v card) := by
    unfold locateEntry
    apply Twins.bind leaves
    intro found
    cases found with
    | none => exact twins_pure fun s t both => both.1
    | some place =>
      rintro s t ⟨serving, here⟩
      exact keeps_findEntry_steady (here place rfl _ _) s t serving
  exact fun s t first second => looked.value ⟨first, second⟩

theorem runsFrom_frags {p : Pass} {slots : List Slot} (none : p.frags = [])
    (whole : ∀ slot ∈ slots, slot.entry.fragment = false) : ∀ r ∈ runsFrom p slots, r.frags = [] := by
  induction slots generalizing p with
  | nil => simp [runsFrom]
  | cons slot rest ih =>
    have here := whole slot List.mem_cons_self
    have later := ih (p := p.step slot) (by simp [Pass.step, here])
      (fun other member => whole other (List.mem_cons_of_mem _ member))
    intro r member
    simp only [runsFrom, here, Bool.or_false] at member
    split at member
    · cases member
    · split at member
      · exact later r member
      · rcases List.mem_cons.mp member with rfl | member
        · exact none
        · exact later r member

theorem steady_of_whole {name83 : List Byte} {slots : List Slot}
    (whole : ∀ slot ∈ slots, slot.entry.fragment = false) : Steady name83 wantLong slots := by
  intro r member junk junk'
  have none := runsFrom_frags rfl whole r member
  simp [Run.answers, none, gather, answersTo, lfnReset]

/-- The cache holds the file a lookup of `origin` came to, and a place on its chain. -/
structure Remembers (s : Fs) (origin : List Byte) : Prop where
  path : s.ra.path = origin.take 63
  placed : s.Placed
  found : ∃ t e u, Serves s.volume s.card [] t ∧ (locateEntry origin).run t = some (some e, u) ∧
    e.isDir = false ∧ s.ra.first = e.cluster ∧ s.ra.size = e.size

section Remembering
variable {s t : Fs} {path origin : List Byte}

theorem remember_hit (hit : s.hit path = true) : (remember path).run s = some (true, s) := by
  simp [remember_eq, hit]

theorem remember_miss (miss : s.hit path = false) :
    (remember path).run s = (locateEntry path >>= fill path).run s := by
  simp [remember_eq, miss]

theorem fill_run {e : Entry} (file : e.isDir = false) : (fill path (some e)).run s =
    some (true, { s with ra := ⟨path.take 63, true, e.cluster, e.size, 0, e.cluster⟩ }) := by
  simp [fill, file]

theorem fill_outcome {found : Option Entry} {ok : Bool} (filled : (fill path found).run s = some (ok, t)) :
    (ok = false ∧ t = s) ∨ ok = true ∧ ∃ e, found = some e ∧ e.isDir = false ∧
      t = { s with ra := ⟨path.take 63, true, e.cluster, e.size, 0, e.cluster⟩ } := by
  cases found with
  | none =>
    cases filled
    exact .inl ⟨rfl, rfl⟩
  | some e =>
    by_cases dir : e.isDir = true
    · have refused : (fill path (some e)).run s = some (false, s) := by simp [fill, dir]
      rw [refused] at filled
      cases filled
      exact .inl ⟨rfl, rfl⟩
    · rw [fill_run (by simpa using dir)] at filled
      cases filled
      exact .inr ⟨rfl, e, rfl, by simpa using dir, rfl⟩

theorem readAt_run (p : CString) (offset len : BitVec 32) (mounted : s.mounted = true) :
    (readAt p offset len).run s = (remember p.bytes >>= fun found =>
      if found then readOn offset len else pure (-1, [])).run s := by
  simp [readAt_eq, mounted]

theorem readAt_miss (p : CString) (offset len : BitVec 32) :
    Twins (readAt p offset len)
      (fun s t => s.hit p.bytes = false ∧ t.hit p.bytes = false ∧ Aside s t) fun _ _ _ => True := by
  rintro s t ⟨miss, missed, aside⟩
  have both : s.mounted = t.mounted := by
    obtain ⟨r, rfl⟩ := aside
    rfl
  by_cases mounted : s.mounted = true
  · -- once the file is found, the cache is the same as well
    have filled : ∀ found, Twins (fill p.bytes found) Aside
        fun ok s t => ok = true → s = t := by
      intro found
      cases found with
      | none => exact twins_pure fun _ _ _ done => by cases done
      | some e =>
        apply twins_ite
        · exact fun _ => twins_pure fun _ _ _ done => by cases done
        · intro _
          have set : Twins (modify fun s : Fs =>
              { s with ra := ⟨p.bytes.take 63, true, e.cluster, e.size, 0, e.cluster⟩ })
              Aside fun _ s t => s = t := by
            apply twins_modify
            rintro s t ⟨r, rfl⟩
            rfl
          exact Twins.bind set fun _ => twins_pure fun _ _ same _ => same
    have whole : Twins (locateEntry p.bytes >>= fun found => fill p.bytes found >>= fun ok =>
        if ok then readOn offset len else pure (-1, [])) Aside fun _ _ _ => True := by
      apply (searches_aside.locateEntry searches_aside.findEntry p.bytes).bind
      intro found
      apply Twins.bind (filled found)
      intro ok
      cases ok with
      | true => exact (twins_self.mono fun _ _ _ _ => trivial).narrow fun s t same => same rfl
      | false => exact twins_pure fun _ _ _ => trivial
    have begins : ∀ s : Fs, s.mounted = true → s.hit p.bytes = false →
        (readAt p offset len).run s = (locateEntry p.bytes >>= fun found => fill p.bytes found >>=
          fun ok => if ok then readOn offset len else pure (-1, [])).run s := by
      intro s mounted miss
      rw [readAt_run p offset len mounted, ← bind_assoc, StateT.run_bind, remember_miss miss]
      rfl
    rw [begins s mounted miss, begins t (both ▸ mounted) missed]
    exact whole s t aside
  · have ends : ∀ s : Fs, s.mounted ≠ true → (readAt p offset len).run s = some ((-1, []), s) := by
      intro s none
      simp [readAt_eq, none]
    exact .inr ⟨_, s, t, ends s mounted, ends t (both ▸ mounted), trivial⟩

theorem readAt_hit (p : CString) (offset len : BitVec 32) (serves : Serves s.volume s.card [] s)
    (hit : s.hit p.bytes = true) (remembers : Remembers s p.bytes)
    (decided : Decided s.volume s.card p.bytes) {r : ReadCache} (invalid : r.valid = false) :
    ((readAt p offset len).run s).map (·.1) =
      ((readAt p offset len).run { s with ra := r }).map (·.1) := by
  by_cases mounted : s.mounted = true
  · obtain ⟨t, e, u, served, found, file, first, size⟩ := remembers.found
    have servesAside : Serves s.volume s.card [] { s with ra := r } :=
      ⟨serves.answers, rfl, rfl, by simp⟩
    have again := decided t _ served servesAside
    rw [found, Option.map_some, eq_comm, Option.map_eq_some_iff] at again
    obtain ⟨⟨_, u'⟩, looked, rfl⟩ := again
    have servesThere := locateEntry_serves servesAside looked
    have left : (readAt p offset len).run s = (readOn offset len).run s := by
      rw [readAt_run p offset len mounted, run_bind_of (remember_hit hit), if_pos rfl]
    have right : (readAt p offset len).run { s with ra := r } = (readOn offset len).run { u' with
        ra := ⟨p.bytes.take 63, true, e.cluster, e.size, 0, e.cluster⟩ } := by
      have miss : ({ s with ra := r } : Fs).hit p.bytes = false := by simp [Fs.hit, invalid]
      have filled := (remember_miss miss).trans ((run_bind_of looked).trans (fill_run file))
      rw [readAt_run p offset len (by exact mounted), run_bind_of filled, if_pos rfl]
    rw [left, right]
    refine (twins_readOn offset len).value ⟨⟨serves, ?_⟩, first, size, remembers.placed, rfl⟩
    exact ⟨servesThere.answers, servesThere.volume, servesThere.card, servesThere.kept⟩
  · simp [readAt_eq, mounted]

theorem Remembers.moved (remembers : Remembers s origin) (volume : t.volume = s.volume)
    (card : t.card = s.card) (path : t.ra.path = s.ra.path) (first : t.ra.first = s.ra.first)
    (size : t.ra.size = s.ra.size) (placed : t.Placed) : Remembers t origin := by
  obtain ⟨v, e, u, served, found, file, cluster, bytes⟩ := remembers.found
  refine ⟨path.trans remembers.path, placed, v, e, u, ?_, found, file, first.trans cluster,
    size.trans bytes⟩
  rw [volume, card]
  exact served

theorem Remembers.congr (remembers : Remembers s origin)
    (volume : t.volume = s.volume) (card : t.card = s.card) (ra : t.ra = s.ra) :
    Remembers t origin := by
  refine remembers.moved volume card (by rw [ra]) (by rw [ra]) (by rw [ra]) ?_
  rw [Fs.Placed, volume, card, ra]
  exact remembers.placed

/-- What the cache holds when a read of this path has ended: the file of that path, if the
read has looked it up, or else what it held. -/
def Fs.originAfter (s : Fs) (path origin : List Byte) : List Byte :=
  if s.mounted && !s.hit path && ((remember path).run s).map (·.1) == some true then path
  else origin

variable {offset len : BitVec 32} {a : Int × List Byte}

theorem readOn_remembers
    (remembers : Remembers s origin) (runs : (readOn offset len).run s = some (a, t)) :
    t.volume = s.volume ∧ t.card = s.card ∧ (t.ra.valid = true → Remembers t origin) := by
  obtain ⟨volume, card, kept⟩ := readOn_leaves remembers.placed runs
  refine ⟨volume, card, fun valid => ?_⟩
  obtain ⟨path, first, size, placed⟩ := kept valid
  exact remembers.moved volume card path first size placed

theorem readAt_remembers {p : CString}
    (sure : s.hit p.bytes = false → s.faults = [] ∨ goesUp ∉ components (parentOf p.bytes))
    (truth : s.ra.valid = true → Remembers s origin)
    (runs : (readAt p offset len).run s = some (a, t)) :
    t.volume = s.volume ∧ t.card = s.card ∧
      (t.ra.valid = true → Remembers t (s.originAfter p.bytes origin)) := by
  by_cases mounted : s.mounted = true
  · rw [readAt_run p offset len mounted] at runs
    by_cases hit : s.hit p.bytes = true
    · rw [run_bind_of (remember_hit hit), if_pos rfl] at runs
      have valid : s.ra.valid = true := by
        simp only [Fs.hit, Bool.and_eq_true] at hit
        exact hit.1
      have same : s.originAfter p.bytes origin = origin := by simp [Fs.originAfter, hit]
      rw [same]
      exact readOn_remembers (truth valid) runs
    · have miss : s.hit p.bytes = false := by simpa using hit
      obtain ⟨ok, u, remembered, rest⟩ := run_bind_some runs
      have looked := remembered
      rw [remember_miss miss] at looked
      obtain ⟨found, w, located, filled⟩ := run_bind_some looked
      have volume : w.volume = s.volume := frames_locateEntry unread_volume _ s _ w located
      have card : w.card = s.card := frames_locateEntry unread_card _ s _ w located
      have cache : w.ra = s.ra := frames_locateEntry unwritten_ra.1 _ s _ w located
      rcases fill_outcome filled with ⟨rfl, rfl⟩ | ⟨rfl, e, rfl, file, rfl⟩
      · -- nothing is found, and the cache stays
        cases rest
        have same : s.originAfter p.bytes origin = origin := by simp [Fs.originAfter, remembered]
        rw [same]
        exact ⟨volume, card, fun valid => (truth (cache ▸ valid)).congr volume card cache⟩
      · have other : s.originAfter p.bytes origin = p.bytes := by
          simp [Fs.originAfter, mounted, miss, remembered]
        rw [other, ← volume, ← card]
        obtain ⟨s', t', served, again⟩ := locateEntry_again (sure miss) located
        rw [← volume, ← card] at served
        exact readOn_remembers (s := { w with
            ra := ⟨p.bytes.take 63, true, e.cluster, e.size, 0, e.cluster⟩ })
          ⟨rfl, rfl, s', e, t', served, again, file, rfl, rfl⟩ rest
  · have ends : (readAt p offset len).run s = some ((-1, []), s) := by simp [readAt_eq, mounted]
    rw [ends] at runs
    cases runs
    have same : s.originAfter p.bytes origin = origin := by simp [Fs.originAfter, mounted]
    rw [same]
    exact ⟨rfl, rfl, truth⟩

end Remembering

end Ubiqos.Fat
