import Ubiqos.Fat.Calls
import Ubiqos.Fat.Listing
import Mathlib.Data.List.TakeWhile

/-!
The two searches of a directory on any chain: what the reading one finds against
what the writing one finds. The chain may leave the volume, come back into
itself or lead to a cluster that is none, and the directory may lie over the
table. Slots are counted without an end; the code counts them in thirty-two bits.
-/

namespace Ubiqos.Fat

open Function Prog

def link (v : Volume) (card : Nat → Block) (c : Nat) : Nat := entryIn (card (v.fatLba c)) c

/-- The clusters a loop passes, at most `n` of them. -/
def clustersFrom (within : Nat → Bool) (next : Nat → Nat) : Nat → Nat → List Nat
  | 0, _ => []
  | n + 1, c => if within c then c :: clustersFrom within next n (next c) else []

def cardSlots (v : Volume) (card : Nat → Block) (nodes : List Nat) : List Slot :=
  nodes.flatMap fun c => sectorsFrom card (v.clusterToLba c) 0 v.sectorsPerCluster

def Fs.readChain (s : Fs) (dir : Nat) : List Nat :=
  clustersFrom readable (link s.volume s.card) (walkLimit + 1) dir

def Fs.readSlots (s : Fs) (dir : Nat) : List Slot := cardSlots s.volume s.card (s.readChain dir)
section Chains
variable {next other : Nat → Nat} {within : Nat → Bool}

end Chains

section Slots
variable {v : Volume} {card : Nat → Block} {nodes : List Nat} {k : Nat}

@[simp] theorem length_sectorsFrom (first i n : Nat) :
    (sectorsFrom card first i n).length = n * 16 := by
  simp [sectorsFrom, List.length_flatMap]

@[simp] theorem cardSlots_cons (c : Nat) (rest : List Nat) :
    cardSlots v card (c :: rest) =
      sectorsFrom card (v.clusterToLba c) 0 v.sectorsPerCluster ++ cardSlots v card rest := rfl

end Slots

/-- A device that answers, over this card. Where the kept sector is one of the
table's for these clusters, it is true to the card. -/
structure Serves (v : Volume) (card : Nat → Block) (nodes : List Nat) (s : Fs) : Prop where
  answers : s.faults = []
  volume : s.volume = v
  card : s.card = card
  kept : ∀ c ∈ nodes, v.fatLba c = s.fatbufLba → s.fatbuf = s.card s.fatbufLba

section Walking
variable {v : Volume} {card : Nat → Block} {nodes : List Nat} {s : Fs}

theorem Serves.sector (serves : Serves v card nodes s) (b : Block) :
    Serves v card nodes { s with sector := b } :=
  ⟨serves.answers, serves.volume, serves.card, serves.kept⟩

theorem fatNextCluster_links (serves : Serves v card nodes s) (c : Nat) :
    Gives (fatNextCluster c) s (fun n t => n = link v card c ∧ Serves v card nodes t) := by
  have whole := serves
  obtain ⟨answers, rfl, rfl, _⟩ := serves
  refine gives_run (a := link s.volume s.card c)
    (t := { s with sector := s.card (s.volume.fatLba c) }) ?_ ⟨rfl, whole.sector _⟩
  simp [fatNextCluster, readSector_run answers, link]

variable {σ ρ : Type} {visit : σ → Slot → Scan σ ρ}

/-- What a walk of a directory comes to: a pass over the slots of its clusters,
or none when the clusters do not come to an end. -/
inductive Walked (v : Volume) (card : Nat → Block) (nodes : List Nat)
    (visit : σ → Slot → Scan σ ρ) (slots : List Slot) (full : Prop) (acc : σ) :
    Option ((Scan σ ρ × Nat) × Fs) → Prop
  | ended (r : Scan σ ρ × Nat) (t : Fs) (serves : Serves v card nodes t)
      (outcome : r.1 = scanSlots visit slots acc)
      (stops : ∀ result, r.1 = .stop result → StopsAt visit slots acc result t.sector)
      (short : ∀ a, r.1 = .more a → ¬ full) :
      Walked v card nodes visit slots full acc (some (r, t))
  | endless (a : σ) (passes : scanSlots visit slots acc = .more a) (goes : full) :
      Walked v card nodes visit slots full acc none

theorem Walked.prepend {front slots : List Slot} {full more : Prop} {acc next : σ}
    {outcome : Option ((Scan σ ρ × Nat) × Fs)} (passes : scanSlots visit front acc = .more next)
    (walked : Walked v card nodes visit slots full next outcome) (same : more ↔ full) :
    Walked v card nodes visit (front ++ slots) more acc outcome := by
  have whole : scanSlots visit (front ++ slots) acc = scanSlots visit slots next := by
    rw [scanSlots_append, passes]
  rw [same]
  cases walked with
  | ended r t serves outcome stops short =>
    exact .ended r t serves (outcome.trans whole.symm)
      (fun result ends => stopsAt_prepend passes (stops result ends)) short
  | endless a more goes => exact .endless a (whole.trans more) goes

theorem scanChain_walked {within : Nat → Bool} {next : Nat → Prog Fs Nat} (failed : ρ) (n : Nat)
    {s : Fs} (serves : Serves v card nodes s) (c last : Nat) (acc : σ)
    (follows : ∀ x ∈ clustersFrom within (link v card) n c, ∀ t, Serves v card nodes t →
      Gives (next x) t (fun m u => m = link v card x ∧ Serves v card nodes u)) :
    Walked v card nodes visit (cardSlots v card (clustersFrom within (link v card) n c))
      ((clustersFrom within (link v card) n c).length = n) acc
      ((scanChain within next visit failed n c last acc).run s) := by
  induction n generalizing s c last acc with
  | zero => exact .endless acc rfl rfl
  | succ n ih =>
    simp only [clustersFrom] at follows ⊢
    split
    · rename_i enters
      rw [if_pos enters] at follows
      have whole := serves
      obtain ⟨answers, rfl, rfl, _⟩ := serves
      obtain ⟨r, t, runs, ⟨b, rfl⟩, outcome, stops⟩ :=
        (@scanCluster_passes _ _ visit s) answers failed (s.volume.clusterToLba c)
          s.volume.sectorsPerCluster 0 acc
      rw [cardSlots_cons]
      cases r with
      | stop result =>
        have ends : (scanChain within next visit failed (n + 1) c last acc).run s =
            some ((.stop result, c), { s with sector := b }) := by
          simp [scanChain, enters, runs]
        rw [ends]
        refine .ended _ _ (whole.sector b) ?_ ?_ (by simp)
        · rw [scanSlots_append, ← outcome]
        · intro other equal
          cases equal
          exact stopsAt_extend (stops result rfl)
      | more a =>
        obtain ⟨m, u, steps, rfl, after⟩ :=
          follows c List.mem_cons_self _ (whole.sector b)
        have goes : (scanChain within next visit failed (n + 1) c last acc).run s =
            (scanChain within next visit failed n (link s.volume s.card c) c a).run u := by
          simp [scanChain, enters, runs, steps]
        rw [goes]
        exact (ih after _ c a
          (fun x member => follows x (List.mem_cons_of_mem _ member))).prepend outcome.symm
          (by simp)
    · rename_i leaves
      have ends : (scanChain within next visit failed (n + 1) c last acc).run s =
          some ((.more acc, last), s) := by
        simp [scanChain, leaves]
      rw [ends]
      exact .ended _ _ serves rfl (by simp) (by simp)

end Walking

def lfnPast (l : Lfn) (slot : Slot) : Lfn :=
  if slot.entry.deleted then lfnReset l
  else if slot.entry.fragment then lfnTake l slot.entry
  else lfnReset l

section Answering
variable (name83 : List Byte) (wantLong : Option (List Byte))

/-- The entry of a number answers to the name: it is in use, no end stands
before it, and its own name or the one in front of it is the one wanted. `l` is
the accumulator at the start. -/
structure AnswersAt (l : Lfn) (slots : List Slot) (k : Nat) (slot : Slot) : Prop where
  hit : slots[k]? = some slot
  plain : slot.entry.plain
  before : ∀ j < k, ∀ other, slots[j]? = some other → other.entry.isEnd = false
  answers : answersTo ((slots.take k).foldl lfnPast l) slot.entry name83 wantLong = true

def AnswersFirst (l : Lfn) (slots : List Slot) (k : Nat) (slot : Slot) : Prop :=
  AnswersAt name83 wantLong l slots k slot ∧
    ∀ j < k, ∀ other, ¬ AnswersAt name83 wantLong l slots j other

def firstAnswer : Lfn → List Slot → Option (Nat × Slot)
  | _, [] => none
  | l, slot :: rest =>
    if slot.entry.isEnd then none
    else if slot.entry.deleted || slot.entry.fragment ||
        !answersTo l slot.entry name83 wantLong then
      (firstAnswer (lfnPast l slot) rest).map fun found => (found.1 + 1, found.2)
    else some (0, slot)

variable {name83 wantLong}

variable {l : Lfn}

theorem answersAt_zero {first slot : Slot} {rest : List Slot} :
    AnswersAt name83 wantLong l (first :: rest) 0 slot ↔
      first = slot ∧ first.entry.plain ∧ answersTo l first.entry name83 wantLong = true := by
  constructor
  · rintro ⟨hit, plain, _, answers⟩
    obtain rfl : first = slot := by simpa using hit
    exact ⟨rfl, plain, answers⟩
  · rintro ⟨rfl, plain, answers⟩
    exact ⟨rfl, plain, fun j below => absurd below (by omega), answers⟩

theorem answersAt_succ {first slot : Slot} {rest : List Slot} {k : Nat} :
    AnswersAt name83 wantLong l (first :: rest) (k + 1) slot ↔
      first.entry.isEnd = false ∧ AnswersAt name83 wantLong (lfnPast l first) rest k slot := by
  constructor
  · rintro ⟨hit, plain, before, answers⟩
    refine ⟨before 0 (by omega) first rfl, by simpa using hit, plain, ?_, by simpa using answers⟩
    intro j below other found
    exact before (j + 1) (by omega) other (by simpa using found)
  · rintro ⟨unended, hit, plain, before, answers⟩
    refine ⟨by simpa using hit, plain, ?_, by simpa using answers⟩
    intro j below other found
    cases j with
    | zero =>
      obtain rfl : first = other := by simpa using found
      exact unended
    | succ j => exact before j (by omega) other (by simpa using found)

theorem firstAnswer_iff {slots : List Slot} {k : Nat} {slot : Slot} :
    firstAnswer name83 wantLong l slots = some (k, slot) ↔
      AnswersFirst name83 wantLong l slots k slot := by
  induction slots generalizing l k with
  | nil =>
    constructor
    · intro found
      cases found
    · rintro ⟨⟨hit, _⟩, _⟩
      simp at hit
  | cons first rest ih =>
    simp only [firstAnswer]
    by_cases isEnd : first.entry.isEnd = true
    · rw [if_pos isEnd]
      constructor
      · intro found
        cases found
      · rintro ⟨at_, _⟩
        cases k with
        | zero => exact absurd isEnd (by simp [(answersAt_zero.mp at_).2.1.1])
        | succ k => exact absurd isEnd (by simp [(answersAt_succ.mp at_).1])
    rw [if_neg isEnd]
    split
    · rename_i passed
      have not_here : ∀ other, ¬ AnswersAt name83 wantLong l (first :: rest) 0 other := by
        intro other at_
        obtain ⟨_, ⟨_, kept, plain⟩, answers⟩ := answersAt_zero.mp at_
        simp [kept, plain, answers] at passed
      cases k with
      | zero =>
        constructor
        · simp
        · exact fun ⟨at_, _⟩ => absurd at_ (not_here slot)
      | succ k =>
        have moved : (firstAnswer name83 wantLong (lfnPast l first) rest).map
            (fun found => (found.1 + 1, found.2)) = some (k + 1, slot) ↔
            firstAnswer name83 wantLong (lfnPast l first) rest = some (k, slot) := by
          rw [Option.map_eq_some_iff]
          constructor
          · rintro ⟨⟨j, other⟩, found, same⟩
            simp only [Prod.mk.injEq, Nat.add_right_cancel_iff] at same
            rw [found, same.1, same.2]
          · exact fun found => ⟨(k, slot), found, rfl⟩
        rw [moved, ih]
        constructor
        · rintro ⟨at_, earlier⟩
          refine ⟨answersAt_succ.mpr ⟨by simpa using isEnd, at_⟩, ?_⟩
          intro j below other
          cases j with
          | zero => exact not_here other
          | succ j => exact fun found => earlier j (by omega) other (answersAt_succ.mp found).2
        · rintro ⟨at_, earlier⟩
          refine ⟨(answersAt_succ.mp at_).2, ?_⟩
          intro j below other found
          exact earlier (j + 1) (by omega) other
            (answersAt_succ.mpr ⟨by simpa using isEnd, found⟩)
    · rename_i answers
      simp only [Bool.or_eq_true, Bool.not_eq_true', not_or, Bool.not_eq_true] at answers
      have here : AnswersAt name83 wantLong l (first :: rest) 0 first :=
        answersAt_zero.mpr ⟨rfl, ⟨by simpa using isEnd, answers.1.1, answers.1.2⟩,
          by simpa using answers.2⟩
      constructor
      · intro found
        cases found
        exact ⟨here, fun j below => absurd below (by omega)⟩
      · rintro ⟨at_, earlier⟩
        cases k with
        | zero =>
          rw [(answersAt_zero.mp at_).1]
        | succ k => exact absurd here (earlier 0 (by omega) first)

theorem lookup_answers (l : Lfn) (slots : List Slot) :
    (scanSlots (findEntryVisit name83 wantLong) slots l).found =
      (firstAnswer name83 wantLong l slots).map (·.2.entry) := by
  induction slots generalizing l with
  | nil => rfl
  | cons slot rest ih =>
    simp only [scanSlots, findEntryVisit, firstAnswer]
    by_cases isEnd : slot.entry.isEnd = true
    · simp [isEnd, Scan.found]
    by_cases deleted : slot.entry.deleted = true
    · simpa [isEnd, deleted, lfnPast, Function.comp_def] using ih (lfnReset l)
    by_cases fragment : slot.entry.fragment = true
    · simpa [isEnd, deleted, fragment, lfnPast, Function.comp_def] using ih (lfnTake l slot.entry)
    by_cases answers : answersTo l slot.entry name83 wantLong = true
    · simp [isEnd, deleted, fragment, answers, Scan.found]
    · simpa [isEnd, deleted, fragment, answers, lfnPast, Function.comp_def] using ih (lfnReset l)

end Answering

def Entry.piece (e : Entry) : Prop := e.fragment = true ∧ e.deleted = false

section Runs
variable {name83 : List Byte} {wantLong : Option (List Byte)}

end Runs

def Fs.entryRead (s : Fs) (dir : Nat) (name83 : List Byte) (wantLong : Option (List Byte)) :
    Option Entry :=
  ((findEntry dir name83 wantLong).run s).bind (·.1)

def Fs.emptyLfn (s : Fs) : Lfn := lfnReset { name := s.stack s.calls, valid := false }

section Outcomes
variable {s : Fs} {dir : Nat} {name83 : List Byte} {wantLong : Option (List Byte)}

theorem findEntry_run : (findEntry dir name83 wantLong).run s =
    ((scanChain readable fatNextCluster (findEntryVisit name83 wantLong) none (walkLimit + 1) dir dir
      s.emptyLfn).run { s with calls := s.calls + 1 }).map (fun r => (r.1.1.found, r.2)) := by
  simp only [findEntry, run_bind_of (freshLfn_run s), StateT.run_bind, Fs.emptyLfn]
  generalize (scanChain readable fatNextCluster (findEntryVisit name83 wantLong) none _ dir dir _).run _ =
    outcome
  rcases outcome with _ | ⟨⟨result | acc, last⟩, t⟩ <;> rfl

variable {slots : List Slot}

theorem lookup_stops {l : Lfn}
    (stops : scanSlots (findEntryVisit name83 wantLong) slots l = .stop none) :
    ∃ slot ∈ slots, slot.entry.isEnd = true := by
  obtain ⟨front, slot, back, mid, rfl, _, _, stopped⟩ := ((@scanSlots_invariant _ _ _
    (fun _ _ => True) slots) (fun _ _ _ _ _ _ => trivial) [] l trivial).2 none stops
  refine ⟨slot, by simp, ?_⟩
  simp only [findEntryVisit] at stopped
  split at stopped
  · assumption
  split at stopped
  · cases stopped
  split at stopped
  · cases stopped
  split at stopped <;> cases stopped

theorem lookup_passes {l a : Lfn}
    (passes : scanSlots (findEntryVisit name83 wantLong) slots l = .more a) :
    ∀ slot ∈ slots, slot.entry.isEnd = false := by
  induction slots generalizing l with
  | nil => simp
  | cons first rest ih =>
    simp only [scanSlots] at passes
    cases visited : findEntryVisit name83 wantLong l first with
    | stop result =>
      rw [visited] at passes
      cases passes
    | more next =>
      rw [visited] at passes
      have here : first.entry.isEnd = false := by
        cases isEnd : first.entry.isEnd with
        | false => rfl
        | true => simp [findEntryVisit, isEnd] at visited
      intro slot member
      rcases List.mem_cons.mp member with rfl | later
      · exact here
      · exact ih passes slot later

theorem findEntry_value (answers : s.faults = []) :
    ((findEntry dir name83 wantLong).run s).map (·.1) =
      let found := (firstAnswer name83 wantLong s.emptyLfn (s.readSlots dir)).map (·.2.entry)
      if (s.readChain dir).length = walkLimit + 1 ∧
        (∀ slot ∈ s.readSlots dir, slot.entry.isEnd = false) ∧ found = none then none
      else some found := by
  have serves : Serves s.volume s.card [] { s with calls := s.calls + 1 } :=
    ⟨answers, rfl, rfl, by simp⟩
  have walked := (@scanChain_walked _ _ _ _ _ (findEntryVisit name83 wantLong) readable
    fatNextCluster) none (walkLimit + 1) serves dir dir s.emptyLfn
    (fun x _ t serves => fatNextCluster_links serves x)
  rw [← Fs.readChain, ← Fs.readSlots] at walked
  rw [← lookup_answers, findEntry_run]
  generalize (scanChain readable fatNextCluster _ _ _ dir dir _).run _ = outcome at walked ⊢
  cases walked with
  | endless a passes goes =>
    rw [if_pos ⟨goes, lookup_passes passes, by rw [passes]; rfl⟩]
    rfl
  | ended r t serves outcome stops short =>
    rw [if_neg, ← outcome]
    · rfl
    · rintro ⟨full, unended, missing⟩
      rw [← outcome] at missing
      cases scan : r.1 with
      | more a => exact short a scan full
      | stop result =>
        rw [scan] at missing outcome
        cases result with
        | some e => cases missing
        | none =>
          obtain ⟨slot, member, isEnd⟩ := lookup_stops outcome.symm
          rw [unended slot member] at isEnd
          cases isEnd

theorem entryRead_answers (answers : s.faults = []) :
    s.entryRead dir name83 wantLong =
      (firstAnswer name83 wantLong s.emptyLfn (s.readSlots dir)).map (·.2.entry) := by
  have value := (@findEntry_value s dir name83 wantLong) answers
  have joined : s.entryRead dir name83 wantLong =
      (((findEntry dir name83 wantLong).run s).map (·.1)).join := by
    rw [Fs.entryRead]
    cases (findEntry dir name83 wantLong).run s <;> rfl
  rw [joined, value]
  dsimp only
  split
  · rename_i endless
    exact endless.2.2.symm
  · rfl

theorem FoundIn.firstAnswer {l : Lfn} {f : Found} {e : Entry}
    (found : FoundIn slots f e)
    (same : some (f.last, f.lba, f.off) = (firstAnswer name83 wantLong l slots).map
      (fun first => (0 + first.1, first.2.lba, first.2.off))) :
    (firstAnswer name83 wantLong l slots).map (·.2.entry) = some e := by
  obtain ⟨⟨k, slot⟩, first, place⟩ := Option.map_eq_some_iff.mp same.symm
  simp only [Nat.zero_add, Prod.mk.injEq] at place
  have hit := (firstAnswer_iff.mp first).1.hit
  rw [place.1, found.slot] at hit
  rw [first, ← Option.some.inj hit]
  rfl

end Outcomes

section Memory
variable {name83 : List Byte} {wantLong : Option (List Byte)}

theorem Finds.unique {answers : (Nat → Byte) → Run → Bool} {list : List Run}
    {found other : Option Run} (steady : ∀ r ∈ list, ∀ m m', answers m r = answers m' r)
    (one : Finds answers list found) (two : Finds answers list other) : found = other := by
  induction one with
  | none =>
    cases two
    rfl
  | @here r rest m yes =>
    cases two with
    | here => rfl
    | @later _ _ _ m' no =>
      rw [steady r List.mem_cons_self m' m, yes] at no
      cases no
  | @later r rest found m no more ih =>
    cases two with
    | @here _ _ m' yes =>
      rw [steady r List.mem_cons_self m' m, no] at yes
      cases yes
    | later _ others => exact ih (fun r member => steady r (List.mem_cons_of_mem _ member)) others

theorem firstAnswer_memory {slots : List Slot} (steady : Steady name83 wantLong slots)
    (m m' : Nat → Byte) :
    (firstAnswer name83 wantLong (lfnReset { name := m, valid := false }) slots).map (·.2.entry) =
      (firstAnswer name83 wantLong (lfnReset { name := m', valid := false }) slots).map
        (·.2.entry) := by
  obtain ⟨found, finds, same⟩ := (@lookup_finds name83 wantLong) m slots
  obtain ⟨other, findsOther, sameOther⟩ := (@lookup_finds name83 wantLong) m' slots
  rw [← lookup_answers, ← lookup_answers]
  exact same.trans ((finds.unique steady findsOther) ▸ sameOther.symm)

end Memory

def Clear (s : Fs) (dir : Nat) (name83 : List Byte) (wantLong : Option (List Byte)) : Prop :=
  ∀ k slot, AnswersFirst name83 wantLong s.emptyLfn (s.readSlots dir) k slot →
    ∀ i ≤ k / perCluster s.volume, ∀ c, (s.readChain dir)[i]? = some c → 2 ≤ c

section Agreement
variable {s s' : Fs} {dir : Nat} {name83 : List Byte} {wantLong : Option (List Byte)}

end Agreement

def marked (card : Nat → Block) (slots : List Slot) : Nat → Block := fun lba off =>
  if slots.any (fun slot => slot.lba == lba && slot.off == off) then 0xe5 else card lba off

def Found.slots (f : Found) (slots : List Slot) : List Slot :=
  (slots.drop f.first).take (f.last + 1 - f.first)

section Erasing
variable {v : Volume} {card : Nat → Block} {nodes : List Nat} {s : Fs} {dir : Nat}

end Erasing

section Results
variable {s s' : Fs} {dir : Nat} {name83 : List Byte} {wantLong : Option (List Byte)}

end Results

/-- A volume of four clusters. The root directory is cluster 2, and its chain
leads to `after`. -/
def strayed (after : Nat) (root : Block) : Fs where
  volume := ⟨1, 5, 1, 2, 2, 2, 4⟩
  mounted := true
  card lba :=
    if lba = 1 ∨ lba = 3 then
      wr32 (wr32 (wr32 (fun _ => 0) 0 0x0ffffff8) 4 0x0fffffff) 8 after
    else if lba = 2 ∨ lba = 4 then
      -- behind the entries of the table: a file of one byte
      setEntry (fun _ => 0) 0 (wr32 (update (nameEntry (padded 11 [chr 'A'])) 11 0x20) 28 1)
    else root
  faults := []
  sector _ := 0
  fatbuf _ := 0
  fatbufLba := invalidLba
  allocHint := 2
  ra := ⟨[], false, 0, 0, 0, 0⟩
  stack _ _ := 0
  calls := 0

def goneSector : Block := fun i => if i % 32 = 0 then 0xe5 else 0

/-- The file `b`, with its fragment, behind one of them. -/
def namedSector : Block :=
  setEntry (setEntry goneSector 32 (fragmentFor [chr 'b'] (padded 11 [chr 'A']) 1 1))
    64 (update (nameEntry (padded 11 [chr 'A'])) 11 0x20)

def fileA : CString := ⟨[chr '/', chr 'A'], by decide⟩

example : (strayed 1 goneSector).readChain 2 = [2, 1] := by decide +kernel

end Ubiqos.Fat
