import Ubiqos.Fat.Cache
import Ubiqos.Lib.Orbit
import Mathlib.Data.Finset.Prod

/-!
The loops of the module that go as far as the card leads them. A scan of a directory goes
on for ever exactly when its chain comes back to a cluster and no entry on the way stops
it; a freeing marks the clusters it passes, and ends wherever no copy of a sector of the
table lies over another one of the chain.
-/

namespace Ubiqos.Fat

open Function Prog Orbit

def follower : Bool → Nat → Prog Fs Nat
  | true => fatGet
  | false => fatNextCluster

/-- Where that leads. The sector that was kept at the start, which need not be the card's,
counts as long as no other has been read; the places of a scan say whether it still does. -/
def Fs.follow (s : Fs) (p : Bool × Nat) : Bool × Nat :=
  if p.1 = true ∧ s.volume.fatLba p.2 = s.fatbufLba then (true, entryIn s.fatbuf p.2)
  else (false, link s.volume s.card p.2)

def Fs.chain (s : Fs) (within : Nat → Bool) (p : Bool × Nat) : Option (Bool × Nat) :=
  if within p.2 then some (s.follow p) else none

/-- The slots of the clusters a scan passes, at most `n` of them. -/
def Fs.slotsAlong (s : Fs) (within : Nat → Bool) (n : Nat) (p : Bool × Nat) : List Slot :=
  cardSlots s.volume s.card ((trail (s.chain within) n p).map (·.2))

/-- A scan that began in `s`, with a device that answers. -/
structure Underway (kept : Bool) (s : Fs) (still : Bool) (t : Fs) : Prop where
  answers : t.faults = []
  volume : t.volume = s.volume
  card : t.card = s.card
  reading : kept = false → still = false
  buffer : kept = true → if still then t.fatbuf = s.fatbuf ∧ t.fatbufLba = s.fatbufLba
    else t.fatbuf = s.card t.fatbufLba

section Scanning
variable {kept still : Bool} {s t : Fs} {within : Nat → Bool} {c : Nat}

theorem Underway.start (answers : s.faults = []) (kept : Bool) : Underway kept s kept s :=
  ⟨answers, rfl, rfl, fun no => no, fun yes => by simp [yes]⟩

theorem Underway.sector (underway : Underway kept s still t) (b : Block) :
    Underway kept s still { t with sector := b } :=
  ⟨underway.answers, underway.volume, underway.card, underway.reading, underway.buffer⟩

theorem follower_follows (underway : Underway kept s still t) (c : Nat) :
    Gives (follower kept c) t (fun n u => n = (s.follow (still, c)).2 ∧
      Underway kept s (s.follow (still, c)).1 u) := by
  have whole := underway
  obtain ⟨answers, volume, card, reading, buffer⟩ := underway
  cases kept with
  | false =>
    obtain rfl := reading rfl
    refine gives_run (a := link s.volume s.card c)
      (t := { t with sector := t.card (t.volume.fatLba c) }) ?_ ?_
    · simp [follower, fatNextCluster, readSector_run answers, link, volume, card]
    · simpa [Fs.follow] using whole.sector _
  | true =>
    have held := buffer rfl
    by_cases here : s.volume.fatLba c = t.fatbufLba
    · -- the sector is in the buffer: the first one still, or one of the card
      have run : (follower true c).run t = some (entryIn t.fatbuf c, t) := by
        simp [follower, fatGet, loadFat, volume, here]
      refine gives_run run ?_
      cases still with
      | true =>
        have same : s.volume.fatLba c = s.fatbufLba := here.trans held.2
        simp only [Fs.follow, same, and_self, if_true]
        exact ⟨by rw [held.1], whole⟩
      | false =>
        simp only [Bool.false_eq_true, if_false] at held
        simp only [Fs.follow, Bool.false_eq_true, false_and, if_false]
        exact ⟨by rw [held, link, here], whole⟩
    · refine gives_run (a := link s.volume s.card c)
        (t := { t with fatbuf := s.card (s.volume.fatLba c), fatbufLba := s.volume.fatLba c }) ?_ ?_
      · simp [follower, fatGet, loadFat, volume, here, readFat_run answers, card, link]
      · have left : ¬ (still = true ∧ s.volume.fatLba c = s.fatbufLba) := by
          rintro ⟨rfl, same⟩
          exact here (same.trans held.2.symm)
        simp only [Fs.follow, left, if_false]
        exact ⟨trivial, answers, volume, card, fun _ => rfl, fun _ => by simp⟩

theorem Fs.chain_on (enters : within c = true) :
    s.chain within (still, c) = some (s.follow (still, c)) := by
  simp [Fs.chain, enters]

theorem Fs.chain_stop (leaves : ¬ within c = true) : s.chain within (still, c) = none := by
  simp [Fs.chain, leaves]

variable {σ ρ : Type} {visit : σ → Slot → Scan σ ρ}

theorem scanChain_along (failed : ρ) (n : Nat) (underway : Underway kept s still t) (c last : Nat)
    (acc : σ) :
    let slots := s.slotsAlong within n (still, c)
    let scan := scanChain within (follower kept) visit failed n c last acc
    ((trail (s.chain within) n (still, c)).length = n ∧ (∃ a, scanSlots visit slots acc = .more a) ∧
      scan.run t = none) ∨
    Gives scan t fun r u => u.faults = [] ∧ u.volume = s.volume ∧ r.1 = scanSlots visit slots acc ∧
      ∀ a, r.1 = .more a → (trail (s.chain within) n (still, c)).length < n := by
  induction n generalizing t still c last acc with
  | zero => exact .inl ⟨rfl, ⟨acc, rfl⟩, rfl⟩
  | succ n ih =>
    by_cases enters : within c = true
    · have slots : s.slotsAlong within (n + 1) (still, c) =
          sectorsFrom s.card (s.volume.clusterToLba c) 0 s.volume.sectorsPerCluster ++
            s.slotsAlong within n (s.follow (still, c)) := by
        rw [Fs.slotsAlong, trail_on (s.chain_on enters)]
        rfl
      obtain ⟨r, u, runs, ⟨b, rfl⟩, outcome, _⟩ :=
        (@scanCluster_passes _ _ visit t) underway.answers failed (t.volume.clusterToLba c)
          t.volume.sectorsPerCluster 0 acc
      rw [underway.card, underway.volume] at outcome
      dsimp only
      rw [slots, scanSlots_append, ← outcome, trail_on (s.chain_on enters), List.length_cons]
      cases r with
      | stop result =>
        refine .inr (gives_run (a := (.stop result, c)) (t := { t with sector := b }) ?_
          ⟨underway.answers, underway.volume, rfl, nofun⟩)
        simp [scanChain, enters, runs]
      | more a =>
        obtain ⟨m, w, steps, rfl, after⟩ := follower_follows (underway.sector b) c
        have goes : (scanChain within (follower kept) visit failed (n + 1) c last acc).run t =
            (scanChain within (follower kept) visit failed n (s.follow (still, c)).2 c a).run w := by
          simp [scanChain, enters, runs, steps]
        rcases ih after (s.follow (still, c)).2 c a with ⟨long, passes, endless⟩ | ends
        · exact .inl ⟨by rw [long], passes, goes.trans endless⟩
        · obtain ⟨r, z, rest, answers, volume, same, short⟩ := ends
          exact .inr ⟨r, z, goes.trans rest, answers, volume, same, fun a' more =>
            Nat.succ_lt_succ (short a' more)⟩
    · refine .inr (gives_run (a := (.more acc, last)) (t := t) ?_ ⟨underway.answers,
        underway.volume, ?_, fun _ _ => ?_⟩)
      · simp [scanChain, enters]
      · rw [Fs.slotsAlong, trail_stop (s.chain_stop enters)]
        rfl
      · rw [trail_stop (s.chain_stop enters)]
        exact Nat.succ_pos n

end Scanning

def Fs.tableFor (s : Fs) (c : Nat) : Block :=
  if s.volume.fatLba c = s.fatbufLba then s.fatbuf else s.card (s.volume.fatLba c)

/-- One turn of the loop of `fat_free_chain`. -/
def freeTurn (p : Fs × Nat) : Option (Fs × Nat) :=
  if 2 ≤ p.2 ∧ p.2 < chainEnd then
    ((fatGet p.2).run p.1).bind fun got =>
      ((fatPut p.2 0).run got.2).bind fun put => if put.1 then some (put.2, got.1) else none
  else none

def Fs.freed (s : Fs) (c : Nat) : Set Nat := {x | ∃ t, Passes freeTurn (s, c) (t, x) ∧ 2 ≤ x ∧ x < chainEnd}

/-- What a freeing marks stays marked: the table is written, and no copy of a sector that
is passed lies over another one that is. -/
structure Erases (s : Fs) (c : Nat) : Prop where
  fats : 0 < s.volume.numFats
  apart : ∀ x ∈ s.freed c, ∀ y ∈ s.freed c, ∀ f < s.volume.numFats,
    s.volume.copyOf (s.volume.fatLba x) f = s.volume.fatLba y → s.volume.fatLba x = s.volume.fatLba y

structure Cleared (s : Fs) (c : Nat) (t : Fs) : Prop where
  answers : t.faults = []
  volume : t.volume = s.volume
  held : t.fatbufLba = s.volume.fatLba c
  buffer : t.fatbuf = putEntry (s.tableFor c) c 0
  copies : ∀ f < s.volume.numFats, t.card (s.volume.copyOf (s.volume.fatLba c) f) = t.fatbuf
  others : ∀ lba, (∀ f < s.volume.numFats, lba ≠ s.volume.copyOf (s.volume.fatLba c) f) →
    t.card lba = s.card lba

section Freeing
variable {s t : Fs} {c : Nat}

theorem writeCopies_answers (answers : s.faults = []) (lba n f : Nat) :
    Gives (writeCopies lba n f) s (fun _ t => t.faults = []) := by
  induction n generalizing f s with
  | zero => exact gives_pure answers
  | succ n ih =>
    have written := @writeFat_run s ((lba + f * s.volume.sectorsPerFat) % 2 ^ 32) answers
    obtain ⟨ok, t, runs, rest⟩ := @ih
      { s with card := update s.card ((lba + f * s.volume.sectorsPerFat) % 2 ^ 32) s.fatbuf } answers
      (f + 1)
    refine gives_run (a := ok) (t := t) ?_ rest
    simp [-Nat.reducePow, writeCopies, written, runs]

theorem loadFat_answers (answers : s.faults = []) (c : Nat) :
    (loadFat (s.volume.fatLba c)).run s =
      some (true, { s with fatbuf := s.tableFor c, fatbufLba := s.volume.fatLba c }) := by
  by_cases here : s.volume.fatLba c = s.fatbufLba
  · have same : s = { s with fatbuf := s.tableFor c, fatbufLba := s.volume.fatLba c } := by
      simp [Fs.tableFor, here]
    rw [← same]
    simp [loadFat, here]
  · simp [loadFat, here, readFat_run answers, Fs.tableFor]

theorem freeing_clears (answers : s.faults = []) (c : Nat) :
    ∃ t u, (fatGet c).run s = some (entryIn (s.tableFor c) c, t) ∧
      (fatPut c 0).run t = some (true, u) ∧ Cleared s c u := by
  let t : Fs := { s with fatbuf := s.tableFor c, fatbufLba := s.volume.fatLba c }
  have gets : (fatGet c).run s = some (entryIn (s.tableFor c) c, t) := by
    simp [fatGet, loadFat_answers answers, t]
  obtain ⟨ok, u, runs, volume, _, done, failed⟩ := writeCopies_told (s.volume.fatLba c)
    s.volume.numFats 0 { t with fatbuf := putEntry (s.tableFor c) c 0 }
  have quiet := (@writeCopies_answers { t with fatbuf := putEntry (s.tableFor c) c 0 } answers
    (s.volume.fatLba c) s.volume.numFats 0).outcome runs
  have puts : (fatPut c 0).run t = some (ok, u) := by
    simpa [fatPut, loadFat, t] using runs
  cases ok with
  | false =>
    have never := (failed rfl).2
    simp [Failed, Fs.failures, t, answers] at never
  | true =>
    obtain ⟨held, buffer, copies, others⟩ := done rfl
    refine ⟨t, u, gets, puts, quiet, volume, held, buffer, fun f below => ?_, fun lba away => ?_⟩
    · rw [buffer]
      exact copies f (Nat.zero_le f) (by omega)
    · exact others lba fun g _ below => away g (by omega)

theorem freeTurn_clears (answers : s.faults = []) (enters : 2 ≤ c ∧ c < chainEnd) :
    ∃ u, freeTurn (s, c) = some (u, entryIn (s.tableFor c) c) ∧ Cleared s c u := by
  obtain ⟨t, u, gets, puts, cleared⟩ := freeing_clears answers c
  refine ⟨u, ?_, cleared⟩
  simp [freeTurn, enters, gets, puts]

theorem freeTurn_stop (leaves : ¬ (2 ≤ c ∧ c < chainEnd)) : freeTurn (s, c) = none := by
  simp [freeTurn, leaves]

theorem freeFrom_walks (answers : s.faults = []) (n : Nat) :
    (∃ places, walk freeTurn n (s, c) = some places) ∧
        Gives (freeFrom n c) s (fun _ t => t.faults = [] ∧ t.volume = s.volume) ∨
      walk freeTurn n (s, c) = none ∧ (freeFrom n c).run s = none := by
  induction n generalizing s c with
  | zero => exact .inr ⟨rfl, rfl⟩
  | succ n ih =>
    by_cases enters : 2 ≤ c ∧ c < chainEnd
    · obtain ⟨t, u, gets, puts, cleared⟩ := freeing_clears answers c
      have turns : freeTurn (s, c) = some (u, entryIn (s.tableFor c) c) := by
        simp [freeTurn, enters, gets, puts]
      have goes : (freeFrom (n + 1) c).run s = (freeFrom n (entryIn (s.tableFor c) c)).run u := by
        simp [freeFrom, enters, gets, puts]
      rw [walk_on turns, goes]
      rcases @ih u (entryIn (s.tableFor c) c) cleared.answers with
        ⟨⟨places, walked⟩, a, z, runs, quiet, volume⟩ | ⟨endless, none'⟩
      · exact .inl ⟨⟨_, by rw [walked]; rfl⟩,
          gives_run (goes.trans runs) ⟨quiet, volume.trans cleared.volume⟩⟩
      · exact .inr ⟨by rw [endless]; rfl, none'⟩
    · refine .inl ⟨⟨[], walk_stop (freeTurn_stop enters)⟩, gives_run (a := ()) (t := s) ?_
        ⟨answers, rfl⟩⟩
      simp [freeFrom, enters]

theorem copyOf_zero (v : Volume) (c : Nat) : v.copyOf (v.fatLba c) 0 = v.fatLba c := by
  rw [Volume.copyOf, Nat.zero_mul, Nat.add_zero]
  exact Nat.mod_mod _ _

theorem tableFor_true (truth : s.fatbuf = s.card s.fatbufLba) (c : Nat) :
    s.tableFor c = s.card (s.volume.fatLba c) := by
  rw [Fs.tableFor]
  split
  · next here => rw [here, truth]
  · rfl

theorem Cleared.truth (cleared : Cleared s c t) (fats : 0 < s.volume.numFats) :
    t.fatbuf = t.card t.fatbufLba := by
  rw [cleared.held, ← copyOf_zero, cleared.copies 0 fats]

theorem Cleared.link (cleared : Cleared s c t) (truth : s.fatbuf = s.card s.fatbufLba)
    (fats : 0 < s.volume.numFats) {x : Nat}
    (apart : ∀ f < s.volume.numFats,
      s.volume.copyOf (s.volume.fatLba c) f = s.volume.fatLba x → s.volume.fatLba c = s.volume.fatLba x)
    (some' : link s.volume t.card x ≠ 0) : x ≠ c ∧ link s.volume s.card x ≠ 0 := by
  have here := cleared.copies 0 fats
  rw [copyOf_zero, cleared.buffer, tableFor_true truth] at here
  by_cases same : s.volume.fatLba c = s.volume.fatLba x
  · rw [Fat.link, ← same, here, entryIn_putEntry] at some'
    split at some'
    · exact absurd rfl some'
    · next off =>
        refine ⟨fun equal => off (by rw [equal]), ?_⟩
        rwa [Fat.link, ← same]
  · refine ⟨fun equal => same (by rw [equal]), ?_⟩
    rwa [Fat.link, cleared.others _ fun f below equal => same (apart f below equal.symm)] at some'

theorem walk_free {v : Volume} {room : Finset Nat} (fats : 0 < v.numFats)
    (apart : ∀ x ∈ room, ∀ y ∈ room, ∀ f < v.numFats,
      v.copyOf (v.fatLba x) f = v.fatLba y → v.fatLba x = v.fatLba y)
    (n : Nat) {s : Fs} {c : Nat} (answers : s.faults = []) (volume : s.volume = v)
    (truth : s.fatbuf = s.card s.fatbufLba) (inside : ∀ x ∈ s.freed c, x ∈ room)
    (few : (room.filter fun x => link v s.card x ≠ 0).card < n) :
    ∃ places, walk freeTurn (n + 1) (s, c) = some places := by
  induction n generalizing s c with
  | zero => exact absurd few (Nat.not_lt_zero _)
  | succ n ih =>
    by_cases enters : 2 ≤ c ∧ c < chainEnd
    · obtain ⟨t, turns, cleared⟩ := freeTurn_clears answers enters
      subst volume
      rw [walk_on turns]
      rw [tableFor_true truth] at turns ⊢
      have member : c ∈ room := inside c ⟨s, .refl, enters⟩
      by_cases last : link s.volume s.card c = 0
      · have stops : freeTurn (t, entryIn (s.card (s.volume.fatLba c)) c) = none := by
          apply freeTurn_stop
          rw [← link, last]
          omega
        exact ⟨_, by rw [walk_stop stops]; rfl⟩
      · have later : ∀ x ∈ t.freed (entryIn (s.card (s.volume.fatLba c)) c), x ∈ room := by
          rintro x ⟨u, passes, enters⟩
          exact inside x ⟨u, .head turns passes, enters⟩
        have fewer : (room.filter fun x => link s.volume t.card x ≠ 0) ⊂
            room.filter fun x => link s.volume s.card x ≠ 0 := by
          have step : ∀ x ∈ room, link s.volume t.card x ≠ 0 → x ≠ c ∧ link s.volume s.card x ≠ 0 :=
            fun x is => cleared.link truth fats (apart c member x is)
          rw [Finset.ssubset_iff_of_subset]
          · refine ⟨c, Finset.mem_filter.mpr ⟨member, last⟩, fun still => ?_⟩
            exact (step c member (Finset.mem_filter.mp still).2).1 rfl
          · intro x still
            obtain ⟨is, some'⟩ := Finset.mem_filter.mp still
            exact Finset.mem_filter.mpr ⟨is, (step x is some').2⟩
        have less := Finset.card_lt_card fewer
        obtain ⟨places, walked⟩ := ih cleared.answers cleared.volume (cleared.truth fats) later (by omega)
        exact ⟨_, by rw [walked]; rfl⟩
    · exact ⟨[], walk_stop (freeTurn_stop enters)⟩

theorem Erases.ends (erases : Erases s c) (answers : s.faults = []) :
    ∃ places, walk freeTurn (walkLimit + 1) (s, c) = some places := by
  classical
  by_cases enters : 2 ≤ c ∧ c < chainEnd
  · obtain ⟨t, turns, cleared⟩ := freeTurn_clears answers enters
    let room := (Finset.range chainEnd).filter fun x => x ∈ s.freed c
    have inside : ∀ {x}, x ∈ room ↔ x ∈ s.freed c := by
      intro x
      rw [Finset.mem_filter, Finset.mem_range]
      exact ⟨fun both => both.2, fun passed => ⟨passed.choose_spec.2.2, passed⟩⟩
    have small : (room.filter fun x => link s.volume t.card x ≠ 0).card < walkLimit - 1 := by
      have first := Finset.card_filter_le room fun x => link s.volume t.card x ≠ 0
      have second := Finset.card_filter_le (Finset.range chainEnd) fun x => x ∈ s.freed c
      rw [Finset.card_range] at second
      exact Nat.lt_of_le_of_lt (first.trans second) (by decide)
    obtain ⟨places, walked⟩ := walk_free erases.fats
      (fun x is y other => erases.apart x (inside.mp is) y (inside.mp other)) _ cleared.answers
      cleared.volume (cleared.truth erases.fats)
      (fun x passed => inside.mpr (passed.imp fun u along => ⟨.head turns along.1, along.2⟩)) small
    exact ⟨_, by rw [walk_on turns]; exact congrArg (Option.map _) walked⟩
  · exact ⟨[], walk_stop (freeTurn_stop enters)⟩

end Freeing

/-- A scan of a chain that comes back to a cluster, with no entry to stop it; or a freeing
whose marks are lost, as they are whenever it goes on (`Erases.ends`). -/
inductive Lost : Parts Fs
  | scan {σ ρ : Type} {s : Fs} {within : Nat → Bool} {kept : Bool} {visit : σ → Slot → Scan σ ρ}
      {failed : ρ} {dir : Nat} {acc a : σ} (answers : s.faults = [])
      (returns : ¬ Acyclic (s.chain within) (kept, dir))
      (passes : scanSlots visit (s.slotsAlong within (walkLimit + 1) (kept, dir)) acc = .more a) :
      Lost (Scan σ ρ × Nat)
        (scanChain within (follower kept) visit failed (walkLimit + 1) dir dir acc) s
  | free {s : Fs} {c : Nat} (answers : s.faults = []) (fails : ¬ Erases s c)
      (returns : walk freeTurn (walkLimit + 1) (s, c) = none) : Lost Unit (fatFreeChain c) s

theorem Lost.endless {α : Type} {x : Prog Fs α} {s : Fs} (lost : Lost α x s) : x.run s = none := by
  cases lost with
  | @scan σ ρ s within kept visit failed dir acc a answers returns passes =>
    rcases (@scanChain_along kept kept s s within σ ρ visit) failed (walkLimit + 1)
      (.start answers kept) dir dir acc with ⟨_, _, endless⟩ | ends
    · exact endless
    · obtain ⟨r, t, _, _, _, same, short⟩ := ends
      obtain ⟨places, walked⟩ := walk_iff_trail.mpr (short a (same.trans passes))
      exact absurd (Halts.acyclic ⟨_, places, walked⟩) returns
  | free answers fails returns =>
    rcases freeFrom_walks answers (walkLimit + 1) with ⟨⟨places, walked⟩, _⟩ | ⟨_, endless⟩
    · rw [returns] at walked
      cases walked
    · exact endless

def Calm (v : Volume) (s : Fs) : Prop := s.faults = [] ∧ s.volume = v

section Settling
variable {v : Volume} {within : Nat → Bool} {σ ρ : Type} {visit : σ → Slot → Scan σ ρ}

end Settling

end Ubiqos.Fat
