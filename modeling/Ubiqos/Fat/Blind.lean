import Ubiqos.Fat.Calls

/-!
What a program that reads the card looks at: the volume, and the sector it has just
read. Two states that agree on that much, and whose next sectors agree, take it the same
way; what else they differ in is up to the relation.
-/

namespace Ubiqos.Fat

open Prog

theorem request_run (s : Fs) :
    request.run s = some (s.faults.head?.join, { s with faults := s.faults.tail }) := by
  unfold request
  obtain ⟨volume, mounted, card, faults, sector, fatbuf, fatbufLba, allocHint, ra, stack, calls⟩ := s
  cases faults <;> rfl

theorem readSector_outcome (lba : Nat) (s : Fs) :
    (readSector lba).run s = some (s.faults.head?.join.isNone,
      { s with faults := s.faults.tail, sector := s.faults.head?.join.getD (s.card lba) }) := by
  unfold readSector sdReadBlock
  rw [run_bind_of (request_run s)]
  cases s.faults.head?.join <;> rfl

structure Reads (R : Fs → Fs → Prop) : Prop where
  volume : ∀ s t, R s t → s.volume = t.volume
  sector : ∀ lba, Twins (readSector lba) R fun _ s t => R s t ∧ s.sector = t.sector

structure Searches (R : Fs → Fs → Prop) : Prop extends Reads R where
  fresh : Keeps freshLfn R

variable {R : Fs → Fs → Prop} {σ ρ : Type}

theorem Reads.fatNextCluster (reads : Reads R) (cluster : Nat) :
    Keeps (fatNextCluster cluster) R := by
  unfold Fat.fatNextCluster
  apply twins_get (fun s t related => by rw [reads.volume s t related])
  intro s t related
  apply Twins.bind (reads.sector _)
  intro ok
  apply twins_ite
  · intro _
    apply twins_get (fun s t both => by rw [both.2])
    exact fun _ _ _ => twins_pure fun _ _ both => both.1
  · exact fun _ => twins_pure fun _ _ both => both.1

theorem Reads.scanCluster (reads : Reads R) (visit : σ → Slot → Scan σ ρ) (failed : ρ)
    (first n k : Nat) (acc : σ) : Keeps (scanCluster visit failed first n k acc) R := by
  induction n generalizing k acc with
  | zero => exact keeps_pure
  | succ n ih =>
    unfold Fat.scanCluster
    apply Twins.bind (reads.sector _)
    intro ok
    apply twins_ite
    · intro _
      apply twins_get (fun s t both => by rw [both.2])
      intro s t both
      split
      · exact twins_pure fun _ _ both => both.1
      · exact (ih _ _).narrow fun _ _ both => both.1
    · exact fun _ => twins_pure fun _ _ both => both.1

theorem Reads.scanChain (reads : Reads R) (within : Nat → Bool) {next : Nat → Prog Fs Nat}
    (follows : ∀ cluster, Keeps (next cluster) R) (visit : σ → Slot → Scan σ ρ) (failed : ρ)
    (n cluster last : Nat) (acc : σ) :
    Keeps (scanChain within next visit failed n cluster last acc) R := by
  induction n generalizing cluster last acc with
  | zero => exact keeps_unending
  | succ n ih =>
    unfold Fat.scanChain
    apply twins_ite
    · intro _
      apply twins_get (fun s t related => by rw [reads.volume s t related])
      intro s t related
      apply (reads.scanCluster _ _ _ _ _ _).bind
      intro found
      cases found with
      | stop result => exact keeps_pure
      | more acc =>
        apply (follows cluster).bind
        exact fun _ => ih _ _ _
    · exact fun _ => keeps_pure

theorem Searches.findEntry (searches : Searches R) (dir : Nat) (name83 : List Byte)
    (wantLong : Option (List Byte)) : Keeps (findEntry dir name83 wantLong) R := by
  unfold Fat.findEntry
  apply searches.fresh.bind
  intro l
  apply (searches.scanChain _ searches.fatNextCluster _ _ _ _ _ _).bind
  rintro ⟨result | acc, last⟩ <;> exact keeps_pure

theorem Reads.resolveStep (reads : Reads R) {dir : Nat}
    (finds : ∀ name83 wantLong, Keeps (Fat.findEntry dir name83 wantLong) R) (part : List Byte) :
    Keeps (resolveStep dir part) R := by
  unfold Fat.resolveStep
  apply twins_ite
  · exact fun _ => keeps_pure
  · intro _
    apply twins_ite
    · intro _
      apply (finds _ _).bind
      intro found
      cases found with
      | none => exact keeps_pure
      | some e =>
        apply twins_get (fun s t related => by rw [reads.volume s t related])
        exact fun _ _ _ => keeps_pure
    · intro _
      apply (finds _ _).bind
      intro found
      cases found <;> exact keeps_pure

section Resolving
variable (finds : ∀ dir name83 wantLong, Keeps (Fat.findEntry dir name83 wantLong) R)
include finds

theorem Reads.resolveFrom (reads : Reads R) (dir : Nat) (parts : List (List Byte)) :
    Keeps (resolveFrom dir parts) R := by
  induction parts generalizing dir with
  | nil => exact keeps_pure
  | cons part rest ih =>
    unfold Fat.resolveFrom
    apply (reads.resolveStep (finds dir) part).bind
    intro found
    cases found with
    | none => exact keeps_pure
    | some dir => exact ih dir

theorem Reads.resolveDir (reads : Reads R) (path : List Byte) : Keeps (resolveDir path) R := by
  unfold Fat.resolveDir
  apply twins_get (fun s t related => by rw [reads.volume s t related])
  exact fun _ _ _ => reads.resolveFrom finds _ _

theorem Reads.resolveParent (reads : Reads R) (path : List Byte) : Keeps (resolveParent path) R := by
  unfold Fat.resolveParent
  apply (reads.resolveDir finds _).bind
  intro found
  cases found <;> exact keeps_pure

end Resolving

theorem Reads.readSectors (reads : Reads R) (first len n k pos : Nat) (out : List Byte) :
    Keeps (readSectors first len n k pos out) R := by
  induction n generalizing k pos out with
  | zero => exact keeps_pure
  | succ n ih =>
    unfold Fat.readSectors
    apply twins_ite
    · intro _
      apply Twins.bind (reads.sector _)
      intro ok
      apply twins_ite
      · intro _
        apply twins_get (fun s t both => by rw [both.2])
        exact fun _ _ _ => (ih _ _ _).narrow fun _ _ both => both.1
      · exact fun _ => twins_pure fun _ _ both => both.1
    · exact fun _ => keeps_pure

theorem Reads.readClusters (reads : Reads R) (len n cluster pos : Nat) (out : List Byte) :
    Keeps (readClusters len n cluster pos out) R := by
  induction n generalizing cluster pos out with
  | zero => exact keeps_unending
  | succ n ih =>
    unfold Fat.readClusters
    apply twins_ite
    · intro _
      apply twins_get (fun s t related => by rw [reads.volume s t related])
      intro s t related
      apply (reads.readSectors _ _ _ _ _ _).bind
      rintro ⟨ok, bytes⟩
      apply twins_ite
      · intro _
        apply (reads.fatNextCluster _).bind
        exact fun _ => ih _ _ _
      · exact fun _ => keeps_pure
    · exact fun _ => keeps_pure

end Ubiqos.Fat

/-!
Searches on a device that fails now and then. A search that a failure reaches finds
nothing, so an entry that is found is the one an answering device leads to. The exception
is `..`: where the search for it finds nothing, the walk stays in the directory it is in.
-/

namespace Ubiqos.Fat

open Prog

def Calmed (s t : Fs) : Prop := t = { s with faults := [] }

def goesUp : List Byte := [chr '.', chr '.']

theorem repeats_readSector (lba : Nat) : Repeats (readSector lba) Calmed (· = false) := by
  rintro s t ok s' rfl runs
  rw [readSector_outcome] at runs
  cases runs
  cases fault : s.faults.head?.join with
  | none => exact .inr ⟨_, readSector_outcome lba _, by simp [Calmed]⟩
  | some junk => exact .inl rfl

theorem repeats_fatNextCluster (cluster : Nat) :
    Repeats (fatNextCluster cluster) Calmed (chainEnd ≤ ·) := by
  unfold fatNextCluster
  apply repeats_get
  · rintro s t rfl
    rfl
  intro s
  apply (repeats_readSector _).bind
  · rintro ok rfl s n t runs
    cases runs
    decide
  intro ok
  apply repeats_ite
  · intro _
    apply repeats_get
    · rintro s t rfl
      rfl
    exact fun _ => repeats_pure
  · exact fun _ => repeats_pure

section Scanning
variable {σ ρ : Type} (visit : σ → Slot → Scan σ ρ) (failed : ρ)

theorem repeats_scanCluster (first n k : Nat) (acc : σ) :
    Repeats (scanCluster visit failed first n k acc) Calmed (· = .stop failed) := by
  induction n generalizing k acc with
  | zero => exact repeats_pure
  | succ n ih =>
    unfold scanCluster
    apply (repeats_readSector _).bind
    · rintro ok rfl s found t runs
      cases runs
      rfl
    intro ok
    apply repeats_ite
    · intro _
      apply repeats_get
      · rintro s t rfl
        rfl
      intro s
      split
      · exact repeats_pure
      · exact ih _ _
    · exact fun _ => repeats_pure

theorem repeats_scanChain (n cluster last : Nat) (acc : σ) :
    Repeats (scanChain readable fatNextCluster visit failed n cluster last acc) Calmed
      (fun r => ∀ result, r.1 = .stop result → result = failed) := by
  induction n generalizing cluster last acc with
  | zero => exact repeats_unending
  | succ n ih =>
    unfold scanChain
    apply repeats_ite _ fun _ => repeats_pure
    intro _
    apply repeats_get
    · rintro s t rfl
      rfl
    intro s
    apply (repeats_scanCluster visit failed _ _ _ _).bind
    · rintro found rfl s r t runs result same
      cases runs
      cases same
      rfl
    intro found
    cases found with
    | stop result => exact repeats_pure
    | more acc =>
      apply (repeats_fatNextCluster cluster).bind
      · intro next past s r t runs result same
        cases n with
        | zero => cases runs
        | succ n =>
          have ended : readable next = false := by simpa [readable] using past
          simp only [scanChain, ended, Bool.false_eq_true, if_false] at runs
          cases runs
          cases same
      · exact fun next => ih _ _ _

end Scanning

theorem repeats_findEntry (dir : Nat) (name83 : List Byte) (wantLong : Option (List Byte)) :
    Repeats (findEntry dir name83 wantLong) Calmed (· = none) := by
  have fresh : Repeats freshLfn Calmed fun _ => False := by
    rintro s t l s' rfl runs
    cases runs
    exact .inr ⟨_, rfl, rfl⟩
  unfold findEntry
  apply fresh.bind (fun _ never => never.elim)
  intro l
  apply (repeats_scanChain _ _ _ _ _ _).bind
  · rintro ⟨result | acc, last⟩ fails s found t runs
    · cases runs
      exact fails _ rfl
    · cases runs
      rfl
  · rintro ⟨result | acc, last⟩ <;> exact repeats_pure

theorem repeats_resolveStep (dir : Nat) {part : List Byte} (stays : part ≠ goesUp) :
    Repeats (resolveStep dir part) Calmed (· = none) := by
  unfold resolveStep
  apply repeats_ite fun _ => repeats_pure
  intro _
  apply repeats_ite (fun up => absurd up stays)
  intro _
  apply (repeats_findEntry _ _ _).bind
  · rintro found rfl s next t runs
    cases runs
    rfl
  · intro found
    cases found <;> exact repeats_pure

theorem repeats_resolveFrom (dir : Nat) {parts : List (List Byte)} (stays : goesUp ∉ parts) :
    Repeats (resolveFrom dir parts) Calmed (· = none) := by
  induction parts generalizing dir with
  | nil => exact repeats_pure
  | cons part rest ih =>
    have here : part ≠ goesUp := (List.ne_of_not_mem_cons stays).symm
    have later : goesUp ∉ rest := List.not_mem_of_not_mem_cons stays
    unfold resolveFrom
    apply (repeats_resolveStep dir here).bind
    · rintro found rfl s next t runs
      cases runs
      rfl
    · intro found
      cases found with
      | none => exact repeats_pure
      | some dir => exact ih dir later

theorem repeats_resolveParent {path : List Byte} (stays : goesUp ∉ components (parentOf path)) :
    Repeats (resolveParent path) Calmed (· = none) := by
  have above : Repeats (resolveDir (parentOf path)) Calmed (· = none) := by
    unfold resolveDir
    apply repeats_get
    · rintro s t rfl
      rfl
    exact fun s => repeats_resolveFrom _ stays
  unfold resolveParent
  apply above.bind
  · rintro found rfl s parent t runs
    cases runs
    rfl
  · intro found
    cases found <;> exact repeats_pure

end Ubiqos.Fat
