import Ubiqos.Fat.Directory
import Ubiqos.Fat.Table
import Mathlib.Data.List.Perm.Subperm

/-!
The slots of a directory. On a chain that ends, a search of the code is a pass
over the list of slots of that chain, and an edit of the code changes one slot
of it and nothing else on the disk.
-/

namespace Ubiqos.Fat

open Function Prog Intrusive

def perCluster (v : Volume) : Nat := v.sectorsPerCluster * 16

section Positions
variable {v : Volume} {d : Disk} {nodes : List Nat} {k : Nat}

@[simp] theorem length_sectorSlots (lba : Nat) (b : Block) : (sectorSlots lba b).length = 16 := by
  simp [sectorSlots]

end Positions

section Scans
variable {σ ρ : Type} {visit : σ → Slot → Scan σ ρ}

theorem scanSlots_append (front back : List Slot) (acc : σ) :
    scanSlots visit (front ++ back) acc =
      match scanSlots visit front acc with
      | .stop result => .stop result
      | .more acc => scanSlots visit back acc := by
  induction front generalizing acc with
  | nil => rfl
  | cons slot rest ih =>
    simp only [List.cons_append, scanSlots]
    cases visit acc slot with
    | stop result => rfl
    | more next => exact ih next

theorem scanSlots_invariant {keep : List Slot → σ → Prop} {slots : List Slot}
    (step : ∀ passed slot acc next, keep passed acc → visit acc slot = .more next →
      keep (passed ++ [slot]) next) (passed : List Slot) (acc : σ) (begins : keep passed acc) :
    (∀ next, scanSlots visit slots acc = .more next → keep (passed ++ slots) next) ∧
    (∀ result, scanSlots visit slots acc = .stop result → ∃ front slot back mid,
      slots = front ++ slot :: back ∧ scanSlots visit front acc = .more mid ∧
      keep (passed ++ front) mid ∧ visit mid slot = .stop result) := by
  induction slots generalizing passed acc with
  | nil =>
    constructor
    · intro next ends
      cases ends
      simpa using begins
    · intro result ends
      cases ends
  | cons slot rest ih =>
    simp only [scanSlots]
    cases visited : visit acc slot with
    | stop result =>
      constructor
      · intro next ends
        cases ends
      · intro other ends
        cases ends
        exact ⟨[], slot, rest, acc, rfl, rfl, by simpa using begins, visited⟩
    | more next =>
      obtain ⟨whole, stopped⟩ := ih (passed ++ [slot]) next (step passed slot acc next begins visited)
      constructor
      · intro last ends
        simpa using whole last ends
      · intro result ends
        obtain ⟨front, found, back, mid, split, passes, kept, stops⟩ := stopped result ends
        refine ⟨slot :: front, found, back, mid, by rw [split]; rfl, ?_, ?_, stops⟩
        · simp only [scanSlots, visited]
          exact passes
        · simpa using kept

/-- A pass stopped at a slot, and `b` is the sector that holds it. -/
def StopsAt (visit : σ → Slot → Scan σ ρ) (slots : List Slot) (acc : σ) (result : ρ) (b : Block) :
    Prop :=
  ∃ front slot back mid, slots = front ++ slot :: back ∧ scanSlots visit front acc = .more mid ∧
    visit mid slot = .stop result ∧ slot.entry = entryAt b slot.off

theorem sectorSlots_entry {lba : Nat} {b : Block} {slot : Slot} (member : slot ∈ sectorSlots lba b) :
    slot.entry = entryAt b slot.off := by
  simp only [sectorSlots, List.mem_map] at member
  obtain ⟨k, _, rfl⟩ := member
  rfl

theorem stopsAt_prepend {front slots : List Slot} {acc next : σ} {result : ρ} {b : Block}
    (passes : scanSlots visit front acc = .more next) (stops : StopsAt visit slots next result b) :
    StopsAt visit (front ++ slots) acc result b := by
  obtain ⟨more, slot, back, mid, split, goes, last, held⟩ := stops
  refine ⟨front ++ more, slot, back, mid, by rw [split]; simp, ?_, last, held⟩
  rw [scanSlots_append, passes]
  exact goes

theorem stopsAt_extend {slots back : List Slot} {acc : σ} {result : ρ} {b : Block}
    (stops : StopsAt visit slots acc result b) : StopsAt visit (slots ++ back) acc result b := by
  obtain ⟨front, slot, rest, mid, split, goes, last, held⟩ := stops
  exact ⟨front, slot, rest ++ back, mid, by rw [split]; simp, goes, last, held⟩

variable {s : Fs} {c : Nat}

/-- The slots of `n` sectors from the `i`-th behind `first` on, as they lie on the card. -/
def sectorsFrom (card : Nat → Block) (first i n : Nat) : List Slot :=
  (List.range' i n).flatMap
    (fun j => sectorSlots ((first + j) % 2 ^ 32) (card ((first + j) % 2 ^ 32)))

theorem sectorsFrom_succ (card : Nat → Block) (first i n : Nat) :
    sectorsFrom card first i (n + 1) =
      sectorSlots ((first + i) % 2 ^ 32) (card ((first + i) % 2 ^ 32)) ++
        sectorsFrom card first (i + 1) n := by
  simp only [sectorsFrom, List.range'_succ, List.flatMap_cons]

theorem scanCluster_passes (answers : s.faults = []) (failed : ρ) (first n i : Nat) (acc : σ) :
    Gives (scanCluster visit failed first n i acc) s (fun r t =>
      (∃ b, t = { s with sector := b }) ∧ r = scanSlots visit (sectorsFrom s.card first i n) acc ∧
      ∀ result, r = .stop result →
        StopsAt visit (sectorsFrom s.card first i n) acc result t.sector) := by
  induction n generalizing s i acc with
  | zero =>
    apply gives_pure
    refine ⟨⟨s.sector, rfl⟩, rfl, ?_⟩
    intro result stops
    cases stops
  | succ n ih =>
    obtain ⟨lba, place⟩ : ∃ lba, (first + i) % 2 ^ 32 = lba := ⟨_, rfl⟩
    have begins : (scanCluster visit failed first (n + 1) i acc).run s =
        (match scanSlots visit (sectorSlots lba (s.card lba)) acc with
          | .stop result => (pure (.stop result) : Prog Fs (Scan σ ρ))
          | .more acc => scanCluster visit failed first n (i + 1) acc).run
          { s with sector := s.card lba } := by
      simp only [scanCluster, place]
      rw [Prog.run_bind_of (readSector_run answers)]
      rfl
    rw [sectorsFrom_succ, place]
    cases passed : scanSlots visit (sectorSlots lba (s.card lba)) acc with
    | stop result =>
      rw [passed] at begins
      refine gives_run begins ⟨⟨_, rfl⟩, ?_, ?_⟩
      · rw [scanSlots_append, passed]
      · intro other same
        cases same
        obtain ⟨_, stopped⟩ := (@scanSlots_invariant _ _ visit (fun _ _ => True)
          (sectorSlots lba (s.card lba))) (by simp) [] acc trivial
        obtain ⟨front, slot, back, mid, split, passes, _, stops⟩ := stopped result passed
        refine stopsAt_extend ⟨front, slot, back, mid, split, passes, stops, ?_⟩
        exact (@sectorSlots_entry lba) (by rw [split]; simp)
    | more next =>
      rw [passed] at begins
      obtain ⟨r, t, runs, ⟨b, rfl⟩, same, stops⟩ :=
        (@ih { s with sector := s.card lba }) answers (i + 1) next
      refine gives_run (begins.trans runs) ⟨⟨b, rfl⟩, ?_, ?_⟩
      · rw [scanSlots_append, passed]
        exact same
      · intro result ends
        exact stopsAt_prepend passed (stops result ends)

end Scans

end Ubiqos.Fat
