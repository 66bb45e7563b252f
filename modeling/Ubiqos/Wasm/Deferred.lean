import Ubiqos.Wasm.Unlink

/-!
What a guest's unlinks leave on the card. An unlinked file that is still there is
open, and each of its descriptors carries the mark that will remove it.
-/

namespace Ubiqos.Wasm

open Function

section Removal
variable {Place : Type} [DecidableEq Place] {card : Card Place} {d : Disk Place} {name : Text}

theorem remove_opened : (d.remove card name).2.opened = d.opened := by
  simp only [Disk.remove]
  split <;> rfl

theorem remove_next : (d.remove card name).2.next = d.next := by
  simp only [Disk.remove]
  split <;> rfl

theorem remove_elsewhere {p : Place} (apart : p ≠ card.place name) :
    (d.remove card name).2.files p = d.files p := by
  simp only [Disk.remove]
  split
  · rfl
  · exact update_of_ne apart _ _

theorem remove_there (free : ¬ card.fixed (card.place name) = true) :
    (d.remove card name).2.files (card.place name) = none := by
  by_cases absent : d.files (card.place name) = none
  · simp [Disk.remove, absent]
  · simp [Disk.remove, absent, free]

theorem remove_left {p : Place} {id : Nat} (left : (d.remove card name).2.files p = some id) :
    d.files p = some id := by
  by_cases same : p = card.place name
  · subst same
    simp only [Disk.remove] at left
    split at left
    · exact left
    · simp at left
  · rwa [remove_elsewhere same] at left

end Removal

section Closing
variable {Place : Type}

theorem close_opened (d : Disk Place) (fd : Int) : (d.close fd).2.opened = update d.opened fd none := by
  unfold Disk.close
  split
  · rfl
  · rename_i shut
    rw [Option.not_isSome_iff_eq_none] at shut
    rw [← shut, update_eq_self]

theorem close_files (d : Disk Place) (fd : Int) : (d.close fd).2.files = d.files := by
  unfold Disk.close
  split <;> rfl

theorem close_next (d : Disk Place) (fd : Int) : (d.close fd).2.next = d.next := by
  unfold Disk.close
  split <;> rfl

end Closing

section Invariant
variable {Place : Type} [DecidableEq Place] (card : Card Place)

structure Disk.Sound (d : Disk Place) : Prop where
  distinct : ∀ p q id, d.files p = some id → d.files q = some id → p = q
  old : ∀ p id, d.files p = some id → id < d.next
  bare : ∀ p, card.fixed p = true → d.files p = none
  holds : ∀ fd p id, d.opened fd = some (.file p id) → d.files p = some id

structure Table (h : Guest Place) : Prop where
  tracked : ∀ i, (h.paths i).fd ≠ 0 → (h.kernel.opened (h.paths i).fd).isSome
  apart : ∀ i j, (h.paths i).fd = (h.paths j).fd → (h.paths i).fd ≠ 0 → i = j
  spelt : ∀ i, (h.paths i).fd ≠ 0 → (h.paths i).name ≠ []
  short : ∀ i, (h.paths i).name.length ≤ 47

/-- The mark that removes the file at `p` when `fd` is closed. -/
def Marked (h : Guest Place) (fd : Int) (p : Place) : Prop :=
  ∃ i, (h.paths i).fd = fd ∧ fd ≠ 0 ∧ (h.paths i).doomed = true ∧ card.place (h.paths i).name = p

structure Whole (s : Traced Place) : Prop where
  disk : s.1.kernel.Sound card
  table : Table s.1
  known : ∀ id ∈ s.2, id < s.1.kernel.next
  marked : ∀ fd p, Marked card s.1 fd p →
    card.fixed p = true ∨ ∃ id ∈ s.2, s.1.kernel.opened fd = some (.file p id)
  deferred : ∀ id ∈ s.2, ∀ p, s.1.kernel.files p = some id →
    (∃ fd, s.1.kernel.opened fd = some (.file p id)) ∧
      ∀ fd, s.1.kernel.opened fd = some (.file p id) → Marked card s.1 fd p

structure Spares (s t : Traced Place) : Prop where
  files : ∀ p id, s.1.kernel.files p = some id → t.1.kernel.files p = some id ∨ id ∈ t.2
  unlinked : s.2 ⊆ t.2

end Invariant

section Opening
variable {Place : Type} [DecidableEq Place] {card : Card Place} {s t : Traced Place} {name : Text}

omit [DecidableEq Place] in
theorem Whole.same (whole : Whole card s) (same : Same s.1 t.1) (unlinked : t.2 = s.2) :
    Whole card t ∧ Spares s t := by
  obtain ⟨paths, files, opened, next⟩ := same
  have marks : ∀ fd p, Marked card t.1 fd p ↔ Marked card s.1 fd p := by simp [Marked, paths]
  constructor
  · exact {
      disk := ⟨files ▸ whole.disk.distinct, by rw [files, next]; exact whole.disk.old,
        files ▸ whole.disk.bare, by rw [files, opened]; exact whole.disk.holds⟩
      table := ⟨by rw [paths, opened]; exact whole.table.tracked, paths ▸ whole.table.apart,
        paths ▸ whole.table.spelt, paths ▸ whole.table.short⟩
      known := by rw [unlinked, next]; exact whole.known
      marked := by
        intro fd p marked
        rw [unlinked, opened]
        exact whole.marked fd p ((marks fd p).mp marked)
      deferred := by
        intro id gone p there
        rw [unlinked] at gone
        rw [files] at there
        simp only [opened, marks]
        exact whole.deferred id gone p there }
  · exact ⟨fun p id there => .inl (files ▸ there), unlinked ▸ List.Subset.refl _⟩

variable {fd : Int}

theorem placeFor_free {paths : Fin maxTracked → Tracked} {i : Fin maxTracked}
    (found : placeFor paths fd = some i) : (paths i).fd = 0 ∨ (paths i).fd = fd := by
  simpa using List.find?_some found

omit [DecidableEq Place] in
theorem remembered {h : Guest Place} (table : Table h) (fresh : h.kernel.opened fd = none)
    (dir : Bool) (name : Text) :
    (rememberKind fd name dir h).paths = h.paths ∨ ∃ i, (h.paths i).fd = 0 ∧
      (rememberKind fd name dir h).paths = update h.paths i ⟨fd, dir, false, name.take 47⟩ := by
  unfold rememberKind
  cases found : placeFor h.paths fd with
  | none => exact .inl rfl
  | some i =>
    refine .inr ⟨i, ?_, rfl⟩
    by_contra taken
    have own : (h.paths i).fd = fd := (placeFor_free found).resolve_left taken
    have isOpen := table.tracked i taken
    simp [own, fresh] at isOpen

variable {handle : Handle Place}

variable {p : Place}

theorem Found.stay {d d' : Disk Place}
    (found : Found card d d' p handle) {q : Place} {id : Nat} (there : d.files q = some id) :
    d'.files q = some id := by
  cases found with
  | other files _ => exact files ▸ there
  | kept _ _ files _ => exact files ▸ there
  | made absent _ files _ =>
    have apart : q ≠ p := fun same => by simp [same, absent] at there
    rw [files, update_of_ne apart, there]

theorem Found.origin {d d' : Disk Place}
    (found : Found card d d' p handle) {q : Place} {id : Nat} (there : d'.files q = some id) :
    d.files q = some id ∨ (q = p ∧ id = d.next ∧ d'.next = d.next + 1 ∧ card.fixed p = false) := by
  cases found with
  | other files _ => exact .inl (files ▸ there)
  | kept _ _ files _ => exact .inl (files ▸ there)
  | made absent free files next =>
    by_cases same : q = p
    · rw [files, same, update_self, Option.some_inj] at there
      exact .inr ⟨same, there.symm, next, free⟩
    · rw [files, update_of_ne same] at there
      exact .inl there

theorem Found.later {d d' : Disk Place}
    (found : Found card d d' p handle) : d.next ≤ d'.next := by
  cases found with
  | other _ next => exact next.ge
  | kept _ _ _ next => exact next.ge
  | made _ _ _ next => omega

theorem Found.holds {d d' : Disk Place} {p q : Place} {id : Nat}
    (found : Found card d d' p (.file q id)) :
    d'.files q = some id ∧ p = q ∧ (d.files p = some id ∨ d.next = id) := by
  cases found with
  | kept _ there files _ => exact ⟨files ▸ there, rfl, .inl there⟩
  | made _ _ files _ => exact ⟨by rw [files, update_self], rfl, .inr rfl⟩

theorem sound_found {d d' : Disk Place}
    (sound : d.Sound card) (found : Found card d d' p handle)
    (opened : d'.opened = update d.opened fd (some handle)) : d'.Sound card where
  distinct q r id := by
    intro atQ atR
    rcases found.origin atQ with oldQ | ⟨rfl, rfl, _⟩
    · rcases found.origin atR with oldR | ⟨rfl, rfl, _⟩
      · exact sound.distinct q r id oldQ oldR
      · exact absurd (sound.old _ _ oldQ) (lt_irrefl _)
    · rcases found.origin atR with oldR | ⟨rfl, _, _⟩
      · exact absurd (sound.old _ _ oldR) (lt_irrefl _)
      · rfl
  old q id := by
    intro there
    rcases found.origin there with before | ⟨_, rfl, next, _⟩
    · exact lt_of_lt_of_le (sound.old q id before) found.later
    · omega
  bare q := by
    intro fixed
    cases there : d'.files q with
    | none => rfl
    | some id =>
      rcases found.origin there with before | ⟨rfl, _, _, free⟩
      · simp [sound.bare q fixed] at before
      · simp [fixed] at free
  holds other q id := by
    intro isOpen
    rw [opened] at isOpen
    by_cases same : other = fd
    · rw [same, update_self, Option.some_inj] at isOpen
      exact (isOpen ▸ found).holds.1
    · rw [update_of_ne same] at isOpen
      exact found.stay (sound.holds other q id isOpen)

omit [DecidableEq Place] in
theorem taken_ne {h : Guest Place} (table : Table h) (fresh : h.kernel.opened fd = none)
    {i : Fin maxTracked} (taken : (h.paths i).fd ≠ 0) : (h.paths i).fd ≠ fd := by
  intro same
  have isOpen := table.tracked i taken
  simp [same, fresh] at isOpen

omit [DecidableEq Place] in
theorem table_remembered {h h' : Guest Place} (table : Table h) (spelt : name ≠ [])
    {dir : Bool} (fresh : h.kernel.opened fd = none)
    (paths : h'.paths = (rememberKind fd name dir h).paths)
    (opened : h'.kernel.opened = update h.kernel.opened fd (some handle)) : Table h' := by
  have still : ∀ j, (h.paths j).fd ≠ 0 → (h'.kernel.opened (h.paths j).fd).isSome := by
    intro j taken
    rw [opened, update_of_ne (taken_ne table fresh taken)]
    exact table.tracked j taken
  rcases remembered table fresh dir name with unchanged | ⟨i, free, placed⟩
  · rw [unchanged] at paths
    exact ⟨by rw [paths]; exact still, paths ▸ table.apart, paths ▸ table.spelt,
      paths ▸ table.short⟩
  rw [placed] at paths
  have new : h'.paths i = ⟨fd, dir, false, name.take 47⟩ := by rw [paths, update_self]
  have kept : ∀ j, j ≠ i → h'.paths j = h.paths j := by
    intro j elsewhere
    rw [paths, update_of_ne elsewhere]
  constructor
  · intro j taken
    by_cases here : j = i
    · simp [here, new, opened]
    · rw [kept j here] at taken ⊢
      exact still j taken
  · intro j k same taken
    by_cases atJ : j = i
    · by_cases atK : k = i
      · rw [atJ, atK]
      · rw [atJ, new, kept k atK] at same
        rw [atJ, new] at taken
        exact absurd same.symm (taken_ne table fresh (same ▸ taken))
    · rw [kept j atJ] at same taken
      by_cases atK : k = i
      · rw [atK, new] at same
        exact absurd same (taken_ne table fresh taken)
      · rw [kept k atK] at same
        exact table.apart j k same taken
  · intro j taken
    by_cases here : j = i
    · rw [here, new]
      simp [spelt]
    · rw [kept j here] at taken ⊢
      exact table.spelt j taken
  · intro j
    by_cases here : j = i
    · simp [here, new]
    · rw [kept j here]
      exact table.short j

omit [DecidableEq Place] in
theorem marked_remembered {h h' : Guest Place} (table : Table h) {dir : Bool}
    (fresh : h.kernel.opened fd = none) (paths : h'.paths = (rememberKind fd name dir h).paths)
    (other : Int) (p : Place) :
    Marked card h' other p ↔ Marked card h other p := by
  rcases remembered table fresh dir name with unchanged | ⟨i, free, placed⟩
  · simp [Marked, paths, unchanged]
  rw [placed] at paths
  constructor
  · rintro ⟨j, own, taken, doomed, place⟩
    by_cases here : j = i
    · simp [here, paths] at doomed
    · rw [paths, update_of_ne here] at own doomed place
      exact ⟨j, own, taken, doomed, place⟩
  · rintro ⟨j, own, taken, doomed, place⟩
    have elsewhere : j ≠ i := by
      rintro rfl
      exact taken (own ▸ free)
    refine ⟨j, ?_⟩
    rw [paths, update_of_ne elsewhere]
    exact ⟨own, taken, doomed, place⟩

theorem Whole.gained (whole : Whole card s) (spelt : name ≠ []) (gained : Gained card s.1 t.1 name)
    (unlinked : t.2 = s.2) (fine : ∀ id ∈ s.1.kernel.files (card.place name), id ∉ s.2) :
    Whole card t ∧ Spares s t := by
  obtain ⟨fd, dir, handle, _, fresh, paths, opened, found⟩ := gained
  have marks : ∀ other p, Marked card t.1 other p ↔ Marked card s.1 other p :=
    marked_remembered whole.table fresh paths
  have elsewhere : ∀ other h, s.1.kernel.opened other = some h →
      t.1.kernel.opened other = some h := by
    intro other h isOpen
    have apart : other ≠ fd := fun same => by simp [same, fresh] at isOpen
    rw [opened, update_of_ne apart, isOpen]
  constructor
  · exact {
      disk := sound_found whole.disk found opened
      table := table_remembered whole.table spelt fresh paths opened
      known := by
        intro id gone
        rw [unlinked] at gone
        exact lt_of_lt_of_le (whole.known id gone) found.later
      marked := by
        intro other p marked
        rcases whole.marked other p ((marks other p).mp marked) with fixed | ⟨id, gone, isOpen⟩
        · exact .inl fixed
        · exact .inr ⟨id, unlinked ▸ gone, elsewhere other _ isOpen⟩
      deferred := by
        intro id gone p there
        rw [unlinked] at gone
        have before : s.1.kernel.files p = some id := by
          rcases found.origin there with before | ⟨_, new, _⟩
          · exact before
          · exact absurd (whole.known id gone) (new ▸ lt_irrefl _)
        obtain ⟨⟨holder, isOpen⟩, all⟩ := whole.deferred id gone p before
        refine ⟨⟨holder, elsewhere holder _ isOpen⟩, ?_⟩
        intro other isOpen'
        rw [marks]
        by_cases same : other = fd
        -- the new descriptor is on no file that was unlinked
        · rw [same, opened, update_self, Option.some_inj] at isOpen'
          obtain ⟨_, rfl, there' | new⟩ := (isOpen' ▸ found).holds
          · exact absurd gone (fine id there')
          · exact absurd (whole.known id gone) (new ▸ lt_irrefl _)
        · rw [opened, update_of_ne same] at isOpen'
          exact all other isOpen' }
  · exact ⟨fun p id there => .inl (found.stay there), unlinked ▸ List.Subset.refl _⟩

end Opening

section Unlinking
variable {Place : Type} [DecidableEq Place] {card : Card Place} {s t : Traced Place} {name : Text}

theorem sound_removed {d : Disk Place} (sound : d.Sound card)
    (shut : ∀ fd id, d.opened fd = some (.file (card.place name) id) → card.fixed (card.place name) = true) :
    (d.remove card name).2.Sound card where
  distinct p q id atP atQ := sound.distinct p q id (remove_left atP) (remove_left atQ)
  old p id there := by
    rw [remove_next]
    exact sound.old p id (remove_left there)
  bare p fixed := by
    cases there : (d.remove card name).2.files p with
    | none => rfl
    | some id => simpa [sound.bare p fixed] using remove_left there
  holds fd p id := by
    intro isOpen
    rw [remove_opened] at isOpen
    have there := sound.holds fd p id isOpen
    have apart : p ≠ card.place name := by
      rintro rfl
      simp [sound.bare _ (shut fd id isOpen)] at there
    rw [remove_elsewhere apart, there]

def Under (h : Guest Place) (name : Text) (i : Fin maxTracked) : Prop :=
  (h.paths i).fd ≠ 0 ∧ (h.paths i).name = name

omit [DecidableEq Place] in
theorem doom_held {h : Guest Place} : (doom name h).1 = true ↔ ∃ i, Under h name i := by
  simp [doom, Under]

omit [DecidableEq Place] in
theorem doom_fd {h : Guest Place} (i : Fin maxTracked) :
    ((doom name h).2.paths i).fd = (h.paths i).fd ∧ ((doom name h).2.paths i).name = (h.paths i).name := by
  simp only [doom]
  split <;> simp

omit [DecidableEq Place] in
theorem doom_doomed {h : Guest Place} (i : Fin maxTracked) :
    ((doom name h).2.paths i).doomed = true ↔ Under h name i ∨ (h.paths i).doomed = true := by
  simp only [doom, Under]
  split
  · rename_i held
    simp [held]
  · rename_i free
    simp [free]

omit [DecidableEq Place] in
theorem marked_doomed {h h' : Guest Place} (paths : h'.paths = (doom name h).2.paths) (fd : Int)
    (p : Place) :
    Marked card h' fd p ↔ Marked card h fd p ∨
      (card.place name = p ∧ fd ≠ 0 ∧ ∃ i, Under h name i ∧ (h.paths i).fd = fd) := by
  simp only [Marked, paths, doom_fd, doom_doomed]
  constructor
  · rintro ⟨i, own, taken, held | doomed, place⟩
    · exact .inr ⟨held.2 ▸ place, taken, i, held, own⟩
    · exact .inl ⟨i, own, taken, doomed, place⟩
  · rintro (⟨i, own, taken, doomed, place⟩ | ⟨place, taken, i, held, own⟩)
    · exact ⟨i, own, taken, .inr doomed, place⟩
    · exact ⟨i, own, taken, .inl held, held.2.symm ▸ place⟩

omit [DecidableEq Place] in
theorem table_doomed {h h' : Guest Place} (table : Table h) (paths : h'.paths = (doom name h).2.paths)
    (opened : h'.kernel.opened = h.kernel.opened) : Table h' := by
  constructor
  · simpa only [paths, opened, doom_fd] using table.tracked
  · simpa only [paths, doom_fd] using table.apart
  · simpa only [paths, doom_fd] using table.spelt
  · simpa only [paths, doom_fd] using table.short

omit [DecidableEq Place] in
theorem Whole.known_there (whole : Whole card s) (known : Known card s.1 name) {id : Nat}
    (there : s.1.kernel.files (card.place name) = some id) (fd : Int) :
    (fd ≠ 0 ∧ ∃ i, Under s.1 name i ∧ (s.1.paths i).fd = fd) ↔
      s.1.kernel.opened fd = some (.file (card.place name) id) := by
  rcases known with fixed | known
  · simp [whole.disk.bare _ fixed] at there
  · have isKnown := known fd
    constructor
    · rintro ⟨taken, i, held, own⟩
      obtain ⟨id', isOpen⟩ := isKnown.mp ⟨i, own, taken, held.2⟩
      have there' := whole.disk.holds fd _ id' isOpen
      rw [there, Option.some_inj] at there'
      rw [isOpen, there']
    · intro isOpen
      obtain ⟨i, own, taken, called⟩ := isKnown.mpr ⟨id, isOpen⟩
      exact ⟨taken, i, ⟨own ▸ taken, called⟩, own⟩

omit [DecidableEq Place] in
theorem Whole.doomed (whole : Whole card s) (known : Known card s.1 name)
    (paths : t.1.paths = (doom name s.1).2.paths) (kernel : t.1.kernel = s.1.kernel)
    (held : (doom name s.1).1 = true)
    (unlinked : t.2 = (s.1.kernel.files (card.place name)).toList ++ s.2) :
    Whole card t ∧ Spares s t := by
  have marks : ∀ fd p, Marked card t.1 fd p ↔ Marked card s.1 fd p ∨
      (card.place name = p ∧ fd ≠ 0 ∧ ∃ i, Under s.1 name i ∧ (s.1.paths i).fd = fd) :=
    marked_doomed paths
  have gone : ∀ id, id ∈ t.2 ↔ s.1.kernel.files (card.place name) = some id ∨ id ∈ s.2 := by
    simp [unlinked]
  constructor
  · exact {
      disk := kernel ▸ whole.disk
      table := table_doomed whole.table paths (by rw [kernel])
      known := by
        intro id isGone
        rw [kernel]
        rcases (gone id).mp isGone with there | before
        · exact whole.disk.old _ id there
        · exact whole.known id before
      marked := by
        intro fd p marked
        rw [kernel]
        rcases (marks fd p).mp marked with before | ⟨rfl, taken, entry⟩
        · rcases whole.marked fd p before with fixed | ⟨id, isGone, isOpen⟩
          · exact .inl fixed
          · exact .inr ⟨id, (gone id).mpr (.inr isGone), isOpen⟩
        · rcases known with fixed | known
          · exact .inl fixed
          · obtain ⟨i, under, own⟩ := entry
            obtain ⟨id, isOpen⟩ := (known fd).mp ⟨i, own, taken, under.2⟩
            exact .inr ⟨id, (gone id).mpr (.inl (whole.disk.holds fd _ id isOpen)), isOpen⟩
      deferred := by
        intro id isGone p there
        rw [kernel] at there ⊢
        rcases (gone id).mp isGone with here | before
        · obtain rfl := whole.disk.distinct _ _ _ here there
          have open' := whole.known_there known there
          obtain ⟨i, under⟩ := doom_held.mp held
          refine ⟨⟨_, (open' (s.1.paths i).fd).mp ⟨under.1, i, under, rfl⟩⟩, ?_⟩
          intro fd isOpen
          obtain ⟨taken, entry⟩ := (open' fd).mpr isOpen
          exact (marks fd _).mpr (.inr ⟨rfl, taken, entry⟩)
        · obtain ⟨holder, all⟩ := whole.deferred id before p there
          exact ⟨holder, fun fd isOpen => (marks fd p).mpr (.inl (all fd isOpen))⟩ }
  · exact ⟨fun p id there => .inl (kernel ▸ there), fun id before => (gone id).mpr (.inr before)⟩

theorem Whole.removed (whole : Whole card s) (known : Known card s.1 name)
    (paths : t.1.paths = (doom name s.1).2.paths)
    (kernel : t.1.kernel = (Disk.remove card s.1.kernel name).2)
    (free : ¬ (doom name s.1).1 = true)
    (unlinked : t.2 = (if (Disk.remove card s.1.kernel name).1 < 0 then []
      else (s.1.kernel.files (card.place name)).toList) ++ s.2) :
    Whole card t ∧ Spares s t := by
  have noEntry : ∀ i, ¬ Under s.1 name i := fun i under => free (doom_held.mpr ⟨i, under⟩)
  have marks : ∀ fd p, Marked card t.1 fd p ↔ Marked card s.1 fd p := by
    intro fd p
    simp [marked_doomed paths, noEntry]
  have shut : ∀ fd id, s.1.kernel.opened fd ≠ some (.file (card.place name) id) := by
    intro fd id isOpen
    have there := whole.disk.holds fd _ id isOpen
    obtain ⟨_, i, under, _⟩ := (whole.known_there known there fd).mpr isOpen
    exact noEntry i under
  have gone : ∀ id, id ∈ t.2 ↔ s.1.kernel.files (card.place name) = some id ∨ id ∈ s.2 := by
    intro id
    rw [unlinked]
    by_cases fixed : card.fixed (card.place name) = true
    · simp [Disk.remove, fixed, whole.disk.bare _ fixed]
    · cases there : s.1.kernel.files (card.place name) with
      | none => simp
      | some other => simp [Disk.remove, fixed, there, eq_comm]
  have absent : t.1.kernel.files (card.place name) = none := by
    rw [kernel]
    by_cases fixed : card.fixed (card.place name) = true
    · simp [Disk.remove, fixed, whole.disk.bare _ fixed]
    · exact remove_there fixed
  have opened : t.1.kernel.opened = s.1.kernel.opened := by rw [kernel, remove_opened]
  constructor
  · exact {
      disk := kernel ▸ sound_removed whole.disk (fun fd id isOpen => absurd isOpen (shut fd id))
      table := table_doomed whole.table paths opened
      known := by
        intro id isGone
        rw [kernel, remove_next]
        rcases (gone id).mp isGone with there | before
        · exact whole.disk.old _ id there
        · exact whole.known id before
      marked := by
        intro fd p marked
        rw [opened]
        rcases whole.marked fd p ((marks fd p).mp marked) with fixed | ⟨id, isGone, isOpen⟩
        · exact .inl fixed
        · exact .inr ⟨id, (gone id).mpr (.inr isGone), isOpen⟩
      deferred := by
        intro id isGone p there
        rw [opened]
        have before : s.1.kernel.files p = some id := remove_left (kernel ▸ there)
        rcases (gone id).mp isGone with here | earlier
        · obtain rfl := whole.disk.distinct _ _ _ here before
          simp [absent] at there
        · obtain ⟨holder, all⟩ := whole.deferred id earlier p before
          exact ⟨holder, fun fd isOpen => (marks fd p).mpr (all fd isOpen)⟩ }
  · constructor
    · intro p id there
      by_cases here : p = card.place name
      · exact .inr ((gone id).mpr (.inl (here ▸ there)))
      · exact .inl (by rw [kernel, remove_elsewhere here, there])
    · exact fun id before => (gone id).mpr (.inr before)

end Unlinking

section Endings
variable {Place : Type} [DecidableEq Place] {card : Card Place} {s t : Traced Place} {room : Room}

omit [DecidableEq Place] in
variable {h : Guest Place}

theorem trackedAs_mem {fd : Int} {entry : Tracked}
    (tracked : trackedAs h fd = some entry) : ∃ i, h.paths i = entry ∧ (h.paths i).fd = fd := by
  obtain ⟨i, found, rfl⟩ := Option.map_eq_some_iff.mp tracked
  exact ⟨i, rfl, by simpa using List.find?_some found⟩

omit [DecidableEq Place] in
theorem trackedAs_entry (table : Table h) {i : Fin maxTracked}
    (taken : (h.paths i).fd ≠ 0) : trackedAs h (h.paths i).fd = some (h.paths i) := by
  cases tracked : trackedAs h (h.paths i).fd with
  | none =>
    have untracked := Option.map_eq_none_iff.mp tracked
    simpa using List.find?_eq_none.mp untracked i (List.mem_finRange i)
  | some entry =>
    obtain ⟨j, rfl, same⟩ := trackedAs_mem tracked
    rw [table.apart j i same (same ▸ taken)]

omit [DecidableEq Place] in
theorem victim_entry (table : Table h) {fd : U32} {entry : Tracked}
    (tracked : trackedAs h fd.toInt = some entry) :
    victim h fd = if entry.doomed = true then entry.name else [] := by
  obtain ⟨i, rfl, _⟩ := trackedAs_mem tracked
  simp [victim, isDoomed, nameOf, tracked, List.take_of_length_le (table.short i)]

omit [DecidableEq Place] in
theorem victim_marked (table : Table h) {fd : U32} {p : Place}
    (marked : Marked card h fd.toInt p) : victim h fd ≠ [] ∧ card.place (victim h fd) = p := by
  obtain ⟨i, own, taken, doomed, place⟩ := marked
  have nonzero : (h.paths i).fd ≠ 0 := own.symm ▸ taken
  have tracked := trackedAs_entry table nonzero
  rw [own] at tracked
  rw [victim_entry table tracked, if_pos doomed]
  exact ⟨table.spelt i nonzero, place⟩

variable (card) in
omit [DecidableEq Place] in
theorem victim_named (table : Table h) {fd : U32} (removes : victim h fd ≠ []) :
    ∃ entry, trackedAs h fd.toInt = some entry ∧ entry.doomed = true ∧ victim h fd = entry.name ∧
      (fd.toInt ≠ 0 → Marked card h fd.toInt (card.place (victim h fd))) := by
  cases tracked : trackedAs h fd.toInt with
  | none => simp [victim, isDoomed, tracked] at removes
  | some entry =>
    have taken := victim_entry table tracked
    by_cases doomed : entry.doomed = true
    · rw [if_pos doomed] at taken
      refine ⟨entry, rfl, doomed, taken, fun nonzero => ?_⟩
      obtain ⟨i, rfl, own⟩ := trackedAs_mem tracked
      exact ⟨i, own, nonzero, doomed, by rw [taken]⟩
    · rw [if_neg doomed] at taken
      exact absurd taken removes

structure Closed (card : Card Place) (before after : Disk Place) (name : Text) (fd : Int) : Prop where
  rest : ∀ p, (name = [] ∨ p ≠ card.place name) → after.files p = before.files p
  left : ∀ p id, after.files p = some id → before.files p = some id
  gone : name ≠ [] → ¬ card.fixed (card.place name) = true → after.files (card.place name) = none
  opened : after.opened = update before.opened fd none
  next : after.next = before.next

theorem closed_step (fd : U32) :
    Closed card s.1.kernel (move card room s (.fdClose fd)).1.kernel (victim s.1 fd) fd.toInt := by
  rw [(close_step card room s fd).2.2]
  by_cases removes : victim s.1 fd = []
  · rw [if_neg (not_not.mpr removes)]
    exact ⟨fun p _ => by rw [close_files], fun p id left => close_files s.1.kernel fd.toInt ▸ left,
      fun named => absurd removes named, close_opened .., close_next ..⟩
  · rw [if_pos removes]
    constructor
    · intro p elsewhere
      rw [remove_elsewhere (elsewhere.resolve_left removes), close_files]
    · intro p id left
      rw [← close_files s.1.kernel fd.toInt]
      exact remove_left left
    · exact fun _ free => remove_there free
    · rw [remove_opened, close_opened]
    · rw [remove_next, close_next]

omit [DecidableEq Place] in
theorem forget_entry {fd : Int} {i : Fin maxTracked}
    (taken : ((forget fd h).paths i).fd ≠ 0) :
    (h.paths i).fd ≠ fd ∧ (forget fd h).paths i = h.paths i := by
  simp only [forget] at taken ⊢
  split at taken
  · simp at taken
  · rename_i other
    exact ⟨other, if_neg other⟩

omit [DecidableEq Place] in
theorem table_closed {h h' : Guest Place} (table : Table h) {fd : Int}
    (paths : h'.paths = (forget fd h).paths)
    (opened : h'.kernel.opened = update h.kernel.opened fd none) : Table h' := by
  constructor
  · intro i taken
    rw [paths] at taken ⊢
    obtain ⟨other, same⟩ := forget_entry taken
    rw [same] at taken ⊢
    rw [opened, update_of_ne other]
    exact table.tracked i taken
  · intro i j same taken
    rw [paths] at same taken
    have sameI := (forget_entry taken).2
    have sameJ := (forget_entry (h := h) (i := j) (same ▸ taken)).2
    rw [sameI] at taken
    rw [sameI, sameJ] at same
    exact table.apart i j same taken
  · intro i taken
    rw [paths] at taken ⊢
    have same := (forget_entry taken).2
    rw [same] at taken ⊢
    exact table.spelt i taken
  · intro i
    rw [paths]
    simp only [forget]
    split <;> exact table.short i

omit [DecidableEq Place] in
theorem marked_closed {h h' : Guest Place} {fd : Int} (paths : h'.paths = (forget fd h).paths)
    (other : Int) (p : Place) : Marked card h' other p ↔ other ≠ fd ∧ Marked card h other p := by
  constructor
  · rintro ⟨i, rfl, taken, doomed, place⟩
    rw [paths] at taken doomed place ⊢
    obtain ⟨apart, same⟩ := forget_entry taken
    rw [same] at taken doomed place ⊢
    exact ⟨apart, i, rfl, taken, doomed, place⟩
  · rintro ⟨apart, i, rfl, taken, doomed, place⟩
    have same : h'.paths i = h.paths i := by
      rw [paths]
      exact if_neg apart
    exact ⟨i, by rw [same], taken, by rw [same, doomed], by rw [same, place]⟩

theorem Whole.closed (whole : Whole card s) {fd : U32} (allowed : Allowed card room s (.fdClose fd))
    (paths : t.1.paths = (forget fd.toInt s.1).paths) (unlinked : t.2 = s.2)
    (closed : Closed card s.1.kernel t.1.kernel (victim s.1 fd) fd.toInt) :
    Whole card t ∧ Spares s t := by
  have marks : ∀ other p, Marked card t.1 other p ↔ other ≠ fd.toInt ∧ Marked card s.1 other p :=
    marked_closed paths
  -- the file that goes is open on this descriptor alone, and was unlinked
  have goes : ∀ id, victim s.1 fd ≠ [] →
      s.1.kernel.files (card.place (victim s.1 fd)) = some id →
      id ∈ s.2 ∧ ∀ other, other ≠ fd.toInt →
        s.1.kernel.opened other ≠ some (.file (card.place (victim s.1 fd)) id) := by
    intro id removes there
    obtain ⟨entry, tracked, doomed, taken, marked⟩ := victim_named card whole.table removes
    obtain ⟨nonzero, alone⟩ := allowed entry tracked doomed id (taken ▸ there)
    rw [← taken] at alone
    refine ⟨?_, alone⟩
    rcases whole.marked _ _ (marked nonzero) with fixed | ⟨id', gone, isOpen⟩
    · simp [whole.disk.bare _ fixed] at there
    · have there' := whole.disk.holds _ _ _ isOpen
      rw [there, Option.some_inj] at there'
      exact there' ▸ gone
  have stays : ∀ other p id, other ≠ fd.toInt → s.1.kernel.opened other = some (.file p id) →
      t.1.kernel.files p = some id := by
    intro other p id apart isOpen
    have there := whole.disk.holds other p id isOpen
    by_cases removes : victim s.1 fd = []
    · rw [closed.rest p (.inl removes), there]
    · have elsewhere : p ≠ card.place (victim s.1 fd) := by
        rintro rfl
        exact (goes id removes there).2 other apart isOpen
      rw [closed.rest p (.inr elsewhere), there]
  have still : ∀ other p id, t.1.kernel.opened other = some (.file p id) →
      other ≠ fd.toInt ∧ s.1.kernel.opened other = some (.file p id) := by
    intro other p id isOpen
    rw [closed.opened] at isOpen
    by_cases same : other = fd.toInt
    · simp [same] at isOpen
    · rw [update_of_ne same] at isOpen
      exact ⟨same, isOpen⟩
  constructor
  · exact {
      disk := {
        distinct := fun p q id atP atQ =>
          whole.disk.distinct p q id (closed.left p id atP) (closed.left q id atQ)
        old := fun p id there => closed.next ▸ whole.disk.old p id (closed.left p id there)
        bare := by
          intro p fixed
          cases there : t.1.kernel.files p with
          | none => rfl
          | some id => simpa [whole.disk.bare p fixed] using closed.left p id there
        holds := fun other p id isOpen =>
          stays other p id (still other p id isOpen).1 (still other p id isOpen).2 }
      table := table_closed whole.table paths closed.opened
      known := by
        rw [unlinked, closed.next]
        exact whole.known
      marked := by
        intro other p marked
        obtain ⟨apart, before⟩ := (marks other p).mp marked
        rw [unlinked, closed.opened, update_of_ne apart]
        exact whole.marked other p before
      deferred := by
        intro id gone p there
        rw [unlinked] at gone
        have before := closed.left p id there
        obtain ⟨⟨holder, isOpen⟩, all⟩ := whole.deferred id gone p before
        -- had this descriptor been open on it, the file would be gone
        have apart : s.1.kernel.opened fd.toInt ≠ some (.file p id) := by
          intro own
          obtain ⟨removes, rfl⟩ := victim_marked whole.table (all _ own)
          have free : ¬ card.fixed (card.place (victim s.1 fd)) = true := by
            intro fixed
            simp [whole.disk.bare _ fixed] at before
          simp [closed.gone removes free] at there
        have other : holder ≠ fd.toInt := by
          rintro rfl
          exact apart isOpen
        refine ⟨⟨holder, by rw [closed.opened, update_of_ne other, isOpen]⟩, ?_⟩
        intro other isOpen'
        obtain ⟨different, isOpen⟩ := still other p id isOpen'
        exact (marks other p).mpr ⟨different, all other isOpen⟩ }
  · constructor
    · intro p id there
      by_cases removes : victim s.1 fd = []
      · exact .inl (by rw [closed.rest p (.inl removes), there])
      · by_cases here : p = card.place (victim s.1 fd)
        · subst here
          exact .inr (unlinked ▸ (goes id removes there).1)
        · exact .inl (by rw [closed.rest p (.inr here), there])
    · exact unlinked ▸ List.Subset.refl _

end Endings

section Sweeping
variable {Place : Type} [DecidableEq Place] {card : Card Place} {s : Traced Place}

/-- One turn of `wasi_sweep_doomed`. -/
def sweepEntry (card : Card Place) (h : Guest Place) (i : Fin maxTracked) : Guest Place :=
  if (h.paths i).fd ≠ 0 ∧ (h.paths i).doomed then
    { h with
      paths := update h.paths i { h.paths i with fd := 0 }
      kernel := (Disk.remove card h.kernel (h.paths i).name).2 }
  else h

theorem sweepDoomed_eq (h : Guest Place) :
    sweepDoomed card.kernel h = (List.finRange maxTracked).foldl (sweepEntry card) h := rfl

variable {h : Guest Place}

variable {p : Place} {id : Nat}

theorem sweepEntry_left {i : Fin maxTracked}
    (left : (sweepEntry card h i).kernel.files p = some id) : h.kernel.files p = some id := by
  unfold sweepEntry at left
  split at left
  · exact remove_left left
  · exact left

theorem sweepEntry_next {i : Fin maxTracked} :
    (sweepEntry card h i).kernel.next = h.kernel.next := by
  unfold sweepEntry
  split
  · exact remove_next
  · rfl

theorem sweep_removes {fd : Int} (l : List (Fin maxTracked)) :
    ∀ h : Guest Place, (∃ i ∈ l, (h.paths i).fd = fd ∧ fd ≠ 0 ∧ (h.paths i).doomed = true ∧
      card.place (h.paths i).name = p) → ¬ card.fixed p = true →
      (l.foldl (sweepEntry card) h).kernel.files p ≠ some id := by
  induction l with
  | nil => simp
  | cons j rest ih =>
    rintro h ⟨i, member, own, taken, doomed, place⟩ free
    by_cases here : i = j
    · subst here
      intro left
      have later : (sweepEntry card h i).kernel.files p = some id :=
        Machine.foldl_invariant (fun g : Guest Place => g.kernel.files p = some id →
          (sweepEntry card h i).kernel.files p = some id) (fun same => same)
          (fun _ _ _ keeps after => keeps (sweepEntry_left after)) left
      rw [sweepEntry, if_pos ⟨own.symm ▸ taken, doomed⟩] at later
      subst place
      simp [remove_there free] at later
    · have same : (sweepEntry card h j).paths i = h.paths i := by
        unfold sweepEntry
        split
        · exact update_of_ne here _ _
        · rfl
      exact ih _ ⟨i, (List.mem_cons.mp member).resolve_left here, by rw [same, own], taken,
        by rw [same, doomed], by rw [same, place]⟩ free

theorem sweep_keeps (there : h.kernel.files p = some id)
    (unmarked : ∀ fd, ¬ Marked card h fd p) :
    (sweepDoomed card.kernel h).kernel.files p = some id := by
  rw [sweepDoomed_eq]
  refine (Machine.foldl_invariant (fun g : Guest Place => g.kernel.files p = some id ∧
    ∀ fd, ¬ Marked card g fd p) ⟨there, unmarked⟩ ?_).1
  rintro g i - ⟨there, unmarked⟩
  unfold sweepEntry
  split
  · rename_i swept
    have elsewhere : p ≠ card.place (g.paths i).name := by
      rintro rfl
      exact unmarked _ ⟨i, rfl, swept.1, swept.2, rfl⟩
    refine ⟨by rw [remove_elsewhere elsewhere, there], ?_⟩
    rintro fd ⟨j, own, taken, doomed, place⟩
    by_cases here : j = i
    · subst here
      simp only [update_self] at own
      exact taken own.symm
    · simp only [update_of_ne here] at own doomed place
      exact unmarked fd ⟨j, own, taken, doomed, place⟩
  · exact ⟨there, unmarked⟩

theorem sweep_left
    (left : (sweepDoomed card.kernel h).kernel.files p = some id) : h.kernel.files p = some id := by
  rw [sweepDoomed_eq] at left
  exact Machine.foldl_invariant (fun g : Guest Place => g.kernel.files p = some id →
    h.kernel.files p = some id) (fun same => same)
    (fun _ _ _ keeps after => keeps (sweepEntry_left after)) left

theorem sweep_next : (sweepDoomed card.kernel h).kernel.next = h.kernel.next := by
  rw [sweepDoomed_eq]
  exact Machine.foldl_invariant (fun g : Guest Place => g.kernel.next = h.kernel.next) rfl
    (fun _ _ _ keeps => sweepEntry_next.trans keeps)

theorem Whole.left (whole : Whole card s) :
    Whole card (leave card s.1, s.2) ∧ Spares s (leave card s.1, s.2) := by
  constructor
  · exact {
      disk := {
        distinct := fun p q id atP atQ =>
          whole.disk.distinct p q id (sweep_left atP) (sweep_left atQ)
        old := fun p id there => lt_of_lt_of_eq (whole.disk.old p id (sweep_left there)) sweep_next.symm
        bare := by
          intro p fixed
          cases there : (leave card s.1).kernel.files p with
          | none => rfl
          | some id => simpa [whole.disk.bare p fixed] using sweep_left there
        holds := by simp [leave] }
      table := ⟨by simp [leave, noPaths], by simp [leave, noPaths], by simp [leave, noPaths],
        by simp [leave, noPaths]⟩
      known := fun id gone => lt_of_lt_of_eq (whole.known id gone) sweep_next.symm
      marked := by simp [Marked, leave, noPaths]
      deferred := by
        intro id gone p there
        obtain ⟨⟨fd, isOpen⟩, all⟩ := whole.deferred id gone p (sweep_left there)
        obtain ⟨i, entry⟩ := all fd isOpen
        have free : ¬ card.fixed p = true := by
          intro fixed
          simpa [whole.disk.bare p fixed] using sweep_left there
        exact absurd there (sweep_removes (List.finRange maxTracked) s.1
          ⟨i, List.mem_finRange i, entry⟩ free) }
  · constructor
    · intro p id there
      by_cases unmarked : ∀ fd, ¬ Marked card s.1 fd p
      · exact .inl (sweep_keeps there unmarked)
      · push Not at unmarked
        obtain ⟨fd, marked⟩ := unmarked
        rcases whole.marked fd p marked with fixed | ⟨id', gone, isOpen⟩
        · simp [whole.disk.bare p fixed] at there
        · have there' := whole.disk.holds fd p id' isOpen
          rw [there, Option.some_inj] at there'
          exact .inr (there' ▸ gone)
    · exact List.Subset.refl _

end Sweeping

section Runs
variable {Place : Type} [DecidableEq Place] {card : Card Place} {room : Room} {s : Traced Place}

theorem cText_cons {b : Byte} (nonzero : b ≠ 0) (rest : Text) : cText (b :: rest) ≠ [] := by
  have kept : (decide (b ≠ 0)) = true := decide_eq_true nonzero
  simp only [cText, List.takeWhile_cons, kept]
  simp

theorem pathName_ne_nil {κ : Type} {kernel : Kernel κ} {k : κ} {path name : Text} {cap : Nat}
    (clean : 0 ∉ kernel.getcwd k) (isNamed : pathName kernel k path cap = some name) : name ≠ [] := by
  unfold pathName at isNamed
  simp only at isNamed
  split at isNamed
  · cases isNamed
    simp
  · split at isNamed
    · rename_i relative
      split at isNamed
      · cases isNamed
      · cases isNamed
        cases cwd : kernel.getcwd k with
        | nil => exact absurd cwd relative.2.1
        | cons b rest =>
          rw [cwd] at clean
          exact cText_cons (fun zero => clean (zero ▸ List.mem_cons_self)) _
    · split at isNamed
      · cases isNamed
      · cases isNamed
        exact cText_cons (by decide) _

theorem named_ne_nil {mem : Nat → Byte} {dirfd path pathLen : U32} {name : Text}
    (isNamed : named card room s.1 mem dirfd path pathLen = some name) : name ≠ [] := by
  unfold named at isNamed
  split at isNamed
  · exact pathName_ne_nil card.cwdEnds isNamed
  · cases isNamed

theorem Whole.step (whole : Whole card s) (input : Step) (allowed : Allowed card room s input) :
    Whole card (move card room s input) ∧ Spares s (move card room s input) := by
  cases input with
  | pathOpen mem dirfd path pathLen oflags rightsBase fdflags outFd =>
    obtain ⟨unlinked, same | ⟨name, isNamed, answered, gained⟩⟩ :=
      open_cases card room s mem dirfd path pathLen oflags rightsBase fdflags outFd
    · exact whole.same same unlinked
    · exact whole.gained (named_ne_nil isNamed) gained unlinked (allowed answered name isNamed)
  | pathUnlinkFile mem dirfd path pathLen =>
    cases isNamed : named card room s.1 mem dirfd path pathLen with
    | none =>
      obtain ⟨paths, kernel, unlinked⟩ := unlink_unnamed isNamed
      exact whole.same ⟨paths, by rw [kernel], by rw [kernel], by rw [kernel]⟩ unlinked
    | some name =>
      obtain ⟨paths, ends⟩ := unlink_named isNamed
      have known := allowed name isNamed
      split at ends
      · rename_i held
        exact whole.doomed known paths ends.1 held ends.2
      · rename_i free
        exact whole.removed known paths ends.1 free ends.2
  | fdClose fd =>
    obtain ⟨unlinked, paths, _⟩ := close_step card room s fd
    exact whole.closed allowed paths unlinked (closed_step fd)
  | exit => exact whole.left

omit [DecidableEq Place] in
theorem Whole.start {disk : Disk Place} (sound : disk.Sound card) :
    Whole card (⟨fun _ => 0, noPaths, disk, none⟩, []) where
  disk := sound
  table := ⟨by simp [noPaths], by simp [noPaths], by simp [noPaths], by simp [noPaths]⟩
  known := by simp
  marked := by simp [Marked, noPaths]
  deferred := by simp

omit [DecidableEq Place] in
theorem Spares.trans {r s t : Traced Place} (first : Spares r s) (second : Spares s t) : Spares r t where
  files p id there := by
    rcases first.files p id there with later | gone
    · exact second.files p id later
    · exact .inr (second.unlinked gone)
  unlinked := fun _ before => second.unlinked (first.unlinked before)

theorem Whole.run {steps : List Step} (whole : Whole card s)
    (allowed : Machine.Along (move card room) (Allowed card room) s steps) :
    Whole card (steps.foldl (move card room) s) ∧ Spares s (steps.foldl (move card room) s) := by
  refine Machine.along_invariant (fun t => Whole card t ∧ Spares s t) allowed
    ⟨whole, fun p id there => .inl there, List.Subset.refl _⟩ ?_
  rintro t input - fine ⟨whole, spares⟩
  exact ⟨(whole.step input fine).1, spares.trans (whole.step input fine).2⟩

end Runs

section Trials

end Trials

end Ubiqos.Wasm
