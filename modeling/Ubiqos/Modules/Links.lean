import Ubiqos.Modules.Directory
import Ubiqos.Kernel.Ledger

/-!
Who links a module. A process holds one link to the module it runs, from the
request that starts it until `reap` gives it back; `SYS_DATALINK` and the tables
of libraries and drivers hold one each. The directory and the scheduler are one
machine here: what the scheduler unlinks reaches the directory in the order it
was called for.
-/

namespace Ubiqos.Modules

open Function Compact Machine

/-- One entry a module at most, and an entry of a flash module has its name. -/
structure Sound (flash : List Resident) (d : Directory) : Prop where
  unique : Unique d
  named : ∀ e ∈ items d.entries, ∀ m ∈ flash, m.header.module.address = e.address →
    text e.name = m.name

section Sound
variable {flash : List Resident} {d : Directory}

theorem slot_mem {i : Nat} (inside : i < d.entries.count) :
    d.entries.slot i ∈ items d.entries :=
  List.mem_map.mpr ⟨i, List.mem_range.mpr inside, rfl⟩

theorem Sound.putLinks (sound : Sound flash d) {i : Nat} (inside : i < d.entries.count)
    (links : Nat) : Sound flash (putLinks d i links) := by
  refine ⟨fun a => ?_, ?_⟩
  · rw [(putLinks_counts d inside links a).2.1]
    exact sound.unique a
  · intro e member m resident same
    obtain ⟨rest, whole, changed, _⟩ := items_around d.entries inside
    rcases List.mem_cons.mp ((changed _).mem_iff.mp member) with rfl | other
    · exact sound.named _ (slot_mem inside) m resident same
    · exact sound.named e (whole.mem_iff.mpr (List.mem_cons_of_mem _ other)) m resident same

theorem Sound.drop (sound : Sound flash d) {i : Nat} (inside : i < d.entries.count) :
    Sound flash (drop d i) := by
  refine ⟨fun a => ?_, ?_⟩
  · have fewer := (drop_counts d inside a).2.1
    have before := sound.unique a
    omega
  · intro e member m resident same
    obtain ⟨rest, whole, _, after⟩ := items_around d.entries inside
    have inRest := after.mem_iff.mp member
    exact sound.named e (whole.mem_iff.mpr (List.mem_cons_of_mem _ inRest)) m resident same

theorem Sound.unlink (sound : Sound flash d) (a : Addr) : Sound flash (moddirUnlink d a) := by
  unfold moddirUnlink
  split
  · exact sound
  · rename_i i found
    have inside := (find_some found).1
    dsimp only
    split
    · exact sound.drop inside
    · exact sound.putLinks inside _

theorem Sound.register (sound : Sound flash d) {header : Header} (owned : Bool) {name : Buffer}
    (absent : countAt d header.module.address = 0)
    (fits : ∀ m ∈ flash, m.header.module.address = header.module.address → text name = m.name) :
    Sound flash (register d header owned name) := by
  refine ⟨fun a => ?_, ?_⟩
  · rw [(register_counts d header owned name a).2.1]
    have before := sound.unique a
    split
    · rename_i here
      rw [← here, absent]
    · exact before
  · intro e member m resident same
    simp only [Modules.register, items_push, List.mem_append, List.mem_singleton] at member
    rcases member with old | rfl
    · exact sound.named e old m resident same
    · have exact' := fits m resident same
      rw [text_nameCopy, exact']
      rw [exact']
      exact m.short

end Sound

/-- What asking leaves alone: every count, and every entry that was there. -/
structure Asked (flash : List Resident) (d d' : Directory) : Prop where
  sound : Sound flash d'
  links : ∀ a, linksAt d' a = linksAt d a
  images : ∀ a, imagesAt d' a = imagesAt d a
  stays : ∀ a, 0 < countAt d a → countAt d' a = countAt d a

section Asking
variable {flash : List Resident} {d : Directory}

theorem Asked.refl (sound : Sound flash d) : Asked flash d d :=
  ⟨sound, fun _ => rfl, fun _ => rfl, fun _ _ => rfl⟩

theorem flashLookup_some {name : Buffer} {header : Header}
    (found : flashLookup flash name = some header) :
    ∃ m ∈ flash, m.header = header ∧ m.name = text name := by
  obtain ⟨m, hit, same⟩ := Option.map_eq_some_iff.mp found
  exact ⟨m, List.mem_of_find?_eq_some hit, same, by simpa using List.find?_some hit⟩

variable (apart : (flash.map (fun m => m.header.module.address)).Nodup)
include apart

theorem resident_eq {m m' : Resident} (here : m ∈ flash) (there : m' ∈ flash)
    (same : m.header.module.address = m'.header.module.address) : m = m' :=
  List.inj_on_of_nodup_map apart here there same

theorem adoptFromFlash_asked (sound : Sound flash d) {name : Buffer}
    (fresh : ∀ header, flashLookup flash name = some header →
      countAt d header.module.address = 0) :
    Asked flash d (adoptFromFlash flash d name).1 ∧
      ∀ i, (adoptFromFlash flash d name).2 = some i →
        i < (adoptFromFlash flash d name).1.entries.count ∧
        ((adoptFromFlash flash d name).1.entries.slot i).links = 0 ∧
        flashLookup flash name =
          some ((adoptFromFlash flash d name).1.entries.slot i).header := by
  unfold adoptFromFlash
  cases found : flashLookup flash name with
  | none => exact ⟨.refl sound, by simp⟩
  | some header =>
    dsimp only
    split
    · exact ⟨.refl sound, by simp⟩
    · have absent := fresh header found
      obtain ⟨m, resident, same, isName⟩ := flashLookup_some found
      have fits : ∀ m' ∈ flash, m'.header.module.address = header.module.address →
          text name = m'.name := by
        intro m' other at'
        rw [← same] at at'
        rw [resident_eq apart other resident at', isName]
      refine ⟨⟨sound.register false absent fits, ?_, ?_, ?_⟩, ?_⟩
      · intro a
        exact (register_counts d header false name a).1
      · intro a
        simpa using (register_counts d header false name a).2.2
      · intro a there
        rw [(register_counts d header false name a).2.1, if_neg]
        · rfl
        · intro here
          rw [← here, absent] at there
          exact absurd there (by simp)
      · intro i index
        rw [← Option.some.inj index]
        simp [Modules.register, push]

theorem moddirMatch_asked (sound : Sound flash d) (user : Buffer) :
    Asked flash d (moddirMatch flash d user).1 ∧
      ∀ stored, (moddirMatch flash d user).2 = some stored →
        ∃ i, i < (moddirMatch flash d user).1.entries.count ∧
          ((moddirMatch flash d user).1.entries.slot i).name = stored := by
  unfold moddirMatch
  cases hit : find d.entries (fun e => nameEqCi (text e.name) (text user)) with
  | some i =>
    refine ⟨.refl sound, ?_⟩
    intro stored same
    exact ⟨i, (find_some hit).1, Option.some.inj same⟩
  | none =>
    cases found : flash.find? (fun m => nameEqCi m.name (text user)) with
    | none => exact ⟨.refl sound, by simp⟩
    | some m =>
      have fresh : ∀ header, flashLookup flash (bufferOf m.name) = some header →
          countAt d header.module.address = 0 := by
        intro header looked
        obtain ⟨first, resident, same, isName⟩ := flashLookup_some looked
        rw [text_bufferOf] at isName
        unfold countAt
        rw [List.countP_eq_zero]
        intro e member isAt
        have stored : text e.name = m.name := by
          rw [← isName]
          apply sound.named e member first resident
          rw [same]
          exact (of_decide_eq_true isAt).symm
        have missed := find_none hit e member
        rw [stored] at missed
        have wanted := List.find?_some found
        rw [missed] at wanted
        cases wanted
      obtain ⟨asked, index⟩ := adoptFromFlash_asked apart sound fresh
      dsimp only
      split
      · rename_i d' outcome
        rw [outcome] at asked
        exact ⟨asked, by simp⟩
      · rename_i d' i outcome
        rw [outcome] at asked index
        refine ⟨asked, ?_⟩
        intro stored same
        exact ⟨i, (index i rfl).1, Option.some.inj same⟩

end Asking

def Roomy (d : Directory) : Prop := ∀ e ∈ items d.entries, e.links + 1 < 2 ^ 32

instance (d : Directory) : Decidable (Roomy d) := List.decidableBAll _ _

def sought (flash : List Resident) (d : Directory) (name : Buffer) : Option Header :=
  match find d.entries (fun e => nameEq e.name name) with
  | some i => some (d.entries.slot i).header
  | none => flashLookup flash name

def Unstored (flash : List Resident) (d : Directory) (name : Buffer) : Prop :=
  find d.entries (fun e => nameEq e.name name) = none →
    ∀ header ∈ flashLookup flash name, countAt d header.module.address = 0

instance (flash : List Resident) (d : Directory) (name : Buffer) :
    Decidable (Unstored flash d name) :=
  inferInstanceAs (Decidable (_ = _ → _))

structure Gains (flash : List Resident) (d d' : Directory) (a : Addr) : Prop where
  sound : Sound flash d'
  links : ∀ b, linksAt d' b = linksAt d b + (if b = a then 1 else 0)
  images : ∀ b, imagesAt d' b = imagesAt d b
  stays : ∀ b, 0 < countAt d b → countAt d' b = countAt d b

section Taking
variable {flash : List Resident} {d : Directory}

theorem roomy_iff (unique : Unique d) : Roomy d ↔ ∀ a, linksAt d a + 1 < 2 ^ 32 := by
  constructor
  · intro room a
    by_cases absent : countAt d a = 0
    · rw [linksAt_absent d absent]
      omega
    · obtain ⟨e, member, isAt⟩ := List.countP_pos_iff.mp (Nat.pos_of_ne_zero absent)
      obtain ⟨i, inside, rfl⟩ := List.mem_map.mp member
      rw [← of_decide_eq_true isAt,
        (links_of_entry d (List.mem_range.mp inside) unique).1]
      exact room _ member
  · intro room e member
    obtain ⟨i, inside, rfl⟩ := List.mem_map.mp member
    rw [← (links_of_entry d (List.mem_range.mp inside) unique).1]
    exact room _

theorem bump_gains (sound : Sound flash d) {i : Nat} (inside : i < d.entries.count)
    (room : (d.entries.slot i).links + 1 < 2 ^ 32) :
    Gains flash d (bump d i) (d.entries.slot i).address :=
  ⟨sound.putLinks inside _, fun b => (bump_counts inside room b).1,
    fun b => (bump_counts inside room b).2.2, fun b _ => (bump_counts inside room b).2.1⟩

theorem Asked.gains {d' d'' : Directory} {a : Addr} (asked : Asked flash d d')
    (gains : Gains flash d' d'' a) : Gains flash d d'' a := by
  refine ⟨gains.sound, ?_, ?_, ?_⟩
  · intro b
    rw [gains.links, asked.links]
  · intro b
    rw [gains.images, asked.images]
  · intro b there
    have kept := asked.stays b there
    rw [gains.stays b (by omega), kept]

theorem Asked.roomy {d' : Directory} (sound : Sound flash d) (asked : Asked flash d d')
    (room : Roomy d) : Roomy d' := by
  rw [roomy_iff asked.sound.unique]
  intro a
  rw [asked.links]
  exact (roomy_iff sound.unique).mp room a

variable (apart : (flash.map (fun m => m.header.module.address)).Nodup)
include apart

theorem moddirLink_gains (sound : Sound flash d) (room : Roomy d) {name : Buffer}
    (unstored : Unstored flash d name) :
    ((moddirLink flash d name).2 = none → Asked flash d (moddirLink flash d name).1) ∧
    ∀ header, (moddirLink flash d name).2 = some header →
      sought flash d name = some header ∧
        Gains flash d (moddirLink flash d name).1 header.module.address := by
  unfold moddirLink sought
  cases hit : find d.entries (fun e => nameEq e.name name) with
  | some i =>
    have inside := (find_some hit).1
    refine ⟨by simp, ?_⟩
    intro header same
    rw [← Option.some.inj same]
    exact ⟨rfl, bump_gains sound inside (room _ (slot_mem inside))⟩
  | none =>
    obtain ⟨asked, index⟩ := adoptFromFlash_asked apart sound (unstored hit)
    dsimp only
    split
    · rename_i d' outcome
      rw [outcome] at asked
      exact ⟨fun _ => asked, by simp⟩
    · rename_i d' i outcome
      rw [outcome] at asked index
      obtain ⟨inside, zero, looked⟩ := index i rfl
      refine ⟨by simp, ?_⟩
      intro header same
      dsimp only at zero looked inside
      have small : (d'.entries.slot i).links + 1 < 2 ^ 32 := by omega
      rw [← Option.some.inj same]
      exact ⟨looked, asked.gains (bump_gains asked.sound inside small)⟩

omit apart in
theorem stored_unstored {stored : Buffer}
    (there : ∃ i, i < d.entries.count ∧ (d.entries.slot i).name = stored) :
    Unstored flash d stored := by
  intro missed
  obtain ⟨i, inside, rfl⟩ := there
  have wanted := find_none missed _ (slot_mem inside)
  simp [nameEq] at wanted

end Taking

def Held (d : Directory) (a : Addr) : Prop := countAt d a = 0 ↔ linksAt d a = 0

/-- Links go up by `more`, and a module that was linked is there after the call
exactly if it still is. -/
structure Turn (flash : List Resident) (d d' : Directory) (more : Addr → Nat) : Prop where
  sound : Sound flash d'
  links : ∀ a, linksAt d' a = linksAt d a + more a
  images : ∀ a, imagesAt d' a = imagesAt d a
  held : ∀ a, 0 < linksAt d a → Held d' a

section Turns
variable {flash : List Resident} {d d' : Directory}

theorem count_pos {a : Addr} (linked : 0 < linksAt d a) : 0 < countAt d a := by
  apply Nat.pos_of_ne_zero
  intro absent
  rw [linksAt_absent d absent] at linked
  cases linked

theorem Asked.turn (asked : Asked flash d d') : Turn flash d d' (fun _ => 0) := by
  refine ⟨asked.sound, asked.links, asked.images, ?_⟩
  intro a linked
  have there := count_pos linked
  have kept := asked.stays a there
  have same := asked.links a
  exact ⟨fun none => by omega, fun none => by omega⟩

theorem Gains.held {a b : Addr} (gains : Gains flash d d' a) (linked : 0 < linksAt d b) :
    Held d' b := by
  have kept := gains.stays b (count_pos linked)
  have there := count_pos linked
  have grown := gains.links b
  exact ⟨fun none => by omega, fun none => by omega⟩

theorem Gains.turn {a : Addr} (gains : Gains flash d d' a) :
    Turn flash d d' (fun b => if b = a then 1 else 0) :=
  ⟨gains.sound, gains.links, gains.images, fun _ => gains.held⟩

theorem Held.unlink (unique : Unique d) {b : Addr} (held : Held d b) (a : Addr) :
    Held (moddirUnlink d a) b := by
  obtain ⟨links, counts, _⟩ := moddirUnlink_counts unique a b
  unfold Held at held ⊢
  by_cases here : b = a
  · subst here
    rw [links, counts]
    simp only [if_true, true_and]
    by_cases last : linksAt d b ≤ 1
    · simp only [last, if_true, true_iff]
      omega
    · simp only [last, if_false]
      omega
  · rw [links, counts]
    simpa [here] using held

theorem Gains.undone {a : Addr} (gains : Gains flash d d' a) :
    Turn flash d (moddirUnlink d' a) (fun _ => 0) := by
  refine ⟨gains.sound.unlink a, ?_, ?_, ?_⟩
  · intro b
    rw [(moddirUnlink_counts gains.sound.unique a b).1, gains.links]
    omega
  · intro b
    rw [(moddirUnlink_counts gains.sound.unique a b).2.2, gains.images]
  · intro b linked
    exact (gains.held linked).unlink gains.sound.unique a

theorem supersedes_turn (sound : Sound flash d) (fresh : Header) (name : Buffer)
    (fromCard : Bool) :
    Turn flash d (supersedes flash d fresh name fromCard).1 (fun _ => 0) ∧
      ∀ a, countAt (supersedes flash d fresh name fromCard).1 a ≤ countAt d a := by
  have unmoved : Turn flash d d (fun _ => 0) := (Asked.refl sound).turn
  unfold supersedes
  split
  · split
    · exact ⟨unmoved, fun _ => Nat.le_refl _⟩
    · split <;> exact ⟨unmoved, fun _ => Nat.le_refl _⟩
  · rename_i i found
    have inside := (find_some found).1
    dsimp only
    split
    · exact ⟨unmoved, fun _ => Nat.le_refl _⟩
    · split
      · exact ⟨unmoved, fun _ => Nat.le_refl _⟩
      · split
        · exact ⟨unmoved, fun _ => Nat.le_refl _⟩
        · rename_i unlinked
          push Not at unlinked
          have unused := (links_of_entry d inside sound.unique).1
          have links : ∀ a, linksAt (drop d i) a = linksAt d a := by
            intro a
            have dropped := (drop_counts d inside a).1
            rw [unlinked] at dropped
            simpa using dropped
          refine ⟨⟨sound.drop inside, links, fun a => (drop_counts d inside a).2.2, ?_⟩, ?_⟩
          · intro a linked
            have there := count_pos linked
            have counts := (drop_counts d inside a).2.1
            have away : (d.entries.slot i).address ≠ a := by
              rintro rfl
              omega
            rw [if_neg away] at counts
            have same := links a
            unfold Held
            dsimp only
            omega
          · intro a
            have counts := (drop_counts d inside a).2.1
            dsimp only
            omega

theorem add_turn (sound : Sound flash d) {header : Header} (name : Buffer) (image : Bool)
    (absent : countAt d header.module.address = 0)
    (fits : ∀ m ∈ flash, m.header.module.address = header.module.address → text name = m.name) :
    Sound flash (add flash d header name image).1 ∧
    (∀ a, linksAt (add flash d header name image).1 a = linksAt d a) ∧
    (∀ a, imagesAt (add flash d header name image).1 a = imagesAt d a +
      if (add flash d header name image).2 ∧ image ∧ header.module.address = a then 1 else 0) ∧
    (∀ a, countAt (add flash d header name image).1 a ≤
      countAt d a + if header.module.address = a then 1 else 0) ∧
    ∀ a, 0 < linksAt d a → Held (add flash d header name image).1 a := by
  have unmoved := (Asked.refl sound).turn
  unfold add
  split
  · exact ⟨sound, fun _ => rfl, fun _ => by simp, fun _ => Nat.le_add_right _ _, unmoved.held⟩
  · obtain ⟨turn, fewer⟩ := supersedes_turn sound header name image
    split
    · rename_i d' outcome
      rw [outcome] at turn fewer
      refine ⟨turn.sound, turn.links, fun a => by simpa using turn.images a, ?_, turn.held⟩
      intro a
      have less := fewer a
      dsimp only at less ⊢
      omega
    · rename_i d' outcome
      rw [outcome] at turn fewer
      dsimp only at turn fewer
      split
      · refine ⟨turn.sound, turn.links, fun a => by simpa using turn.images a, ?_, turn.held⟩
        intro a
        have less := fewer a
        dsimp only at less ⊢
        omega
      · have gone : countAt d' header.module.address = 0 := by
          have less := fewer header.module.address
          omega
        have counts := register_counts d' header image name
        refine ⟨turn.sound.register image gone fits, ?_, ?_, ?_, ?_⟩
        · intro a
          rw [(counts a).1]
          exact turn.links a
        · intro a
          rw [(counts a).2.2, turn.images]
          simp
        · intro a
          rw [(counts a).2.1]
          have less := fewer a
          omega
        · intro a linked
          have held := turn.held a linked
          have same := turn.links a
          unfold Held at held ⊢
          rw [(counts a).1, (counts a).2.1]
          have away : header.module.address ≠ a := by
            rintro rfl
            have there := count_pos linked
            omega
          simpa [away] using held

end Turns

end Ubiqos.Modules
