import Ubiqos.Disk.Lending
import Ubiqos.Fat.Remembered
import Ubiqos.Lib.Along

/-!
The read cache over whole runs. Calls and mounts come in any order, on a device that may
fail. Each read is set beside the same read from the same state with the cache emptied.
The cache keeps the first 63 bytes of a path only, so the state has the whole of it beside
the library, where the code has nothing.
-/

namespace Ubiqos.Disk

open Fat Prog Machine

inductive Use
  | mount
  | call (c : Call)

structure Asked where
  use : Use
  faults : List (Option Block)

structure Session where
  lib : Library
  origin : List Byte

def Call.originAfter (c : Call) (s : Fs) (origin : List Byte) : List Byte :=
  match c with
  | .readAt path _ _ => s.originAfter path.bytes origin
  | _ => origin

def Session.facing (s : Session) (faults : List (Option Block)) : Session :=
  { s with lib := { s.lib with fs := { s.lib.fs with faults := faults } } }

def Session.use (s : Session) : Use → Option Session
  | .mount => (fatMount.run s.lib).map fun r => { s with lib := r.2 }
  | .call c => ((onFs c.run).run s.lib).map fun r => ⟨r.2, c.originAfter s.lib.fs s.origin⟩

def step (s : Option Session) (e : Asked) : Option Session :=
  s.bind fun s => (s.facing e.faults).use e.use

def Unseen (s : Option Session) (e : Asked) : Prop :=
  match s, e.use with
  | some s, .call (.readAt path offset len) => ∀ r : ReadCache, r.valid = false →
      ((Fat.readAt path offset len).run (s.facing e.faults).lib.fs).map (·.1) =
        ((Fat.readAt path offset len).run { (s.facing e.faults).lib.fs with ra := r }).map (·.1)
  | _, _ => True

/-- A read from the cache names the file by the whole path it was put there under; the
device answers it, and the lookup that is saved does not depend on what the memory of its
accumulators held. A lookup that is made on a device that may fail does not go up. -/
def Told (s : Option Session) (e : Asked) : Prop :=
  match s, e.use with
  | some s, .call (.readAt path _ _) =>
    (s.lib.fs.hit path.bytes = true →
      s.origin = path.bytes ∧ e.faults = [] ∧ Decided s.lib.fs.volume s.lib.fs.card path.bytes) ∧
    (s.lib.fs.hit path.bytes = false →
      e.faults = [] ∨ goesUp ∉ components (parentOf path.bytes))
  | _, _ => True

def Truthful (s : Option Session) : Prop :=
  ∀ t ∈ s, t.lib.fs.ra.valid = true → Remembers t.lib.fs t.origin

section Steps
variable {s t : Session}

theorem frames_onFs {α τ : Type} {x : Prog Fs α} {view : Fs → τ} (frames : Frames x view) :
    Frames (onFs x) fun l => view l.fs := by
  intro l a m runs
  obtain ⟨⟨b, u⟩, inner, same⟩ := Option.map_eq_some_iff.mp runs
  cases same
  exact frames l.fs b u inner

def kept (l : Library) : Bool := l.fs.ra.valid

theorem frames_onSector (lba : Nat) : Frames (onSector lba) kept :=
  frames_onFs (frames_readSector unwritten_cached.1 lba)

theorem frames_mountAt (vbr : Nat) : Frames (mountAt vbr) kept := by
  unfold mountAt
  apply frames_get
  intro l
  refine Frames.bind (frames_modify fun _ => rfl) fun _ => ?_
  apply frames_ite frames_pure
  apply frames_ite frames_pure
  exact Frames.bind (frames_modify fun _ => rfl) fun _ => frames_pure

theorem mount_forgets {ok : Bool} {l m : Library} (runs : fatMount.run l = some (ok, m)) :
    m.fs.ra.valid = false := by
  unfold fatMount at runs
  change kept m = false
  refine Frames.after ?_ ?_ runs
  · intro _ m forgotten
    cases forgotten
    rfl
  · intro _
    apply (frames_onSector 0).bind
    intro ok
    apply frames_ite _ frames_pure
    apply frames_get
    intro l
    apply frames_ite frames_pure
    refine Frames.bind (frames_modify fun _ => rfl) fun _ => ?_
    apply frames_ite (frames_mountAt 0)
    apply frames_ite frames_pure
    apply (frames_onSector _).bind
    intro ok
    exact frames_ite (frames_mountAt _) frames_pure

theorem call_leaves {c : Call} {s t : Fs} {reply : Reply} (runs : c.run.run s = some (reply, t)) :
    (∃ path offset len, c = .readAt path offset len) ∨ t.ra.valid = false ∨
      t.volume = s.volume ∧ t.card = s.card ∧ t.ra = s.ra ∧
        ∀ s origin, c.originAfter s origin = origin := by
  cases c with
  | readAt path offset len => exact .inl ⟨path, offset, len, rfl⟩
  | stat path =>
    obtain ⟨a, u, inner, rest⟩ := run_bind_some runs
    cases rest
    exact .inr (.inr ⟨frames_stat unread_volume path _ _ _ inner,
      frames_stat unread_card path _ _ _ inner, frames_stat unwritten_ra.1 path _ _ _ inner,
      fun _ _ => rfl⟩)
  | statNth path index =>
    obtain ⟨a, u, inner, rest⟩ := run_bind_some runs
    cases rest
    exact .inr (.inr ⟨frames_statNth unread_volume path index _ _ _ inner,
      frames_statNth unread_card path index _ _ _ inner,
      frames_statNth unwritten_ra.1 path index _ _ _ inner, fun _ _ => rfl⟩)
  | writeAt path offset buf len =>
    obtain ⟨a, u, inner, rest⟩ := run_bind_some runs
    cases rest
    exact .inr (.inl (walk_writeAt writes_cached forgets _ _ _ _ _ _ _ inner))
  | remove path =>
    obtain ⟨a, u, inner, rest⟩ := run_bind_some runs
    cases rest
    exact .inr (.inl (walk_remove writes_cached forgets _ _ _ _ inner))
  | rename source target =>
    obtain ⟨a, u, inner, rest⟩ := run_bind_some runs
    cases rest
    exact .inr (.inl (walk_rename writes_cached forgets _ _ _ _ _ inner))
  | mkdir path =>
    obtain ⟨a, u, inner, rest⟩ := run_bind_some runs
    cases rest
    exact .inr (.inl (walk_mkdir writes_cached forgets _ _ _ _ inner))
  | rmdir path =>
    obtain ⟨a, u, inner, rest⟩ := run_bind_some runs
    cases rest
    exact .inr (.inl (walk_rmdir writes_cached forgets _ _ _ _ inner))

theorem read_leaves {path : CString} {offset len : BitVec 32} {faults : List (Option Block)}
    (told : Told (some s) ⟨.call (.readAt path offset len), faults⟩) (truth : Truthful (some s))
    (reached : step (some s) ⟨.call (.readAt path offset len), faults⟩ = some t) :
    t.lib.fs.volume = s.lib.fs.volume ∧ t.lib.fs.card = s.lib.fs.card ∧
      (t.lib.fs.ra.valid = true → Remembers t.lib.fs t.origin) := by
  obtain ⟨⟨reply, m⟩, runs, rfl⟩ := Option.map_eq_some_iff.mp reached
  obtain ⟨⟨reply', u⟩, inner, same⟩ := Option.map_eq_some_iff.mp runs
  cases same
  obtain ⟨a, v, read, rest⟩ := run_bind_some inner
  cases rest
  have before : (s.facing faults).lib.fs.ra.valid = true →
      Remembers (s.facing faults).lib.fs s.origin := fun valid =>
    (truth s rfl valid).congr rfl rfl rfl
  exact readAt_remembers told.2 before read

variable {state : Option Session}

theorem step_truthful {asked : Asked} (told : Told state asked)
    (truth : Truthful state) : Truthful (step state asked) := by
  intro t reached valid
  obtain ⟨use, faults⟩ := asked
  obtain ⟨s, rfl, used⟩ := Option.bind_eq_some_iff.mp reached
  cases use with
  | mount =>
    obtain ⟨⟨ok, m⟩, runs, rfl⟩ := Option.map_eq_some_iff.mp used
    rw [mount_forgets runs] at valid
    cases valid
  | call c =>
    obtain ⟨⟨reply, m⟩, runs, rfl⟩ := Option.map_eq_some_iff.mp used
    obtain ⟨⟨reply', u⟩, inner, same⟩ := Option.map_eq_some_iff.mp runs
    cases same
    have before : (s.facing faults).lib.fs.ra.valid = true →
        Remembers (s.facing faults).lib.fs s.origin := fun valid =>
      (truth s rfl valid).congr rfl rfl rfl
    rcases call_leaves inner with ⟨path, offset, len, rfl⟩ | none | ⟨volume, card, ra, origin⟩
    · exact (read_leaves told truth used).2.2 valid
    · rw [none] at valid
      cases valid
    · rw [ra] at valid
      have after := (before valid).congr volume card ra
      rwa [← origin (s.facing faults).lib.fs s.origin] at after

theorem step_unseen {asked : Asked} (told : Told state asked)
    (truth : Truthful state) : Unseen state asked := by
  obtain ⟨use, faults⟩ := asked
  cases state with
  | none => trivial
  | some s =>
    cases use with
    | mount => trivial
    | call c =>
      cases c with
      | readAt path offset len =>
        intro r invalid
        by_cases hit : s.lib.fs.hit path.bytes = true
        · obtain ⟨same, answers, decided⟩ := told.1 hit
          have valid : s.lib.fs.ra.valid = true := by
            simp only [Fs.hit, Bool.and_eq_true] at hit
            exact hit.1
          have remembers := truth s rfl valid
          rw [same] at remembers
          exact readAt_hit (s := (s.facing faults).lib.fs) path offset len
            ⟨answers, rfl, rfl, by simp⟩ hit (remembers.congr rfl rfl rfl) decided invalid
        · have miss : s.lib.fs.hit path.bytes = false := by simpa using hit
          have missed : ({ (s.facing faults).lib.fs with ra := r } : Fs).hit path.bytes = false := by
            simp [Fs.hit, invalid]
          exact (readAt_miss path offset len).value ⟨miss, missed, r, rfl⟩
      | _ => trivial

/-- In a run of calls and mounts each of which is told of, from a library whose cache is
empty, no read returns anything but what it returns when the cache is emptied before it. -/
theorem reads_unseen {s : Session} {events : List Asked} (empty : s.lib.fs.ra.valid = false)
    (told : Along step Told (some s) events) : Along step Unseen (some s) events := by
  have start : Truthful (some s) := by
    intro t same valid
    cases same
    rw [empty] at valid
    cases valid
  exact along_meanwhile Truthful told start (fun _ _ => step_truthful) (fun _ _ => step_unseen)

end Steps

def mounted (root : Block) : Session := ⟨⟨strayed chainEnd root, 0, 9⟩, []⟩

def readsOne (path : CString) : Asked := ⟨.call (.readAt path 0 1), []⟩

/-- The file `A` of one byte. -/
def plainSector : Block :=
  setEntry goneSector 0 (wr32 (wr16 (Function.update (nameEntry (padded 11 [chr 'A'])) 11 0x20) 26 3) 28 1)

theorem plain_decided :
    Decided (strayed chainEnd plainSector).volume (strayed chainEnd plainSector).card fileA.bytes := by
  have chain : (strayed chainEnd plainSector).readChain 2 = [2] := by decide +kernel
  have root : components (parentOf fileA.bytes) = [] := by decide +kernel
  apply decided_of_steady
  rw [root]
  intro name83 wantLong
  apply steady_of_whole
  have slots : cardSlots (strayed chainEnd plainSector).volume (strayed chainEnd plainSector).card
      ((strayed chainEnd plainSector).readChain 2) = sectorSlots 5 plainSector := by
    rw [chain]
    rfl
  intro slot member
  have inside : slot ∈ sectorSlots 5 plainSector := slots ▸ member
  simp only [sectorSlots, List.mem_map, List.mem_range] at inside
  obtain ⟨k, small, rfl⟩ := inside
  have whole : ∀ k : Fin 16, (entryAt plainSector (32 * k)).fragment = false := by decide
  exact whole ⟨k, small⟩

theorem reads_unseen_twice :
    Along step Unseen (some (mounted plainSector)) [readsOne fileA, readsOne fileA] := by
  apply reads_unseen rfl
  have first : Told (some (mounted plainSector)) (readsOne fileA) :=
    ⟨Bool.noConfusion, fun _ => .inl rfl⟩
  refine ⟨first, ?_, trivial⟩
  have filled : (step (some (mounted plainSector)) (readsOne fileA)).map (·.origin) =
      some fileA.bytes := by decide +kernel
  cases reached : step (some (mounted plainSector)) (readsOne fileA) with
  | none => trivial
  | some t =>
    rw [reached, Option.map_some, Option.some.injEq] at filled
    have empty : Truthful (some (mounted plainSector)) := by
      intro t same valid
      cases same
      cases valid
    obtain ⟨volume, card, _⟩ := read_leaves first empty reached
    refine ⟨fun _ => ⟨filled, rfl, ?_⟩, fun _ => .inl rfl⟩
    rw [volume, card]
    exact plain_decided

def manyX : List Byte := List.replicate 63 (chr 'x')

def longX : CString := ⟨chr '/' :: manyX, by decide⟩

/-- As much of `longX` as the cache keeps. -/
def shortX : CString := ⟨longX.bytes.take 63, by decide⟩

/-- The file `longX` of one byte, behind the fragments of its name. -/
def longSector : Block :=
  setEntry ((List.range 5).foldl
      (fun b k => setEntry b (32 * k) (fragmentFor manyX (shortFromLong manyX 1) 5 (5 - k))) fun _ => 0)
    160 (wr32 (wr16 (Function.update (nameEntry (shortFromLong manyX 1)) 11 0x20) 26 3) 28 1)

theorem reads_seen_cut :
    ¬ Along step Unseen (some (mounted longSector)) [readsOne longX, readsOne shortX] := by
  have told : (step (some (mounted longSector)) (readsOne longX)).map (fun t =>
      (((Fat.readAt shortX 0 1).run (t.facing []).lib.fs).map (·.1), ((Fat.readAt shortX 0 1).run
        { (t.facing []).lib.fs with ra := ⟨[], false, 0, 0, 0, 0⟩ }).map (·.1))) =
      some (some (1, [0x45]), some (-1, [])) := by
    decide +kernel
  rintro ⟨-, unseen, -⟩
  cases reached : step (some (mounted longSector)) (readsOne longX) with
  | none =>
    rw [reached] at told
    cases told
  | some t =>
    rw [reached] at told unseen
    obtain ⟨kept, emptied⟩ := Prod.mk.inj (Option.some.inj told)
    have same := kept.symm.trans ((unseen ⟨[], false, 0, 0, 0, 0⟩ rfl).trans emptied)
    cases same

end Ubiqos.Disk
