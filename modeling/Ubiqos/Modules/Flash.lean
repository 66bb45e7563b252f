import Ubiqos.Lib.Orbit
import Ubiqos.Lib.Words
import Ubiqos.Loader.Accepted
import Ubiqos.Modules.Naming

/-!
The flash image of `kernel/flashmod.c`: two regions of modules that lie one behind the
other. A walk goes from a header to the next by a sum of thirty-two bits, and ends at
the first place that holds no module.
-/

namespace Ubiqos.Modules

open Orbit
open Loader (Word headerBytes verifyHeader)

/-- What the kernel reads at an address. -/
abbrev Space := Word → Byte

def headerAt (mem : Space) (p : Word) : Loader.Header :=
  Loader.headerIn fun i => mem (p + BitVec.ofNat 32 i)

/-- Where the image is laid: the system's region and the application's behind it. -/
structure Layout where
  moduleBase : Word
  appBase : Word
  flashEnd : Word
  first : moduleBase.toNat ≤ appBase.toNat
  second : appBase.toNat ≤ flashEnd.toNat
  low : flashEnd.toNat + 60 ≤ 2 ^ 32

structure Region where
  base : Word
  stop : Word
  ordered : base.toNat ≤ stop.toNat
  low : stop.toNat + 60 ≤ 2 ^ 32

def Layout.system (l : Layout) : Region :=
  ⟨l.moduleBase, l.appBase, l.first, by have := l.second; have := l.low; omega⟩

def Layout.application (l : Layout) : Region := ⟨l.appBase, l.flashEnd, l.second, l.low⟩

def wholeFlash : Layout := ⟨0x10100000, 0x10800000, 0x11000000, by decide, by decide, by decide⟩

section Walks
variable (machine : Loader.Machine) (mem : Space)

def nameSource (p : Word) : Buffer := fun i => mem (p + (headerAt mem p).nameOffset + BitVec.ofNat 32 i)

def nameFromModule (p : Word) : List Byte := copied (nameSource mem p) (nameLen - 1)

/-- A step from `p`: where the next module may lie, if there is one here. -/
def flashStep (stop p : Word) : Option Word :=
  let m := headerAt mem p
  if stop ≤ p + 56 then none
  else if m.syncCode ≠ 0x0509000B then none
  else if m.moduleSize = 0 ∨ stop < p + m.moduleSize then none
  else if !verifyHeader machine m then none
  else some (p + ((m.moduleSize + 3) &&& ~~~3))

/-- `ubiqos_flash_nth`, with the name. -/
def flashNth (l : Layout) (index : Nat) : Option (Word × List Byte) :=
  match nth (flashStep machine mem l.appBase) index l.moduleBase with
  | .inl p => some (p, nameFromModule mem p)
  | .inr index =>
    match nth (flashStep machine mem l.flashEnd) index l.appBase with
    | .inl p => some (p, nameFromModule mem p)
    | .inr _ => none

/-- `scan_region` in its loop, and the modules it has met. -/
structure Scan where
  p : Word
  found : Nat
  directory : Directory
  met : List (Word × List Byte)

-- What the directory reads of the module at an address.
variable (described : Word → Header)

def registerDescriptor (d : Directory) (p : Word) (name : List Byte) : Directory :=
  let m := headerAt mem p
  if m.typeLang >>> 8 = 3 ∧ (m.attrRev >>> 8) &&& 0x10 = 0 then
    (moddirAddResident [] d (described p) (bufferOf name)).1
  else d

def scanTurn (stop : Word) (s : Scan) : Option Scan :=
  let m := headerAt mem s.p
  if s.p + 56 < stop then
    if m.syncCode ≠ 0x0509000B then none
    else if m.moduleSize = 0 ∨ stop < s.p + m.moduleSize then none
    else if !verifyHeader machine m then none
    else
      let name := nameFromModule mem s.p
      some
        { p := s.p + ((m.moduleSize + 3) &&& ~~~3)
          found := s.found + 1
          directory := registerDescriptor mem described s.directory s.p name
          met := s.met ++ [(s.p, name)] }
  else none

/-- `scan_region`, when so many turns are enough for it. -/
def scanRegion (stop : Word) : Nat → Scan → Option Scan
  | 0, _ => none
  | turns + 1, s =>
    match scanTurn machine mem described stop s with
    | none => some s
    | some next => scanRegion stop turns next

/-- `ubiqos_flash_scan`: both regions, and the modules of both. -/
def scanImage (l : Layout) (turns : Nat) (d : Directory) : Option Scan :=
  match scanRegion machine mem described l.appBase turns ⟨l.moduleBase, 0, d, []⟩ with
  | none => none
  | some s => scanRegion machine mem described l.flashEnd turns { s with p := l.appBase }

def headerReads (p : Word) : List Word := (List.range headerBytes).map fun i => p + BitVec.ofNat 32 i

def nameReads (p : Word) : List Word :=
  (List.range (min (nameLen - 1) ((nameFromModule mem p).length + 1))).map fun i =>
    p + (headerAt mem p).nameOffset + BitVec.ofNat 32 i

def readsAt (stop p : Word) : List Word :=
  if stop ≤ p + 56 then []
  else headerReads p ++ if (flashStep machine mem stop p).isSome then nameReads mem p else []

def Region.Holds (r : Region) (a : Word) : Prop := r.base.toNat ≤ a.toNat ∧ a.toNat < r.stop.toNat

/-- The scan and the steps end, they stay in the region, and a number finds the module
that the scan met under it. -/
structure Walks (l : Layout) (d : Directory) : Prop where
  scans : ∃ turns s, scanImage machine mem described l turns d = some s
  steps : ∀ r ∈ [l.system, l.application], Halts (flashStep machine mem r.stop) r.base
  inside : ∀ r ∈ [l.system, l.application], ∀ p, Passes (flashStep machine mem r.stop) r.base p →
    ∀ a ∈ readsAt machine mem r.stop p, r.Holds a
  same : ∀ turns s, scanImage machine mem described l turns d = some s →
    s.found = s.met.length ∧ (∀ i, flashNth machine mem l i = s.met[i]?) ∧
      ∀ n m one two, walk (flashStep machine mem l.appBase) n l.moduleBase = some one →
        walk (flashStep machine mem l.flashEnd) m l.appBase = some two →
          s.met = (one ++ two).map fun p => (p, nameFromModule mem p)

def rounded (size : Nat) : Nat := (size + 3) % 2 ^ 32 / 4 * 4

/-- A module of the image, by the numbers in its header. The end is a sum of thirty-two bits. -/
structure ModuleAt (r : Region) (p : Word) : Prop where
  room : p.toNat + headerBytes < r.stop.toNat
  sync : (headerAt mem p).syncCode = 0x0509000B
  sized : (headerAt mem p).moduleSize ≠ 0
  ends : (p.toNat + (headerAt mem p).moduleSize.toNat) % 2 ^ 32 ≤ r.stop.toNat
  sound : verifyHeader machine (headerAt mem p) = true

def Behind (r : Region) (p q : Word) : Prop :=
  ModuleAt machine mem r p ∧ q.toNat = (p.toNat + rounded (headerAt mem p).moduleSize.toNat) % 2 ^ 32

abbrev Chain (r : Region) : Word → Word → Prop := Relation.ReflTransGen (Behind machine mem r)

/-- A name is read up to its end, and fifteen bytes of it at most. -/
def NameInside (r : Region) (p : Word) : Prop :=
  let start := (p.toNat + (headerAt mem p).nameOffset.toNat) % 2 ^ 32
  r.base.toNat ≤ start ∧ start + min (nameLen - 1) ((nameFromModule mem p).length + 1) ≤ r.stop.toNat

/-- A module in the chain of headers whose size wraps leads to no place below the region and to none
that leads back to it, and each has its name in the region. -/
def Chained (r : Region) : Prop :=
  ∀ p q, Chain machine mem r r.base p → Behind machine mem r p q →
    (2 ^ 32 ≤ p.toNat + (headerAt mem p).moduleSize.toNat →
      r.base.toNat ≤ q.toNat ∧ ¬ Chain machine mem r q p) ∧ NameInside mem r p

end Walks

section Steps
variable {machine : Loader.Machine} {mem : Space} {r : Region} {p q : Word}

theorem toNat_rounded (size : Word) : ((size + 3) &&& ~~~3).toNat = rounded size.toNat :=
  (Words.toNat_and_not_ones (k := 2) (size + 3)).trans (by rw [BitVec.toNat_add]; rfl)

theorem Behind.low (behind : Behind machine mem r p q) : q.toNat ≤ r.stop.toNat + 3 := by
  obtain ⟨module, place⟩ := behind
  have ends := module.ends
  have low := r.low
  unfold rounded at place
  omega

/-- Only by a size that wraps does the chain not lead up. -/
theorem Behind.climbs (behind : Behind machine mem r p q)
    (short : p.toNat + (headerAt mem p).moduleSize.toNat < 2 ^ 32) : p.toNat < q.toNat := by
  obtain ⟨module, place⟩ := behind
  have ends := module.ends
  have low := r.low
  have some : (headerAt mem p).moduleSize.toNat ≠ 0 := fun none => module.sized (BitVec.eq_of_toNat_eq none)
  unfold rounded at place
  omega

theorem room_iff (low : p.toNat ≤ r.stop.toNat + 3) : p + 56 < r.stop ↔ p.toNat + 56 < r.stop.toNat := by
  have bound := r.low
  have sum : (p + 56).toNat = p.toNat + 56 := by
    rw [BitVec.toNat_add]
    exact Nat.mod_eq_of_lt (by simp; omega)
  rw [BitVec.lt_def, sum]

theorem flashStep_behind (low : p.toNat ≤ r.stop.toNat + 3) :
    flashStep machine mem r.stop p = some q ↔ Behind machine mem r p q := by
  have room := room_iff low
  have ends : r.stop < p + (headerAt mem p).moduleSize ↔
      ¬ (p.toNat + (headerAt mem p).moduleSize.toNat) % 2 ^ 32 ≤ r.stop.toNat := by
    rw [BitVec.lt_def, BitVec.toNat_add, Nat.not_le]
  have next : p + (((headerAt mem p).moduleSize + 3) &&& ~~~3) = q ↔
      q.toNat = (p.toNat + rounded (headerAt mem p).moduleSize.toNat) % 2 ^ 32 := by
    rw [← toNat_rounded, ← BitVec.toNat_add, ← BitVec.toNat_inj, eq_comm]
  rw [flashStep]
  constructor
  · intro leads
    split at leads
    · cases leads
    · next space =>
      split at leads
      · cases leads
      · next sync =>
        split at leads
        · cases leads
        · next credible =>
          split at leads
          · cases leads
          · next sound =>
            rw [not_or, ends, not_not] at credible
            exact ⟨⟨room.mp (BitVec.not_le.mp space), not_not.mp sync, credible.1, credible.2,
              by simpa using sound⟩, next.mp (Option.some.inj leads)⟩
  · rintro ⟨module, place⟩
    rw [if_neg (BitVec.not_le.mpr (room.mpr module.room)), if_neg (not_not.mpr module.sync),
      if_neg (not_or.mpr ⟨module.sized, fun beyond => ends.mp beyond module.ends⟩), if_neg (by simp [module.sound]),
      next.mpr place]

theorem Region.base_low (r : Region) : r.base.toNat ≤ r.stop.toNat + 3 := r.ordered.trans (Nat.le_add_right _ 3)

theorem chain_low (chain : Chain machine mem r p q) (low : p.toNat ≤ r.stop.toNat + 3) :
    q.toNat ≤ r.stop.toNat + 3 := by
  cases chain with
  | refl => exact low
  | tail _ behind => exact behind.low

theorem passes_chain (low : p.toNat ≤ r.stop.toNat + 3) :
    Passes (flashStep machine mem r.stop) p q ↔ Chain machine mem r p q := by
  constructor
  · intro passes
    induction passes with
    | refl => exact .refl
    | tail _ leads ih => exact ih.tail ((flashStep_behind (chain_low ih low)).mp leads)
  · intro chain
    induction chain with
    | refl => exact .refl
    | tail before behind ih => exact ih.tail ((flashStep_behind (chain_low before low)).mpr behind)

end Steps

section Scans
variable {machine : Loader.Machine} {mem : Space} {described : Word → Header} {stop : Word}

def Scan.meets (mem : Space) (described : Word → Header) (s : Scan) (p next : Word) : Scan where
  p := next
  found := s.found + 1
  directory := registerDescriptor mem described s.directory p (nameFromModule mem p)
  met := s.met ++ [(p, nameFromModule mem p)]

theorem scanTurn_step (s : Scan) : scanTurn machine mem described stop s =
    (flashStep machine mem stop s.p).map (s.meets mem described s.p) := by
  rw [scanTurn, flashStep]
  by_cases room : s.p + 56 < stop
  · rw [if_pos room, if_neg (BitVec.not_le.mpr room)]
    dsimp only
    split
    · rfl
    · split
      · rfl
      · split <;> rfl
  · rw [if_neg room, if_pos (BitVec.not_lt.mp room)]
    rfl

structure Met (mem : Space) (described : Word → Header) (s t : Scan) (places : List Word) :
    Prop where
  found : t.found = s.found + places.length
  directory : t.directory = places.foldl
    (fun d p => registerDescriptor mem described d p (nameFromModule mem p)) s.directory
  met : t.met = s.met ++ places.map fun p => (p, nameFromModule mem p)

theorem scanRegion_walk (n : Nat) (s : Scan) :
    match walk (flashStep machine mem stop) n s.p with
    | none => scanRegion machine mem described stop n s = none
    | some places => ∃ t, scanRegion machine mem described stop n s = some t ∧
        Met mem described s t places := by
  induction n generalizing s with
  | zero => rfl
  | succ n ih =>
    cases found : flashStep machine mem stop s.p with
    | none =>
      rw [walk_stop found]
      refine ⟨s, ?_, rfl, rfl, (List.append_nil _).symm⟩
      rw [scanRegion, scanTurn_step, found]
      rfl
    | some q =>
      have turn : scanRegion machine mem described stop (n + 1) s =
          scanRegion machine mem described stop n (s.meets mem described s.p q) := by
        rw [scanRegion, scanTurn_step, found]
        rfl
      rw [walk_on found, turn]
      have rest := ih (s.meets mem described s.p q)
      have next : (s.meets mem described s.p q).p = q := rfl
      rw [next] at rest
      cases walked : walk (flashStep machine mem stop) n q with
      | none =>
        rw [walked] at rest
        exact rest
      | some places =>
        rw [walked] at rest
        obtain ⟨t, ends, count, registered, met⟩ := rest
        refine ⟨t, ends, ?_, registered, ?_⟩
        · have one : (s.meets mem described s.p q).found = s.found + 1 := rfl
          rw [count, one, List.length_cons]
          omega
        · rw [met, Scan.meets, List.append_assoc]
          rfl

end Scans

section Image
variable {machine : Loader.Machine} {mem : Space} {described : Word → Header} {l : Layout}
  {d : Directory}

theorem scanImage_walks {n : Nat} {t : Scan}
    (scanned : scanImage machine mem described l n d = some t) :
    ∃ one two, walk (flashStep machine mem l.appBase) n l.moduleBase = some one ∧
      walk (flashStep machine mem l.flashEnd) n l.appBase = some two ∧
      Met mem described ⟨l.moduleBase, 0, d, []⟩ t (one ++ two) := by
  have front := (@scanRegion_walk machine mem described l.appBase) n ⟨l.moduleBase, 0, d, []⟩
  rw [scanImage] at scanned
  cases first : walk (flashStep machine mem l.appBase) n l.moduleBase with
  | none =>
    rw [first] at front
    rw [front] at scanned
    cases scanned
  | some one =>
    rw [first] at front
    obtain ⟨s, ends, count, registered, met⟩ := front
    rw [ends] at scanned
    have back := (@scanRegion_walk machine mem described l.flashEnd) n { s with p := l.appBase }
    cases second : walk (flashStep machine mem l.flashEnd) n l.appBase with
    | none =>
      rw [second] at back
      dsimp only at scanned
      rw [back] at scanned
      cases scanned
    | some two =>
      rw [second] at back
      obtain ⟨u, ends', count', registered', met'⟩ := back
      dsimp only at scanned
      rw [ends'] at scanned
      cases scanned
      refine ⟨one, two, rfl, rfl, ?_, ?_, ?_⟩
      · rw [count', count, List.length_append]
        omega
      · rw [registered', registered, List.foldl_append]
      · rw [met', met, List.map_append, List.append_assoc]

theorem scanImage_of_halts (first : Halts (flashStep machine mem l.appBase) l.moduleBase)
    (second : Halts (flashStep machine mem l.flashEnd) l.appBase) :
    ∃ n t, scanImage machine mem described l n d = some t := by
  obtain ⟨n, one, here⟩ := first
  obtain ⟨m, two, there⟩ := second
  have front := (@scanRegion_walk machine mem described l.appBase) (max n m) ⟨l.moduleBase, 0, d, []⟩
  rw [walk_mono here (Nat.le_max_left n m)] at front
  obtain ⟨s, ends, _⟩ := front
  have back := (@scanRegion_walk machine mem described l.flashEnd) (max n m) { s with p := l.appBase }
  rw [walk_mono there (Nat.le_max_right n m)] at back
  obtain ⟨t, ends', _⟩ := back
  refine ⟨max n m, t, ?_⟩
  rw [scanImage, ends]
  exact ends'

theorem flashNth_walks {n m : Nat} {one two : List Word}
    (first : walk (flashStep machine mem l.appBase) n l.moduleBase = some one)
    (second : walk (flashStep machine mem l.flashEnd) m l.appBase = some two) (i : Nat) :
    flashNth machine mem l i = ((one ++ two).map fun p => (p, nameFromModule mem p))[i]? := by
  rw [flashNth, walk_nth first, List.getElem?_map]
  by_cases front : i < one.length
  · rw [dif_pos front, List.getElem?_append_left front, List.getElem?_eq_getElem front]
    rfl
  · rw [dif_neg front, List.getElem?_append_right (Nat.le_of_not_lt front)]
    dsimp only
    rw [walk_nth second]
    by_cases back : i - one.length < two.length
    · rw [dif_pos back, List.getElem?_eq_getElem back]
      rfl
    · rw [dif_neg back, List.getElem?_eq_none (Nat.le_of_not_lt back)]
      rfl

variable {r : Region}

theorem headerReads_holds {p : Word} (room : p.toNat + 56 < r.stop.toNat) :
    (∀ a ∈ headerReads p, r.Holds a) ↔ r.base.toNat ≤ p.toNat := by
  have low := r.low
  have at' : ∀ i < 56, (p + BitVec.ofNat 32 i).toNat = p.toNat + i := by
    intro i small
    rw [BitVec.toNat_add, BitVec.toNat_ofNat]
    omega
  simp only [headerReads, headerBytes, List.mem_map, List.mem_range, forall_exists_index, and_imp,
    forall_apply_eq_imp_iff₂, Region.Holds]
  constructor
  · intro all
    have first := (all 0 (by decide)).1
    rwa [at' 0 (by decide)] at first
  · intro above i small
    rw [at' i small]
    omega

theorem readsAt_room {p a : Word} {stop : Word} (room : p + 56 < stop) :
    a ∈ readsAt machine mem stop p ↔
      a ∈ headerReads p ∨ (flashStep machine mem stop p).isSome ∧ a ∈ nameReads mem p := by
  rw [readsAt, if_neg (BitVec.not_le.mpr room), List.mem_append]
  split
  · next accepted => simp [accepted]
  · next refused => simp [refused]

theorem nameReads_holds {p : Word} : (∀ a ∈ nameReads mem p, r.Holds a) ↔ NameInside mem r p := by
  have low := r.low
  have count : 0 < min (nameLen - 1) ((nameFromModule mem p).length + 1) := by
    unfold nameLen
    omega
  have few : min (nameLen - 1) ((nameFromModule mem p).length + 1) ≤ 15 := Nat.min_le_left _ _
  simp only [nameReads, NameInside, List.mem_map, List.mem_range, forall_exists_index, and_imp,
    forall_apply_eq_imp_iff₂, Region.Holds, BitVec.toNat_add, BitVec.toNat_ofNat]
  generalize min (nameLen - 1) ((nameFromModule mem p).length + 1) = n at count few
  have small := Nat.mod_lt (p.toNat + (headerAt mem p).nameOffset.toNat) (Nat.two_pow_pos 32)
  generalize (p.toNat + (headerAt mem p).nameOffset.toNat) % 2 ^ 32 = start at small ⊢
  constructor
  · intro all
    have first := all 0 count
    have last := all (n - 1) (by omega)
    omega
  · intro inside i less
    omega

theorem chained_of_inside (halts : Halts (flashStep machine mem r.stop) r.base)
    (inside : ∀ p, Passes (flashStep machine mem r.stop) r.base p →
      ∀ a ∈ readsAt machine mem r.stop p, r.Holds a) : Chained machine mem r := by
  intro p q chain behind
  have passes := (passes_chain r.base_low).mpr chain
  have low := chain_low chain r.base_low
  have leads := (flashStep_behind low).mpr behind
  have room := (room_iff low).mpr behind.1.room
  have headed : ∀ {x : Word}, Chain machine mem r r.base x → x.toNat + 56 < r.stop.toNat →
      r.base.toNat ≤ x.toNat := by
    intro x reached space
    apply (headerReads_holds space).mp
    intro a member
    exact inside x ((passes_chain r.base_low).mpr reached) a
      ((readsAt_room ((room_iff (chain_low reached r.base_low)).mpr space)).mpr (Or.inl member))
  refine ⟨fun _ => ⟨?_, fun back => ?_⟩, nameReads_holds.mp fun a member => ?_⟩
  · -- a header below the region would be read
    by_contra below
    have above := headed chain behind.1.room
    have space := behind.1.room
    unfold headerBytes at space
    exact below (headed (chain.tail behind) (by omega))
  · exact halts.acyclic p q passes leads ((passes_chain behind.low).mpr back)
  · refine inside p passes a ((readsAt_room room).mpr (Or.inr ⟨?_, member⟩))
    rw [leads]
    rfl

theorem Chained.above (chained : Chained machine mem r) {p : Word} (chain : Chain machine mem r r.base p) :
    r.base.toNat ≤ p.toNat := by
  induction chain with
  | refl => exact le_rfl
  | @tail q _ before behind ih =>
    by_cases short : q.toNat + (headerAt mem q).moduleSize.toNat < 2 ^ 32
    · exact ih.trans (behind.climbs short).le
    · exact ((chained _ _ before behind).1 (Nat.le_of_not_lt short)).1

theorem Chained.inside (chained : Chained machine mem r) {p : Word}
    (passes : Passes (flashStep machine mem r.stop) r.base p) :
    ∀ a ∈ readsAt machine mem r.stop p, r.Holds a := by
  have chain := (passes_chain r.base_low).mp passes
  have low := chain_low chain r.base_low
  intro a member
  by_cases room : p + 56 < r.stop
  · rcases (readsAt_room room).mp member with header | ⟨accepted, name⟩
    · exact (headerReads_holds ((room_iff low).mp room)).mpr (chained.above chain) a header
    · obtain ⟨q, leads⟩ := Option.isSome_iff_exists.mp accepted
      exact nameReads_holds.mpr (chained p q chain ((flashStep_behind low).mp leads)).2 a name
  · rw [readsAt, if_pos (BitVec.not_lt.mp room)] at member
    cases member

instance word_finite : Finite Word :=
  Finite.of_injective BitVec.toFin fun _ _ => BitVec.eq_of_toFin_eq

theorem Chained.halts (chained : Chained machine mem r) :
    Halts (flashStep machine mem r.stop) r.base := by
  refine halts_iff_acyclic.mpr (acyclic_of_climbs BitVec.toNat fun p q passes leads => ?_)
  have chain := (passes_chain r.base_low).mp passes
  have behind := (flashStep_behind (chain_low chain r.base_low)).mp leads
  by_cases short : p.toNat + (headerAt mem p).moduleSize.toNat < 2 ^ 32
  · exact Or.inl (behind.climbs short)
  · rw [passes_chain behind.low]
    exact Or.inr ((chained p q chain behind).1 (Nat.le_of_not_lt short)).2

/-- Sizes that do not wrap are enough. -/
theorem chained_of_short (short : ∀ p, Chain machine mem r r.base p → ModuleAt machine mem r p →
    p.toNat + (headerAt mem p).moduleSize.toNat < 2 ^ 32 ∧ NameInside mem r p) : Chained machine mem r := by
  intro p q chain behind
  obtain ⟨fits, name⟩ := short p chain behind.1
  exact ⟨fun wraps => absurd fits (Nat.not_lt.mpr wraps), name⟩

theorem walks_iff : Walks machine mem described l d ↔
    Chained machine mem l.system ∧ Chained machine mem l.application := by
  constructor
  · intro walks
    have chained : ∀ r ∈ [l.system, l.application], Chained machine mem r := fun r region =>
      chained_of_inside (walks.steps r region) (walks.inside r region)
    exact ⟨chained _ (by simp), chained _ (by simp)⟩
  · rintro ⟨first, second⟩
    have both : ∀ r ∈ [l.system, l.application], Chained machine mem r := by
      intro r region
      rcases List.mem_pair.mp region with rfl | rfl
      · exact first
      · exact second
    refine ⟨scanImage_of_halts first.halts second.halts, fun r region => (both r region).halts,
      fun r region p passes => (both r region).inside passes, ?_⟩
    intro turns s scanned
    obtain ⟨one, two, here, there, met⟩ := scanImage_walks scanned
    have list : s.met = (one ++ two).map fun p => (p, nameFromModule mem p) := met.met
    refine ⟨?_, ?_, ?_⟩
    · rw [met.found, list, List.length_map, Nat.zero_add]
    · intro i
      rw [flashNth_walks here there, list]
    · intro n m one' two' here' there'
      rw [walk_unique here' here, walk_unique there' there, list]

/-- Both walks end, stay in their regions and meet the same modules exactly when every module of the
image whose size wraps leads on within its region, and each has its name there. It is enough that no size
wraps. -/
theorem flash_walks_iff :
    (Walks machine mem described l d ↔ Chained machine mem l.system ∧ Chained machine mem l.application) ∧
      ((∀ r ∈ [l.system, l.application], ∀ p, Chain machine mem r r.base p → ModuleAt machine mem r p →
          p.toNat + (headerAt mem p).moduleSize.toNat < 2 ^ 32 ∧ NameInside mem r p) →
        Walks machine mem described l d) :=
  ⟨walks_iff, fun short => walks_iff.mpr
    ⟨chained_of_short (short _ (by simp)), chained_of_short (short _ (by simp))⟩⟩

end Image

def endlessWords : List Word :=
  [0x0509000B, 0xFFFFFFFD, 56, 0x000A0300, 0, 0, 0, 0, 0, 0, 0, 0, 0, 0xfaecfcbf]

def endlessImage : Space := fun a => Loader.wordBytes endlessWords (a - 0x10100000).toNat

theorem endless_module : flashStep .rv32 endlessImage 0x10800000 0x10100000 = some 0x10100000 := by
  decide

theorem endless_walk : ¬ ∀ (machine : Loader.Machine) (mem : Space) (described : Word → Header)
    (l : Layout) (d : Directory), Walks machine mem described l d := by
  intro always
  have walks := always .rv32 endlessImage (fun _ => program) wholeFlash (moddirInit blank)
  have halts := walks.steps wholeFlash.system (by simp)
  exact halts.acyclic _ _ .refl endless_module .refl

end Ubiqos.Modules

/-!
What the directory lists: the modules that have an entry, and behind them those of the
flash image that have none, found by a walk that is made anew for each number.
-/

namespace Ubiqos.Modules

open Compact Machine Orbit
open Loader (Word)

section Listing
variable (flash : List Resident) (d : Directory)

/-- `ubiqos_moddir_count`. -/
def moddirCount : Nat :=
  flash.foldl (fun n m => if (entryNamed d (bufferOf m.name)).isNone then n + 1 else n) d.entries.count

def madeUp : List Resident → Nat → Option Resident
  | [], _ => none
  | m :: rest, want =>
    if (entryNamed d (bufferOf m.name)).isSome then madeUp rest want
    else
      match want with
      | 0 => some m
      | want + 1 => madeUp rest want

/-- `ubiqos_moddir_entry`. `old` is what the name of the last made up entry was. -/
def moddirEntry (old : Buffer) (index : Nat) : Option Entry :=
  if index < d.entries.count then some (d.entries.slot index)
  else (madeUp d flash (index - d.entries.count)).map fun m =>
    ⟨m.header, 0, false, nameCopy old (bufferOf m.name)⟩

def listed (old : Buffer) : List (List Byte) :=
  (List.range (moddirCount flash d)).filterMap fun i =>
    (moddirEntry flash d old i).map fun e => text e.name

/-- There is an entry for each number below the count and for no other, and the names are
those of the directory and the image, each once. -/
structure Lists (old : Buffer) : Prop where
  counted : ∀ i, (moddirEntry flash d old i).isSome ↔ i < moddirCount flash d
  whole : ∀ name, name ∈ listed flash d old ↔ name ∈ names d ∨ ∃ m ∈ flash, m.name = name
  once : (listed flash d old).Nodup

def unlisted : List Resident := flash.filter fun m => (entryNamed d (bufferOf m.name)).isNone

variable {flash d}

theorem moddirCount_eq : moddirCount flash d = d.entries.count + (unlisted flash d).length := by
  have counts : ∀ n, flash.foldl
      (fun n m => if (entryNamed d (bufferOf m.name)).isNone then n + 1 else n) n =
        n + (unlisted flash d).length := by
    induction flash with
    | nil => simp [unlisted]
    | cons m rest ih =>
      intro n
      rw [List.foldl_cons, ih, unlisted, unlisted, List.filter_cons]
      split
      · rw [List.length_cons]
        omega
      · rfl
  exact counts _

theorem madeUp_eq (want : Nat) : madeUp d flash want = (unlisted flash d)[want]? := by
  induction flash generalizing want with
  | nil => rfl
  | cons m rest ih =>
    cases entry : entryNamed d (bufferOf m.name) with
    | some i => simpa [madeUp, unlisted, entry] using ih want
    | none =>
      cases want with
      | zero => simp [madeUp, unlisted, entry]
      | succ want => simpa [madeUp, unlisted, entry] using ih want

theorem moddirEntry_name (old : Buffer) (i : Nat) :
    (moddirEntry flash d old i).map (fun e => text e.name) =
      (names d ++ (unlisted flash d).map Resident.name)[i]? := by
  have length : (names d).length = d.entries.count := by simp [names]
  rw [moddirEntry]
  split
  · next inside =>
    rw [List.getElem?_append_left (by omega), names, List.getElem?_map, items_get _ i inside]
  · next outside =>
    rw [List.getElem?_append_right (by omega), madeUp_eq, length, List.getElem?_map, Option.map_map]
    congr 1
    funext m
    have short : (text (bufferOf m.name)).length < nameLen := by
      rw [text_bufferOf]
      exact m.short
    exact (text_nameCopy short).trans (text_bufferOf m)

theorem filterMap_get {α : Type} (all : List α) :
    (List.range all.length).filterMap (fun i => all[i]?) = all := by
  induction all using List.reverseRecOn with
  | nil => rfl
  | append_singleton front last ih =>
    have before : (List.range front.length).filterMap (fun i => (front ++ [last])[i]?) = front := by
      refine Eq.trans (List.filterMap_congr fun i member => ?_) ih
      exact List.getElem?_append_left (List.mem_range.mp member)
    rw [List.length_append, List.length_singleton, List.range_succ, List.filterMap_append, before]
    simp

theorem listed_eq (old : Buffer) :
    listed flash d old = names d ++ (unlisted flash d).map Resident.name := by
  have count : moddirCount flash d = (names d ++ (unlisted flash d).map Resident.name).length := by
    rw [moddirCount_eq]
    simp [names]
  rw [listed, count]
  simp only [moddirEntry_name]
  exact filterMap_get _

theorem entryNamed_isNone {name : Buffer} : (entryNamed d name).isNone ↔ text name ∉ names d := by
  constructor
  · intro missed
    exact entryNamed_none (Option.isNone_iff_eq_none.mp missed)
  · intro absent
    cases found : entryNamed d name with
    | none => rfl
    | some i =>
      obtain ⟨inside, same⟩ := find_some found
      have isName : text (d.entries.slot i).name = text name := of_decide_eq_true same
      have member : text (d.entries.slot i).name ∈ names d := List.mem_map_of_mem (slot_mem inside)
      rw [isName] at member
      exact absurd member absent

theorem lists_iff (old : Buffer) :
    Lists flash d old ↔ (names d).Nodup ∧ ((unlisted flash d).map Resident.name).Nodup := by
  have apart : ∀ a ∈ names d, ∀ b ∈ (unlisted flash d).map Resident.name, a ≠ b := by
    rintro a entry b other rfl
    obtain ⟨m, member, rfl⟩ := List.mem_map.mp other
    have absent := entryNamed_isNone.mp (List.mem_filter.mp member).2
    rw [text_bufferOf] at absent
    exact absent entry
  have parts : (listed flash d old).Nodup ↔
      (names d).Nodup ∧ ((unlisted flash d).map Resident.name).Nodup := by
    rw [listed_eq, List.nodup_append]
    exact ⟨fun all => ⟨all.1, all.2.1⟩, fun both => ⟨both.1, both.2, apart⟩⟩
  constructor
  · intro lists
    exact parts.mp lists.once
  · intro both
    refine ⟨?_, ?_, parts.mpr both⟩
    · intro i
      have total : (names d ++ (unlisted flash d).map Resident.name).length = moddirCount flash d := by
        rw [moddirCount_eq]
        simp [names]
      have some : (moddirEntry flash d old i).isSome ↔
          ((names d ++ (unlisted flash d).map Resident.name)[i]?).isSome := by
        rw [← moddirEntry_name old i, Option.isSome_map]
      rw [some, ← total]
      simp
    · intro name
      rw [listed_eq, List.mem_append]
      constructor
      · rintro (entry | other)
        · exact Or.inl entry
        · obtain ⟨m, member, isName⟩ := List.mem_map.mp other
          exact Or.inr ⟨m, (List.mem_filter.mp member).1, isName⟩
      · rintro (entry | ⟨m, member, rfl⟩)
        · exact Or.inl entry
        · by_cases entry : m.name ∈ names d
          · exact Or.inl entry
          · have none : (entryNamed d (bufferOf m.name)).isNone := by
              rw [entryNamed_isNone, text_bufferOf]
              exact entry
            exact Or.inr (List.mem_map_of_mem (List.mem_filter.mpr ⟨member, none⟩))

end Listing

/-- In every directory a run leaves the listing is right exactly when the names of the
entries are apart, which they are as long as each link tells names apart, and so are the
names of those modules of the image that have none. -/
theorem listing_iff (flash : List Resident) (stale : Nat → Entry) (calls : List Call) (old : Buffer) :
    let d := calls.foldl (Call.step flash) (moddirInit stale)
    (Lists flash d old ↔ (names d).Nodup ∧ ((unlisted flash d).map Resident.name).Nodup) ∧
      (Along (Call.step flash) (fun d call => call.told flash d) (moddirInit stale) calls →
        (names d).Nodup) := by
  refine ⟨lists_iff old, fun told => ?_⟩
  exact along_invariant (fun d => (names d).Nodup) told (by simp [names, moddirInit, items])
    fun d call _ allowed once => (step_honest once call allowed).once

/-- A module in both regions is listed twice. -/
theorem listed_twice : ¬ ∀ (flash : List Resident) (stale : Nat → Entry) (calls : List Call)
    (old : Buffer), Lists flash (calls.foldl (Call.step flash) (moddirInit stale)) old := by
  intro always
  have once := (always [resident, resident] blank [] fun _ => 0).once
  revert once
  decide

end Ubiqos.Modules
