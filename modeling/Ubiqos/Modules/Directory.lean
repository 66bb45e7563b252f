import Mathlib.Algebra.BigOperators.Group.List.Basic
import Ubiqos.Kernel.Types
import Ubiqos.Lib.Packed

/-!
The module directory of `kernel/moddir.c`. An entry counts the links to one
module and goes with the last of them; an image the directory owns goes with
its entry. A module in flash has no entry until it is asked for. A name is
what a `char *` points at: the bytes up to the first zero are the text, and the
functions that compare a fixed number of bytes read on behind it.

What an image in flash or in memory says about itself comes with its header:
the fields the directory reads, and whether the table of a library or driver
carries the number of the kernel's interface.
-/

namespace Ubiqos.Modules

open Function Compact

abbrev Byte := BitVec 8
abbrev Buffer := Nat → Byte

def nameLen : Nat := 16
def maxModules : Nat := 32

inductive Kind where
  | program | driver | data | library | unknown
  deriving DecidableEq

structure Header where
  module : Module
  kind : Kind
  revision : Nat
  verified : Bool
  plain : Bool
  attrPrivate : Bool
  speaks : Bool
  deriving DecidableEq

/-- `ubiqos_module_entry_t`, without the flag nothing reads. -/
structure Entry where
  header : Header
  links : Nat
  owned : Bool
  name : Buffer

def Entry.address (e : Entry) : Addr := e.header.module.address

structure Resident where
  name : List Byte
  header : Header
  short : name.length < nameLen
  ended : 0 ∉ name

/-- `freed` lists the images that have been given back. -/
structure Directory where
  entries : Packed Entry
  freed : List Addr

def text (name : Buffer) : List Byte := ((List.range nameLen).map name).takeWhile (· ≠ 0)

/-- The first bytes of `src` that a copy with room for `room` of them takes. -/
def copied (src : Buffer) (room : Nat) : List Byte :=
  ((List.range room).map src).takeWhile (· ≠ 0)

def nameEq (a b : Buffer) : Bool := (List.range 11).all (fun i => a i = b i)

def nameCopy (dst src : Buffer) : Buffer := fun i =>
  let len := (copied src (nameLen - 1)).length
  if i < len then src i else if i = len then 0 else dst i

def lower (c : Byte) : Byte := if 0x41 ≤ c ∧ c ≤ 0x5a then c + 32 else c

def nameEqCi (a b : List Byte) : Bool := a.map lower = b.map lower

/-- A name as `flash_nth` leaves it in the caller's buffer. -/
def bufferOf (name : List Byte) : Buffer := fun i => name.getD i 0

def moddirInit (stale : Nat → Entry) : Directory := ⟨⟨stale, 0⟩, []⟩

def entryNamed (d : Directory) (name : Buffer) : Option Nat :=
  find d.entries (fun e => text e.name = text name)

def putLinks (d : Directory) (i links : Nat) : Directory :=
  { d with entries := put d.entries i { d.entries.slot i with links := links } }

def drop (d : Directory) (i : Nat) : Directory :=
  let e := d.entries.slot i
  ⟨swapOut d.entries i, if e.owned then e.address :: d.freed else d.freed⟩

/-- `alloc_entry`, the fields and `commit_entry`. -/
def register (d : Directory) (header : Header) (owned : Bool) (name : Buffer) : Directory :=
  { d with
    entries := push d.entries
      ⟨header, 0, owned, nameCopy (d.entries.slot d.entries.count).name name⟩ }

section Flash
variable (flash : List Resident)

def flashLookup (name : Buffer) : Option Header :=
  (flash.find? (fun m => m.name = text name)).map Resident.header

def supersedes (d : Directory) (fresh : Header) (name : Buffer) (fromCard : Bool) :
    Directory × Bool :=
  match entryNamed d name with
  | none =>
    if !fromCard then (d, true)
    else
      match flashLookup flash name with
      | none => (d, true)
      | some resident => (d, resident.revision < fresh.revision)
  | some i =>
    let old := d.entries.slot i
    if old.owned ∧ fresh.revision = old.header.revision then (d, false)
    else if fresh.revision ≤ old.header.revision then (d, false)
    else if old.links ≠ 0 then (d, false)
    else (drop d i, true)

def add (d : Directory) (header : Header) (name : Buffer) (image : Bool) : Directory × Bool :=
  if !header.verified then (d, false)
  else
    match supersedes flash d header name image with
    | (d, false) => (d, false)
    | (d, true) =>
      if maxModules ≤ d.entries.count then (d, false)
      else (register d header image name, true)

def moddirAddResident (d : Directory) (header : Header) (name : Buffer) : Directory × Bool :=
  add flash d header name false

def scanModule (d : Directory) (m : Resident) : Directory :=
  if m.header.kind = .data ∧ !m.header.plain then
    (moddirAddResident flash d m.header (bufferOf m.name)).1
  else d

def flashScan (d : Directory) : Directory := flash.foldl (scanModule flash) d

def moddirAddImage (d : Directory) (image : Header) (name : Buffer) : Directory × Bool :=
  add flash d image name true

def adoptFromFlash (d : Directory) (name : Buffer) : Directory × Option Nat :=
  match flashLookup flash name with
  | none => (d, none)
  | some m =>
    if maxModules ≤ d.entries.count then (d, none)
    else (register d m false name, some d.entries.count)

def moddirMatch (d : Directory) (user : Buffer) : Directory × Option Buffer :=
  match find d.entries (fun e => nameEqCi (text e.name) (text user)) with
  | some i => (d, some (d.entries.slot i).name)
  | none =>
    match flash.find? (fun m => nameEqCi m.name (text user)) with
    | none => (d, none)
    | some m =>
      match adoptFromFlash flash d (bufferOf m.name) with
      | (d, none) => (d, none)
      | (d, some i) => (d, some (d.entries.slot i).name)

/-- `links++` in a word of thirty-two bits. -/
def bump (d : Directory) (i : Nat) : Directory :=
  putLinks d i (((d.entries.slot i).links + 1) % 2 ^ 32)

def moddirLink (d : Directory) (name : Buffer) : Directory × Option Header :=
  match find d.entries (fun e => nameEq e.name name) with
  | some i => (bump d i, some (d.entries.slot i).header)
  | none =>
    match adoptFromFlash flash d name with
    | (d, none) => (d, none)
    | (d, some i) => (bump d i, some (d.entries.slot i).header)

def moddirUnlink (d : Directory) (address : Addr) : Directory :=
  match find d.entries (fun e => e.address = address) with
  | none => d
  | some i =>
    let links := (d.entries.slot i).links
    if links ≤ 1 then drop d i else putLinks d i (links - 1)

/-- `copies` is whether the pool has room for a copy, should one be needed. -/
def linkTable (d : Directory) (name : Buffer) (kind : Kind) (copies : Bool) :
    Directory × Option Header :=
  match moddirLink flash d name with
  | (d, none) => (d, none)
  | (d, some h) =>
    if h.kind ≠ kind then (moddirUnlink d h.module.address, none)
    else if h.attrPrivate ∧ !copies then (moddirUnlink d h.module.address, none)
    else (d, some h)

def spoken (result : Directory × Option Header) : Directory × Option Header :=
  match result with
  | (d, none) => (d, none)
  | (d, some h) => if h.speaks then (d, some h) else (d, none)

def libLink (d : Directory) (name : Buffer) (copies : Bool) : Directory × Option Header :=
  spoken (linkTable flash d name .library copies)

def driverLink (d : Directory) (name : Buffer) (copies : Bool) : Directory × Option Header :=
  spoken (linkTable flash d name .driver copies)

/-- `driver_from_module` of `kernel/io.c`: `room` is whether the driver table has
any, `starts` what the driver's own `init` answers. -/
def driverFromModule (d : Directory) (name : Buffer) (copies room starts : Bool) :
    Directory × Option Header :=
  if !room then (d, none)
  else
    match driverLink flash d name copies with
    | (d, none) => (d, none)
    | (d, some h) => if starts then (d, some h) else (d, none)

end Flash

end Ubiqos.Modules

/-!
What each function of the directory does to four numbers at every address: how
many entries there are for the module there, how many links they count, how
many of them own their image, and how often an image there has been given back.
-/

namespace Ubiqos.Modules

open Function Compact

def linksAt (d : Directory) (a : Addr) : Nat :=
  ((items d.entries).map (fun e => if e.address = a then e.links else 0)).sum

def countAt (d : Directory) (a : Addr) : Nat :=
  (items d.entries).countP (fun e => e.address = a)

def ownedAt (d : Directory) (a : Addr) : Nat :=
  (items d.entries).countP (fun e => e.owned ∧ e.address = a)

def Unique (d : Directory) : Prop := ∀ a, countAt d a ≤ 1

def imagesAt (d : Directory) (a : Addr) : Nat := d.freed.count a + ownedAt d a

section Primitives
variable (d : Directory)

theorem putLinks_counts {i : Nat} (inside : i < d.entries.count) (links : Nat) (a : Addr) :
    linksAt (putLinks d i links) a +
        (if (d.entries.slot i).address = a then (d.entries.slot i).links else 0) =
      linksAt d a + (if (d.entries.slot i).address = a then links else 0) ∧
    countAt (putLinks d i links) a = countAt d a ∧
    imagesAt (putLinks d i links) a = imagesAt d a := by
  obtain ⟨rest, whole, changed, _⟩ := items_around d.entries inside
  have after := changed { d.entries.slot i with links := links }
  have counts : countAt (putLinks d i links) a = countAt d a := by
    unfold countAt putLinks
    rw [after.countP_eq, whole.countP_eq]
    rfl
  have owned : ownedAt (putLinks d i links) a = ownedAt d a := by
    unfold ownedAt putLinks
    rw [after.countP_eq, whole.countP_eq]
    rfl
  refine ⟨?_, counts, by unfold imagesAt; rw [owned]; rfl⟩
  unfold linksAt putLinks
  rw [(after.map _).sum_eq, (whole.map _).sum_eq, List.map_cons, List.map_cons, List.sum_cons,
    List.sum_cons]
  have same : ({ d.entries.slot i with links := links } : Entry).address =
    (d.entries.slot i).address := rfl
  rw [same]
  dsimp only
  omega

theorem drop_counts {i : Nat} (inside : i < d.entries.count) (a : Addr) :
    linksAt (drop d i) a +
        (if (d.entries.slot i).address = a then (d.entries.slot i).links else 0) = linksAt d a ∧
    countAt (drop d i) a + (if (d.entries.slot i).address = a then 1 else 0) = countAt d a ∧
    imagesAt (drop d i) a = imagesAt d a := by
  obtain ⟨rest, whole, _, after⟩ := items_around d.entries inside
  refine ⟨?_, ?_, ?_⟩
  · unfold linksAt drop
    rw [(after.map _).sum_eq, (whole.map _).sum_eq, List.map_cons, List.sum_cons]
    omega
  · unfold countAt drop
    rw [after.countP_eq, whole.countP_eq, List.countP_cons]
    simp only [decide_eq_true_eq]
  · unfold imagesAt ownedAt drop
    rw [after.countP_eq, whole.countP_eq, List.countP_cons]
    by_cases own : (d.entries.slot i).owned = true
    · by_cases here : (d.entries.slot i).address = a
      · simp [own, here]
        omega
      · simp [own, here]
    · simp [own]

theorem register_counts (header : Header) (owned : Bool) (name : Buffer) (a : Addr) :
    linksAt (register d header owned name) a = linksAt d a ∧
    countAt (register d header owned name) a =
      countAt d a + (if header.module.address = a then 1 else 0) ∧
    imagesAt (register d header owned name) a =
      imagesAt d a + (if owned ∧ header.module.address = a then 1 else 0) := by
  refine ⟨?_, ?_, ?_⟩
  · simp [linksAt, register]
  · simp only [countAt, register, items_push, List.countP_append, List.countP_singleton,
      decide_eq_true_eq]
    rfl
  · simp only [imagesAt, ownedAt, register, items_push, List.countP_append, List.countP_singleton,
      decide_eq_true_eq, Nat.add_assoc]
    rfl

theorem links_of_entry {i : Nat} (inside : i < d.entries.count) (unique : Unique d) :
    linksAt d (d.entries.slot i).address = (d.entries.slot i).links ∧
      countAt d (d.entries.slot i).address = 1 := by
  obtain ⟨rest, whole, _⟩ := items_around d.entries inside
  have total : countAt d (d.entries.slot i).address =
      rest.countP (fun e => e.address = (d.entries.slot i).address) + 1 := by
    unfold countAt
    rw [whole.countP_eq, List.countP_cons]
    simp
  have one := unique (d.entries.slot i).address
  have alone : ∀ e ∈ rest, e.address ≠ (d.entries.slot i).address := by
    intro e member same
    have positive : 0 < rest.countP (fun e => e.address = (d.entries.slot i).address) :=
      List.countP_pos_iff.mpr ⟨e, member, by simpa using same⟩
    omega
  refine ⟨?_, by omega⟩
  unfold linksAt
  rw [(whole.map _).sum_eq, List.map_cons, List.sum_cons]
  have nothing : (rest.map (fun e =>
      if e.address = (d.entries.slot i).address then e.links else 0)).sum = 0 := by
    apply List.sum_eq_zero
    intro links member
    obtain ⟨e, inRest, rfl⟩ := List.mem_map.mp member
    rw [if_neg (alone e inRest)]
  rw [nothing]
  simp

theorem linksAt_absent {a : Addr} (absent : countAt d a = 0) : linksAt d a = 0 := by
  unfold countAt at absent
  rw [List.countP_eq_zero] at absent
  apply List.sum_eq_zero
  intro links member
  obtain ⟨e, inItems, rfl⟩ := List.mem_map.mp member
  rw [if_neg]
  simpa using absent e inItems

end Primitives

section Links
variable {d : Directory}

theorem find_address {a : Addr} (absent : find d.entries (fun e => e.address = a) = none) :
    countAt d a = 0 := by
  unfold countAt
  rw [List.countP_eq_zero]
  intro e member
  simpa using find_none absent e member

theorem moddirUnlink_counts (unique : Unique d) (a b : Addr) :
    linksAt (moddirUnlink d a) b = linksAt d b - (if b = a then 1 else 0) ∧
    countAt (moddirUnlink d a) b = (if b = a ∧ linksAt d a ≤ 1 then 0 else countAt d b) ∧
    imagesAt (moddirUnlink d a) b = imagesAt d b := by
  unfold moddirUnlink
  split
  · rename_i absent
    have gone := find_address absent
    by_cases here : b = a
    · subst here
      simp [linksAt_absent d gone, gone]
    · simp [here]
  · rename_i i found
    obtain ⟨inside, isAt⟩ := find_some found
    simp only [decide_eq_true_eq] at isAt
    obtain ⟨total, one⟩ := links_of_entry d inside unique
    rw [isAt] at total one
    dsimp only
    split
    · rename_i last
      obtain ⟨links, counts, images⟩ := drop_counts d inside b
      rw [isAt] at links counts
      refine ⟨?_, ?_, images⟩
      · by_cases here : b = a
        · subst here
          simp only [if_true] at links ⊢
          omega
        · simp only [here, Ne.symm here, if_false] at links ⊢
          omega
      · by_cases here : b = a
        · subst here
          simp only [if_true, true_and] at counts ⊢
          rw [if_pos (by omega)]
          omega
        · simp only [here, Ne.symm here, if_false, false_and] at counts ⊢
          omega
    · rename_i more
      obtain ⟨links, counts, images⟩ :=
        putLinks_counts d inside ((d.entries.slot i).links - 1) b
      rw [isAt] at links
      refine ⟨?_, ?_, images⟩
      · by_cases here : b = a
        · subst here
          simp only [if_true] at links ⊢
          omega
        · simp only [here, Ne.symm here, if_false] at links ⊢
          omega
      · rw [counts]
        by_cases here : b = a
        · rw [if_neg (by omega)]
        · simp [here]

theorem bump_counts {i : Nat} (inside : i < d.entries.count)
    (room : (d.entries.slot i).links + 1 < 2 ^ 32) (b : Addr) :
    linksAt (bump d i) b =
        linksAt d b + (if b = (d.entries.slot i).address then 1 else 0) ∧
      countAt (bump d i) b = countAt d b ∧ imagesAt (bump d i) b = imagesAt d b := by
  obtain ⟨links, counts, images⟩ :=
    putLinks_counts d inside (((d.entries.slot i).links + 1) % 2 ^ 32) b
  refine ⟨?_, counts, images⟩
  rw [Nat.mod_eq_of_lt room] at links
  unfold bump
  rw [Nat.mod_eq_of_lt room]
  by_cases here : b = (d.entries.slot i).address
  · simp only [here, if_true] at links ⊢
    omega
  · simp only [here, Ne.symm here, if_false] at links ⊢
    omega

end Links

section Names

theorem copied_eq (src : Buffer) (room : Nat) :
    copied src room = (List.range (copied src room).length).map src ∧
      (copied src room).length ≤ room ∧
      ((copied src room).length < room → src (copied src room).length = 0) ∧
      ∀ i < (copied src room).length, src i ≠ 0 := by
  induction room with
  | zero => simp [copied]
  | succ room ih =>
    obtain ⟨whole, short, stops, nonzero⟩ := ih
    have grown : copied src (room + 1) =
        if (copied src room).length = room then
          copied src room ++ (if src room = 0 then [] else [src room])
        else copied src room := by
      have last : [src room].takeWhile (· ≠ 0) = if src room = 0 then [] else [src room] := by
        by_cases zero : src room = 0
        · simp [zero]
        · rw [if_neg zero, List.takeWhile_cons_of_pos (by simpa using zero), List.takeWhile_nil]
      unfold copied
      rw [List.range_succ, List.map_append, List.takeWhile_append, List.length_map,
        List.length_range]
      split
      · rename_i full
        have all := (List.takeWhile_prefix (l := (List.range room).map src)
          (fun byte : Byte => decide (byte ≠ 0))).eq_of_length (by simpa using full)
        rw [all, List.map_singleton, last]
      · rfl
    by_cases full : (copied src room).length = room
    · rw [if_pos full] at grown
      by_cases zero : src room = 0
      · rw [if_pos zero, List.append_nil] at grown
        rw [grown]
        refine ⟨whole, by omega, fun _ => by rw [full]; exact zero, nonzero⟩
      · rw [if_neg zero] at grown
        have long : (copied src (room + 1)).length = room + 1 := by
          rw [grown, List.length_append, full, List.length_singleton]
        refine ⟨?_, by omega, fun less => by omega, ?_⟩
        · rw [long, List.range_succ, List.map_append, grown, whole, full]
          rfl
        · intro i below
          rw [long] at below
          by_cases last : i = room
          · rw [last]
            exact zero
          · exact nonzero i (by omega)
    · rw [if_neg full] at grown
      rw [grown]
      exact ⟨whole, by omega, fun _ => stops (by omega), nonzero⟩

theorem copied_of_zero {src : Buffer} {len room : Nat} (nonzero : ∀ i < len, src i ≠ 0)
    (stop : src len = 0) (inside : len ≤ room) : copied src room = (List.range len).map src := by
  obtain ⟨whole, short, stops, before⟩ := copied_eq src room
  have same : (copied src room).length = len := by
    rcases Nat.lt_trichotomy (copied src room).length len with less | same | more
    · exact absurd (stops (by omega)) (nonzero _ less)
    · exact same
    · exact absurd stop (before len more)
  rw [whole, same]

theorem text_eq_copied (name : Buffer) : text name = copied name nameLen := rfl

theorem text_nameCopy {dst src : Buffer} (fits : (text src).length < nameLen) :
    text (nameCopy dst src) = text src := by
  have stop := (copied_eq src nameLen).2.2.1 fits
  have nonzero := (copied_eq src nameLen).2.2.2
  have taken : copied src (nameLen - 1) = text src := by
    have bound : (copied src nameLen).length < nameLen := fits
    rw [copied_of_zero nonzero stop (by omega)]
    exact (copied_eq src nameLen).1.symm
  have reads : ∀ i, i < (text src).length → nameCopy dst src i = src i := by
    intro i below
    simp [nameCopy, taken, below]
  have ends : nameCopy dst src (text src).length = 0 := by
    simp [nameCopy, taken]
  rw [text_eq_copied, copied_of_zero (fun i below => by rw [reads i below]; exact nonzero i below)
    ends (by omega)]
  have whole := (copied_eq src nameLen).1
  rw [← text_eq_copied] at whole
  conv_rhs => rw [whole]
  apply List.map_congr_left
  intro i member
  exact reads i (List.mem_range.mp member)

theorem text_bufferOf (m : Resident) : text (bufferOf m.name) = m.name := by
  have nonzero : ∀ i < m.name.length, bufferOf m.name i ≠ 0 := by
    intro i below zero
    have member : m.name[i] ∈ m.name := List.getElem_mem below
    have same : m.name[i] = 0 := by simpa [bufferOf, below] using zero
    rw [same] at member
    exact m.ended member
  have stop : bufferOf m.name m.name.length = 0 := by simp [bufferOf]
  rw [text_eq_copied, copied_of_zero nonzero stop (Nat.le_of_lt m.short)]
  apply List.ext_getElem
  · simp
  · intro i _ below
    simp [bufferOf, below]

end Names

end Ubiqos.Modules
