import Mathlib.Data.BitVec
import Mathlib.Data.Fintype.Card
import Mathlib.Data.List.FinRange
import Mathlib.Data.Set.Card
import Mathlib.Logic.Function.Basic

/-!
The files of `/tmp` from `kernel/tmpfs.c`: sixteen slots, each with a block from
the pool that is exchanged for a larger one as the file grows. An access outside
a block is an outcome of its own.
-/

namespace Ubiqos.Tmpfs

open Function

abbrev Byte := BitVec 8

/-- A string, without the zero that ends it. -/
abbrev Name := List Byte

def dirnameMax : Nat := 65
def maxFiles : Nat := 16
def grow : Nat := 1024
def attrDirectory : Int := 0x10
def slash : Byte := 0x2f

structure Block where
  len : Nat
  byte : Nat → Byte

def Block.null : Block := ⟨0, fun _ => 0⟩

def Block.filled (b : Block) (first last : Nat) (f : Nat → Byte) : Block :=
  ⟨b.len, fun i => if first ≤ i ∧ i < last then f i else b.byte i⟩

/-- A loop that writes the bytes from `first` to `last`. -/
def Block.fill (b : Block) (first last : Nat) (f : Nat → Byte) : Option Block :=
  if first < last ∧ b.len < last then none else some (b.filled first last f)

structure File where
  name : Name
  data : Block
  size : Nat
  cap : Nat
  used : Bool

abbrev Slot := Fin maxFiles
abbrev Files := Slot → File

def leaf : Name → Option Name
  | c :: n => if c = slash ∧ slash ∉ n ∧ n ≠ [] then some n else none
  | [] => none

def slotOf (k : Files) (n : Name) : Option Slot :=
  (List.finRange maxFiles).find? (fun i => (k i).used && (k i).name = n)

def find (k : Files) (path : Name) : Option Slot := (leaf path).bind (slotOf k)

def spare (k : Files) : Option Slot := (List.finRange maxFiles).find? (fun i => !(k i).used)

def create (k : Files) (path : Name) : Option (Slot × Files) :=
  match leaf path with
  | none => none
  | some n =>
    if dirnameMax ≤ n.length then none
    else (spare k).map (fun i => (i, update k i ⟨n, .null, 0, 0, true⟩))

/-- What the pool gives for a size: nothing, or a block with old bytes in it. -/
abbrev Pool := Nat → Option (Nat → Byte)

def rounded (want : Nat) : Nat := (want + grow - 1) % 2 ^ 32 / grow * grow

/-- `while (cap < need) cap *= 2`. After thirty-two turns `cap` is zero for good, so a
loop that goes on then never ends. -/
def doubled (need : Nat) : Nat → Nat → Option Nat
  | 0, cap => if cap < need then none else some cap
  | turns + 1, cap => if cap < need then doubled need turns (cap * 2 % 2 ^ 32) else some cap

def allocate (pool : Pool) (need cap : Nat) : Option (Nat × (Nat → Byte)) :=
  match pool cap with
  | some bytes => some (cap, bytes)
  | none => if need < cap then (pool need).map (fun bytes => (need, bytes)) else none

def reserve (pool : Pool) (f : File) (want : Nat) : Option (Bool × File) :=
  if want ≤ f.cap then some (true, f)
  else
    match doubled (rounded want) 32 (if f.cap = 0 then grow else f.cap) with
    | none => none
    | some cap =>
      match allocate pool (rounded want) cap with
      | none => some (false, f)
      | some (cap, bytes) =>
        if f.data.len < f.size then none
        else (Block.fill ⟨cap, bytes⟩ 0 f.size f.data.byte).map
          (fun data => (true, { f with data := data, cap := cap }))

structure Reply where
  rc : Int
  bytes : List Byte
  size : Nat
  deriving DecidableEq

def code (rc : Int) : Reply := ⟨rc, [], 0⟩

def readAt (k : Files) (path : Name) (offset len : Nat) : Option (Reply × Files) :=
  match find k path with
  | none => some (code (-1), k)
  | some i =>
    if (k i).size ≤ offset then some (code 0, k)
    else
      let n := if (k i).size - offset < len then (k i).size - offset else len
      if 0 < n ∧ (k i).data.len < offset + n then none
      else some (⟨n, (List.range n).map (fun j => (k i).data.byte (offset + j)), 0⟩, k)

def writeFile (f : File) (offset : Nat) (buf : List Byte) : Option File :=
  match f.data.fill f.size offset (fun _ => 0) with
  | none => none
  | some data =>
    (data.fill offset (offset + buf.length) (fun i => buf.getD (i - offset) 0)).map
      (fun data => { f with
        data := data
        size := if f.size < (offset + buf.length) % 2 ^ 32 then (offset + buf.length) % 2 ^ 32
          else f.size })

/-- A length handed back as an `int32_t`. -/
def int32 (n : Nat) : Int := if n < 2 ^ 31 then n else (n : Int) - 2 ^ 32

/-- `none` is a call that reaches outside a block or does not end. -/
def writeAt (pool : Pool) (k : Files) (path : Name) (offset : Nat) (buf : List Byte) :
    Option (Reply × Files) :=
  match ((find k path).map (fun i => (i, k))).or (create k path) with
  | none => some (code (-1), k)
  | some (i, k) =>
    match reserve pool (k i) ((offset + buf.length) % 2 ^ 32) with
    | none => none
    | some (false, _) => some (code (-1), k)
    | some (true, f) =>
      (writeFile f offset buf).map (fun f => (code (int32 buf.length), update k i f))

def dropped (f : File) : File := { f with data := .null, size := 0, cap := 0, used := false }

def remove (k : Files) (path : Name) : Bool × Files :=
  match find k path with
  | none => (false, k)
  | some i => (true, update k i (dropped (k i)))

def rename (k : Files) (source dest : Name) : Bool × Files :=
  match find k source, leaf dest with
  | some i, some n =>
    if dirnameMax ≤ n.length then (false, k)
    else if find k dest = some i then (true, k)
    else
      let k := if (find k dest).isSome then (remove k dest).2 else k
      (true, update k i { k i with name := n })
  | _, _ => (false, k)

def stat (k : Files) (path : Name) : Reply :=
  if path = [slash] then code attrDirectory
  else
    match find k path with
    | none => code (-1)
    | some i => ⟨0, [], (k i).size⟩

def nthUsed (k : Files) : List Slot → Nat → Option Slot
  | [], _ => none
  | i :: rest, index =>
    if !(k i).used then nthUsed k rest index
    else if index = 0 then some i
    else nthUsed k rest (index - 1)

def statNth (k : Files) (dirpath : Name) (index : Nat) : Reply :=
  if dirpath ≠ [slash] then code (-1)
  else
    match nthUsed k (List.finRange maxFiles) index with
    | none => code (-1)
    | some i => ⟨0, (k i).name, (k i).size⟩

inductive Op where
  | read (path : Name) (offset len : Nat)
  | write (pool : Pool) (path : Name) (offset : Nat) (buf : List Byte)
  | remove (path : Name)
  | rename (source dest : Name)
  | stat (path : Name)
  | statNth (dirpath : Name) (index : Nat)

def truth (b : Bool) : Reply := code (if b then 1 else 0)

def call (k : Files) : Op → Option (Reply × Files)
  | .read path offset len => readAt k path offset len
  | .write pool path offset buf => writeAt pool k path offset buf
  | .remove path => some (truth (remove k path).1, (remove k path).2)
  | .rename source dest => some (truth (rename k source dest).1, (rename k source dest).2)
  | .stat path => some (stat k path, k)
  | .statNth dirpath index => some (statNth k dirpath index, k)

/-- After `ubiqos_tmpfs_init`. -/
def emptied : Files := fun _ => ⟨[], .null, 0, 0, false⟩

def run (k : Files) : List Op → Option (List Reply × Files)
  | [] => some ([], k)
  | op :: rest =>
    match call k op with
    | none => none
    | some (reply, k) => (run k rest).map (fun later => (reply :: later.1, later.2))

end Ubiqos.Tmpfs

/-!
What `/tmp` is for: a map from names to bytes, of at most sixteen entries. The
slots and their blocks are one, and every call does to them what it does to it.
-/

namespace Ubiqos.Tmpfs

open Function

abbrev Map := Name → Option (List Byte)

def keyOf (path : Name) : Option Name :=
  match leaf path with
  | none => none
  | some n => if n.length < dirnameMax then some n else none

def splice (bytes : List Byte) (offset : Nat) (buf : List Byte) : List Byte :=
  (List.range (max bytes.length (offset + buf.length))).map fun i =>
    if offset ≤ i ∧ i < offset + buf.length then buf.getD (i - offset) 0 else bytes.getD i 0

namespace Map

def names (m : Map) : Set Name := {n | (m n).isSome = true}

def read (m : Map) (path : Name) (offset len : Nat) : Reply :=
  match (keyOf path).bind m with
  | none => code (-1)
  | some bytes => ⟨((bytes.drop offset).take len).length, (bytes.drop offset).take len, 0⟩

open Classical in
noncomputable def write (m : Map) (path : Name) (offset : Nat) (buf : List Byte) : Reply × Map :=
  match keyOf path with
  | none => (code (-1), m)
  | some n =>
    match m n with
    | some bytes => (code buf.length, update m n (some (splice bytes offset buf)))
    | none =>
      if m.names.ncard < maxFiles then
        (code buf.length, update m n (some (splice [] offset buf)))
      else (code (-1), m)

def remove (m : Map) (path : Name) : Reply × Map :=
  match keyOf path with
  | none => (truth false, m)
  | some n => if (m n).isSome then (truth true, update m n none) else (truth false, m)

def rename (m : Map) (source dest : Name) : Reply × Map :=
  match keyOf source, keyOf dest with
  | some n, some d =>
    if (m n).isSome then (truth true, update (update m n none) d (m n)) else (truth false, m)
  | _, _ => (truth false, m)

def stat (m : Map) (path : Name) : Reply :=
  if path = [slash] then code attrDirectory
  else
    match (keyOf path).bind m with
    | none => code (-1)
    | some bytes => ⟨0, [], bytes.length⟩

def Lists (m : Map) (names : List Name) : Prop :=
  names.Nodup ∧ ∀ n, n ∈ names ↔ (m n).isSome = true

def entry (m : Map) (names : List Name) (index : Nat) : Reply :=
  match names[index]? with
  | none => code (-1)
  | some n => ⟨0, n, ((m n).getD []).length⟩

def Answers (m : Map) : Op → Reply → Map → Prop
  | .read path offset len, reply, m' => reply = m.read path offset len ∧ m' = m
  | .write _ path offset buf, reply, m' => (reply, m') = m.write path offset buf
  | .remove path, reply, m' => (reply, m') = m.remove path
  | .rename source dest, reply, m' => (reply, m') = m.rename source dest
  | .stat path, reply, m' => reply = m.stat path ∧ m' = m
  | .statNth dirpath index, reply, m' =>
    (∃ names, m.Lists names ∧
      reply = if dirpath = [slash] then m.entry names index else code (-1)) ∧ m' = m

inductive Runs : Map → List Op → List Reply → Map → Prop
  | nil (m : Map) : Runs m [] [] m
  | cons {m m' last : Map} {op : Op} {rest : List Op} {reply : Reply} {replies : List Reply}
      (answers : m.Answers op reply m') (later : Runs m' rest replies last) :
      Runs m (op :: rest) (reply :: replies) last

end Map

def contents (f : File) : List Byte := (List.range f.size).map f.data.byte

structure Sound (k : Files) : Prop where
  named : ∀ i, (k i).used = true →
    (k i).name ≠ [] ∧ slash ∉ (k i).name ∧ (k i).name.length < dirnameMax
  once : ∀ i j, (k i).used = true → (k j).used = true → (k i).name = (k j).name → i = j
  block : ∀ i, (k i).used = true → (k i).data.len = (k i).cap ∧ (k i).size ≤ (k i).cap

def lookup (k : Files) : Map := fun n => (slotOf k n).map (fun i => contents (k i))

section Lookups
variable {k : Files} {n : Name} {i : Slot}

theorem slotOf_some (found : slotOf k n = some i) : (k i).used = true ∧ (k i).name = n := by
  have hit := List.find?_some found
  simpa using hit

theorem slotOf_iff (sound : Sound k) :
    slotOf k n = some i ↔ (k i).used = true ∧ (k i).name = n := by
  constructor
  · exact slotOf_some
  · rintro ⟨used, same⟩
    cases found : slotOf k n with
    | none =>
      have miss := List.find?_eq_none.mp found i (List.mem_finRange i)
      simp [used, same] at miss
    | some j =>
      obtain ⟨used', same'⟩ := slotOf_some found
      rw [sound.once i j used used' (same.trans same'.symm)]

theorem lookup_iff (sound : Sound k) {bytes : List Byte} : lookup k n = some bytes ↔
    ∃ i, (k i).used = true ∧ (k i).name = n ∧ contents (k i) = bytes := by
  simp only [lookup, Option.map_eq_some_iff, slotOf_iff sound, and_assoc]

theorem lookup_slot (sound : Sound k) (used : (k i).used = true) :
    lookup k (k i).name = some (contents (k i)) :=
  (lookup_iff sound).mpr ⟨i, used, rfl, rfl⟩

theorem lookup_isSome (sound : Sound k) :
    (lookup k n).isSome = true ↔ ∃ i, (k i).used = true ∧ (k i).name = n := by
  constructor
  · intro there
    obtain ⟨bytes, found⟩ := Option.isSome_iff_exists.mp there
    obtain ⟨i, used, same, _⟩ := (lookup_iff sound).mp found
    exact ⟨i, used, same⟩
  · rintro ⟨i, used, rfl⟩
    rw [lookup_slot sound used]
    rfl

theorem find_keyOf (sound : Sound k) (path : Name) : find k path = (keyOf path).bind (slotOf k) := by
  simp only [find, keyOf]
  cases isLeaf : leaf path with
  | none => rfl
  | some n =>
    by_cases short : n.length < dirnameMax
    · simp [short]
    · simp only [Option.bind_some, if_neg short, Option.bind_none]
      cases found : slotOf k n with
      | none => rfl
      | some i =>
        obtain ⟨used, rfl⟩ := slotOf_some found
        exact absurd (sound.named i used).2.2 short

theorem bind_lookup (sound : Sound k) (path : Name) :
    (keyOf path).bind (lookup k) = (find k path).map (fun i => contents (k i)) := by
  rw [find_keyOf sound]
  cases keyOf path <;> rfl

end Lookups

end Ubiqos.Tmpfs
