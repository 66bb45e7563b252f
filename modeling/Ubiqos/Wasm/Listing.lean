import Ubiqos.Lib.Words
import Ubiqos.Lib.Pages
import Ubiqos.Wasm.Unlink

/-!
Reading a directory, `wasi_fd_readdir`: what one call leaves in the guest's buffer, and what a guest
receives that asks on from the last entry it had whole.
-/

namespace Ubiqos.Wasm

open Guarded.Program Cells

structure Dirent where
  next : Nat
  ino : Nat
  kind : Byte
  name : Text
  deriving DecidableEq

/-- `dirent { next u64 @0, ino u64 @8, namlen u32 @16, type u8 @20, pad[3] }` and the name. -/
def Dirent.bytes (d : Dirent) : Text :=
  bytesOf 8 d.next ++ bytesOf 8 d.ino ++ bytesOf 4 d.name.length ++ [d.kind, 0, 0, 0] ++ d.name

def direntOf (dir : Text) (index : Nat) (entry : Text × Nat) : Dirent :=
  { next := index + 1
    ino := inode dir (prettyName entry.1)
    kind := if entry.2 &&& attrDirectory ≠ 0 then 3 else 4
    name := prettyName entry.1 }

/-- `UBIQOS_DIRNAME_MAX`. -/
def dirnameMax : Nat := 65

/-- A directory as `ubiqos_fs_dir_at` gives it, an entry for each number from zero on. -/
structure Directory {κ : Type} (kernel : Kernel κ) (k : κ) (dir : Text) where
  entries : List (Text × Nat)
  lists : ∀ i, kernel.dirAt k dir i = entries[i]?
  few : entries.length < 2 ^ 32
  fits : ∀ e ∈ entries, e.1.length < dirnameMax

section Overlays

variable {mem : Nat → Byte} {a b : Nat} {xs ys : Text}

theorem overlay_append : overlay (overlay mem a xs) (a + xs.length) ys = overlay mem a (xs ++ ys) := by
  funext i
  unfold overlay
  by_cases low : a ≤ i
  · rw [if_pos low, if_pos low]
    by_cases inside : i - a < xs.length
    · rw [if_neg (by omega), List.getElem?_append_left inside]
    · have past : xs[i - a]? = none := List.getElem?_eq_none (Nat.le_of_not_lt inside)
      rw [if_pos (by omega), List.getElem?_append_right (by omega), past, Nat.sub_add_eq]
      rfl
  · rw [if_neg (by omega), if_neg low, if_neg low]

theorem overlay_nil : overlay mem a [] = mem := by
  funext i
  simp [overlay]

theorem overlay_inside (within : b + ys.length ≤ xs.length) :
    overlay (overlay mem a xs) (a + b) ys = overlay mem a (xs.take b ++ ys ++ xs.drop (b + ys.length)) := by
  funext i
  unfold overlay
  by_cases low : a ≤ i
  · rw [if_pos low, if_pos low]
    by_cases before : i - a < b
    · rw [if_neg (by omega), List.append_assoc, List.getElem?_append_left (by simp; omega),
        List.getElem?_take_of_lt before]
    · rw [if_pos (by omega)]
      have offset : i - (a + b) = i - a - b := by omega
      by_cases inside : i - a - b < ys.length
      · rw [List.append_assoc, List.getElem?_append_right (by simp; omega),
          List.length_take_of_le (by omega), List.getElem?_append_left inside, offset,
          List.getElem?_eq_getElem inside]
        rfl
      · rw [List.getElem?_append_right (by simp; omega), List.length_append,
          List.length_take_of_le (by omega), List.getElem?_drop, offset,
          List.getElem?_eq_none (by omega)]
        have place : b + ys.length + (i - a - (b + ys.length)) = i - a := by omega
        rw [place]
        rfl
  · rw [if_neg (by omega), if_neg low, if_neg low]

theorem overlay_outside {i : Nat} (out : i < a ∨ a + xs.length ≤ i) : overlay mem a xs i = mem i := by
  unfold overlay
  split
  · rw [List.getElem?_eq_none (by omega)]
    rfl
  · rfl

theorem overlay_sits : Sits (overlay mem a xs) a xs := by
  intro i inside
  rw [overlay, if_pos (Nat.le_add_right _ _), Nat.add_sub_cancel_left, List.getElem?_eq_getElem inside]
  rfl

end Overlays

theorem number_bytesOf (n v : Nat) : number (bytesOf n v) = v % 256 ^ n := by
  induction n generalizing v with
  | zero => exact (Nat.mod_one v).symm
  | succ n ih =>
    have split : v % 256 ^ (n + 1) = v % 256 + 256 * (v / 256 % 256 ^ n) := by
      rw [Nat.pow_succ', Nat.mod_mul]
    rw [bytesOf, number, ih, split]
    rfl

theorem number_field {n v : Nat} (small : v < 2 ^ (8 * n)) : number (bytesOf n v) = v := by
  rw [number_bytesOf, Nat.mod_eq_of_lt]
  rwa [Nat.pow_mul] at small

section Page

variable {κ : Type} {kernel : Kernel κ} {k : κ} {dir : Text}

def Directory.dirents (D : Directory kernel k dir) : List Dirent := D.entries.mapIdx (direntOf dir)

theorem Directory.length_dirents (D : Directory kernel k dir) :
    D.dirents.length = D.entries.length := List.length_mapIdx

def Dirent.header (d : Dirent) : Text :=
  bytesOf 8 d.next ++ bytesOf 8 d.ino ++ bytesOf 4 d.name.length ++ [d.kind, 0, 0, 0]

theorem Dirent.bytes_eq (d : Dirent) : d.bytes = d.header ++ d.name := rfl

theorem Dirent.length_header (d : Dirent) : d.header.length = 24 := rfl

theorem Dirent.length_bytes (d : Dirent) : d.bytes.length = 24 + d.name.length :=
  List.length_append

theorem overlay_header {mem : Nat → Byte} {a : Nat} (d : Dirent) :
    overlay (overlay (overlay (overlay (overlay mem a (List.replicate 24 0)) (a + 0) (bytesOf 8 d.next))
      (a + 8) (bytesOf 8 d.ino)) (a + 16) (bytesOf 4 d.name.length)) (a + 20) [d.kind] =
        overlay mem a d.header := by
  rw [overlay_inside (by simp [length_bytesOf]), overlay_inside (by simp [length_bytesOf]),
    overlay_inside (by simp [length_bytesOf]), overlay_inside (by simp [length_bytesOf])]
  rfl

theorem ends_assoc {α β γ : Type} (m : Wasi κ α) (g : α → Wasi κ β) (f : β → Wasi κ γ) (h : Host κ) :
    ends ((m >>= g) >>= f) h = ends (m >>= fun a => g a >>= f) h := by
  simp only [ends, bind, andThen]
  rcases m h with ⟨_ | a, t, events⟩
  · rfl
  · dsimp only
    rcases g a t with ⟨_ | b, t', events'⟩ <;> rfl

theorem ends_pure {α β : Type} (a : α) (f : α → Wasi κ β) (h : Host κ) :
    ends (pure a >>= f) h = ends (f a) h := rfl

theorem ends_store {α : Type} {source : Source} {p d : Nat} {bytes : Text} (f : Unit → Wasi κ α)
    (h : Host κ) : ends (store source p d bytes >>= f) h =
      ends (f ()) { h with mem := overlay h.mem (moved p d) bytes } := rfl

theorem moved_inside {buf used d : Nat} (small : buf + used + d < 2 ^ 32) :
    moved buf (used + d) = buf + used + d := by
  rw [moved, ← Nat.add_assoc, Nat.mod_eq_of_lt small]

theorem entriesFrom_ends {α : Type} (D : Directory kernel k dir) {buf len n used index : Nat}
    {p : Text} (f : Nat → Wasi κ α) (h : Host κ) (same : h.kernel = k) (enough : len - used < n)
    (within : used ≤ len) (place : index ≤ D.entries.length) (small : buf + len + 24 < 2 ^ 32)
    (paged : Pages.page 24 (len - used) ((D.dirents.drop index).map Dirent.bytes) = p) :
    ends (entriesFrom kernel dir buf len n used index >>= f) h =
      ends (f (used + p.length)) { h with mem := overlay h.mem (buf + used) p } := by
  -- Along the entries: what is stored so far and the page of the rest are the whole page.
  induction n generalizing used index h p with
  | zero => omega
  | succ n ih =>
    have nothing : p = [] → ends (pure used >>= f) h =
        ends (f (used + p.length)) { h with mem := overlay h.mem (buf + used) p } := by
      rintro rfl
      rw [overlay_nil]
      rfl
    have listed : kernel.dirAt h.kernel dir index = D.entries[index]? := by rw [same, D.lists]
    unfold entriesFrom
    rw [ends_assoc, ends_act]
    dsimp only
    rw [listed]
    by_cases done : index = D.entries.length
    · rw [done, List.drop_of_length_le (Nat.le_of_eq D.length_dirents)] at paged
      rw [done, List.getElem?_eq_none (Nat.le_refl _)]
      exact nothing paged.symm
    · have less : index < D.entries.length := Nat.lt_of_le_of_ne place done
      have less' : index < D.dirents.length := D.length_dirents ▸ less
      have entry : D.dirents[index] = direntOf dir index D.entries[index] := List.getElem_mapIdx ..
      rw [List.drop_eq_getElem_cons less', entry, List.map_cons, Pages.page,
        Dirent.length_bytes] at paged
      rw [List.getElem?_eq_getElem less]
      have index' : (index + 1) % 2 ^ 32 = index + 1 :=
        Nat.mod_eq_of_lt (Nat.lt_of_le_of_lt less D.few)
      generalize D.entries[index] = e at paged ⊢
      obtain ⟨raw, attr⟩ := e
      dsimp only
      rw [Nat.mod_eq_of_lt (by omega), index']
      by_cases none : len - used < 24
      · rw [if_pos none] at paged
        rw [if_pos (by omega)]
        exact nothing paged.symm
      · have header := (@overlay_header h.mem (buf + used)) (direntOf dir index (raw, attr))
        rw [if_neg none] at paged
        rw [if_neg (by omega)]
        simp only [ends_assoc, ends_store, ends_storeNumber]
        have first : moved buf used = buf + used := moved_inside (d := 0) (by omega)
        rw [first, moved_inside (by omega), moved_inside (by omega), moved_inside (by omega),
          moved_inside (by omega)]
        have name : (direntOf dir index (raw, attr)).name = prettyName raw := rfl
        have bytes := (direntOf dir index (raw, attr)).bytes_eq
        have named : ∀ xs, overlay (overlay h.mem (buf + used) (direntOf dir index (raw, attr)).header)
            (buf + used + 24) xs =
              overlay h.mem (buf + used) ((direntOf dir index (raw, attr)).header ++ xs) :=
          fun xs => overlay_append
        have head := (direntOf dir index (raw, attr)).length_header
        rw [name] at paged bytes
        generalize (direntOf dir index (raw, attr)).header = front at header named bytes head
        simp only [direntOf, Nat.add_zero] at header
        rw [header, named]
        rw [bytes] at paged
        by_cases cut : len - used < 24 + (prettyName raw).length
        · rw [if_pos cut, List.take_append, head, List.take_of_length_le (by omega)] at paged
          rw [if_pos (by rw [List.length_take]; omega), ends_pure, Nat.sub_add_eq, paged, ← paged,
            List.length_append, head, Nat.add_assoc]
        · rw [if_neg cut] at paged
          have whole : (prettyName raw).take (len - (used + 24)) = prettyName raw :=
            List.take_of_length_le (by omega)
          have length : (front ++ prettyName raw).length = 24 + (prettyName raw).length := by
            rw [List.length_append, head]
          have room : len - (used + 24 + (prettyName raw).length) =
              len - used - (24 + (prettyName raw).length) := by omega
          generalize later : Pages.page 24 (len - used - (24 + (prettyName raw).length)) _ = p' at paged
          rw [← room] at later
          have next : index + 1 ≤ D.entries.length := less
          rw [whole, if_neg (Nat.lt_irrefl _),
            ih { h with mem := overlay h.mem (buf + used) (front ++ prettyName raw) } same (by omega)
              (by omega) next later]
          have place : buf + (used + 24 + (prettyName raw).length) =
              buf + used + (front ++ prettyName raw).length := by omega
          rw [← paged, place, overlay_append, List.length_append, length, Nat.add_assoc used,
            Nat.add_assoc used]

def listedAs (h : Host κ) (fd : U32) : Option Text :=
  if isDir h fd.toInt then nameOf h fd.toInt else if fd.toNat = preopenFd then some [0x2f] else none

/-- What a guest passes: a buffer with room for a header, and a place for the count beside it. -/
structure Ask (room : Room) where
  buf : U32
  bufLen : U32
  bufused : U32
  least : 24 ≤ bufLen.toNat
  inside : buf.toNat + bufLen.toNat ≤ room.size
  counted : bufused.toNat + 4 ≤ room.size
  apart : bufused.toNat + 4 ≤ buf.toNat ∨ buf.toNat + bufLen.toNat ≤ bufused.toNat

variable {room : Room}

def Ask.call (a : Ask room) (kernel : Kernel κ) (fd : U32) (cookie : Nat) : Wasi κ Unit :=
  fdReaddir kernel room.size fd a.buf a.bufLen (BitVec.ofNat 64 cookie) a.bufused

def Directory.page (D : Directory kernel k dir) (a : Ask room) (index : Nat) : Text :=
  Pages.page 24 a.bufLen.toNat ((D.dirents.drop index).map Dirent.bytes)

theorem call_ends (D : Directory kernel k dir) (a : Ask room) {fd : U32} {h : Host κ} {index : Nat}
    (same : h.kernel = k) (listed : listedAs h fd = some dir) (place : index ≤ D.entries.length) :
    ends (a.call kernel fd index) h = (.error (.returned ok),
      { h with
        mem := overlay (overlay h.mem a.buf.toNat (D.page a index)) a.bufused.toNat
          (bytesOf 4 (D.page a index).length) }) := by
  have small : room.size + 0x10000 ≤ 2 ^ 32 := room.apart
  have inside := a.inside
  have cookie : ((BitVec.ofNat 64 index).setWidth 32).toNat = index := by
    have few := D.few
    rw [BitVec.toNat_setWidth, BitVec.toNat_ofNat, Nat.mod_eq_of_lt (by omega),
      Nat.mod_eq_of_lt (by omega)]
  have at' : ∀ p : U32, p.toNat < 2 ^ 32 → moved p.toNat 0 = p.toNat := fun p small =>
    Nat.mod_eq_of_lt small
  unfold Ask.call fdReaddir
  rw [ends_checkMem, if_pos a.inside, ends_checkMem, if_pos a.counted, ends_act]
  dsimp only
  rw [show (if isDir h fd.toInt then nameOf h fd.toInt else if fd.toNat = preopenFd then some [0x2f]
    else none) = some dir from listed]
  dsimp only
  rw [cookie, entriesFrom_ends D _ h same (by omega) (Nat.zero_le _) place (by omega) rfl,
    ends_storeNumber, ends_finish, at' _ (by omega)]
  simp only [Nat.zero_add, Nat.add_zero]
  rfl

def direntsIn (bytes : Text) : List Dirent :=
  if bytes.length < 24 then []
  else
    let namlen := number ((bytes.drop 16).take 4)
    if bytes.length < 24 + namlen then []
    else
      { next := number (bytes.take 8)
        ino := number ((bytes.drop 8).take 8)
        kind := (bytes.drop 20).headD 0
        name := (bytes.drop 24).take namlen } :: direntsIn (bytes.drop (24 + namlen))
termination_by bytes.length
decreasing_by simp only [List.length_drop]; omega

structure Dirent.Fits (d : Dirent) : Prop where
  next : d.next < 2 ^ 64
  ino : d.ino < 2 ^ 64
  name : d.name.length < 2 ^ 32

theorem direntsIn_whole {d : Dirent} (fits : d.Fits) (rest : Text) :
    direntsIn (d.bytes ++ rest) = d :: direntsIn rest := by
  have namlen : number (((d.bytes ++ rest).drop 16).take 4) = d.name.length := by
    have field : ((d.bytes ++ rest).drop 16).take 4 = bytesOf 4 d.name.length := rfl
    rw [field, number_field (n := 4) fits.name]
  have next : number ((d.bytes ++ rest).take 8) = d.next := by
    have field : (d.bytes ++ rest).take 8 = bytesOf 8 d.next := rfl
    rw [field, number_field (n := 8) fits.next]
  have ino : number (((d.bytes ++ rest).drop 8).take 8) = d.ino := by
    have field : ((d.bytes ++ rest).drop 8).take 8 = bytesOf 8 d.ino := rfl
    rw [field, number_field (n := 8) fits.ino]
  have name : (d.bytes ++ rest).drop 24 = d.name ++ rest := rfl
  have length := d.length_bytes
  rw [direntsIn, if_neg (by rw [List.length_append]; omega)]
  dsimp only
  rw [namlen, if_neg (by rw [List.length_append]; omega), next, ino, name, List.take_left, ← length,
    List.drop_left]
  rfl

theorem direntsIn_cut {d : Dirent} {cut : Text} (fits : d.Fits) (front : cut <+: d.bytes)
    (head : 24 ≤ cut.length) (less : cut.length < d.bytes.length) : direntsIn cut = [] := by
  obtain ⟨rest, same⟩ := front
  have namlen : number ((cut.drop 16).take 4) = d.name.length := by
    have whole : ((cut ++ rest).drop 16).take 4 = (cut.drop 16).take 4 := by
      rw [List.drop_append_of_le_length (by omega), List.take_append_of_le_length (by simp; omega)]
    have field : (d.bytes.drop 16).take 4 = bytesOf 4 d.name.length := rfl
    rw [← whole, same, field, number_field (n := 4) fits.name]
  rw [direntsIn, if_neg (Nat.not_lt.mpr head)]
  dsimp only
  rw [namlen, if_pos (by rw [← d.length_bytes]; exact less)]

theorem direntsIn_nil : direntsIn [] = [] := by
  rw [direntsIn]
  rfl

theorem direntsIn_flatten {ds : List Dirent} (fits : ∀ d ∈ ds, d.Fits) (rest : Text) :
    direntsIn ((ds.map Dirent.bytes).flatten ++ rest) = ds ++ direntsIn rest := by
  induction ds with
  | nil => rfl
  | cons d ds ih =>
    obtain ⟨first, others⟩ := List.forall_mem_cons.mp fits
    rw [List.map_cons, List.flatten_cons, List.append_assoc, direntsIn_whole first, ih others]
    rfl

theorem inode_lt (dir name : Text) : inode dir name < 2 ^ 64 := by
  have mixed : ∀ (text : Text) (h : Nat), h < 2 ^ 64 →
      text.foldl (fun h (c : Byte) => (h ^^^ c.toNat) * 1099511628211 % 2 ^ 64) h < 2 ^ 64 := by
    intro text
    induction text with
    | nil => exact fun _ small => small
    | cons c text ih => exact fun h _ => ih _ (Nat.mod_lt _ (by decide))
  unfold inode
  dsimp only
  split
  · decide
  · exact mixed name _ (Nat.mod_lt _ (by decide))

theorem length_prettyName (raw : Text) : (prettyName raw).length ≤ raw.length + 12 := by
  have before := (List.takeWhile_prefix (· ≠ (0x20 : Byte)) (l := raw.take 8)).length_le
  have after := (List.takeWhile_prefix (· ≠ (0x20 : Byte)) (l := raw.drop 8)).length_le
  unfold prettyName
  split
  · omega
  · rw [List.length_append, List.length_map]
    split
    · simp only [List.length_cons, List.length_map, List.length_take, List.length_drop] at *
      omega
    · simp only [List.length_nil, List.length_take] at *
      omega

theorem Directory.dirents_fit (D : Directory kernel k dir) : ∀ d ∈ D.dirents, d.Fits := by
  intro d mem
  obtain ⟨i, inside, rfl⟩ := List.getElem_of_mem mem
  rw [D.length_dirents] at inside
  have few := D.few
  have name := length_prettyName D.entries[i].1
  have raw := D.fits _ (List.getElem_mem inside)
  unfold dirnameMax at raw
  have entry : D.dirents[i] = direntOf dir i D.entries[i] := List.getElem_mapIdx ..
  rw [entry]
  refine ⟨?_, inode_lt _ _, ?_⟩
  · dsimp only [direntOf]
    omega
  · dsimp only [direntOf]
    omega

def Directory.given (D : Directory kernel k dir) (a : Ask room) (index : Nat) : Nat :=
  Pages.whole a.bufLen.toNat ((D.dirents.drop index).map Dirent.bytes)

theorem heads_fit (ds : List Dirent) : ∀ r ∈ ds.map Dirent.bytes, 24 ≤ r.length := by
  intro r mem
  obtain ⟨d, _, rfl⟩ := List.mem_map.mp mem
  rw [d.length_bytes]
  exact Nat.le_add_right _ _

theorem direntsIn_page (D : Directory kernel k dir) (a : Ask room) (index : Nat) :
    direntsIn (D.page a index) = (D.dirents.drop index).take (D.given a index) := by
  have fits : ∀ d ∈ D.dirents.drop index, d.Fits := fun d mem =>
    D.dirents_fit d (List.mem_of_mem_drop mem)
  obtain ⟨cut, same, front⟩ := (@Pages.page_split _ _ a.bufLen.toNat) (heads_fit (D.dirents.drop index))
  have rest : direntsIn cut = [] := by
    rcases front with rfl | ⟨r, mem, begins, head, less⟩
    · exact direntsIn_nil
    · obtain ⟨d, among, rfl⟩ := List.mem_map.mp mem
      exact direntsIn_cut (fits d among) begins head less
  rw [Directory.page, same, ← List.map_take,
    direntsIn_flatten fun d mem => fits d (List.mem_of_mem_take mem), rest, List.append_nil]
  rfl

/-- A guest that lists: where it asks on from, and the entries it has had whole. -/
structure Reader (κ : Type) where
  host : Host κ
  cookie : Nat
  got : List Dirent

structure Turn (room : Room) where
  ask : Ask room
  mem : Nat → Byte

def Turn.before (t : Turn room) (h : Host κ) : Host κ := { h with mem := t.mem }

def answered (kernel : Kernel κ) (fd : U32) (r : Reader κ) (t : Turn room) : Except Stop Unit × Host κ :=
  ends (t.ask.call kernel fd r.cookie) (t.before r.host)

/-- `bufused` bytes of the buffer. -/
def received (a : Ask room) (mem : Nat → Byte) : Text :=
  (List.range (wordAt mem a.bufused.toNat)).map fun i => mem (a.buf.toNat + i)

def receive (kernel : Kernel κ) (fd : U32) (r : Reader κ) (t : Turn room) : Reader κ :=
  let h := (answered kernel fd r t).2
  let ds := direntsIn (received t.ask h.mem)
  { host := h, cookie := (ds.getLast?.map Dirent.next).getD r.cookie, got := r.got ++ ds }

/-- The guest has had the entries before its cookie, in order, and each of them once. -/
structure Directory.Read (D : Directory kernel k dir) (fd : U32) (r : Reader κ) : Prop where
  same : r.host.kernel = k
  listed : listedAs r.host fd = some dir
  place : r.cookie ≤ D.entries.length
  got : r.got = D.dirents.take r.cookie

theorem received_page {mem : Nat → Byte} {a : Ask room} {p : Text} (fits : p.length ≤ a.bufLen.toNat) :
    wordAt (overlay (overlay mem a.buf.toNat p) a.bufused.toNat (bytesOf 4 p.length)) a.bufused.toNat =
        p.length ∧
      received a (overlay (overlay mem a.buf.toNat p) a.bufused.toNat (bytesOf 4 p.length)) = p := by
  have apart := a.apart
  have count : wordAt (overlay (overlay mem a.buf.toNat p) a.bufused.toNat (bytesOf 4 p.length))
      a.bufused.toNat = p.length := by
    have field : (List.range 4).map (fun i => overlay (overlay mem a.buf.toNat p) a.bufused.toNat
        (bytesOf 4 p.length) (a.bufused.toNat + i)) = bytesOf 4 p.length := sits_read overlay_sits
    rw [wordAt, field]
    exact number_field (n := 4) (by omega)
  refine ⟨count, ?_⟩
  rw [received, count]
  have lies : Sits (overlay (overlay mem a.buf.toNat p) a.bufused.toNat (bytesOf 4 p.length))
      a.buf.toNat p := by
    refine (sits_congr fun i less => ?_).mpr ((@overlay_sits mem _ _))
    exact overlay_outside (by rw [length_bytesOf]; omega)
  exact sits_read lies

theorem last_next (D : Directory kernel k dir) {index given cookie : Nat}
    (within : index + given ≤ D.entries.length) (from' : cookie = index) :
    (((D.dirents.drop index).take given).getLast?.map Dirent.next).getD cookie = index + given := by
  rcases Nat.eq_zero_or_pos given with rfl | some
  · exact from'
  · have less : index + (given - 1) < D.entries.length := by omega
    have less' : index + (given - 1) < D.dirents.length := D.length_dirents ▸ less
    have entry : D.dirents[index + (given - 1)] =
        direntOf dir (index + (given - 1)) D.entries[index + (given - 1)] := List.getElem_mapIdx ..
    have length : ((D.dirents.drop index).take given).length = given := by
      rw [List.length_take, List.length_drop, D.length_dirents]
      omega
    rw [List.getLast?_eq_getElem?, length, List.getElem?_take_of_lt (by omega), List.getElem?_drop,
      List.getElem?_eq_getElem less', entry]
    change index + (given - 1) + 1 = index + given
    omega

theorem Directory.given_le (D : Directory kernel k dir) (a : Ask room) {index : Nat}
    (place : index ≤ D.entries.length) : index + D.given a index ≤ D.entries.length := by
  have most := Pages.whole_le a.bufLen.toNat ((D.dirents.drop index).map Dirent.bytes)
  rw [List.length_map, List.length_drop, D.length_dirents] at most
  unfold Directory.given
  omega

section Call

variable {D : Directory kernel k dir} {fd : U32} {r : Reader κ}

theorem Directory.Read.answered (read : D.Read fd r) (t : Turn room) :
    answered kernel fd r t = (.error (.returned ok),
      { r.host with
        mem := overlay (overlay t.mem t.ask.buf.toNat (D.page t.ask r.cookie)) t.ask.bufused.toNat
          (bytesOf 4 (D.page t.ask r.cookie).length) }) :=
  call_ends D t.ask (h := t.before r.host) read.same read.listed read.place

theorem Directory.Read.received (read : D.Read fd r) (t : Turn room) :
    wordAt (Wasm.answered kernel fd r t).2.mem t.ask.bufused.toNat = (D.page t.ask r.cookie).length ∧
      Wasm.received t.ask (Wasm.answered kernel fd r t).2.mem = D.page t.ask r.cookie := by
  rw [read.answered t]
  exact received_page (Pages.page_length _ _)

theorem Directory.Read.cookie (read : D.Read fd r) (t : Turn room) :
    (receive kernel fd r t).cookie = r.cookie + D.given t.ask r.cookie := by
  unfold receive
  dsimp only
  rw [(read.received t).2, direntsIn_page]
  exact last_next D (D.given_le t.ask read.place) rfl

theorem Directory.Read.step (read : D.Read fd r) (t : Turn room) : D.Read fd (receive kernel fd r t) := by
  have cookie := read.cookie t
  have got : (receive kernel fd r t).got =
      r.got ++ (D.dirents.drop r.cookie).take (D.given t.ask r.cookie) := by
    unfold receive
    dsimp only
    rw [(read.received t).2, direntsIn_page]
  refine ⟨?_, ?_, ?_, ?_⟩
  · change (Wasm.answered kernel fd r t).2.kernel = k
    rw [read.answered t]
    exact read.same
  · change listedAs (Wasm.answered kernel fd r t).2 fd = some dir
    rw [read.answered t]
    exact read.listed
  · rw [cookie]
    exact D.given_le t.ask read.place
  · rw [got, read.got, cookie, List.take_add]

theorem Directory.Read.run (read : D.Read fd r) (turns : List (Turn room)) :
    D.Read fd (turns.foldl (receive kernel fd) r) := by
  induction turns generalizing r with
  | nil => exact read
  | cons t turns ih => exact ih (read.step t)

structure Directory.Answers (D : Directory kernel k dir) (fd : U32) (r : Reader κ) (t : Turn room) :
    Prop where
  succeeds : (Wasm.answered kernel fd r t).1 = .error (.returned ok)
  stays : ∀ i, (i < t.ask.buf.toNat ∨ t.ask.buf.toNat + t.ask.bufLen.toNat ≤ i) →
    (i < t.ask.bufused.toNat ∨ t.ask.bufused.toNat + 4 ≤ i) →
      (Wasm.answered kernel fd r t).2.mem i = t.mem i
  within : wordAt (Wasm.answered kernel fd r t).2.mem t.ask.bufused.toNat ≤ t.ask.bufLen.toNat
  /-- A short count is for the end of the listing, or for a header that does not fit. -/
  short : wordAt (Wasm.answered kernel fd r t).2.mem t.ask.bufused.toNat < t.ask.bufLen.toNat →
    (receive kernel fd r t).cookie = D.entries.length ∨
      t.ask.bufLen.toNat < wordAt (Wasm.answered kernel fd r t).2.mem t.ask.bufused.toNat + 24
  grows : ∀ d ∈ D.dirents[r.cookie]?, d.bytes.length ≤ t.ask.bufLen.toNat →
    r.cookie < (receive kernel fd r t).cookie

theorem Directory.Read.answers (read : D.Read fd r) (t : Turn room) : D.Answers fd r t := by
  have length : (D.page t.ask r.cookie).length ≤ t.ask.bufLen.toNat := Pages.page_length _ _
  have drop : (D.dirents.drop r.cookie).length = D.entries.length - r.cookie := by
    rw [List.length_drop, D.length_dirents]
  have place := read.place
  have used := (read.received t).1
  refine ⟨?_, ?_, ?_, ?_, ?_⟩
  · rw [read.answered t]
  · intro i outside apart
    rw [read.answered t]
    dsimp only
    rw [overlay_outside (by rwa [length_bytesOf]), overlay_outside (by omega)]
  · rw [used]
    exact length
  · rw [used, read.cookie t]
    intro short
    refine (Pages.page_short (heads_fit (D.dirents.drop r.cookie)) short).imp_left fun all => ?_
    rw [List.length_map, drop] at all
    rw [Directory.given, all]
    omega
  · intro d next fits
    obtain ⟨inside, rfl⟩ := List.getElem?_eq_some_iff.mp next
    have some : 0 < D.given t.ask r.cookie := by
      rw [Directory.given, List.drop_eq_getElem_cons inside, List.map_cons]
      exact Pages.whole_pos _ fits
    rw [read.cookie t]
    omega

end Call

theorem Directory.Read.reaches {D : Directory kernel k dir} {fd : U32} {r : Reader κ}
    (read : D.Read fd r) {turns : List (Turn room)}
    (roomy : ∀ t ∈ turns, ∀ d ∈ D.dirents, d.bytes.length ≤ t.ask.bufLen.toNat) :
    min D.entries.length (r.cookie + turns.length) ≤ (turns.foldl (receive kernel fd) r).cookie := by
  induction turns generalizing r with
  | nil => exact Nat.min_le_right _ _
  | cons t turns ih =>
    obtain ⟨fits, roomy⟩ := List.forall_mem_cons.mp roomy
    have rest := ih (read.step t) roomy
    have next := read.cookie t
    rw [List.foldl_cons, List.length_cons]
    by_cases done : r.cookie < D.entries.length
    · have entry := List.getElem?_eq_getElem (D.length_dirents.symm ▸ done)
      have grown := (read.answers t).grows _ entry (fits _ (List.getElem_mem _))
      omega
    · omega

/-- In every listing the entries come in order and each once, up to the end when the buffers have room
for them, and a call that uses less than its buffer has come to the end of the listing or has no room
for another header. -/
theorem listing_delivered (D : Directory kernel k dir) {fd : U32} {h : Host κ} (same : h.kernel = k)
    (listed : listedAs h fd = some dir) (turns : List (Turn room)) :
    let r := turns.foldl (receive kernel fd) ⟨h, 0, []⟩
    r.cookie ≤ D.entries.length ∧ r.got = D.dirents.take r.cookie ∧
      ((∀ t ∈ turns, ∀ d ∈ D.dirents, d.bytes.length ≤ t.ask.bufLen.toNat) →
        D.entries.length ≤ turns.length → r.got = D.dirents) ∧
      ∀ t : Turn room, D.Answers fd r t := by
  have start : D.Read fd ⟨h, 0, []⟩ := ⟨same, listed, Nat.zero_le _, rfl⟩
  have read := start.run turns
  refine ⟨read.place, read.got, fun roomy many => ?_, read.answers⟩
  have reached := start.reaches roomy
  rw [read.got, List.take_of_length_le]
  rw [D.length_dirents]
  omega

end Page

def shelf : Kernel Unit :=
  { idle with dirAt := fun _ _ i => [(ascii "A", 0), (ascii "B", 0)][i]? }

def shelfListing : Directory shelf () [0x2f] where
  entries := [(ascii "A", 0), (ascii "B", 0)]
  lists _ := rfl
  few := by decide
  fits := by decide

def shelfHost : Host Unit := ⟨fun _ => 0, noPaths, (), none⟩

def shortAsk : Ask page where
  buf := 256
  bufLen := 30
  bufused := 0
  least := by decide
  inside := by decide
  counted := by decide
  apart := by decide

theorem listing_delivered_shelf :
    let r := [(⟨shortAsk, fun _ => 0⟩ : Turn page)].foldl (receive shelf 3) ⟨shelfHost, 0, []⟩
    r.cookie ≤ 2 ∧ r.got = shelfListing.dirents.take r.cookie :=
  have delivered := @listing_delivered _ _ _ _ page shelfListing 3 shelfHost rfl rfl
    [⟨shortAsk, fun _ => 0⟩]
  ⟨delivered.1, delivered.2.1⟩

/-- A count of 25 in a buffer of 30, and an entry is still to come. -/
theorem short_count_before_end :
    let t : Turn page := ⟨shortAsk, fun _ => 0⟩
    wordAt (answered shelf 3 ⟨shelfHost, 0, []⟩ t).2.mem 0 = 25 ∧ 25 < shortAsk.bufLen.toNat ∧
      (receive shelf 3 ⟨shelfHost, 0, []⟩ t).cookie = 1 ∧ shelfListing.entries.length = 2 := by
  have read : shelfListing.Read 3 ⟨shelfHost, 0, []⟩ := ⟨rfl, rfl, Nat.zero_le _, rfl⟩
  refine ⟨?_, by decide, ?_, rfl⟩
  · exact (read.received ⟨shortAsk, fun _ => 0⟩).1.trans (by decide)
  · exact (read.cookie ⟨shortAsk, fun _ => 0⟩).trans (by decide)

end Ubiqos.Wasm
