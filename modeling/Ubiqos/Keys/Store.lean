import Mathlib.Data.BitVec
import Mathlib.Logic.Function.Basic
import Mathlib.Data.Fintype.Basic

/-!
The key store of `kernel/keystore.c`: records in the clear while the store is
open, and two sealed copies of them in flash, of which one is live. A write
goes to the copy that is not, and may fail or be cut off on its way.

The cipher is that of `kernel/crypto.c` over its two primitives: a stream of
bytes to exclusive-or with, and the tag of what that gives.
-/

namespace Ubiqos.Keys

open Function

abbrev Byte := BitVec 8
abbrev Bytes (n : Nat) := Fin n → Byte
abbrev Key := Bytes 32
abbrev Nonce := Bytes 12
abbrev Tag := Bytes 16
abbrev Salt := Bytes 16
abbrev Token := Bytes 32

def nameMax : Nat := 40
def valueMax : Nat := 96
def keySlots : Nat := 28
def slotBytes : Nat := 140
def plainBytes : Nat := 3920

/-- `chacha_xor`, `tag_of`, PBKDF2 with the chip's id in the salt, and the key
that HMAC with that id makes of a token. -/
structure Crypto where
  stream : Key → Nonce → Nat → Byte
  tagOf : Key → Nonce → (n : Nat) → Bytes n → Tag
  pbkdf2 : List Byte → Salt → Nat → Key
  fileKey : Token → Key

def Crypto.xor (c : Crypto) (key : Key) (nonce : Nonce) {n : Nat} (bytes : Bytes n) : Bytes n :=
  fun i => bytes i ^^^ c.stream key nonce i

def Crypto.seal (c : Crypto) (key : Key) (nonce : Nonce) {n : Nat} (plain : Bytes n) :
    Bytes n × Tag :=
  (c.xor key nonce plain, c.tagOf key nonce n (c.xor key nonce plain))

def Crypto.unseal (c : Crypto) (key : Key) (nonce : Nonce) {n : Nat} (cipher : Bytes n)
    (tag : Tag) : Option (Bytes n) :=
  if c.tagOf key nonce n cipher = tag then some (c.xor key nonce cipher) else none

/-- `key_slot_t`: the name, the length, two bytes nothing reads, and the value. -/
abbrev Slot := Bytes slotBytes

def Slot.byte (s : Slot) (i : Nat) : Byte := if h : i < slotBytes then s ⟨i, h⟩ else 0

def Slot.len (s : Slot) : Nat := (s.byte 40).toNat + (s.byte 41).toNat * 2 ^ 8

def Slot.name (s : Slot) : List Byte := ((List.range nameMax).map s.byte).takeWhile (· ≠ 0)

def Slot.value (s : Slot) : List Byte := (List.range s.len).map (fun i => s.byte (44 + i))

/-- A slot as `ubiqos_keys_set` fills it, over zeroes. -/
def Slot.of (name value : List Byte) : Slot := fun i =>
  if i.val < 40 then name.getD i 0
  else if i.val = 40 then BitVec.ofNat 8 value.length
  else if i.val = 41 then BitVec.ofNat 8 (value.length / 2 ^ 8)
  else if i.val < 44 then 0
  else value.getD (i.val - 44) 0

def emptySlot : Slot := fun _ => 0

abbrev Plain := Fin keySlots → Slot

def emptyPlain : Plain := fun _ => emptySlot

def Plain.bytes (p : Plain) : Bytes plainBytes := fun j =>
  p ⟨j / slotBytes, by have := j.isLt; simp only [plainBytes, slotBytes, keySlots] at *; omega⟩
    ⟨j % slotBytes, Nat.mod_lt _ (by simp [slotBytes])⟩

def plainOf (b : Bytes plainBytes) : Plain := fun i j =>
  b ⟨slotBytes * i + j, by
    have := i.isLt
    have := j.isLt
    simp only [plainBytes, slotBytes, keySlots] at *
    omega⟩

def nameEq (a b : List Byte) : Bool := a = b ∧ a.length < nameMax

def slotFor (p : Plain) (name : List Byte) : Option (Fin keySlots) :=
  (List.finRange keySlots).find? (fun i => (p i).len ≠ 0 && nameEq (p i).name name)

def spareSlot (p : Plain) : Option (Fin keySlots) :=
  (List.finRange keySlots).find? (fun i => (p i).len = 0)

/-- `find`: no name at all is found nowhere. -/
def find (p : Plain) (name : List Byte) : Option (Fin keySlots) :=
  if name = [] then none else slotFor p name

/-- What `ubiqos_keys_value` hands out of an open store. -/
def lookup (p : Plain) (name : List Byte) : Option (List Byte) :=
  (find p name).map (fun i => (p i).value)

/-- `key_store_t`. -/
structure Store where
  magic : Nat
  format : Nat
  seq : Nat
  rounds : Nat
  salt : Salt
  nonce : Nonce
  tag : Tag
  sealed : Bytes plainBytes
  wrapMagic : Nat
  wrapNonce : Nonce
  wrapTag : Tag
  wrapped : Bytes 32
  deriving DecidableEq

def keysMagic : Nat := 0x59454b55
def keysFormat : Nat := 3
def keysWrapped : Nat := 0x50415257
def keysRounds : Nat := 25000
def ones : Nat := 2 ^ 32 - 1

/-- A word that starts at `off`, when the first `n` bytes are programmed. -/
def tearWord (off n v : Nat) : Nat := if off + 4 ≤ n then v else ones

def tearBytes {m : Nat} (off n : Nat) (b : Bytes m) : Bytes m :=
  fun i => if off + i < n then b i else 0xff

/-- An erased sector with the first `n` bytes of an image programmed. Programming
goes by words at least, so that no word is left half done. -/
def Store.tear (s : Store) (n : Nat) : Store where
  magic := tearWord 0 n s.magic
  format := tearWord 4 n s.format
  seq := tearWord 8 n s.seq
  rounds := tearWord 12 n s.rounds
  salt := tearBytes 16 n s.salt
  nonce := tearBytes 32 n s.nonce
  tag := tearBytes 44 n s.tag
  sealed := tearBytes 60 n s.sealed
  wrapMagic := tearWord 3980 n s.wrapMagic
  wrapNonce := tearBytes 3984 n s.wrapNonce
  wrapTag := tearBytes 3996 n s.wrapTag
  wrapped := tearBytes 4012 n s.wrapped

def blank : Store := Store.tear ⟨0, 0, 0, 0, fun _ => 0, fun _ => 0, fun _ => 0, fun _ => 0, 0,
  fun _ => 0, fun _ => 0, fun _ => 0⟩ 0

def copyIsGood (s : Store) : Bool :=
  s.magic = keysMagic ∧ (s.format = 2 ∨ s.format = keysFormat) ∧ 1000 ≤ s.rounds

def copyHasWrap (s : Store) : Bool := s.format = keysFormat ∧ s.wrapMagic = keysWrapped

abbrev Flash := Bool → Store

/-- `ubiqos_keys_init`: the copy that is live, `false` being the first. -/
def choose (flash : Flash) : Option Bool :=
  if copyIsGood (flash false) ∧ copyIsGood (flash true) then
    some (if (flash true).seq ≤ (flash false).seq then false else true)
  else if copyIsGood (flash false) then some false
  else if copyIsGood (flash true) then some true
  else none

structure Board where
  flash : Flash
  live : Option Bool
  plain : Option Plain
  unlockedKey : Key

def boot (flash : Flash) : Board := ⟨flash, choose flash, none, fun _ => 0⟩

/-- The units programming goes by: a page on the RP2350, a quad-word on the H5, a
word on the F4. -/
inductive Part where
  | rp2350 | h5 | f4
  deriving DecidableEq

def Part.page : Part → Nat
  | .rp2350 => 256
  | .h5 => 16
  | .f4 => 4

/-- How `do_write` ends. It may take effect, fail and leave something, or be cut
off by the power after some pages. -/
inductive Fate where
  | takes
  | fails (left : Store)
  | cut (pages : Nat)

/-- What a write meets: whether there is memory for the image, whether the other
core parks, the random nonce, and how the flash takes it. -/
structure Env where
  room : Bool
  parks : Bool
  nonce : Nonce
  fate : Fate

def noMemory : Int := -7

/-- The result of a call, which a power cut keeps from returning. -/
abbrev Outcome := Option Int × Board

section Calls
variable (c : Crypto) (part : Part)

/-- `do_write` and the check that reads back. A write that passes returns `rc` and
goes on with `taken`. -/
def putImage (k : Board) (env : Env) (which : Bool) (img : Store) (rc : Int)
    (taken : Board → Board) : Outcome :=
  match env.fate with
  | .cut pages => (none, boot (update k.flash which (img.tear (pages * part.page))))
  | .takes =>
    let k := { k with flash := update k.flash which img }
    if copyIsGood img then (some rc, taken { k with live := some which }) else (some (-4), k)
  | .fails left =>
    let k := { k with flash := update k.flash which left }
    if copyIsGood left ∧ left.seq = img.seq then (some rc, taken { k with live := some which })
    else (some (-4), k)

inductive WrapChange where
  | leave
  | out
  | put (nonce : Nonce) (tag : Tag) (wrapped : Bytes 32)

def noWrap (s : Store) : Store :=
  { s with wrapMagic := 0, wrapNonce := fun _ => 0, wrapTag := fun _ => 0, wrapped := fun _ => 0 }

def WrapChange.apply (w : WrapChange) (s : Store) : Store :=
  match w with
  | .leave => s
  | .out => noWrap s
  | .put nonce tag wrapped =>
    { s with wrapMagic := keysWrapped, wrapNonce := nonce, wrapTag := tag, wrapped := wrapped }

/-- The image `seal_and_write` builds from the live copy. -/
def nextImage (live : Store) (wrap : WrapChange) (key : Key) (nonce : Nonce) (plain : Plain) :
    Store :=
  let carried := if copyHasWrap live then live else noWrap live
  let img := wrap.apply { carried with seq := (live.seq + 1) % 2 ^ 32, format := keysFormat }
  { img with
    nonce := nonce
    sealed := (c.seal key nonce plain.bytes).1
    tag := (c.seal key nonce plain.bytes).2 }

def sealAndWrite (k : Board) (env : Env) (wrap : WrapChange) : Outcome :=
  match k.plain, k.live with
  | some plain, some live =>
    if !env.room then (some noMemory, k)
    else if !env.parks then (some (-3), k)
    else
      putImage part k env (!live)
        (nextImage c (k.flash live) wrap k.unlockedKey env.nonce plain) 0 id
  | _, _ => (some (-1), k)

def changeSlot (k : Board) (env : Env) (plain : Plain) (i : Fin keySlots) (s : Slot) : Outcome :=
  match sealAndWrite c part { k with plain := some (update plain i s) } env .leave with
  | (some 0, k) => (some 0, k)
  | (some rc, k) => (some rc, { k with plain := some plain })
  | (none, k) => (none, k)

def keysSet (k : Board) (env : Env) (name value : List Byte) : Outcome :=
  match k.plain with
  | none => (some (-5), k)
  | some plain =>
    if name = [] ∨ value = [] ∨ valueMax < value.length then (some (-1), k)
    else if nameMax ≤ name.length then (some (-1), k)
    else
      match (slotFor plain name).or (spareSlot plain) with
      | none => (some (-2), k)
      | some i => changeSlot c part k env plain i (Slot.of name value)

def keysRemove (k : Board) (env : Env) (name : List Byte) : Outcome :=
  match k.plain with
  | none => (some (-5), k)
  | some plain =>
    match find plain name with
    | none => (some (-1), k)
    | some i => changeSlot c part k env plain i emptySlot

def keysLock (k : Board) : Board := { k with plain := none, unlockedKey := fun _ => 0 }

def derive (st : Store) (pass : List Byte) : Key := c.pbkdf2 pass st.salt st.rounds

def firstImage (pass : List Byte) (salt : Salt) (nonce : Nonce) : Store :=
  let key := c.pbkdf2 pass salt keysRounds
  { magic := keysMagic, format := keysFormat, seq := 1, rounds := keysRounds, salt := salt
    nonce := nonce
    tag := (c.seal key nonce emptyPlain.bytes).2
    sealed := (c.seal key nonce emptyPlain.bytes).1
    wrapMagic := 0, wrapNonce := fun _ => 0, wrapTag := fun _ => 0, wrapped := fun _ => 0 }

/-- `space` is whether there is memory for the records. -/
def keysUnlock (k : Board) (env : Env) (space : Bool) (salt : Salt) (pass : List Byte) : Outcome :=
  if pass = [] then (some (-1), k)
  else if k.plain.isSome then (some 0, k)
  else if !space then (some noMemory, k)
  else
    match k.live with
    | none =>
      if !env.room then (some noMemory, k)
      else if !env.parks then (some (-3), { k with unlockedKey := fun _ => 0 })
      else
        putImage part { k with unlockedKey := fun _ => 0 } env false
          (firstImage c pass salt env.nonce) 1
          (fun k => { k with
            plain := some emptyPlain, unlockedKey := c.pbkdf2 pass salt keysRounds })
    | some b =>
      let st := k.flash b
      match c.unseal (derive c st pass) st.nonce st.sealed st.tag with
      | none => (some (-6), k)
      | some bytes =>
        (some 0, { k with plain := some (plainOf bytes), unlockedKey := derive c st pass })

def keysUnattendedOn (k : Board) (env : Env) (token : Token) (wrapNonce : Nonce) : Outcome :=
  if k.plain.isNone then (some (-5), k)
  else
    let sealed := c.seal (c.fileKey token) wrapNonce k.unlockedKey
    sealAndWrite c part k env (.put wrapNonce sealed.2 sealed.1)

def keysUnattendedOff (k : Board) (env : Env) : Outcome :=
  if k.plain.isNone then (some (-5), k) else sealAndWrite c part k env .out

def keysUnlockFile (k : Board) (space : Bool) (token : Token) : Outcome :=
  if k.plain.isSome then (some 0, k)
  else
    match k.live with
    | none => (some (-7), k)
    | some b =>
      let st := k.flash b
      if !copyHasWrap st then (some (-7), k)
      else
        match c.unseal (c.fileKey token) st.wrapNonce st.wrapped st.wrapTag with
        | none => (some (-6), k)
        | some key =>
          if !space then (some (-1), k)
          else
            match c.unseal key st.nonce st.sealed st.tag with
            | none => (some (-6), k)
            | some bytes =>
              (some 0, { k with plain := some (plainOf bytes), unlockedKey := key })

def keysDestroy (k : Board) (parks : Bool) : Outcome :=
  if !parks then (some (-3), keysLock k)
  else (some 0, { keysLock k with flash := fun _ => blank, live := none })

structure Name where
  bytes : List Byte
  ended : 0 ∉ bytes

inductive Op where
  | unlock (env : Env) (space : Bool) (salt : Salt) (pass : List Byte)
  | unlockFile (space : Bool) (token : Token)
  | lock
  | reboot
  | set (env : Env) (name : Name) (value : List Byte)
  | remove (env : Env) (name : Name)
  | unattendedOn (env : Env) (token : Token) (wrapNonce : Nonce)
  | unattendedOff (env : Env)
  | destroy (parks : Bool)

def call (k : Board) : Op → Outcome
  | .unlock env space salt pass => keysUnlock c part k env space salt pass
  | .unlockFile space token => keysUnlockFile c k space token
  | .lock => (some 0, keysLock k)
  | .reboot => (none, boot k.flash)
  | .set env name value => keysSet c part k env name.bytes value
  | .remove env name => keysRemove c part k env name.bytes
  | .unattendedOn env token wrapNonce => keysUnattendedOn c part k env token wrapNonce
  | .unattendedOff env => keysUnattendedOff c part k env
  | .destroy parks => keysDestroy k parks

def step (k : Board) (op : Op) : Board := (call c part k op).2

end Calls

end Ubiqos.Keys
