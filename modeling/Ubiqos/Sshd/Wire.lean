import Mathlib.Data.BitVec
import Mathlib.Data.List.Basic

/-!
The wire's types in `modules/sshd/sshd.c`. A reader counts in 32 bits, and the
buffer it reads has old bytes behind the packet. A handler's reads are a
`Reading`.
-/

namespace Ubiqos.Sshd

abbrev Byte := BitVec 8

/-- A buffer and all that lies behind it. -/
abbrev Memory := Nat → Byte

def Memory.word (b : Memory) (i : Nat) : Nat :=
  (b i).toNat * 2 ^ 24 + (b (i + 1)).toNat * 2 ^ 16 + (b (i + 2)).toNat * 2 ^ 8 + (b (i + 3)).toNat

structure Piece where
  start : Nat
  len : Nat
  deriving DecidableEq

def Piece.bytes (p : Piece) (b : Memory) : List Byte :=
  (List.range p.len).map (fun i => b (p.start + i))

/-- `rd_t`, and the strings it has handed out. -/
structure Rd where
  b : Memory
  n : Nat
  pos : Nat
  ended : Bool
  strings : List Piece

def reader (b : Memory) (n pos : Nat) : Rd := ⟨b, n, pos, false, []⟩

abbrev Reading := StateM Rd

def r_byte : Reading Byte := fun r =>
  if r.n < (r.pos + 1) % 2 ^ 32 then (0, { r with ended := true })
  else (r.b r.pos, { r with pos := r.pos + 1 })

def r_u32 : Reading Nat := fun r =>
  if r.n < (r.pos + 4) % 2 ^ 32 then (0, { r with ended := true, pos := r.n })
  else (r.b.word r.pos, { r with pos := r.pos + 4 })

def r_str : Reading (List Byte) := fun r =>
  let n := (r_u32 r).1
  let r := (r_u32 r).2
  if r.ended || r.n < (r.pos + n) % 2 ^ 32 then
    ([], { r with ended := true, strings := r.strings ++ [⟨0, 0⟩] })
  else
    (Piece.bytes ⟨r.pos, n⟩ r.b,
      { r with pos := (r.pos + n) % 2 ^ 32, strings := r.strings ++ [⟨r.pos, n⟩] })

def r_over : Reading Bool := fun r => (r.ended, r)

def ascii (s : String) : List Byte := s.toList.map (fun c => BitVec.ofNat 8 c.toNat)

def r_is (p : List Byte) (s : String) : Bool := p == ascii s

def w_u32 (v : Nat) : List Byte :=
  [BitVec.ofNat 8 (v / 2 ^ 24), BitVec.ofNat 8 (v / 2 ^ 16), BitVec.ofNat 8 (v / 2 ^ 8), BitVec.ofNat 8 v]

def w_strn (p : List Byte) : List Byte := w_u32 p.length ++ p

def w_str (s : String) : List Byte := w_strn (ascii s)

def PKT_MAX : Nat := 4096

section Rules
variable {α β : Type}

theorem bind_apply (first : Reading α) (rest : α → Reading β) (r : Rd) :
    (first >>= rest) r = rest (first r).1 (first r).2 := rfl

theorem ret_apply (x : α) (r : Rd) : (pure x : Reading α) r = (x, r) := rfl

end Rules

end Ubiqos.Sshd
