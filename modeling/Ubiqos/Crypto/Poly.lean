import Mathlib.Data.BitVec
import Mathlib.Tactic.Ring
import Mathlib.Tactic.Linarith

/-!
Poly1305 of `kernel/crypto.c`: the accumulator in five limbs of 26 bits, in words of 32
and products of 64. Between blocks the carries are passed on in part only, so a limb may
stand for a little more than its digit; `Limbs.Small` says how much.
-/

namespace Ubiqos.Crypto

abbrev Byte := BitVec 8
abbrev U32 := BitVec 32
abbrev U64 := BitVec 64

def word (m : Nat → Byte) (i : Nat) : U32 :=
  (m i).setWidth 32 ||| (m (i + 1)).setWidth 32 <<< 8 |||
    (m (i + 2)).setWidth 32 <<< 16 ||| (m (i + 3)).setWidth 32 <<< 24

structure Limbs where
  l0 : U32
  l1 : U32
  l2 : U32
  l3 : U32
  l4 : U32
  deriving DecidableEq

/-- `poly_t`. -/
structure Poly where
  r : Limbs
  h : Limbs
  pad0 : U32
  pad1 : U32
  pad2 : U32
  pad3 : U32

def polyInit (key : Nat → Byte) : Poly :=
  let t0 := word key 0
  let t1 := word key 4
  let t2 := word key 8
  let t3 := word key 12
  { r :=
      { l0 := t0 &&& 0x3ffffff
        l1 := (t0 >>> 26 ||| t1 <<< 6) &&& 0x3ffff03
        l2 := (t1 >>> 20 ||| t2 <<< 12) &&& 0x3ffc0ff
        l3 := (t2 >>> 14 ||| t3 <<< 18) &&& 0x3f03fff
        l4 := t3 >>> 8 &&& 0x00fffff }
    h := ⟨0, 0, 0, 0, 0⟩
    pad0 := word key 16
    pad1 := word key 20
    pad2 := word key 24
    pad3 := word key 28 }

def absorb (hibit : U32) (h : Limbs) (m : Nat → Byte) : Limbs :=
  let t0 := word m 0
  let t1 := word m 4
  let t2 := word m 8
  let t3 := word m 12
  { l0 := h.l0 + (t0 &&& 0x3ffffff)
    l1 := h.l1 + ((t0 >>> 26 ||| t1 <<< 6) &&& 0x3ffffff)
    l2 := h.l2 + ((t1 >>> 20 ||| t2 <<< 12) &&& 0x3ffffff)
    l3 := h.l3 + ((t2 >>> 14 ||| t3 <<< 18) &&& 0x3ffffff)
    l4 := h.l4 + (t3 >>> 8 ||| hibit) }

structure Products where
  d0 : U64
  d1 : U64
  d2 : U64
  d3 : U64
  d4 : U64

def mul (a b : U32) : U64 := a.setWidth 64 * b.setWidth 64

def multiply (h r : Limbs) : Products :=
  let s1 := r.l1 * 5
  let s2 := r.l2 * 5
  let s3 := r.l3 * 5
  let s4 := r.l4 * 5
  { d0 := mul h.l0 r.l0 + mul h.l1 s4 + mul h.l2 s3 + mul h.l3 s2 + mul h.l4 s1
    d1 := mul h.l0 r.l1 + mul h.l1 r.l0 + mul h.l2 s4 + mul h.l3 s3 + mul h.l4 s2
    d2 := mul h.l0 r.l2 + mul h.l1 r.l1 + mul h.l2 r.l0 + mul h.l3 s4 + mul h.l4 s3
    d3 := mul h.l0 r.l3 + mul h.l1 r.l2 + mul h.l2 r.l1 + mul h.l3 r.l0 + mul h.l4 s4
    d4 := mul h.l0 r.l4 + mul h.l1 r.l3 + mul h.l2 r.l2 + mul h.l3 r.l1 + mul h.l4 r.l0 }

def low (d : U64) : U32 := d.setWidth 32 &&& 0x3ffffff
def carried (d : U64) : U32 := (d >>> 26).setWidth 32

def carry (d : Products) : Limbs :=
  let d0 := d.d0
  let d1 := d.d1 + (carried d0).setWidth 64
  let d2 := d.d2 + (carried d1).setWidth 64
  let d3 := d.d3 + (carried d2).setWidth 64
  let d4 := d.d4 + (carried d3).setWidth 64
  let h0 := low d0 + carried d4 * 5
  { l0 := h0 &&& 0x3ffffff
    l1 := low d1 + h0 >>> 26
    l2 := low d2
    l3 := low d3
    l4 := low d4 }

/-- The loop of `poly_blocks`, over so many blocks. -/
def polyLoop (hibit : U32) (r : Limbs) : Nat → (Nat → Byte) → Limbs → Limbs
  | 0, _, h => h
  | n + 1, m, h => polyLoop hibit r n (fun i => m (16 + i)) (carry (multiply (absorb hibit h m) r))

def polyBlocks (p : Poly) (m : Nat → Byte) (bytes : Nat) (final : Bool) : Poly :=
  { p with h := polyLoop (if final then 0 else (1 : U32) <<< 24) p.r (bytes / 16) m p.h }

def lastBlock (m : Nat → Byte) (left : Nat) : Nat → Byte := fun i =>
  if i = left then 1 else if i < left then m i else 0

/-- The carries of `poly_finish`, through all limbs. -/
def settle (h : Limbs) : Limbs :=
  let h2 := h.l2 + h.l1 >>> 26
  let h3 := h.l3 + h2 >>> 26
  let h4 := h.l4 + h3 >>> 26
  let h0 := h.l0 + h4 >>> 26 * 5
  { l0 := h0 &&& 0x3ffffff
    l1 := (h.l1 &&& (0x3ffffff : U32)) + h0 >>> 26
    l2 := h2 &&& 0x3ffffff
    l3 := h3 &&& 0x3ffffff
    l4 := h4 &&& 0x3ffffff }

/-- What is left of the accumulator when the prime is taken from it. The top limb goes
below zero where the accumulator is the smaller. -/
def lessPrime (h : Limbs) : Limbs :=
  let g0 := h.l0 + 5
  let g1 := h.l1 + g0 >>> 26
  let g2 := h.l2 + g1 >>> 26
  let g3 := h.l3 + g2 >>> 26
  { l0 := g0 &&& 0x3ffffff
    l1 := g1 &&& 0x3ffffff
    l2 := g2 &&& 0x3ffffff
    l3 := g3 &&& 0x3ffffff
    l4 := h.l4 + g3 >>> 26 - (1 : U32) <<< 26 }

def choose (h g : Limbs) : Limbs :=
  let mask := g.l4 >>> 31 - 1
  { l0 := (h.l0 &&& ~~~mask) ||| (g.l0 &&& mask)
    l1 := (h.l1 &&& ~~~mask) ||| (g.l1 &&& mask)
    l2 := (h.l2 &&& ~~~mask) ||| (g.l2 &&& mask)
    l3 := (h.l3 &&& ~~~mask) ||| (g.l3 &&& mask)
    l4 := (h.l4 &&& ~~~mask) ||| (g.l4 &&& mask) }

def pack (h : Limbs) (pad0 pad1 pad2 pad3 : U32) : List U32 :=
  let f0 := (h.l0 ||| h.l1 <<< 26).setWidth 64 + pad0.setWidth 64
  let f1 := (h.l1 >>> 6 ||| h.l2 <<< 20).setWidth 64 + pad1.setWidth 64 + f0 >>> 32
  let f2 := (h.l2 >>> 12 ||| h.l3 <<< 14).setWidth 64 + pad2.setWidth 64 + f1 >>> 32
  let f3 := (h.l3 >>> 18 ||| h.l4 <<< 8).setWidth 64 + pad3.setWidth 64 + f2 >>> 32
  [f0.setWidth 32, f1.setWidth 32, f2.setWidth 32, f3.setWidth 32]

def bytesOf (w : U32) : List Byte :=
  [w.setWidth 8, (w >>> 8).setWidth 8, (w >>> 16).setWidth 8, (w >>> 24).setWidth 8]

def polyFinish (p : Poly) (m : Nat → Byte) (left : Nat) : List Byte :=
  let p := if left = 0 then p else polyBlocks p (lastBlock m left) 16 true
  let h := settle p.h
  (pack (choose h (lessPrime h)) p.pad0 p.pad1 p.pad2 p.pad3).flatMap bytesOf

end Ubiqos.Crypto
