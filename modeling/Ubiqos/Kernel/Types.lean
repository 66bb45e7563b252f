import Mathlib.Data.BitVec
import Mathlib.Data.Fin.Basic

/-!
The data of `kernel/scheduler.c`. The table has `n` slots, a number each board
chooses in `kernel/sizes.h`; slot zero is the kernel's own idle process. A
process number is an index of the table and the C's `-1` is `none`.
-/

namespace Ubiqos

abbrev Pid (n : Nat) := Fin n
abbrev Level := Fin 32
abbrev U32 := BitVec 32
abbrev Addr := Nat

inductive ProcState where
  | free | ready | running | waitRead | waitWrite | waitChild
  | sleeping | waitRecv | waitReply | zombie
  deriving DecidableEq, Repr

/-- What the scheduler reads of a module header: which module it is, whether
two processes may share it, and whether its image has to be copied to run. -/
structure Module where
  address : Addr
  reentrant : Bool
  needsCopy : Bool
  deriving DecidableEq

/-- `ubiqos_msg_t`. -/
structure Msg (n : Nat) where
  type : U32
  len : U32
  data : Addr
  sender : Pid n
  deriving DecidableEq

/-- `pulse_t`. -/
structure Pulse (n : Nat) where
  dest : Pid n
  origin : Pid n
  type : U32
  value : U32
  deriving DecidableEq

/-- `arm_t`: a watch on a descriptor. Slot zero of the table cannot watch, so
`pid = 0` marks an unused entry. -/
structure Arm (n : Nat) where
  pid : Pid n
  path : Int
  type : U32
  deriving DecidableEq

/-- `(uint32_t)-1`, what a failed call returns. -/
def failed : U32 := 0xffffffff

/-- `UBIQOS_RECV_TIMEOUT`, which is `-3`. -/
def recvTimeout : U32 := 0xfffffffd

/-- `UBIQOS_TIMEOUT_FOREVER`. -/
def timeoutForever : U32 := 0xffffffff

def Pid.word {n : Nat} (pid : Pid n) : U32 := BitVec.ofNat 32 pid

/-- `pid <= 0 || pid >= MAX_PROCESSES` is refused; what is left is a slot. -/
def pidOf (n : Nat) (raw : Int) : Option (Pid n) :=
  if inside : 0 < raw ∧ raw < n then some ⟨raw.toNat, by omega⟩ else none

theorem pidOf_some {n : Nat} {raw : Int} {pid : Pid n} (found : pidOf n raw = some pid) :
    raw = (pid : Nat) ∧ 0 < (pid : Nat) := by
  unfold pidOf at found
  split at found
  · rename_i inside
    have same := congrArg Fin.val (Option.some.inj found)
    simp only at same
    omega
  · exact absurd found (by simp)

theorem pidOf_ne_zero {n : Nat} [NeZero n] {raw : Int} {pid : Pid n}
    (found : pidOf n raw = some pid) : pid ≠ 0 := by
  have positive := (pidOf_some found).2
  intro zero
  rw [zero] at positive
  exact absurd positive (by simp)

theorem pidOf_coe {n : Nat} [NeZero n] {pid : Pid n} (nonzero : pid ≠ 0) :
    pidOf n ((pid : Nat) : Int) = some pid := by
  have positive : 0 < (pid : Nat) := Nat.pos_of_ne_zero (fun zero => nonzero (Fin.ext zero))
  have inside : 0 < ((pid : Nat) : Int) ∧ ((pid : Nat) : Int) < n := by omega
  rw [pidOf, dif_pos inside]
  congr

end Ubiqos
