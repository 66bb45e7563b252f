import Ubiqos.Fat.Cycles

/-!
The calls on a device that answers: each comes to a scan that does not end or to a freeing
that does not, or it ends itself. Every other loop of the module has a measure: a count of
sectors, of slots or of bytes still to come.
-/

namespace Ubiqos.Fat

open Function Prog Orbit

section Settling
variable {v : Volume}

theorem settled {α : Type} {a : α} : Settles Lost (Calm v) (pure a) fun _ => True := settles_pure trivial

end Settling

inductive Operation
  | stat (path : CString)
  | readAt (path : CString) (offset len : BitVec 32)
  | statNth (path : CString) (index : Nat)
  | writeAt (path : CString) (offset : BitVec 32) (buf : Nat → Byte) (len : BitVec 32)
  | remove (path : CString)
  | rename (source target : CString)
  | mkdir (path : CString)
  | rmdir (path : CString)

def Operation.run : Operation → Prog Fs Unit
  | .stat path => do let _ ← Fat.stat path; return ()
  | .readAt path offset len => do let _ ← Fat.readAt path offset len; return ()
  | .statNth path index => do let _ ← Fat.statNth path index; return ()
  | .writeAt path offset buf len => do let _ ← Fat.writeAt path offset buf len; return ()
  | .remove path => do let _ ← Fat.remove path; return ()
  | .rename source target => do let _ ← Fat.rename source target; return ()
  | .mkdir path => do let _ ← Fat.mkdir path; return ()
  | .rmdir path => do let _ ← Fat.rmdir path; return ()

section Operations
variable {s : Fs}

end Operations

section Ring

/-- The root directory holds a deleted entry and the file `A` of two clusters, behind its fragment. -/
def filed : Fs :=
  let s := strayed chainEnd (setEntry namedSector 64 (wr16 (namedSector ∘ (64 + ·)) 26 3))
  { s with card := fun lba => if lba = 1 ∨ lba = 3 then wr32 (wr32 (s.card lba) 12 4) 16 chainEnd else s.card lba }

end Ring

end Ubiqos.Fat
