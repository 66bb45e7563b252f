import Ubiqos.Memory.Stdlib
import Ubiqos.Stdio.Streams

/-!
Sizes and counts of the C library. Two headers are added to what is asked for before it is rounded,
and the sum is not looked at: sizes for which it does not fit a word are answered with a block that is
too small.
-/

namespace Ubiqos.Stdlib

open Function Machine Words Memory

section Sizes
variable {n : Nat} [NeZero n]

def fresh (memory : Memory) (procs : Pid n → ProcState) (places : PoolName → Option (Nat × Nat)) :
    Program n := ⟨start memory procs places, []⟩

theorem run_whole {memory : Memory} {procs : Pid n → ProcState} {places : PoolName → Option (Nat × Nat)}
    (regions : Regions places) {steps : List (Step n)}
    (run : Along Program.step Sane (fresh memory procs places) steps) :
    (steps.foldl Program.step (fresh memory procs places)).Whole :=
  along_invariant Program.Whole run ⟨start_kept regions, fun _ member => absurd member List.not_mem_nil⟩
    fun _ step _ sane whole => step_whole whole step sane

end Sizes

/-- What is asked of `fread` and `fwrite`, on a stream in any state over anything. -/
structure Whole (D : Type) (k : Stdio.Kernel D) : Prop where
  read : ∀ s array size nmemb,
    Stdio.Filled (Stdio.fgetc k) s array size nmemb (Stdio.fread k s array size nmemb)
  write : ∀ s array size nmemb,
    Stdio.Emptied (Stdio.fputc k) s array size nmemb (Stdio.fwrite k s array size nmemb)
  reads : ∀ s array other size nmemb, (∀ i < nmemb.toNat * size.toNat, array i = other i) →
    Stdio.fwrite k s array size nmemb = Stdio.fwrite k s other size nmemb

theorem streams_whole (D : Type) (k : Stdio.Kernel D) : Whole D k where
  read := Stdio.readWith_filled
  write := Stdio.writeWith_emptied
  reads := fun s _ _ size nmemb same => Stdio.writeWith_reads s size nmemb same

def small : Program 4 := fresh (fun _ => 0) (fun _ => .ready) bothPools

def endsBefore (s : State 4) (stop : Nat) : Bool :=
  [PoolName.mem, .bulk].all fun pool => (s.pools pool).all fun heap => decide (heap.pool.poolEnd ≤ stop)

theorem no_room {s : State 4} {stop ptr size : Nat} (ends : endsBefore s stop = true) (large : stop < size) :
    ¬ Room s ptr size := by
  rintro ⟨heap, here, clear⟩
  have stops := List.all_eq_true.mp ends (poolOf s (ptr - 24)) (by cases poolOf s (ptr - 24) <;> simp)
  rw [here, Option.all_some, decide_eq_true_eq] at stops
  have inside := clear.inside.2
  omega

theorem top_sizes : ∀ j : Fin 27,
    j.val = 3 ∨ j.val = 19 ∨
      (malloc small.w.s 1 (BitVec.ofNat 32 (2 ^ 32 - 27 + j))).2 ≠ 0 ∧
        endsBefore (malloc small.w.s 1 (BitVec.ofNat 32 (2 ^ 32 - 27 + j))).1 73728 = true := by
  decide +kernel

theorem bad_wrong (size : U32) (bad : ¬ Good size.toNat) : ¬ Right small (.malloc 1 size) := by
  unfold Good Tlsf.largestRequest at bad
  obtain ⟨j, near⟩ : ∃ j : Fin 27, size = BitVec.ofNat 32 (2 ^ 32 - 27 + j) := by
    refine ⟨⟨size.toNat - (2 ^ 32 - 27), by omega⟩, BitVec.eq_of_toNat_eq ?_⟩
    rw [BitVec.toNat_ofNat]
    dsimp only
    omega
  have value : size.toNat = 2 ^ 32 - 27 + j := by
    have inside := j.isLt
    rw [near, BitVec.toNat_ofNat]
    omega
  intro right
  rcases top_sizes j with there | there | ⟨some, ends⟩
  · omega
  · omega
  · rw [← near] at some ends
    exact no_room ends (by omega) (right some)

/-- In a run with sizes that stay in a word what `malloc`, `calloc` and `realloc` answer has room, is
zeroed and keeps its bytes; of one that is not there is a block that is too small. `fread` and `fwrite`
keep inside the array for all counts. -/
theorem sizes_hold {n : Nat} [NeZero n] (memory : Memory) (procs : Pid n → ProcState)
    (places : PoolName → Option (Nat × Nat)) (regions : Regions places) (steps : List (Step n))
    (run : Along Program.step Sane (fresh memory procs places) steps) :
    (∀ step, Sane (steps.foldl Program.step (fresh memory procs places)) step →
        Right (steps.foldl Program.step (fresh memory procs places)) step) ∧
      (∀ D k, Whole D k) ∧ ∀ size : U32, ¬ Good size.toNat → ¬ Right small (.malloc 1 size) :=
  ⟨step_right (run_whole regions run), streams_whole, bad_wrong⟩

local instance four_ne_zero : NeZero 4 := inferInstance

def resized : List (Step 4) := [.malloc 1 10, .realloc 1 67536 100, .calloc 2 3 4, .free 1 0]

theorem sizes_hold_resized :
    Right (resized.foldl Program.step small) (.realloc 1 0 40) := by
  have good : ∀ size, size ≤ 1000 → Good size := fun size less => Or.inl (by
    unfold Tlsf.largestRequest
    omega)
  have run : Along Program.step Sane small resized := by
    refine ⟨⟨good _ (by decide), by decide⟩, ⟨good _ (by decide), by decide +kernel, Or.inr ?_⟩,
      ⟨fun _ => good _ (by decide), fun wraps => absurd wraps (by decide), by decide +kernel⟩, Or.inl rfl,
      trivial⟩
    exact ⟨⟨1, 67536, 10⟩, by decide +kernel, rfl, rfl⟩
  exact (sizes_hold _ _ _ bothPools_regions resized run).1 _
    ⟨good _ (by decide), by decide +kernel, Or.inl rfl⟩

/-- All but the last four bytes there can be, and two elements more than a word counts, are answered with a
block out of eight kilobytes. -/
theorem size_wraps :
    ¬ (∀ size : U32, (malloc small.w.s 1 size).2 ≠ 0 →
        Room (malloc small.w.s 1 size).1 (malloc small.w.s 1 size).2 size.toNat) ∧
      ¬ (∀ nmemb size : U32, (calloc small.w.s 1 nmemb size).2 ≠ 0 →
        Room (calloc small.w.s 1 nmemb size).1 (calloc small.w.s 1 nmemb size).2
          (nmemb.toNat * size.toNat)) := by
  constructor
  · intro always
    have ends : endsBefore (malloc small.w.s 1 0xfffffffc).1 73728 = true := by decide +kernel
    exact no_room ends (by decide) (always 0xfffffffc (by decide +kernel))
  · intro always
    have ends : endsBefore (calloc small.w.s 1 0x80000001 2).1 73728 = true := by decide +kernel
    exact no_room ends (by decide) (always 0x80000001 2 (by decide +kernel))

end Ubiqos.Stdlib
