import Ubiqos.Lib.Along
import Ubiqos.Lib.Cyclic
import Mathlib.Data.BitVec

/-!
The kernel's own output in `kernel/main.c`. A print goes to the console, to the UART and to the
log line by line: a line that fits a buffer goes in one piece, a longer one as it lies. The two
sinks ask in different words whether it fits.
-/

namespace Ubiqos.Print

open Function Machine

abbrev Byte := BitVec 8

def LF : Byte := 10
def CR : Byte := 13

/-- `sizeof line`. -/
def lineSize : Nat := 132

def digits (sec : Nat) : List Byte :=
  BitVec.ofNat 8 (48 + sec % 10) :: if sec / 10 = 0 then [] else digits (sec / 10)
termination_by sec

def stamp (us : BitVec 64) : List Byte :=
  let ms := us.toNat / 1000
  let sec := ms / 1000 % 2 ^ 32
  let frac := ms % 1000
  let d := digits sec
  91 :: List.replicate (6 - d.length) 32 ++ d.reverse ++
    [46, BitVec.ofNat 8 (48 + frac / 100), BitVec.ofNat 8 (48 + frac / 10 % 10), BitVec.ofNat 8 (48 + frac % 10),
      93, 32]

structure Log where
  ring : Recent.Ring Byte
  midLine : Bool
  looks : Nat

/-- The microseconds at each look. -/
abbrev Clock := Nat → BitVec 64

def dmesgWrite (size : Nat) (clock : Clock) (log : Log) (p : List Byte) : Log :=
  if p = [] then log
  else
    let st := if log.midLine then [] else stamp (clock log.looks)
    { ring := (st ++ p).foldl (Recent.push size) log.ring
      midLine := p.getLast? != some LF
      looks := if log.midLine then log.looks else log.looks + 1 }

def dmesgSize (size : Nat) (log : Log) : Nat := Recent.count size log.ring

/-- Nothing stands for `-1`. -/
def dmesgAt (size : Nat) (log : Log) (offset : Nat) : Option Byte := Recent.entry size log.ring offset

structure Printer where
  log : Log
  console : List Byte
  uart : List Byte
  /-- `char line[132]`, on the stack: what it holds at the beginning of a call is anything. -/
  line : Nat → Byte

def first (n : Nat) (line : Nat → Byte) : List Byte := (List.range n).map line

/-- `for (i = 0; i < n; i++) line[i] = run[i]`. -/
def copyRun (line : Nat → Byte) (run : List Byte) : Nat → Byte := fun i => run.getD i (line i)

/-- The console's part of a pass, `nl` for a run that a newline ends. -/
def toConsole (p : Printer) (run : List Byte) (nl : Bool) : Printer :=
  let n := run.length
  if nl ∧ n + 2 ≤ lineSize then
    let line := update (update (copyRun p.line run) n CR) (n + 1) LF
    { p with line, console := p.console ++ first (n + 2) line }
  else { p with console := p.console ++ run ++ if nl then [CR, LF] else [] }

def toLog (size : Nat) (clock : Clock) (p : Printer) (run : List Byte) (nl : Bool) : Printer :=
  let n := run.length
  if nl ∧ n + 1 ≤ lineSize then
    let line := update p.line n LF
    { p with line, log := dmesgWrite size clock p.log (first (n + 1) line) }
  else
    let log := dmesgWrite size clock p.log run
    { p with log := if nl then dmesgWrite size clock log [LF] else log }

def toUart (p : Printer) (run : List Byte) (nl : Bool) : Printer :=
  { p with uart := p.uart ++ run ++ if nl then [CR, LF] else [] }

def pass (size : Nat) (clock : Clock) (p : Printer) (run : List Byte) (nl : Bool) : Printer :=
  toUart (toLog size clock (toConsole p run nl) run nl) run nl

/-- `while (*s)`. -/
def lines (size : Nat) (clock : Clock) (p : Printer) (s : List Byte) : Printer :=
  if empty : s = [] then p
  else
    let run := s.takeWhile (· ≠ LF)
    if s.drop run.length = [] then pass size clock p run false
    else lines size clock (pass size clock p run true) (s.drop (run.length + 1))
termination_by s.length
decreasing_by
  rw [List.length_drop]
  have some := List.length_pos_of_ne_nil empty
  omega

/-- `ubiqos_print`. -/
def print (size : Nat) (clock : Clock) (p : Printer) (stale : Nat → Byte) (s : List Byte) : Printer :=
  lines size clock { p with line := stale } s

inductive Act
  | enter (stale : Nat → Byte)
  | pass (run : List Byte) (nl : Bool)

def act (size : Nat) (clock : Clock) (p : Printer) : Act → Printer
  | .enter stale => { p with line := stale }
  | .pass run nl => pass size clock p run nl

def passes (s : List Byte) : List Act :=
  if empty : s = [] then []
  else
    let run := s.takeWhile (· ≠ LF)
    if s.drop run.length = [] then [.pass run false]
    else .pass run true :: passes (s.drop (run.length + 1))
termination_by s.length
decreasing_by
  rw [List.length_drop]
  have some := List.length_pos_of_ne_nil empty
  omega

def acts (calls : List ((Nat → Byte) × List Byte)) : List Act :=
  calls.flatMap fun call => .enter call.1 :: passes call.2

def said : Act → List Byte
  | .enter _ => []
  | .pass run nl => run ++ if nl then [LF] else []

def Proper : Act → Prop
  | .enter _ => True
  | .pass run nl => LF ∉ run ∧ (nl = false → run ≠ [])

variable {size : Nat} {clock : Clock} {p : Printer} {s : List Byte}

theorem lines_passes : lines size clock p s = (passes s).foldl (act size clock) p := by
  induction p, s using lines.induct size clock with
  | case1 p => rw [lines, passes, dif_pos rfl, dif_pos rfl]; rfl
  | case2 p s some run last => 
      rw [lines, passes, dif_neg some, dif_neg some]
      simp only
      rw [if_pos last, if_pos last]
      rfl
  | case3 p s some run more ih =>
    rw [lines, passes, dif_neg some, dif_neg some]
    simp only
    rw [if_neg more, if_neg more, ih]
    rfl

theorem print_passes (stale : Nat → Byte) :
    print size clock p stale s = (Act.enter stale :: passes s).foldl (act size clock) p := lines_passes

theorem prints_acts (calls : List ((Nat → Byte) × List Byte)) :
    calls.foldl (fun p call => print size clock p call.1 call.2) p = (acts calls).foldl (act size clock) p := by
  induction calls generalizing p with
  | nil => rfl
  | cons call rest ih =>
    rw [List.foldl_cons, ih, print_passes, acts, acts, List.flatMap_cons, List.foldl_append]

theorem run_cut (s : List Byte) :
    let run := s.takeWhile (· ≠ LF)
    LF ∉ run ∧ run ++ s.drop run.length = s ∧
      (s.drop run.length ≠ [] → s.drop run.length = LF :: s.drop (run.length + 1)) := by
  intro run
  have whole : run ++ s.dropWhile (· ≠ LF) = s := List.takeWhile_append_dropWhile
  have behind : s.drop run.length = s.dropWhile (· ≠ LF) := by
    conv_lhs => rw [← whole]
    exact List.drop_left
  refine ⟨?_, by rw [behind, whole], ?_⟩
  · intro inside
    simpa using List.mem_takeWhile_imp inside
  · intro some
    have next : s.drop (run.length + 1) = (s.drop run.length).tail := by
      rw [List.tail_drop]
    have stops : (s.drop run.length).head some = LF := by
      have known : s.dropWhile (· ≠ LF) ≠ [] := behind ▸ some
      simp only [behind]
      simpa using List.head_dropWhile_not (· ≠ LF) known
    rw [next, ← stops, List.cons_head_tail]

theorem passes_said (s : List Byte) : (passes s).flatMap said = s := by
  induction s using passes.induct with
  | case1 => rw [passes, dif_pos rfl]; rfl
  | case2 s some run last =>
    have cut := run_cut s
    rw [passes, dif_neg some]
    simp only
    rw [if_pos last]
    have whole := cut.2.1
    rw [last, List.append_nil] at whole
    simpa [said] using whole
  | case3 s some run more ih =>
    have cut := run_cut s
    rw [passes, dif_neg some]
    simp only
    rw [if_neg more, List.flatMap_cons, ih]
    have whole := cut.2.1
    rw [cut.2.2 more] at whole
    simp only [said, if_true, List.append_assoc, List.singleton_append]
    exact whole

theorem passes_proper (s : List Byte) : ∀ a ∈ passes s, Proper a := by
  induction s using passes.induct with
  | case1 => rw [passes, dif_pos rfl]; simp
  | case2 s some run last =>
    have cut := run_cut s
    rw [passes, dif_neg some]
    simp only
    rw [if_pos last]
    intro a member
    rw [List.mem_singleton.mp member]
    refine ⟨cut.1, fun _ empty => some ?_⟩
    rw [← cut.2.1, last, empty, List.append_nil]
  | case3 s some run more ih =>
    rw [passes, dif_neg some]
    simp only
    rw [if_neg more]
    intro a member
    rcases List.mem_cons.mp member with rfl | later
    · exact ⟨(run_cut s).1, fun plain => absurd plain (by decide)⟩
    · exact ih a later

theorem acts_proper (calls : List ((Nat → Byte) × List Byte)) : ∀ a ∈ acts calls, Proper a := by
  intro a member
  obtain ⟨call, -, inside⟩ := List.mem_flatMap.mp member
  rcases List.mem_cons.mp inside with rfl | later
  · trivial
  · exact passes_proper call.2 a later

theorem acts_said (calls : List ((Nat → Byte) × List Byte)) :
    (acts calls).flatMap said = calls.flatMap Prod.snd := by
  induction calls with
  | nil => rfl
  | cons call rest ih =>
    rw [acts, List.flatMap_cons, List.flatMap_append, List.flatMap_cons, passes_said, List.flatMap_cons, ← ih]
    rfl

/-- Whether a line is begun, and how many were. -/
abbrev Mark := Bool × Nat

def Mark.next (m : Mark) (c : Byte) : Mark := (c != LF, if m.1 then m.2 else m.2 + 1)

def stamped (clock : Clock) : Mark → List Byte → List Byte
  | _, [] => []
  | m, c :: rest => (if m.1 then [] else stamp (clock m.2)) ++ c :: stamped clock (m.next c) rest

def returned (text : List Byte) : List Byte := text.flatMap fun c => if c = LF then [CR, LF] else [c]

theorem stamped_append (m : Mark) (front back : List Byte) :
    stamped clock m (front ++ back) = stamped clock m front ++ stamped clock (front.foldl Mark.next m) back := by
  induction front generalizing m with
  | nil => rfl
  | cons c rest ih => simp only [List.cons_append, stamped, List.foldl_cons, ih, List.append_assoc]

variable {run : List Byte}

theorem stamped_run (inside : LF ∉ run) (n : Nat) :
    stamped clock (true, n) run = run ∧ run.foldl Mark.next (true, n) = (true, n) := by
  induction run with
  | nil => exact ⟨rfl, rfl⟩
  | cons c rest ih =>
    rw [List.mem_cons, not_or] at inside
    have same : Mark.next (true, n) c = (true, n) := by
      simp [Mark.next, Ne.symm inside.1]
    rw [stamped, List.foldl_cons, same, (ih inside.2).1, (ih inside.2).2]
    exact ⟨rfl, rfl⟩

theorem returned_append (front back : List Byte) : returned (front ++ back) = returned front ++ returned back :=
  List.flatMap_append

theorem returned_run (inside : LF ∉ run) : returned run = run := by
  induction run with
  | nil => rfl
  | cons c rest ih =>
    rw [List.mem_cons, not_or] at inside
    rw [returned, List.flatMap_cons, if_neg (Ne.symm inside.1)]
    exact congrArg (c :: ·) (ih inside.2)

variable {nl : Bool}

theorem stamped_pass (proper : Proper (.pass run nl)) (m : Mark) :
    stamped clock m (said (.pass run nl)) =
        (if m.1 then [] else stamp (clock m.2)) ++ said (.pass run nl) ∧
      (said (.pass run nl)).foldl Mark.next m = (!nl, if m.1 then m.2 else m.2 + 1) := by
  cases run with
  | nil =>
    cases nl with
    | false => exact absurd rfl (proper.2 rfl)
    | true => exact ⟨rfl, rfl⟩
  | cons c rest =>
    have inside := proper.1
    rw [List.mem_cons, not_or] at inside
    have begun : m.next c = (true, if m.1 then m.2 else m.2 + 1) := by
      simp [Mark.next, Ne.symm inside.1]
    obtain ⟨same, stays⟩ := (@stamped_run clock) inside.2 (if m.1 then m.2 else m.2 + 1)
    simp only [said, List.cons_append, stamped, List.foldl_cons, begun, stamped_append, same, List.foldl_append,
      stays]
    cases nl <;> exact ⟨rfl, rfl⟩

theorem first_update {n i : Nat} (behind : n ≤ i) (line : Nat → Byte) (c : Byte) :
    first n (update line i c) = first n line := by
  apply List.map_congr_left
  intro j member
  exact update_of_ne (by have := List.mem_range.mp member; omega) _ _

theorem first_succ (n : Nat) (line : Nat → Byte) (c : Byte) :
    first (n + 1) (update line n c) = first n line ++ [c] := by
  rw [first, List.range_succ, List.map_append, List.map_singleton, update_self]
  exact congrArg (· ++ [c]) (first_update le_rfl line c)

theorem first_copyRun (line : Nat → Byte) (run : List Byte) : first run.length (copyRun line run) = run := by
  apply List.ext_getElem
  · simp [first]
  · intro i _ inside
    simp [first, copyRun, inside]

theorem toConsole_console (run : List Byte) (nl : Bool) :
    (toConsole p run nl).console = p.console ++ run ++ if nl then [CR, LF] else [] := by
  simp only [toConsole]
  split
  · rename_i fits
    rw [first_succ, first_succ, first_copyRun, if_pos fits.1]
    simp
  · rfl

def logged (p : Printer) (run : List Byte) (nl : Bool) : List Byte :=
  if nl ∧ run.length + 1 = lineSize then first run.length p.line else run

def Writes (size : Nat) (clock : Clock) (log after : Log) (bytes : List Byte) (nl : Bool) : Prop :=
  after.ring = ((if log.midLine then [] else stamp (clock log.looks)) ++ bytes).foldl (Recent.push size) log.ring ∧
    (after.midLine, after.looks) = (!nl, if log.midLine then log.looks else log.looks + 1)

theorem dmesgWrite_line (log : Log) (run : List Byte) :
    Writes size clock log (dmesgWrite size clock log (run ++ [LF])) (run ++ [LF]) true := by
  have some : run ++ [LF] ≠ [] := by simp
  rw [dmesgWrite, if_neg some]
  exact ⟨rfl, by simp⟩

theorem dmesgWrite_run (log : Log) (inside : LF ∉ run) (some : run ≠ []) :
    Writes size clock log (dmesgWrite size clock log run) run false := by
  rw [dmesgWrite, if_neg some]
  have last : (run.getLast? != Option.some LF) = true := by
    simp only [bne_iff_ne]
    intro ends
    exact inside (List.mem_of_getLast? ends)
  exact ⟨rfl, by rw [last]; rfl⟩

theorem Writes.newline {log after : Log} (begins : Writes size clock log after run false) :
    Writes size clock log (dmesgWrite size clock after [LF]) (run ++ [LF]) true := by
  obtain ⟨ring, marks⟩ := begins
  have mid : after.midLine = true := (Prod.mk.inj marks).1
  have looks := (Prod.mk.inj marks).2
  rw [dmesgWrite, if_neg (List.cons_ne_nil _ _)]
  refine ⟨?_, ?_⟩
  · dsimp only
    rw [if_pos mid, List.nil_append, ring, ← List.foldl_append, List.append_assoc]
  · simp [mid, looks]

theorem pass_writes (proper : Proper (.pass run nl)) :
    Writes size clock p.log (pass size clock p run nl).log (logged p run nl ++ if nl then [LF] else []) nl := by
  have log : (toConsole p run nl).log = p.log := by
    simp only [toConsole]
    split <;> rfl
  simp only [pass, toUart, toLog, log]
  cases nl with
  | false =>
    have plain : logged p run false = run := by simp [logged]
    rw [plain, if_neg (by simp), if_neg (by simp), if_neg (by simp), List.append_nil]
    exact dmesgWrite_run p.log proper.1 (proper.2 rfl)
  | true =>
    rw [if_pos rfl, if_pos rfl]
    rcases Nat.lt_trichotomy (run.length + 1) lineSize with shorter | equal | longer
    · -- the console's part has put the run there
      have kept : logged p run true = run := if_neg (by simp only [shorter.ne, and_false, not_false_eq_true])
      have filled : (toConsole p run true).line =
          update (update (copyRun p.line run) run.length CR) (run.length + 1) LF := by
        simp only [toConsole]
        rw [if_pos ⟨trivial, shorter⟩]
      rw [if_pos ⟨rfl, shorter.le⟩, filled, kept, first_succ, first_update (Nat.le_succ _), first_update le_rfl,
        first_copyRun]
      exact dmesgWrite_line p.log run
    · have kept : logged p run true = first run.length p.line := if_pos ⟨rfl, equal⟩
      have unfilled : (toConsole p run true).line = p.line := by
        simp only [toConsole]
        rw [if_neg (by simp only [true_and, not_le]; omega)]
      rw [if_pos ⟨rfl, equal.le⟩, unfilled, kept, first_succ]
      exact dmesgWrite_line p.log _
    · have kept : logged p run true = run := if_neg (by simp only [longer.ne', and_false, not_false_eq_true])
      have some : run ≠ [] := by
        intro empty
        rw [empty] at longer
        exact absurd longer (by decide)
      rw [if_neg (by simp only [true_and, not_le]; exact longer), kept]
      exact (dmesgWrite_run p.log proper.1 some).newline

/-- A printer and all that it was told to print. -/
abbrev Output := Printer × List Byte

def turn (size : Nat) (clock : Clock) (o : Output) (a : Act) : Output :=
  (act size clock o.1 a, o.2 ++ said a)

/-- The log, read byte by byte, is the end of the text with its stamps, and the console has the
text with each newline as two bytes. -/
def Told (size : Nat) (clock : Clock) (o : Output) : Prop :=
  (List.range (dmesgSize size o.1.log)).map (dmesgAt size o.1.log) =
      ((stamped clock (false, 0) o.2).rtake size).map some ∧
    o.1.console = returned o.2

/-- What is logged of a pass, as far as the log keeps it, is what the pass prints: the buffer
holds the run already when its length is the one that nobody copies. -/
def Held (size : Nat) (o : Output) : Act → Prop
  | .enter _ => True
  | .pass run nl => nl = true → run.length + 1 = lineSize →
      (first run.length o.1.line).rtake (size - 1) = run.rtake (size - 1)

/-- The log has the bytes of some text as long as the one that was printed, with its marks. -/
structure Tracks (size : Nat) (clock : Clock) (o : Output) : Prop where
  holds : ∃ text, Recent.Holds size o.1.log.ring text ∧
    text.length = (stamped clock (false, 0) o.2).length ∧
    (Told size clock o ↔ text.rtake size = (stamped clock (false, 0) o.2).rtake size)
  marks : (o.1.log.midLine, o.1.log.looks) = o.2.foldl Mark.next (false, 0)
  console : o.1.console = returned o.2

variable {o : Output}

theorem told_iff {text : List Byte} (holds : Recent.Holds size o.1.log.ring text)
    (console : o.1.console = returned o.2) :
    Told size clock o ↔ text.rtake size = (stamped clock (false, 0) o.2).rtake size := by
  have read := holds.entries
  refine ⟨fun told => ?_, fun same => ⟨?_, console⟩⟩
  · exact List.map_injective_iff.mpr (Option.some_injective _) (read.symm.trans told.1)
  · exact read.trans (congrArg (List.map some) same)

theorem length_logged (run : List Byte) (nl : Bool) : (logged p run nl).length = run.length := by
  rw [logged]
  split
  · simp [first]
  · rfl

theorem returned_pass (proper : Proper (.pass run nl)) :
    returned (said (.pass run nl)) = run ++ if nl then [CR, LF] else [] := by
  rw [said, returned_append, returned_run proper.1]
  cases nl <;> rfl

theorem held_iff (run : List Byte) (nl : Bool) :
    (logged o.1 run nl ++ if nl then [LF] else []).rtake size = (said (.pass run nl)).rtake size ↔
      Held size o (.pass run nl) := by
  by_cases odd : nl = true ∧ run.length + 1 = lineSize
  · obtain ⟨rfl, length⟩ := odd
    have kept : logged o.1 run true = first run.length o.1.line := if_pos ⟨rfl, length⟩
    rw [kept, said, if_pos rfl, Recent.rtake_append, Recent.rtake_append, List.append_cancel_right_eq]
    exact ⟨fun same _ _ => same, fun held => held rfl length⟩
  · have kept : logged o.1 run nl = run := if_neg odd
    rw [kept, said]
    exact ⟨fun _ yes length => absurd ⟨yes, length⟩ odd, fun _ => rfl⟩

theorem pass_tracks (positive : 0 < size) (tracks : Tracks size clock o)
    (proper : Proper (.pass run nl)) :
    Tracks size clock (turn size clock o (.pass run nl)) ∧
      (Told size clock o →
        (Told size clock (turn size clock o (.pass run nl)) ↔ Held size o (.pass run nl))) := by
  obtain ⟨text, holds, even, told⟩ := tracks.holds
  obtain ⟨ring, marks⟩ := (@pass_writes size clock o.1) proper
  obtain ⟨adds, after⟩ := (@stamped_pass clock) proper (o.1.log.midLine, o.1.log.looks)
  have grown := holds.pushAll positive
    ((if o.1.log.midLine then [] else stamp (clock o.1.log.looks)) ++
      (logged o.1 run nl ++ if nl then [LF] else []))
  rw [← ring] at grown
  have whole : stamped clock (false, 0) (o.2 ++ said (.pass run nl)) = stamped clock (false, 0) o.2 ++
      ((if o.1.log.midLine then [] else stamp (clock o.1.log.looks)) ++ said (.pass run nl)) := by
    rw [stamped_append, ← tracks.marks, adds]
  have same : (logged o.1 run nl ++ if nl then [LF] else []).length = (said (.pass run nl)).length := by
    rw [said, List.length_append, List.length_append, length_logged]
  have console : (turn size clock o (.pass run nl)).1.console = returned (turn size clock o (.pass run nl)).2 := by
    have given : (turn size clock o (.pass run nl)).1.console = (toConsole o.1 run nl).console := by
      simp only [turn, act, pass, toUart, toLog]
      split <;> rfl
    rw [given, toConsole_console, tracks.console, turn, returned_append, returned_pass proper, List.append_assoc]
  have now := (@told_iff _ clock) grown console
  refine ⟨⟨⟨_, grown, ?_, now⟩, ?_, console⟩, fun well => now.trans ?_⟩
  · rw [turn, whole]
    simp only [List.length_append, even, said, length_logged]
  · rw [turn, List.foldl_append, ← tracks.marks, after]
    exact marks
  · rw [turn, whole, Recent.rtake_append_eq_iff (told.mp well) (by simp only [List.length_append, said, length_logged]),
      Recent.rtake_append_eq_iff rfl same]
    exact held_iff run nl

theorem turn_tracks (positive : 0 < size) (tracks : Tracks size clock o) {a : Act} (proper : Proper a) :
    Tracks size clock (turn size clock o a) ∧
      (Told size clock o → (Told size clock (turn size clock o a) ↔ Held size o a)) := by
  cases a with
  | pass run nl => exact pass_tracks positive tracks proper
  | enter stale =>
    have same : turn size clock o (.enter stale) = ({ o.1 with line := stale }, o.2) := by
      rw [turn, said, List.append_nil]
      rfl
    rw [same]
    exact ⟨⟨tracks.holds, tracks.marks, tracks.console⟩, fun well => ⟨fun _ => trivial, fun _ => well⟩⟩

def boot : Printer := ⟨⟨⟨fun _ => 0, 0, false⟩, false, 0⟩, [], [], fun _ => 0⟩

theorem boot_tracks (positive : 0 < size) : Tracks size clock (boot, []) where
  holds := ⟨[], Recent.holds_nil _ positive, rfl, told_iff (Recent.holds_nil _ positive) rfl⟩
  marks := rfl
  console := rfl

theorem boot_told : Told size clock (boot, []) := ⟨by simp [boot, dmesgSize, Recent.count, stamped], rfl⟩

theorem foldl_turn (inputs : List Act) (o : Output) :
    inputs.foldl (turn size clock) o = (inputs.foldl (act size clock) o.1, o.2 ++ inputs.flatMap said) := by
  induction inputs generalizing o with
  | nil => rw [List.flatMap_nil, List.append_nil]; rfl
  | cons a rest ih => rw [List.foldl_cons, ih, List.flatMap_cons, turn, List.append_assoc, List.foldl_cons]

/-- Through any calls the log and the console have what was printed, at every pass, just when no
pass logs a line of its buffer's length less one that the buffer does not hold. -/
theorem kernel_log (positive : 0 < size) (clock : Clock) (calls : List ((Nat → Byte) × List Byte)) :
    ((∀ front, front <+: acts calls → Told size clock (front.foldl (turn size clock) (boot, []))) ↔
      Along (turn size clock) (Held size) (boot, []) (acts calls)) ∧
    (acts calls).foldl (turn size clock) (boot, []) =
      (calls.foldl (fun p call => print size clock p call.1 call.2) boot, calls.flatMap Prod.snd) := by
  refine ⟨(@along_iff _ _ _ _ (Tracks size clock)) (boot_tracks positive) boot_told ?_ ?_, ?_⟩
  · exact fun _ a member tracks => (turn_tracks positive tracks (acts_proper calls a member)).1
  · exact fun _ a member tracks well => (turn_tracks positive tracks (acts_proper calls a member)).2 well
  · rw [foldl_turn, prints_acts, acts_said, List.nil_append]

instance (size : Nat) (o : Output) : (a : Act) → Decidable (Held size o a)
  | .enter _ => isTrue trivial
  | .pass _ _ => inferInstanceAs (Decidable (_ → _ → _))

/-- A line from two calls, and an empty one. -/
theorem kernel_log_short :
    Told 2048 (fun n => BitVec.ofNat 64 (1234567 * n))
      ([(fun _ => 7, [72, 105]), (fun _ => 9, [33, 10, 10])].foldl
          (fun p call => print 2048 (fun n => BitVec.ofNat 64 (1234567 * n)) p call.1 call.2) boot,
        [72, 105, 33, 10, 10]) := by
  have log := (@kernel_log 2048) (by decide) (fun n => BitVec.ofNat 64 (1234567 * n))
    [(fun _ => 7, [72, 105]), (fun _ => 9, [33, 10, 10])]
  have told := log.1.mpr (by decide +kernel) _ (List.prefix_refl _)
  rwa [log.2] at told

/-- A line of 131 letters: the log has what lay on the stack. -/
theorem odd_line :
    ¬ Told 2048 (fun _ => 0) (print 2048 (fun _ => 0) boot (fun _ => 0x78) (List.replicate 131 0x61 ++ [LF]),
      List.replicate 131 0x61 ++ [LF]) := by
  intro told
  have same := congrArg (fun log => log[20]?) told.1
  exact absurd same (by decide +kernel)

end Ubiqos.Print
