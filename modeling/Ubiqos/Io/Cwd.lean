import Mathlib.Data.List.GetD
import Mathlib.Data.List.TakeWhile
import Ubiqos.Io.Descriptors
import Ubiqos.Loader.Arguments

/-!
The working directory as `process_table` keeps it, `char cwd[64]` of
`kernel/scheduler.c`. Both calls that set it copy the path in place and look only then
whether there is more of it, so a refused path has been written as far as it fits.
-/

namespace Ubiqos.Io

open Function Machine
open Loader (CText)

structure Cwd where
  bytes : Fin 64 → Byte
  ends : bytes 63 = 0

def Cwd.text (cwd : Cwd) : Text := (List.ofFn cwd.bytes).takeWhile (· ≠ 0)

def Cwd.front (cwd : Cwd) : Text := (List.ofFn cwd.bytes).take 63

theorem inside_of_room {i : Nat} (room : i < 63) : i < 64 := by omega

/-- The loop of `ubiqos_cwd_set_of` and of `ubiqos_cwd_set`, with `abs` from `i` on. -/
def copyIn (dst : Fin 64 → Byte) (i : Nat) : List Byte → (Fin 64 → Byte) × Bool
  | [] => if room : i < 64 then (update dst ⟨i, room⟩ 0, true) else (dst, true)
  | c :: rest =>
    if room : i < 63 then copyIn (update dst ⟨i, inside_of_room room⟩ c) (i + 1) rest
    else (dst, false)

theorem copyIn_fits (abs : List Byte) (dst : Fin 64 → Byte) (i : Nat) (small : i ≤ 63) :
    (copyIn dst i abs).2 = decide (i + abs.length ≤ 63) := by
  induction abs generalizing dst i with
  | nil =>
    rw [copyIn, dif_pos (by omega)]
    simpa using small
  | cons c rest ih =>
    rw [copyIn]
    split
    · rename_i room
      rw [ih _ (i + 1) room, List.length_cons, Nat.add_right_comm, Nat.add_assoc]
    · rename_i full
      simp only [List.length_cons, false_eq_decide_iff]
      omega

theorem copyIn_byte (abs : List Byte) (dst : Fin 64 → Byte) (i : Nat) (small : i ≤ 63) (j : Fin 64) :
    (copyIn dst i abs).1 j =
      if j.val < i then dst j
      else if j.val < i + abs.length ∧ j.val < 63 then abs.getD (j.val - i) 0
      else if j.val = i + abs.length then 0
      else dst j := by
  induction abs generalizing dst i with
  | nil =>
    rw [copyIn, dif_pos (by omega)]
    by_cases here : j.val = i
    · have same : j = ⟨i, by omega⟩ := Fin.ext here
      simp [same]
    · have other : j ≠ ⟨i, by omega⟩ := fun same => here (by rw [same])
      simp only [here, if_false, update_of_ne other, List.length_nil, Nat.add_zero]
      split
      · rfl
      · rw [if_neg (by omega)]
  | cons c rest ih =>
    rw [copyIn]
    split
    · rename_i room
      rw [ih _ (i + 1) room]
      by_cases here : j.val = i
      · subst here
        simp [room]
      · have other : j ≠ ⟨i, by omega⟩ := fun same => here (by rw [same])
        rw [update_of_ne other, List.length_cons]
        by_cases before : j.val < i
        · rw [if_pos (by omega), if_pos before]
        · obtain ⟨d, later⟩ : ∃ d, j.val = i + 1 + d := ⟨j.val - (i + 1), by omega⟩
          have next : j.val - i = d + 1 := by omega
          have same : j.val - (i + 1) = d := by omega
          rw [next, same, List.getD_cons_succ]
          simp only [before, if_false, Nat.not_lt.mpr (show i + 1 ≤ j.val by omega),
            show i + 1 + rest.length = i + (rest.length + 1) by omega]
    · rename_i full
      simp only [List.length_cons]
      have last : i = 63 := by omega
      subst last
      split
      · rfl
      · rw [if_neg (by omega), if_neg (by omega)]

section Field
variable {cwd : Cwd} {abs : CText}

def Cwd.copy (cwd : Cwd) (abs : CText) : Cwd × Bool :=
  (⟨(copyIn cwd.bytes 0 abs.chars).1, by
    rw [copyIn_byte _ _ 0 (Nat.zero_le _)]
    have last : ((63 : Fin 64) : Nat) = 63 := rfl
    rw [if_neg (Nat.not_lt_zero _), if_neg (by omega)]
    split
    · rfl
    · exact cwd.ends⟩, (copyIn cwd.bytes 0 abs.chars).2)

theorem copy_fits (cwd : Cwd) (abs : CText) : (cwd.copy abs).2 = decide (abs.chars.length ≤ 63) := by
  rw [Cwd.copy, copyIn_fits _ _ 0 (Nat.zero_le _), Nat.zero_add]

theorem copy_byte (cwd : Cwd) (abs : CText) (j : Fin 64) : (cwd.copy abs).1.bytes j =
    if j.val < abs.chars.length ∧ j.val < 63 then abs.chars.getD j.val 0
    else if j.val = abs.chars.length then 0
    else cwd.bytes j := by
  show (copyIn cwd.bytes 0 abs.chars).1 j = _
  rw [copyIn_byte _ _ 0 (Nat.zero_le _)]
  simp only [Nat.not_lt_zero, if_false, Nat.zero_add, Nat.sub_zero]

theorem text_eq {path : Text} (plain : 0 ∉ path) (fits : path.length < 64)
    (holds : ∀ j : Fin 64, j.val < path.length → cwd.bytes j = path.getD j 0)
    (stops : cwd.bytes ⟨path.length, fits⟩ = 0) : cwd.text = path := by
  have front : (List.ofFn cwd.bytes).take path.length = path := by
    apply List.ext_getElem
    · simp
      omega
    · intro j left right
      rw [List.getElem_take, List.getElem_ofFn, holds _ right, List.getD_eq_getElem _ _ right]
  have split := List.take_append_drop path.length (List.ofFn cwd.bytes)
  rw [front, List.drop_eq_getElem_cons (by simpa using fits), List.getElem_ofFn, stops] at split
  rw [Cwd.text, ← split, List.takeWhile_append_of_pos]
  · simp
  · intro c member
    simpa using fun zero : c = 0 => plain (zero ▸ member)

theorem copy_text (cwd : Cwd) (abs : CText) : (cwd.copy abs).1.text = abs.chars.take 63 := by
  have shorter := List.length_take_le 63 abs.chars
  have length := @List.length_take _ 63 abs.chars
  apply text_eq (fun member => abs.ends (List.mem_of_mem_take member)) (by omega)
  · intro j inside
    rw [copy_byte, if_pos (by omega), List.getD_eq_getElem _ _ inside, List.getElem_take,
      List.getD_eq_getElem _ _ (by omega)]
  · rw [copy_byte, if_neg (by simp only; omega)]
    split
    · rfl
    · rename_i long
      have last : (⟨(abs.chars.take 63).length, by omega⟩ : Fin 64) = 63 := by
        apply Fin.ext
        simp only at long ⊢
        omega
      rw [last, cwd.ends]

def Takes (cwd : Cwd) (abs : CText) : Prop :=
  abs.chars.length ≤ 63 ∨ abs.chars.take 63 = cwd.front

theorem copy_bytes (long : 63 < abs.chars.length) :
    (cwd.copy abs).1.bytes = cwd.bytes ↔ abs.chars.take 63 = cwd.front := by
  have written : ∀ (j : Nat) (inside : j < 63), (cwd.copy abs).1.bytes ⟨j, by omega⟩ = abs.chars[j] := by
    intro j inside
    rw [copy_byte, if_pos (by simp only; omega), List.getD_eq_getElem _ _ (by simp only; omega)]
  constructor
  · intro same
    apply List.ext_getElem
    · rw [Cwd.front, List.length_take, List.length_take, List.length_ofFn]
      omega
    · intro j left right
      simp only [List.length_take] at left
      rw [List.getElem_take, ← written j (by omega), same]
      simp only [Cwd.front, List.getElem_take, List.getElem_ofFn]
  · intro same
    funext j
    by_cases inside : j.val < 63
    · have here := written j.val inside
      have there : (abs.chars.take 63)[j.val]? = cwd.front[j.val]? := by rw [same]
      rw [Cwd.front, List.getElem?_take_of_lt inside, List.getElem?_take_of_lt inside,
        List.getElem?_eq_getElem (by omega), List.getElem?_eq_getElem (by simp),
        List.getElem_ofFn, Option.some_inj] at there
      rw [here, there]
    · have last : j = 63 := by
        apply Fin.ext
        have : ((63 : Fin 64) : Nat) = 63 := rfl
        omega
      rw [last, (cwd.copy abs).1.ends, cwd.ends]

end Field

section Table
variable {n : Nat}

structure Cwds (n : Nat) where
  current : Pid n
  cwd : Pid n → Cwd

def Cwds.put (s : Cwds n) (pid : Pid n) (abs : CText) : Cwds n × Bool :=
  ({ s with cwd := update s.cwd pid ((s.cwd pid).copy abs).1 }, ((s.cwd pid).copy abs).2)

/-- `ubiqos_cwd_of`. -/
def Cwds.cwdOf (s : Cwds n) (pid : Int) : Text :=
  match index n pid with
  | some pid => (s.cwd pid).text
  | none => [slash]

/-- `ubiqos_cwd_set_of`. -/
def Cwds.cwdSetOf (s : Cwds n) (pid : Int) (abs : CText) : Cwds n × Bool :=
  match index n pid with
  | some pid => s.put pid abs
  | none => (s, false)

/-- `ubiqos_cwd_set`. -/
def Cwds.cwdSet (s : Cwds n) (abs : CText) : Cwds n × Bool := s.put s.current abs

variable {k f : Nat} {files : Files n k f} {s : Cwds n}

/-- The path is set, or nothing of the table is written and every name that is not
absolute is resolved as it was. -/
def AllOrNothing (s : Cwds n) (pid : Int) (abs : CText) (after : Cwds n × Bool) : Prop :=
  after.2 = true ∧ after.1.cwdOf pid = abs.chars ∨
  after.2 = false ∧ (∀ p, (after.1.cwd p).bytes = (s.cwd p).bytes) ∧
    ∀ name, makeAbs (after.1.cwdOf pid) name = makeAbs (s.cwdOf pid) name

theorem index_pid (pid : Pid n) : index n ((pid : Nat) : Int) = some pid := by simp [index]

theorem put_allOrNothing (s : Cwds n) {pid : Int} {p : Pid n} (here : index n pid = some p)
    (abs : CText) : AllOrNothing s pid abs (s.put p abs) ↔ Takes (s.cwd p) abs := by
  have reads : (s.put p abs).1.cwdOf pid = abs.chars.take 63 := by
    simp [Cwds.cwdOf, here, Cwds.put, copy_text]
  have answer : (s.put p abs).2 = decide (abs.chars.length ≤ 63) := copy_fits (s.cwd p) abs
  simp only [AllOrNothing, Takes, reads, answer]
  by_cases fits : abs.chars.length ≤ 63
  · simp [fits]
  · have written : ((s.cwd p).copy abs).1.bytes = (s.cwd p).bytes ↔ abs.chars.take 63 = (s.cwd p).front :=
      copy_bytes (Nat.lt_of_not_le fits)
    simp only [fits, decide_false, Bool.false_eq_true, false_and, false_or, true_and]
    constructor
    · intro kept
      apply written.mp
      simpa [Cwds.put] using kept.1 p
    · intro same
      have unwritten := written.mpr same
      have whole : ∀ other, ((s.put p abs).1.cwd other).bytes = (s.cwd other).bytes := by
        intro other
        by_cases here : other = p
        · subst here
          simpa [Cwds.put] using unwritten
        · simp [Cwds.put, update_of_ne here]
      refine ⟨whole, fun name => ?_⟩
      rw [← reads, Cwds.cwdOf, Cwds.cwdOf, here]
      simp only [Cwd.text, whole p]

/-- Both calls do what they say exactly when the path fits or begins with the bytes
that stand in the field. -/
theorem cwdSet_allOrNothing (s : Cwds n) (abs : CText) :
    (∀ pid, AllOrNothing s pid abs (s.cwdSetOf pid abs) ↔
      ∀ p, index n pid = some p → Takes (s.cwd p) abs) ∧
    (AllOrNothing s s.current.val abs (s.cwdSet abs) ↔ Takes (s.cwd s.current) abs) := by
  refine ⟨?_, put_allOrNothing s (index_pid s.current) abs⟩
  intro pid
  simp only [Cwds.cwdSetOf]
  cases here : index n pid with
  | none => simp [AllOrNothing]
  | some p => simpa using put_allOrNothing s here abs

/-- A directory of sixty-five characters is refused, and the process is in one of
sixty-three that need not exist. -/
theorem long_chdir_moves :
    let long : CText := ⟨text "/sd/" ++ List.replicate 61 0x61, by decide⟩
    let s : Cwds 2 := ⟨1, fun _ => ⟨fun j => if j = 0 then slash else 0, by decide⟩⟩
    let files := { fileStart 2 1 1 with mounted := [text "sd"] }
    ¬ AllOrNothing s 1 long (s.cwdSetOf 1 long) ∧ ¬ AllOrNothing s 1 long (s.cwdSet long) ∧
      (fsChdir files 1 long.chars true).2 = -1 ∧
      makeAbs (cwdOf (fsChdir files 1 long.chars true).1 1) (text "x") =
        text "/sd/" ++ List.replicate 59 0x61 ++ text "/x" := by
  intro long s files
  have refused : (s.cwdSetOf 1 long).2 = false := by decide +kernel
  have elsewhere : makeAbs ((s.cwdSetOf 1 long).1.cwdOf 1) (text "x") ≠
      makeAbs (s.cwdOf 1) (text "x") := by
    decide +kernel
  have moved : ¬ AllOrNothing s 1 long (s.cwdSetOf 1 long) := by
    rintro (⟨done, _⟩ | ⟨_, _, names⟩)
    · rw [refused] at done
      cases done
    · exact elsewhere (names (text "x"))
  refine ⟨moved, moved, ?_, ?_⟩
  · decide +kernel
  · decide +kernel

end Table

end Ubiqos.Io
