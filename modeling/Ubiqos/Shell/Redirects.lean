import Ubiqos.Io.Rows
import Ubiqos.Shell.Line

/-!
The redirections in a command's arguments, `take_redirects` of `src/modules/sh/sh.c`. They are
compared with the words of the line: an arrow that is a word of its own, and the word after it.
-/

namespace Ubiqos.Shell

/-- Every number of a standard stream carries this proof. -/
local instance three_ne_zero : NeZero 3 := inferInstance

def space : Byte := 0x20

/-- `redirect_t`, on one of 0, 1 and 2. -/
structure Redirect where
  fd : Fin 3
  name : List Byte
  append : Bool
  deriving DecidableEq

def nameSize : Nat := 40

def Redirect.cut (rd : Redirect) : Redirect := { rd with name := rd.name.take (nameSize - 1) }

def isSpace (c : Byte) : Bool := c == space

def tokenIs : List Byte → List Byte → Bool
  | [], [] => true
  | c :: _, [] => c == space
  | [], _ :: _ => false
  | c :: t, d :: w => c == d && tokenIs t w

def arrow (p : List Byte) : Option (Fin 3 × Bool × Nat) :=
  if tokenIs p [0x32, 0x3e] then some (2, false, 2)
  else if tokenIs p [0x3e, 0x3e] then some (1, true, 2)
  else if tokenIs p [0x3e] then some (1, false, 1)
  else if tokenIs p [0x3c] then some (0, false, 1)
  else none

/-- The loop of `take_redirects`, with `room` entries left: the line with the redirections blanked,
and the entries. -/
def takeLoop : Nat → Nat → List Byte → List Byte × List Redirect
  | 0, _, p => (p, [])
  | fuel + 1, room, p =>
    let gap := p.takeWhile isSpace
    let tok := p.dropWhile isSpace
    if tok = [] then (gap, [])
    else
      match arrow tok with
      | none =>
        let rest := takeLoop fuel room (tok.dropWhile (!isSpace ·))
        (gap ++ tok.takeWhile (!isSpace ·) ++ rest.1, rest.2)
      | some (fd, append, len) =>
        let p := (tok.drop len).dropWhile isSpace
        let name := p.takeWhile (!isSpace ·)
        let p := p.dropWhile (!isSpace ·)
        let blank := List.replicate (tok.length - p.length) space
        if name ≠ [] ∧ 0 < room then
          let rest := takeLoop fuel (room - 1) p
          (gap ++ blank ++ rest.1, ⟨fd, name.take (nameSize - 1), append⟩ :: rest.2)
        else
          let rest := takeLoop fuel room p
          (gap ++ blank ++ rest.1, rest.2)

def takeRedirects (args : List Byte) (max : Nat) : List Byte × List Redirect :=
  takeLoop (args.length + 1) max args

def words (line : List Byte) : List (List Byte) := (line.splitOn space).filter (· ≠ [])

def redirections : List (List Byte) → List Redirect
  | word :: name :: rest =>
    match arrow word with
    | some (fd, append, _) => ⟨fd, name, append⟩ :: redirections rest
    | none => redirections (name :: rest)
  | _ => []

theorem isSpace_iff {c : Byte} : isSpace c = true ↔ c = space := beq_iff_eq

theorem words_space (line : List Byte) : words (space :: line) = words line := by
  rw [words, show space :: line = [] ++ space :: line from rfl, List.splitOn_append_cons_self]
  simp [words]

theorem words_gap (gap line : List Byte) (blank : ∀ c ∈ gap, isSpace c = true) :
    words (gap ++ line) = words line := by
  induction gap with
  | nil => rfl
  | cons c gap ih =>
    rw [isSpace_iff.mp (blank c List.mem_cons_self), List.cons_append, words_space]
    exact ih fun d member => blank d (List.mem_cons_of_mem c member)

variable (text : List Byte)

theorem token_parts :
    text.takeWhile (!isSpace ·) ++ text.dropWhile (!isSpace ·) = text ∧
      space ∉ text.takeWhile (!isSpace ·) := by
  refine ⟨List.takeWhile_append_dropWhile, fun member => ?_⟩
  have plain := List.mem_takeWhile_imp member
  simp [isSpace] at plain

theorem words_token (led : text.takeWhile (!isSpace ·) ≠ []) :
    words text = text.takeWhile (!isSpace ·) :: words (text.dropWhile (!isSpace ·)) := by
  obtain ⟨parted, plain⟩ := token_parts text
  have stopped := List.head?_dropWhile_not (!isSpace ·) text
  generalize text.takeWhile (!isSpace ·) = word at *
  generalize text.dropWhile (!isSpace ·) = line at *
  subst parted
  cases line with
  | nil => simp [words, List.splitOn_eq_singleton plain, led]
  | cons c line =>
    have blank : c = space := isSpace_iff.mp (by simpa using stopped)
    rw [blank, words_space, words, List.splitOn_append_cons_self_of_not_mem plain,
      List.filter_cons_of_pos (by simpa using led)]
    rfl

variable {word : List Byte}

theorem tokenIs_iff (plain : space ∉ word) (text : List Byte) :
    tokenIs text word = true ↔ text.takeWhile (!isSpace ·) = word := by
  induction text generalizing word with
  | nil => cases word <;> simp [tokenIs]
  | cons c text ih =>
    cases word with
    | nil => simp [tokenIs, isSpace]
    | cons d word =>
      rw [List.mem_cons, not_or] at plain
      rw [tokenIs, Bool.and_eq_true, ih plain.2, beq_iff_eq]
      by_cases blank : isSpace c = true
      · have apart : c ≠ d := by
          rintro rfl
          exact plain.1 (isSpace_iff.mp blank).symm
        simp [blank, apart]
      · simp [blank]

theorem arrow_token : arrow text = arrow (text.takeWhile (!isSpace ·)) := by
  have same (word : List Byte) (plain : space ∉ word) :
      tokenIs text word = tokenIs (text.takeWhile (!isSpace ·)) word := by
    rw [Bool.eq_iff_iff, tokenIs_iff plain, tokenIs_iff plain, List.takeWhile_idem]
  rw [arrow, arrow, same _ (by decide), same _ (by decide), same _ (by decide), same _ (by decide)]

theorem arrow_length {text : List Byte} {fd : Fin 3} {append : Bool} {len : Nat}
    (found : arrow text = some (fd, append, len)) : len = (text.takeWhile (!isSpace ·)).length := by
  have token (word : List Byte) (plain : space ∉ word) (found : tokenIs text word = true) :
      word.length = (text.takeWhile (!isSpace ·)).length := by
    rw [(tokenIs_iff plain text).mp found]
  rw [arrow] at found
  split at found
  · rename_i here
    cases found
    exact token [0x32, 0x3e] (by decide) here
  · split at found
    · rename_i here
      cases found
      exact token [0x3e, 0x3e] (by decide) here
    · split at found
      · rename_i here
        cases found
        exact token [0x3e] (by decide) here
      · split at found
        · rename_i here
          cases found
          exact token [0x3c] (by decide) here
        · cases found

theorem redirections_plain (plain : arrow word = none) (rest : List (List Byte)) :
    redirections (word :: rest) = redirections rest := by
  cases rest with
  | nil => rfl
  | cons name rest => rw [redirections, plain]

theorem redirections_arrow {fd : Fin 3} {append : Bool} {len : Nat}
    (found : arrow word = some (fd, append, len)) (name : List Byte) (rest : List (List Byte)) :
    redirections (word :: name :: rest) = ⟨fd, name, append⟩ :: redirections rest := by
  rw [redirections, found]

theorem dropSpaces_led (some : text.dropWhile isSpace ≠ []) :
    (text.dropWhile isSpace).takeWhile (!isSpace ·) ≠ [] := by
  have stopped := List.head?_dropWhile_not isSpace text
  cases found : text.dropWhile isSpace with
  | nil => exact absurd found some
  | cons c rest =>
    rw [found, List.head?_cons] at stopped
    simp [show isSpace c = false from stopped]

theorem words_dropSpaces : words (text.dropWhile isSpace) = words text := by
  have gap := words_gap (text.takeWhile isSpace) (text.dropWhile isSpace)
    fun c member => List.mem_takeWhile_imp member
  rw [List.takeWhile_append_dropWhile] at gap
  exact gap.symm

theorem takeLoop_redirections {fuel : Nat} (room : Nat) {p : List Byte} (enough : p.length < fuel) :
    (takeLoop fuel room p).2 = ((redirections (words p)).take room).map Redirect.cut := by
  induction fuel generalizing room p with
  | zero => omega
  | succ fuel ih =>
    have shorter : (p.dropWhile isSpace).length ≤ p.length := (List.dropWhile_sublist isSpace).length_le
    rw [takeLoop, ← words_dropSpaces p]
    dsimp only
    have led := dropSpaces_led p
    generalize p.dropWhile isSpace = tok at shorter led ⊢
    by_cases blank : tok = []
    · simp [blank, words, redirections]
    · have word := led blank
      obtain ⟨parted, -⟩ := token_parts tok
      have lengths := congrArg List.length parted
      rw [List.length_append] at lengths
      have positive := List.length_pos_iff.mpr word
      rw [if_neg blank, words_token tok word]
      cases found : arrow tok with
      | none =>
        have plain : arrow (tok.takeWhile (!isSpace ·)) = none := (arrow_token tok).symm.trans found
        rw [redirections_plain plain]
        exact ih room (by omega)
      | some entry =>
        obtain ⟨fd, append, len⟩ := entry
        have arrowed := (arrow_token tok).symm.trans found
        have after : tok.drop len = tok.dropWhile (!isSpace ·) := by
          conv_lhs => rw [← parted, arrow_length found]
          exact List.drop_left
        dsimp only
        rw [after, ← words_dropSpaces (tok.dropWhile (!isSpace ·))]
        have tail : ((tok.dropWhile (!isSpace ·)).dropWhile isSpace).length ≤
            (tok.dropWhile (!isSpace ·)).length := (List.dropWhile_sublist isSpace).length_le
        have led := dropSpaces_led (tok.dropWhile (!isSpace ·))
        generalize (tok.dropWhile (!isSpace ·)).dropWhile isSpace = line at tail led ⊢
        have rest : (line.dropWhile (!isSpace ·)).length ≤ line.length :=
          (List.dropWhile_sublist _).length_le
        by_cases unnamed : line.takeWhile (!isSpace ·) = []
        · have ended : line = [] := Classical.byContradiction fun some => led some unnamed
          rw [if_neg (by simp [unnamed]), ih room (by omega), ended]
          rfl
        · rw [words_token line unnamed, redirections_arrow arrowed]
          cases room with
          | zero =>
            rw [if_neg (by simp), ih 0 (by omega), List.take_zero, List.take_zero]
          | succ room =>
            rw [if_pos ⟨unnamed, Nat.succ_pos room⟩, List.take_succ_cons, List.map_cons]
            exact congrArg _ (ih room (by omega))

theorem takeRedirects_eq (args : List Byte) (max : Nat) :
    (takeRedirects args max).2 = ((redirections (words args)).take max).map Redirect.cut :=
  takeLoop_redirections max (Nat.lt_succ_self _)

end Ubiqos.Shell

/-!
Starting a command with its redirections, `start_one` and `run_between` of `src/modules/sh/sh.c`.
The shell opens each file, saves the descriptor, puts the file on it and puts its own back when the
command has been started. A descriptor names an opening by its number in the list of all that the
process has made; which names can be opened and what a command answers is the rest of the system's.
-/

namespace Ubiqos.Shell

open Detours Io

structure Opened where
  name : List Byte
  flags : Nat
  deriving DecidableEq

/-- A process's descriptors, three at least, and the openings behind them. -/
structure Process (k : Nat) where
  row : Row (k + 3) Nat
  made : List Opened
  known : ∀ p i, row p = some i → i < made.length

/-- What the rest of the system answers: whether the next opening, by its number, is of a name that
can be opened, and the process id of a command or why there is none. -/
structure World where
  opens : Nat → List Byte → Nat → Bool
  exec : List Byte → List Byte → Int

structure Started (k : Nat) where
  cmd : List Byte
  args : List Byte
  row : Row (k + 3) Nat

structure Outcome (k : Nat) where
  row : Row (k + 3) Nat
  made : List Opened
  pid : Int
  /-- The command and the descriptors it was started with, if it was. -/
  started : Option (Started k)

def shBuiltin : Int := -100
def shSaid : Int := -101

def oWronly : Nat := 1
def oCreat : Nat := 0x40
def oTrunc : Nat := 0x200
def oAppend : Nat := 0x400

structure Target where
  fd : Fin 3
  name : List Byte
  flags : Nat
  deriving DecidableEq

attribute [local instance] three_ne_zero

def Redirect.target (rd : Redirect) : Target :=
  ⟨rd.fd, rd.name, if rd.fd = 0 then 0 else oWronly + oCreat + if rd.append then oAppend else oTrunc⟩

section Calls
variable {k : Nat}

structure Put (k : Nat) where
  row : Row (k + 3) Nat
  made : List Opened
  saved : Int

/-- `ubiqos_open_flags`. -/
def openFlags (world : World) (row : Row (k + 3) Nat) (made : List Opened) (name : List Byte)
    (flags : Nat) : (Row (k + 3) Nat × List Opened) × Int :=
  let answer := if world.opens made.length name flags then some made.length else none
  let f := openRow row answer
  ((f.1, if f.2 < 0 then made else made ++ [⟨name, flags⟩]), f.2)

/-- The four calls that put a file on a descriptor, in `start_one` and in `run_between`: none where
the file was refused. What the last three answer is not looked at. -/
def putOn (world : World) (target : Target) (row : Row (k + 3) Nat) (made : List Opened) :
    Option (Put k) :=
  let f := openFlags world row made target.name target.flags
  if f.2 < 0 then none
  else
    let saved := dupRow f.1.1 (target.fd : Nat) (-1)
    let moved := dupRow saved.1 f.2 (target.fd : Nat)
    let closed := closeRow moved.1 f.2
    some ⟨closed.1, f.1.2, saved.2⟩

structure Applied (k : Nat) where
  row : Row (k + 3) Nat
  made : List Opened
  saved : List Int
  opened : Nat

/-- The loop of `start_one` that puts the files in place. -/
def applyRedirects (world : World) : List Redirect → Row (k + 3) Nat → List Opened → Applied k
  | [], row, made => ⟨row, made, [], 0⟩
  | rd :: rest, row, made =>
    match putOn world rd.target row made with
    | none => ⟨row, made, (rd :: rest).map fun _ => -1, 0⟩
    | some put =>
      let later := applyRedirects world rest put.row put.made
      ⟨later.row, later.made, put.saved :: later.saved, later.opened + 1⟩

def putBack : List (Redirect × Int) → Row (k + 3) Nat → Row (k + 3) Nat
  | [], row => row
  | (rd, saved) :: rest, row =>
    let row := putBack rest row
    if saved < 0 then row else (closeRow (dupRow row saved (rd.fd : Nat)).1 saved).1

def help : List Byte := [0x68, 0x65, 0x6c, 0x70]
def cd : List Byte := [0x63, 0x64]

/-- `start_one`. -/
def startOne (world : World) (cmd : List Byte) (row : Row (k + 3) Nat) (made : List Opened) :
    Outcome k :=
  let args := (cmd.dropWhile (!isSpace ·)).dropWhile isSpace
  let cmd := cmd.takeWhile (!isSpace ·)
  let taken := takeRedirects args 3
  let applied := applyRedirects world taken.2 row made
  { row := putBack (taken.2.zip applied.saved) applied.row
    made := applied.made
    pid :=
      if applied.opened ≠ taken.2.length then shSaid
      else if cmd = help ∨ cmd = cd then shBuiltin
      else world.exec cmd taken.1
    started :=
      if applied.opened ≠ taken.2.length then none else some ⟨cmd, taken.1, applied.row⟩ }

/-- `run_between`. -/
def runBetween (world : World) (cmd : List Byte) (fd : Fin 3) (file : List Byte) (flags : Nat)
    (row : Row (k + 3) Nat) (made : List Opened) : Outcome k :=
  match putOn world ⟨fd, file, flags⟩ row made with
  | none => ⟨row, made, shSaid, none⟩
  | some put =>
    let ran := startOne world cmd put.row put.made
    { ran with row := (closeRow (dupRow ran.row put.saved (fd : Nat)).1 put.saved).1 }

end Calls

inductive Call where
  | startOne (cmd : List Byte)
  | runBetween (cmd : List Byte) (fd : Fin 3) (file : List Byte) (flags : Nat)
  deriving DecidableEq

variable {k : Nat}

def perform (world : World) (s : Process k) : Call → Outcome k
  | .startOne cmd => startOne world cmd s.row s.made
  | .runBetween cmd fd file flags => runBetween world cmd fd file flags s.row s.made

def Call.cmd : Call → List Byte
  | .startOne cmd | .runBetween cmd _ _ _ => cmd

def given (cmd : List Byte) : List Redirect :=
  redirections (words (cmd.dropWhile (!isSpace ·)))

/-- The file that `run_between` puts in place comes first. -/
def Call.before : Call → List Target
  | .startOne _ => []
  | .runBetween _ fd file flags => [⟨fd, file, flags⟩]

def Call.asked (call : Call) : List Target := call.before ++ (given call.cmd).map Redirect.target

def std (fd : Fin 3) : Fin (k + 3) := fd.castLE (Nat.le_add_left 3 k)

/-- The shell's own three name what they did, and nothing else is open that was not. -/
structure Restored (before after : Row (k + 3) Nat) : Prop where
  own : ∀ fd, after (std fd) = before (std fd)
  closed : ∀ p, 3 ≤ p.val → before p = none → after p = none

/-- Every file was opened under exactly its name and flags, in order, and each descriptor has the
last that was meant for it. -/
structure TookEffect (asked : List Target) (before after : List Opened) (row : Row (k + 3) Nat) :
    Prop where
  opened : after = before ++ asked.map fun a => ⟨a.name, a.flags⟩
  there : ∀ earlier a later, asked = earlier ++ a :: later → (∀ b ∈ later, b.fd ≠ a.fd) →
    row (std a.fd) = some (before.length + earlier.length)

structure GivesBack (s : Process k) (call : Call) (after : Outcome k) : Prop where
  restored : Restored s.row after.row
  effective : ∀ start, after.started = some start →
    TookEffect call.asked s.made after.made start.row

def answers (world : World) : List Target → Nat → List (Fin (k + 3) × Option Nat)
  | [], _ => []
  | a :: rest, n =>
    (std a.fd, if world.opens n a.name a.flags then some n else none) :: answers world rest (n + 1)

def Call.entries (call : Call) : List Target :=
  call.before ++ ((given call.cmd).map Redirect.cut).map Redirect.target

/-- The shell's descriptors and the places for their copies suffice, and no name is longer than its
entry where nothing is refused. -/
structure Holds (world : World) (s : Process k) (call : Call) : Prop where
  covered : Covered (Detours.vacant s.row) [] (answers world call.entries s.made.length)
  short : Detours.vacant s.row ≠ [] → ¬ Refused (answers (k := k) world call.entries s.made.length) →
    ∀ rd ∈ given call.cmd, rd.name.length < nameSize

def asInt {n : Nat} : Option (Fin n) → Int
  | none => -1
  | some p => (p : Nat)

section Calls
variable {n : Nat} {α : Type} {row : Row n α}

theorem index_fin (p : Fin n) : index n ((p : Nat) : Int) = some p := by simp [index]

theorem dupRow_copyOut (row : Row n α) (p : Fin n) :
    dupRow row (p : Nat) (-1) = ((copyOut row p).1, asInt (copyOut row p).2) := by
  have apart : ¬ (-1 : Int) = (p : Nat) := by omega
  cases named : row p with
  | none => simp [dupRow, index_fin, named, copyOut, asInt]
  | some a =>
    cases free : (Detours.vacant row).head? with
    | none => simp [dupRow, index_fin, named, copyOut, apart, free, asInt]
    | some q => simp [dupRow, index_fin, named, copyOut, apart, free, asInt]

theorem dupRow_copyTo (row : Row n α) (p q : Fin n) :
    (dupRow row (p : Nat) (q : Nat)).1 = copyTo row p q := by
  cases named : row p with
  | none => simp [dupRow, index_fin, named, copyTo]
  | some a =>
    by_cases same : q = p
    · subst same
      have back : Function.update row q (some a) = row := named ▸ Function.update_eq_self q row
      simp [dupRow, index_fin, named, copyTo, back]
    · have apart : ¬ ((q : Nat) : Int) = (p : Nat) := by omega
      have small : ¬ ((q : Nat) : Int) < 0 := by omega
      simp [dupRow, index_fin, named, copyTo, apart, small]

theorem closeRow_shut (row : Row n α) (p : Fin n) :
    (closeRow row (p : Nat)).1 = Function.update row p none := by
  cases named : row p with
  | none =>
    have back : Function.update row p none = row := named ▸ Function.update_eq_self p row
    simp [closeRow, index_fin, named, back]
  | some a => simp [closeRow, index_fin, named]

theorem restore_calls (row : Row n α) (fd : Fin n) (saved : Option (Fin n)) :
    (closeRow (dupRow row (asInt saved) (fd : Nat)).1 (asInt saved)).1 = restore row fd saved := by
  cases saved with
  | none =>
    have out : index n (-1) = none := by simp [index]
    simp [asInt, dupRow, closeRow, out, restore]
  | some s => rw [asInt, dupRow_copyTo, closeRow_shut, restore]

theorem restore_checked (row : Row n α) (fd : Fin n) (saved : Option (Fin n)) :
    (if asInt saved < 0 then row
      else (closeRow (dupRow row (asInt saved) (fd : Nat)).1 (asInt saved)).1) = restore row fd saved := by
  rw [restore_calls]
  cases saved with
  | none => rfl
  | some s => rw [if_neg (by simp [asInt])]

end Calls

section Spec
variable {world : World} {row here : Row (k + 3) Nat} {made : List Opened} {base : Nat}

theorem std_value (fd : Fin 3) : ((std (k := k) fd : Fin (k + 3)) : Nat) = fd := rfl

def Target.opened (a : Target) : Opened := ⟨a.name, a.flags⟩

theorem putOn_eq (world : World) (a : Target) (row : Row (k + 3) Nat) (made : List Opened) :
    putOn world a row made =
      if world.opens made.length a.name a.flags then
        (divert row (std a.fd) made.length).map fun there =>
          ⟨there.1, made ++ [a.opened], asInt there.2⟩
      else none := by
  unfold putOn openFlags
  cases accepted : world.opens made.length a.name a.flags with
  | false => simp [openRow]
  | true =>
    cases first : (Detours.vacant row).head? with
    | none => simp [openRow, first, divert]
    | some f =>
      have small : ¬ ((f : Nat) : Int) < 0 := by omega
      simp only [openRow, first, ↓reduceIte, small, divert, Option.map_some, Option.some.injEq,
        ← std_value (k := k) a.fd, dupRow_copyOut, dupRow_copyTo, closeRow_shut]
      rfl

variable {a : Target}

theorem putOn_none (none : putOn world a row made = none)
    (rest : List (Fin (k + 3) × Option Nat)) :
    detour ((std a.fd, if world.opens made.length a.name a.flags then some made.length else .none) :: rest)
        row = row ∧
      arrive ((std a.fd, if world.opens made.length a.name a.flags then some made.length else .none) :: rest)
        row = .none := by
  rw [putOn_eq] at none
  split at none
  · rename_i accepted
    rw [Option.map_eq_none_iff] at none
    simp [accepted, detour, arrive, none]
  · rename_i refused
    simp [refused, detour, arrive]

theorem putOn_some {put : Put k} (found : putOn world a row made = some put)
    (rest : List (Fin (k + 3) × Option Nat)) :
    ∃ saved, put.saved = asInt saved ∧ put.made = made ++ [a.opened] ∧
      detour ((std a.fd, if world.opens made.length a.name a.flags then some made.length else none) :: rest)
        row = restore (detour rest put.row) (std a.fd) saved ∧
      arrive ((std a.fd, if world.opens made.length a.name a.flags then some made.length else none) :: rest)
        row = arrive rest put.row := by
  rw [putOn_eq] at found
  split at found
  · rename_i accepted
    obtain ⟨there, turned, rfl⟩ := Option.map_eq_some_iff.mp found
    refine ⟨there.2, rfl, rfl, ?_, ?_⟩
    · simp [accepted, detour, turned]
    · simp [accepted, arrive, turned]
  · cases found

def Arrived (arrived : Option (Row (k + 3) Nat)) (asked : List Target) (before after : List Opened)
    (row : Option (Row (k + 3) Nat)) : Prop :=
  row = arrived ∧ (arrived ≠ none → after = before ++ asked.map Target.opened)

theorem putBack_unsaved (rds : List Redirect) (row : Row (k + 3) Nat) :
    putBack (rds.zip (rds.map fun _ => -1)) row = row := by
  induction rds with
  | nil => rfl
  | cons rd rest ih =>
    rw [List.map_cons, List.zip_cons_cons, putBack, if_pos (by decide)]
    exact ih

theorem applyRedirects_eq (world : World) (rds : List Redirect) (row : Row (k + 3) Nat)
    (made : List Opened) :
    let applied := applyRedirects world rds row made
    let steps := answers world (rds.map Redirect.target) made.length
    putBack (rds.zip applied.saved) applied.row = detour steps row ∧
      Arrived (arrive steps row) (rds.map Redirect.target) made applied.made
        (if applied.opened ≠ rds.length then none else some applied.row) := by
  induction rds generalizing row made with
  | nil => exact ⟨rfl, rfl, fun _ => by simp [applyRedirects]⟩
  | cons rd rest ih =>
    dsimp only
    rw [applyRedirects]
    cases found : putOn world rd.target row made with
    | none =>
      obtain ⟨undone, none⟩ := putOn_none found
        (answers world (rest.map Redirect.target) (made.length + 1))
      simp only [List.map_cons, answers]
      rw [undone, none]
      exact ⟨putBack_unsaved (rd :: rest) row, by simp, fun some => absurd rfl some⟩
    | some put =>
      obtain ⟨saved, answer, log, undone, arrived⟩ := putOn_some found
        (answers world (rest.map Redirect.target) (made.length + 1))
      have length : put.made.length = made.length + 1 := by simp [log]
      obtain ⟨back, started, opened⟩ := ih put.row put.made
      rw [length] at back started opened
      simp only [List.map_cons, answers]
      rw [undone, arrived]
      refine ⟨?_, ?_, ?_⟩
      · rw [List.zip_cons_cons, putBack, back, answer]
        exact restore_checked _ (std rd.fd) saved
      · rw [← started]
        simp
      · intro some
        rw [opened some, log, List.map_cons, List.append_assoc]
        rfl

theorem perform_eq (world : World) (s : Process k) (call : Call) (few : (given call.cmd).length ≤ 3) :
    let after := perform world s call
    let steps := answers world call.entries s.made.length
    after.row = detour steps s.row ∧
      Arrived (arrive steps s.row) call.entries s.made after.made (after.started.map Started.row) := by
  have taken (cmd : List Byte) (few : (given cmd).length ≤ 3) :
      (takeRedirects ((cmd.dropWhile (!isSpace ·)).dropWhile isSpace) 3).2 =
        (given cmd).map Redirect.cut := by
    rw [takeRedirects_eq, words_dropSpaces]
    exact congrArg _ (List.take_of_length_le few)
  have one (cmd : List Byte) (few : (given cmd).length ≤ 3) (row : Row (k + 3) Nat)
      (made : List Opened) :
      (startOne world cmd row made).row =
        detour (answers world (((given cmd).map Redirect.cut).map Redirect.target) made.length) row ∧
      Arrived (arrive (answers world (((given cmd).map Redirect.cut).map Redirect.target) made.length) row)
        (((given cmd).map Redirect.cut).map Redirect.target) made (startOne world cmd row made).made
        ((startOne world cmd row made).started.map Started.row) := by
    obtain ⟨back, started, opened⟩ := applyRedirects_eq world ((given cmd).map Redirect.cut) row made
    rw [startOne]
    dsimp only
    rw [taken cmd few]
    refine ⟨back, ?_, opened⟩
    rw [← started]
    split <;> rfl
  cases call with
  | startOne cmd => exact one cmd few s.row s.made
  | runBetween cmd fd file flags =>
    dsimp only [perform, Call.entries, Call.before, Call.cmd] at few ⊢
    rw [runBetween, List.singleton_append, answers]
    cases found : putOn world ⟨fd, file, flags⟩ s.row s.made with
    | none =>
      obtain ⟨undone, none⟩ := putOn_none found
        (answers world (((given cmd).map Redirect.cut).map Redirect.target) (s.made.length + 1))
      exact ⟨undone.symm, none.symm, fun some => absurd none some⟩
    | some put =>
      obtain ⟨saved, answer, log, undone, arrived⟩ := putOn_some found
        (answers world (((given cmd).map Redirect.cut).map Redirect.target) (s.made.length + 1))
      have length : put.made.length = s.made.length + 1 := by simp [log]
      obtain ⟨back, started, opened⟩ := one cmd few put.row put.made
      rw [length] at back started opened
      rw [undone, arrived]
      refine ⟨?_, started, ?_⟩
      · dsimp only
        rw [back, answer]
        exact restore_calls _ (std fd) saved
      · intro some
        rw [opened some, log, List.map_cons, List.append_assoc]
        rfl

theorem objects_answers (world : World) (ts : List Target) (n : Nat) :
    (∀ i ∈ objects (answers (k := k) world ts n), n ≤ i) ∧
      (objects (answers (k := k) world ts n)).Nodup := by
  induction ts generalizing n with
  | nil => simp [answers, objects]
  | cons a rest ih =>
    obtain ⟨above, apart⟩ := ih (n + 1)
    have later : ∀ i ∈ objects (answers (k := k) world rest (n + 1)), n ≤ i := fun i member =>
      Nat.le_of_succ_le (above i member)
    cases accepted : world.opens n a.name a.flags with
    | false =>
      have same : objects (answers (k := k) world (a :: rest) n) =
          objects (answers (k := k) world rest (n + 1)) := by simp [answers, objects, accepted]
      rw [same]
      exact ⟨later, apart⟩
    | true =>
      have same : objects (answers (k := k) world (a :: rest) n) =
          n :: objects (answers (k := k) world rest (n + 1)) := by simp [answers, objects, accepted]
      rw [same]
      refine ⟨?_, List.nodup_cons.mpr ⟨fun member => ?_, apart⟩⟩
      · intro i member
        rcases List.mem_cons.mp member with rfl | member
        · exact Nat.le_refl _
        · exact later i member
      · exact Nat.not_succ_le_self n (above n member)

theorem std_injective {a b : Fin 3} : std (k := k) a = std b ↔ a = b := Fin.castLE_inj

variable {ts : List Target}

theorem latest_answers_none {fd : Fin 3} (other : ∀ b ∈ ts, b.fd ≠ fd)
    (n : Nat) : latest (std (k := k) fd) (answers world ts n) = none := by
  induction ts generalizing n with
  | nil => rfl
  | cons a rest ih =>
    have first := other a List.mem_cons_self
    rw [answers, latest, ih (fun b member => other b (List.mem_cons_of_mem a member))]
    simp [std_injective, first]

theorem latest_answers {earlier later : List Target} {n : Nat}
    (accepted : ¬ Refused (answers (k := k) world (earlier ++ a :: later) n))
    (last : ∀ b ∈ later, b.fd ≠ a.fd) :
    latest (std (k := k) a.fd) (answers world (earlier ++ a :: later) n) = some (n + earlier.length) := by
  induction earlier generalizing n with
  | nil =>
    have opens : world.opens n a.name a.flags = true := by
      cases answer : world.opens n a.name a.flags with
      | true => rfl
      | false => exact absurd ⟨_, List.mem_cons_self, by simp [answer]⟩ accepted
    simp [answers, latest, latest_answers_none last, opens]
  | cons b earlier ih =>
    have rest : ¬ Refused (answers (k := k) world (earlier ++ a :: later) (n + 1)) := by
      rintro ⟨d, member, refused⟩
      exact accepted ⟨d, List.mem_cons_of_mem _ member, refused⟩
    rw [List.cons_append, answers, latest, ih rest, Option.some_or, List.length_cons]
    congr 1
    omega

theorem answers_fd {fd : Fin (k + 3)} {n i : Nat}
    (found : latest fd (answers world ts n) = some i) : ∃ a ∈ ts, std a.fd = fd := by
  induction ts generalizing n with
  | nil => cases found
  | cons a rest ih =>
    rw [answers, latest] at found
    by_cases same : std a.fd = fd
    · exact ⟨a, List.mem_cons_self, same⟩
    · rw [if_neg same, Option.or_none] at found
      obtain ⟨b, member, there⟩ := ih found
      exact ⟨b, List.mem_cons_of_mem a member, there⟩

theorem last_target {fd : Fin 3} (some : ∃ a ∈ ts, a.fd = fd) :
    ∃ earlier a later, ts = earlier ++ a :: later ∧ a.fd = fd ∧ ∀ b ∈ later, b.fd ≠ a.fd := by
  induction ts with
  | nil => simp at some
  | cons a rest ih =>
    by_cases again : ∃ b ∈ rest, b.fd = fd
    · obtain ⟨earlier, b, later, parts, same, last⟩ := ih again
      exact ⟨a :: earlier, b, later, by rw [parts]; rfl, same, last⟩
    · obtain ⟨b, member, same⟩ := some
      rcases List.mem_cons.mp member with rfl | member
      · refine ⟨[], b, rest, rfl, same, fun c inside hit => again ⟨c, inside, ?_⟩⟩
        rw [hit, same]
      · exact absurd ⟨b, member, same⟩ again

theorem Call.asked_entries (call : Call) :
    call.asked = call.entries ↔ ∀ rd ∈ given call.cmd, rd.name.length < nameSize := by
  have entry (rd : Redirect) : rd.target = rd.cut.target ↔ rd.name.length < nameSize := by
    have same : rd.target = rd.cut.target ↔ rd.name.take (nameSize - 1) = rd.name := by
      rw [Redirect.target, Redirect.target, Target.mk.injEq]
      exact ⟨fun whole => whole.2.1.symm, fun whole => ⟨rfl, whole.symm, rfl⟩⟩
    rw [same, List.take_eq_self_iff, nameSize]
    omega
  rw [Call.asked, Call.entries, List.append_cancel_left_eq, List.map_map, List.map_inj_left]
  exact forall₂_congr fun rd _ => entry rd

theorem Call.opened_entries (call : Call)
    (same : call.asked.map Target.opened = call.entries.map Target.opened) :
    call.asked = call.entries := by
  rw [Call.asked, Call.entries, List.map_append, List.map_append, List.append_cancel_left_eq,
    List.map_map, List.map_map, List.map_map, List.map_inj_left] at same
  rw [Call.asked, Call.entries, List.append_cancel_left_eq, List.map_map, List.map_inj_left]
  intro rd member
  have opened := same rd member
  simp only [Function.comp_apply, Target.opened, Redirect.target, Opened.mk.injEq] at opened
  simp only [Function.comp_apply, Redirect.target, Target.mk.injEq]
  exact ⟨rfl, opened.1, opened.2⟩

theorem tookEffect_iff {call : Call} {before after : List Opened} {steps : List (Fin (k + 3) × Option Nat)}
    (numbered : steps = answers world call.entries before.length) (accepted : ¬ Refused steps)
    (opened : after = before ++ call.entries.map Target.opened) :
    TookEffect call.asked before after here ↔ call.asked = call.entries ∧ Effective steps here := by
  subst numbered
  constructor
  · rintro ⟨all, there⟩
    have same : call.asked = call.entries :=
      call.opened_entries (List.append_cancel_left (all.symm.trans opened))
    refine ⟨same, fun fd i found => ?_⟩
    obtain ⟨a, member, rfl⟩ := answers_fd found
    obtain ⟨earlier, b, later, parts, hit, last⟩ := last_target ⟨a, member, rfl⟩
    have number := latest_answers (parts ▸ accepted) last
    rw [← parts, hit, found, Option.some.injEq] at number
    rw [number, ← hit]
    exact there earlier b later (same.trans parts) last
  · rintro ⟨same, effective⟩
    refine ⟨same ▸ opened, fun earlier a later parts last => ?_⟩
    have number := latest_answers ((same.symm.trans parts) ▸ accepted) last
    rw [← same.symm.trans parts] at number
    exact effective _ _ number

theorem answers_low {n : Nat} {p : Fin (k + 3)}
    (member : p ∈ (answers world ts n).map Prod.fst) : p.val < 3 := by
  induction ts generalizing n with
  | nil => simp [answers] at member
  | cons a rest ih =>
    rw [answers, List.map_cons, List.mem_cons] at member
    rcases member with rfl | member
    · exact a.fd.isLt
    · exact ih member

theorem restored_iff {call : Call} {n : Nat} :
    Restored row (detour (answers world call.entries n) row) ↔
      ∀ p, detour (answers world call.entries n) row p = row p := by
  constructor
  · rintro ⟨own, closed⟩ p
    by_cases low : p.val < 3
    · exact own ⟨p, low⟩
    · cases named : row p with
      | none => exact closed p (Nat.le_of_not_lt low) named
      | some o =>
        obtain ⟨o', holds, rfl | ⟨own, -⟩⟩ := detour_named (answers world call.entries n) named
        · exact holds
        · exact absurd (answers_low own) low
  · intro same
    exact ⟨fun fd => same _, fun p _ blank => (same p).trans blank⟩

end Spec

/-- The shell has its descriptors back, nothing is left open and the command was started only with
every file in place, just when the places suffice and the names fit. -/
theorem descriptors_back (world : World) (s : Process k) (call : Call)
    (few : (given call.cmd).length ≤ 3) :
    GivesBack s call (perform world s call) ↔ Holds world s call := by
  obtain ⟨back, started, opened⟩ := perform_eq world s call few
  obtain ⟨above, apart⟩ := objects_answers (k := k) world call.entries s.made.length
  have fresh : ∀ i ∈ objects (answers (k := k) world call.entries s.made.length), ∀ p,
      s.row p ≠ some i := by
    intro i member p named
    exact Nat.lt_irrefl i ((s.known p i named).trans_le (above i member))
  have spared : ∀ p ∈ ([] : List (Fin (k + 3))), s.row p ≠ none := by simp
  have covered := returns_iff _ spared fresh apart
  -- The detours come back as `returns_iff` says; the program is in between.
  have returned : Returns [] (answers world call.entries s.made.length) s.row ↔
      Restored s.row (perform world s call).row ∧
        ∀ here, arrive (answers world call.entries s.made.length) s.row = some here →
          Effective (answers world call.entries s.made.length) here := by
    rw [back, restored_iff]
    exact ⟨fun whole => ⟨fun p => whole.back p (by simp), whole.effective⟩,
      fun whole => ⟨fun p _ => whole.1 p, whole.2⟩⟩
  rw [covered] at returned
  constructor
  · rintro ⟨restored, effective⟩
    have took : ∀ here, arrive (answers world call.entries s.made.length) s.row = some here →
        call.asked = call.entries ∧ Effective (answers world call.entries s.made.length) here := by
      intro here arrives
      rw [arrives] at started opened
      obtain ⟨start, ran, rfl⟩ := Option.map_eq_some_iff.mp started
      exact (tookEffect_iff rfl (arrive_accepted _ arrives) (opened (by simp))).mp (effective start ran)
    refine ⟨returned.mpr ⟨restored, fun here arrives => (took here arrives).2⟩, ?_⟩
    intro room accepted
    obtain ⟨here, arrives⟩ := arrive_some _ room accepted
    exact call.asked_entries.mp (took here arrives).1
  · rintro ⟨covers, short⟩
    obtain ⟨restored, effective⟩ := returned.mp covers
    refine ⟨restored, fun start ran => ?_⟩
    rw [ran] at started
    have arrives := started.symm
    have accepted := arrive_accepted _ arrives
    refine (tookEffect_iff rfl accepted (opened (by simp [arrives]))).mpr ⟨?_, effective _ arrives⟩
    rw [call.asked_entries]
    intro rd member
    refine short (arrive_room ?_ arrives) accepted rd member
    intro none
    have some : call.entries ≠ [] := List.ne_nil_of_mem
      (List.mem_append_right _ (List.mem_map_of_mem (List.mem_map_of_mem member)))
    cases entries : call.entries with
    | nil => exact some entries
    | cons a rest => simp [entries, answers] at none

def nearlyFull : Process 9 where
  row := fun p => if p.val = 11 then none else some p
  made := List.replicate 12 ⟨[], 0⟩
  known := by decide

/-- `cmd > f`. -/
def toFile : Call := .startOne [0x63, 0x6d, 0x64, 0x20, 0x3e, 0x20, 0x66]

def willing : World := ⟨fun _ _ _ => true, fun _ _ => 5⟩

def newborn : Process 9 where
  row := fun p => if p.val < 3 then some p else none
  made := List.replicate 3 ⟨[], 0⟩
  known := by decide

theorem descriptors_back_fresh : (given toFile.cmd).length ≤ 3 ∧
    (GivesBack newborn toFile (perform willing newborn toFile) ↔ Holds willing newborn toFile) :=
  ⟨by decide, descriptors_back willing newborn toFile (by decide)⟩

/-- `cmd >`, and a name of forty bytes. -/
def longName : Call := .startOne ([0x63, 0x6d, 0x64, 0x20, 0x3e, 0x20] ++ List.replicate 40 0x61)

/-- The file stays on the shell's descriptor 1; the command writes to a file of another name. -/
theorem standard_output_lost :
    ¬ GivesBack nearlyFull toFile (perform willing nearlyFull toFile) ∧
      ¬ GivesBack newborn longName (perform willing newborn longName) := by
  constructor
  · intro kept
    have lost := kept.restored.own 1
    revert lost
    decide
  · intro kept
    have opened : ((perform willing newborn longName).started).isSome = true := by decide
    obtain ⟨start, ran⟩ := Option.isSome_iff_exists.mp opened
    have named := (kept.effective start ran).opened
    revert named
    decide

inductive Session : Process k → Process k → Prop where
  | rest (s : Process k) : Session s s
  | call {s t u : Process k} (world : World) (call : Call) (few : (given call.cmd).length ≤ 3)
      (holds : Holds world s call) (row : t.row = (perform world s call).row)
      (made : t.made = (perform world s call).made) (later : Session t u) : Session s u

theorem Holds.same {world : World} {s : Process k} {call : Call} (holds : Holds world s call)
    (few : (given call.cmd).length ≤ 3) : (perform world s call).row = s.row := by
  obtain ⟨above, apart⟩ := objects_answers (k := k) world call.entries s.made.length
  have fresh : ∀ i ∈ objects (answers (k := k) world call.entries s.made.length), ∀ p,
      s.row p ≠ some i := fun i member p named =>
    Nat.lt_irrefl i ((s.known p i named).trans_le (above i member))
  have whole := (returns_iff _ (by simp) fresh apart).mpr holds.covered
  rw [(perform_eq world s call few).1]
  exact funext fun p => whole.back p (by simp)

/-- However many commands the shell runs, its descriptors are those it began with. -/
theorem session_same {s u : Process k} (session : Session s u) : u.row = s.row := by
  induction session with
  | rest s => rfl
  | call world call few holds row made later ih => rw [ih, row, holds.same few]

def opened : Process 9 where
  row := (perform willing newborn toFile).row
  made := (perform willing newborn toFile).made
  known := by decide

/-- `cmd > f` behind a pipe, whose file `p` it reads. -/
def piped : Call := .runBetween [0x63, 0x6d, 0x64, 0x20, 0x3e, 0x20, 0x66] 0 [0x70] 1

def openedTwice : Process 9 where
  row := (perform willing opened piped).row
  made := (perform willing opened piped).made
  known := by decide

theorem session_same_opened : openedTwice.row = newborn.row := by
  have room : Detours.vacant newborn.row = [3, 4, 5, 6, 7, 8, 9, 10, 11] := by decide
  have asked : answers (k := 9) willing toFile.entries newborn.made.length = [(1, some 3)] := by decide
  have first : Holds willing newborn toFile := ⟨by rw [room, asked]; simp [Covered], fun _ _ => by decide⟩
  have room' : Detours.vacant opened.row = [3, 4, 5, 6, 7, 8, 9, 10, 11] := by decide
  have asked' : answers (k := 9) willing piped.entries opened.made.length = [(0, some 4), (1, some 5)] := by decide
  have second : Holds willing opened piped := ⟨by rw [room', asked']; simp [Covered], fun _ _ => by decide⟩
  exact session_same (.call willing toFile (by decide) first rfl rfl
    (.call willing piped (by decide) second rfl rfl (.rest openedTwice)))

end Ubiqos.Shell
