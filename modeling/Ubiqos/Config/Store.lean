import Ubiqos.Config.Settings
import Ubiqos.Lib.Words

/-!
The settings kept in flash, `ubiqos_config_store` and `ubiqos_config_read` of
`src/kernel/config.c`. The text is written anew with the key's lines left out and the new one
last, so what is read at the next start is what was last kept for each key.
-/

namespace Ubiqos.Config

open Function

/-- The flash sector of the settings, by the offset in it. -/
abbrev Sector := Nat → Byte

def cfgMagic : Nat := 0x47464355
def cfgTextMax : Nat := 1024
def headBytes : Nat := 12

/-- A board's flash and what is kept there: on a board without a network on the USB cable there is
no `usb_address`. -/
structure Board where
  erase : Sector → Sector
  program : Sector → (Nat → Byte) → Nat → Sector
  pageSize : Nat
  hasUsbNetwork : Bool

/-- Flash that is erased is all ones, and programming it then writes what is given. -/
structure Works (b : Board) : Prop where
  erased : ∀ s i, b.erase s i = 0xff
  programmed : ∀ s data n i, (∀ j, s j = 0xff) → i < n → b.program s data n i = data i
  page : 0 < b.pageSize

def imageBytes (b : Board) : Nat :=
  (headBytes + cfgTextMax + b.pageSize - 1) / b.pageSize * b.pageSize

def fnv1a (t : Text) : BitVec 32 :=
  t.foldl (fun h c => (h ^^^ c.setWidth 32) * 16777619) 2166136261

def storedText (s : Sector) : Option Text :=
  let len := Words.load s 4
  if Words.load s 0 ≠ cfgMagic ∨ len > cfgTextMax then none
  else
    let t := (List.range len).map fun i => s (headBytes + i)
    if (fnv1a t).toNat ≠ Words.load s 8 then none else some t

def writeSector (b : Board) (s : Sector) : Option (Nat → Byte) → Sector
  | none => b.erase s
  | some data => b.program (b.erase s) data (imageBytes b)

def kept (b : Board) : List Key :=
  if b.hasUsbNetwork then [.hostname, .usbAddress, .timezone] else [.hostname, .timezone]

def canonOf (b : Board) (key : Text) : Option Key :=
  (kept b).foldl (fun canon k => if keyIs key k.name then some k else canon) none

/-- `memset(img, 0xff, …)`, then the text and the header. -/
def image (t : Text) : Nat → Byte :=
  let img : Nat → Byte := fun i => if headBytes ≤ i then t.getD (i - headBytes) 0xff else 0xff
  Words.store (Words.store (Words.store img 0 cfgMagic) 4 t.length) 8 (fnv1a t).toNat

def keeps (canon : Key) (line : Text) : Bool := (lineKey line).any fun k => !keyIs k canon.name

def keepLoop (canon : Key) : Nat → Text → Text × Bool → Text × Bool
  | 0, _, acc => acc
  | left + 1, old, (text, full) =>
    if old = [] then (text, full)
    else
      let line := old.takeWhile fun c => c ≠ newline
      let rest := (old.dropWhile fun c => c ≠ newline).drop 1
      if keeps canon line then
        if text.length + line.length + 1 > cfgTextMax then keepLoop canon left rest (text, true)
        else keepLoop canon left rest (text ++ line ++ [newline], full)
      else keepLoop canon left rest (text, full)

def wroteSame (b : Board) (t : Text) (now : Sector) : Bool :=
  if t ≠ [] then (List.range (imageBytes b)).all fun i => now i == image t i
  else Words.load now 0 == 0xffffffff

structure Machine where
  sector : Sector
  settings : Settings

structure Call where
  key : Text
  value : Text
  memory : Bool

def newText (canon : Key) (value : Text) (old : Option Text) : Text × Bool :=
  let old := old.getD []
  let (text, full) := keepLoop canon old.length old ([], false)
  if value = [] then (text, full)
  else if text.length + canon.name.length + 3 + value.length + 1 > cfgTextMax then (text, true)
  else (text ++ settingLine canon.name value ++ [newline], full)

/-- `ubiqos_config_store`. -/
def store (b : Board) (m : Machine) (c : Call) : Machine × Int :=
  match canonOf b c.key with
  | none => (m, -2)
  | some canon =>
    if c.value ≠ [] ∧ canon.parse c.value = none then (m, -3)
    else if !c.memory then (m, -6)
    else
      let (text, full) := newText canon c.value (storedText m.sector)
      if full then (m, -4)
      else
        let img := image text
        let now := writeSector b m.sector (if text ≠ [] then some img else none)
        ({ m with sector := now }, if wroteSame b text now then 0 else -5)

/-- `ubiqos_config_read`: the flash, then the card's two files where there is a card. -/
def configRead (s : Sector) (card : Option Card) (settings : Settings) : Settings :=
  let settings :=
    match storedText s with
    | some t => takeText settings [] t
    | none => settings
  let settings := readTheFile settings (card.bind Card.config)
  readTheFile settings (card.bind Card.wifi)

def run (b : Board) (m : Machine) : List Call → Machine × List (Call × Int)
  | [] => (m, [])
  | c :: rest =>
    let stored := store b m c
    let later := run b stored.1 rest
    (later.1, (c, stored.2) :: later.2)

variable {b : Board}

theorem keepLoop_spec (canon : Key) {left : Nat} {old text : Text} {full : Bool}
    (enough : old.length ≤ left) (room : text.length ≤ cfgTextMax) :
    (keepLoop canon left old (text, full)).1.length ≤ cfgTextMax ∧
      ((keepLoop canon left old (text, full)).2 = false → full = false ∧
        (keepLoop canon left old (text, full)).1 =
          text ++ Lines.unlines newline ((Lines.lines newline old).filter (keeps canon))) := by
  induction left generalizing old text full with
  | zero =>
    obtain rfl := List.eq_nil_of_length_eq_zero (Nat.le_zero.mp enough)
    exact ⟨room, fun kept => ⟨kept, (List.append_nil text).symm⟩⟩
  | succ left ih =>
    rw [keepLoop]
    by_cases none : old = []
    · subst none
      exact ⟨room, fun kept => ⟨kept, (List.append_nil text).symm⟩⟩
    · have shorter : ((old.dropWhile fun c => c ≠ newline).drop 1).length ≤ left := by
        have most := (List.dropWhile_suffix (l := old) fun c => decide (c ≠ newline)).length_le
        rw [List.length_drop]
        omega
      rw [if_neg none, Lines.lines_first none]
      dsimp only
      split
      · next keep =>
          rw [List.filter_cons_of_pos keep, Lines.unlines, List.flatMap_cons]
          split
          · obtain ⟨small, kept⟩ := ih shorter room
            exact ⟨small, fun excess => Bool.noConfusion (kept excess).1⟩
          · next fits =>
              have longer : (text ++ old.takeWhile (fun c => c ≠ newline) ++ [newline]).length ≤
                  cfgTextMax := by
                rw [List.length_append, List.length_append, List.length_singleton]
                omega
              obtain ⟨small, kept⟩ := ih shorter longer
              refine ⟨small, fun excess => ⟨(kept excess).1, (kept excess).2.trans ?_⟩⟩
              rw [List.append_assoc text, List.append_assoc text]
              rfl
      · next drop =>
          rw [List.filter_cons_of_neg drop]
          exact ih shorter room

def newLines (canon : Key) (value : Text) (old : Text) : List Text :=
  (Lines.lines newline old).filter (keeps canon) ++
    if value = [] then [] else [settingLine canon.name value]

theorem newText_spec (canon : Key) (value : Text) (old : Option Text) :
    (newText canon value old).1.length ≤ cfgTextMax ∧
      ((newText canon value old).2 = false →
        (newText canon value old).1 = Lines.unlines newline (newLines canon value (old.getD []))) := by
  obtain ⟨small, kept⟩ := @keepLoop_spec canon _ (old.getD []) [] false le_rfl (Nat.zero_le _)
  rw [newText, newLines]
  generalize keepLoop canon (old.getD []).length (old.getD []) ([], false) = found at small kept
  obtain ⟨text, full⟩ := found
  dsimp only at small kept ⊢
  split
  · exact ⟨small, fun excess => by rw [List.append_nil]; exact (kept excess).2⟩
  split
  · exact ⟨small, fun excess => Bool.noConfusion excess⟩
  · next fits =>
      refine ⟨?_, fun excess => ?_⟩
      · simp only [settingLine, List.length_append, List.length_cons, List.length_nil]
        omega
      · rw [(kept excess).2, Lines.unlines, Lines.unlines, List.flatMap_append, List.flatMap_singleton,
          List.nil_append, List.append_assoc]

theorem imageBytes_enough (works : Works b) : headBytes + cfgTextMax ≤ imageBytes b := by
  have page := works.page
  have parted := Nat.div_add_mod (headBytes + cfgTextMax + b.pageSize - 1) b.pageSize
  have rest := Nat.mod_lt (headBytes + cfgTextMax + b.pageSize - 1) page
  rw [imageBytes, Nat.mul_comm]
  omega

variable {s : Sector}

theorem storedText_image {t : Text} (small : t.length ≤ cfgTextMax)
    (same : ∀ i, i < headBytes + cfgTextMax → s i = image t i) : storedText s = some t := by
  have magic : Words.load s 0 = cfgMagic := by
    rw [Words.load_congr fun i _ below => same i (by simp only [headBytes]; omega), image,
      Words.load_store_apart (by omega), Words.load_store_apart (by omega),
      Words.load_store (by decide)]
  have len : Words.load s 4 = t.length := by
    have bound : cfgTextMax < 2 ^ 32 := by decide
    rw [Words.load_congr fun i _ below => same i (by simp only [headBytes]; omega), image,
      Words.load_store_apart (by omega), Words.load_store (by omega)]
  have sum : Words.load s 8 = (fnv1a t).toNat := by
    rw [Words.load_congr fun i _ below => same i (by simp only [headBytes]; omega), image,
      Words.load_store (fnv1a t).isLt]
  have text : ((List.range t.length).map fun i => s (headBytes + i)) = t := by
    apply List.ext_getElem
    · simp
    · intro i _ inside
      rw [List.getElem_map, List.getElem_range, same _ (by omega), image,
        Words.store_outside (Or.inr (by simp only [headBytes]; omega)),
        Words.store_outside (Or.inr (by simp only [headBytes]; omega)),
        Words.store_outside (Or.inr (by simp only [headBytes]; omega))]
      simp [inside]
  rw [storedText]
  simp only [magic, len, sum, text]
  rw [if_neg (by simp [small]), if_neg (by simp)]

def Erased (s : Sector) : Prop := ∀ i, s i = 0xff

theorem Erased.load (erased : Erased s) : Words.load s 0 = 0xffffffff := by
  rw [Words.load, erased, erased, erased, erased]
  rfl

theorem Erased.storedText (erased : Erased s) : storedText s = none := by
  rw [Config.storedText]
  exact if_pos (Or.inl (by rw [erased.load]; decide))

theorem write_spec (works : Works b) (s : Sector) {t : Text} (small : t.length ≤ cfgTextMax) :
    let now := writeSector b s (if t ≠ [] then some (image t) else none)
    wroteSame b t now = true ∧ (storedText now).getD [] = t ∧ (Erased now ∨ (storedText now).isSome) := by
  by_cases none : t = []
  · subst none
    have erased : Erased (b.erase s) := works.erased s
    dsimp only
    rw [if_neg (fun wrong => wrong rfl), writeSector, wroteSame, if_neg (fun wrong => wrong rfl),
      erased.storedText, erased.load]
    exact ⟨rfl, rfl, Or.inl erased⟩
  · have same : ∀ i, i < imageBytes b → b.program (b.erase s) (image t) (imageBytes b) i = image t i :=
      fun i inside => works.programmed _ _ _ i (works.erased s) inside
    have kept := storedText_image small fun i inside =>
      same i (inside.trans_le (imageBytes_enough works))
    dsimp only
    rw [if_pos none, writeSector, wroteSame, if_pos none, kept]
    refine ⟨?_, rfl, Or.inr rfl⟩
    rw [List.all_eq_true]
    exact fun i member => beq_iff_eq.mpr (same i (List.mem_range.mp member))

theorem store_cases (works : Works b) (m : Machine) (c : Call) :
    (store b m c).2 ≠ 0 ∧ (store b m c).1 = m ∨
      ∃ canon s, canonOf b c.key = some canon ∧ (c.value ≠ [] → (canon.parse c.value).isSome) ∧
        store b m c = ({ m with sector := s }, 0) ∧
        (storedText s).getD [] =
          Lines.unlines newline (newLines canon c.value ((storedText m.sector).getD [])) ∧
        (Erased s ∨ (storedText s).isSome) := by
  have refused : ∀ r : Int, r ≠ 0 → (m, r).2 ≠ 0 ∧ (m, r).1 = m := fun r no => ⟨no, rfl⟩
  rw [store]
  split
  · exact Or.inl (refused (-2) (by decide))
  next canon named =>
    split
    · exact Or.inl (refused (-3) (by decide))
    next good =>
      split
      · exact Or.inl (refused (-6) (by decide))
      obtain ⟨small, written⟩ := newText_spec canon c.value (storedText m.sector)
      generalize newText canon c.value (storedText m.sector) = made at small written
      obtain ⟨text, full⟩ := made
      dsimp only at small written ⊢
      cases full with
      | true => exact Or.inl (refused (-4) (by decide))
      | false =>
        have taken : c.value ≠ [] → (canon.parse c.value).isSome := by
          intro some
          rw [Option.isSome_iff_ne_none]
          exact fun none => good ⟨some, none⟩
        obtain ⟨same, kept, sound⟩ := write_spec works m.sector small
        refine Or.inr ⟨canon, _, named, taken, ?_, kept.trans (written rfl), sound⟩
        rw [if_neg Bool.false_ne_true, same]
        rfl

def linesOf (k : Key) (t : Text) : List Text :=
  (Lines.lines newline t).filter fun l => (lineKey l).any fun key => keyIs key k.name

def Valid (b : Board) (s : Sector) : Prop :=
  ∃ t, storedText s = some t ∧ ∀ k ∈ kept b, (linesOf k t).length ≤ 1

def Sound (b : Board) (s : Sector) : Prop := Erased s ∨ Valid b s

theorem sets_iff (k : Key) (l : Text) :
    Sets k l ↔ ((lineKey l).any fun key => keyIs key k.name) = true := by
  rw [Sets]
  cases lineKey l with
  | none => simp
  | some key => simp

theorem keeps_iff (canon : Key) (l : Text) :
    keeps canon l = true ↔ (lineKey l).isSome ∧ ¬ Sets canon l := by
  rw [keeps, sets_iff]
  cases lineKey l with
  | none => simp
  | some key => simp

theorem name_inj {k j : Key} (same : k.name = j.name) : k = j := by
  revert same
  cases k <;> cases j <;> decide

variable {v : Text}

theorem settingLine_sets {canon k : Key} (good : (canon.parse v).isSome) :
    Sets k (settingLine canon.name v) ↔ k = canon := by
  obtain ⟨x, parsed⟩ := Option.isSome_iff_exists.mp good
  have more : v ≠ [] := by
    rintro rfl
    rw [parse_nil] at parsed
    cases parsed
  have key := settingLine_key canon (parse_plain parsed).1 more
  have own : keyIs canon.name canon.name = true := by cases canon <;> decide
  constructor
  · rintro ⟨found, same, named⟩
    obtain rfl := Option.some.inj (key.symm.trans same)
    by_contra ne
    rw [keyIs_eq own fun eq => ne (name_inj eq).symm] at named
    cases named
  · rintro rfl
    exact ⟨k.name, key, own⟩

theorem newLines_plain {canon : Key} (good : v ≠ [] → (canon.parse v).isSome) (old : Text) :
    ∀ l ∈ newLines canon v old, newline ∉ l := by
  intro l member
  rcases List.mem_append.mp member with kept | new
  · exact Lines.plain_of_mem (List.mem_of_mem_filter kept)
  · split at new
    · cases new
    · next some =>
        obtain ⟨x, parsed⟩ := Option.isSome_iff_exists.mp (good some)
        obtain ⟨plain, short⟩ := parse_plain parsed
        rw [List.mem_singleton.mp new]
        exact (settingLine_clean canon plain short).1

theorem linesOf_new {canon k : Key} (good : v ≠ [] → (canon.parse v).isSome) {old : Text}
    (one : (linesOf k old).length ≤ 1) :
    (linesOf k (Lines.unlines newline (newLines canon v old))).length ≤ 1 := by
  have sets : ∀ l, ((lineKey l).any fun key => keyIs key k.name) = true ↔ Sets k l :=
    fun l => (sets_iff k l).symm
  rw [linesOf, Lines.lines_unlines (newLines_plain good old), newLines, List.filter_append,
    List.length_append, List.filter_filter]
  by_cases same : k = canon
  · subst same
    have none : ((Lines.lines newline old).filter fun l =>
        ((lineKey l).any fun key => keyIs key k.name) && keeps k l) = [] := by
      rw [List.filter_eq_nil_iff]
      intro l _ both
      rw [Bool.and_eq_true, sets, keeps_iff] at both
      exact both.2.2 both.1
    rw [none, List.length_nil, Nat.zero_add]
    refine (List.length_filter_le _ _).trans ?_
    split <;> simp
  · have fewer : ((Lines.lines newline old).filter fun l =>
        ((lineKey l).any fun key => keyIs key k.name) && keeps canon l).length ≤ 1 := by
      refine le_trans ?_ one
      rw [linesOf, ← List.countP_eq_length_filter, ← List.countP_eq_length_filter]
      exact List.countP_mono_left fun l _ both => (Bool.and_eq_true _ _ ▸ both).1
    have other : (List.filter (fun l => (lineKey l).any fun key => keyIs key k.name)
        (if v = [] then [] else [settingLine canon.name v])) = [] := by
      split
      · rfl
      · next some =>
          rw [List.filter_eq_nil_iff]
          intro l member named
          rw [List.mem_singleton.mp member, sets, settingLine_sets (good some)] at named
          exact same named
    rw [other, List.length_nil, Nat.add_zero]
    exact fewer

theorem configRead_lines (s : Sector) (d : Settings) :
    configRead s none d = (Lines.lines newline ((storedText s).getD [])).foldl takeCut d := by
  rw [configRead]
  cases storedText s with
  | none => rfl
  | some t => exact takeText_lines d t

theorem read_new {canon : Key} (good : v ≠ [] → (canon.parse v).isSome) (old : Text)
    (d : Settings) (k : Key) :
    let read := (newLines canon v old).foldl takeCut d
    (k ≠ canon → k.get read = k.get ((Lines.lines newline old).foldl takeCut d)) ∧
      (k = canon → if v = [] then k.get read = k.get d else k.parse v = some (k.get read)) := by
  dsimp only
  rw [newLines, List.foldl_append]
  constructor
  · intro other
    have last : ∀ s, k.get ((if v = [] then [] else [settingLine canon.name v]).foldl takeCut s) =
        k.get s := by
      intro s
      split
      · rfl
      · next some => exact takeCut_idle (fun sets => other ((settingLine_sets (good some)).mp sets)) s
    rw [last]
    refine Lines.fold_filter (takeCut_apart k) (keeps canon) (fun l _ dropped s => ?_) d
    refine takeCut_idle (fun sets => ?_) s
    rw [← Bool.not_eq_true, keeps_iff, not_and_not_right] at dropped
    obtain ⟨key, found, named⟩ := sets
    obtain ⟨key', found', named'⟩ := dropped (by rw [found]; rfl)
    obtain rfl := Option.some.inj (found.symm.trans found')
    by_contra _
    rw [keyIs_eq named fun eq => other (name_inj eq)] at named'
    cases named'
  · rintro rfl
    split
    · exact Lines.fold_idle (fun l member s =>
        takeCut_idle ((keeps_iff k l).mp (List.of_mem_filter member)).2 s) d
    · next some =>
        obtain ⟨x, parsed⟩ := Option.isSome_iff_exists.mp (good some)
        rw [List.foldl_cons, List.foldl_nil, takeCut_settingLine parsed, parsed]

def lastStored (b : Board) (k : Key) (last : Option Text) (history : List (Call × Int)) : Option Text :=
  history.foldl (fun last h => if h.2 = 0 ∧ canonOf b h.1.key = some k then some h.1.value else last) last

/-- What is read for the key: as `before` has it, the default, or the value. -/
def ReadsBack (k : Key) (d : Settings) (before : Value) (s : Sector) : Option Text → Prop
  | none => k.get (configRead s none d) = before
  | some v =>
    if v = [] then k.get (configRead s none d) = k.get d
    else k.parse v = some (k.get (configRead s none d))

theorem store_sound (works : Works b) {m : Machine} (sound : Sound b m.sector) (c : Call) :
    Sound b (store b m c).1.sector ∧ (store b m c).1.settings = m.settings := by
  rcases store_cases works m c with ⟨-, same⟩ | ⟨canon, s, -, good, stored, text, matched⟩
  · rw [same]
    exact ⟨sound, rfl⟩
  · rw [stored]
    refine ⟨matched.imp_right fun has => ?_, rfl⟩
    obtain ⟨t, found⟩ := Option.isSome_iff_exists.mp has
    rw [found, Option.getD_some] at text
    refine ⟨t, found, fun k member => text ▸ linesOf_new good ?_⟩
    rcases sound with erased | ⟨old, kept, one⟩
    · rw [erased.storedText]
      exact Nat.zero_le 1
    · rw [kept]
      exact one k member

theorem store_reads (works : Works b) (m : Machine) (c : Call) {k : Key} {d : Settings}
    {before : Value} {last : Option Text} (reads : ReadsBack k d before m.sector last) :
    ReadsBack k d before (store b m c).1.sector
      (if (store b m c).2 = 0 ∧ canonOf b c.key = some k then some c.value else last) := by
  rcases store_cases works m c with ⟨refused, same⟩ | ⟨canon, s, named, good, stored, text, -⟩
  · rw [same, if_neg fun both => refused both.1]
    exact reads
  · obtain ⟨others, own⟩ := read_new good ((storedText m.sector).getD []) d k
    rw [← Lines.lines_unlines (newLines_plain good _), ← text, ← configRead_lines] at others own
    rw [stored, named]
    by_cases mine : k = canon
    · rw [if_pos ⟨rfl, congrArg some mine.symm⟩, ReadsBack]
      exact own mine
    · rw [if_neg fun both => mine (Option.some.inj both.2).symm]
      rw [← configRead_lines] at others
      cases last with
      | none => exact (others mine).trans reads
      | some v =>
        rw [ReadsBack] at reads ⊢
        rw [others mine]
        exact reads

/-- Any sequence of calls on flash that starts erased or valid: the flash stays so, no setting
changes until it is read, and then each key has the value of its last accepted call, or its default
if that was to forget it, or what it would have had at the start if there was none. A refused call
changes nothing. -/
theorem settings_kept (works : Works b) (m : Machine) (sound : Sound b m.sector) (calls : List Call) :
    Sound b (run b m calls).1.sector ∧ (run b m calls).1.settings = m.settings ∧
      (∀ k d, ReadsBack k d (k.get (configRead m.sector none d)) (run b m calls).1.sector
        (lastStored b k none (run b m calls).2)) ∧
      (Erased m.sector → ∀ d, configRead m.sector none d = d) ∧
      ∀ m c, (store b m c).2 ≠ 0 → (store b m c).1 = m := by
  -- Two inductions over the calls: the sector stays sound, and reads back what was stored last.
  have steps : Sound b (run b m calls).1.sector ∧ (run b m calls).1.settings = m.settings := by
    induction calls generalizing m with
    | nil => exact ⟨sound, rfl⟩
    | cons c rest ih =>
      obtain ⟨stays, same⟩ := store_sound works sound c
      obtain ⟨later, still⟩ := ih _ stays
      exact ⟨later, still.trans same⟩
  have reads : ∀ k d before last, ReadsBack k d before m.sector last →
      ReadsBack k d before (run b m calls).1.sector (lastStored b k last (run b m calls).2) := by
    intro k d before last reads
    clear steps sound
    induction calls generalizing m last with
    | nil => exact reads
    | cons c rest ih => exact ih _ _ (store_reads works m c reads)
  refine ⟨steps.1, steps.2, fun k d => reads k d _ none rfl, fun erased d => ?_, fun m c refused => ?_⟩
  · rw [configRead_lines, erased.storedText]
    rfl
  · rcases store_cases works m c with ⟨-, same⟩ | ⟨_, s, -, -, stored, -, -⟩
    · exact same
    · rw [stored] at refused
      exact absurd rfl refused

def plainBoard : Board where
  erase := fun _ _ => 0xff
  program := fun s data n i => if i < n then s i &&& data i else s i
  pageSize := 256
  hasUsbNetwork := true

theorem plainBoard_works : Works plainBoard where
  erased := fun _ _ => rfl
  programmed := by
    intro s data n i ones inside
    change (if i < n then s i &&& data i else s i) = data i
    rw [if_pos inside, ones]
    exact BitVec.allOnes_and
  page := by decide

def defaults : Settings where
  host := ascii ['u', 'b', 'i', 'q', 'o', 's']
  ssid := []
  pass := []
  usbAddress := 0xc0a80701
  offset := 0

def erasedMachine : Machine := ⟨fun _ => 0xff, defaults⟩

/-- `timezone` in capitals is kept at +2, and a key that is not kept is refused. -/
def twoCalls : List Call :=
  [⟨ascii ['T', 'I', 'M', 'E', 'Z', 'O', 'N', 'E'], ascii ['+', '2'], true⟩,
    ⟨ssidKey, ascii ['x'], true⟩]

theorem ReadsBack.value {k : Key} {d : Settings} {before x : Value} {last : Option Text}
     (reads : ReadsBack k d before s last) (stored : last = some v) (parsed : k.parse v = some x) :
    k.get (configRead s none d) = x := by
  subst stored
  have more : v ≠ [] := by
    rintro rfl
    rw [parse_nil] at parsed
    cases parsed
  rw [ReadsBack, if_neg more, parsed] at reads
  exact (Option.some.inj reads).symm

theorem settings_kept_two :
    Key.timezone.get (configRead (run plainBoard erasedMachine twoCalls).1.sector none defaults) =
      .minutes 120 := by
  have reads : ∀ m calls, Sound plainBoard m.sector →
      lastStored plainBoard .timezone none (run plainBoard m calls).2 = some (ascii ['+', '2']) →
      Key.timezone.get (configRead (run plainBoard m calls).1.sector none defaults) = .minutes 120 :=
    fun m calls sound stored =>
      ReadsBack.value ((settings_kept plainBoard_works m sound calls).2.2.1 .timezone defaults) stored
        (by decide)
  exact reads erasedMachine twoCalls (Or.inl fun _ => rfl) (by decide +kernel)

end Ubiqos.Config
