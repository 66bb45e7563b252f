import Ubiqos.Tmpfs.Refines

/-!
Writes of any offset and length. Rounding up, doubling and the end of the write are
words, and the file is made before the memory is asked for: where that matters, a
write does not end, reaches outside its block, or is refused and leaves an empty file.
-/

namespace Ubiqos.Tmpfs

open Function

section File
variable {f : File} {pool : Pool} {offset want need turns cap wide : Nat} {buf : List Byte}

def Whole (cap : Nat) : Prop := grow ∣ cap ∧ cap < 2 ^ 32

theorem Whole.least (whole : Whole cap) : cap ≤ 2 ^ 32 - grow := by
  obtain ⟨⟨n, rfl⟩, small⟩ := whole
  simp only [grow] at small ⊢
  omega

theorem rounded_word (small : want < 2 ^ 32) : Whole (rounded want) ∧
    (want ≤ 2 ^ 32 - grow ∧ want ≤ rounded want ∨ 2 ^ 32 - grow < want ∧ rounded want = 0) := by
  simp only [Whole, rounded, grow]
  refine ⟨⟨⟨_, Nat.mul_comm _ _⟩, by omega⟩, by omega⟩

theorem doubled_whole (start : Whole cap) (doubles : doubled need turns cap = some wide) :
    Whole wide ∧ need ≤ wide := by
  induction turns generalizing cap with
  | zero =>
    rw [doubled] at doubles
    split at doubles
    · cases doubles
    · cases doubles
      exact ⟨start, by omega⟩
  | succ turns ih =>
    rw [doubled] at doubles
    split at doubles
    · refine ih ⟨?_, Nat.mod_lt _ (by decide)⟩ doubles
      obtain ⟨n, rfl⟩ := start.1
      simp only [grow]
      omega
    · cases doubles
      exact ⟨start, by omega⟩

theorem doubled_some (word : cap < 2 ^ 32) : doubled need turns cap = some wide ↔
    ∃ n ≤ turns, wide = cap * 2 ^ n % 2 ^ 32 ∧ need ≤ wide ∧ ∀ m < n, cap * 2 ^ m % 2 ^ 32 < need := by
  have still : cap * 2 ^ 0 % 2 ^ 32 = cap := by omega
  induction turns generalizing cap with
  | zero =>
    rw [doubled]
    constructor
    · intro ends
      split at ends
      · cases ends
      · cases ends
        exact ⟨0, Nat.le_refl _, still.symm, by omega, by omega⟩
    · rintro ⟨n, none, rfl, enough, _⟩
      obtain rfl : n = 0 := by omega
      rw [if_neg (by omega), still]
  | succ turns ih =>
    have later : ∀ n, cap * 2 % 2 ^ 32 * 2 ^ n % 2 ^ 32 = cap * 2 ^ (n + 1) % 2 ^ 32 := by
      intro n
      rw [Nat.mod_mul_mod, Nat.mul_assoc, ← Nat.pow_succ']
    rw [doubled]
    by_cases less : cap < need
    · rw [if_pos less]
      refine (ih (Nat.mod_lt _ (by decide)) (by omega)).trans ?_
      simp only [later]
      constructor
      · rintro ⟨n, few, same, enough, before⟩
        refine ⟨n + 1, by omega, same, enough, ?_⟩
        intro m early
        cases m with
        | zero => omega
        | succ m => exact before m (by omega)
      · rintro ⟨n, few, same, enough, before⟩
        cases n with
        | zero => omega
        | succ n => exact ⟨n, by omega, same, enough, fun m early => before (m + 1) (by omega)⟩
    · rw [if_neg less]
      constructor
      · intro ends
        cases ends
        exact ⟨0, Nat.zero_le _, still.symm, by omega, by omega⟩
      · rintro ⟨n, few, rfl, enough, before⟩
        cases n with
        | zero => rw [still]
        | succ n => exact absurd (before 0 (by omega)) (by omega)

def File.start (f : File) : Nat := if f.cap = 0 then grow else f.cap

theorem start_whole (whole : Whole f.cap) : Whole f.start ∧ f.cap ≤ f.start := by
  simp only [File.start]
  split
  · rename_i none
    exact ⟨⟨Nat.dvd_refl _, by decide⟩, by omega⟩
  · exact ⟨whole, Nat.le_refl _⟩

def Gives (pool : Pool) (need wide : Nat) : Prop :=
  (pool wide).isSome = true ∨ need < wide ∧ (pool need).isSome = true

theorem allocate_gives : (allocate pool need wide).isSome = true ↔ Gives pool need wide := by
  simp only [allocate, Gives]
  cases given : pool wide with
  | some bytes => simp
  | none =>
    by_cases more : need < wide
    · simp [more]
    · simp [more]

variable {bytes : Nat → Byte}

theorem allocate_asked (given : allocate pool need wide = some (cap, bytes)) :
    cap = wide ∨ cap = need := by
  simp only [allocate] at given
  split at given
  · cases given
    exact .inl rfl
  · split at given
    · obtain ⟨_, _, same⟩ := Option.map_eq_some_iff.mp given
      cases same
      exact .inr rfl
    · cases given

def File.grown (f : File) (cap : Nat) (bytes : Nat → Byte) : File :=
  { f with data := Block.filled ⟨cap, bytes⟩ 0 f.size f.data.byte, cap := cap }

theorem reserve_given (fit : Fit f) (more : f.cap < want)
    (doubles : doubled (rounded want) 32 f.start = some wide)
    (given : allocate pool (rounded want) wide = some (cap, bytes)) :
    reserve pool f want = if 0 < f.size ∧ cap < f.size then none else some (true, f.grown cap bytes) := by
  have block := fit.block
  rw [File.start] at doubles
  simp only [reserve, if_neg (Nat.not_le.mpr more), doubles, given, Block.fill,
    if_neg (show ¬ f.data.len < f.size by omega), File.grown]
  split <;> rfl

def File.written (f : File) (offset : Nat) (buf : List Byte) : File :=
  { f with
    data := (f.data.filled f.size offset (fun _ => 0)).filled offset (offset + buf.length)
      (fun i => buf.getD (i - offset) 0)
    size := if f.size < (offset + buf.length) % 2 ^ 32 then (offset + buf.length) % 2 ^ 32
      else f.size }

theorem writeFile_eq : writeFile f offset buf =
    if f.size < offset ∧ f.data.len < offset ∨ 0 < buf.length ∧ f.data.len < offset + buf.length then none
    else some (f.written offset buf) := by
  simp only [writeFile, Block.fill]
  by_cases gap : f.size < offset ∧ f.data.len < offset
  · simp [gap]
  · rw [if_neg gap]
    by_cases past : 0 < buf.length ∧ f.data.len < offset + buf.length
    · have reaches : offset < offset + buf.length ∧ f.data.len < offset + buf.length := ⟨by omega, past.2⟩
      simp only [Block.filled, if_pos reaches, if_pos (Or.inr past), Option.map_none]
    · have stays : ¬ (offset < offset + buf.length ∧ f.data.len < offset + buf.length) :=
        fun reaches => past ⟨by omega, reaches.2⟩
      simp only [Block.filled, if_neg stays, gap, past, or_self, if_false, Option.map_some, File.written]

theorem writeFile_inside (block : f.data.len = f.cap) (inside : offset + buf.length ≤ f.cap) :
    writeFile f offset buf = some (f.written offset buf) := by
  rw [writeFile_eq, if_neg (by omega)]

theorem writeFile_outside (block : f.data.len = f.cap) (past : f.cap < offset + buf.length)
    (some : 0 < buf.length ∨ f.size ≤ f.cap) : writeFile f offset buf = none := by
  rw [writeFile_eq, if_pos]
  by_cases empty : buf.length = 0
  · exact .inl ⟨by omega, by omega⟩
  · exact .inr ⟨by omega, by omega⟩

theorem written_bytes {j : Nat} (inside : j < buf.length) :
    (f.written offset buf).data.byte (offset + j) = buf[j] := by
  simp only [File.written, Block.filled]
  rw [if_pos (by omega), Nat.add_sub_cancel_left, List.getD_eq_getElem?_getD,
    List.getElem?_eq_getElem inside, Option.getD_some]

theorem written_fit (fit : Fit f) (inside : offset + buf.length ≤ f.cap) (word : f.cap < 2 ^ 32) :
    Fit (f.written offset buf) := by
  obtain ⟨named, block, fits⟩ := fit
  refine ⟨named, block, ?_⟩
  have whole : (offset + buf.length) % 2 ^ 32 = offset + buf.length := Nat.mod_eq_of_lt (by omega)
  simp only [File.written, whole]
  split <;> omega

end File

section Table
variable {k l : Files} {i : Slot} {pool : Pool} {path : Name} {offset : Nat} {buf : List Byte}

structure Held (k : Files) : Prop where
  sound : Sound k
  whole : ∀ i, (k i).used = true → Whole (k i).cap

def opened (k : Files) (path : Name) : Option (Slot × Files) :=
  ((find k path).map (fun i => (i, k))).or (create k path)

def Stored (k : Files) (path : Name) (offset : Nat) (buf : List Byte) : Prop :=
  ∃ i, find k path = some i ∧ offset + buf.length ≤ (k i).cap ∧
    ∀ j (inside : j < buf.length), (k i).data.byte (offset + j) = buf[j]

def AllOrNothing (k : Files) (path : Name) (offset : Nat) (buf : List Byte) :
    Option (Reply × Files) → Prop
  | none => False
  | some (reply, l) =>
    reply.rc = buf.length ∧ Stored l path offset buf ∨ reply.rc = -1 ∧ lookup l = lookup k

def capOf (k : Files) (path : Name) : Nat := ((find k path).map (fun i => (k i).cap)).getD 0

/-- What is asked of the pool for that much more than a capacity: the first doubling of
the capacity, in words, that comes to whole steps of it. -/
def Asks (cap want wide : Nat) : Prop :=
  ∃ n ≤ 32, wide = (if cap = 0 then grow else cap) * 2 ^ n % 2 ^ 32 ∧ rounded want ≤ wide ∧
    ∀ m < n, (if cap = 0 then grow else cap) * 2 ^ m % 2 ^ 32 < rounded want

/-- No file can be had; or the end of the write is within the file's block; or its
doubling comes to what is needed, and the pool refuses it for a file that was there
already, or gives it for a write that ends a step before the words do. -/
def Manages (pool : Pool) (k : Files) (path : Name) (offset len : Nat) : Prop :=
  (find k path).isSome = true ∨ (create k path).isSome = true →
    offset + len ≤ capOf k path ∧ len < 2 ^ 31 ∨
      capOf k path < (offset + len) % 2 ^ 32 ∧ ∃ wide, Asks (capOf k path) ((offset + len) % 2 ^ 32) wide ∧
        (¬ Gives pool (rounded ((offset + len) % 2 ^ 32)) wide ∧ (find k path).isSome = true ∨
          Gives pool (rounded ((offset + len) % 2 ^ 32)) wide ∧
            offset + len ≤ 2 ^ 32 - grow ∧ len < 2 ^ 31)

theorem opened_spec (held : Held k) (opens : opened k path = some (i, l)) :
    Held l ∧ (l i).used = true ∧ keyOf path = some (l i).name ∧ capOf k path = (l i).cap ∧
      ((find k path).isSome = true ∧ lookup l = lookup k ∨
        (find k path).isSome = false ∧ lookup l ≠ lookup k) := by
  cases found : find k path with
  | some j =>
    simp only [opened, found, Option.map_some, Option.some_or] at opens
    cases opens
    obtain ⟨used, isKey⟩ := find_some held.sound found
    exact ⟨held, used, isKey, by simp [capOf, found], .inl ⟨rfl, rfl⟩⟩
  | none =>
    simp only [opened, found, Option.map_none, Option.none_or, create] at opens
    split at opens
    · cases opens
    · rename_i n isLeaf
      split at opens
      · cases opens
      · rename_i short
        obtain ⟨j, free, same⟩ := Option.map_eq_some_iff.mp opens
        cases same
        have isKey : keyOf path = some n := by simp [keyOf, isLeaf, Nat.lt_of_not_le short]
        have absent := find_none held.sound isKey found
        have fit : Fit ⟨n, .null, 0, 0, true⟩ :=
          ⟨⟨(leaf_spec isLeaf).1, (leaf_spec isLeaf).2, Nat.lt_of_not_le short⟩, rfl, Nat.le_refl 0⟩
        obtain ⟨sound, maps⟩ := lookup_create held.sound (spare_some free) fit rfl absent
        refine ⟨⟨sound, ?_⟩, by simp, by simpa using isKey, by simp [capOf, found], .inr ⟨rfl, ?_⟩⟩
        · intro j' used
          by_cases here : j' = i
          · subst here
            simp only [update_self]
            exact ⟨Nat.dvd_zero _, by decide⟩
          · rw [update_of_ne here] at used ⊢
            exact held.whole j' used
        · intro same
          rw [maps] at same
          have there := congrFun same n
          rw [update_self, absent] at there
          cases there

theorem written_allOrNothing {f : File} (held : Held l) (used : (l i).used = true)
    (isKey : keyOf path = some (l i).name) (fit : Fit f) (whole : Whole f.cap) (used' : f.used = true)
    (name : f.name = (l i).name) (inside : offset + buf.length ≤ f.cap) :
    AllOrNothing k path offset buf
        (some (code (int32 buf.length), update l i (f.written offset buf))) ↔ buf.length < 2 ^ 31 := by
  constructor
  · intro done
    by_contra long
    have least := whole.least
    have answer : int32 buf.length = (buf.length : Int) - 2 ^ 32 := if_neg long
    simp only [AllOrNothing, code, answer, grow] at done least
    omega
  · intro short
    obtain ⟨sound, _⟩ := lookup_rewrite held.sound used (written_fit fit inside whole.2) used' name
    refine .inl ⟨int32_small short, i, ?_, ?_, ?_⟩
    · rw [find_keyOf sound, isKey, Option.bind_some, slotOf_iff sound, update_self]
      exact ⟨used', name⟩
    · rw [update_self]
      exact inside
    · intro j within
      rw [update_self]
      exact written_bytes within

theorem writeAt_eq (pool : Pool) (k : Files) (path : Name) (offset : Nat) (buf : List Byte) :
    writeAt pool k path offset buf =
      match opened k path with
      | none => some (code (-1), k)
      | some (i, l) =>
        match reserve pool (l i) ((offset + buf.length) % 2 ^ 32) with
        | none => none
        | some (false, _) => some (code (-1), l)
        | some (true, f) =>
          (writeFile f offset buf).map (fun f => (code (int32 buf.length), update l i f)) := rfl

theorem grown_allOrNothing {cap wide : Nat} {bytes : Nat → Byte} (held : Held l)
    (opens : opened k path = some (i, l)) (used : (l i).used = true)
    (isKey : keyOf path = some (l i).name)
    (more : (l i).cap < (offset + buf.length) % 2 ^ 32)
    (doubles : doubled (rounded ((offset + buf.length) % 2 ^ 32)) 32 (l i).start = some wide)
    (given : allocate pool (rounded ((offset + buf.length) % 2 ^ 32)) wide = some (cap, bytes)) :
    AllOrNothing k path offset buf (writeAt pool k path offset buf) ↔
      offset + buf.length ≤ 2 ^ 32 - grow ∧ buf.length < 2 ^ 31 := by
  have fit := held.sound.fit used
  obtain ⟨start, _⟩ := start_whole (held.whole i used)
  obtain ⟨wideWhole, reach⟩ := doubled_whole start doubles
  obtain ⟨needWhole, up⟩ := rounded_word (Nat.mod_lt (offset + buf.length) (show 0 < 2 ^ 32 by decide))
  have capWhole : Whole cap := by
    rcases allocate_asked given with rfl | rfl
    · exact wideWhole
    · exact needWhole
  have enough : rounded ((offset + buf.length) % 2 ^ 32) ≤ cap := by
    rcases allocate_asked given with rfl | rfl
    · exact reach
    · exact Nat.le_refl _
  rw [writeAt_eq, opens]
  simp only [reserve_given fit more doubles given]
  by_cases ends : offset + buf.length ≤ 2 ^ 32 - grow
  · have whole : (offset + buf.length) % 2 ^ 32 = offset + buf.length :=
      Nat.mod_eq_of_lt (by simp only [grow] at ends; omega)
    rw [whole] at up enough more
    have room : offset + buf.length ≤ cap := by omega
    have copied : ¬ (0 < (l i).size ∧ cap < (l i).size) := by
      have := fit.block
      omega
    have larger : Fit ((l i).grown cap bytes) :=
      ⟨fit.named, rfl, by have := fit.block; simp only [File.grown]; omega⟩
    rw [if_neg copied]
    simp only [writeFile_inside larger.block.1 room, Option.map_some, ends, true_and]
    exact written_allOrNothing held used isKey larger capWhole used rfl room
  · refine iff_of_false ?_ (fun both => ends both.1)
    have least := capWhole.least
    by_cases copied : 0 < (l i).size ∧ cap < (l i).size
    · rw [if_pos copied]
      exact id
    · have past : ((l i).grown cap bytes).cap < offset + buf.length := by
        simp only [File.grown]
        omega
      have fits : ((l i).grown cap bytes).size ≤ ((l i).grown cap bytes).cap := by
        simp only [File.grown]
        omega
      rw [if_neg copied]
      simp only [writeFile_outside rfl past (.inr fits), Option.map_none]
      exact id

theorem opened_isSome : (opened k path).isSome = true ↔
    (find k path).isSome = true ∨ (create k path).isSome = true := by
  simp [opened]

theorem writeAt_held (held : Held k) (length : buf.length < 2 ^ 32) :
    AllOrNothing k path offset buf (writeAt pool k path offset buf) ↔
      Manages pool k path offset buf.length := by
  rw [Manages, ← opened_isSome]
  cases opens : opened k path with
  | none =>
    rw [writeAt_eq, opens]
    exact iff_of_true (.inr ⟨rfl, rfl⟩) (fun had => by cases had)
  | some target =>
    obtain ⟨i, l⟩ := target
    obtain ⟨held', used, isKey, cap, was⟩ := opened_spec held opens
    have fit := held'.sound.fit used
    have whole := held'.whole i used
    have start : ∀ wide, Asks (l i).cap ((offset + buf.length) % 2 ^ 32) wide ↔
        doubled (rounded ((offset + buf.length) % 2 ^ 32)) 32 (l i).start = some wide :=
      fun wide => (doubled_some (start_whole whole).1.2).symm
    simp only [cap, Option.isSome_some, forall_const, start]
    by_cases roomy : (offset + buf.length) % 2 ^ 32 ≤ (l i).cap
    · -- The block is thought large enough, which the sum may only seem to show.
      have stays : ¬ (l i).cap < (offset + buf.length) % 2 ^ 32 := by omega
      rw [writeAt_eq, opens]
      simp only [reserve, if_pos roomy, stays, false_and, or_false]
      by_cases inside : offset + buf.length ≤ (l i).cap
      · simp only [writeFile_inside fit.block.1 inside, Option.map_some, inside, true_and]
        exact written_allOrNothing held' used isKey fit whole used rfl inside
      · have room := fit.block.2
        have past : (l i).cap < offset + buf.length := Nat.lt_of_not_le inside
        simp only [writeFile_outside fit.block.1 past (.inr (fit.block.1 ▸ room)), Option.map_none,
          inside, false_and]
        exact Iff.rfl
    · have more : (l i).cap < (offset + buf.length) % 2 ^ 32 := by omega
      have outside : ¬ offset + buf.length ≤ (l i).cap := by
        have := Nat.mod_le (offset + buf.length) (2 ^ 32)
        omega
      simp only [outside, false_and, more, true_and, false_or]
      cases doubles : doubled (rounded ((offset + buf.length) % 2 ^ 32)) 32 (l i).start with
      | none =>
        rw [writeAt_eq, opens]
        rw [File.start] at doubles
        simp only [reserve, if_neg roomy, doubles, reduceCtorEq, false_and, exists_false]
        exact Iff.rfl
      | some wide =>
        simp only [Option.some.injEq, exists_eq_left', ← allocate_gives]
        cases given : allocate pool (rounded ((offset + buf.length) % 2 ^ 32)) wide with
        | some block =>
          rw [grown_allOrNothing held' opens used isKey more doubles given]
          simp
        | none =>
          rw [writeAt_eq, opens]
          rw [File.start] at doubles
          simp only [reserve, if_neg roomy, doubles, given, AllOrNothing, code]
          rcases was with ⟨there, same⟩ | ⟨absent, differs⟩
          · simp [there, same]
          · have unlike : (-1 : Int) ≠ buf.length := by omega
            simp [absent, differs, unlike]

theorem Held.update {f : File} (held : Held k) (sound : Sound (update k i f))
    (whole : f.used = true → Whole f.cap) : Held (update k i f) := by
  refine ⟨sound, ?_⟩
  intro j used
  by_cases here : j = i
  · subst here
    rw [update_self] at used ⊢
    exact whole used
  · rw [update_of_ne here] at used ⊢
    exact held.whole j used

theorem remove_held (held : Held k) (path : Name) : Held (remove k path).2 := by
  have sound := (remove_spec held.sound path).1
  rw [remove] at sound ⊢
  split at sound
  · exact held
  · exact held.update sound (fun used => by cases used)

theorem rename_held (held : Held k) (source dest : Name) : Held (rename k source dest).2 := by
  refine ⟨(rename_spec held.sound source dest).1, ?_⟩
  have cleared := (remove_held held dest).whole
  cases found : find k source with
  | none =>
    simp only [rename, found]
    exact held.whole
  | some i =>
    cases isLeaf : leaf dest with
    | none =>
      simp only [rename, found, isLeaf]
      exact held.whole
    | some n =>
      simp only [rename, found, isLeaf]
      split
      · exact held.whole
      · split
        · exact held.whole
        · -- The file keeps its block under the new name, whether one made way or not.
          intro j used
          have before : ∀ l : Files, (∀ j, (l j).used = true → Whole (l j).cap) →
              ((Function.update l i { l i with name := n }) j).used = true →
              Whole ((Function.update l i { l i with name := n }) j).cap := by
            intro l whole used
            by_cases here : j = i
            · subst here
              rw [update_self] at used ⊢
              exact whole j used
            · rw [update_of_ne here] at used ⊢
              exact whole j used
          split at used
          · rename_i made
            rw [if_pos made]
            exact before _ cleared used
          · rename_i made
            rw [if_neg made]
            exact before _ held.whole used

theorem reserve_held {f g : File} {want : Nat} {given : Bool} (fit : Fit f) (whole : Whole f.cap)
    (reserves : reserve pool f want = some (given, g)) :
    Fit g ∧ Whole g.cap ∧ g.used = f.used ∧ g.name = f.name := by
  by_cases roomy : want ≤ f.cap
  · rw [reserve, if_pos roomy] at reserves
    cases reserves
    exact ⟨fit, whole, rfl, rfl⟩
  · have more : f.cap < want := by omega
    cases doubles : doubled (rounded want) 32 f.start with
    | none =>
      rw [File.start] at doubles
      simp only [reserve, if_neg roomy, doubles, reduceCtorEq] at reserves
    | some wide =>
      cases asked : allocate pool (rounded want) wide with
      | none =>
        rw [File.start] at doubles
        simp only [reserve, if_neg roomy, doubles, asked, Option.some.injEq, Prod.mk.injEq] at reserves
        obtain ⟨_, rfl⟩ := reserves
        exact ⟨fit, whole, rfl, rfl⟩
      | some block =>
        rw [reserve_given fit more doubles asked] at reserves
        split at reserves
        · cases reserves
        · rename_i copied
          cases reserves
          have capWhole : Whole block.1 := by
            have steps : rounded want % grow = 0 := by simp [rounded, grow]
            rcases allocate_asked asked with same | same
            · rw [same]
              exact (doubled_whole (start_whole whole).1 doubles).1
            · rw [same]
              refine ⟨Nat.dvd_of_mod_eq_zero steps, ?_⟩
              simp only [rounded, grow]
              omega
          refine ⟨⟨fit.named, rfl, ?_⟩, capWhole, rfl, rfl⟩
          simp only [File.grown]
          omega

theorem writeFile_within {f g : File} (fit : Fit f) (writes : writeFile f offset buf = some g) :
    offset + buf.length ≤ f.cap ∧ g = f.written offset buf := by
  obtain ⟨block, size⟩ := fit.block
  rw [writeFile_eq] at writes
  split at writes
  · cases writes
  · cases writes
    exact ⟨by omega, rfl⟩

theorem writeAt_keeps {reply : Reply} (held : Held k)
    (done : writeAt pool k path offset buf = some (reply, l)) : Held l := by
  rw [writeAt_eq] at done
  cases opens : opened k path with
  | none =>
    simp only [opens] at done
    cases done
    exact held
  | some target =>
    obtain ⟨i, l'⟩ := target
    obtain ⟨held', used, _⟩ := opened_spec held opens
    simp only [opens] at done
    split at done
    · cases done
    · cases done
      exact held'
    · rename_i f reserves
      obtain ⟨g, writes, same⟩ := Option.map_eq_some_iff.mp done
      cases same
      obtain ⟨fit, whole, used', name⟩ := reserve_held (held'.sound.fit used) (held'.whole i used) reserves
      obtain ⟨inside, rfl⟩ := writeFile_within fit writes
      have sound := (lookup_rewrite held'.sound used (written_fit fit inside whole.2) (used'.trans used) name).1
      exact held'.update sound (fun _ => whole)

theorem call_held {op : Op} {reply : Reply} (held : Held k) (done : call k op = some (reply, l)) :
    Held l := by
  cases op with
  | read path offset len =>
    rw [call, readAt_spec held.sound] at done
    cases done
    exact held
  | write pool path offset buf => exact writeAt_keeps held done
  | remove path =>
    cases done
    exact remove_held held path
  | rename source dest =>
    cases done
    exact rename_held held source dest
  | stat path =>
    cases done
    exact held
  | statNth dirpath index =>
    cases done
    exact held

theorem run_held {ops : List Op} {replies : List Reply} (held : Held k)
    (done : run k ops = some (replies, l)) : Held l := by
  induction ops generalizing k replies with
  | nil =>
    cases done
    exact held
  | cons op rest ih =>
    rw [run] at done
    cases first : call k op with
    | none =>
      rw [first] at done
      cases done
    | some ended =>
      rw [first] at done
      obtain ⟨later, ran, same⟩ := Option.map_eq_some_iff.mp done
      cases same
      exact ih (call_held held first) ran

theorem emptied_held : Held emptied := ⟨emptied_sound, fun _ used => by cases used⟩

/-- Exactly then, in every table that calls of any kind have come to, for every pool,
path, offset and length of thirty-two bits. -/
theorem writeAt_allOrNothing {ops : List Op} {replies : List Reply}
    (reached : run emptied ops = some (replies, k)) (length : buf.length < 2 ^ 32) :
    AllOrNothing k path offset buf (writeAt pool k path offset buf) ↔
      Manages pool k path offset buf.length :=
  writeAt_held (run_held emptied_held reached) length

/-- A file of a kilobyte is written past its end with no memory left. -/
theorem writeAt_allOrNothing_full :
    ∃ replies k, run emptied [.write (fun _ => some (fun _ => 0xff)) [slash, 0x61] 2 [1, 2]] =
        some (replies, k) ∧
      (AllOrNothing k [slash, 0x61] 1024 [7] (writeAt (fun _ => none) k [slash, 0x61] 1024 [7]) ↔
        Manages (fun _ => none) k [slash, 0x61] 1024 1) := by
  have ends : (run emptied [.write (fun _ => some (fun _ => 0xff)) [slash, 0x61] 2 [1, 2]]).isSome =
      true := by decide +kernel
  obtain ⟨⟨replies, k⟩, reached⟩ := Option.isSome_iff_exists.mp ends
  exact ⟨replies, k, reached, writeAt_allOrNothing reached (by decide)⟩

/-- Refused the memory, a new file is left behind with nothing in it; a byte at two
gigabytes doubles without end; and an end past the words is taken for one near zero. -/
theorem write_not_allOrNothing :
    ¬ AllOrNothing emptied [slash, 0x61] 0 [1] (writeAt (fun _ => none) emptied [slash, 0x61] 0 [1]) ∧
    (doubled (rounded (2 ^ 31 + 1)) 32 grow = none ∧
      ¬ AllOrNothing emptied [slash, 0x61] (2 ^ 31) [1]
        (writeAt (fun _ => some (fun _ => 0)) emptied [slash, 0x61] (2 ^ 31) [1])) ∧
    ¬ AllOrNothing emptied [slash, 0x61] (2 ^ 32 - 1) [1, 2]
      (writeAt (fun _ => some (fun _ => 0)) emptied [slash, 0x61] (2 ^ 32 - 1) [1, 2]) := by
  have astray : ∀ ended, ended = none → ¬ AllOrNothing emptied [slash, 0x61] (2 ^ 31) [1] ended := by
    rintro _ rfl
    exact id
  have past : ∀ ended, ended = none →
      ¬ AllOrNothing emptied [slash, 0x61] (2 ^ 32 - 1) [1, 2] ended := by
    rintro _ rfl
    exact id
  refine ⟨?_, ⟨by decide +kernel, astray _ ?_⟩, past _ ?_⟩
  · have left : (writeAt (fun _ => none) emptied [slash, 0x61] 0 [1]).map
        (fun ended => (ended.1.rc, (lookup ended.2 [0x61]).isSome)) = some (-1, true) := by decide +kernel
    obtain ⟨⟨reply, l⟩, same, both⟩ := Option.map_eq_some_iff.mp left
    rw [same]
    simp only [Prod.mk.injEq] at both
    rintro (⟨all, _⟩ | ⟨_, nothing⟩)
    · rw [both.1] at all
      cases all
    · rw [nothing, emptied_lookup] at both
      cases both.2
  · exact Option.isNone_iff_eq_none.mp (by decide +kernel)
  · exact Option.isNone_iff_eq_none.mp (by decide +kernel)

end Table

end Ubiqos.Tmpfs
