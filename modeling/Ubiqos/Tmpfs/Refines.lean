import Ubiqos.Tmpfs.Files
import Mathlib.Data.Set.Finite.Range

/-!
The calls on the slots against those on the map. A slot is all that a call
changes, so what one slot's change does to the map is said once.
-/

namespace Ubiqos.Tmpfs

open Function

section Growing
variable {f : File} {offset : Nat} {buf : List Byte}

theorem fill_within {b : Block} {first last : Nat} {g : Nat → Byte}
    (within : last ≤ first ∨ last ≤ b.len) : b.fill first last g = some (b.filled first last g) := by
  rw [Block.fill, if_neg (by omega)]

theorem doubled_reaches {need turns cap : Nat} (small : need ≤ 2 ^ 31)
    (reach : need ≤ cap * 2 ^ turns) : ∃ last, doubled need turns cap = some last ∧ need ≤ last := by
  induction turns generalizing cap with
  | zero => exact ⟨cap, by rw [doubled, if_neg (by omega)], by omega⟩
  | succ turns ih =>
    rw [doubled]
    split
    · rename_i less
      have whole : cap * 2 % 2 ^ 32 = cap * 2 := Nat.mod_eq_of_lt (by omega)
      rw [whole]
      apply ih
      rwa [Nat.mul_assoc, ← Nat.pow_succ']
    · exact ⟨cap, rfl, by omega⟩

theorem rounded_spec {want : Nat} (small : want < 2 ^ 31) :
    want ≤ rounded want ∧ rounded want ≤ 2 ^ 31 := by
  simp only [rounded, grow]
  omega

theorem reserve_spec {pool : Pool} {want : Nat} (block : f.data.len = f.cap) (fits : f.size ≤ f.cap)
    (small : want < 2 ^ 31) (enough : (pool (rounded want)).isSome = true) :
    ∃ g, reserve pool f want = some (true, g) ∧ g.name = f.name ∧ g.used = f.used ∧
      g.size = f.size ∧ g.data.len = g.cap ∧ g.size ≤ g.cap ∧ want ≤ g.cap ∧
      contents g = contents f := by
  by_cases roomy : want ≤ f.cap
  · exact ⟨f, by simp [reserve, roomy], rfl, rfl, rfl, block, fits, roomy, rfl⟩
  · obtain ⟨least, most⟩ := rounded_spec small
    have start : 0 < (if f.cap = 0 then grow else f.cap) := by
      split
      · decide
      · omega
    obtain ⟨wide, doubles, reach⟩ : ∃ wide,
        doubled (rounded want) 32 (if f.cap = 0 then grow else f.cap) = some wide ∧
          rounded want ≤ wide := by
      apply doubled_reaches most
      omega
    obtain ⟨cap, bytes, given, reaches⟩ : ∃ cap bytes,
        allocate pool (rounded want) wide = some (cap, bytes) ∧ rounded want ≤ cap := by
      obtain ⟨least', given⟩ := Option.isSome_iff_exists.mp enough
      cases whole : pool wide with
      | some bytes => exact ⟨wide, bytes, by simp [allocate, whole], reach⟩
      | none =>
        have less : rounded want < wide := by
          by_contra equal
          obtain rfl : rounded want = wide := by omega
          rw [whole] at given
          cases given
        exact ⟨rounded want, least', by simp [allocate, whole, less, given], Nat.le_refl _⟩
    have within : ¬ f.data.len < f.size := by omega
    have copied : Block.fill ⟨cap, bytes⟩ 0 f.size f.data.byte =
        some (Block.filled ⟨cap, bytes⟩ 0 f.size f.data.byte) := fill_within (.inr (by simp only; omega))
    refine ⟨{ f with data := Block.filled ⟨cap, bytes⟩ 0 f.size f.data.byte, cap := cap }, ?_,
      rfl, rfl, rfl, rfl, ?_, ?_, ?_⟩
    · simp only [reserve, if_neg roomy, doubles, given, if_neg within, copied, Option.map_some]
    · simp only
      omega
    · simp only
      omega
    · simp only [contents]
      apply List.map_congr_left
      intro i inside
      simp only [Block.filled]
      rw [if_pos ⟨Nat.zero_le i, List.mem_range.mp inside⟩]

theorem getD_range {n : Nat} {g : Nat → Byte} (i : Nat) :
    ((List.range n).map g).getD i 0 = if i < n then g i else 0 := by
  by_cases inside : i < n
  · simp [inside]
  · simp [inside]

theorem writeFile_spec (block : f.data.len = f.cap) (fits : f.size ≤ f.cap)
    (room : offset + buf.length ≤ f.cap) (small : offset + buf.length < 2 ^ 31) :
    ∃ g, writeFile f offset buf = some g ∧ g.name = f.name ∧ g.used = f.used ∧
      g.data.len = g.cap ∧ g.size ≤ g.cap ∧ contents g = splice (contents f) offset buf := by
  have gap : f.data.fill f.size offset (fun _ => 0) =
      some (f.data.filled f.size offset (fun _ => 0)) := fill_within (.inr (by omega))
  have written : (f.data.filled f.size offset (fun _ => 0)).fill offset (offset + buf.length)
      (fun i => buf.getD (i - offset) 0) =
      some ((f.data.filled f.size offset (fun _ => 0)).filled offset (offset + buf.length)
        (fun i => buf.getD (i - offset) 0)) := by
    apply fill_within (.inr _)
    simp only [Block.filled]
    omega
  have whole : (offset + buf.length) % 2 ^ 32 = offset + buf.length := Nat.mod_eq_of_lt (by omega)
  have reach : (if f.size < offset + buf.length then offset + buf.length else f.size) =
      max f.size (offset + buf.length) := by
    split <;> omega
  refine ⟨{ f with
    data := (f.data.filled f.size offset (fun _ => 0)).filled offset (offset + buf.length)
      (fun i => buf.getD (i - offset) 0)
    size := max f.size (offset + buf.length) }, ?_, rfl, rfl, block, ?_, ?_⟩
  · simp only [writeFile, gap, written, whole, reach, Option.map_some]
  · simp only
    omega
  · have length : (contents f).length = f.size := by simp [contents]
    simp only [splice, length]
    simp only [contents]
    apply List.map_congr_left
    intro i inside
    have bound := List.mem_range.mp inside
    simp only [Block.filled]
    by_cases written : offset ≤ i ∧ i < offset + buf.length
    · rw [if_pos written, if_pos written]
    · rw [if_neg written, if_neg written, getD_range]
      by_cases old : i < f.size
      · rw [if_pos old, if_neg (by omega)]
      · rw [if_neg old, if_pos (by omega)]

end Growing

section Changing
variable {k : Files} {i : Slot} {f : File}

structure Fit (f : File) : Prop where
  named : f.name ≠ [] ∧ slash ∉ f.name ∧ f.name.length < dirnameMax
  block : f.data.len = f.cap ∧ f.size ≤ f.cap

theorem Sound.fit (sound : Sound k) (used : (k i).used = true) : Fit (k i) :=
  ⟨sound.named i used, sound.block i used⟩

theorem Sound.change (sound : Sound k) (fit : f.used = true → Fit f)
    (fresh : f.used = true → ∀ j, j ≠ i → (k j).used = true → (k j).name ≠ f.name) :
    Sound (update k i f) := by
  constructor
  · intro j used
    by_cases here : j = i
    · subst here
      rw [update_self] at used ⊢
      exact (fit used).named
    · rw [update_of_ne here] at used ⊢
      exact sound.named j used
  · intro j l used used' same
    by_cases first : j = i <;> by_cases second : l = i
    · rw [first, second]
    · subst first
      rw [update_self] at used same
      rw [update_of_ne second] at used' same
      exact absurd same.symm (fresh used l second used')
    · subst second
      rw [update_self] at used' same
      rw [update_of_ne first] at used same
      exact absurd same (fresh used' j first used)
    · rw [update_of_ne first] at used same
      rw [update_of_ne second] at used' same
      exact sound.once j l used used' same
  · intro j used
    by_cases here : j = i
    · subst here
      rw [update_self] at used ⊢
      exact (fit used).block
    · rw [update_of_ne here] at used ⊢
      exact sound.block j used

theorem lookup_change (sound : Sound k) (sound' : Sound (update k i f)) (n : Name) :
    lookup (update k i f) n =
      if f.used = true ∧ f.name = n then some (contents f)
      else if (k i).used = true ∧ (k i).name = n then none
      else lookup k n := by
  apply Option.ext
  intro bytes
  rw [lookup_iff sound']
  split
  · rename_i now
    constructor
    · rintro ⟨j, used, same, rfl⟩
      have here : j = i := by
        apply sound'.once j i used
        · rw [update_self]
          exact now.1
        · rw [same, update_self, now.2]
      rw [here, update_self]
    · intro same
      refine ⟨i, ?_, ?_, ?_⟩ <;> rw [update_self]
      · exact now.1
      · exact now.2
      · exact Option.some.inj same
  · rename_i other
    have away : ∀ j, ((update k i f) j).used = true → ((update k i f) j).name = n → j ≠ i := by
      rintro j used same rfl
      rw [update_self] at used same
      exact other ⟨used, same⟩
    split
    · rename_i old
      simp only [reduceCtorEq, iff_false, not_exists]
      rintro j ⟨used, same, _⟩
      have moved := away j used same
      rw [update_of_ne moved] at used same
      exact moved (sound.once j i used old.1 (same.trans old.2.symm))
    · rename_i untouched
      rw [lookup_iff sound]
      constructor
      · rintro ⟨j, used, same, here⟩
        have moved := away j used same
        rw [update_of_ne moved] at used same here
        exact ⟨j, used, same, here⟩
      · rintro ⟨j, used, same, here⟩
        have moved : j ≠ i := by
          rintro rfl
          exact untouched ⟨used, same⟩
        exact ⟨j, by rwa [update_of_ne moved], by rwa [update_of_ne moved],
          by rwa [update_of_ne moved]⟩

theorem lookup_rewrite (sound : Sound k) (used : (k i).used = true) (fit : Fit f)
    (used' : f.used = true) (name : f.name = (k i).name) :
    Sound (update k i f) ∧
      lookup (update k i f) = update (lookup k) (k i).name (some (contents f)) := by
  have sound' : Sound (update k i f) := by
    apply sound.change (fun _ => fit)
    intro _ j different used'' same
    exact different (sound.once j i used'' used (same.trans name))
  refine ⟨sound', ?_⟩
  funext n
  rw [lookup_change sound sound']
  by_cases here : n = (k i).name
  · subst here
    rw [if_pos ⟨used', name⟩, update_self]
  · rw [update_of_ne here, if_neg (fun now => here (now.2.symm.trans name)),
      if_neg (fun old => here old.2.symm)]

theorem lookup_create (sound : Sound k) (free : (k i).used = false) (fit : Fit f)
    (used' : f.used = true) (absent : lookup k f.name = none) :
    Sound (update k i f) ∧
      lookup (update k i f) = update (lookup k) f.name (some (contents f)) := by
  have sound' : Sound (update k i f) := by
    apply sound.change (fun _ => fit)
    intro _ j _ used same
    have found := lookup_slot sound used
    rw [same, absent] at found
    cases found
  refine ⟨sound', ?_⟩
  funext n
  rw [lookup_change sound sound']
  by_cases here : n = f.name
  · subst here
    rw [if_pos ⟨used', rfl⟩, update_self]
  · rw [update_of_ne here, if_neg (fun now => here now.2.symm), if_neg (by simp [free])]

theorem lookup_drop (sound : Sound k) (used : (k i).used = true) :
    Sound (update k i (dropped (k i))) ∧
      lookup (update k i (dropped (k i))) = update (lookup k) (k i).name none := by
  have sound' : Sound (update k i (dropped (k i))) := by
    apply sound.change
    · intro used'
      cases used'
    · intro used'
      cases used'
  refine ⟨sound', ?_⟩
  funext n
  rw [lookup_change sound sound', if_neg (by simp [dropped])]
  by_cases here : n = (k i).name
  · subst here
    rw [if_pos ⟨used, rfl⟩, update_self]
  · rw [update_of_ne here, if_neg (fun old => here old.2.symm)]

theorem lookup_rename (sound : Sound k) (used : (k i).used = true) {d : Name}
    (named : d ≠ [] ∧ slash ∉ d ∧ d.length < dirnameMax) (absent : lookup k d = none) :
    Sound (update k i { k i with name := d }) ∧
      lookup (update k i { k i with name := d }) =
        update (update (lookup k) (k i).name none) d (some (contents (k i))) := by
  have sound' : Sound (update k i { k i with name := d }) := by
    apply sound.change
    · intro _
      exact ⟨named, sound.block i used⟩
    · intro _ j _ used' same
      have found := lookup_slot sound used'
      rw [same, absent] at found
      cases found
  refine ⟨sound', ?_⟩
  funext n
  rw [lookup_change sound sound']
  by_cases here : n = d
  · subst here
    rw [if_pos ⟨used, rfl⟩, update_self]
    rfl
  · rw [update_of_ne here, if_neg (fun now => here now.2.symm)]
    by_cases old : n = (k i).name
    · subst old
      rw [if_pos ⟨used, rfl⟩, update_self]
    · rw [update_of_ne old, if_neg (fun was => old was.2.symm)]

end Changing

section Counting
variable {k : Files}

def usedSlots (k : Files) : Finset Slot := Finset.univ.filter (fun i => (k i).used = true)

theorem names_ncard (sound : Sound k) : (lookup k).names.ncard = (usedSlots k).card := by
  have image : (lookup k).names = (fun i => (k i).name) '' (usedSlots k : Set Slot) := by
    ext n
    simp [Map.names, lookup_isSome sound, usedSlots]
  have once : Set.InjOn (fun i => (k i).name) (usedSlots k : Set Slot) := by
    intro i used j used' same
    exact sound.once i j (by simpa [usedSlots] using used) (by simpa [usedSlots] using used') same
  rw [image, once.ncard_image, Set.ncard_coe_finset]

theorem names_finite (k : Files) : (lookup k).names.Finite := by
  have within : (lookup k).names ⊆ Set.range (fun i => (k i).name) := by
    intro n there
    obtain ⟨bytes, found⟩ := Option.isSome_iff_exists.mp there
    simp only [lookup, Option.map_eq_some_iff] at found
    obtain ⟨i, slot, _⟩ := found
    exact ⟨i, (slotOf_some slot).2⟩
  exact (Set.finite_range _).subset within

theorem names_bounded (sound : Sound k) : (lookup k).names.ncard ≤ maxFiles := by
  rw [names_ncard sound]
  exact (Finset.card_le_univ _).trans (by simp)

theorem spare_some {i : Slot} (found : spare k = some i) : (k i).used = false := by
  have hit := List.find?_some found
  simpa using hit

theorem spare_room (sound : Sound k) {i : Slot} (found : spare k = some i) :
    (lookup k).names.ncard < maxFiles := by
  have free : i ∉ usedSlots k := by simp [usedSlots, spare_some found]
  have less := Finset.card_lt_univ_of_notMem free
  rw [names_ncard sound]
  simpa using less

theorem spare_full (sound : Sound k) (absent : spare k = none) :
    ¬ (lookup k).names.ncard < maxFiles := by
  have all : usedSlots k = Finset.univ := by
    ext i
    have miss := List.find?_eq_none.mp absent i (List.mem_finRange i)
    simpa [usedSlots] using miss
  rw [names_ncard sound, all]
  simp

end Counting

section Calls
variable {k : Files}

variable {path n : Name}

theorem leaf_spec (isLeaf : leaf path = some n) : n ≠ [] ∧ slash ∉ n := by
  cases path with
  | nil => cases isLeaf
  | cons c rest =>
    simp only [leaf] at isLeaf
    split at isLeaf
    · rename_i plain
      cases isLeaf
      exact ⟨plain.2.2, plain.2.1⟩
    · cases isLeaf

theorem keyOf_spec (isKey : keyOf path = some n) :
    leaf path = some n ∧ n ≠ [] ∧ slash ∉ n ∧ n.length < dirnameMax := by
  simp only [keyOf] at isKey
  split at isKey
  · cases isKey
  · rename_i isLeaf
    split at isKey
    · rename_i short
      cases isKey
      exact ⟨isLeaf, (leaf_spec isLeaf).1, (leaf_spec isLeaf).2, short⟩
    · cases isKey

theorem create_none {path : Name} (isKey : keyOf path = none) : create k path = none := by
  cases isLeaf : leaf path with
  | none => simp only [create, isLeaf]
  | some n =>
    have long : ¬ n.length < dirnameMax := by
      intro short
      simp only [keyOf, isLeaf, if_pos short] at isKey
      cases isKey
    simp only [create, isLeaf]
    rw [if_pos (by omega)]

theorem readAt_spec (sound : Sound k) (path : Name) (offset len : Nat) :
    readAt k path offset len = some ((lookup k).read path offset len, k) := by
  simp only [readAt, Map.read, bind_lookup sound]
  cases found : find k path with
  | none => rfl
  | some i =>
    have used : (k i).used = true := by
      rw [find_keyOf sound] at found
      cases isKey : keyOf path with
      | none =>
        rw [isKey] at found
        cases found
      | some n =>
        rw [isKey] at found
        exact (slotOf_some found).1
    obtain ⟨block, fits⟩ := sound.block i used
    simp only [Option.map_some]
    by_cases past : (k i).size ≤ offset
    · have nothing : (contents (k i)).drop offset = [] := by
        apply List.drop_eq_nil_of_le
        simpa [contents] using past
      rw [if_pos past, nothing, List.take_nil]
      rfl
    · have count : (if (k i).size - offset < len then (k i).size - offset else len) =
          min len ((k i).size - offset) := by
        split <;> omega
      have bytes : ((contents (k i)).drop offset).take len =
          (List.range (min len ((k i).size - offset))).map
            (fun j => (k i).data.byte (offset + j)) := by
        apply List.ext_getElem
        · simp [contents]
        · intro j _ _
          simp [contents]
      rw [if_neg past, count, if_neg (by omega), bytes]
      simp

theorem find_some (sound : Sound k) {path : Name} {i : Slot} (found : find k path = some i) :
    (k i).used = true ∧ keyOf path = some (k i).name := by
  rw [find_keyOf sound] at found
  cases isKey : keyOf path with
  | none =>
    rw [isKey] at found
    cases found
  | some n =>
    rw [isKey] at found
    obtain ⟨used, rfl⟩ := slotOf_some found
    exact ⟨used, rfl⟩

theorem find_none (sound : Sound k) (isKey : keyOf path = some n)
    (absent : find k path = none) : lookup k n = none := by
  rw [find_keyOf sound, isKey] at absent
  simp only [Option.bind_some] at absent
  simp [lookup, absent]

theorem grown_spec {f : File} (fit : Fit f) {pool : Pool} {offset : Nat} {buf : List Byte}
    (small : offset + buf.length < 2 ^ 31)
    (enough : (pool (rounded (offset + buf.length))).isSome = true) :
    ∃ g h, reserve pool f ((offset + buf.length) % 2 ^ 32) = some (true, g) ∧
      writeFile g offset buf = some h ∧ Fit h ∧ h.used = f.used ∧ h.name = f.name ∧
      contents h = splice (contents f) offset buf := by
  have whole : (offset + buf.length) % 2 ^ 32 = offset + buf.length := Nat.mod_eq_of_lt (by omega)
  rw [whole]
  obtain ⟨g, reserved, name, used, _, block, fits, room, same⟩ :=
    reserve_spec fit.block.1 fit.block.2 small enough
  obtain ⟨h, written, name', used', block', fits', spliced⟩ :=
    writeFile_spec block fits room small
  refine ⟨g, h, reserved, written, ⟨?_, block', fits'⟩, used'.trans used, name'.trans name, ?_⟩
  · rw [name', name]
    exact fit.named
  · rw [spliced, same]

theorem int32_small {n : Nat} (small : n < 2 ^ 31) : int32 n = n := if_pos small

theorem writeAt_spec (sound : Sound k) {pool : Pool} {path : Name} {offset : Nat}
    {buf : List Byte} (small : offset + buf.length < 2 ^ 31)
    (enough : (pool (rounded (offset + buf.length))).isSome = true) :
    ∃ reply k', writeAt pool k path offset buf = some (reply, k') ∧ Sound k' ∧
      (reply, lookup k') = (lookup k).write path offset buf := by
  have answer : int32 buf.length = buf.length := int32_small (by omega)
  cases isKey : keyOf path with
  | none =>
    have absent : find k path = none := by rw [find_keyOf sound, isKey]; rfl
    refine ⟨code (-1), k, ?_, sound, ?_⟩
    · simp [writeAt, absent, create_none isKey]
    · simp [Map.write, isKey]
  | some n =>
    cases found : find k path with
    | some i =>
      obtain ⟨used, isName⟩ := find_some sound found
      obtain rfl : (k i).name = n := Option.some.inj (isName.symm.trans isKey)
      obtain ⟨g, h, reserved, written, fit, used', name, spliced⟩ :=
        grown_spec (sound.fit used) small enough
      obtain ⟨sound', same⟩ := lookup_rewrite sound used fit (used'.trans used) name
      refine ⟨code buf.length, update k i h, ?_, sound', ?_⟩
      · simp only [writeAt, found, Option.map_some, Option.some_or, reserved, written, answer]
      · simp only [Map.write, isKey, lookup_slot sound used, same, spliced]
    | none =>
      obtain ⟨isLeaf, named⟩ := keyOf_spec isKey
      have absent := find_none sound isKey found
      have short : ¬ dirnameMax ≤ n.length := by omega
      cases free : spare k with
      | none =>
        refine ⟨code (-1), k, ?_, sound, ?_⟩
        · simp [writeAt, found, create, isLeaf, short, free]
        · simp only [Map.write, isKey, absent, if_neg (spare_full sound free)]
      | some i =>
        have unused := spare_some free
        have fit : Fit ⟨n, .null, 0, 0, true⟩ := ⟨named, rfl, Nat.le_refl 0⟩
        obtain ⟨g, h, reserved, written, fit', used', name, spliced⟩ :=
          grown_spec fit small enough
        have absent' : lookup k h.name = none := by rw [name]; exact absent
        obtain ⟨sound', same⟩ := lookup_create sound unused fit' used' absent'
        refine ⟨code buf.length, update k i h, ?_, sound', ?_⟩
        · simp only [writeAt, found, create, isLeaf, if_neg short, free, Option.map_none,
            Option.none_or, Option.map_some, update_self, reserved, written, update_idem, answer]
        · simp only [Map.write, isKey, absent, if_pos (spare_room sound free), same, spliced,
            name]
          rfl

theorem remove_spec (sound : Sound k) (path : Name) : Sound (remove k path).2 ∧
    (truth (remove k path).1, lookup (remove k path).2) = (lookup k).remove path := by
  cases found : find k path with
  | some i =>
    obtain ⟨used, isKey⟩ := find_some sound found
    obtain ⟨sound', same⟩ := lookup_drop sound used
    simp only [remove, found, Map.remove, isKey, lookup_slot sound used, same]
    exact ⟨sound', rfl⟩
  | none =>
    simp only [remove, found, Map.remove]
    refine ⟨sound, ?_⟩
    cases isKey : keyOf path with
    | none => rfl
    | some n =>
      simp only [find_none sound isKey found]
      rfl

theorem rename_spec (sound : Sound k) (source dest : Name) : Sound (rename k source dest).2 ∧
    (truth (rename k source dest).1, lookup (rename k source dest).2) =
      (lookup k).rename source dest := by
  cases found : find k source with
  | none =>
    simp only [rename, found, Map.rename]
    refine ⟨sound, ?_⟩
    split
    · rename_i n d isKey _
      rw [find_none sound isKey found]
      rfl
    · rfl
  | some i =>
    obtain ⟨used, isKey⟩ := find_some sound found
    cases isLeaf : leaf dest with
    | none =>
      have noKey : keyOf dest = none := by simp [keyOf, isLeaf]
      simp only [rename, found, isLeaf, Map.rename, isKey, noKey]
      exact ⟨sound, trivial⟩
    | some d =>
      by_cases long : dirnameMax ≤ d.length
      · have noKey : keyOf dest = none := by
          have short : ¬ d.length < dirnameMax := by omega
          simp [keyOf, isLeaf, short]
        simp only [rename, found, isLeaf, if_pos long, Map.rename, isKey, noKey]
        exact ⟨sound, trivial⟩
      · have isDest : keyOf dest = some d := by
          have short : d.length < dirnameMax := by omega
          simp [keyOf, isLeaf, short]
        have named := (keyOf_spec isDest).2
        simp only [rename, found, isLeaf, if_neg long, Map.rename, isKey, isDest,
          lookup_slot sound used, Option.isSome_some, if_true]
        cases there : find k dest with
        | none =>
          have absent := find_none sound isDest there
          obtain ⟨sound', same⟩ := lookup_rename sound used named absent
          simp only [reduceCtorEq, if_false, Option.isSome_none, Bool.false_eq_true, same]
          exact ⟨sound', trivial⟩
        | some j =>
          obtain ⟨used', isKey'⟩ := find_some sound there
          obtain rfl : d = (k j).name := Option.some.inj (isDest.symm.trans isKey')
          by_cases self : j = i
          · -- the file keeps its name
            subst self
            simp only [if_true, update_idem, ← lookup_slot sound used, update_eq_self]
            exact ⟨sound, trivial⟩
          · obtain ⟨sound', same⟩ := lookup_drop sound used'
            have still : update k j (dropped (k j)) i = k i := update_of_ne (Ne.symm self) _ _
            have absent : lookup (update k j (dropped (k j))) (k j).name = none := by
              rw [same, update_self]
            obtain ⟨sound'', same'⟩ :=
              lookup_rename sound' (i := i) (by rw [still]; exact used) named absent
            have other : (k j).name ≠ (k i).name := fun equal =>
              self (sound.once j i used' used equal)
            rw [same, still, update_comm other, update_idem] at same'
            simp only [Option.some.injEq, self, if_false, Option.isSome_some, if_true, remove,
              there, still]
            rw [still] at sound''
            exact ⟨sound'', by rw [same']⟩

theorem stat_spec (sound : Sound k) (path : Name) : stat k path = (lookup k).stat path := by
  simp only [stat, Map.stat, bind_lookup sound]
  split
  · rfl
  · cases find k path with
    | none => rfl
    | some i => simp [contents]

theorem nthUsed_filter (slots : List Slot) (index : Nat) :
    nthUsed k slots index = (slots.filter (fun i => (k i).used))[index]? := by
  induction slots generalizing index with
  | nil => rfl
  | cons i rest ih =>
    cases used : (k i).used with
    | false => simp [nthUsed, used, ih]
    | true =>
      cases index with
      | zero => simp [nthUsed, used]
      | succ index => simp [nthUsed, used, ih]

def listed (k : Files) : List Name :=
  ((List.finRange maxFiles).filter (fun i => (k i).used)).map (fun i => (k i).name)

theorem listed_lists (sound : Sound k) : (lookup k).Lists (listed k) := by
  constructor
  · apply List.Nodup.map_on
    · intro i member j member' same
      exact sound.once i j (List.mem_filter.mp member).2 (List.mem_filter.mp member').2 same
    · exact (List.nodup_finRange maxFiles).filter _
  · intro n
    rw [lookup_isSome sound]
    simp [listed]

theorem statNth_spec (sound : Sound k) (index : Nat) :
    statNth k [slash] index = (lookup k).entry (listed k) index := by
  simp only [statNth, Map.entry, listed, nthUsed_filter, List.getElem?_map]
  cases counted : ((List.finRange maxFiles).filter (fun i => (k i).used))[index]? with
  | none => simp
  | some i =>
    have member := List.mem_of_getElem? counted
    have used : (k i).used = true := (List.mem_filter.mp member).2
    simp [lookup_slot sound used, contents]

end Calls

def Op.Fits : Op → Prop
  | .write pool _ offset buf =>
    offset + buf.length < 2 ^ 31 ∧ (pool (rounded (offset + buf.length))).isSome = true
  | _ => True

theorem call_refines {k : Files} (sound : Sound k) {op : Op} (fits : op.Fits) :
    ∃ reply k', call k op = some (reply, k') ∧ Sound k' ∧
      (lookup k).Answers op reply (lookup k') := by
  cases op with
  | read path offset len =>
    exact ⟨_, k, readAt_spec sound path offset len, sound, rfl, rfl⟩
  | write pool path offset buf =>
    obtain ⟨reply, k', done, sound', answers⟩ := writeAt_spec sound fits.1 fits.2
    exact ⟨reply, k', done, sound', answers⟩
  | remove path =>
    obtain ⟨sound', answers⟩ := remove_spec sound path
    exact ⟨_, _, rfl, sound', answers⟩
  | rename source dest =>
    obtain ⟨sound', answers⟩ := rename_spec sound source dest
    exact ⟨_, _, rfl, sound', answers⟩
  | stat path => exact ⟨_, k, rfl, sound, stat_spec sound path, rfl⟩
  | statNth dirpath index =>
    refine ⟨_, k, rfl, sound, ⟨listed k, listed_lists sound, ?_⟩, rfl⟩
    split
    · rename_i root
      rw [root, statNth_spec sound]
    · rename_i other
      rw [statNth, if_pos other]

theorem run_sound {ops : List Op} {k : Files} (sound : Sound k) (fits : ∀ op ∈ ops, op.Fits) :
    ∃ replies k', run k ops = some (replies, k') ∧ Sound k' ∧
      (lookup k).Runs ops replies (lookup k') := by
  induction ops generalizing k with
  | nil => exact ⟨[], k, rfl, sound, .nil _⟩
  | cons op rest ih =>
    obtain ⟨reply, k', done, sound', answers⟩ := call_refines sound (fits op List.mem_cons_self)
    obtain ⟨replies, last, ended, sound'', later⟩ :=
      ih sound' (fun op member => fits op (List.mem_cons_of_mem _ member))
    refine ⟨reply :: replies, last, ?_, sound'', .cons answers later⟩
    simp only [run, done, ended, Option.map_some]

theorem emptied_sound : Sound emptied := by
  constructor
  · intro i used
    cases used
  · intro i j used
    cases used
  · intro i used
    cases used

theorem emptied_lookup : lookup emptied = fun _ => none := by
  funext n
  cases found : lookup emptied n with
  | none => rfl
  | some bytes =>
    obtain ⟨i, used, _⟩ := (lookup_iff emptied_sound).mp found
    cases used

/-- Every sequence of calls replies what the map replies, and no call reaches outside
a block; there are no more than sixteen names, and each is counted off once. -/
theorem run_refines {ops : List Op} (fits : ∀ op ∈ ops, op.Fits) :
    ∃ replies k m, run emptied ops = some (replies, k) ∧
      Map.Runs (fun _ => none) ops replies m ∧ m.names.Finite ∧ m.names.ncard ≤ maxFiles ∧
      ∃ names, m.Lists names ∧ ∀ index, statNth k [slash] index = m.entry names index := by
  obtain ⟨replies, k, done, sound, runs⟩ := run_sound emptied_sound fits
  rw [emptied_lookup] at runs
  exact ⟨replies, k, lookup k, done, runs, names_finite k, names_bounded sound, listed k,
    listed_lists sound, statNth_spec sound⟩

def published : List Op :=
  [.write (fun _ => some (fun _ => 0xff)) [slash, 0x61] 2 [1, 2],
    .write (fun _ => some (fun _ => 0xff)) [slash, 0x62] 0 [9],
    .write (fun _ => some (fun _ => 0xff)) [slash, 0x61] 4 [3],
    .rename [slash, 0x61] [slash, 0x62], .read [slash, 0x62] 1 100, .statNth [slash] 0]

theorem run_refines_published :
    ∃ replies k m, run emptied published = some (replies, k) ∧
      Map.Runs (fun _ => none) published replies m ∧ m.names.Finite ∧ m.names.ncard ≤ maxFiles ∧
      ∃ names, m.Lists names ∧ ∀ index, statNth k [slash] index = m.entry names index := by
  apply run_refines
  simp [published, Op.Fits]

example : (run emptied published).map (fun ended => ended.1.getLast?) =
    some (some ⟨0, [0x62], 5⟩) := by decide +kernel

end Ubiqos.Tmpfs
