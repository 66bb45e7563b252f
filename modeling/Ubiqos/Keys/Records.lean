import Mathlib.Data.List.FinRange
import Ubiqos.Keys.Store

/-!
The records as a map. A slot reads back what was put in it, and while no name
is in two slots, filling or clearing one changes what its name gives and
nothing else.
-/

namespace Ubiqos.Keys

open Function

theorem read_string {f : Nat → Byte} {name : List Byte} {n : Nat}
    (put : ∀ i < name.length, f i = name.getD i 0) (stop : f name.length = 0)
    (ended : 0 ∉ name) (short : name.length < n) :
    ((List.range n).map f).takeWhile (· ≠ 0) = name := by
  induction name generalizing f n with
  | nil =>
    obtain ⟨m, rfl⟩ : ∃ m, n = m + 1 := ⟨n - 1, by simp only [List.length_nil] at short; omega⟩
    have first : f 0 = 0 := stop
    rw [List.range_succ_eq_map, List.map_cons, List.takeWhile_cons_of_neg (by simp [first])]
  | cons a rest ih =>
    obtain ⟨m, rfl⟩ : ∃ m, n = m + 1 := ⟨n - 1, by omega⟩
    have first : f 0 = a := put 0 (by simp)
    have nonzero : a ≠ 0 := fun same => ended (same ▸ List.mem_cons_self)
    rw [List.range_succ_eq_map, List.map_cons, first,
      List.takeWhile_cons_of_pos (by simpa using nonzero), List.map_map]
    congr 1
    apply ih
    · intro i small
      simpa using put (i + 1) (by simpa using small)
    · exact stop
    · exact fun member => ended (List.mem_cons_of_mem a member)
    · simpa using short

section Slots
variable {name value : List Byte}

theorem byte_of {i : Nat} (inside : i < slotBytes) :
    (Slot.of name value).byte i = Slot.of name value ⟨i, inside⟩ := by
  simp [Slot.byte, inside]

theorem name_of (short : name.length < nameMax) (ended : 0 ∉ name) :
    (Slot.of name value).name = name := by
  simp only [nameMax] at short
  apply read_string _ _ ended (by simpa [nameMax] using short)
  · intro i small
    rw [byte_of (by simp only [slotBytes]; omega)]
    have front : i < 40 := by omega
    simp [Slot.of, front]
  · rw [byte_of (by simp only [slotBytes]; omega)]
    simp [Slot.of, short]

theorem len_of (fits : value.length ≤ valueMax) : (Slot.of name value).len = value.length := by
  simp only [valueMax] at fits
  have low : (Slot.of name value).byte 40 = BitVec.ofNat 8 value.length := by
    simp [Slot.byte, Slot.of, slotBytes]
  have high : (Slot.of name value).byte 41 = BitVec.ofNat 8 (value.length / 2 ^ 8) := by
    simp [Slot.byte, Slot.of, slotBytes]
  rw [Slot.len, low, high, BitVec.toNat_ofNat, BitVec.toNat_ofNat]
  omega

theorem value_of (fits : value.length ≤ valueMax) : (Slot.of name value).value = value := by
  apply List.ext_getElem
  · simp [Slot.value, len_of fits]
  · intro i _ small
    simp only [valueMax] at fits
    simp only [Slot.value, List.getElem_map, List.getElem_range]
    rw [byte_of (by simp only [slotBytes]; omega)]
    simp only [Slot.of]
    rw [if_neg (by omega), if_neg (by omega), if_neg (by omega), if_neg (by omega)]
    simp [small]

theorem len_empty : emptySlot.len = 0 := by decide

end Slots

structure Tidy (p : Plain) : Prop where
  once : ∀ i j, (p i).len ≠ 0 → (p j).len ≠ 0 → (p i).name = (p j).name → i = j
  named : ∀ i, (p i).len ≠ 0 → (p i).name ≠ [] ∧ (p i).name.length < nameMax

section Maps
variable {p : Plain} {name : List Byte}

theorem tidy_empty : Tidy emptyPlain := by
  constructor
  · intro i j full
    exact absurd len_empty full
  · intro i full
    exact absurd len_empty full

variable {i : Fin keySlots}

theorem slotFor_some (found : slotFor p name = some i) :
    (p i).len ≠ 0 ∧ (p i).name = name := by
  have hit := List.find?_some found
  simp only [nameEq, Bool.and_eq_true, decide_eq_true_eq] at hit
  exact ⟨by simpa using hit.1, hit.2.1⟩

theorem slotFor_none (tidy : Tidy p) (absent : slotFor p name = none) (i : Fin keySlots)
    (full : (p i).len ≠ 0) : (p i).name ≠ name := by
  intro same
  have miss := List.find?_eq_none.mp absent i (List.mem_finRange i)
  have short := (tidy.named i full).2
  rw [same] at short
  simp [nameEq, full, same, short] at miss

theorem lookup_iff (tidy : Tidy p) {value : List Byte} :
    lookup p name = some value ↔ ∃ i, (p i).len ≠ 0 ∧ (p i).name = name ∧ (p i).value = value := by
  by_cases empty : name = []
  · subst empty
    simp only [lookup, find, if_true, Option.map_none, reduceCtorEq, false_iff, not_exists]
    rintro i ⟨full, same, _⟩
    exact (tidy.named i full).1 same
  · simp only [lookup, find, if_neg empty]
    cases found : slotFor p name with
    | none =>
      simp only [Option.map_none, reduceCtorEq, false_iff, not_exists]
      rintro i ⟨full, same, _⟩
      exact slotFor_none tidy found i full same
    | some i =>
      obtain ⟨full, same⟩ := slotFor_some found
      simp only [Option.map_some, Option.some.injEq]
      constructor
      · intro value'
        exact ⟨i, full, same, value'⟩
      · rintro ⟨j, full', same', value'⟩
        rw [tidy.once i j full full' (same.trans same'.symm)]
        exact value'

theorem lookup_ext {q : Plain} {m : List Byte → Option (List Byte)}
    (same : ∀ name value, lookup q name = some value ↔ m name = some value) : lookup q = m := by
  funext name
  apply Option.ext
  exact same name

theorem lookup_empty : lookup emptyPlain = fun _ => none := by
  apply lookup_ext
  intro name value
  rw [lookup_iff tidy_empty]
  constructor
  · rintro ⟨i, full, _⟩
    exact absurd len_empty full
  · intro given
    cases given

theorem target_spec (tidy : Tidy p)
    (target : (slotFor p name).or (spareSlot p) = some i) :
    ∀ j, (p j).len ≠ 0 → (p j).name = name → j = i := by
  intro j full same
  cases found : slotFor p name with
  | none => exact absurd same (slotFor_none tidy found j full)
  | some k =>
    rw [found] at target
    obtain rfl : k = i := by simpa using target
    obtain ⟨full', same'⟩ := slotFor_some found
    exact tidy.once j k full full' (same.trans same'.symm)

theorem target_clear
    (target : (slotFor p name).or (spareSlot p) = some i) :
    (p i).len ≠ 0 → (p i).name = name := by
  intro full
  cases found : slotFor p name with
  | none =>
    rw [found, Option.none_or] at target
    have empty := List.find?_some target
    exact absurd (by simpa using empty) full
  | some k =>
    rw [found] at target
    obtain rfl : k = i := by simpa using target
    exact (slotFor_some found).2

theorem tidy_put (tidy : Tidy p) {s : Slot}
    (others : s.len ≠ 0 → ∀ j, j ≠ i → (p j).len ≠ 0 → (p j).name ≠ s.name)
    (named : s.len ≠ 0 → s.name ≠ [] ∧ s.name.length < nameMax) : Tidy (update p i s) := by
  constructor
  · intro j k full full' same
    by_cases first : j = i <;> by_cases second : k = i
    · rw [first, second]
    · subst first
      rw [update_self] at full same
      rw [update_of_ne second] at full' same
      exact absurd same.symm (others full k second full')
    · subst second
      rw [update_self] at full' same
      rw [update_of_ne first] at full same
      exact absurd same (others full' j first full)
    · rw [update_of_ne first] at full same
      rw [update_of_ne second] at full' same
      exact tidy.once j k full full' same
  · intro j full
    by_cases first : j = i
    · subst first
      rw [update_self] at full ⊢
      exact named full
    · rw [update_of_ne first] at full ⊢
      exact tidy.named j full

theorem set_spec (tidy : Tidy p) {value : List Byte} (some' : name ≠ []) (short : name.length < nameMax)
    (ended : 0 ∉ name) (holds : value ≠ []) (fits : value.length ≤ valueMax)
    (target : (slotFor p name).or (spareSlot p) = some i) :
    Tidy (update p i (Slot.of name value)) ∧
      lookup (update p i (Slot.of name value)) = update (lookup p) name (some value) := by
  have isName := (@name_of _ value) short ended
  have full : (Slot.of name value).len ≠ 0 := by
    rw [len_of fits]
    exact fun empty => holds (List.length_eq_zero_iff.mp empty)
  have alone := target_spec tidy target
  have tidy' : Tidy (update p i (Slot.of name value)) := by
    apply tidy_put tidy
    · intro _ j different full' same
      exact different (alone j full' (same.trans isName))
    · intro _
      rw [isName]
      exact ⟨some', short⟩
  refine ⟨tidy', lookup_ext ?_⟩
  intro other v
  rw [lookup_iff tidy']
  by_cases here : other = name
  · subst here
    rw [update_self]
    constructor
    · rintro ⟨j, full', same, value'⟩
      by_cases atI : j = i
      · subst atI
        rw [update_self, value_of fits] at value'
        rw [value']
      · rw [update_of_ne atI] at full' same
        exact absurd (alone j full' same) atI
    · intro same
      refine ⟨i, ?_, ?_, ?_⟩ <;> rw [update_self]
      · exact full
      · exact isName
      · rw [value_of fits]
        exact Option.some.inj same
  · rw [update_of_ne here, lookup_iff tidy]
    constructor
    · rintro ⟨j, full', same, value'⟩
      by_cases atI : j = i
      · subst atI
        rw [update_self, isName] at same
        exact absurd same.symm here
      · rw [update_of_ne atI] at full' same value'
        exact ⟨j, full', same, value'⟩
    · rintro ⟨j, full', same, value'⟩
      have atJ : j ≠ i := by
        rintro rfl
        exact here (same.symm.trans (target_clear target full'))
      exact ⟨j, by rwa [update_of_ne atJ], by rwa [update_of_ne atJ], by rwa [update_of_ne atJ]⟩

theorem remove_spec (tidy : Tidy p) (found : find p name = some i) :
    Tidy (update p i emptySlot) ∧
      lookup (update p i emptySlot) = update (lookup p) name none := by
  have hit : slotFor p name = some i := by
    unfold find at found
    split at found
    · cases found
    · exact found
  obtain ⟨full, isName⟩ := slotFor_some hit
  have tidy' : Tidy (update p i emptySlot) := by
    apply tidy_put tidy
    · intro full'
      exact absurd len_empty full'
    · intro full'
      exact absurd len_empty full'
  refine ⟨tidy', lookup_ext ?_⟩
  intro other v
  rw [lookup_iff tidy']
  have gone : ∀ j, ((update p i emptySlot) j).len ≠ 0 → j ≠ i := by
    rintro j full' rfl
    rw [update_self] at full'
    exact full' len_empty
  by_cases here : other = name
  · subst here
    rw [update_self]
    simp only [reduceCtorEq, iff_false, not_exists]
    rintro j ⟨full', same, _⟩
    have atJ := gone j full'
    rw [update_of_ne atJ] at full' same
    exact atJ (tidy.once j i full' full (same.trans isName.symm))
  · rw [update_of_ne here, lookup_iff tidy]
    constructor
    · rintro ⟨j, full', same, value'⟩
      have atJ := gone j full'
      rw [update_of_ne atJ] at full' same value'
      exact ⟨j, full', same, value'⟩
    · rintro ⟨j, full', same, value'⟩
      have atJ : j ≠ i := by
        rintro rfl
        exact here (same.symm.trans isName)
      exact ⟨j, by rwa [update_of_ne atJ], by rwa [update_of_ne atJ], by rwa [update_of_ne atJ]⟩

end Maps

theorem plainOf_bytes (p : Plain) : plainOf p.bytes = p := by
  funext i j
  have small : (j : Nat) < slotBytes := j.isLt
  have row : (slotBytes * (i : Nat) + j) / slotBytes = i := by
    rw [Nat.mul_add_div (by simp [slotBytes]), Nat.div_eq_of_lt small, Nat.add_zero]
  have column : (slotBytes * (i : Nat) + j) % slotBytes = j := by
    rw [Nat.mul_add_mod, Nat.mod_eq_of_lt small]
  simp only [plainOf, Plain.bytes, row, column]

theorem unseal_seal (c : Crypto) (key : Key) (nonce : Nonce) {n : Nat} (plain : Bytes n) :
    c.unseal key nonce (c.seal key nonce plain).1 (c.seal key nonce plain).2 = some plain := by
  simp only [Crypto.unseal, Crypto.seal, if_true, Option.some.injEq]
  funext i
  rw [Crypto.xor, Crypto.xor, BitVec.xor_assoc, BitVec.xor_self, BitVec.xor_zero]

end Ubiqos.Keys

/-!
What a write leaves in flash. The copy that is live stays as it was, so the
question is which of the two the next boot takes, and whether that one opens.
-/

namespace Ubiqos.Keys

open Function

section Choosing
variable {flash : Flash}

theorem choose_ranked {b : Bool} (good : copyIsGood (flash b) = true)
    (ranked : copyIsGood (flash (!b)) = true → (flash (!b)).seq < (flash b).seq ∨
      (b = false ∧ (flash (!b)).seq = (flash b).seq)) :
    choose flash = some b := by
  cases b with
  | false =>
    cases other : copyIsGood (flash true) with
    | false => simp [choose, good, other]
    | true =>
      have least : (flash true).seq ≤ (flash false).seq := by
        rcases ranked other with less | ⟨_, same⟩
        · exact Nat.le_of_lt less
        · exact Nat.le_of_eq same
      simp [choose, good, other, least]
  | true =>
    cases other : copyIsGood (flash false) with
    | false => simp [choose, good, other]
    | true =>
      have less : (flash false).seq < (flash true).seq := by
        rcases ranked other with less | ⟨second, _⟩
        · exact less
        · cases second
      simp [choose, good, other, Nat.not_le.mpr less]

theorem choose_newer {b : Bool} (good : copyIsGood (flash b) = true)
    (newer : copyIsGood (flash (!b)) = true → (flash (!b)).seq < (flash b).seq) :
    choose flash = some b :=
  choose_ranked good (fun other => .inl (newer other))

theorem choose_good {b : Bool} (chosen : choose flash = some b) : copyIsGood (flash b) = true := by
  unfold choose at chosen
  split at chosen
  · rename_i both
    cases b
    · exact both.1
    · exact both.2
  · split at chosen
    · rename_i first
      cases chosen
      exact first
    · split at chosen
      · rename_i second
        cases chosen
        exact second
      · cases chosen

theorem choose_none (absent : choose flash = none) (b : Bool) : copyIsGood (flash b) = false := by
  cases first : copyIsGood (flash false) <;> cases second : copyIsGood (flash true) <;>
    simp [choose, first, second] at absent
  cases b
  · exact first
  · exact second

end Choosing

section Tearing
variable {s : Store} {n : Nat}

theorem tear_early (few : n < 8) : copyIsGood (s.tear n) = false := by
  have format : (s.tear n).format = ones := by
    have outside : ¬ 4 + 4 ≤ n := by omega
    simp [Store.tear, tearWord, outside]
  simp [copyIsGood, format, ones, keysFormat]

theorem tearBytes_whole {m off : Nat} {b : Bytes m} (enough : off + m ≤ n) :
    tearBytes off n b = b := by
  funext i
  have inside : off + i < n := by omega
  simp [tearBytes, inside]

theorem tearWord_whole {off v : Nat} (enough : off + 4 ≤ n) : tearWord off n v = v := by
  simp [tearWord, enough]

structure SameSeal (s t : Store) : Prop where
  magic : s.magic = t.magic
  format : s.format = t.format
  seq : s.seq = t.seq
  rounds : s.rounds = t.rounds
  salt : s.salt = t.salt
  nonce : s.nonce = t.nonce
  tag : s.tag = t.tag
  sealed : s.sealed = t.sealed

theorem tear_late (many : 3980 ≤ n) : SameSeal (s.tear n) s where
  magic := tearWord_whole (by omega)
  format := tearWord_whole (by omega)
  seq := tearWord_whole (by omega)
  rounds := tearWord_whole (by omega)
  salt := tearBytes_whole (by omega)
  nonce := tearBytes_whole (by omega)
  tag := tearBytes_whole (by omega)
  sealed := tearBytes_whole (by simp only [plainBytes]; omega)

theorem SameSeal.good {t : Store} (same : SameSeal s t) : copyIsGood s = copyIsGood t := by
  simp [copyIsGood, same.magic, same.format, same.rounds]

end Tearing

structure Carries (c : Crypto) (s : Store) (pass : List Byte) (p : Plain) : Prop where
  good : copyIsGood s = true
  opens : c.unseal (derive c s pass) s.nonce s.sealed s.tag = some p.bytes

section Carrying
variable {c : Crypto} {s t : Store} {pass : List Byte} {p : Plain}

theorem Carries.of_same (carries : Carries c t pass p) (same : SameSeal s t) :
    Carries c s pass p := by
  refine ⟨same.good.trans carries.good, ?_⟩
  simp only [derive, same.salt, same.rounds, same.nonce, same.sealed, same.tag]
  exact carries.opens

theorem apply_rest (w : WrapChange) (s : Store) : (w.apply s).magic = s.magic ∧
    (w.apply s).format = s.format ∧ (w.apply s).seq = s.seq ∧ (w.apply s).rounds = s.rounds ∧
    (w.apply s).salt = s.salt := by
  cases w <;> exact ⟨rfl, rfl, rfl, rfl, rfl⟩

theorem nextImage_rest (live : Store) (wrap : WrapChange) (key : Key) (nonce : Nonce) :
    (nextImage c live wrap key nonce p).magic = live.magic ∧
    (nextImage c live wrap key nonce p).format = keysFormat ∧
    (nextImage c live wrap key nonce p).seq = (live.seq + 1) % 2 ^ 32 ∧
    (nextImage c live wrap key nonce p).rounds = live.rounds ∧
    (nextImage c live wrap key nonce p).salt = live.salt := by
  simp only [nextImage]
  obtain ⟨magic, format, seq, rounds, salt⟩ := apply_rest wrap
    { (if copyHasWrap live then live else noWrap live) with
      seq := (live.seq + 1) % 2 ^ 32, format := keysFormat }
  rw [magic, format, seq, rounds, salt]
  split <;> exact ⟨rfl, rfl, rfl, rfl, rfl⟩

theorem nextImage_good {live : Store} {wrap : WrapChange} {key : Key} {nonce : Nonce}
    (good : copyIsGood live = true) : copyIsGood (nextImage c live wrap key nonce p) = true := by
  obtain ⟨magic, format, _, rounds, _⟩ := nextImage_rest (c := c) (p := p) live wrap key nonce
  simp only [copyIsGood, Bool.decide_and, Bool.and_eq_true, decide_eq_true_eq] at good ⊢
  rw [magic, format, rounds]
  exact ⟨good.1, .inr rfl, good.2.2⟩

theorem nextImage_carries {live : Store} (good : copyIsGood live = true) (wrap : WrapChange)
    (nonce : Nonce) :
    Carries c (nextImage c live wrap (derive c live pass) nonce p) pass p := by
  obtain ⟨_, _, _, rounds, salt⟩ :=
    nextImage_rest (c := c) (p := p) live wrap (derive c live pass) nonce
  constructor
  · exact nextImage_good good
  · have key : derive c (nextImage c live wrap (derive c live pass) nonce p) pass =
        derive c live pass := congrArg₂ (c.pbkdf2 pass) salt rounds
    rw [key]
    exact unseal_seal c _ nonce p.bytes

theorem firstImage_carries (salt : Salt) (nonce : Nonce) :
    Carries c (firstImage c pass salt nonce) pass emptyPlain := by
  constructor
  · rfl
  · exact unseal_seal c _ nonce emptyPlain.bytes

end Carrying

def CleanCut (n : Nat) : Prop := n < 8 ∨ 3980 ≤ n

instance (n : Nat) : Decidable (CleanCut n) := inferInstanceAs (Decidable (_ ∨ _))

def Behind (k : Board) (left : Store) : Prop :=
  copyIsGood left = true → ∃ b ∈ k.live, left.seq < (k.flash b).seq ∨
    (b = false ∧ left.seq = (k.flash b).seq)

instance (k : Board) (left : Store) : Decidable (Behind k left) := by
  cases live : k.live with
  | none => exact decidable_of_iff (copyIsGood left = false) (by simp [Behind, live])
  | some b =>
    exact decidable_of_iff (copyIsGood left = true → left.seq < (k.flash b).seq ∨
      (b = false ∧ left.seq = (k.flash b).seq)) (by simp [Behind, live])

/-- A write that ends well: it takes effect, or what it leaves behind does not
pass for the newest copy. -/
def Fate.clean (part : Part) (k : Board) : Fate → Prop
  | .takes => True
  | .fails left => Behind k left
  | .cut pages => CleanCut (pages * part.page)

instance (part : Part) (k : Board) : (fate : Fate) → Decidable (fate.clean part k)
  | .takes => isTrue trivial
  | .fails _ => inferInstanceAs (Decidable (Behind _ _))
  | .cut _ => inferInstanceAs (Decidable (CleanCut _))

inductive Wrote (part : Part) (k : Board) (b : Bool) (img : Store) : Fate → Outcome → Prop
  | done (chosen : choose (update k.flash (!b) img) = some (!b)) : Wrote part k b img .takes
      (some 0, { k with flash := update k.flash (!b) img, live := some (!b) })
  | failed {left : Store} (chosen : choose (update k.flash (!b) left) = some b) :
      Wrote part k b img (.fails left) (some (-4), { k with flash := update k.flash (!b) left })
  | lost {pages : Nat} {torn : Store} (few : ¬ 3980 ≤ pages * part.page)
      (chosen : choose (update k.flash (!b) torn) = some b) :
      Wrote part k b img (.cut pages) (none, boot (update k.flash (!b) torn))
  | landed {pages : Nat} {torn : Store} (many : 3980 ≤ pages * part.page)
      (same : SameSeal torn img) (chosen : choose (update k.flash (!b) torn) = some (!b)) :
      Wrote part k b img (.cut pages) (none, boot (update k.flash (!b) torn))

section Writing
variable {c : Crypto} {part : Part} {k : Board} {b : Bool} {img : Store}

theorem update_other {flash : Flash} {s : Store} : update flash (!b) s b = flash b :=
  update_of_ne (by cases b <;> simp) _ _

theorem choose_next {flash : Flash} {s : Store} (good : copyIsGood s = true)
    (seq : s.seq = (flash b).seq + 1) : choose (update flash (!b) s) = some (!b) := by
  apply choose_newer
  · rw [update_self]
    exact good
  · intro _
    rw [Bool.not_not, update_other, update_self, seq]
    omega

theorem putImage_wrote (live : k.live = some b) (env : Env) (good : copyIsGood img = true)
    (seq : img.seq = (k.flash b).seq + 1) (chosen : choose k.flash = some b)
    (clean : env.fate.clean part k) :
    Wrote part k b img env.fate (putImage part k env (!b) img 0 id) := by
  rcases env with ⟨room, parks, nonce, fate⟩
  cases fate with
  | takes =>
    simp only [putImage, good, if_true, id]
    exact .done (choose_next good seq)
  | fails left =>
    have still : choose (update k.flash (!b) left) = some b := by
      apply choose_ranked
      · rw [update_other]
        exact choose_good chosen
      · intro whole
        rw [update_self] at whole ⊢
        obtain ⟨_, isLive, behind⟩ := clean whole
        cases live.symm.trans isLive
        rw [update_other]
        exact behind
    -- what reads back as the image would be taken for the newer copy
    have rejected : ¬ (copyIsGood left = true ∧ left.seq = img.seq) := by
      rintro ⟨whole, same⟩
      have newer := (@choose_next _ k.flash) whole (same.trans seq)
      rw [still] at newer
      cases b <;> cases newer
    simp only [putImage, if_neg rejected]
    exact .failed still
  | cut pages =>
    simp only [putImage]
    rcases clean with few | many
    · apply Wrote.lost (by omega)
      apply choose_newer
      · rw [update_other]
        exact choose_good chosen
      · intro torn
        rw [update_self, tear_early few] at torn
        cases torn
    · have same := tear_late (s := img) many
      exact .landed many same (choose_next (same.good.trans good) (same.seq.trans seq))

theorem sealAndWrite_wrote {q : Plain} (live : k.live = some b) (plain : k.plain = some q)
    (chosen : choose k.flash = some b) (env : Env) (wrap : WrapChange)
    (sound : env.room = true → env.parks = true →
      (k.flash b).seq + 1 < 2 ^ 32 ∧ env.fate.clean part k) :
    (∃ rc, rc ≠ 0 ∧ sealAndWrite c part k env wrap = (some rc, k)) ∨
    Wrote part k b (nextImage c (k.flash b) wrap k.unlockedKey env.nonce q) env.fate
      (sealAndWrite c part k env wrap) := by
  simp only [sealAndWrite, live, plain]
  cases room : env.room with
  | false => exact .inl ⟨noMemory, by decide, rfl⟩
  | true =>
    cases parks : env.parks with
    | false => exact .inl ⟨-3, by decide, rfl⟩
    | true =>
      obtain ⟨bound, clean⟩ := sound room parks
      refine .inr (putImage_wrote live env (nextImage_good (choose_good chosen)) ?_ chosen clean)
      rw [(nextImage_rest _ _ _ _).2.2.1]
      exact Nat.mod_eq_of_lt bound

end Writing

end Ubiqos.Keys
