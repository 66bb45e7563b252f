import Ubiqos.Keys.Kept

/-!
The store as a map that both the passphrase and the newest key file open. The
wrapping of the key goes forward with every write, so the token that was made
last opens the copy that is live now.
-/

namespace Ubiqos.Keys

open Function Machine

def Op.wrap (c : Crypto) (k : Board) : Op → WrapChange
  | .unattendedOn _ token wrapNonce =>
    let sealed := c.seal (c.fileKey token) wrapNonce k.unlockedKey
    .put wrapNonce sealed.2 sealed.1
  | .unattendedOff _ => .out
  | _ => .leave

inductive Tries (c : Crypto) (k : Board) (b : Bool) : Op → Key → Prop
  | pass {env : Env} {space : Bool} {salt : Salt} {given : List Byte} :
      Tries c k b (.unlock env space salt given) (derive c (k.flash b) given)
  | file {space : Bool} {token : Token} {key : Key}
      (unwraps : c.unseal (c.fileKey token) (k.flash b).wrapNonce (k.flash b).wrapped
        (k.flash b).wrapTag = some key) : Tries c k b (.unlockFile space token) key

/-- After a call the store is open with the key it was open with, or with one
that has just opened the live copy. -/
def OpenAfter (c : Crypto) (k : Board) (op : Op) (t : Board) : Prop :=
  t.plain.isSome = true →
    (k.plain.isSome = true ∧ t.unlockedKey = k.unlockedKey) ∨
    ∃ b, k.live = some b ∧ Tries c k b op t.unlockedKey ∧
      (c.unseal t.unlockedKey (k.flash b).nonce (k.flash b).sealed (k.flash b).tag).isSome = true

/-- How a call can end for the two sectors: it leaves them alone, writes one of
an open store, makes the first copy, reads them again or erases both. -/
inductive Touch (c : Crypto) (part : Part) (k : Board) (op : Op) : Outcome → Prop
  | quiet {rc : Option Int} {t : Board} (flash : t.flash = k.flash) (live : t.live = k.live)
      (isOpen : OpenAfter c k op t) (idle : ∀ m : Ledger, m.after part op rc = m) :
      Touch c part k op (rc, t)
  | sealed {p q : Plain} {env : Env} {out : Outcome} (isOpen : k.plain = some p)
      (write : env.room = true → env.parks = true → op.write k = some env)
      (isFate : op.fate = env.fate) (zero : op.success = 0)
      (pass : ∀ m : Ledger, (op.effect m).pass = m.pass)
      (returned : out.1 = (sealAndWrite c part { k with plain := some q } env (op.wrap c k)).1)
      (flash : out.2.flash =
        (sealAndWrite c part { k with plain := some q } env (op.wrap c k)).2.flash)
      (live : out.2.live =
        (sealAndWrite c part { k with plain := some q } env (op.wrap c k)).2.live)
      (key : out.2.plain.isSome = true → out.2.unlockedKey = k.unlockedKey) :
      Touch c part k op out
  | created {env : Env} {salt : Salt} {pass : List Byte} (isUnlock : op = .unlock env true salt pass)
      (bare : k.live = none) (shut : k.plain = none) (given : pass ≠ [])
      (write : op.write k = some env) :
      Touch c part k op (putImage part { k with unlockedKey := fun _ => 0 } env false
        (firstImage c pass salt env.nonce) 1
        (fun k => { k with
          plain := some emptyPlain, unlockedKey := c.pbkdf2 pass salt keysRounds }))
  | booted (isReboot : op = .reboot) : Touch c part k op (none, boot k.flash)
  | destroyed (isDestroy : op = .destroy true) :
      Touch c part k op (some 0, { keysLock k with flash := fun _ => blank, live := none })

structure Unwraps (c : Crypto) (s : Store) (token : Token) (key : Key) : Prop where
  has : copyHasWrap s = true
  opens : c.unseal (c.fileKey token) s.wrapNonce s.wrapped s.wrapTag = some key

def Wrapped (c : Crypto) (k : Board) (m : Ledger) : Prop :=
  ∀ token ∈ m.token, ∃ b ∈ k.live, ∃ pass ∈ m.pass,
    Unwraps c (k.flash b) token (derive c (k.flash b) pass)

def Uncut (op : Op) : Prop := ∀ pages, op.fate ≠ .cut pages

instance (op : Op) : Decidable (Uncut op) := by
  cases fate : op.fate with
  | takes => exact isTrue (by simp [Uncut, fate])
  | fails left => exact isTrue (by simp [Uncut, fate])
  | cut pages => exact isFalse (by simp [Uncut, fate])

def OpensWith (c : Crypto) (flash : Flash) (token : Token) (m : Map) : Prop :=
  ∃ p, lookup p = m ∧ (keysUnlockFile c (boot flash) true token).1 = some 0 ∧
    (keysUnlockFile c (boot flash) true token).2.plain = some p

section Images
variable {c : Crypto} {p : Plain} {live : Store} {key : Key} {nonce : Nonce}

theorem nextImage_leave {token : Token} {inner : Key} (unwraps : Unwraps c live token inner) :
    Unwraps c (nextImage c live .leave key nonce p) token inner := by
  have has := unwraps.has
  have magic : live.wrapMagic = keysWrapped := by
    simp only [copyHasWrap, Bool.decide_and, Bool.and_eq_true, decide_eq_true_eq] at has
    exact has.2
  constructor
  · simp only [nextImage, WrapChange.apply, has, if_true]
    simp [copyHasWrap, magic]
  · simp only [nextImage, WrapChange.apply, has, if_true]
    exact unwraps.opens

theorem nextImage_put (token : Token) (wrapNonce : Nonce) (inner : Key) :
    Unwraps c (nextImage c live (.put wrapNonce (c.seal (c.fileKey token) wrapNonce inner).2
      (c.seal (c.fileKey token) wrapNonce inner).1) key nonce p) token inner := by
  constructor
  · rfl
  · exact unseal_seal c _ wrapNonce inner

end Images

section Steps
variable {c : Crypto} {part : Part} {k : Board} {b : Bool} {pass : List Byte} {p q : Plain}
  {m : Ledger} {op : Op}

theorem restore_copies (out : Outcome) : (restore p out).1 = out.1 ∧
    (restore p out).2.flash = out.2.flash ∧ (restore p out).2.live = out.2.live ∧
    (restore p out).2.unlockedKey = out.2.unlockedKey := by
  rcases out with ⟨rc, t⟩
  cases rc with
  | none => exact ⟨rfl, rfl, rfl, rfl⟩
  | some rc =>
    by_cases zero : rc = 0
    · subst zero
      exact ⟨rfl, rfl, rfl, rfl⟩
    · rw [restore_failed zero]
      exact ⟨rfl, rfl, rfl, rfl⟩

theorem restore_open {out : Outcome} (returned : out.1 = none) : restore p out = out := by
  rcases out with ⟨rc, t⟩
  cases returned
  rfl

variable {rc : Int}

theorem touch_early (failed : rc ≠ op.success) : Touch c part k op (some rc, k) :=
  .quiet rfl rfl (fun isOpen => .inl ⟨isOpen, rfl⟩) (fun _ => after_early failed)

theorem openAfter_shut {t : Board} (shut : t.plain = none) : OpenAfter c k op t := by
  intro isOpen
  rw [shut] at isOpen
  cases isOpen

theorem touch_opened (live : k.live = some b) {key : Key} (tries : Tries c k b op key)
    {bytes : Bytes plainBytes}
    (opens : c.unseal key (k.flash b).nonce (k.flash b).sealed (k.flash b).tag = some bytes)
    {rc : Option Int} (idle : ∀ m : Ledger, m.after part op rc = m) :
    Touch c part k op (rc, { k with plain := some (plainOf bytes), unlockedKey := key }) := by
  apply Touch.quiet _ _ _ idle
  · rfl
  · rfl
  · intro _
    exact .inr ⟨b, live, tries, by simp [opens]⟩

theorem sealAndWrite_key (env : Env) (wrap : WrapChange) :
    (∃ rc, (sealAndWrite c part k env wrap).1 = some rc ∧
      (sealAndWrite c part k env wrap).2.unlockedKey = k.unlockedKey) ∨
    ((sealAndWrite c part k env wrap).1 = none ∧
      (sealAndWrite c part k env wrap).2.plain = none) := by
  rcases env with ⟨room, parks, nonce, fate⟩
  simp only [sealAndWrite]
  split
  · split
    · exact .inl ⟨_, rfl, rfl⟩
    · split
      · exact .inl ⟨_, rfl, rfl⟩
      · cases fate with
        | takes =>
          simp only [putImage]
          split
          · exact .inl ⟨_, rfl, rfl⟩
          · exact .inl ⟨_, rfl, rfl⟩
        | fails left =>
          simp only [putImage]
          split
          · exact .inl ⟨_, rfl, rfl⟩
          · exact .inl ⟨_, rfl, rfl⟩
        | cut pages => exact .inr ⟨rfl, rfl⟩
  · exact .inl ⟨_, rfl, rfl⟩

variable {env : Env}

theorem changeSlot_touch {i : Fin keySlots} {s : Slot} (isOpen : k.plain = some p)
    (write : env.room = true → env.parks = true → op.write k = some env)
    (isFate : op.fate = env.fate) (zero : op.success = 0)
    (pass : ∀ m : Ledger, (op.effect m).pass = m.pass) (leave : op.wrap c k = .leave) :
    Touch c part k op (changeSlot c part k env p i s) := by
  have key := (@sealAndWrite_key c part { k with plain := some (update p i s) })
    env .leave
  rw [changeSlot_restore]
  obtain ⟨returned, flash, live, kept⟩ := restore_copies (p := p)
    (sealAndWrite c part { k with plain := some (update p i s) } env .leave)
  rw [← leave] at key returned flash live kept ⊢
  apply Touch.sealed isOpen write isFate zero pass returned flash live
  intro open'
  rcases key with ⟨_, _, same⟩ | ⟨gone, shut⟩
  · exact kept.trans same
  · rw [restore_open gone, shut] at open'
    cases open'

theorem unattended_touch (write : ∀ p, k.plain = some p → env.room = true →
      env.parks = true → op.write k = some env)
    (isFate : op.fate = env.fate) (zero : op.success = 0)
    (pass : ∀ m : Ledger, (op.effect m).pass = m.pass) :
    Touch c part k op
      (if k.plain.isNone then (some (-5), k) else sealAndWrite c part k env (op.wrap c k)) := by
  cases isOpen : k.plain with
  | none => exact touch_early (by rw [zero]; decide)
  | some p =>
    have whole : { k with plain := some p } = k := by rw [← isOpen]
    apply Touch.sealed (q := p) isOpen (write p isOpen) isFate zero pass
    · rw [whole]
      rfl
    · rw [whole]
      rfl
    · rw [whole]
      rfl
    · intro open'
      rcases (@sealAndWrite_key c part k) env (op.wrap c k) with
        ⟨_, _, same⟩ | ⟨_, shut⟩
      · exact same
      · exact absurd open' (by simp [shut])

theorem unlockFile_touch (space : Bool) (token : Token) :
    Touch c part k (.unlockFile space token) (keysUnlockFile c k space token) := by
  have idle : ∀ (rc : Option Int) (m : Ledger),
      m.after part (.unlockFile space token) rc = m := fun rc m => after_idle rfl rc
  have still : ∀ rc : Option Int, Touch c part k (.unlockFile space token) (rc, k) :=
    fun rc => .quiet rfl rfl (fun isOpen => .inl ⟨isOpen, rfl⟩) (idle rc)
  simp only [keysUnlockFile]
  split
  · exact still _
  · split
    · exact still _
    · rename_i b live
      split
      · exact still _
      · split
        · exact still _
        · rename_i key unwraps
          split
          · exact still _
          · split
            · exact still _
            · rename_i bytes opens
              exact touch_opened live (.file unwraps) opens (idle _)

theorem unlock_touch (env : Env) (space : Bool) (salt : Salt) (given : List Byte) :
    Touch c part k (.unlock env space salt given) (keysUnlock c part k env space salt given) := by
  simp only [keysUnlock]
  split
  · exact touch_early (by simp [Op.success])
  · rename_i given'
    split
    · exact touch_early (by simp [Op.success])
    · rename_i shut
      split
      · exact touch_early (by simp [Op.success, noMemory])
      · rename_i spacious
        obtain rfl : space = true := by simpa using spacious
        split
        · rename_i live
          split
          · exact touch_early (by simp [Op.success, noMemory])
          · rename_i room
            have shut' : k.plain = none := by simpa using shut
            split
            · exact .quiet rfl rfl (openAfter_shut shut')
                (fun _ => after_early (by simp [Op.success]))
            · rename_i parks
              apply Touch.created rfl live shut' given'
              simp only [Bool.not_eq_true', Bool.not_eq_false] at room parks
              simp [Op.write, shut', live, given', room, parks]
        · rename_i b live
          split
          · exact touch_early (by simp [Op.success])
          · rename_i bytes opens
            exact touch_opened live .pass opens (fun m => after_early (by simp [Op.success]))

theorem set_touch (env : Env) (name : Name) (value : List Byte) :
    Touch c part k (.set env name value) (keysSet c part k env name.bytes value) := by
  cases isOpen : k.plain with
  | none =>
    simp only [keysSet, isOpen]
    exact touch_early (by simp [Op.success])
  | some p =>
    simp only [keysSet, isOpen]
    split
    · exact touch_early (by simp [Op.success])
    · rename_i given
      split
      · exact touch_early (by simp [Op.success])
      · rename_i short
        simp only [not_or, Nat.not_lt, Nat.not_le] at given short
        cases target : (slotFor p name.bytes).or (spareSlot p) with
        | none => exact touch_early (by simp [Op.success])
        | some i =>
          apply changeSlot_touch isOpen _ rfl rfl (fun _ => rfl) rfl
          intro room parks
          simp [Op.write, isOpen, given, short, target, room, parks]

theorem remove_touch (env : Env) (name : Name) :
    Touch c part k (.remove env name) (keysRemove c part k env name.bytes) := by
  cases isOpen : k.plain with
  | none =>
    simp only [keysRemove, isOpen]
    exact touch_early (by simp [Op.success])
  | some p =>
    simp only [keysRemove, isOpen]
    cases found : find p name.bytes with
    | none => exact touch_early (by simp [Op.success])
    | some i =>
      apply changeSlot_touch isOpen _ rfl rfl (fun _ => rfl) rfl
      intro room parks
      simp [Op.write, isOpen, found, room, parks]

theorem call_touch (k : Board) (op : Op) : Touch c part k op (call c part k op) := by
  cases op with
  | unlock env space salt given => exact unlock_touch env space salt given
  | unlockFile space token => exact unlockFile_touch space token
  | lock => exact .quiet rfl rfl (openAfter_shut rfl) (fun _ => after_idle rfl _)
  | reboot => exact .booted rfl
  | set env name value => exact set_touch env name value
  | remove env name => exact remove_touch env name
  | unattendedOn env token nonce =>
    have write : ∀ p, k.plain = some p → env.room = true → env.parks = true →
        (Op.unattendedOn env token nonce).write k = some env := by
      intro p isOpen room parks
      simp [Op.write, isOpen, room, parks]
    exact unattended_touch write rfl rfl (fun _ => rfl)
  | unattendedOff env =>
    have write : ∀ p, k.plain = some p → env.room = true → env.parks = true →
        (Op.unattendedOff env).write k = some env := by
      intro p isOpen room parks
      simp [Op.write, isOpen, room, parks]
    exact unattended_touch write rfl rfl (fun _ => rfl)
  | destroy parks =>
    cases parks with
    | false =>
      exact .quiet rfl rfl (openAfter_shut rfl)
        (fun _ => after_early (by simp [Op.success]))
    | true => exact .destroyed rfl

theorem Wrapped.of_same {t : Board} (wrapped : Wrapped c k m) (flash : t.flash = k.flash)
    (live : t.live = k.live) : Wrapped c t m := by
  intro token isToken
  rw [flash, live]
  exact wrapped token isToken

theorem wrote_wrapped (live : k.live = some b) (owner : m.pass = some pass)
    (wrapped : Wrapped c k m) (uncut : Uncut op) (zero : op.success = 0)
    (same : (op.effect m).pass = m.pass) {img : Store}
    (newest : ∀ token ∈ (op.effect m).token, Unwraps c img token (derive c img pass))
    {out : Outcome} (ends : (∃ rc, rc ≠ 0 ∧ out = (some rc, k)) ∨ Wrote part k b img op.fate out) :
    Wrapped c out.2 (m.after part op out.1) := by
  rcases ends with ⟨rc, nonzero, rfl⟩ | wrote
  · simp only
    rw [after_early (by rw [zero]; exact nonzero)]
    exact wrapped
  · generalize isFate : op.fate = fate at wrote
    cases wrote with
    | done chosen =>
      have done : m.after part op (some 0) = op.effect m := by simp [Ledger.after, zero]
      simp only [done]
      intro token isToken
      refine ⟨!b, rfl, pass, same.trans owner, ?_⟩
      simp only [update_self]
      exact newest token isToken
    | failed chosen =>
      rw [after_early (by rw [zero]; decide)]
      intro token isToken
      obtain ⟨b', isLive, unwraps⟩ := wrapped token isToken
      cases live.symm.trans isLive
      refine ⟨b, live, ?_⟩
      simp only [update_other]
      exact unwraps
    | lost few chosen => exact absurd isFate (uncut _)
    | landed many same chosen => exact absurd isFate (uncut _)

theorem sealed_wrapped (inv : Inv c k m.pass m.records) (wrapped : Wrapped c k m)
    (isOpen : k.plain = some p) (isFate : op.fate = env.fate) (uncut : Uncut op)
    (zero : op.success = 0) (same : (op.effect m).pass = m.pass) {wrap : WrapChange}
    (newest : ∀ (b : Bool) (pass : List Byte), k.live = some b → m.pass = some pass →
      k.unlockedKey = derive c (k.flash b) pass → ∀ token ∈ (op.effect m).token,
      Unwraps c (nextImage c (k.flash b) wrap k.unlockedKey env.nonce q) token k.unlockedKey)
    (sound : ∀ b, k.live = some b → env.room = true → env.parks = true →
      (k.flash b).seq + 1 < 2 ^ 32 ∧ env.fate.clean part k) :
    Wrapped c (sealAndWrite c part { k with plain := some q } env wrap).2
      (m.after part op (sealAndWrite c part { k with plain := some q } env wrap).1) := by
  cases owner : m.pass with
  | none =>
    rw [owner] at inv
    generalize m.records = map at inv
    cases inv with
    | bare live chosen shut =>
      rw [isOpen] at shut
      cases shut
  | some pass =>
    rw [owner] at inv
    generalize m.records = map at inv
    cases inv with
    | @store b pass r kept =>
      have key := (kept.opened p isOpen).2
      have ends := (@sealAndWrite_wrote c part { k with plain := some q }) kept.live rfl kept.chosen env wrap
        (fun room parks => ⟨(sound b kept.live room parks).1,
          clean_plain _ _ (sound b kept.live room parks).2⟩)
      rw [← isFate] at ends
      apply wrote_wrapped (k := { k with plain := some q }) kept.live owner
        (wrapped.of_same rfl rfl) uncut zero same _ ends
      intro token isToken
      rw [nextImage_key, ← key]
      exact newest b pass kept.live owner key token isToken

theorem Inv.live_chosen {owner : Option (List Byte)} {map : Map} (inv : Inv c k owner map) :
    choose k.flash = k.live := by
  cases inv with
  | bare live chosen shut => rw [live, chosen]
  | store kept => rw [kept.live, kept.chosen]

theorem step_wrapped (inv : Inv c k m.pass m.records) (wrapped : Wrapped c k m)
    (uncut : Uncut op) (sound : Sound part k op) :
    Wrapped c (call c part k op).2 (m.after part op (call c part k op).1) := by
  have touch := (@call_touch c part) k op
  generalize call c part k op = out at touch
  cases touch with
  | quiet flash live _ idle =>
    rw [idle]
    exact wrapped.of_same flash live
  | booted isReboot =>
    subst isReboot
    rw [after_idle rfl]
    exact wrapped.of_same rfl inv.live_chosen
  | sealed isOpen write isFate zero same returned flash live _ =>
    rw [returned]
    apply Wrapped.of_same _ flash live
    apply sealed_wrapped inv wrapped isOpen isFate uncut zero (same m)
    · intro b pass isLive owner key token isToken
      cases op with
      | unattendedOn env last nonce =>
        cases isToken
        exact nextImage_put token nonce k.unlockedKey
      | unattendedOff => cases isToken
      | unlock => cases zero
      | destroy => cases isToken
      | unlockFile | lock | reboot | set | remove =>
        obtain ⟨_, isLive', _, owner', unwraps⟩ := wrapped token isToken
        cases isLive.symm.trans isLive'
        cases owner.symm.trans owner'
        apply nextImage_leave
        rw [key]
        exact unwraps
    · intro b isLive room parks
      have clean := sound _ (write room parks)
      exact ⟨clean.1 b isLive, clean.2⟩
  | @created env salt pass isUnlock bare shut given write =>
    subst isUnlock
    have fresh : copyIsGood (firstImage c pass salt env.nonce) = true := rfl
    rcases env with ⟨room, parks, nonce, fate⟩
    cases fate with
    | takes =>
      simp only [putImage, fresh, if_true, Ledger.after, Op.success, Op.effect]
      intro token isToken
      cases isToken
    | fails left =>
      -- what is left behind is no copy, for there is no live one to rank before it
      have clean := (sound _ write).2
      have rejected : ¬ (copyIsGood left = true ∧
          left.seq = (firstImage c pass salt nonce).seq) := by
        rintro ⟨whole, _⟩
        obtain ⟨_, isLive, _⟩ := clean whole
        rw [bare] at isLive
        cases isLive
      simp only [putImage, if_neg rejected]
      rw [after_early (by simp [Op.success])]
      intro token isToken
      obtain ⟨_, isLive, _⟩ := wrapped token isToken
      rw [bare] at isLive
      cases isLive
    | cut pages => exact absurd rfl (uncut pages)
  | destroyed isDestroy =>
    subst isDestroy
    intro token isToken
    cases isToken

theorem changeSlot_fails {i : Fin keySlots} {s : Slot} (isOpen : k.plain = some p)
     (returned : (changeSlot c part k env p i s).1 = some rc) (failed : rc ≠ 0) :
    (changeSlot c part k env p i s).2.plain = k.plain := by
  rw [changeSlot_restore] at returned ⊢
  generalize sealAndWrite c part { k with plain := some (update p i s) } env .leave = out
    at returned ⊢
  rcases out with ⟨code, t⟩
  cases code with
  | none => cases returned
  | some code =>
    by_cases zero : code = 0
    · subst zero
      cases returned
      exact absurd rfl failed
    · rw [restore_failed zero, isOpen]

theorem keysSet_fails {name value : List Byte}
    (returned : (keysSet c part k env name value).1 = some rc) (failed : rc ≠ 0) :
    (keysSet c part k env name value).2.plain = k.plain := by
  simp only [keysSet] at returned ⊢
  split at returned
  · rfl
  · rename_i p isOpen
    split at returned
    · simp only [*, if_true]
    · split at returned
      · simp only [*, if_false, if_true]
      · rename_i given short
        simp only [given, short, if_false] at returned ⊢
        split at returned
        · simp only [*]
        · exact changeSlot_fails isOpen returned failed

theorem keysRemove_fails {name : List Byte}
    (returned : (keysRemove c part k env name).1 = some rc) (failed : rc ≠ 0) :
    (keysRemove c part k env name).2.plain = k.plain := by
  simp only [keysRemove] at returned ⊢
  split at returned
  · rfl
  · rename_i p isOpen
    split at returned
    · rfl
    · exact changeSlot_fails isOpen returned failed

theorem Wrapped.opens (inv : Inv c k m.pass m.records) (wrapped : Wrapped c k m) {token : Token}
    (isToken : m.token = some token) : OpensWith c k.flash token m.records := by
  obtain ⟨b, isLive, pass, owner, unwraps⟩ := wrapped token isToken
  rw [owner] at inv
  generalize m.records = map at inv
  cases inv with
  | @store b pass p kept =>
    cases kept.live.symm.trans isLive
    refine ⟨p, rfl, ?_⟩
    simp only [keysUnlockFile, Keys.boot, kept.chosen, unwraps.has, unwraps.opens,
      kept.carries.opens, plainOf_bytes, Option.isSome_none, Bool.not_true, Bool.false_eq_true,
      if_false, and_self]

theorem Wrapped.refuses (wrapped : Wrapped c k m) {token : Token} (isToken : m.token = some token)
    (reads : Bool) : Refuses c k m (.unlockFile reads token) := by
  obtain ⟨b, isLive, pass, owner, unwraps⟩ := wrapped token isToken
  intro b' isLive' own isOwn key opened wrong
  cases isLive.symm.trans isLive'
  cases owner.symm.trans isOwn
  cases unwraps.opens.symm.trans opened
  exact absurd rfl wrong

end Steps

section Runs
variable {c : Crypto} {part : Part}

def AllowedWhole (c : Crypto) (part : Part) (s : Board × Ledger) (op : Op) : Prop :=
  Allowed c part s op ∧ Uncut op

instance (s : Board × Ledger) (op : Op) : Decidable (AllowedWhole c part s op) :=
  inferInstanceAs (Decidable (_ ∧ _))

theorem run_wrapped {ops : List Op}
    (allowed : Along (move c part) (AllowedWhole c part) erased ops) :
    Inv c (run c part ops).1 (run c part ops).2.pass (run c part ops).2.records ∧
      Wrapped c (run c part ops).1 (run c part ops).2 := by
  apply along_invariant
    (fun s : Board × Ledger => Inv c s.1 s.2.pass s.2.records ∧ Wrapped c s.1 s.2) allowed
  · refine ⟨.bare blank_chosen blank_chosen rfl, ?_⟩
    intro token isToken
    cases isToken
  · rintro ⟨k, m⟩ op _ ⟨⟨refuses, sound⟩, uncut⟩ ⟨inv, wrapped⟩
    exact ⟨step_inv inv refuses sound, step_wrapped inv wrapped uncut sound⟩

/-- An open store gives what was set last; a call that fails changes nothing of
that; and the next boot gives it back, to the passphrase and to the token. -/
theorem run_keeps_map {ops : List Op}
    (allowed : Along (move c part) (AllowedWhole c part) erased ops) :
    (∀ p, (run c part ops).1.plain = some p → lookup p = (run c part ops).2.records) ∧
    (∀ env name value rc, (keysSet c part (run c part ops).1 env name value).1 = some rc →
      rc ≠ 0 → (keysSet c part (run c part ops).1 env name value).2.plain =
        (run c part ops).1.plain) ∧
    (∀ env name rc, (keysRemove c part (run c part ops).1 env name).1 = some rc →
      rc ≠ 0 → (keysRemove c part (run c part ops).1 env name).2.plain =
        (run c part ops).1.plain) ∧
    (∀ pass, (run c part ops).2.pass = some pass →
      Opens c part (run c part ops).1.flash pass (run c part ops).2.records) ∧
    ∀ token, (run c part ops).2.token = some token →
      OpensWith c (run c part ops).1.flash token (run c part ops).2.records := by
  obtain ⟨inv, wrapped⟩ := run_wrapped allowed
  refine ⟨?_, ?_, ?_, ?_, ?_⟩
  · intro p isOpen
    generalize run c part ops = s at inv isOpen
    rcases s with ⟨k, records, owner, token⟩
    simp only at inv isOpen ⊢
    cases inv with
    | bare live chosen shut =>
      rw [isOpen] at shut
      cases shut
    | store kept => rw [(kept.opened p isOpen).1]
  · intro env name value rc returned failed
    exact keysSet_fails returned failed
  · intro env name rc returned failed
    exact keysRemove_fails returned failed
  · intro pass owner
    rw [owner] at inv
    exact inv.opens
  · intro token isToken
    exact wrapped.opens inv isToken

end Runs

def twoWords : Store :=
  Store.tear ⟨keysMagic, keysFormat, 3, keysRounds, fun _ => 3, fun _ => 7, fun _ => 0, fun _ => 0,
    0, fun _ => 0, fun _ => 0, fun _ => 0⟩ 8

def failsAfterTwo : Env := ⟨true, true, fun _ => 9, .fails twoWords⟩

def changedTwice : List Op :=
  [.unlock wholly true (fun _ => 3) [1, 2], .unattendedOn wholly (fun _ => 8) (fun _ => 4),
    .set ⟨true, true, fun _ => 9, .fails blank⟩ shared [5], .set wholly shared [6], .lock,
    .unlockFile true (fun _ => 8)]

theorem run_keeps_map_changed :
    OpensWith bare (run bare .f4 changedTwice).1.flash (fun _ => 8)
      (run bare .f4 changedTwice).2.records := by
  have shut : Along (move bare .f4) (AllowedWhole bare .f4) erased (changedTwice.take 5) := by
    simp only [changedTwice, List.take, Along]
    refine ⟨?_, ?_, ?_, ?_, ?_, trivial⟩ <;> decide +kernel
  have token : (run bare .f4 (changedTwice.take 5)).2.token = some (fun _ => 8) := by
    decide +kernel
  have last : AllowedWhole bare .f4 (run bare .f4 (changedTwice.take 5))
      (.unlockFile true (fun _ => 8)) :=
    ⟨⟨(run_wrapped shut).2.refuses token true, by decide +kernel⟩, by decide +kernel⟩
  have allowed : Along (move bare .f4) (AllowedWhole bare .f4) erased changedTwice :=
    (@along_append _ _ _ _ _ (changedTwice.take 5) (changedTwice.drop 5)).mpr
      ⟨shut, last, trivial⟩
  exact (run_keeps_map allowed).2.2.2.2 _ (by decide +kernel)

/-- A set fails its check and says so, with two words of the new copy written.
They pass for a copy with the highest number of all, and the store is lost. -/
theorem failed_set_unopenable :
    (keysSet bare .f4 (run bare .f4 [.unlock wholly true (fun _ => 3) [1, 2]]).1 failsAfterTwo
      shared.bytes [5]).1 = some (-4) ∧
    ¬ Opens bare .f4 (run bare .f4 [.unlock wholly true (fun _ => 3) [1, 2],
        .set failsAfterTwo shared [5]]).1.flash [1, 2]
      (run bare .f4 [.unlock wholly true (fun _ => 3) [1, 2]]).2.records := by
  have refused : (keysUnlock bare .f4 (boot (run bare .f4 [.unlock wholly true (fun _ => 3) [1, 2],
      .set failsAfterTwo shared [5]]).1.flash) wholly true (fun _ => 3) [1, 2]).1 = some (-6) := by
    decide +kernel
  refine ⟨by decide +kernel, ?_⟩
  intro opens
  obtain ⟨p, _, opened, _⟩ := opens wholly (fun _ => 3)
  rw [refused] at opened
  cases opened

end Ubiqos.Keys
