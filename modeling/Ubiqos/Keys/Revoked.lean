import Ubiqos.Keys.Reopened

/-!
Tokens that are taken back. A write goes to the copy that is not live, so what
was live before it stays in flash, and with it the wrapping it had.
-/

namespace Ubiqos.Keys

open Function Machine

def Yields (c : Crypto) (s : Store) (token : Token) (key : Key) : Prop :=
  c.unseal (c.fileKey token) s.wrapNonce s.wrapped s.wrapTag = some key

/-- A copy that the store wrote: its wrapping is of the store's key, under a token
that was handed out, or it is zeroes. -/
structure Made (c : Crypto) (s : Store) (issued : List Token) (key : Key) : Prop where
  wrap : copyHasWrap s = true → ∃ token ∈ issued, Yields c s token key
  none : copyHasWrap s = false →
    s.wrapNonce = (fun _ => 0) ∧ s.wrapped = (fun _ => 0) ∧ s.wrapTag = fun _ => 0

def Op.handsOut : Op → Option Int → List Token
  | .unattendedOn _ token _, some 0 => [token]
  | _, _ => []

abbrev Traced := (Board × Ledger) × List Token

def traced (c : Crypto) (part : Part) (s : Traced) (op : Op) : Traced :=
  (move c part s.1 op, s.2 ++ op.handsOut (call c part s.1.1 op).1)

def trace (c : Crypto) (part : Part) (ops : List Op) : Traced :=
  ops.foldl (traced c part) (erased, [])

def Fate.sure : Fate → Prop
  | .takes => True
  | .fails left => copyIsGood left = false
  | .cut _ => False

instance : (fate : Fate) → Decidable fate.sure
  | .takes => isTrue trivial
  | .fails _ => inferInstanceAs (Decidable (_ = _))
  | .cut _ => isFalse id

def AllowedSure (c : Crypto) (s : Traced) (op : Op) : Prop :=
  Refuses c s.1.1 s.1.2 op ∧ ∀ env ∈ op.write s.1.1, env.fate.sure

instance (c : Crypto) (s : Traced) (op : Op) : Decidable (AllowedSure c s op) :=
  inferInstanceAs (Decidable (_ ∧ _))

structure Marked (c : Crypto) (k : Board) (m : Ledger) (issued : List Token) : Prop where
  good : ∀ b, k.live = some b → copyIsGood (k.flash b) = true
  bare : k.live = none → ∀ b, copyIsGood (k.flash b) = false
  shut : k.live = none → k.plain = none
  same : ∀ b, k.live = some b → ∀ b', copyIsGood (k.flash b') = true →
    (k.flash b').salt = (k.flash b).salt ∧ (k.flash b').rounds = (k.flash b).rounds
  made : ∀ b, k.live = some b → ∃ pass, m.pass = some pass ∧
    ∀ b', copyIsGood (k.flash b') = true →
      Made c (k.flash b') issued (derive c (k.flash b) pass)
  key : k.plain.isSome = true → ∀ b, k.live = some b → ∀ pass, m.pass = some pass →
    k.unlockedKey = derive c (k.flash b) pass

section Images
variable {c : Crypto} {p : Plain} {live : Store} {key : Key} {nonce : Nonce} {issued : List Token}

theorem noWrap_made (s : Store) (inner : Key) : Made c (noWrap s) issued inner := by
  constructor
  · intro has
    simp [copyHasWrap, noWrap, keysWrapped] at has
  · intro _
    exact ⟨rfl, rfl, rfl⟩

variable {inner : Key}

theorem Made.of_wrap {s t : Store} (made : Made c t issued inner)
    (has : copyHasWrap s = copyHasWrap t) (same : s.wrapNonce = t.wrapNonce ∧
      s.wrapped = t.wrapped ∧ s.wrapTag = t.wrapTag) : Made c s issued inner := by
  obtain ⟨wrapNonce, wrapped, wrapTag⟩ := same
  constructor
  · intro isWrap
    obtain ⟨token, member, yields⟩ := made.wrap (has ▸ isWrap)
    refine ⟨token, member, ?_⟩
    simp only [Yields, wrapNonce, wrapped, wrapTag]
    exact yields
  · intro isWrap
    rw [wrapNonce, wrapped, wrapTag]
    exact made.none (has ▸ isWrap)

theorem Made.more {s : Store} (made : Made c s issued inner) (tokens : List Token) :
    Made c s (issued ++ tokens) inner := by
  constructor
  · intro has
    obtain ⟨token, member, yields⟩ := made.wrap has
    exact ⟨token, List.mem_append_left tokens member, yields⟩
  · exact made.none

theorem nextImage_made_leave (made : Made c live issued inner) :
    Made c (nextImage c live .leave key nonce p) issued inner := by
  cases has : copyHasWrap live with
  | true =>
    have magic : live.wrapMagic = keysWrapped := by
      simp only [copyHasWrap, Bool.decide_and, Bool.and_eq_true, decide_eq_true_eq] at has
      exact has.2
    apply made.of_wrap
    · simp only [nextImage, WrapChange.apply, has, if_true]
      simp [copyHasWrap, magic]
    · simp only [nextImage, WrapChange.apply, has, if_true, and_self]
  | false =>
    apply (noWrap_made (c := c) live inner).of_wrap
    · simp only [nextImage, WrapChange.apply, has, Bool.false_eq_true, if_false]
      simp [copyHasWrap, noWrap, keysWrapped]
    · simp only [nextImage, WrapChange.apply, has, Bool.false_eq_true, if_false, and_self]

theorem nextImage_made_out (inner : Key) :
    Made c (nextImage c live .out key nonce p) issued inner := by
  apply (noWrap_made (c := c) live inner).of_wrap
  · simp [nextImage, WrapChange.apply, copyHasWrap, noWrap, keysWrapped]
  · exact ⟨rfl, rfl, rfl⟩

theorem nextImage_made_put {token : Token} (member : token ∈ issued) (wrapNonce : Nonce)
    (inner : Key) : Made c (nextImage c live (.put wrapNonce
      (c.seal (c.fileKey token) wrapNonce inner).2 (c.seal (c.fileKey token) wrapNonce inner).1)
      key nonce p) issued inner := by
  constructor
  · intro _
    exact ⟨token, member, unseal_seal c _ wrapNonce inner⟩
  · intro has
    cases has

end Images

section Steps
variable {c : Crypto} {part : Part} {k : Board} {b : Bool} {p : Plain} {m : Ledger} {op : Op}
  {issued : List Token}

theorem sealAndWrite_sure (live : k.live = some b) (isOpen : k.plain = some p)
    (good : copyIsGood (k.flash b) = true) (env : Env) (wrap : WrapChange)
    (sure : env.room = true → env.parks = true → env.fate.sure) :
    (∃ rc, rc ≠ 0 ∧ sealAndWrite c part k env wrap = (some rc, k)) ∨
    sealAndWrite c part k env wrap = (some 0, { k with
      flash := update k.flash (!b) (nextImage c (k.flash b) wrap k.unlockedKey env.nonce p)
      live := some (!b) }) ∨
    ∃ left, copyIsGood left = false ∧
      sealAndWrite c part k env wrap = (some (-4), { k with flash := update k.flash (!b) left }) := by
  rcases env with ⟨room, parks, nonce, fate⟩
  simp only [sealAndWrite, live, isOpen]
  cases room with
  | false => exact .inl ⟨noMemory, by decide, rfl⟩
  | true =>
    cases parks with
    | false => exact .inl ⟨-3, by decide, rfl⟩
    | true =>
      cases fate with
      | takes =>
        have whole := (@nextImage_good c p _ wrap k.unlockedKey nonce) good
        simp only [putImage, whole, Bool.not_true, Bool.false_eq_true, if_false, if_true, id]
        exact .inr (.inl (by rw [isOpen]))
      | fails left =>
        have bad : copyIsGood left = false := sure rfl rfl
        simp only [putImage, bad, Bool.not_true, Bool.false_eq_true, if_false, false_and]
        exact .inr (.inr ⟨left, bad, by rw [live, isOpen]⟩)
      | cut pages => exact absurd (sure rfl rfl) id

theorem after_pass (same : (op.effect m).pass = m.pass) (rc : Option Int) :
    (m.after part op rc).pass = m.pass := by
  cases rc <;> simp only [Ledger.after] <;> split <;> first | exact same | rfl

theorem tried_key (refuses : Refuses c k m op) (live : k.live = some b) {pass : List Byte}
    (owner : m.pass = some pass) {key : Key} (tries : Tries c k b op key)
    (opens : (c.unseal key (k.flash b).nonce (k.flash b).sealed (k.flash b).tag).isSome = true) :
    key = derive c (k.flash b) pass := by
  by_contra other
  cases tries with
  | pass =>
    rw [refuses b live pass owner other] at opens
    cases opens
  | file unwraps =>
    rw [refuses b live pass owner key unwraps other] at opens
    cases opens

theorem Marked.quiet (marked : Marked c k m issued) (refuses : Refuses c k m op) {t : Board}
    (flash : t.flash = k.flash) (live : t.live = k.live) (isOpen : OpenAfter c k op t)
    (tokens : List Token) : Marked c t m (issued ++ tokens) := by
  constructor
  · intro b isLive
    rw [flash]
    exact marked.good b (live ▸ isLive)
  · intro bare
    rw [flash]
    exact marked.bare (live ▸ bare)
  · intro bare
    by_contra isPlain
    rcases isOpen (Option.isSome_iff_ne_none.mpr isPlain) with ⟨was, _⟩ | ⟨b, isLive, _⟩
    · rw [marked.shut (live ▸ bare)] at was
      cases was
    · cases bare.symm.trans (live.trans isLive)
  · intro b isLive
    rw [flash]
    exact marked.same b (live ▸ isLive)
  · intro b isLive
    rw [flash]
    obtain ⟨pass, owner, made⟩ := marked.made b (live ▸ isLive)
    exact ⟨pass, owner, fun b' whole => (made b' whole).more tokens⟩
  · intro isPlain b isLive pass owner
    rw [live] at isLive
    rw [flash]
    rcases isOpen isPlain with ⟨was, same⟩ | ⟨b', isLive', tries, opens⟩
    · rw [same]
      exact marked.key was b isLive pass owner
    · cases isLive.symm.trans isLive'
      exact tried_key refuses isLive owner tries opens

theorem Marked.boot (marked : Marked c k m issued) : Marked c (boot k.flash) m issued := by
  have from' : ∀ b, choose k.flash = some b → ∃ b', k.live = some b' ∧
      copyIsGood (k.flash b) = true := by
    intro b chosen
    have whole := choose_good chosen
    cases live : k.live with
    | none =>
      rw [marked.bare live b] at whole
      cases whole
    | some b' => exact ⟨b', rfl, whole⟩
  constructor
  · intro b isLive
    exact choose_good isLive
  · exact choose_none
  · intro _
    rfl
  · intro b isLive b' whole'
    obtain ⟨was, live, whole⟩ := from' b isLive
    have first := marked.same was live b whole
    have second := marked.same was live b' whole'
    exact ⟨second.1.trans first.1.symm, second.2.trans first.2.symm⟩
  · intro b isLive
    obtain ⟨was, live, whole⟩ := from' b isLive
    obtain ⟨pass, owner, made⟩ := marked.made was live
    obtain ⟨salt, rounds⟩ := marked.same was live b whole
    refine ⟨pass, owner, ?_⟩
    intro b' whole'
    have key : derive c (k.flash b) pass = derive c (k.flash was) pass :=
      congrArg₂ (c.pbkdf2 pass) salt rounds
    simp only [Keys.boot, key]
    exact made b' whole'
  · intro isPlain
    cases isPlain

theorem Marked.written (marked : Marked c k m issued) (live : k.live = some b)
    (was : k.plain.isSome = true) {t : Board} {s : Store} {tokens : List Token} {m' : Ledger}
    (pass : m'.pass = m.pass) (flash : t.flash = update k.flash (!b) s)
    (whole : copyIsGood s = true →
      s.salt = (k.flash b).salt ∧ s.rounds = (k.flash b).rounds ∧
      ∀ pass, m.pass = some pass →
        Made c s (issued ++ tokens) (derive c (k.flash b) pass))
    (isLive : t.live = some b ∨ (t.live = some (!b) ∧ copyIsGood s = true))
    (key : t.plain.isSome = true → t.unlockedKey = k.unlockedKey) :
    Marked c t m' (issued ++ tokens) := by
  obtain ⟨own, owner, made⟩ := marked.made b live
  have each : ∀ b', copyIsGood (t.flash b') = true →
      (t.flash b').salt = (k.flash b).salt ∧ (t.flash b').rounds = (k.flash b).rounds ∧
      Made c (t.flash b') (issued ++ tokens) (derive c (k.flash b) own) := by
    intro b' good
    rw [flash] at good ⊢
    by_cases here : b' = !b
    · subst here
      rw [update_self] at good ⊢
      obtain ⟨salt, rounds, made⟩ := whole good
      exact ⟨salt, rounds, made own owner⟩
    · rw [update_of_ne here] at good ⊢
      obtain ⟨salt, rounds⟩ := marked.same b live b' good
      exact ⟨salt, rounds, (made b' good).more tokens⟩
  have chosen : ∀ b', t.live = some b' → copyIsGood (t.flash b') = true := by
    intro b' now
    rcases isLive with still | ⟨moved, good⟩
    · cases now.symm.trans still
      rw [flash, update_other]
      exact marked.good b live
    · cases now.symm.trans moved
      rw [flash, update_self]
      exact good
  have isKey : ∀ b', t.live = some b' →
      derive c (t.flash b') own = derive c (k.flash b) own := by
    intro b' now
    obtain ⟨salt, rounds, _⟩ := each b' (chosen b' now)
    exact congrArg₂ (c.pbkdf2 own) salt rounds
  constructor
  · exact chosen
  · intro bare
    rcases isLive with still | ⟨moved, _⟩
    · cases bare.symm.trans still
    · cases bare.symm.trans moved
  · intro bare
    rcases isLive with still | ⟨moved, _⟩
    · cases bare.symm.trans still
    · cases bare.symm.trans moved
  · intro b' now b'' good
    have first := each b' (chosen b' now)
    have second := each b'' good
    exact ⟨second.1.trans first.1.symm, second.2.1.trans first.2.1.symm⟩
  · intro b' now
    refine ⟨own, pass.trans owner, ?_⟩
    rw [isKey b' now]
    intro b'' good
    exact (each b'' good).2.2
  · intro isPlain b' now pass' owner'
    cases (pass.symm.trans owner').symm.trans owner
    rw [isKey b' now, key isPlain]
    exact marked.key was b live own owner

theorem update_same {flash : Flash} : update flash (!b) (flash (!b)) = flash :=
  update_eq_self (!b) flash

theorem unmade_marked (bare : k.live = none) (shut : k.plain = none)
    (empty : ∀ b, copyIsGood (k.flash b) = false) : Marked c k m issued := by
  constructor
  · intro b isLive
    cases bare.symm.trans isLive
  · intro _
    exact empty
  · intro _
    exact shut
  · intro b isLive
    cases bare.symm.trans isLive
  · intro b isLive
    cases bare.symm.trans isLive
  · intro isPlain
    rw [shut] at isPlain
    cases isPlain

theorem first_marked {flash : Flash} (others : ∀ b, copyIsGood (flash b) = false)
    {given : List Byte} {salt : Salt} {nonce : Nonce} {records : Map} {token : Option Token} :
    Marked c ⟨update flash false (firstImage c given salt nonce), some false, some emptyPlain,
      c.pbkdf2 given salt keysRounds⟩ ⟨records, some given, token⟩ issued := by
  have only : ∀ b, copyIsGood (update flash false (firstImage c given salt nonce) b) = true →
      b = false := by
    intro b good
    cases b with
    | false => rfl
    | true =>
      rw [update_of_ne (by simp), others] at good
      cases good
  constructor
  · intro b isLive
    cases isLive
    rfl
  · intro bare
    cases bare
  · intro bare
    cases bare
  · intro b isLive b' good
    cases isLive
    obtain rfl := only b' good
    exact ⟨rfl, rfl⟩
  · intro b isLive
    refine ⟨given, rfl, ?_⟩
    intro b' good
    obtain rfl := only b' good
    constructor
    · intro has
      cases has
    · intro _
      exact ⟨rfl, rfl, rfl⟩
  · intro _ b isLive pass owner
    cases isLive
    cases owner
    rfl

theorem touch_marked (marked : Marked c k m issued) (refuses : Refuses c k m op)
    (sure : ∀ env ∈ op.write k, env.fate.sure) :
    Marked c (call c part k op).2 (m.after part op (call c part k op).1)
      (issued ++ op.handsOut (call c part k op).1) := by
  have touch := (@call_touch c part) k op
  generalize call c part k op = out at touch
  -- What the call did to flash decides the case, not which call it was.
  cases touch with
  | quiet flash live isOpen idle =>
    rw [idle]
    exact marked.quiet refuses flash live isOpen _
  | booted isReboot =>
    subst isReboot
    rw [after_idle rfl]
    exact (List.append_nil issued).symm ▸ marked.boot
  | @sealed p q env out isOpen write isFate zero same returned flash live key =>
    have was : k.plain.isSome = true := by rw [isOpen]; rfl
    cases isLive : k.live with
    | none =>
      rw [marked.shut isLive] at isOpen
      cases isOpen
    | some b =>
      have pass := (@after_pass part) (same m) out.1
      -- Refused before flash was touched, written whole, or left unreadable.
      rcases (@sealAndWrite_sure c part { k with plain := some q }) isLive
        rfl (marked.good b isLive) env (op.wrap c k)
        (fun room parks => sure env (write room parks)) with
        ⟨rc, nonzero, early⟩ | taken | ⟨left, bad, failed⟩
      · rw [early] at flash live
        apply marked.written isLive was pass (flash.trans update_same.symm) _
          (.inl (live.trans isLive)) key
        intro good
        obtain ⟨salt, rounds⟩ := marked.same b isLive (!b) good
        obtain ⟨own, owner, made⟩ := marked.made b isLive
        refine ⟨salt, rounds, ?_⟩
        intro pass' owner'
        cases owner.symm.trans owner'
        exact (made (!b) good).more _
      · rw [taken] at returned flash live
        apply marked.written isLive was pass flash _
          (.inr ⟨live, nextImage_good (marked.good b isLive)⟩) key
        intro good
        obtain ⟨_, _, _, rounds, salt⟩ := nextImage_rest (c := c) (p := q) (k.flash b)
          (op.wrap c k) k.unlockedKey env.nonce
        refine ⟨salt, rounds, ?_⟩
        intro own owner
        have isKey := marked.key was b isLive own owner
        obtain ⟨own', owner', made⟩ := marked.made b isLive
        cases owner.symm.trans owner'
        rw [returned]
        cases op with
        | unattendedOn env' token nonce =>
          rw [← isKey]
          apply nextImage_made_put
          simp [Op.handsOut]
        | unattendedOff env' => exact nextImage_made_out _
        | unlock => cases zero
        | destroy | unlockFile | lock | reboot | set | remove =>
          exact nextImage_made_leave ((made b (marked.good b isLive)).more _)
      · rw [failed] at flash live
        apply marked.written isLive was pass flash _ (.inl (live.trans isLive)) key
        intro good
        rw [bad] at good
        cases good
  | @created env salt given isUnlock bare shut _ write =>
    subst isUnlock
    rcases env with ⟨room, parks, nonce, fate⟩
    have others := marked.bare bare
    cases fate with
    | takes =>
      have fresh : copyIsGood (firstImage c given salt nonce) = true := rfl
      simp only [putImage, fresh, if_true, Ledger.after, Op.success, Op.effect]
      exact first_marked others
    | fails left =>
      have bad : copyIsGood left = false := sure _ write
      simp only [putImage, bad, Bool.false_eq_true, false_and, if_false]
      rw [after_early (by simp [Op.success])]
      apply unmade_marked
      · exact bare
      · exact shut
      · intro b
        cases b with
        | false => exact bad
        | true => exact others true
    | cut pages => exact absurd (sure _ write) id
  | destroyed isDestroy =>
    have empty : copyIsGood blank = false := tear_early (by decide)
    exact unmade_marked rfl rfl (fun _ => empty)

end Steps

def Op.revokes : Op → Bool
  | .unattendedOn .. | .unattendedOff _ => true
  | _ => false

/-- What the cipher is to refuse of the older tokens: a wrapping of zeroes, and
one that was made for a new token. -/
def Rejects (c : Crypto) (k : Board) (issued : List Token) (op : Op) : Prop :=
  ∀ old ∈ issued, c.unseal (c.fileKey old) (fun _ => 0) (fun _ => 0) (fun _ => 0) ≠
      some k.unlockedKey ∧
    ∀ env token wrapNonce, op = .unattendedOn env token wrapNonce →
      c.unseal (c.fileKey old) wrapNonce
        (c.seal (c.fileKey token) wrapNonce k.unlockedKey).1
        (c.seal (c.fileKey token) wrapNonce k.unlockedKey).2 ≠ some k.unlockedKey

theorem revoked_write {c : Crypto} {part : Part} {k : Board} {m : Ledger} {issued : List Token}
    {op : Op} (marked : Marked c k m issued) (revokes : op.revokes = true)
    (sure : ∀ env ∈ op.write k, env.fate.sure) (done : (call c part k op).1 = some 0) :
    ∃ b p nonce, k.live = some b ∧ k.plain = some p ∧ (step c part k op).flash =
      update k.flash (!b) (nextImage c (k.flash b) (op.wrap c k) k.unlockedKey nonce p) := by
  obtain ⟨env, isCall, write⟩ : ∃ env, call c part k op =
      (if k.plain.isNone then (some (-5), k) else sealAndWrite c part k env (op.wrap c k)) ∧
      (k.plain.isSome = true → env.room = true → env.parks = true → op.write k = some env) := by
    cases op with
    | unattendedOn env token nonce =>
      refine ⟨env, rfl, ?_⟩
      intro isPlain room parks
      simp [Op.write, isPlain, room, parks]
    | unattendedOff env =>
      refine ⟨env, rfl, ?_⟩
      intro isPlain room parks
      simp [Op.write, isPlain, room, parks]
    | unlock | unlockFile | lock | reboot | set | remove | destroy => cases revokes
  rw [step]
  rw [isCall] at done ⊢
  cases isOpen : k.plain with
  | none =>
    rw [isOpen] at done
    cases done
  | some p =>
    simp only [isOpen, Option.isNone_some, Bool.false_eq_true, if_false] at done ⊢
    cases isLive : k.live with
    | none =>
      rw [marked.shut isLive] at isOpen
      cases isOpen
    | some b =>
      rcases (@sealAndWrite_sure c part) isLive isOpen (marked.good b isLive) env
        (op.wrap c k)
        (fun room parks => sure env (write (by rw [isOpen]; rfl) room parks)) with
        ⟨rc, nonzero, early⟩ | taken | ⟨left, bad, failed⟩
      · rw [early] at done
        exact absurd (Option.some.inj done) nonzero
      · exact ⟨b, p, env.nonce, rfl, rfl, by rw [taken]⟩
      · rw [failed] at done
        cases done

section Runs
variable {c : Crypto} {part : Part}

theorem trace_marked {ops : List Op} (allowed : Along (traced c part) (AllowedSure c)
    (erased, []) ops) : Marked c (trace c part ops).1.1 (trace c part ops).1.2 (trace c part ops).2 := by
  apply along_invariant (fun s : Traced => Marked c s.1.1 s.1.2 s.2) allowed
  · exact unmade_marked blank_chosen rfl (fun _ => tear_early (by decide))
  · rintro ⟨⟨k, m⟩, issued⟩ op _ ⟨refuses, sure⟩ marked
    exact touch_marked marked refuses sure

/-- Turning the key file off, or making a new one, takes the older tokens' wrappings
out of flash just when the copy that was live had none. -/
theorem run_revokes {ops : List Op} {op : Op}
    (allowed : Along (traced c part) (AllowedSure c) (erased, []) (ops ++ [op]))
    (revokes : op.revokes = true)
    (rejects : Rejects c (trace c part ops).1.1 (trace c part ops).2 op)
    (done : (call c part (trace c part ops).1.1 op).1 = some 0) :
    (∀ old ∈ (trace c part ops).2, ∀ b, ¬ Yields c ((step c part (trace c part ops).1.1 op).flash b)
      old (trace c part ops).1.1.unlockedKey) ↔
    ∀ b, (trace c part ops).1.1.live = some b →
      copyHasWrap ((trace c part ops).1.1.flash b) = false := by
  have split := along_append.mp allowed
  have marked := trace_marked split.1
  have sure := split.2.1.2
  change ∀ env ∈ op.write (trace c part ops).1.1, env.fate.sure at sure
  generalize trace c part ops = s at marked sure rejects done ⊢
  rcases s with ⟨⟨k, m⟩, issued⟩
  simp only at marked sure rejects done ⊢
  obtain ⟨b, p, nonce, isLive, isOpen, flash⟩ := revoked_write marked revokes sure done
  obtain ⟨pass, owner, made⟩ := marked.made b isLive
  have key := marked.key (by rw [isOpen]; rfl) b isLive pass owner
  have before := made b (marked.good b isLive)
  rw [← key] at before
  rw [flash]
  -- The call wrote the other sector; sector `b` still holds what it held before.
  constructor
  · intro gone b' isLive'
    cases isLive.symm.trans isLive'
    cases has : copyHasWrap (k.flash b) with
    | false => rfl
    | true =>
      obtain ⟨old, member, yields⟩ := before.wrap has
      have still := gone old member b
      rw [update_other] at still
      exact absurd yields still
  · intro bare old member b'
    obtain ⟨zeroes, made'⟩ := rejects old member
    by_cases here : b' = !b
    · subst here
      rw [update_self]
      cases op with
      | unattendedOn env token wrapNonce => exact made' env token wrapNonce rfl
      | unattendedOff env => exact zeroes
      | unlock | unlockFile | lock | reboot | set | remove | destroy => cases revokes
    · obtain rfl : b' = b := by
        cases b <;> cases b' <;> first | rfl | exact absurd rfl here
      rw [update_other]
      obtain ⟨wrapNonce, wrapped, wrapTag⟩ := before.none (bare b' isLive)
      simp only [Yields, wrapNonce, wrapped, wrapTag]
      exact zeroes

end Runs

def offTwice : List Op :=
  [.unlock wholly true (fun _ => 3) [1, 2], .unattendedOn wholly (fun _ => 8) (fun _ => 4),
    .unattendedOff wholly]

theorem run_revokes_twice :
    (trace bare .rp2350 offTwice).2 = [fun _ => 8] ∧
    ∀ old ∈ (trace bare .rp2350 offTwice).2, ∀ b,
      ¬ Yields bare ((step bare .rp2350 (trace bare .rp2350 offTwice).1.1
        (.unattendedOff wholly)).flash b) old (trace bare .rp2350 offTwice).1.1.unlockedKey := by
  have allowed : Along (traced bare .rp2350) (AllowedSure bare) (erased, [])
      (offTwice ++ [.unattendedOff wholly]) := by decide +kernel
  have handed : (trace bare .rp2350 offTwice).2 = [fun _ => 8] := by decide +kernel
  have rejects : Rejects bare (trace bare .rp2350 offTwice).1.1 (trace bare .rp2350 offTwice).2
      (.unattendedOff wholly) := by
    intro old member
    rw [handed, List.mem_singleton] at member
    subst member
    constructor
    · decide +kernel
    · intro env token wrapNonce other
      cases other
  exact ⟨handed, (run_revokes allowed rfl rejects (by decide +kernel)).mpr (by decide +kernel)⟩

/-- It is turned off once: the call returns zero, and the token that was handed out
still opens the wrapping in the sector that was live before. -/
theorem off_yields :
    (call bare .rp2350 (trace bare .rp2350 [.unlock wholly true (fun _ => 3) [1, 2],
      .unattendedOn wholly (fun _ => 8) (fun _ => 4)]).1.1 (.unattendedOff wholly)).1 = some 0 ∧
    (fun _ => 8) ∈ (trace bare .rp2350 [.unlock wholly true (fun _ => 3) [1, 2],
      .unattendedOn wholly (fun _ => 8) (fun _ => 4)]).2 ∧
    Yields bare ((trace bare .rp2350 offTwice).1.1.flash true) (fun _ => 8)
      (trace bare .rp2350 offTwice).1.1.unlockedKey := by
  refine ⟨?_, ?_, ?_⟩
  · decide +kernel
  · decide +kernel
  · unfold Yields
    decide +kernel

end Ubiqos.Keys
