import Ubiqos.Keys.Records
import Ubiqos.Lib.Along

/-!
The store over a whole run. A ledger is kept beside it: what its callers have
been told is in it, the passphrase it was made with and the last token that is
to open it. The live copy always opens to what the ledger says.
-/

namespace Ubiqos.Keys

open Function Machine

abbrev Map := List Byte → Option (List Byte)

structure Ledger where
  records : Map
  pass : Option (List Byte)
  token : Option Token

def Op.effect (m : Ledger) : Op → Ledger
  | .unlock _ _ _ pass => ⟨fun _ => none, some pass, none⟩
  | .set _ name value => { m with records := update m.records name.bytes (some value) }
  | .remove _ name => { m with records := update m.records name.bytes none }
  | .unattendedOn _ token _ => { m with token := some token }
  | .unattendedOff _ => { m with token := none }
  | .destroy _ => ⟨fun _ => none, none, none⟩
  | .unlockFile .. | .lock | .reboot => m

def Op.success : Op → Int
  | .unlock .. => 1
  | _ => 0

def Op.write (k : Board) : Op → Option Env
  | .unlock env space _ pass =>
    if k.plain = none ∧ k.live = none ∧ pass ≠ [] ∧ space ∧ env.room ∧ env.parks then some env
    else none
  | .set env name value =>
    match k.plain with
    | none => none
    | some p =>
      if name.bytes ≠ [] ∧ value ≠ [] ∧ value.length ≤ valueMax ∧
          name.bytes.length < nameMax ∧ ((slotFor p name.bytes).or (spareSlot p)).isSome ∧
          env.room ∧ env.parks then some env
      else none
  | .remove env name =>
    match k.plain with
    | none => none
    | some p => if (find p name.bytes).isSome ∧ env.room ∧ env.parks then some env else none
  | .unattendedOn env _ _ | .unattendedOff env =>
    if k.plain.isSome ∧ env.room ∧ env.parks then some env else none
  | .unlockFile .. | .lock | .reboot | .destroy _ => none

def landed (part : Part) : Fate → Bool
  | .cut pages => 3980 ≤ pages * part.page
  | _ => false

def Op.fate : Op → Fate
  | .unlock env .. | .set env .. | .remove env _ | .unattendedOn env .. | .unattendedOff env =>
    env.fate
  | .unlockFile .. | .lock | .reboot | .destroy _ => .takes

/-- What the ledger says after a call that returned `rc`, or did not return. -/
def Ledger.after (part : Part) (m : Ledger) (op : Op) : Option Int → Ledger
  | some rc => if rc = op.success then op.effect m else m
  | none => if landed part op.fate then op.effect m else m

section Machine
variable (c : Crypto) (part : Part)

def move (s : Board × Ledger) (op : Op) : Board × Ledger :=
  ((call c part s.1 op).2, s.2.after part op (call c part s.1 op).1)

def erased : Board × Ledger := (boot (fun _ => blank), ⟨fun _ => none, none, none⟩)

def run (ops : List Op) : Board × Ledger := ops.foldl (move c part) erased

def Refuses (k : Board) (m : Ledger) : Op → Prop
  | .unlock _ _ _ pass => ∀ b ∈ k.live, ∀ own ∈ m.pass,
      derive c (k.flash b) pass ≠ derive c (k.flash b) own →
      c.unseal (derive c (k.flash b) pass) (k.flash b).nonce (k.flash b).sealed (k.flash b).tag =
        none
  | .unlockFile _ token => ∀ b ∈ k.live, ∀ own ∈ m.pass, ∀ key ∈ c.unseal (c.fileKey token)
      (k.flash b).wrapNonce (k.flash b).wrapped (k.flash b).wrapTag,
      key ≠ derive c (k.flash b) own →
      c.unseal key (k.flash b).nonce (k.flash b).sealed (k.flash b).tag = none
  | _ => True

def Sound (k : Board) (op : Op) : Prop :=
  ∀ env ∈ op.write k, (∀ b ∈ k.live, (k.flash b).seq + 1 < 2 ^ 32) ∧ env.fate.clean part k

/-- One key at most is unwrapped. All there are could not be gone through. -/
local instance oneKey (o : Option (Bytes 32)) (p : Bytes 32 → Prop) [DecidablePred p] :
    Decidable (∀ key ∈ o, p key) := Option.decidableForallMem o

instance (k : Board) (m : Ledger) : (op : Op) → Decidable (Refuses c k m op)
  | .unlock .. => inferInstanceAs (Decidable (∀ b ∈ k.live, ∀ own ∈ m.pass, _ → _ = none))
  | .unlockFile .. =>
    inferInstanceAs (Decidable (∀ b ∈ k.live, ∀ own ∈ m.pass, ∀ key ∈ _, _ → _ = none))
  | .set .. | .remove .. | .unattendedOn .. | .unattendedOff .. | .lock | .reboot | .destroy _ =>
    isTrue trivial

instance (k : Board) (op : Op) : Decidable (Sound part k op) :=
  inferInstanceAs (Decidable (∀ env ∈ op.write k, (∀ b ∈ k.live, _) ∧ env.fate.clean part k))

end Machine

/-- A store is there: the live copy opens with the passphrase to `p`, and so do
the records in memory while it is open. -/
structure Kept (c : Crypto) (k : Board) (b : Bool) (pass : List Byte) (p : Plain) : Prop where
  live : k.live = some b
  chosen : choose k.flash = some b
  given : pass ≠ []
  carries : Carries c (k.flash b) pass p
  tidy : Tidy p
  opened : ∀ q, k.plain = some q → q = p ∧ k.unlockedKey = derive c (k.flash b) pass

inductive Inv (c : Crypto) (k : Board) : Option (List Byte) → Map → Prop
  | bare (live : k.live = none) (chosen : choose k.flash = none) (shut : k.plain = none) :
      Inv c k none (fun _ => none)
  | store {b : Bool} {pass : List Byte} {p : Plain} (kept : Kept c k b pass p) :
      Inv c k (some pass) (lookup p)

theorem blank_chosen : choose (fun _ => blank) = none := by
  have bad : copyIsGood blank = false := tear_early (by decide)
  simp [choose, bad]

section Steps
variable {c : Crypto} {part : Part} {k : Board} {b : Bool} {pass : List Byte} {p q : Plain}

theorem Kept.boot (kept : Kept c k b pass p) {flash : Flash} (same : flash b = k.flash b)
    (chosen : choose flash = some b) : Kept c (boot flash) b pass p where
  live := chosen
  chosen := chosen
  given := kept.given
  carries := by
    have carries := kept.carries
    rw [← same] at carries
    exact carries
  tidy := kept.tidy
  opened := by simp [Keys.boot]

theorem Kept.reflash (kept : Kept c k b pass p) {flash : Flash} (same : flash b = k.flash b)
    (chosen : choose flash = some b) : Kept c { k with flash := flash } b pass p where
  live := kept.live
  chosen := chosen
  given := kept.given
  carries := by
    have carries := kept.carries
    rw [← same] at carries
    exact carries
  tidy := kept.tidy
  opened := by
    intro q isOpen
    simp only [same]
    exact kept.opened q isOpen

variable {owner : Option (List Byte)}

theorem Inv.boot {m : Map} (inv : Inv c k owner m) :
    Inv c (boot k.flash) owner m := by
  cases inv with
  | bare live chosen shut => exact .bare chosen chosen rfl
  | store kept => exact .store (kept.boot rfl kept.chosen)

theorem Inv.lock {m : Map} (inv : Inv c k owner m) :
    Inv c (keysLock k) owner m := by
  cases inv with
  | bare live chosen shut => exact .bare live chosen rfl
  | store kept =>
    exact .store ⟨kept.live, kept.chosen, kept.given, kept.carries, kept.tidy, by simp [keysLock]⟩

/-- The end of a call that had `q` in memory while it wrote. -/
def restore (p : Plain) : Outcome → Outcome
  | (some 0, k) => (some 0, k)
  | (some rc, k) => (some rc, { k with plain := some p })
  | (none, k) => (none, k)

theorem changeSlot_restore (env : Env) (i : Fin keySlots) (s : Slot) :
    changeSlot c part k env p i s =
      restore p (sealAndWrite c part { k with plain := some (update p i s) } env .leave) := rfl

theorem restore_failed {rc : Int} (nonzero : rc ≠ 0) (t : Board) :
    restore p (some rc, t) = (some rc, { t with plain := some p }) := by
  cases rc with
  | ofNat n =>
    cases n with
    | zero => exact absurd rfl nonzero
    | succ n => rfl
  | negSucc n => rfl

variable {out : Outcome} {img : Store}

theorem restore_inv (kept : Kept c k b pass p) (isOpen : k.plain = some p) (tidy : Tidy q)
     (carries : Carries c img pass q)
    (key : derive c img pass = derive c (k.flash b) pass) {fate : Fate}
    (ends : (∃ rc, rc ≠ 0 ∧ out = (some rc, { k with plain := some q })) ∨
      Wrote part { k with plain := some q } b img fate out) :
    match (restore p out).1 with
    | some rc => if rc = 0 then Inv c (restore p out).2 (some pass) (lookup q)
        else Inv c (restore p out).2 (some pass) (lookup p)
    | none => Inv c (restore p out).2 (some pass)
        (if landed part fate then lookup q else lookup p) := by
  have isKey := (kept.opened p isOpen).2
  have back : ∀ t : Board, t = { k with plain := some q } → { t with plain := some p } = k := by
    rintro t rfl
    rw [← isOpen]
  -- the image is the live copy now, and carries `q`
  have moved : ∀ (s : Store), SameSeal s img → choose (update k.flash (!b) s) = some (!b) →
      Carries c (update k.flash (!b) s (!b)) pass q ∧
      derive c (update k.flash (!b) s (!b)) pass = derive c (k.flash b) pass := by
    intro s same _
    rw [update_self]
    refine ⟨carries.of_same same, ?_⟩
    rw [← key]
    simp only [derive, same.salt, same.rounds]
  rcases ends with ⟨rc, nonzero, rfl⟩ | wrote
  · rw [restore_failed nonzero, back _ rfl]
    simp only [if_neg nonzero]
    exact .store kept
  · cases wrote with
    | done chosen =>
      obtain ⟨carries', key'⟩ := moved img ⟨rfl, rfl, rfl, rfl, rfl, rfl, rfl, rfl⟩ chosen
      refine Inv.store (b := !b) ⟨rfl, chosen, kept.given, carries', tidy, ?_⟩
      intro r opened
      cases opened
      exact ⟨rfl, isKey.trans key'.symm⟩
    | @failed left chosen =>
      have still := @Kept.reflash _ _ _ _ _ kept (update k.flash (!b) left) update_other chosen
      rw [isOpen] at still
      exact .store still
    | @lost pages torn few chosen =>
      have late : landed part (.cut pages) = false := by simp [landed, few]
      simp only [restore, late]
      exact .store (kept.boot update_other chosen)
    | @landed pages torn many same chosen =>
      have late : Keys.landed part (.cut pages) = true := by simp [Keys.landed, many]
      obtain ⟨carries', _⟩ := moved torn same chosen
      simp only [restore, late, if_true]
      exact .store (b := !b) ⟨chosen, chosen, kept.given, carries', tidy, by simp [Keys.boot]⟩

theorem restore_self (isOpen : k.plain = some p) {fate : Fate}
    (ends : (∃ rc, rc ≠ 0 ∧ out = (some rc, k)) ∨ Wrote part k b img fate out) :
    restore p out = out := by
  rcases ends with ⟨rc, nonzero, rfl⟩ | wrote
  · rw [restore_failed nonzero, ← isOpen]
  · cases wrote with
    | done | lost | landed => rfl
    | failed =>
      rw [restore_failed (by decide), ← isOpen]

theorem clean_plain (fate : Fate) (r : Option Plain) (clean : fate.clean part k) :
    fate.clean part { k with plain := r } := by
  cases fate <;> exact clean

variable {m : Ledger}

theorem after_early {rc : Int} {op : Op} (failed : rc ≠ op.success) :
    m.after part op (some rc) = m := by
  simp [Ledger.after, failed]

theorem after_lost {op : Op} (early : landed part op.fate = false) : m.after part op none = m := by
  simp [Ledger.after, early]

theorem after_landed {op : Op} (late : landed part op.fate = true) :
    m.after part op none = op.effect m := by
  simp [Ledger.after, late]

theorem after_inv (kept : Kept c k b pass p) (own : m.pass = some pass) (same : m.records = lookup p)
    (isOpen : k.plain = some p) (tidy : Tidy q) {op : Op} (zero : op.success = 0)
    (owner : (op.effect m).pass = m.pass) (records : (op.effect m).records = lookup q)
    (carries : Carries c img pass q) (key : derive c img pass = derive c (k.flash b) pass)
     (ends : (∃ rc, rc ≠ 0 ∧ out = (some rc, { k with plain := some q })) ∨
      Wrote part { k with plain := some q } b img op.fate out) :
    Inv c (restore p out).2 (m.after part op (restore p out).1).pass
      (m.after part op (restore p out).1).records := by
  have result := restore_inv kept isOpen tidy carries key ends
  cases returned : (restore p out).1 with
  | none =>
    rw [returned] at result
    simp only [Ledger.after] at result ⊢
    cases late : landed part op.fate with
    | false =>
      rw [late] at result
      simpa [own, same] using result
    | true =>
      rw [late] at result
      simpa [owner, own, records] using result
  | some rc =>
    rw [returned] at result
    simp only [Ledger.after, zero] at result ⊢
    by_cases done : rc = 0
    · simpa [done, owner, own, records] using result
    · simpa [done, own, same] using result

theorem nextImage_key {live : Store} (wrap : WrapChange) (key : Key) (nonce : Nonce) :
    derive c (nextImage c live wrap key nonce p) pass = derive c live pass := by
  obtain ⟨_, _, _, rounds, salt⟩ := nextImage_rest (c := c) (p := p) live wrap key nonce
  exact congrArg₂ (c.pbkdf2 pass) salt rounds

variable {env : Env}

theorem changeSlot_inv (kept : Kept c k b pass p) (own : m.pass = some pass)
    (same : m.records = lookup p) (isOpen : k.plain = some p) {i : Fin keySlots}
    {s : Slot} (tidy : Tidy (update p i s)) {op : Op} (zero : op.success = 0)
    (owner : (op.effect m).pass = m.pass)
    (records : (op.effect m).records = lookup (update p i s)) (isFate : op.fate = env.fate)
    (sound : env.room = true → env.parks = true →
      (k.flash b).seq + 1 < 2 ^ 32 ∧ env.fate.clean part k) :
    Inv c (changeSlot c part k env p i s).2
      (m.after part op (changeSlot c part k env p i s).1).pass
      (m.after part op (changeSlot c part k env p i s).1).records := by
  have carries : Carries c
      (nextImage c (k.flash b) .leave k.unlockedKey env.nonce (update p i s)) pass (update p i s) := by
    rw [(kept.opened p isOpen).2]
    exact nextImage_carries kept.carries.good .leave env.nonce
  have ends := (@sealAndWrite_wrote c part { k with plain := some (update p i s) }) kept.live rfl kept.chosen env .leave
    (fun room parks => ⟨(sound room parks).1, clean_plain _ _ (sound room parks).2⟩)
  rw [← isFate] at ends
  exact after_inv kept own same isOpen tidy zero owner records carries
    (nextImage_key .leave _ env.nonce) ends

theorem rewrap_inv (kept : Kept c k b pass p) (own : m.pass = some pass)
    (same : m.records = lookup p) (isOpen : k.plain = some p) (wrap : WrapChange)
    {op : Op} (zero : op.success = 0) (owner : (op.effect m).pass = m.pass)
    (records : (op.effect m).records = m.records) (isFate : op.fate = env.fate)
    (sound : env.room = true → env.parks = true →
      (k.flash b).seq + 1 < 2 ^ 32 ∧ env.fate.clean part k) :
    Inv c (sealAndWrite c part k env wrap).2
      (m.after part op (sealAndWrite c part k env wrap).1).pass
      (m.after part op (sealAndWrite c part k env wrap).1).records := by
  have carries : Carries c (nextImage c (k.flash b) wrap k.unlockedKey env.nonce p) pass p := by
    rw [(kept.opened p isOpen).2]
    exact nextImage_carries kept.carries.good wrap env.nonce
  have whole : { k with plain := some p } = k := by rw [← isOpen]
  have ends := sealAndWrite_wrote (c := c) kept.live isOpen kept.chosen env wrap sound
  rw [← restore_self isOpen ends]
  rw [← isFate] at ends
  apply after_inv (q := p) kept own same isOpen kept.tidy zero owner (records.trans same) carries
    (nextImage_key wrap _ env.nonce)
  rw [whole]
  exact ends

variable {space : Bool}

theorem create_inv (live : k.live = none) (chosen : choose k.flash = none) (shut : k.plain = none)
    {salt : Salt} {given : List Byte} (some' : given ≠ [])
    (clean : env.fate.clean part k) (none' : m.pass = none) (empty : m.records = fun _ => none)
     (room : env.room = true) (parks : env.parks = true) (spacious : space = true) :
    Inv c (keysUnlock c part k env space salt given).2
      (m.after part (.unlock env space salt given) (keysUnlock c part k env space salt given).1).pass
      (m.after part (.unlock env space salt given)
        (keysUnlock c part k env space salt given).1).records := by
  have bare := choose_none chosen
  have carries := (@firstImage_carries c given) salt env.nonce
  have fresh : ∀ s : Store, copyIsGood s = true →
      choose (update k.flash false s) = some false := by
    intro s good
    apply choose_newer
    · rw [update_self]
      exact good
    · intro other
      rw [update_of_ne (by simp)] at other
      rw [bare] at other
      cases other
  have unmade : ∀ s : Store, copyIsGood s = false → choose (update k.flash false s) = none := by
    intro s bad
    simp [choose, bad, bare true]
  rcases env with ⟨room', parks', nonce, fate⟩
  rcases k with ⟨flash, live', plain', old⟩
  cases room
  cases parks
  cases spacious
  cases live
  cases shut
  have created : keysUnlock c part ⟨flash, none, none, old⟩ ⟨true, true, nonce, fate⟩ true salt
      given = putImage part ⟨flash, none, none, fun _ => 0⟩ ⟨true, true, nonce, fate⟩ false
        (firstImage c given salt nonce) 1
        (fun k => { k with
          plain := some emptyPlain, unlockedKey := c.pbkdf2 given salt keysRounds }) := by
    simp [keysUnlock, some']
  rw [created]
  cases fate with
  | takes =>
    have written : update flash false (firstImage c given salt nonce) false =
        firstImage c given salt nonce := update_self ..
    have kept : Kept c ⟨update flash false (firstImage c given salt nonce), some false,
        some emptyPlain, c.pbkdf2 given salt keysRounds⟩ false given emptyPlain := by
      constructor
      · rfl
      · exact fresh _ carries.good
      · exact some'
      · simp only [written]
        exact carries
      · exact tidy_empty
      · intro q opened
        cases opened
        simp only [written]
        exact ⟨trivial, rfl⟩
    simp only [putImage, carries.good, if_true, Ledger.after, Op.success, Op.effect]
    rw [← lookup_empty]
    exact .store kept
  | fails left =>
    have bad : copyIsGood left = false := by
      cases whole : copyIsGood left with
      | false => rfl
      | true =>
        obtain ⟨_, isLive, _⟩ := clean whole
        cases isLive
    have still : choose (update flash false left) = none := unmade left bad
    have rejected : ¬ (copyIsGood left = true ∧
        left.seq = (firstImage c given salt nonce).seq) := by simp [bad]
    simp only [putImage, if_neg rejected]
    rw [after_early (by simp [Op.success]), none', empty]
    exact .bare rfl still rfl
  | cut pages =>
    simp only [putImage]
    rcases clean with few | many
    · have early : landed part (.cut pages) = false := by
        simp only [landed, decide_eq_false_iff_not]
        omega
      rw [after_lost early, none', empty]
      exact .bare (unmade _ (tear_early few)) (unmade _ (tear_early few)) rfl
    · have late : landed part (.cut pages) = true := by simpa [landed] using many
      have same := tear_late (s := firstImage c given salt nonce) many
      have carries' := carries.of_same same
      have now := fresh _ carries'.good
      have kept : Kept c (boot (update flash false
          ((firstImage c given salt nonce).tear (pages * part.page)))) false given emptyPlain := by
        constructor
        · exact now
        · exact now
        · exact some'
        · simpa [Keys.boot] using carries'
        · exact tidy_empty
        · simp [Keys.boot]
      rw [after_landed late]
      simp only [Op.effect]
      rw [← lookup_empty]
      exact .store kept

theorem after_idle {op : Op} (idle : op.effect m = m) (rc : Option Int) :
    m.after part op rc = m := by
  cases rc <;> simp [Ledger.after, idle]

theorem opened_inv (kept : Kept c k b pass p) {key : Key}
    {bytes : Bytes plainBytes}
    (opens : c.unseal key (k.flash b).nonce (k.flash b).sealed (k.flash b).tag = some bytes)
    (refuses : key ≠ derive c (k.flash b) pass →
      c.unseal key (k.flash b).nonce (k.flash b).sealed (k.flash b).tag = none) :
    Kept c { k with plain := some (plainOf bytes), unlockedKey := key } b pass p := by
  have own : key = derive c (k.flash b) pass := by
    by_contra other
    rw [refuses other] at opens
    cases opens
  subst own
  have same : p.bytes = bytes := Option.some.inj (kept.carries.opens.symm.trans opens)
  refine ⟨kept.live, kept.chosen, kept.given, kept.carries, kept.tidy, ?_⟩
  intro q opened
  cases opened
  rw [← same, plainOf_bytes]
  exact ⟨rfl, rfl⟩

theorem unlock_inv {salt : Salt} {given : List Byte}
    (inv : Inv c k m.pass m.records) (refuses : Refuses c k m (.unlock env space salt given))
    (sound : Sound part k (.unlock env space salt given)) :
    Inv c (keysUnlock c part k env space salt given).2
      (m.after part (.unlock env space salt given) (keysUnlock c part k env space salt given).1).pass
      (m.after part (.unlock env space salt given)
        (keysUnlock c part k env space salt given).1).records := by
  by_cases some' : given = []
  · simp only [keysUnlock, some', if_true]
    rw [after_early (by simp [Op.success])]
    exact inv
  · cases isOpen : k.plain with
    | some q =>
      simp only [keysUnlock, some', isOpen, if_false, Option.isSome_some, if_true]
      rw [after_early (by simp [Op.success])]
      exact inv
    | none =>
      cases spacious : space with
      | false =>
        simp only [keysUnlock, some', isOpen, if_false, Option.isSome_none, Bool.not_false,
          Bool.false_eq_true, if_true]
        rw [after_early (by simp [Op.success, noMemory])]
        exact inv
      | true =>
        subst spacious
        rcases records : m with ⟨records, owner, token⟩
        subst records
        simp only at inv
        cases inv with
        | bare live chosen shut =>
          cases room : env.room with
          | false =>
            simp only [keysUnlock, some', isOpen, live, room, if_false, Option.isSome_none,
              Bool.not_true, Bool.not_false, Bool.false_eq_true, if_true]
            rw [after_early (by simp [Op.success, noMemory])]
            exact .bare live chosen shut
          | true =>
            cases parks : env.parks with
            | false =>
              simp only [keysUnlock, some', isOpen, live, room, parks, if_false,
                Option.isSome_none, Bool.not_true, Bool.not_false, Bool.false_eq_true,
                if_true]
              rw [after_early (by simp [Op.success])]
              exact .bare rfl chosen rfl
            | true =>
              have clean := sound env (by
                simp [Op.write, isOpen, live, some', room, parks])
              exact create_inv live chosen shut some' clean.2 rfl rfl room parks rfl
        | @store b pass p kept =>
          simp only [keysUnlock, some', isOpen, kept.live, if_false, Option.isSome_none,
            Bool.not_true, Bool.false_eq_true]
          cases opens : c.unseal (derive c (k.flash b) given) (k.flash b).nonce
              (k.flash b).sealed (k.flash b).tag with
          | none =>
            rw [after_early (by simp [Op.success])]
            exact .store kept
          | some bytes =>
            have now := opened_inv kept opens (refuses b kept.live pass rfl)
            rw [kept.live] at now
            rw [after_early (by simp [Op.success])]
            exact .store now

theorem unlockFile_inv {token : Token} (inv : Inv c k m.pass m.records)
    (refuses : Refuses c k m (.unlockFile space token)) :
    Inv c (keysUnlockFile c k space token).2 m.pass m.records := by
  cases isOpen : k.plain with
  | some q =>
    simp only [keysUnlockFile, isOpen, Option.isSome_some, if_true]
    exact inv
  | none =>
    rcases records : m with ⟨records, owner, last⟩
    subst records
    simp only at inv ⊢
    cases inv with
    | bare live chosen shut =>
      simp only [keysUnlockFile, isOpen, live, Option.isSome_none, Bool.false_eq_true, if_false]
      exact .bare live chosen shut
    | @store b pass p kept =>
      simp only [keysUnlockFile, isOpen, kept.live, Option.isSome_none, Bool.false_eq_true,
        if_false]
      cases wrap : copyHasWrap (k.flash b) with
      | false => exact .store kept
      | true =>
        simp only [Bool.not_true, Bool.false_eq_true, if_false]
        cases unwraps : c.unseal (c.fileKey token) (k.flash b).wrapNonce (k.flash b).wrapped
            (k.flash b).wrapTag with
        | none => exact .store kept
        | some key =>
          cases spacious : space with
          | false => exact .store kept
          | true =>
            simp only [Bool.not_true, Bool.false_eq_true, if_false]
            cases opens : c.unseal key (k.flash b).nonce (k.flash b).sealed
                (k.flash b).tag with
            | none => exact .store kept
            | some bytes =>
              have now := opened_inv kept opens
                (refuses b kept.live pass rfl key unwraps)
              rw [kept.live] at now
              exact .store now

theorem set_inv {name : Name} {value : List Byte} (inv : Inv c k m.pass m.records)
    (sound : Sound part k (.set env name value)) :
    Inv c (keysSet c part k env name.bytes value).2
      (m.after part (.set env name value) (keysSet c part k env name.bytes value).1).pass
      (m.after part (.set env name value) (keysSet c part k env name.bytes value).1).records := by
  cases isOpen : k.plain with
  | none =>
    simp only [keysSet, isOpen]
    rw [after_early (by simp [Op.success])]
    exact inv
  | some p =>
    simp only [keysSet, isOpen]
    split
    · rw [after_early (by simp [Op.success])]
      exact inv
    · rename_i given
      split
      · rw [after_early (by simp [Op.success])]
        exact inv
      · rename_i short
        simp only [not_or, Nat.not_lt, Nat.not_le] at given short
        obtain ⟨some', holds, fits⟩ := given
        cases target : (slotFor p name.bytes).or (spareSlot p) with
        | none =>
          rw [after_early (by simp [Op.success])]
          exact inv
        | some i =>
          rcases records : m with ⟨records, owner, last⟩
          subst records
          simp only at inv
          cases inv with
          | bare live chosen shut =>
            rw [isOpen] at shut
            cases shut
          | @store b pass r kept =>
            obtain rfl := (kept.opened p isOpen).1
            obtain ⟨tidy, lookups⟩ :=
              set_spec kept.tidy some' short name.ended holds fits target
            have records : (Op.effect ⟨lookup p, some pass, last⟩ (.set env name value)).records =
                lookup (update p i (Slot.of name.bytes value)) := lookups.symm
            apply changeSlot_inv kept rfl rfl isOpen tidy rfl rfl records rfl
            intro room parks
            have clean := sound env (by
              simp [Op.write, isOpen, some', holds, fits, short, target, room, parks])
            exact ⟨clean.1 b kept.live, clean.2⟩

theorem remove_inv {name : Name} (inv : Inv c k m.pass m.records)
    (sound : Sound part k (.remove env name)) :
    Inv c (keysRemove c part k env name.bytes).2
      (m.after part (.remove env name) (keysRemove c part k env name.bytes).1).pass
      (m.after part (.remove env name) (keysRemove c part k env name.bytes).1).records := by
  cases isOpen : k.plain with
  | none =>
    simp only [keysRemove, isOpen]
    rw [after_early (by simp [Op.success])]
    exact inv
  | some p =>
    simp only [keysRemove, isOpen]
    cases found : find p name.bytes with
    | none =>
      rw [after_early (by simp [Op.success])]
      exact inv
    | some i =>
      rcases records : m with ⟨records, owner, last⟩
      subst records
      simp only at inv
      cases inv with
      | bare live chosen shut =>
        rw [isOpen] at shut
        cases shut
      | @store b pass r kept =>
        obtain rfl := (kept.opened p isOpen).1
        obtain ⟨tidy, lookups⟩ := remove_spec kept.tidy found
        have records : (Op.effect ⟨lookup p, some pass, last⟩ (.remove env name)).records =
            lookup (update p i emptySlot) := lookups.symm
        apply changeSlot_inv kept rfl rfl isOpen tidy rfl rfl records rfl
        intro room parks
        have clean := sound env (by simp [Op.write, isOpen, found, room, parks])
        exact ⟨clean.1 b kept.live, clean.2⟩

theorem unattended_inv {op : Op} (wrap : WrapChange)
    (inv : Inv c k m.pass m.records) (zero : op.success = 0)
    (owner : (op.effect m).pass = m.pass) (records : (op.effect m).records = m.records)
    (isFate : op.fate = env.fate) (sound : Sound part k op)
    (write : ∀ p, k.plain = some p → env.room = true → env.parks = true → op.write k = some env) :
    Inv c (if k.plain.isNone then (some (-5), k) else sealAndWrite c part k env wrap : Outcome).2
      (m.after part op
        (if k.plain.isNone then (some (-5), k) else sealAndWrite c part k env wrap : Outcome).1).pass
      (m.after part op
        (if k.plain.isNone then (some (-5), k)
          else sealAndWrite c part k env wrap : Outcome).1).records := by
  cases isOpen : k.plain with
  | none =>
    simp only [Option.isNone_none, if_true]
    rw [after_early (by simp [zero])]
    exact inv
  | some p =>
    simp only [Option.isNone_some, Bool.false_eq_true, if_false]
    cases inv' : m.pass with
    | none =>
      rw [inv'] at inv
      generalize m.records = map at inv
      cases inv with
      | bare live chosen shut =>
        rw [isOpen] at shut
        cases shut
    | some pass =>
      rw [inv'] at inv
      generalize same : m.records = map at inv
      cases inv with
      | @store b pass r kept =>
        obtain rfl := (kept.opened p isOpen).1
        apply rewrap_inv kept inv' same isOpen wrap zero owner records isFate
        intro room parks
        have clean := sound env (write _ isOpen room parks)
        exact ⟨clean.1 b kept.live, clean.2⟩

theorem step_inv {op : Op} (inv : Inv c k m.pass m.records) (refuses : Refuses c k m op)
    (sound : Sound part k op) :
    Inv c (call c part k op).2 (m.after part op (call c part k op).1).pass
      (m.after part op (call c part k op).1).records := by
  cases op with
  | unlock env space salt given => exact unlock_inv inv refuses sound
  | unlockFile space token =>
    rw [after_idle rfl]
    exact unlockFile_inv inv refuses
  | lock =>
    rw [after_idle rfl]
    exact inv.lock
  | reboot =>
    rw [after_idle rfl]
    exact inv.boot
  | set env name value => exact set_inv inv sound
  | remove env name => exact remove_inv inv sound
  | unattendedOn env token nonce =>
    apply unattended_inv _ inv rfl rfl rfl rfl sound
    intro p isOpen room parks
    simp [Op.write, isOpen, room, parks]
  | unattendedOff env =>
    apply unattended_inv _ inv rfl rfl rfl rfl sound
    intro p isOpen room parks
    simp [Op.write, isOpen, room, parks]
  | destroy parks =>
    cases parks with
    | false =>
      simp only [call, keysDestroy, Bool.not_false, if_true]
      rw [after_early (by simp [Op.success])]
      exact inv.lock
    | true => exact .bare rfl blank_chosen rfl

end Steps

end Ubiqos.Keys

/-!
Power lost in a write. The choice at boot reads the header only, which is in
the first page to be programmed; so a copy that was cut off after it is taken
for the newer one, and opens with nothing.
-/

namespace Ubiqos.Keys

open Function Machine

def Opens (c : Crypto) (part : Part) (flash : Flash) (pass : List Byte) (m : Map) : Prop :=
  ∀ env salt, ∃ p, lookup p = m ∧
    (keysUnlock c part (boot flash) env true salt pass).1 = some 0 ∧
    (keysUnlock c part (boot flash) env true salt pass).2.plain = some p

section Boots
variable {c : Crypto} {part : Part} {k : Board} {pass : List Byte} {m : Ledger} {op : Op}

theorem keysUnlock_live {b : Bool} (live : k.live = some b) (env : Env) (space : Bool) (salt : Salt)
    (given : List Byte) : ∃ rc, rc ≠ 1 ∧ (keysUnlock c part k env space salt given).1 = some rc := by
  simp only [keysUnlock, live]
  split
  · exact ⟨-1, by decide, rfl⟩
  · split
    · exact ⟨0, by decide, rfl⟩
    · split
      · exact ⟨noMemory, by decide, rfl⟩
      · split
        · exact ⟨-6, by decide, rfl⟩
        · exact ⟨0, by decide, rfl⟩

theorem Inv.opens {map : Map} (inv : Inv c k (some pass) map) : Opens c part k.flash pass map := by
  cases inv with
  | @store b pass p kept =>
    intro env salt
    refine ⟨p, rfl, ?_⟩
    simp only [keysUnlock, kept.given, Keys.boot, kept.chosen, kept.carries.opens, plainOf_bytes,
      if_false, Option.isSome_none, Bool.not_true, Bool.false_eq_true, and_self]

theorem after_owner (inv : Inv c k m.pass m.records) (owner : m.pass = some pass)
    (keeps : ∀ parks, op ≠ .destroy parks) :
    (m.after part op (call c part k op).1).pass = some pass := by
  cases op with
  | unlock env space salt given =>
    rw [owner] at inv
    generalize m.records = map at inv
    cases inv with
    | store kept =>
      obtain ⟨rc, other, returned⟩ :=
        (@keysUnlock_live c part) kept.live env space salt given
      simp only [call, returned]
      rw [after_early other]
      exact owner
  | destroy parks => exact absurd rfl (keeps parks)
  | unlockFile | lock | reboot | set | remove | unattendedOn | unattendedOff =>
    cases (call c part k _).1 <;> simp only [Ledger.after] <;> split <;> exact owner

theorem after_records (m : Ledger) (rc : Option Int) :
    (m.after part op rc).records = m.records ∨ (m.after part op rc).records = (op.effect m).records := by
  cases rc <;> simp only [Ledger.after] <;> split <;> simp

end Boots

section Runs
variable {c : Crypto} {part : Part}

def Allowed (c : Crypto) (part : Part) (s : Board × Ledger) (op : Op) : Prop :=
  Refuses c s.1 s.2 op ∧ Sound part s.1 op

instance (s : Board × Ledger) (op : Op) : Decidable (Allowed c part s op) :=
  inferInstanceAs (Decidable (_ ∧ _))

theorem run_inv {ops : List Op} (allowed : Along (move c part) (Allowed c part) erased ops) :
    Inv c (run c part ops).1 (run c part ops).2.pass (run c part ops).2.records := by
  apply along_invariant (fun s : Board × Ledger => Inv c s.1 s.2.pass s.2.records) allowed
  · exact .bare blank_chosen blank_chosen rfl
  · rintro ⟨k, m⟩ op _ ⟨refuses, sound⟩ inv
    exact step_inv inv refuses sound

/-- Whatever write the power is lost in, the passphrase opens the records before
it or those after it, when no cut leaves a part of a copy with its header. -/
theorem run_survives_cuts {ops : List Op} {last : Op} {pass : List Byte}
    (allowed : Along (move c part) (Allowed c part) erased (ops ++ [last]))
    (owner : (run c part ops).2.pass = some pass) (keeps : ∀ parks, last ≠ .destroy parks) :
    Opens c part (step c part (run c part ops).1 last).flash pass (run c part ops).2.records ∨
    Opens c part (step c part (run c part ops).1 last).flash pass
      (last.effect (run c part ops).2).records := by
  have before := run_inv (along_append.mp allowed).1
  have after := run_inv allowed
  have moved : run c part (ops ++ [last]) = move c part (run c part ops) last := by
    simp [run]
  rw [moved] at after
  have owner' := (@after_owner _ part) before owner keeps
  simp only [move] at after
  rw [owner'] at after
  rcases (@after_records part last) (run c part ops).2
    (call c part (run c part ops).1 last).1 with same | same
  · rw [same] at after
    exact .inl after.opens
  · rw [same] at after
    exact .inr after.opens

end Runs

def bare : Crypto where
  stream _ _ _ := 0
  tagOf key _ n cipher := fun i =>
    key ⟨i, by omega⟩ + (if h : 300 < n then cipher ⟨300, h⟩ else 0)
  pbkdf2 pass _ _ := fun i => pass.getD i 0
  fileKey token := token

def wholly : Env := ⟨true, true, fun _ => 7, .takes⟩

def cutAfter (pages : Nat) : Env := ⟨true, true, fun _ => 9, .cut pages⟩

def shared : Name := ⟨[0x61], by decide⟩

def oneRecord : List Op :=
  [.unlock wholly true (fun _ => 3) [1, 2], .set wholly shared [5], .remove (cutAfter 0) shared,
    .unlock wholly true (fun _ => 3) [1, 2]]

/-- The power goes while a record is removed, when all of the copy is programmed. -/
theorem run_survives_cuts_removing :
    Opens bare .rp2350 (step bare .rp2350 (run bare .rp2350 oneRecord).1
      (.remove (cutAfter 16) shared)).flash [1, 2] (run bare .rp2350 oneRecord).2.records ∨
    Opens bare .rp2350 (step bare .rp2350 (run bare .rp2350 oneRecord).1
      (.remove (cutAfter 16) shared)).flash [1, 2]
      ((Op.remove (cutAfter 16) shared).effect (run bare .rp2350 oneRecord).2).records := by
  have allowed : Along (move bare .rp2350) (Allowed bare .rp2350) erased
      (oneRecord ++ [.remove (cutAfter 16) shared]) := by decide +kernel
  exact run_survives_cuts allowed (by decide +kernel) (by simp)

/-- The power goes after the first page of it: the passphrase of the store opens
nothing from then on. -/
theorem cut_unopenable :
    (run bare .rp2350 oneRecord).2.pass = some [1, 2] ∧
    ¬ (Opens bare .rp2350 (step bare .rp2350 (run bare .rp2350 oneRecord).1
        (.remove (cutAfter 1) shared)).flash [1, 2] (run bare .rp2350 oneRecord).2.records ∨
      Opens bare .rp2350 (step bare .rp2350 (run bare .rp2350 oneRecord).1
        (.remove (cutAfter 1) shared)).flash [1, 2]
        ((Op.remove (cutAfter 1) shared).effect (run bare .rp2350 oneRecord).2).records) := by
  have refused : (keysUnlock bare .rp2350 (boot (step bare .rp2350 (run bare .rp2350 oneRecord).1
      (.remove (cutAfter 1) shared)).flash) wholly true (fun _ => 3) [1, 2]).1 = some (-6) := by
    decide +kernel
  refine ⟨by decide +kernel, ?_⟩
  rintro (opens | opens) <;> obtain ⟨p, _, opened, _⟩ := opens wholly (fun _ => 3) <;>
    rw [refused] at opened <;> cases opened

end Ubiqos.Keys
