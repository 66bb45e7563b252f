import Ubiqos.Wasm.Calls

/-!
What the host reaches of the guest's memory. Every function checks a range before
it touches it, whatever the guest passes, but for the three that scale a count of
the guest's to a length: the product is cut to 32 bits, the loop's count is not.
-/

namespace Ubiqos.Wasm

open Guarded Guarded.Program

section Rules
variable {κ : Type} {size : Nat} {passed : List Range} {source : Source} {p d n l : Nat}

theorem under_finish (code : Nat) : Under size passed (finish code : Wasi κ α) :=
  under_stop _

theorem under_asks (f : κ → α × κ) : Under size passed (asks f : Wasi κ α) := under_act _

theorem covered_reach (small : size < 2 ^ 32) (checked : ⟨source, p, l⟩ ∈ passed)
    (within : d + n ≤ l) (inside : ∀ range ∈ passed, range.start + range.length ≤ size) :
    Covered passed ⟨source, moved p d, n⟩ := by
  have fits := inside _ checked
  simp only at fits
  have still : moved p d = p + d := Nat.mod_eq_of_lt (by omega)
  refine ⟨_, checked, rfl, ?_, ?_⟩
  · simp only [still]
    omega
  · simp only [still]
    omega

theorem under_fetch (small : size < 2 ^ 32) (checked : ⟨source, p, l⟩ ∈ passed)
    (within : d + n ≤ l) : Under size passed (fetch source p d n : Wasi κ Text) :=
  under_bind (under_touch (covered_reach small checked within)) fun _ => under_act _

theorem under_fetched (small : size < 2 ^ 32) (checked : ⟨source, p, l⟩ ∈ passed)
    (within : d + n ≤ l) {f : Text → Wasi κ α}
    (next : ∀ bytes, bytes.length = n → Under size passed (f bytes)) :
    Under size passed (fetch source p d n >>= f) := by
  intro inside h
  have covered := covered_reach small checked within inside
  exact ⟨covered.fits inside, next _ (by simp) inside h⟩

theorem under_fetchNumber (small : size < 2 ^ 32) (checked : ⟨source, p, l⟩ ∈ passed)
    (within : d + n ≤ l) : Under size passed (fetchNumber source p d n : Wasi κ Nat) :=
  under_bind (under_fetch small checked within) fun _ => under_pure _

theorem under_store (small : size < 2 ^ 32) (checked : ⟨source, p, l⟩ ∈ passed) {bytes : Text}
    (within : d + bytes.length ≤ l) : Under size passed (store source p d bytes : Wasi κ Unit) :=
  under_bind (under_touch (covered_reach small checked within)) fun _ => under_act _

theorem length_bytesOf (n v : Nat) : (bytesOf n v).length = n := by
  induction n generalizing v with
  | zero => rfl
  | succ n ih => simp [bytesOf, ih]

theorem under_storeNumber (small : size < 2 ^ 32) (checked : ⟨source, p, l⟩ ∈ passed) {v : Nat}
    (within : d + n ≤ l) : Under size passed (storeNumber source p d n v : Wasi κ Unit) :=
  under_store small checked (by rw [length_bytesOf]; exact within)

variable {f : Unit → Wasi κ α}

theorem under_checkMem (next : Under size (⟨source, p, n⟩ :: passed) (f ())) :
    Under size passed (checkMem size source p n >>= f) := under_check next

theorem under_early {c : Prop} [Decidable c] {code : Nat}
    (next : Under size passed (f ())) :
    Under size passed (if c then finish code >>= f else f ()) := by
  split
  · exact under_bind (under_finish code) fun _ => next
  · exact next

end Rules

section Calls
variable {κ : Type} {kernel : Kernel κ} {size : Nat} (small : size < 2 ^ 32)
include small

theorem environSizesGet_under (count bufSize : U32) :
    Under size [] (environSizesGet kernel size count bufSize) := by
  unfold environSizesGet
  apply under_checkMem
  apply under_checkMem
  apply under_bind (under_act _)
  intro env
  apply under_bind (under_storeNumber small (.tail _ (.head _)) (by omega))
  intro _
  apply under_bind (under_storeNumber small (.head _) (by omega))
  intro _
  exact under_finish ok

theorem storeOffsets_under {passed : List Range} {source : Source} {vector l : Nat}
    (checked : ⟨source, vector, l⟩ ∈ passed) (texts : List Text) (i start : Nat)
    (within : 4 * (i + texts.length) ≤ l) :
    Under size passed (storeOffsets source vector texts i start : Wasi κ Unit) := by
  induction texts generalizing i start with
  | nil => exact under_pure _
  | cons text rest ih =>
    simp only [List.length_cons] at within
    apply under_bind (under_storeNumber small checked (by omega))
    intro _
    exact ih (i + 1) (start + text.length) (by omega)

theorem environGet_under (env envBuf : U32) : Under size [] (environGet kernel size env envBuf) := by
  unfold environGet
  apply under_bind (under_act _)
  intro texts
  apply under_checkMem
  apply under_checkMem
  apply under_bind (under_store small (.head _) (by simp))
  intro _
  apply under_bind
  · apply storeOffsets_under small (.tail _ (.head _))
    omega
  · intro _
    exact under_finish ok

omit small in
theorem procExit_under (code : U32) : Under size [] (procExit code : Wasi κ Unit) :=
  under_bind (under_act _) fun _ => under_stop _

theorem fdPrestatGet_under (fd prestat : U32) :
    Under size [] (fdPrestatGet size fd prestat : Wasi κ Unit) := by
  unfold fdPrestatGet
  apply under_early
  apply under_checkMem
  apply under_bind (under_storeNumber small (.head _) (by omega))
  intro _
  apply under_bind (under_storeNumber small (.head _) (by omega))
  intro _
  exact under_finish ok

theorem fdPrestatDirName_under (fd path pathLen : U32) :
    Under size [] (fdPrestatDirName size fd path pathLen : Wasi κ Unit) := by
  unfold fdPrestatDirName
  apply under_early
  apply under_early
  apply under_checkMem
  apply under_bind (under_store small (.head _) (by simp))
  intro _
  exact under_finish ok

theorem pathOpen_under (dirfd path pathLen oflags : U32) (rightsBase : BitVec 64)
    (fdflags outFd : U32) :
    Under size [] (pathOpen kernel size dirfd path pathLen oflags rightsBase fdflags outFd) := by
  unfold pathOpen
  apply under_checkMem
  apply under_checkMem
  apply under_early
  apply under_bind (under_fetch small (.tail _ (.head _)) (by omega))
  intro bytes
  apply under_bind (under_act _)
  rintro (_ | name)
  · exact under_finish einval
  · apply under_bind (under_act _)
    intro dir
    have remembered : ∀ fd isDir, Under size
        [⟨.argument 8, outFd.toNat, 4⟩, ⟨.argument 2, path.toNat, pathLen.toNat⟩] (do
          act fun h => ((), rememberKind fd name isDir h)
          storeNumber (.argument 8) outFd.toNat 0 4 fd.toNat
          finish ok : Wasi κ Unit) := by
      intro fd isDir
      apply under_bind (under_act _)
      intro _
      apply under_bind (under_storeNumber small (.head _) (by omega))
      intro _
      exact under_finish ok
    dsimp only
    split
    · apply under_bind (under_asks _)
      intro fd
      exact under_early (remembered fd true)
    · apply under_bind (under_asks _)
      intro fd
      exact under_early (remembered fd false)

omit small in
theorem fdClose_under (fd : U32) : Under size [] (fdClose kernel fd) := by
  unfold fdClose
  apply under_bind (under_act _)
  intro victim
  apply under_bind (under_act _)
  intro _
  apply under_bind (under_asks _)
  intro r
  dsimp only
  split
  · apply under_bind (under_asks _)
    intro _
    exact under_finish _
  · exact under_finish _

theorem fdSeek_under (fd : U32) (offset : BitVec 64) (whence outPos : U32) :
    Under size [] (fdSeek kernel size fd offset whence outPos) := by
  unfold fdSeek
  apply under_bind (under_asks _)
  intro pos
  apply under_early
  apply under_checkMem
  apply under_bind (under_storeNumber small (.head _) (by omega))
  intro _
  exact under_finish ok

theorem fdFdstatGet_under (fd stat : U32) :
    Under size [] (fdFdstatGet size fd stat : Wasi κ Unit) := by
  unfold fdFdstatGet
  apply under_checkMem
  apply under_bind (under_store small (.head _) (by simp))
  intro _
  apply under_bind (under_act _)
  intro dir
  apply under_bind (under_store small (.head _) (by simp))
  intro _
  exact under_finish ok

theorem fdFilestatGet_under (fd buf : U32) : Under size [] (fdFilestatGet kernel size fd buf) := by
  unfold fdFilestatGet
  apply under_checkMem
  apply under_bind (under_store small (.head _) (by simp))
  intro _
  apply under_bind (under_act _)
  intro length
  apply under_bind (under_store small (.head _) (by simp))
  intro _
  apply under_bind (under_storeNumber small (.head _) (by omega))
  intro _
  exact under_finish ok

theorem clockTimeGet_under (out : U32) : Under size [] (clockTimeGet kernel size out) := by
  unfold clockTimeGet
  apply under_checkMem
  apply under_bind (under_asks _)
  intro now
  apply under_bind (under_storeNumber small (.head _) (by omega))
  intro _
  exact under_finish ok

theorem argsSizesGet_under (args : Args) (count bufSize : U32) :
    Under size [] (argsSizesGet size args count bufSize : Wasi κ Unit) := by
  unfold argsSizesGet
  apply under_checkMem
  apply under_checkMem
  apply under_bind (under_storeNumber small (.tail _ (.head _)) (by omega))
  intro _
  apply under_bind (under_storeNumber small (.head _) (by omega))
  intro _
  exact under_finish ok

theorem storeArgs_under {passed : List Range} {argv buf l m : Nat}
    (vector : ⟨.argument 0, argv, l⟩ ∈ passed) (text : ⟨.argument 1, buf, m⟩ ∈ passed)
    (list : List Text) (i at' : Nat) (within : 4 * (i + list.length) ≤ l)
    (room : at' + (list.map fun arg => arg.length + 1).sum ≤ m) :
    Under size passed (storeArgs argv buf list i at' : Wasi κ Unit) := by
  induction list generalizing i at' with
  | nil => exact under_pure _
  | cons arg rest ih =>
    simp only [List.length_cons, List.map_cons, List.sum_cons] at within room
    apply under_bind (under_storeNumber small vector (by omega))
    intro _
    apply under_bind (under_store small text (by simp; omega))
    intro _
    exact ih (i + 1) (at' + (arg.length + 1)) (by omega) (by omega)

theorem argsGet_under (args : Args) (argv buf : U32) :
    Under size [] (argsGet size args argv buf : Wasi κ Unit) := by
  have fits := args.fits
  have vector : args.list.length * 4 % 2 ^ 32 = args.list.length * 4 :=
    Nat.mod_eq_of_lt (by omega)
  have text : args.bytes % 2 ^ 32 = args.bytes :=
    Nat.mod_eq_of_lt (by unfold Args.bytes; omega)
  unfold argsGet
  rw [vector, text]
  apply under_checkMem
  apply under_checkMem
  apply under_bind
  · apply storeArgs_under small (.tail _ (.head _)) (.head _)
    · omega
    · simp [Args.bytes]
  · intro _
    exact under_finish ok

theorem randomFrom_under {passed : List Range} {buf len : Nat}
    (checked : ⟨.argument 0, buf, len⟩ ∈ passed) (n done : Nat) :
    Under size passed (randomFrom kernel buf len n done) := by
  induction n generalizing done with
  | zero => exact under_pure _
  | succ n ih =>
    unfold randomFrom
    split
    · apply under_act_bind
      intro h
      -- what the kernel gives fits what was left
      have fits := kernel.randomFits h.kernel (len - done)
      cases given : (kernel.random h.kernel (len - done)).1 with
      | none => exact under_finish einval
      | some got =>
        have short := fits got given
        apply under_bind (under_store small checked (by omega))
        intro _
        split
        · exact under_finish einval
        · exact ih (done + got.length)
    · exact under_pure _

theorem randomGet_under (buf len : U32) : Under size [] (randomGet kernel size buf len) := by
  unfold randomGet
  apply under_checkMem
  apply under_bind (randomFrom_under small (.head _) _ _)
  intro _
  exact under_finish ok

theorem pathFilestatGet_under (dirfd path pathLen buf : U32) :
    Under size [] (pathFilestatGet kernel size dirfd path pathLen buf) := by
  unfold pathFilestatGet
  apply under_checkMem
  apply under_checkMem
  apply under_early
  apply under_bind (under_fetch small (.tail _ (.head _)) (by omega))
  intro bytes
  apply under_bind (under_act _)
  rintro (_ | _ | ⟨attr, length⟩)
  · exact under_finish einval
  · exact under_finish enoent
  · apply under_bind (under_store small (.head _) (by simp))
    intro _
    apply under_bind (under_store small (.head _) (by simp))
    intro _
    apply under_bind (under_storeNumber small (.head _) (by omega))
    intro _
    exact under_finish ok

theorem pathUnlinkFile_under (dirfd path pathLen : U32) :
    Under size [] (pathUnlinkFile kernel size dirfd path pathLen) := by
  unfold pathUnlinkFile
  apply under_checkMem
  apply under_early
  apply under_bind (under_fetch small (.head _) (by omega))
  intro bytes
  apply under_bind (under_act _)
  rintro (_ | name)
  · exact under_finish einval
  · apply under_bind (under_act _)
    intro held
    apply under_early
    apply under_bind (under_asks _)
    intro removed
    exact under_finish _

theorem entriesFrom_under {passed : List Range} {dir : Text} {buf len : Nat}
    (checked : ⟨.argument 1, buf, len⟩ ∈ passed) (short : len + 24 < 2 ^ 32) (n used index : Nat)
    (within : used ≤ len) : Under size passed (entriesFrom kernel dir buf len n used index) := by
  induction n generalizing used index with
  | zero => exact under_pure _
  | succ n ih =>
    unfold entriesFrom
    apply under_bind (under_act _)
    rintro (_ | ⟨raw, attr⟩)
    · exact under_pure _
    · dsimp only
      split
      · exact under_pure _
      · rename_i room
        rw [Nat.mod_eq_of_lt (by omega)] at room
        have taken : ((prettyName raw).take (len - (used + 24))).length ≤ len - (used + 24) :=
          List.length_take_le _ _
        apply under_bind (under_store small checked (by simp; omega))
        intro _
        apply under_bind (under_storeNumber small checked (by omega))
        intro _
        apply under_bind (under_storeNumber small checked (by omega))
        intro _
        apply under_bind (under_storeNumber small checked (by omega))
        intro _
        apply under_bind (under_store small checked (by simp; omega))
        intro _
        apply under_bind (under_store small checked (by omega))
        intro _
        split
        · exact under_pure _
        · exact ih _ _ (by omega)

theorem fdReaddir_under (apart : size + 0x10000 ≤ 2 ^ 32) (fd buf bufLen : U32)
    (cookie : BitVec 64) (bufused : U32) :
    Under size [] (fdReaddir kernel size fd buf bufLen cookie bufused) := by
  unfold fdReaddir
  apply under_checkMem
  apply under_checkMem
  apply under_inside
  intro inside
  have fits := inside _ (.tail _ (.head _))
  apply under_bind (under_act _)
  rintro (_ | dir)
  · apply under_bind (under_storeNumber small (.head _) (by omega))
    intro _
    exact under_finish ebadf
  · apply under_bind
    · apply entriesFrom_under small (.tail _ (.head _)) _ _ _ _ (by omega)
      simp only at fits
      omega
    · intro used
      apply under_bind (under_storeNumber small (.head _) (by omega))
      intro _
      exact under_finish ok

end Calls

def wordAt (mem : Nat → Byte) (a : Nat) : Nat := number ((List.range 4).map fun i => mem (a + i))

section Buffers
variable {κ : Type} {kernel : Kernel κ} {size iovs l : Nat} {passed : List Range}
variable {transfer : Nat → Nat → Nat → Wasi κ (Nat × Bool)}
variable {next : Nat → Nat → Host κ → Option (Host κ)}

/-- One of so many buffers ends the loop: it does not lie in the guest's memory,
or moving its bytes does not go on. -/
def Ends (size iovs : Nat) (next : Nat → Nat → Host κ → Option (Host κ)) :
    Nat → Nat → Host κ → Prop
  | 0, _, _ => False
  | m + 1, i, h =>
    let off := wordAt h.mem (moved iovs (8 * i))
    let len := wordAt h.mem (moved iovs (8 * i + 4))
    if len = 0 then Ends size iovs next m (i + 1) h
    else size < off + len ∨
      match next off len h with
      | none => True
      | some after => Ends size iovs next m (i + 1) after

def written (kernel : Kernel κ) (fd : U32) (off len : Nat) (h : Host κ) : Option (Host κ) :=
  let r := kernel.write h.kernel fd.toInt ((List.range len).map fun i => h.mem (moved off 0 + i))
  if r.1 < 0 then none else some { h with kernel := r.2 }

def filled (kernel : Kernel κ) (fd : U32) (off len : Nat) (h : Host κ) : Option (Host κ) :=
  match kernel.read h.kernel fd.toInt len with
  | (none, _) => none
  | (some got, k) =>
    if got.length < len then none
    else some { h with mem := overlay h.mem (moved off 0) got, kernel := k }

/-- What a transfer does: it touches its buffer, and goes on where `next` says so. -/
structure Transfers (size : Nat) (transfer : Nat → Nat → Nat → Wasi κ (Nat × Bool))
    (next : Nat → Nat → Host κ → Option (Host κ)) : Prop where
  under : ∀ {passed : List Range} {i off len}, ⟨.iovec i, off, len⟩ ∈ passed →
    Under size passed (transfer i off len)
  touches : ∀ i off len h, ∀ event ∈ (transfer i off len).events h, ∃ range, event = .touched range
  goes : ∀ i off len h after, next off len h = some after →
    ∃ n events, transfer i off len h = (.ok (n, true), after, events)
  ends : ∀ i off len h, next off len h = none →
    ∀ n after events, transfer i off len h ≠ (.ok (n, true), after, events)

theorem writeBuffer_run (fd : U32) (i off len : Nat) (h : Host κ) :
    writeBuffer kernel fd i off len h =
      let r := kernel.write h.kernel fd.toInt ((List.range len).map fun i => h.mem (moved off 0 + i))
      (if r.1 < 0 then .error (.returned ebadf) else .ok (r.1.toNat, true),
        { h with kernel := r.2 }, [.touched ⟨.iovec i, moved off 0, len⟩]) := by
  simp only [writeBuffer, bind, andThen, fetch, touch, asks, act]
  split <;> rfl

theorem readBuffer_run (fd : U32) (i off len : Nat) (h : Host κ) :
    readBuffer kernel fd i off len h =
      match kernel.read h.kernel fd.toInt len with
      | (none, k) => (.error (.returned ebadf), { h with kernel := k }, [])
      | (some got, k) =>
        (.ok (got.length, decide (len ≤ got.length)),
          { h with mem := overlay h.mem (moved off 0) got, kernel := k },
          [.touched ⟨.iovec i, moved off 0, got.length⟩]) := by
  simp only [readBuffer, bind, andThen, asks, act]
  rcases kernel.read h.kernel fd.toInt len with ⟨_ | got, k⟩ <;> rfl

theorem writeBuffer_transfers (small : size < 2 ^ 32) (fd : U32) :
    Transfers size (writeBuffer kernel fd) (written kernel fd) where
  under checked := by
    unfold writeBuffer
    apply under_bind (under_fetch small checked (by omega))
    intro bytes
    apply under_bind (under_asks _)
    intro n
    split
    · exact under_finish ebadf
    · exact under_pure _
  touches i off len h event member := by
    simp only [events, writeBuffer_run, List.mem_singleton] at member
    exact ⟨_, member⟩
  goes i off len h after goes := by
    simp only [written] at goes
    split at goes
    · cases goes
    · rename_i taken
      cases goes
      rw [writeBuffer_run]
      simp only [if_neg taken]
      exact ⟨_, _, rfl⟩
  ends i off len h none' n after events same := by
    simp only [written] at none'
    split at none'
    · rename_i refused
      rw [writeBuffer_run] at same
      simp only [if_pos refused] at same
      cases same
    · cases none'

theorem readBuffer_transfers (small : size < 2 ^ 32) (fd : U32) :
    Transfers size (readBuffer kernel fd) (filled kernel fd) where
  under {passed i off len} checked := by
    unfold readBuffer
    apply under_act_bind
    intro h
    have fits := kernel.readFits h.kernel fd.toInt len
    cases given : (kernel.read h.kernel fd.toInt len).1 with
    | none => exact under_finish ebadf
    | some got =>
      have short := fits got given
      apply under_bind (under_store small checked (by omega))
      intro _
      exact under_pure _
  touches i off len h event member := by
    simp only [events, readBuffer_run] at member
    split at member
    · cases member
    · simp only [List.mem_singleton] at member
      exact ⟨_, member⟩
  goes i off len h after goes := by
    rw [readBuffer_run]
    simp only [filled] at goes
    split at goes
    · cases goes
    · split at goes
      · cases goes
      · rename_i got k given enough
        cases goes
        have full : len ≤ got.length := by omega
        simp only [full, decide_true]
        exact ⟨_, _, rfl⟩
  ends i off len h none' n after events same := by
    rw [readBuffer_run] at same
    simp only [filled] at none'
    split at none'
    · rename_i k given
      rw [given] at same
      cases same
    · split at none'
      · rename_i got k given short
        have part : ¬ len ≤ got.length := by omega
        simp only [given, part, decide_false] at same
        cases same
      · cases none'

theorem fetchWord_run (source : Source) (p d : Nat) (h : Host κ) :
    fetchNumber source p d 4 h =
      (.ok (wordAt h.mem (moved p d)), h, [.touched ⟨source, moved p d, 4⟩]) := rfl

theorem fetchNumber_events (source : Source) (p d n : Nat) (h : Host κ) :
    (fetchNumber source p d n : Wasi κ Nat).events h = [.touched ⟨source, moved p d, n⟩] := rfl

theorem checkMem_events (source : Source) (p n : Nat) (f : Unit → Wasi κ α) (h : Host κ) :
    (checkMem size source p n >>= f).events h =
      if p + n ≤ size then .checked ⟨source, p, n⟩ :: (f ()).events h else [] := by
  rw [events_bind]
  simp only [checkMem, Guarded.Program.events, check]
  split <;> rfl

theorem iovecs_events (n i total : Nat) (h : Host κ) :
    (iovecs size iovs transfer (n + 1) i total).events h =
      let off := wordAt h.mem (moved iovs (8 * i))
      let len := wordAt h.mem (moved iovs (8 * i + 4))
      .touched ⟨.argument 1, moved iovs (8 * i), 4⟩ ::
        .touched ⟨.argument 1, moved iovs (8 * i + 4), 4⟩ ::
        if len = 0 then (iovecs size iovs transfer n (i + 1) total).events h
        else if off + len ≤ size then
          .checked ⟨.iovec i, off, len⟩ ::
            (transfer i off len >>= fun passed =>
              if passed.2 then iovecs size iovs transfer n (i + 1) ((total + passed.1) % 2 ^ 32)
              else pure ((total + passed.1) % 2 ^ 32)).events h
        else [] := by
  rw [iovecs, events_bind, fetchWord_run]
  simp only
  rw [events_bind, fetchWord_run]
  simp only [fetchNumber_events, List.singleton_append]
  by_cases empty : wordAt h.mem (moved iovs (8 * i + 4)) = 0
  · simp only [if_pos empty]
  · simp only [if_neg empty]
    rw [checkMem_events]

theorem iovecs_sound (transfers : Transfers size transfer next) (small : size < 2 ^ 32)
    (checked : ⟨.argument 1, iovs, l⟩ ∈ passed)
    (inside : ∀ range ∈ passed, range.start + range.length ≤ size) (m i n total : Nat)
    (h : Host κ) (within : 8 * (i + m) ≤ l) (stays : n ≤ m ∨ Ends size iovs next m i h) :
    Sound size passed ((iovecs size iovs transfer n i total).events h) := by
  induction m generalizing i n total h passed with
  | zero =>
    rcases stays with none' | ends
    · obtain rfl : n = 0 := by omega
      trivial
    · exact ends.elim
  | succ m ih =>
    cases n with
    | zero => trivial
    | succ n =>
      rw [iovecs_events]
      have reached : ∀ d, d + 4 ≤ l → moved iovs d + 4 ≤ size ∧
          Covered passed ⟨.argument 1, moved iovs d, 4⟩ := fun d near =>
        Covered.fits (covered_reach small checked near inside) inside
      refine ⟨reached _ (by omega), reached _ (by omega), ?_⟩
      by_cases empty : wordAt h.mem (moved iovs (8 * i + 4)) = 0
      · rw [if_pos empty]
        apply ih checked inside _ _ _ _ (by omega)
        rcases stays with less | ends
        · exact .inl (by omega)
        · simp only [Ends, if_pos empty] at ends
          exact .inr ends
      rw [if_neg empty]
      split
      · rename_i fits
        have inside' : ∀ range ∈ (⟨.iovec i, wordAt h.mem (moved iovs (8 * i)),
            wordAt h.mem (moved iovs (8 * i + 4))⟩ : Range) :: passed,
            range.start + range.length ≤ size := by
          rintro range (_ | ⟨_, member⟩)
          · exact fits
          · exact inside range member
        have touches := transfers.under (.head passed) inside' h
        change Sound size (⟨.iovec i, _, _⟩ :: passed) _
        rw [events_bind]
        apply touches.append
        cases goes : next (wordAt h.mem (moved iovs (8 * i)))
            (wordAt h.mem (moved iovs (8 * i + 4))) h with
        | none =>
          have ends := transfers.ends i _ _ h goes
          split
          · rename_i outcome after _ same
            obtain ⟨k, more⟩ := outcome
            cases more with
            | true => exact absurd same (ends k after _)
            | false => trivial
          · trivial
        | some after =>
          obtain ⟨k, events, outcome⟩ := transfers.goes i _ _ h after goes
          rw [outcome]
          apply ih (.tail _ checked) inside' _ _ _ _ (by omega)
          rcases stays with less | ends
          · exact .inl (by omega)
          · simp only [Ends, if_neg empty, goes] at ends
            exact .inr (ends.resolve_left (by omega))
      · trivial

theorem iovecs_strays (transfers : Transfers size transfer next) (small : size < 2 ^ 32)
    (fits : iovs + l ≤ size)
    (listed : ∀ range ∈ passed, range.source = .argument 1 → range.start + range.length ≤ iovs + l)
    (m i n total : Nat) (h : Host κ) (within : 8 * (i + m) = l) (more : m < n)
    (goes : ¬ Ends size iovs next m i h) :
    ¬ Sound size passed ((iovecs size iovs transfer n i total).events h) := by
  induction m generalizing i n total h passed with
  | zero =>
    cases n with
    | zero => omega
    | succ n =>
      rw [iovecs_events]
      rintro ⟨⟨_, outer, member, source, _, last⟩, _⟩
      have still : moved iovs (8 * i) = iovs + 8 * i := Nat.mod_eq_of_lt (by omega)
      have bound := listed outer member source.symm
      simp only [still] at last
      omega
  | succ m ih =>
    cases n with
    | zero => omega
    | succ n =>
      rw [iovecs_events]
      rintro ⟨_, _, sound⟩
      by_cases empty : wordAt h.mem (moved iovs (8 * i + 4)) = 0
      · rw [if_pos empty] at sound
        simp only [Ends, if_pos empty] at goes
        exact ih listed _ _ _ _ (by omega) (by omega) goes sound
      · simp only [Ends, if_neg empty, not_or] at goes
        rw [if_neg empty, if_pos (by omega)] at sound
        obtain ⟨_, goes⟩ := goes
        cases after : next (wordAt h.mem (moved iovs (8 * i)))
            (wordAt h.mem (moved iovs (8 * i + 4))) h with
        | none => simp [after] at goes
        | some after' =>
          rw [after] at goes
          obtain ⟨k, events, outcome⟩ := transfers.goes i _ _ h after' after
          change Sound size (_ :: passed) _ at sound
          rw [events_bind] at sound
          have later := sound.back (transfers.touches i _ _ h)
          rw [outcome] at later
          refine ih ?_ _ _ _ _ (by omega) (by omega) goes later
          rintro range (_ | ⟨_, member⟩) source
          · cases source
          · exact listed range member source

theorem vectored_sound (transfers : Transfers size transfer next) (small : size < 2 ^ 32)
    (list count listed : U32) (h : Host κ) :
    Sound size [] ((vectored size transfer list count listed).events h) ↔
      count.toNat * 8 < 2 ^ 32 ∨ size < list.toNat + count.toNat * 8 % 2 ^ 32 ∨
        Ends size list.toNat next (count.toNat % 2 ^ 29) 0 h := by
  unfold vectored
  rw [checkMem_events]
  split
  · rename_i fits
    have inside : ∀ range ∈ ([⟨.argument 1, list.toNat, count.toNat * 8 % 2 ^ 32⟩] : List Range),
        range.start + range.length ≤ size := by
      rintro range (_ | ⟨_, ⟨⟩⟩)
      exact fits
    change Sound size ([⟨.argument 1, list.toNat, count.toNat * 8 % 2 ^ 32⟩] : List Range) _ ↔ _
    constructor
    · intro sound
      by_contra wrong
      obtain ⟨wraps, _, goes⟩ := not_or.mp wrong |>.imp_right not_or.mp
      rw [events_bind] at sound
      refine iovecs_strays transfers small fits ?_ _ 0 _ 0 h (by omega) (by omega) goes sound.front
      rintro range (_ | ⟨_, ⟨⟩⟩) _
      exact Nat.le_refl _
    · intro stays
      apply sound_bind _ inside
      · intro total
        apply under_checkMem
        apply under_bind (under_storeNumber small (.head _) (by omega))
        intro _
        exact under_finish ok
      · apply iovecs_sound transfers small (.head _) inside (count.toNat % 2 ^ 29) 0 _ 0 h (by omega)
        rcases stays with short | outside | ends
        · exact .inl (by omega)
        · omega
        · exact .inr ends
  · exact ⟨fun _ => .inr (.inl (by omega)), fun _ => trivial⟩

end Buffers

section Polling
variable {κ : Type} {kernel : Kernel κ} {size input out l m : Nat} {passed : List Range}

theorem subscriptions_under (small : size < 2 ^ 32) (checked : ⟨.argument 0, input, l⟩ ∈ passed)
    (n i : Nat) (wait : Option Nat) (ready : Bool) (within : 48 * (i + n) ≤ l) :
    Under size passed (subscriptions kernel input n i wait ready) := by
  induction n generalizing i wait ready with
  | zero => exact under_pure _
  | succ n ih =>
    unfold subscriptions
    apply under_bind (under_fetchNumber small checked (by omega))
    intro tag
    split
    · exact ih (i + 1) wait true (by omega)
    · apply under_bind (under_fetchNumber small checked (by omega))
      intro timeout
      apply under_bind (under_fetchNumber small checked (by omega))
      intro flags
      dsimp only
      split
      · apply under_bind (under_asks _)
        intro now
        exact ih (i + 1) _ ready (by omega)
      · apply under_bind (under_pure _)
        intro now
        exact ih (i + 1) _ ready (by omega)

theorem answers_under (small : size < 2 ^ 32) (checked : ⟨.argument 0, input, l⟩ ∈ passed)
    (checked' : ⟨.argument 1, out, m⟩ ∈ passed) (n i : Nat) (within : 48 * (i + n) ≤ l)
    (within' : 32 * (i + n) ≤ m) : Under size passed (answers input out n i : Wasi κ Unit) := by
  induction n generalizing i with
  | zero => exact under_pure _
  | succ n ih =>
    unfold answers
    apply under_bind (under_store small checked' (by simp; omega))
    intro _
    apply under_fetched small checked (by omega)
    intro userdata length
    apply under_bind (under_store small checked' (by omega))
    intro _
    apply under_bind (under_storeNumber small checked' (by omega))
    intro _
    apply under_fetched small checked (by omega)
    intro tag length'
    apply under_bind (under_store small checked' (by omega))
    intro _
    exact ih (i + 1) (by omega) (by omega)

theorem subscriptions_turn (n i : Nat) (wait : Option Nat) (ready : Bool) (h : Host κ) :
    ∃ front wait' ready' after, (∀ event ∈ front, ∃ range, event = .touched range) ∧
      (subscriptions kernel input (n + 1) i wait ready).events h =
        front ++ (subscriptions kernel input n (i + 1) wait' ready').events after := by
  have fetched : ∀ d w (f : Nat → Wasi κ (Option Nat × Bool)),
      ∃ v, (fetchNumber (.argument 0) input d w >>= f).events h =
        .touched ⟨.argument 0, moved input d, w⟩ :: (f v).events h :=
    fun d w f => ⟨_, rfl⟩
  rw [subscriptions]
  obtain ⟨tag, same⟩ := fetched (48 * i + 8) 1 _
  rw [same]
  split
  · exact ⟨[_], wait, true, h, by simp, rfl⟩
  · obtain ⟨timeout, same⟩ := fetched (48 * i + 24) 8 _
    rw [same]
    obtain ⟨flags, same⟩ := fetched (48 * i + 40) 2 _
    rw [same]
    dsimp only
    split
    · exact ⟨[_, _, _], _, ready, { h with kernel := (kernel.ticks h.kernel).2 }, by simp, rfl⟩
    · exact ⟨[_, _, _], _, ready, h, by simp, rfl⟩

theorem subscriptions_strays (fits : input + l + 0x10000 ≤ 2 ^ 32)
    (listed : ∀ range ∈ passed, range.source = .argument 0 → range.start + range.length ≤ input + l)
    (k i n : Nat) (wait : Option Nat) (ready : Bool) (h : Host κ)
    (last : l ≤ 48 * (i + k) + 8) (near : 48 * (i + k) < l + 48) (more : k < n) :
    ¬ Sound size passed ((subscriptions kernel input n i wait ready).events h) := by
  induction k generalizing i n wait ready h with
  | zero =>
    cases n with
    | zero => omega
    | succ n =>
      unfold subscriptions
      rw [events_bind]
      rintro ⟨⟨_, outer, member, source, _, after⟩, _⟩
      have still : moved input (48 * i + 8) = input + (48 * i + 8) :=
        Nat.mod_eq_of_lt (by omega)
      have bound := listed outer member source.symm
      simp only [still] at after
      omega
  | succ k ih =>
    cases n with
    | zero => omega
    | succ n =>
      obtain ⟨front, wait', ready', after, touches, same⟩ :=
        @subscriptions_turn _ kernel input n i wait ready h
      rw [same]
      intro sound
      exact ih _ _ _ _ _ (by omega) (by omega) (by omega) (sound.back touches)

/-- The checks of `poll_oneoff`, the last one first. -/
def pollChecks (input out nsubs nevents : U32) : List Range :=
  [⟨.argument 3, nevents.toNat, 4⟩, ⟨.argument 1, out.toNat, nsubs.toNat * 32 % 2 ^ 32⟩,
    ⟨.argument 0, input.toNat, nsubs.toNat * 48 % 2 ^ 32⟩]

theorem pollOneoff_sound (apart : size + 0x10000 ≤ 2 ^ 32) (input out nsubs nevents : U32)
    (h : Host κ) :
    Sound size [] ((pollOneoff kernel size input out nsubs nevents).events h) ↔
      nsubs.toNat ≠ 0 ∧ (nsubs.toNat * 48 < 2 ^ 32 ∨
        size < input.toNat + nsubs.toNat * 48 % 2 ^ 32 ∨
        size < out.toNat + nsubs.toNat * 32 % 2 ^ 32 ∨ size < nevents.toNat + 4) := by
  unfold pollOneoff
  split
  · rename_i none'
    constructor
    · -- the event count is stored before any check
      intro sound
      rw [events_bind] at sound
      obtain ⟨⟨_, outer, member, _⟩, _⟩ := sound
      cases member
    · rintro ⟨some', _⟩
      exact absurd none' some'
  rename_i some'
  -- Three checks, each on a product modulo 2^32; only past all of them is memory touched.
  rw [checkMem_events]
  split
  · rename_i first
    change Sound size ([_] : List Range) _ ↔ _
    rw [checkMem_events]
    split
    · rename_i second
      change Sound size ([_, _] : List Range) _ ↔ _
      rw [checkMem_events]
      split
      · rename_i third
        change Sound size (pollChecks input out nsubs nevents) _ ↔ _
        constructor
        · intro sound
          refine ⟨some', .inl ?_⟩
          by_contra wraps
          rw [events_bind] at sound
          have listed : ∀ range ∈ pollChecks input out nsubs nevents, range.source = .argument 0 →
              range.start + range.length ≤ input.toNat + nsubs.toNat * 48 % 2 ^ 32 := by
            unfold pollChecks
            rintro range (_ | ⟨_, _ | ⟨_, _ | ⟨_, ⟨⟩⟩⟩⟩) source
            · cases source
            · cases source
            · exact Nat.le_refl _
          exact subscriptions_strays (by omega) listed ((nsubs.toNat * 48 % 2 ^ 32 + 39) / 48)
            0 nsubs.toNat none false h (by omega) (by omega) (by omega) sound.front
        · rintro ⟨_, holds⟩
          have exact' : nsubs.toNat * 48 % 2 ^ 32 = nsubs.toNat * 48 := by omega
          have exact'' : nsubs.toNat * 32 % 2 ^ 32 = nsubs.toNat * 32 := by omega
          have inside : ∀ range ∈ pollChecks input out nsubs nevents,
              range.start + range.length ≤ size := by
            unfold pollChecks
            rintro range (_ | ⟨_, _ | ⟨_, _ | ⟨_, ⟨⟩⟩⟩⟩)
            · exact third
            · exact second
            · exact first
          refine under_bind (subscriptions_under (by omega) (.tail _ (.tail _ (.head _))) _ _ _ _
            (by omega)) ?_ inside h
          intro waits
          have answered : Under size (pollChecks input out nsubs nevents) (do
              answers input.toNat out.toNat nsubs.toNat 0
              storeNumber (.argument 3) nevents.toNat 0 4 nsubs.toNat
              finish ok : Wasi κ Unit) := by
            apply under_bind (answers_under (by omega) (.tail _ (.tail _ (.head _)))
              (.tail _ (.head _)) _ _ (by omega) (by omega))
            intro _
            apply under_bind (under_storeNumber (by omega) (.head _) (by omega))
            intro _
            exact under_finish ok
          dsimp only
          split
          · exact under_bind (under_asks _) fun _ => answered
          · exact answered
      · exact ⟨fun _ => ⟨some', .inr (.inr (.inr (by omega)))⟩, fun _ => trivial⟩
    · exact ⟨fun _ => ⟨some', .inr (.inr (.inl (by omega)))⟩, fun _ => trivial⟩
  · exact ⟨fun _ => ⟨some', .inr (.inl (by omega))⟩, fun _ => trivial⟩

end Polling

/-- The guest's memory lies in the machine's 32-bit address space beside the host's own. -/
structure Room where
  size : Nat
  apart : size + 0x10000 ≤ 2 ^ 32

inductive Call
  | fdWrite (fd iovs iovsLen nwritten : U32)
  | environSizesGet (count bufSize : U32)
  | environGet (env envBuf : U32)
  | procExit (code : U32)
  | fdPrestatGet (fd prestat : U32)
  | fdPrestatDirName (fd path pathLen : U32)
  | pathOpen (dirfd dirflags path pathLen oflags : U32) (rightsBase rightsInheriting : BitVec 64)
      (fdflags outFd : U32)
  | fdRead (fd iovs iovsLen nread : U32)
  | fdClose (fd : U32)
  | fdSeek (fd : U32) (offset : BitVec 64) (whence outPos : U32)
  | fdFdstatGet (fd stat : U32)
  | fdFilestatGet (fd buf : U32)
  | clockTimeGet (id : U32) (precision : BitVec 64) (out : U32)
  | pollOneoff (input out nsubs nevents : U32)
  | argsSizesGet (count bufSize : U32)
  | argsGet (argv buf : U32)
  | randomGet (buf len : U32)
  | pathFilestatGet (dirfd flags path pathLen buf : U32)
  | pathUnlinkFile (dirfd path pathLen : U32)
  | fdFdstatSetFlags (fd flags : U32)
  | fdReaddir (fd buf bufLen : U32) (cookie : BitVec 64) (bufused : U32)

section Sandbox
variable {κ : Type} (kernel : Kernel κ) (room : Room) (args : Args)

def program : Call → Wasi κ Unit
  | .fdWrite fd iovs iovsLen nwritten => fdWrite kernel room.size fd iovs iovsLen nwritten
  | .environSizesGet count bufSize => environSizesGet kernel room.size count bufSize
  | .environGet env envBuf => environGet kernel room.size env envBuf
  | .procExit code => procExit code
  | .fdPrestatGet fd prestat => fdPrestatGet room.size fd prestat
  | .fdPrestatDirName fd path pathLen => fdPrestatDirName room.size fd path pathLen
  | .pathOpen dirfd _ path pathLen oflags rightsBase _ fdflags outFd =>
    pathOpen kernel room.size dirfd path pathLen oflags rightsBase fdflags outFd
  | .fdRead fd iovs iovsLen nread => fdRead kernel room.size fd iovs iovsLen nread
  | .fdClose fd => fdClose kernel fd
  | .fdSeek fd offset whence outPos => fdSeek kernel room.size fd offset whence outPos
  | .fdFdstatGet fd stat => fdFdstatGet room.size fd stat
  | .fdFilestatGet fd buf => fdFilestatGet kernel room.size fd buf
  | .clockTimeGet _ _ out => clockTimeGet kernel room.size out
  | .pollOneoff input out nsubs nevents => pollOneoff kernel room.size input out nsubs nevents
  | .argsSizesGet count bufSize => argsSizesGet room.size args count bufSize
  | .argsGet argv buf => argsGet room.size args argv buf
  | .randomGet buf len => randomGet kernel room.size buf len
  | .pathFilestatGet dirfd _ path pathLen buf =>
    pathFilestatGet kernel room.size dirfd path pathLen buf
  | .pathUnlinkFile dirfd path pathLen => pathUnlinkFile kernel room.size dirfd path pathLen
  | .fdFdstatSetFlags _ _ => fdFdstatSetFlags
  | .fdReaddir fd buf bufLen cookie bufused =>
    fdReaddir kernel room.size fd buf bufLen cookie bufused

/-- The count that a call scales is not cut to 32 bits, or the call stops before
it comes to what was not checked. -/
def Scaled (h : Host κ) : Call → Prop
  | .fdWrite fd iovs iovsLen _ =>
    iovsLen.toNat * 8 < 2 ^ 32 ∨ room.size < iovs.toNat + iovsLen.toNat * 8 % 2 ^ 32 ∨
      Ends room.size iovs.toNat (written kernel fd) (iovsLen.toNat % 2 ^ 29) 0 h
  | .fdRead fd iovs iovsLen _ =>
    iovsLen.toNat * 8 < 2 ^ 32 ∨ room.size < iovs.toNat + iovsLen.toNat * 8 % 2 ^ 32 ∨
      Ends room.size iovs.toNat (filled kernel fd) (iovsLen.toNat % 2 ^ 29) 0 h
  | .pollOneoff input out nsubs nevents =>
    nsubs.toNat ≠ 0 ∧ (nsubs.toNat * 48 < 2 ^ 32 ∨
      room.size < input.toNat + nsubs.toNat * 48 % 2 ^ 32 ∨
      room.size < out.toNat + nsubs.toNat * 32 % 2 ^ 32 ∨ room.size < nevents.toNat + 4)
  | _ => True

/-- Whatever the guest passes and its memory holds, what the host touches at an
address it got from the guest lies in the guest's memory and was checked before,
exactly when the count of the buffers or subscriptions is scaled as it stands. -/
theorem call_confined (call : Call) (h : Host κ) :
    Confined room.size ((program kernel room args call).events h) ↔ Scaled kernel room h call := by
  have small : room.size < 2 ^ 32 := by have := room.apart; omega
  have holds : ∀ {m : Wasi κ Unit}, Under room.size [] m →
      (Sound room.size [] (m.events h) ↔ True) := fun under =>
    iff_true_intro (under (by simp) h)
  rw [confined_iff]
  cases call with
  | fdWrite fd iovs iovsLen nwritten =>
    exact vectored_sound (writeBuffer_transfers small fd) small iovs iovsLen nwritten h
  | fdRead fd iovs iovsLen nread =>
    exact vectored_sound (readBuffer_transfers small fd) small iovs iovsLen nread h
  | pollOneoff input out nsubs nevents =>
    exact pollOneoff_sound room.apart input out nsubs nevents h
  | environSizesGet => exact holds (environSizesGet_under small _ _)
  | environGet => exact holds (environGet_under small _ _)
  | procExit => exact holds (procExit_under _)
  | fdPrestatGet => exact holds (fdPrestatGet_under small _ _)
  | fdPrestatDirName => exact holds (fdPrestatDirName_under small _ _ _)
  | pathOpen => exact holds (pathOpen_under small _ _ _ _ _ _ _)
  | fdClose => exact holds (fdClose_under _)
  | fdSeek => exact holds (fdSeek_under small _ _ _ _)
  | fdFdstatGet => exact holds (fdFdstatGet_under small _ _)
  | fdFilestatGet => exact holds (fdFilestatGet_under small _ _)
  | clockTimeGet => exact holds (clockTimeGet_under small _)
  | argsSizesGet => exact holds (argsSizesGet_under small args _ _)
  | argsGet => exact holds (argsGet_under small args _ _)
  | randomGet => exact holds (randomGet_under small _ _)
  | pathFilestatGet => exact holds (pathFilestatGet_under small _ _ _ _)
  | pathUnlinkFile => exact holds (pathUnlinkFile_under small _ _ _)
  | fdFdstatSetFlags => exact holds (under_finish ok)
  | fdReaddir => exact holds (fdReaddir_under small room.apart _ _ _ _ _)

end Sandbox

def idle : Kernel Unit where
  write _ _ bytes := (bytes.length, ())
  read _ _ _ := (some [], ())
  readFits _ _ _ got member := by
    cases member
    exact Nat.zero_le _
  random _ _ := (none, ())
  randomFits _ _ _ member := by cases member
  opens _ _ _ := (-1, ())
  close _ _ := (-1, ())
  seek _ _ _ _ := (-1, ())
  stat _ _ := none
  remove _ _ := (-1, ())
  dirAt _ _ _ := none
  getcwd _ := [0x2f]
  ticks _ := (0, ())
  sleep _ _ := ()
  font _ := none

def page : Room := ⟨0x10000, by decide⟩
def started : Host Unit := ⟨fun _ => 0, fun _ => ⟨0, false, false, []⟩, (), none⟩
def noArgs : Args := ⟨[ascii "program"], by decide⟩

/-- A poll without subscriptions stores its count where it is told to. A write of
half a thousand million buffers is checked for none. -/
theorem counts_unchecked :
    ¬ Confined page.size ((program idle page noArgs (.pollOneoff 0 0 0 0xfffffff0)).events started) ∧
    ¬ Confined page.size
      ((program idle page noArgs (.fdWrite 1 0 0x20000000 0)).events started) := by
  have small : page.size < 2 ^ 32 := by decide
  simp only [confined_iff]
  constructor
  · simp only [program]
    rw [pollOneoff_sound page.apart]
    exact fun scaled => scaled.1 rfl
  · simp only [program, fdWrite]
    rw [vectored_sound (writeBuffer_transfers small 1) small]
    intro scaled
    rcases scaled with short | outside | ends
    · exact absurd short (by decide)
    · exact absurd outside (by decide)
    · exact ends.elim

end Ubiqos.Wasm
