import Ubiqos.Fat.Calls

/-!
What follows for the programs of `modules/fat32lib/fat32lib.c` from their steps. A property
of programs that the ways of putting programs together keep, and that the reads and writes of
the card and of the table have, is one of every search and every change of a directory. What
such a program goes on with may depend on the state, but not on the statics a call leaves behind.
-/

namespace Ubiqos.Fat

open Prog

variable {L : ∀ α : Type, Prog Fs α → Prop}

structure Reading (L : ∀ α : Type, Prog Fs α → Prop) : Prop where
  pure : ∀ {α : Type} (a : α), L α (pure a)
  bind : ∀ {α β : Type} {x : Prog Fs α} {f : α → Prog Fs β}, L α x → (∀ a, L β (f a)) → L β (x >>= f)
  ite : ∀ {α : Type} {c : Prop} [Decidable c] {x y : Prog Fs α}, L α x → L α y → L α (if c then x else y)
  unending : ∀ {α : Type}, L α unending
  look : ∀ {β : Type} {f : Fs → Prog Fs β},
    (∀ s fatbuf ra, f { s with fatbuf := fatbuf, ra := ra } = f s) → (∀ s, L β (f s)) → L β (get >>= f)
  fresh : L Lfn freshLfn
  readSector : ∀ lba, L Bool (readSector lba)
  fatGet : ∀ cluster, L Nat (fatGet cluster)

theorem Reading.option (walk : Reading L) {α β : Type} {x : Prog Fs (Option α)}
    {f : Option α → Prog Fs β} (first : L _ x) (stops : L _ (f none)) (goes : ∀ a, L _ (f (some a))) :
    L _ (x >>= f) :=
  walk.bind first fun found => by cases found <;> [exact stops; exact goes _]

structure Writing (L : ∀ α : Type, Prog Fs α → Prop) : Prop extends Reading L where
  sector : ∀ change : Fs → Block, (∀ s fatbuf ra, change { s with fatbuf := fatbuf, ra := ra } = change s) →
    L PUnit (modify fun s => { s with sector := change s })
  hint : ∀ change : Fs → Nat, (∀ s fatbuf ra, change { s with fatbuf := fatbuf, ra := ra } = change s) →
    L PUnit (modify fun s => { s with allocHint := change s })
  writeSector : ∀ lba, L Bool (writeSector lba)
  fatPut : ∀ cluster value, L Bool (fatPut cluster value)

section Reads
variable (walk : Reading L)
include walk

theorem walk_fatNextCluster (cluster : Nat) : L _ (fatNextCluster cluster) := by
  unfold fatNextCluster
  apply walk.look fun _ _ _ => rfl
  intro s
  apply walk.bind (walk.readSector _)
  intro ok
  exact walk.ite (walk.look (fun _ _ _ => rfl) fun _ => walk.pure _) (walk.pure _)

theorem walk_scanCluster {σ ρ : Type} (visit : σ → Slot → Scan σ ρ) (failed : ρ)
    (first n k : Nat) (acc : σ) : L _ (scanCluster visit failed first n k acc) := by
  induction n generalizing k acc with
  | zero => exact walk.pure _
  | succ n ih =>
    unfold scanCluster
    apply walk.bind (walk.readSector _)
    intro ok
    apply walk.ite _ (walk.pure _)
    apply walk.look fun _ _ _ => rfl
    intro s
    split
    · exact walk.pure _
    · exact ih _ _

theorem walk_scanChain {σ ρ : Type} (within : Nat → Bool) {next : Nat → Prog Fs Nat}
    (follows : ∀ cluster, L _ (next cluster)) (visit : σ → Slot → Scan σ ρ) (failed : ρ)
    (n cluster last : Nat) (acc : σ) : L _ (scanChain within next visit failed n cluster last acc) := by
  induction n generalizing cluster last acc with
  | zero => exact walk.unending
  | succ n ih =>
    unfold scanChain
    apply walk.ite _ (walk.pure _)
    apply walk.look fun _ _ _ => rfl
    intro s
    apply walk.bind (walk_scanCluster walk _ _ _ _ _ _)
    intro found
    cases found with
    | stop result => exact walk.pure _
    | more acc => exact walk.bind (follows cluster) fun _ => ih _ _ _

theorem walk_findEntry (dir : Nat) (name83 : List Byte) (wantLong : Option (List Byte)) :
    L _ (findEntry dir name83 wantLong) := by
  unfold findEntry
  apply walk.bind walk.fresh
  intro l
  apply walk.bind (walk_scanChain walk _ (walk_fatNextCluster walk) _ _ _ _ _ _)
  rintro ⟨result | acc, last⟩ <;> exact walk.pure _

theorem walk_resolveStep (dir : Nat) (part : List Byte) : L _ (resolveStep dir part) := by
  unfold resolveStep
  apply walk.ite (walk.pure _)
  apply walk.ite
  · apply walk.bind (walk_findEntry walk _ _ _)
    intro found
    cases found with
    | none => exact walk.pure _
    | some e => exact walk.look (fun _ _ _ => rfl) fun _ => walk.pure _
  · apply walk.bind (walk_findEntry walk _ _ _)
    intro found
    cases found <;> exact walk.pure _

theorem walk_resolveDir (path : List Byte) : L _ (resolveDir path) := by
  have parts : ∀ (parts : List (List Byte)) dir, L _ (resolveFrom dir parts) := by
    intro parts
    induction parts with
    | nil => exact fun _ => walk.pure _
    | cons part rest ih =>
      intro dir
      unfold resolveFrom
      apply walk.bind (walk_resolveStep walk dir part)
      intro found
      cases found with
      | none => exact walk.pure _
      | some dir => exact ih dir
  exact walk.look (fun _ _ _ => rfl) fun s => parts _ _

theorem walk_resolveParent (path : List Byte) : L _ (resolveParent path) := by
  unfold resolveParent
  apply walk.bind (walk_resolveDir walk _)
  intro found
  cases found <;> exact walk.pure _

theorem walk_stat (path : CString) : L _ (stat path) := by
  unfold stat
  apply walk.look fun _ _ _ => rfl
  intro s
  apply walk.ite (walk.pure _)
  apply walk.ite (walk.pure _)
  refine walk.option (walk_resolveParent walk _) (walk.pure _) fun parent => ?_
  apply walk.bind (walk_findEntry walk _ _ _)
  intro found
  cases found <;> exact walk.pure _

theorem walk_statNth (path : CString) (index : Nat) : L _ (statNth path index) := by
  unfold statNth
  apply walk.look fun _ _ _ => rfl
  intro s
  apply walk.ite (walk.pure _)
  refine walk.option (walk_resolveDir walk _) (walk.pure _) fun dir => ?_
  apply walk.bind walk.fresh
  intro l
  apply walk.bind (walk_scanChain walk _ (walk_fatNextCluster walk) _ _ _ _ _ _)
  rintro ⟨result | acc, last⟩ <;> exact walk.pure _

theorem walk_dirAt (dir index : Nat) : L _ (dirAt dir index) := by
  have from_ : ∀ n cluster index, L _ (dirAtFrom n cluster index) := by
    intro n
    induction n with
    | zero => exact fun _ _ => walk.unending
    | succ n ih =>
      intro cluster index
      unfold dirAtFrom
      apply walk.ite _ (walk.pure _)
      apply walk.look fun _ _ _ => rfl
      intro s
      exact walk.ite (walk.pure _) (walk.bind (walk.fatGet cluster) fun _ => ih _ _)
  exact from_ _ dir index

theorem walk_dirFind (dir : Nat) (name83 : List Byte) (wantLong : Option (List Byte)) :
    L _ (dirFind dir name83 wantLong) := by
  unfold dirFind
  apply walk.bind walk.fresh
  intro l
  apply walk.bind (walk_scanChain walk _ walk.fatGet _ _ _ _ _ _)
  rintro ⟨result | acc, last⟩ <;> exact walk.pure _

theorem walk_dirEmpty (cluster : Nat) : L _ (dirEmpty cluster) := by
  unfold dirEmpty
  apply walk.bind (walk_scanChain walk _ (walk_fatNextCluster walk) _ _ _ _ _ _)
  rintro ⟨result | acc, last⟩ <;> exact walk.pure _

theorem walk_heldEntry (off : Nat) : L _ (heldEntry off) :=
  walk.look (fun _ _ _ => rfl) fun _ => walk.pure _

theorem walk_spelling (dir : Nat) (leaf : Leaf) : L _ (spelling dir leaf) := by
  have from_ : ∀ left n, L _ (uniqueFrom dir leaf.long left n) := by
    intro left
    induction left with
    | zero => exact fun _ => walk.pure _
    | succ left ih =>
      intro n
      unfold uniqueFrom
      apply walk.bind (walk_dirFind walk _ _ _)
      intro found
      cases found with
      | none => exact walk.pure _
      | some found => exact ih _
  unfold spelling
  apply walk.ite _ (walk.pure _)
  apply walk.bind (from_ 999 1)
  intro short
  cases short <;> exact walk.pure _

end Reads

section Writes
variable (walk : Writing L)
include walk

theorem walk_fatAlloc : L _ fatAlloc := by
  have search : ∀ n c, L _ (fatSearch n c) := by
    intro n
    induction n with
    | zero => exact fun _ => walk.pure _
    | succ n ih =>
      intro c
      unfold fatSearch
      apply walk.bind (walk.fatGet c)
      intro next
      apply walk.ite
      · apply walk.bind (walk.fatPut _ _)
        intro ok
        exact walk.ite (walk.bind (walk.hint _ fun _ _ _ => rfl) fun _ => walk.pure _) (walk.pure _)
      · exact walk.look (fun _ _ _ => rfl) fun _ => ih _
  have first := walk.hint (fun s => if s.allocHint < 2 ∨ s.volume.clusterEnd ≤ s.allocHint then 2 else s.allocHint)
    fun _ _ _ => rfl
  have same : ∀ s : Fs, { s with allocHint :=
        if s.allocHint < 2 ∨ s.volume.clusterEnd ≤ s.allocHint then 2 else s.allocHint } =
      if s.allocHint < 2 ∨ s.volume.clusterEnd ≤ s.allocHint then { s with allocHint := 2 } else s := by
    intro s
    split <;> rfl
  simp only [same] at first
  unfold fatAlloc
  apply walk.bind first
  intro _
  exact walk.look (fun _ _ _ => rfl) fun _ => walk.look (fun _ _ _ => rfl) fun _ => search _ _

theorem walk_fatFreeChain (cluster : Nat) : L _ (fatFreeChain cluster) := by
  have from_ : ∀ n cluster, L _ (freeFrom n cluster) := by
    intro n
    induction n with
    | zero => exact fun _ => walk.unending
    | succ n ih =>
      intro cluster
      unfold freeFrom
      apply walk.ite _ (walk.pure _)
      apply walk.bind (walk.fatGet cluster)
      intro next
      exact walk.bind (walk.fatPut _ _) fun ok => walk.ite (ih next) (walk.pure _)
  exact from_ _ cluster

theorem walk_clearCluster (cluster : Nat) : L _ (clearCluster cluster) := by
  have sectors : ∀ first n k, L _ (clearSectors first n k) := by
    intro first n
    induction n with
    | zero => exact fun _ => walk.pure _
    | succ n ih =>
      intro k
      unfold clearSectors
      exact walk.bind (walk.writeSector _) fun ok => walk.ite (ih _) (walk.pure _)
  unfold clearCluster
  apply walk.bind (walk.sector _ fun _ _ _ => rfl)
  intro _
  exact walk.look (fun _ _ _ => rfl) fun _ => sectors _ _ _

theorem walk_dirAllocRun (dir count : Nat) : L _ (dirAllocRun dir count) := by
  unfold dirAllocRun
  apply walk.bind (walk_scanChain walk.toReading _ walk.fatGet _ _ _ _ _ _)
  rintro ⟨result | acc, last⟩
  · exact walk.pure _
  · apply walk.bind (walk_fatAlloc walk)
    intro fresh
    apply walk.ite (walk.pure _)
    apply walk.bind (walk.fatPut _ _)
    intro ok
    apply walk.ite _ (walk.pure _)
    exact walk.bind (walk_clearCluster walk _) fun ok => walk.ite (walk.pure _) (walk.pure _)

theorem walk_editEntry (dir index : Nat) (change : Entry → Entry) : L _ (editEntry dir index change) := by
  unfold editEntry
  apply walk.bind (walk_dirAt walk.toReading dir index)
  intro found
  cases found with
  | none => exact walk.pure _
  | some place =>
    apply walk.bind (walk.readSector _)
    intro ok
    apply walk.ite _ (walk.pure _)
    exact walk.bind (walk.sector _ fun _ _ _ => rfl) fun _ => walk.writeSector _

theorem walk_dirEraseRun (dir first last : Nat) : L _ (dirEraseRun dir first last) := by
  have from_ : ∀ n i, L _ (dirEraseFrom dir n i) := by
    intro n
    induction n with
    | zero => exact fun _ => walk.pure _
    | succ n ih =>
      intro i
      unfold dirEraseFrom
      exact walk.bind (walk_editEntry walk _ _ _) fun ok => walk.ite (ih _) (walk.pure _)
  exact from_ _ _

theorem walk_dirWriteLfn (dir first : Nat) (name short11 : List Byte) (frags n k : Nat) :
    L _ (dirWriteLfn dir first name short11 frags n k) := by
  induction n generalizing k with
  | zero => exact walk.pure _
  | succ n ih =>
    unfold dirWriteLfn
    exact walk.bind (walk_editEntry walk _ _ _) fun ok => walk.ite (ih _) (walk.pure _)

theorem walk_dirCreate (dir : Nat) (leaf : Leaf) : L _ (dirCreate dir leaf) := by
  unfold dirCreate
  refine walk.option (walk_spelling walk.toReading dir leaf) (walk.pure _) fun spelled => ?_
  refine walk.option (walk_dirAllocRun walk _ _) (walk.pure _) fun first => ?_
  apply walk.bind (walk_dirWriteLfn walk _ _ _ _ _ _ _)
  intro ok
  apply walk.ite _ (walk.pure _)
  refine walk.option (walk_dirAt walk.toReading _ _) (walk.pure _) fun place => ?_
  apply walk.bind (walk.readSector _)
  intro ok
  exact walk.ite (walk.bind (walk.sector _ fun _ _ _ => rfl) fun _ => walk.pure _) (walk.pure _)

theorem walk_fillEntry (lba off : Nat) (change : Entry → Entry) : L _ (fillEntry lba off change) := by
  unfold fillEntry
  exact walk.bind (walk.sector _ fun _ _ _ => rfl) fun _ => walk.writeSector _

theorem walk_skipTo (n cluster : Nat) : L _ (skipTo n cluster) := by
  induction n generalizing cluster with
  | zero => exact walk.pure _
  | succ n ih =>
    unfold skipTo
    apply walk.bind (walk.fatGet cluster)
    intro next
    apply walk.ite _ (ih next)
    apply walk.bind (walk_fatAlloc walk)
    intro fresh
    apply walk.ite (walk.pure _)
    exact walk.bind (walk.fatPut _ _) fun ok => walk.ite (ih fresh) (walk.pure _)

theorem walk_writeSectors (first : Nat) (buf : Nat → Byte) (len n k pos written : Nat) :
    L _ (writeSectors first buf len n k pos written) := by
  induction n generalizing k pos written with
  | zero => exact walk.pure _
  | succ n ih =>
    unfold writeSectors
    apply walk.ite _ (walk.pure _)
    apply walk.bind (walk.ite (walk.pure _) (walk.readSector _))
    intro ok
    apply walk.ite _ (walk.pure _)
    apply walk.bind (walk.sector _ fun _ _ _ => rfl)
    intro _
    exact walk.bind (walk.writeSector _) fun ok => walk.ite (ih _ _ _) (walk.pure _)

theorem walk_writeClusters (buf : Nat → Byte) (len n cluster pos written : Nat) :
    L _ (writeClusters buf len n cluster pos written) := by
  induction n generalizing cluster pos written with
  | zero => exact walk.unending
  | succ n ih =>
    unfold writeClusters
    apply walk.look fun _ _ _ => rfl
    intro s
    apply walk.bind (walk_writeSectors walk _ _ _ _ _ _ _)
    intro done
    cases done with
    | none => exact walk.pure _
    | some written =>
      apply walk.ite _ (walk.pure _)
      apply walk.bind (walk_skipTo walk 1 cluster)
      intro next
      cases next with
      | none => exact walk.pure _
      | some next => exact ih _ _ _

theorem walk_locate (dir : Nat) (leaf : Leaf) : L _ (locate dir leaf) := by
  unfold locate
  apply walk.bind (walk_dirFind walk.toReading _ _ _)
  intro found
  cases found with
  | none =>
    apply walk.bind (walk_dirCreate walk _ _)
    intro made
    cases made with
    | none => exact walk.pure _
    | some place => exact walk.bind (walk.writeSector _) fun ok => walk.ite (walk.pure _) (walk.pure _)
  | some found =>
    exact walk.bind (walk_heldEntry walk.toReading _) fun e => walk.ite (walk.pure _) (walk.pure _)

/-! Every call that changes the volume forgets the last read first. -/

variable {M : ∀ α : Type, Prog Fs α → Prop}
  (forget : ∀ {α : Type} {f : Unit → Prog Fs α}, L α (f ()) → M α (forgetReadCache >>= f))
include forget

theorem walk_remove (path : CString) : M _ (remove path) := by
  apply forget
  apply walk.look fun _ _ _ => rfl
  intro s
  apply walk.ite (walk.pure _)
  refine walk.option (walk_resolveParent walk.toReading _) (walk.pure _) fun parent => ?_
  refine walk.option (walk_dirFind walk.toReading _ _ _) (walk.pure _) fun found => ?_
  apply walk.bind (walk_heldEntry walk.toReading _)
  intro e
  apply walk.ite (walk.pure _)
  apply walk.bind (walk_dirEraseRun walk _ _ _)
  intro ok
  exact walk.ite (walk.bind (walk_fatFreeChain walk _) fun _ => walk.pure _) (walk.pure _)

theorem walk_rename (source target : CString) : M _ (rename source target) := by
  apply forget
  apply walk.look fun _ _ _ => rfl
  intro s
  apply walk.ite (walk.pure _)
  refine walk.option (walk_resolveParent walk.toReading _) (walk.pure _) fun parent => ?_
  refine walk.option (walk_dirFind walk.toReading _ _ _) (walk.pure _) fun found => ?_
  apply walk.bind (walk_heldEntry walk.toReading _)
  intro e
  refine walk.option (walk_resolveParent walk.toReading _) (walk.pure _) fun parent => ?_
  apply walk.bind (walk_dirFind walk.toReading _ _ _)
  intro taken
  cases taken with
  | some taken => exact walk.pure _
  | none =>
    refine walk.option (walk_dirCreate walk _ _) (walk.pure _) fun place => ?_
    apply walk.bind (walk_fillEntry walk _ _ _)
    intro ok
    apply walk.ite _ (walk.pure _)
    apply walk.bind (walk_dirFind walk.toReading _ _ _)
    intro old
    cases old with
    | none => exact walk.pure _
    | some old => exact walk_dirEraseRun walk _ _ _

theorem walk_writeAt (path : CString) (offset : BitVec 32) (buf : Nat → Byte) (len : BitVec 32) :
    M _ (writeAt path offset buf len) := by
  have started : ∀ cluster, L _ (firstCluster cluster) := by
    intro cluster
    unfold firstCluster
    exact walk.ite (walk.bind (walk_fatAlloc walk) fun _ => walk.pure _) (walk.pure _)
  apply forget
  apply walk.look fun _ _ _ => rfl
  intro s
  apply walk.ite (walk.pure _)
  refine walk.option (walk_resolveParent walk.toReading _) (walk.pure _) fun parent => ?_
  refine walk.option (walk_locate walk _ _) (walk.pure _) fun place => ?_
  apply walk.look fun _ _ _ => rfl
  intro s
  refine walk.option (started _) (walk.pure _) fun first => ?_
  refine walk.option (walk_skipTo walk _ _) (walk.pure _) fun cluster => ?_
  apply walk.bind (walk_writeClusters walk _ _ _ _ _ _)
  intro ok
  apply walk.ite _ (walk.pure _)
  apply walk.bind (walk.readSector _)
  intro ok
  apply walk.ite _ (walk.pure _)
  exact walk.bind (walk_fillEntry walk _ _ _) fun ok => walk.ite (walk.pure _) (walk.pure _)

theorem walk_mkdir (path : CString) : M _ (mkdir path) := by
  apply forget
  apply walk.look fun _ _ _ => rfl
  intro s
  apply walk.ite (walk.pure _)
  refine walk.option (walk_resolveParent walk.toReading _) (walk.pure _) fun parent => ?_
  apply walk.bind (walk_dirFind walk.toReading _ _ _)
  intro found
  cases found with
  | some found => exact walk.pure _
  | none =>
    apply walk.bind (walk_fatAlloc walk)
    intro fresh
    apply walk.ite (walk.pure _)
    apply walk.bind (walk_clearCluster walk _)
    intro ok
    apply walk.ite _ (walk.pure _)
    apply walk.look fun _ _ _ => rfl
    intro s
    apply walk.bind (walk.sector _ fun _ _ _ => rfl)
    intro _
    apply walk.bind (walk.writeSector _)
    intro ok
    apply walk.ite _ (walk.pure _)
    apply walk.bind (walk_dirCreate walk _ _)
    intro place
    cases place with
    | none => exact walk.pure _
    | some place => exact walk_fillEntry walk _ _ _

theorem walk_rmdir (path : CString) : M _ (rmdir path) := by
  apply forget
  apply walk.look fun _ _ _ => rfl
  intro s
  apply walk.ite (walk.pure _)
  refine walk.option (walk_resolveParent walk.toReading _) (walk.pure _) fun parent => ?_
  apply walk.ite (walk.pure _)
  refine walk.option (walk_dirFind walk.toReading _ _ _) (walk.pure _) fun found => ?_
  apply walk.bind (walk_heldEntry walk.toReading _)
  intro e
  apply walk.ite (walk.pure _)
  apply walk.look fun _ _ _ => rfl
  intro s
  apply walk.ite (walk.pure _)
  apply walk.bind (walk_dirEmpty walk.toReading _)
  intro ok
  apply walk.ite _ (walk.pure _)
  apply walk.bind (walk_dirEraseRun walk _ _ _)
  intro ok
  exact walk.ite (walk.bind (walk_fatFreeChain walk _) fun _ => walk.pure _) (walk.pure _)

end Writes

end Ubiqos.Fat
