import Ubiqos.Io.Descriptors

/-!
A descriptor and the file that its `open` resolved. The entry it names holds that
path, as long as a path that is opened fits the entry and no slot in use is written
over: an entry is taken again only when no slot names it.
-/

namespace Ubiqos.Io

open Function Machine Tally

section Opened
variable {n k f : Nat} {t t' : Table n k f} {spot : Pid n × Fin k} {origin : Origin n k}

def SamePaths (t t' : Table n k f) : Prop := ∀ i, (t'.files i).path = (t.files i).path

theorem SamePaths.trans {t'' : Table n k f} (first : SamePaths t t') (next : SamePaths t' t'') :
    SamePaths t t'' := fun i => (next i).trans (first i)

theorem addHolder_samePaths (t : Table n k f) (slot : Slot f) : SamePaths t (addHolder t slot) := by
  intro i
  rw [addHolder, (addEnd_frame _ slot).2]
  cases names : slot.file with
  | none => simp [addFile, names]
  | some j =>
    by_cases same : i = j
    · simp [addFile, setFile, names, same]
    · simp [addFile, setFile, names, same]

theorem copySlot_samePaths (t : Table n k f) (source target : Pid n × Fin k) :
    SamePaths t (copySlot t source target) :=
  addHolder_samePaths (setSlot t target (t.paths source)) (t.paths source)

theorem fileRelease_samePaths (t : Table n k f) (spot : Pid n × Fin k) :
    SamePaths t (fileRelease t spot) := by
  intro i
  unfold fileRelease
  cases (t.paths spot).file with
  | none => rfl
  | some j =>
    by_cases same : i = j
    · simp [setSlot, setFile, same]
    · simp [setSlot, setFile, same]

theorem pipeRelease_samePaths (t : Table n k f) (spot : Pid n × Fin k) :
    SamePaths t (pipeRelease t spot) := by
  intro i
  unfold pipeRelease
  cases (t.paths spot).pipe with
  | none => rfl
  | some q => simp [setSlot, (dropEnd_frame t _).2]

theorem close_samePaths (t : Table n k f) (path owner : Int) :
    SamePaths t (close t path owner).1 := by
  unfold close
  split
  · exact fileRelease_samePaths t _
  · split
    · exact pipeRelease_samePaths t _
    · split <;> exact fun _ => rfl

theorem closePath_samePaths (t : Table n k f) (pid : Pid n) (p : Fin k) :
    SamePaths t (closePath pid t p) :=
  (fileRelease_samePaths t (pid, p)).trans (pipeRelease_samePaths _ (pid, p))

theorem closeAll_samePaths (t : Table n k f) (owner : Int) : SamePaths t (closeAll t owner) := by
  unfold closeAll
  split
  · exact fun _ => rfl
  · exact foldl_invariant (SamePaths t) (fun _ => rfl)
      (fun _ p _ same => same.trans (closePath_samePaths _ _ p))

theorem inherit_samePaths (t : Table n k f) (parent child : Int) :
    SamePaths t (inherit t parent child) := by
  unfold inherit
  split
  · exact foldl_invariant (SamePaths t) (fun _ => rfl)
      (fun _ p _ same => same.trans (copySlot_samePaths _ _ _))
  · exact fun _ => rfl

/-- The entry of a descriptor holds the path that its `open` resolved. -/
def Backs (t : Table n k f) : Option (Fin f) → Option Text → Prop
  | none, none => True
  | some i, some path => (t.files i).path = path
  | _, _ => False

structure Known (t : Table n k f) (origin : Origin n k) : Prop where
  exact : Exact t
  backs : ∀ spot, Backs t (t.paths spot).file (origin spot)

theorem Backs.same (paths : SamePaths t t') {file : Option (Fin f)} {path : Option Text}
    (backs : Backs t file path) : Backs t' file path := by
  cases file with
  | none => cases path <;> exact backs
  | some i =>
    cases path with
    | none => exact backs
    | some path => exact (paths i).trans backs

theorem place_index {pid : Pid n} {p : Fin k} {owner : Int} (owns : index n owner = some pid) :
    place n k ((p : Nat) : Int) owner = some (pid, p) := by
  have here : index k ((p : Nat) : Int) = some p := by simp [index]
  simp [place, owns, here]

theorem place_some {path owner : Int} (here : place n k path owner = some spot) :
    index n owner = some spot.1 ∧ index k path = some spot.2 := by
  unfold place at here
  split at here
  · rename_i pid p owns which
    cases here
    exact ⟨owns, which⟩
  · cases here

theorem index_value {size : Nat} {raw : Int} {i : Fin size} (found : index size raw = some i) :
    raw = (i : Nat) := by
  unfold index at found
  split at found
  · cases found
    simp only
    omega
  · cases found

theorem given_refused (origin : Origin n k) (owner : Int) (path : Option Text) :
    given origin owner (-1) path = origin := by
  have none : place n k (-1) owner = none := by
    have out : index k (-1) = none := by simp [index]
    cases who : index n owner <;> simp [place, who, out]
  simp [given, none]

theorem Known.still (known : Known t origin) (exact : Exact t') (paths : SamePaths t t')
    (files : ∀ spot, (t'.paths spot).file = (t.paths spot).file) : Known t' origin := by
  refine ⟨exact, ?_⟩
  intro spot
  rw [files]
  exact (known.backs spot).same paths

theorem free_file {slot : Slot f} (free : isFree slot = true) : slot.file = none :=
  (uncounted_of_free free).1

theorem Known.close (known : Known t origin) (path owner : Int) :
    Known (close t path owner).1 (given origin owner path none) := by
  obtain ⟨owed, freed, others⟩ := close_owed known.exact path owner
  refine ⟨owed, ?_⟩
  intro spot
  cases here : place n k path owner with
  | none =>
    rw [others spot (by simp [here])]
    simp only [given, here]
    exact (known.backs spot).same (close_samePaths t path owner)
  | some target =>
    simp only [given, here]
    by_cases same : spot = target
    · subst same
      rw [free_file (freed spot here), update_self]
      trivial
    · rw [others spot (by simp [here, Ne.symm same]), update_of_ne same]
      exact (known.backs spot).same (close_samePaths t path owner)

theorem Known.closeAll (known : Known t origin) (owner : Int) :
    Known (closeAll t owner) (track t origin (.closeAll owner)) := by
  obtain ⟨owed, freed, others⟩ := closeAll_owed known.exact owner
  refine ⟨owed, ?_⟩
  intro spot
  simp only [track]
  cases who : index n owner with
  | none =>
    rw [others spot (by simp [who])]
    exact (known.backs spot).same (closeAll_samePaths t owner)
  | some pid =>
    simp only
    split
    · rename_i same
      rw [free_file (freed spot.1 (by rw [who, same]) spot.2)]
      trivial
    · rename_i other
      rw [others spot (by simp [who, Ne.symm other])]
      exact (known.backs spot).same (closeAll_samePaths t owner)

theorem Known.copy (known : Known t origin) (source : Pid n × Fin k) {target : Pid n × Fin k}
    (free : isFree (t.paths target) = true) :
    Known (copySlot t source target) (update origin target (origin source)) := by
  obtain ⟨owed, others⟩ := copySlot_owed known.exact source free
  refine ⟨owed, ?_⟩
  intro spot
  by_cases same : spot = target
  · subst same
    have copied : (copySlot t source spot).paths spot = t.paths source := by
      simp [copySlot, addHolder_paths, setSlot]
    rw [copied, update_self]
    exact (known.backs source).same (copySlot_samePaths t source spot)
  · rw [others spot same, update_of_ne same]
    exact (known.backs spot).same (copySlot_samePaths t source target)

theorem Known.dup (known : Known t origin) (path newPath owner : Int) :
    Known (dup t path newPath owner).1 (track t origin (.dup path newPath owner)) := by
  simp only [track, originOf]
  unfold Io.dup
  cases here : place n k path owner with
  | none =>
    simp only [given_refused]
    exact known
  | some source =>
    obtain ⟨owns, which⟩ := place_some here
    simp only [Option.bind_some]
    split
    · rw [given_refused]
      exact known
    · split
      · simp only [given, here, update_eq_self]
        exact known
      · rename_i different
        split
        · split
          · rw [given_refused]
            exact known
          · rename_i p found
            simp only [given, place_index owns]
            exact known.copy source (firstSlot_some found)
        · split
          · rw [given_refused]
            exact known
          · rename_i p found
            have target : place n k newPath owner = some (source.1, p) := by
              simp [place, owns, found]
            have apart : source ≠ (source.1, p) := by
              intro same
              rw [same] at which
              exact different ((index_value found).trans (index_value which).symm)
            have closed := known.close newPath owner
            obtain ⟨_, freed, _⟩ := close_owed known.exact newPath owner
            have copied := closed.copy source (freed _ target)
            simp only [given, target] at copied ⊢
            rw [update_of_ne apart, update_idem] at copied
            exact copied

theorem inheritPaths_copies (parent child : Pid n) (visited : List (Fin k)) (nodup : visited.Nodup)
    (t : Table n k f) : ∀ p, (p ∈ visited →
        (visited.foldl (inheritPath parent child) t).paths (child, p) = t.paths (parent, p)) ∧
      (p ∉ visited →
        (visited.foldl (inheritPath parent child) t).paths (child, p) = t.paths (child, p)) := by
  induction visited generalizing t with
  | nil => simp
  | cons q rest ih =>
    obtain ⟨notRest, nodupRest⟩ := List.nodup_cons.mp nodup
    have copied : ∀ spot, (inheritPath parent child t q).paths spot =
        if spot = (child, q) then t.paths (parent, q) else t.paths spot := by
      intro spot
      by_cases same : spot = (child, q)
      · simp [inheritPath, copySlot, addHolder_paths, setSlot, same]
      · simp [inheritPath, copySlot, addHolder_paths, setSlot, same]
    intro p
    obtain ⟨inside, outside⟩ := ih nodupRest (inheritPath parent child t q) p
    rw [List.foldl_cons]
    by_cases same : p = q
    · subst same
      have first := outside notRest
      rw [copied, if_pos rfl] at first
      exact ⟨fun _ => first, fun away => absurd List.mem_cons_self away⟩
    · constructor
      · intro member
        have later := (List.mem_cons.mp member).resolve_left same
        rw [inside later, copied, if_neg (by simp [same])]
      · intro away
        have later : p ∉ rest := fun member => away (List.mem_cons_of_mem q member)
        rw [outside later, copied, if_neg (by simp [same])]

theorem Known.inherit (known : Known t origin) (parent child : Int)
    (careful : Careful t (.inherit parent child)) :
    Known (inherit t parent child) (track t origin (.inherit parent child)) := by
  obtain ⟨owed, _⟩ := inherit_owed known.exact parent child careful
  have paths := inherit_samePaths t parent child
  refine ⟨owed, ?_⟩
  intro spot
  simp only [track]
  cases whose : index n parent with
  | none =>
    have nothing : Io.inherit t parent child = t := by simp [Io.inherit, whose]
    rw [nothing]
    exact known.backs spot
  | some father =>
    cases who : index n child with
    | none =>
      have nothing : Io.inherit t parent child = t := by simp [Io.inherit, who]
      rw [nothing]
      exact known.backs spot
    | some son =>
      have loop : Io.inherit t parent child = (List.finRange k).foldl (inheritPath father son) t := by
        simp [Io.inherit, whose, who]
      obtain ⟨pid, p⟩ := spot
      simp only
      split
      · rename_i same
        subst same
        have copied := (inheritPaths_copies father pid (List.finRange k) (List.nodup_finRange k) t p).1
          (List.mem_finRange p)
        rw [loop] at paths ⊢
        rw [copied]
        exact (known.backs (father, p)).same paths
      · rename_i other
        have away := (inheritPaths_owed father son (List.finRange k) (List.nodup_finRange k) known.exact
          (fun q _ => careful (by simp [whose]) son who q)).2 (pid, p) (by simp [other])
        rw [loop] at paths ⊢
        rw [away]
        exact (known.backs (pid, p)).same paths

theorem Known.openFile (known : Known t origin) (path : List Byte) (owner : Int)
    (fits : path.length ≤ 63) :
    Known (openFile t path owner).1 (track t origin (.openFile path owner)) := by
  obtain ⟨owed, _⟩ := openFile_owed known.exact path owner
  have whole : path.take 63 = path := List.take_of_length_le fits
  refine ⟨owed, ?_⟩
  intro spot
  simp only [track]
  unfold Io.openFile
  cases who : index n owner with
  | none =>
    rw [given_refused]
    exact known.backs spot
  | some pid =>
    simp only
    split
    · rename_i i p unused found
      have refs : (t.files i).refs = 0 := by simpa using List.find?_some unused
      have nobody : ∀ other, (t.paths other).file ≠ some i := by
        intro other names
        have counts := known.exact.files i
        rw [refs] at counts
        have none := (tally_eq_zero (named i) t.paths).mp (by simpa using counts.symm) other
        simp [named, names] at none
      simp only [given, place_index who, whole]
      by_cases same : spot = (pid, p)
      · subst same
        simp [Backs, setSlot, setFile]
      · simp only [setSlot, setFile, update_of_ne same]
        have before := known.backs spot
        cases names : (t.paths spot).file with
        | none =>
          rw [names] at before
          cases from_ : origin spot with
          | none => trivial
          | some path' => simp [Backs, from_] at before
        | some j =>
          have other : j ≠ i := by
            rintro rfl
            exact nobody spot names
          rw [names] at before
          cases from_ : origin spot with
          | none => simp [Backs, from_] at before
          | some path' =>
            rw [from_] at before
            simpa [Backs, update_of_ne other] using before
    · rw [given_refused]
      exact known.backs spot

theorem openDevice_files (exact : Exact t) (name : String) (opens : Bool) (owner : Int) :
    SamePaths t (openDevice t name opens owner).1 ∧
      ∀ spot, ((openDevice t name opens owner).1.paths spot).file = (t.paths spot).file := by
  unfold openDevice
  split
  · rename_i pid d _ _
    split
    · exact ⟨fun _ => rfl, fun _ => rfl⟩
    · rename_i p found
      have free := free_of_vacant (exact.single (pid, p)) (firstSlot_some found)
      split
      · refine ⟨fun _ => rfl, ?_⟩
        intro spot
        by_cases same : spot = (pid, p)
        · subst same
          simp [setSlot, free_file free]
        · simp [setSlot, same]
      · exact ⟨fun _ => rfl, fun _ => rfl⟩
  · exact ⟨fun _ => rfl, fun _ => rfl⟩

theorem setSlot_files {slot : Slot f} (same : slot.file = (t.paths spot).file) (other : Pid n × Fin k) :
    ((setSlot t spot slot).paths other).file = (t.paths other).file := by
  by_cases here : other = spot
  · subst here
    simp [setSlot, same]
  · simp [setSlot, here]

theorem openAs_files (t : Table n k f) (name : String) (opens : Bool) (owner path : Int) :
    SamePaths t (openAs t name opens owner path).1 ∧
      ∀ spot, ((openAs t name opens owner path).1.paths spot).file = (t.paths spot).file := by
  unfold openAs
  split
  · split
    · exact ⟨fun _ => rfl, setSlot_files rfl⟩
    · exact ⟨fun _ => rfl, fun _ => rfl⟩
  · exact ⟨fun _ => rfl, fun _ => rfl⟩

theorem pipe_files (t : Table n k f) (owner : Int) :
    SamePaths t (pipe t owner).1 ∧ ∀ spot, ((pipe t owner).1.paths spot).file = (t.paths spot).file := by
  unfold pipe
  split
  · exact ⟨fun _ => rfl, fun _ => rfl⟩
  · split
    · refine ⟨fun _ => rfl, ?_⟩
      intro spot
      exact (setSlot_files (by rfl) spot).trans (setSlot_files (by rfl) spot)
    · exact ⟨fun _ => rfl, fun _ => rfl⟩

theorem pipepair_files (t : Table n k f) (owner : Int) :
    SamePaths t (pipepair t owner).1 ∧
      ∀ spot, ((pipepair t owner).1.paths spot).file = (t.paths spot).file := by
  unfold pipepair
  split
  · exact ⟨fun _ => rfl, fun _ => rfl⟩
  · split
    · refine ⟨fun _ => rfl, ?_⟩
      intro spot
      exact (setSlot_files (by rfl) spot).trans (setSlot_files (by rfl) spot)
    · exact ⟨fun _ => rfl, fun _ => rfl⟩

theorem write_files (t : Table n k f) (path owner : Int) (bytes : List Byte) :
    (step t (.write path owner bytes)).files = t.files ∧
      (step t (.write path owner bytes)).paths = t.paths := by
  simp only [step]
  split
  · simp only [pipeWrite]
    split
    · exact ⟨rfl, rfl⟩
    · split <;> exact ⟨rfl, rfl⟩
  · exact ⟨rfl, rfl⟩

theorem read_files (t : Table n k f) (path owner : Int) (len : Nat) :
    (step t (.read path owner len)).files = t.files ∧
      (step t (.read path owner len)).paths = t.paths := by
  simp only [step]
  split
  · simp only [pipeRead]
    split <;> exact ⟨rfl, rfl⟩
  · exact ⟨rfl, rfl⟩

theorem addDescriptor_files (t : Table n k f) (name : String) (configured : Bool) :
    (addDescriptor t name configured).files = t.files ∧
      (addDescriptor t name configured).paths = t.paths := by
  unfold addDescriptor
  split
  · exact ⟨rfl, rfl⟩
  · split <;> exact ⟨rfl, rfl⟩

def FitsEntry : Op → Prop
  | .openFile path _ => path.length ≤ 63
  | _ => True

theorem Known.call (known : Known t origin) {op : Op} (careful : Careful t op) (fits : FitsEntry op) :
    Known (step t op) (track t origin op) := by
  have exact : Exact (step t op) := (step_owed known.exact careful).1
  cases op with
  | addDescriptor name configured =>
    obtain ⟨files, paths⟩ := addDescriptor_files t name configured
    exact known.still exact (fun i => by rw [step, files]) (fun spot => by rw [step, paths])
  | openDevice name opens owner =>
    obtain ⟨paths, files⟩ := openDevice_files known.exact name opens owner
    exact known.still exact paths files
  | openAs name opens owner path =>
    obtain ⟨paths, files⟩ := openAs_files t name opens owner path
    exact known.still exact paths files
  | openFile path owner => exact known.openFile path owner fits
  | pipe owner =>
    obtain ⟨paths, files⟩ := pipe_files t owner
    exact known.still exact paths files
  | pipepair owner =>
    obtain ⟨paths, files⟩ := pipepair_files t owner
    exact known.still exact paths files
  | dup path newPath owner => exact known.dup path newPath owner
  | close path owner => exact known.close path owner
  | inherit parent child => exact known.inherit parent child careful
  | closeAll owner => exact known.closeAll owner
  | write path owner bytes =>
    obtain ⟨files, paths⟩ := write_files t path owner bytes
    exact known.still exact (fun i => by rw [files]) (fun spot => by rw [paths])
  | read path owner len =>
    obtain ⟨files, paths⟩ := read_files t path owner len
    exact known.still exact (fun i => by rw [files]) (fun spot => by rw [paths])

end Opened

section Runs
variable {n k f : Nat} {s : Files n k f}

structure Anchored (s : Files n k f) : Prop where
  known : Known s.table s.origin
  settled : ∀ pid, Settled (s.cwd pid)
  absolute : ∀ spot path, s.origin spot = some path → Absolute path

/-- A path that is opened fits its entry once it is resolved, and a call that
writes over a slot without a look at it finds it free. -/
def Allowed (s : Files n k f) : Request → Prop
  | .open owner name _ _ => (makeAbs (cwdOf s owner) name).length ≤ 63
  | .exec parent child => Careful s.table (.inherit parent child)
  | .table op => Careful s.table op
  | _ => True

instance (s : Files n k f) : (request : Request) → Decidable (Allowed s request)
  | .open .. => inferInstanceAs (Decidable (_ ≤ _))
  | .exec parent child => inferInstanceAs (Decidable (Careful s.table (.inherit parent child)))
  | .table op => inferInstanceAs (Decidable (Careful s.table op))
  | .fdio .. | .seek .. | .fileSeek .. | .chdir .. | .mount _ | .unmount _ => isTrue trivial

theorem settled_root : Settled [slash] := ⟨[slash], ⟨[], by simp, by decide⟩, by decide⟩

theorem settled_cwdOf (settled : ∀ pid, Settled (s.cwd pid)) (owner : Int) : Settled (cwdOf s owner) := by
  simp only [cwdOf]
  cases index n owner with
  | none => exact settled_root
  | some pid => exact settled pid

theorem given_range {origin : Origin n k} {owner fd : Int} {path : Option Text}
    {spot : Pid n × Fin k} {p : Text} (now : given origin owner fd path spot = some p) :
    origin spot = some p ∨ path = some p := by
  simp only [given] at now
  cases here : place n k fd owner with
  | none =>
    rw [here] at now
    exact .inl now
  | some target =>
    simp only [here] at now
    by_cases same : spot = target
    · rw [same, update_self] at now
      exact .inr now
    · rw [update_of_ne same] at now
      exact .inl now

theorem track_range {t : Table n k f} {origin : Origin n k} {op : Op} {spot : Pid n × Fin k} {p : Text}
    (now : track t origin op spot = some p) :
    (∃ spot, origin spot = some p) ∨ ∃ owner, op = .openFile p owner := by
  cases op with
  | openFile path owner =>
    rcases given_range now with old | new
    · exact .inl ⟨spot, old⟩
    · cases new
      exact .inr ⟨owner, rfl⟩
  | dup path newPath owner =>
    rcases given_range now with old | new
    · exact .inl ⟨spot, old⟩
    · obtain ⟨source, _, old⟩ := Option.bind_eq_some_iff.mp new
      exact .inl ⟨source, old⟩
  | close path owner =>
    rcases given_range now with old | new
    · exact .inl ⟨spot, old⟩
    · cases new
  | inherit parent child =>
    simp only [track] at now
    cases whose : index n parent with
    | none => exact .inl ⟨spot, by simpa [whose] using now⟩
    | some father =>
      cases who : index n child with
      | none => exact .inl ⟨spot, by simpa [whose, who] using now⟩
      | some son =>
        simp only [whose, who] at now
        split at now
        · exact .inl ⟨_, now⟩
        · exact .inl ⟨_, now⟩
  | closeAll owner =>
    simp only [track] at now
    cases who : index n owner with
    | none => exact .inl ⟨spot, by simpa [who] using now⟩
    | some pid =>
      simp only [who] at now
      split at now
      · cases now
      · exact .inl ⟨spot, now⟩
  | _ => exact .inl ⟨spot, now⟩

theorem Anchored.call (sound : Anchored s) {op : Op} (careful : Careful s.table op) (fits : FitsEntry op)
    (resolved : ∀ path owner, op = .openFile path owner → Absolute path) : Anchored (call s op) where
  known := sound.known.call careful fits
  settled := sound.settled
  absolute := by
    intro spot path now
    rcases track_range now with ⟨other, old⟩ | ⟨owner, opens⟩
    · exact sound.absolute other path old
    · exact resolved path owner opens

theorem Anchored.setPos (sound : Anchored s) (i : Fin f) (pos : U32) : Anchored (setPos s i pos) := by
  have refs : ∀ j, ((setFile s.table i { s.table.files i with pos := pos }).files j).refs =
      (s.table.files j).refs := by
    intro j
    by_cases same : j = i
    · simp [setFile, same]
    · simp [setFile, same]
  have paths : SamePaths s.table (setFile s.table i { s.table.files i with pos := pos }) := by
    intro j
    by_cases same : j = i
    · simp [setFile, same]
    · simp [setFile, same]
  have exact : Exact (setFile s.table i { s.table.files i with pos := pos }) := by
    have before := sound.known.exact
    exact ⟨fun j => by rw [refs]; exact before.files j, before.readers, before.writers, before.single⟩
  exact ⟨sound.known.still exact paths (fun _ => rfl), sound.settled, sound.absolute⟩

theorem Anchored.moveTo (sound : Anchored s) (owner : Int) {abs : Text} (absolute : Absolute abs) :
    Anchored (cwdSetOf s owner abs).1 := by
  simp only [cwdSetOf]
  cases index n owner with
  | none => exact sound
  | some pid =>
    refine ⟨sound.known, ?_, sound.absolute⟩
    intro other
    by_cases same : other = pid
    · subst same
      simp only [update_self]
      exact ⟨abs, absolute, rfl⟩
    · simp only [update_of_ne same]
      exact sound.settled other

theorem fsOpen_anchored (sound : Anchored s) (owner : Int) (name : Text) (flags : Nat)
    (found : Option (Bool × U32)) (fits : (makeAbs (cwdOf s owner) name).length ≤ 63) :
    Anchored (fsOpen s owner name flags found).1 := by
  have opened : Anchored (call s (.openFile (makeAbs (cwdOf s owner) name) owner)) := by
    have careful : Careful s.table (.openFile (makeAbs (cwdOf s owner) name) owner) := trivial
    apply sound.call careful fits
    intro path _ same
    cases same
    exact makeAbs_absolute (settled_cwdOf sound.settled owner) name
  simp only [fsOpen]
  generalize (found.map (·.2)).getD 0 = size
  split
  · exact sound
  · split
    · exact sound
    · split
      · exact sound
      · split
        · exact sound
        · split
          · exact opened
          · split
            · split
              · exact opened.setPos _ _
              · exact opened
            · exact opened

theorem fsExec_anchored (sound : Anchored s) (parent child : Int)
    (careful : Careful s.table (.inherit parent child)) : Anchored (fsExec s parent child) := by
  have copied := sound.call careful trivial (by simp)
  simp only [fsExec]
  cases index n parent with
  | none => exact copied
  | some p =>
    cases index n child with
    | none => exact copied
    | some c =>
      refine ⟨copied.known, ?_, copied.absolute⟩
      intro other
      by_cases same : other = c
      · subst same
        have before := sound.settled p
        simp only [update_self]
        show Settled ((s.cwd p).take 63)
        rw [List.take_of_length_le before.short]
        exact before
      · simp only [update_of_ne same]
        exact sound.settled other

theorem serve_anchored (sound : Anchored s) {request : Request} (allowed : Allowed s request) :
    Anchored (serve s request) := by
  cases request with
  | «open» owner name flags found => exact fsOpen_anchored sound owner name flags found allowed
  | fdio owner fd answer =>
    simp only [serve, fsFdio]
    split
    · split
      · exact sound.setPos _ _
      · exact sound
    · exact sound
  | seek owner fd offset size =>
    simp only [serve, fsSeek]
    split
    · exact sound.setPos _ _
    · exact sound
  | fileSeek owner fd offset whence =>
    simp only [serve, fileSeek]
    split
    · split
      · exact sound.setPos _ _
      · split
        · exact sound.setPos _ _
        · exact sound
    · exact sound
  | chdir owner name isDir =>
    have absolute := makeAbs_absolute (settled_cwdOf sound.settled owner) name
    simp only [serve, fsChdir]
    split
    · exact sound.moveTo owner absolute
    · split
      · exact sound
      · split
        · exact sound
        · exact sound.moveTo owner absolute
  | exec parent child => exact fsExec_anchored sound parent child allowed
  | mount name => exact ⟨sound.known, sound.settled, sound.absolute⟩
  | unmount name => exact ⟨sound.known, sound.settled, sound.absolute⟩
  | table op =>
    cases op with
    | openFile path owner => exact sound
    | _ => exact sound.call allowed trivial (by simp)

theorem start_anchored (n k f : Nat) : Anchored (fileStart n k f) :=
  ⟨⟨init_exact n k f, fun _ => trivial⟩, fun _ => settled_root, by simp [fileStart]⟩

theorem Anchored.target (sound : Anchored s) {fd owner : Int} {path : Text}
    (opened : originOf s.origin fd owner = some path) :
    (fileAt s.table fd owner).isSome = true ∧ target s fd owner = vfsSplit s.mounted path := by
  obtain ⟨spot, here, origin⟩ := Option.bind_eq_some_iff.mp opened
  have backs := sound.known.backs spot
  rw [origin] at backs
  cases names : (s.table.paths spot).file with
  | none => simp [names, Backs] at backs
  | some i =>
    rw [names] at backs
    have entry : fileAt s.table fd owner = some i := by
      simp [fileAt, fileEntry, here, Option.filter, names]
    refine ⟨by simp [entry], ?_⟩
    simp only [Io.target, entry, Option.bind_some]
    exact congrArg (vfsSplit s.mounted) backs

theorem fsOpen_origin (s : Files n k f) (owner : Int) (name : Text) (flags : Nat)
    (found : Option (Bool × U32)) (granted : 0 ≤ (fsOpen s owner name flags found).2) :
    originOf (fsOpen s owner name flags found).1.origin (fsOpen s owner name flags found).2 owner =
      some (makeAbs (cwdOf s owner) name) := by
  have opened : 0 ≤ (openFile s.table (makeAbs (cwdOf s owner) name) owner).2 →
      originOf (call s (.openFile (makeAbs (cwdOf s owner) name) owner)).origin
        (openFile s.table (makeAbs (cwdOf s owner) name) owner).2 owner =
          some (makeAbs (cwdOf s owner) name) := by
    intro good
    simp only [call, track, originOf, given]
    generalize makeAbs (cwdOf s owner) name = abs at good
    unfold openFile at good ⊢
    cases who : index n owner with
    | none => simp [who] at good
    | some pid =>
      simp only [who] at good ⊢
      split at good
      · rename_i i p unused free
        simp only [place_index who, Option.bind_some, update_self]
      · simp at good
  simp only [fsOpen] at granted ⊢
  generalize (found.map (·.2)).getD 0 = size at granted ⊢
  generalize (isSecret (makeAbs (cwdOf s owner) name) && flags % 4 != 1) = secret at granted ⊢
  generalize (vfsSplit s.mounted (makeAbs (cwdOf s owner) name)).isNone = nowhere at granted ⊢
  generalize (found.any (·.1)) = dir at granted ⊢
  generalize (found.isNone && !(flags.testBit 6 || flags.testBit 9)) = missing at granted ⊢
  cases secret with
  | true => simp [fsRefused] at granted
  | false =>
    cases nowhere with
    | true => simp at granted
    | false =>
      cases dir with
      | true => simp at granted
      | false =>
        cases missing with
        | true => simp at granted
        | false =>
          simp only [Bool.false_eq_true, if_false] at granted ⊢
          split at granted
          · simp at granted
          · rename_i good
            rw [if_neg good]
            have origin := opened (by omega)
            split
            · split
              · exact origin
              · exact origin
            · exact origin

/-- Along every run each descriptor that an `open`, a `dup` or a parent gave is one on
the path that was resolved then: transfers and seeks act on that path and no other,
wherever the process has gone, and two paths that differ are never one file. -/
theorem run_descriptors (n k f : Nat) {requests : List Request}
    (allowed : Along serve Allowed (fileStart n k f) requests) :
    let s := requests.foldl serve (fileStart n k f)
    (∀ fd owner path, originOf s.origin fd owner = some path →
      (fileAt s.table fd owner).isSome = true ∧ target s fd owner = vfsSplit s.mounted path) ∧
    (∀ fd owner path fd' owner' path', originOf s.origin fd owner = some path →
      originOf s.origin fd' owner' = some path' → path ≠ path' →
        ∀ found, target s fd owner = some found → target s fd' owner' ≠ some found) ∧
    ∀ owner name flags found, 0 ≤ (fsOpen s owner name flags found).2 →
      originOf (fsOpen s owner name flags found).1.origin (fsOpen s owner name flags found).2 owner =
        some (makeAbs (cwdOf s owner) name) := by
  intro s
  have sound : Anchored s :=
    along_invariant Anchored allowed (start_anchored n k f) (fun _ _ _ allowed sound => serve_anchored sound allowed)
  refine ⟨fun fd owner path opened => sound.target opened, ?_, fsOpen_origin s⟩
  intro fd owner path fd' owner' path' opened opened' differ found here there
  obtain ⟨spot, _, origin⟩ := Option.bind_eq_some_iff.mp opened
  obtain ⟨spot', _, origin'⟩ := Option.bind_eq_some_iff.mp opened'
  rw [(sound.target opened).2] at here
  rw [(sound.target opened').2] at there
  exact differ (vfsSplit_injective (sound.absolute spot path origin) (sound.absolute spot' path' origin')
    here there)

/-- A process opens a file by a relative name, goes elsewhere, and starts another that
writes through a copy of the descriptor. -/
theorem run_descriptors_elsewhere :
    let s := [Request.mount (text "tmp"), .chdir 1 (text "/tmp") true,
      .open 1 (text "./p") 0x42 none, .table (.dup 0 2 1), .chdir 1 (text "/") true, .exec 1 2,
      .table (.close 0 1), .fdio 2 2 5].foldl serve (fileStart 3 4 2)
    target s 2 2 = vfsSplit s.mounted (text "/tmp/p") := by
  intro s
  exact ((run_descriptors 3 4 2 (by decide +kernel)).1 2 2 (text "/tmp/p") (by decide +kernel)).2

/-- Two paths of the same first sixty-three bytes: the second descriptor acts on a third
path, and so does the first. -/
theorem cut_paths_meet :
    let long := fun c : BitVec 8 => text "/tmp/" ++ List.replicate 58 0x61 ++ [c]
    let s := [Request.mount (text "tmp"), .open 1 (long 0x62) 0x42 none,
      .open 1 (long 0x63) 0x42 none].foldl serve (fileStart 2 4 2)
    originOf s.origin 0 1 = some (long 0x62) ∧ originOf s.origin 1 1 = some (long 0x63) ∧
      target s 0 1 = some (text "tmp", slash :: List.replicate 58 0x61) ∧
      target s 1 1 = target s 0 1 := by
  decide +kernel

end Runs

end Ubiqos.Io
