import Ubiqos.Modules.Users

/-!
One entry for a name. The directory compares names in three ways: as strings
when a module is registered, without regard to case when a user types one, and
by their first eleven bytes when one is linked. The last of these reads on
behind a short name and stops within a long one.
-/

namespace Ubiqos.Modules

open Function Compact Machine

/-- What a `char *` argument points at: it ends within the room for a name. -/
structure Name where
  bytes : Buffer
  ended : ∃ i < nameLen, bytes i = 0

inductive Call where
  | addResident (header : Header) (name : Name)
  | addImage (image : Header) (name : Name)
  | lookUp (user : Name)
  | link (name : Name)
  | unlink (address : Addr)

def names (d : Directory) : List (List Byte) := (items d.entries).map (fun e => text e.name)

section Steps
variable (flash : List Resident)

def Call.step (d : Directory) : Call → Directory
  | .addResident header name => (moddirAddResident flash d header name.bytes).1
  | .addImage image name => (moddirAddImage flash d image name.bytes).1
  | .lookUp user => (moddirMatch flash d user.bytes).1
  | .link name => (moddirLink flash d name.bytes).1
  | .unlink address => moddirUnlink d address

/-- The entry that a link by eleven bytes takes has the name asked for, and when
there is none, no other entry has it or none is made. -/
def Tells (d : Directory) (name : Buffer) : Prop :=
  match find d.entries (fun e => nameEq e.name name) with
  | some i => text (d.entries.slot i).name = text name
  | none => entryNamed d name = none ∨ flashLookup flash name = none ∨
      maxModules ≤ d.entries.count

def Call.told (d : Directory) : Call → Prop
  | .link name => Tells flash d name.bytes
  | _ => True

instance tells_decidable (d : Directory) (name : Buffer) : Decidable (Tells flash d name) := by
  unfold Tells
  cases find d.entries (fun e => nameEq e.name name) <;> infer_instance

instance told_decidable (d : Directory) : (call : Call) → Decidable (call.told flash d)
  | .link name => inferInstanceAs (Decidable (Tells flash d name.bytes))
  | .addResident .. | .addImage .. | .lookUp _ | .unlink _ => isTrue trivial

end Steps

theorem Name.short (name : Name) : (text name.bytes).length < nameLen := by
  obtain ⟨i, inside, zero⟩ := name.ended
  obtain ⟨_, _, _, nonzero⟩ := copied_eq name.bytes nameLen
  by_contra long
  have far : i < (copied name.bytes nameLen).length := by
    rw [← text_eq_copied]
    omega
  exact nonzero i far zero

def Stays (d' : Directory) (e : Entry) : Prop :=
  ∃ e' ∈ items d'.entries, e'.header = e.header ∧ e'.owned = e.owned ∧ e'.name = e.name

section Primitives
variable {d : Directory}

theorem Stays.of_mem {e : Entry} (member : e ∈ items d.entries) : Stays d e :=
  ⟨e, member, rfl, rfl, rfl⟩

theorem putLinks_names {i : Nat} (inside : i < d.entries.count) (links : Nat) :
    (names (putLinks d i links)).Perm (names d) := by
  obtain ⟨rest, whole, changed, _⟩ := items_around d.entries inside
  exact ((changed _).map _).trans (whole.map (fun e => text e.name)).symm

theorem putLinks_stays {i : Nat} (inside : i < d.entries.count) (links : Nat) {e : Entry}
    (member : e ∈ items d.entries) : Stays (putLinks d i links) e := by
  obtain ⟨rest, whole, changed, _⟩ := items_around d.entries inside
  rcases List.mem_cons.mp (whole.mem_iff.mp member) with rfl | other
  · exact ⟨_, (changed _).mem_iff.mpr List.mem_cons_self, rfl, rfl, rfl⟩
  · exact .of_mem ((changed _).mem_iff.mpr (List.mem_cons_of_mem _ other))

theorem drop_names {i : Nat} (inside : i < d.entries.count) :
    (text (d.entries.slot i).name :: names (drop d i)).Perm (names d) := by
  obtain ⟨rest, whole, _, after⟩ := items_around d.entries inside
  have before : (names d).Perm (text (d.entries.slot i).name :: rest.map (fun e => text e.name)) :=
    whole.map (fun e : Entry => text e.name)
  exact ((after.map _).cons _).trans before.symm

theorem drop_stays {i : Nat} (inside : i < d.entries.count) {e : Entry}
    (member : e ∈ items d.entries) (other : e ≠ d.entries.slot i) : Stays (drop d i) e := by
  obtain ⟨rest, whole, _, after⟩ := items_around d.entries inside
  rcases List.mem_cons.mp (whole.mem_iff.mp member) with same | inRest
  · exact absurd same other
  · exact .of_mem (after.mem_iff.mpr inRest)

theorem register_names {header : Header} {owned : Bool} {name : Buffer}
    (short : (text name).length < nameLen) :
    names (register d header owned name) = names d ++ [text name] := by
  simp [names, register, text_nameCopy short]

theorem register_stays {header : Header} {owned : Bool} {name : Buffer} {e : Entry}
    (member : e ∈ items d.entries) : Stays (register d header owned name) e := by
  apply Stays.of_mem
  simp [register, member]

theorem register_nodup {header : Header} {owned : Bool} {name : Buffer} (once : (names d).Nodup)
    (short : (text name).length < nameLen) (absent : text name ∉ names d) :
    (names (register d header owned name)).Nodup := by
  rw [register_names short, List.nodup_append]
  refine ⟨once, List.nodup_singleton _, ?_⟩
  intro old member new here same
  rw [List.mem_singleton.mp here] at same
  exact absent (same ▸ member)

theorem drop_nodup {i : Nat} (inside : i < d.entries.count) (once : (names d).Nodup) :
    text (d.entries.slot i).name ∉ names (drop d i) ∧ (names (drop d i)).Nodup :=
  List.nodup_cons.mp ((drop_names inside).nodup_iff.mpr once)

theorem entryNamed_none {name : Buffer} (absent : entryNamed d name = none) :
    text name ∉ names d := by
  intro member
  obtain ⟨e, inItems, same⟩ := List.mem_map.mp member
  have missed := find_none absent e inItems
  simp [same] at missed

end Primitives

section Calls
variable {flash : List Resident} {d : Directory}

theorem supersedes_names (once : (names d).Nodup) (fresh : Header) (name : Buffer) (card : Bool) :
    (names (supersedes flash d fresh name card).1).Nodup ∧
    ((supersedes flash d fresh name card).2 = true →
      text name ∉ names (supersedes flash d fresh name card).1) ∧
    ∀ e ∈ items d.entries, e.links ≠ 0 → Stays (supersedes flash d fresh name card).1 e := by
  unfold supersedes
  cases found : entryNamed d name with
  | none =>
    have absent := entryNamed_none found
    dsimp only
    split
    · exact ⟨once, fun _ => absent, fun e member _ => .of_mem member⟩
    · split <;> exact ⟨once, fun _ => absent, fun e member _ => .of_mem member⟩
  | some i =>
    obtain ⟨inside, same⟩ := find_some found
    have isName : text (d.entries.slot i).name = text name := of_decide_eq_true same
    have quiet : (names d).Nodup ∧ (false = true → text name ∉ names d) ∧
        ∀ e ∈ items d.entries, e.links ≠ 0 → Stays d e :=
      ⟨once, by simp, fun e member _ => .of_mem member⟩
    dsimp only
    split
    · exact quiet
    · split
      · exact quiet
      · split
        · exact quiet
        · rename_i unlinked
          obtain ⟨absent, less⟩ := drop_nodup inside once
          refine ⟨less, fun _ => isName ▸ absent, ?_⟩
          intro e member linked
          apply drop_stays inside member
          rintro rfl
          exact unlinked linked

theorem add_names (once : (names d).Nodup) (header : Header) (name : Name) (image : Bool) :
    (names (add flash d header name.bytes image).1).Nodup ∧
    ∀ e ∈ items d.entries, e.links ≠ 0 → Stays (add flash d header name.bytes image).1 e := by
  obtain ⟨still, absent, stays⟩ :=
    (@supersedes_names flash) once header name.bytes image
  unfold add
  split
  · exact ⟨once, fun e member _ => .of_mem member⟩
  · rcases outcome : supersedes flash d header name.bytes image with ⟨d', _ | _⟩
    · rw [outcome] at still stays
      exact ⟨still, stays⟩
    · rw [outcome] at still absent stays
      dsimp only at still absent stays ⊢
      split
      · exact ⟨still, stays⟩
      · refine ⟨register_nodup still name.short (absent rfl), ?_⟩
        intro e member linked
        obtain ⟨e', there, header', owned', name'⟩ := stays e member linked
        exact ⟨e', by simp [register, there], header', owned', name'⟩

theorem addImage_newer {image : Header} {name : Buffer}
    (accepted : (moddirAddImage flash d image name).2 = true) :
    (∀ i, entryNamed d name = some i → (d.entries.slot i).header.revision < image.revision) ∧
    (entryNamed d name = none → ∀ m, flashLookup flash name = some m →
      m.revision < image.revision) := by
  have superseding : (supersedes flash d image name true).2 = true := by
    unfold moddirAddImage add at accepted
    split at accepted
    · cases accepted
    · rcases outcome : supersedes flash d image name true with ⟨d', _ | _⟩
      · rw [outcome] at accepted
        cases accepted
      · rfl
  unfold supersedes at superseding
  cases found : entryNamed d name with
  | none =>
    refine ⟨by simp, ?_⟩
    intro _ m resident
    simpa [found, resident] using superseding
  | some i =>
    refine ⟨?_, by simp⟩
    intro k same
    rw [← Option.some.inj same]
    rw [found] at superseding
    dsimp only at superseding
    split at superseding
    · cases superseding
    · split at superseding
      · cases superseding
      · omega

theorem adopt_names (once : (names d).Nodup) {name : Buffer}
    (short : (text name).length < nameLen)
    (absent : text name ∉ names d ∨ flashLookup flash name = none ∨
      maxModules ≤ d.entries.count) :
    (names (adoptFromFlash flash d name).1).Nodup ∧
    (∀ e ∈ items d.entries, Stays (adoptFromFlash flash d name).1 e) ∧
    ∀ i, (adoptFromFlash flash d name).2 = some i →
      i < (adoptFromFlash flash d name).1.entries.count ∧
      text ((adoptFromFlash flash d name).1.entries.slot i).name = text name := by
  unfold adoptFromFlash
  cases resident : flashLookup flash name with
  | none => exact ⟨once, fun e => .of_mem, by simp⟩
  | some m =>
    dsimp only
    split
    · exact ⟨once, fun e => .of_mem, by simp⟩
    · rename_i room
      have isNew : text name ∉ names d := by
        rcases absent with isNew | gone | full
        · exact isNew
        · rw [resident] at gone
          cases gone
        · exact absurd full room
      refine ⟨register_nodup once short isNew, fun e => register_stays, ?_⟩
      intro i index
      rw [← Option.some.inj index]
      simp [register, push, text_nameCopy short]

theorem match_names (once : (names d).Nodup) (user : Buffer) :
    (names (moddirMatch flash d user).1).Nodup ∧
    ∀ e ∈ items d.entries, Stays (moddirMatch flash d user).1 e := by
  unfold moddirMatch
  cases hit : find d.entries (fun e => nameEqCi (text e.name) (text user)) with
  | some i => exact ⟨once, fun e => .of_mem⟩
  | none =>
    cases found : flash.find? (fun m => nameEqCi m.name (text user)) with
    | none => exact ⟨once, fun e => .of_mem⟩
    | some m =>
      -- an entry of this name would have matched as the flash module does
      have absent : text (bufferOf m.name) ∉ names d := by
        intro member
        obtain ⟨e, inItems, same⟩ := List.mem_map.mp member
        have missed := find_none hit e inItems
        rw [same, text_bufferOf] at missed
        have wanted := List.find?_some found
        rw [missed] at wanted
        cases wanted
      obtain ⟨still, stays, _⟩ := @adopt_names flash _ once
        (bufferOf m.name) (by rw [text_bufferOf]; exact m.short) (.inl absent)
      dsimp only
      split <;> rename_i outcome <;> rw [outcome] at still stays <;> exact ⟨still, stays⟩

theorem link_names (once : (names d).Nodup) (name : Name) (tells : Tells flash d name.bytes) :
    (names (moddirLink flash d name.bytes).1).Nodup ∧
    (∀ e ∈ items d.entries, Stays (moddirLink flash d name.bytes).1 e) ∧
    ∀ h, (moddirLink flash d name.bytes).2 = some h →
      ∃ e ∈ items (moddirLink flash d name.bytes).1.entries, e.header = h ∧
        text e.name = text name.bytes := by
  unfold Tells at tells
  unfold moddirLink
  cases hit : find d.entries (fun e => nameEq e.name name.bytes) with
  | some i =>
    rw [hit] at tells
    have inside := (find_some hit).1
    refine ⟨(putLinks_names inside _).nodup_iff.mpr once,
      fun e member => putLinks_stays inside _ member, ?_⟩
    intro h same
    obtain ⟨e, there, header, _, stored⟩ := putLinks_stays inside
      (((d.entries.slot i).links + 1) % 2 ^ 32) (slot_mem inside)
    exact ⟨e, there, header.trans (Option.some.inj same), by rw [stored, tells]⟩
  | none =>
    rw [hit] at tells
    have absent : text name.bytes ∉ names d ∨ flashLookup flash name.bytes = none ∨
        maxModules ≤ d.entries.count := tells.imp_left entryNamed_none
    obtain ⟨still, stays, index⟩ := adopt_names once name.short absent
    dsimp only
    rcases outcome : adoptFromFlash flash d name.bytes with ⟨d', _ | i⟩
    · rw [outcome] at still stays
      exact ⟨still, stays, by simp⟩
    · rw [outcome] at still stays index
      obtain ⟨inside, stored⟩ := index i rfl
      dsimp only at still stays inside stored ⊢
      refine ⟨(putLinks_names inside _).nodup_iff.mpr still, ?_, ?_⟩
      · intro e member
        obtain ⟨e', there, header, owned, kept⟩ := stays e member
        obtain ⟨e'', last, header', owned', kept'⟩ := putLinks_stays inside
          (((d'.entries.slot i).links + 1) % 2 ^ 32) there
        exact ⟨e'', last, header'.trans header, owned'.trans owned, kept'.trans kept⟩
      · intro h same
        obtain ⟨e, there, header, _, kept⟩ := putLinks_stays inside
          (((d'.entries.slot i).links + 1) % 2 ^ 32) (slot_mem inside)
        exact ⟨e, there, header.trans (Option.some.inj same), by rw [kept, stored]⟩

theorem link_adopts {name : Buffer} {m : Header}
    (absent : find d.entries (fun e => nameEq e.name name) = none)
    (resident : flashLookup flash name = some m) (room : d.entries.count < maxModules) :
    (moddirLink flash d name).2 = some m := by
  have adopts : adoptFromFlash flash d name =
      (register d m false name, some d.entries.count) := by
    simp [adoptFromFlash, resident, Nat.not_le.mpr room]
  simp [moddirLink, absent, adopts, register, push]

theorem unlink_names (once : (names d).Nodup) (address : Addr) :
    (names (moddirUnlink d address)).Nodup ∧
    ∀ e ∈ items d.entries, 1 < e.links ∨ e.address ≠ address → Stays (moddirUnlink d address) e := by
  unfold moddirUnlink
  cases found : find d.entries (fun e => e.address = address) with
  | none => exact ⟨once, fun e member _ => .of_mem member⟩
  | some i =>
    obtain ⟨inside, isAt⟩ := find_some found
    dsimp only
    split
    · rename_i few
      refine ⟨(drop_nodup inside once).2, ?_⟩
      intro e member used
      apply drop_stays inside member
      rintro rfl
      rcases used with many | elsewhere
      · omega
      · exact elsewhere (of_decide_eq_true isAt)
    · exact ⟨(putLinks_names inside _).nodup_iff.mpr once,
        fun e member _ => putLinks_stays inside _ member⟩

end Calls

/-- What the directory owes a caller: names stay apart, a linked module has the
name asked for, no entry goes while it has links but by an unlink of its last,
and the card wins by revision only. -/
structure Honest (flash : List Resident) (d : Directory) (call : Call) : Prop where
  once : (names (call.step flash d)).Nodup
  linked : ∀ name, call = .link name → ∀ h, (moddirLink flash d name.bytes).2 = some h →
    ∃ e ∈ items (call.step flash d).entries, e.header = h ∧ text e.name = text name.bytes
  adopts : ∀ name, call = .link name →
    find d.entries (fun e => nameEq e.name name.bytes) = none →
    ∀ m, flashLookup flash name.bytes = some m → d.entries.count < maxModules →
    (moddirLink flash d name.bytes).2 = some m
  stays : ∀ e ∈ items d.entries, e.links ≠ 0 →
    (∀ address, call = .unlink address → 1 < e.links ∨ e.address ≠ address) →
    Stays (call.step flash d) e
  newer : ∀ image name, call = .addImage image name →
    (moddirAddImage flash d image name.bytes).2 = true →
    (∀ i, entryNamed d name.bytes = some i →
      (d.entries.slot i).header.revision < image.revision) ∧
    (entryNamed d name.bytes = none → ∀ m, flashLookup flash name.bytes = some m →
      m.revision < image.revision)

theorem step_honest {flash : List Resident} {d : Directory} (once : (names d).Nodup) (call : Call)
    (told : call.told flash d) : Honest flash d call := by
  cases call with
  | addResident header name =>
    obtain ⟨still, stays⟩ := (@add_names flash) once header name false
    exact ⟨still, by simp, by simp, fun e member linked _ => stays e member linked, by simp⟩
  | addImage image name =>
    obtain ⟨still, stays⟩ := (@add_names flash) once image name true
    refine ⟨still, by simp, by simp, fun e member linked _ => stays e member linked, ?_⟩
    rintro _ _ ⟨⟩ accepted
    exact addImage_newer accepted
  | lookUp user =>
    obtain ⟨still, stays⟩ := (@match_names flash) once user.bytes
    exact ⟨still, by simp, by simp, fun e member _ _ => stays e member, by simp⟩
  | link name =>
    obtain ⟨still, stays, exact'⟩ := link_names once name told
    refine ⟨still, ?_, ?_, fun e member _ _ => stays e member, by simp⟩
    · rintro _ ⟨⟩ h same
      exact exact' h same
    · rintro _ ⟨⟩ absent m resident room
      exact link_adopts absent resident room
  | unlink address =>
    obtain ⟨still, stays⟩ := unlink_names once address
    exact ⟨still, by simp, by simp, fun e member _ safe => stays e member (safe address rfl), by simp⟩

/-- From an empty directory, for as long as every link tells names apart, each
call is answered honestly. -/
theorem run_names_once (flash : List Resident) (stale : Nat → Entry) (calls : List Call)
    (last : Call)
    (told : Along (Call.step flash) (fun d call => call.told flash d) (moddirInit stale)
      (calls ++ [last])) :
    (names (calls.foldl (Call.step flash) (moddirInit stale))).Nodup ∧
      Honest flash (calls.foldl (Call.step flash) (moddirInit stale)) last := by
  obtain ⟨earlier, now⟩ := along_append.mp told
  have once : (names (calls.foldl (Call.step flash) (moddirInit stale))).Nodup :=
    along_invariant (fun d => (names d).Nodup) earlier (by simp [names, moddirInit, items])
      (fun d call _ allowed inv => (step_honest inv call allowed).once)
  exact ⟨once, step_honest once last now.1⟩

/-- The name `a`, in a buffer that holds `rest` behind its end. -/
def called (rest : Byte) : Name where
  bytes := bufferOf [0x61, 0, rest]
  ended := ⟨1, by decide, rfl⟩

theorem run_names_once_linked :
    Honest [resident] ([Call.link (called 0)].foldl (Call.step [resident]) (moddirInit blank))
      (.link (called 0)) :=
  (run_names_once [resident] blank [.link (called 0)] (.link (called 0)) (by decide)).2

/-- Asked for out of two buffers, one module gets two entries of one name. -/
theorem linked_twice :
    ¬ (names ([Call.link (called 0), .link (called 0x62)].foldl (Call.step [resident])
      (moddirInit blank))).Nodup := by
  decide

end Ubiqos.Modules
