import Ubiqos.Fat.Stale

/-!
A volume read anew. `ubiqos_fat_mount` takes everything it needs from the card, and
after it no call of the library depends on what its statics held before.
-/

namespace Ubiqos.Fat

open Function Prog

section Calls
variable {v : Volume} {read : Bool} {s t : Fs}

theorem Alike.mounted (alike : Alike v read s t) : s.mounted = t.mounted := by
  obtain ⟨f, r, rfl, -⟩ := alike
  rfl

theorem Alike.last (alike : Alike v true s t) : s.ra = t.ra := by
  obtain ⟨f, r, rfl, -, -, same | ⟨never, -⟩⟩ := alike
  · exact same.symm
  · cases never

theorem Alike.any (alike : Alike v true s t) : Alike v read s t := by
  obtain ⟨f, r, rfl, is, table, same | ⟨never, -⟩⟩ := alike
  · exact ⟨f, r, rfl, is, table, .inl same⟩
  · cases never

theorem Alike.valid (alike : Alike v false s t) (valid : s.ra.valid = true) : Alike v true s t := by
  obtain ⟨f, r, rfl, is, table, same | ⟨-, none, -⟩⟩ := alike
  · exact ⟨f, r, rfl, is, table, .inl same⟩
  · rw [valid] at none
    cases none

theorem keeps_forgetReadCache : Keeps forgetReadCache (Alike v read) := by
  apply twins_modify
  rintro s t ⟨f, r, rfl, is, table, last⟩
  refine ⟨f, _, rfl, is, table, ?_⟩
  rcases last with rfl | ⟨any, -, -⟩
  · exact .inl rfl
  · exact .inr ⟨any, rfl, rfl⟩

theorem twins_remember (path : List Byte) : Twins (remember path) (Alike v false)
    fun ok s t => Alike v false s t ∧ (ok = true → Alike v true s t) := by
  unfold remember
  apply twins_look
  · rintro s t ⟨f, r, rfl, -, -, rfl | ⟨-, first, second⟩⟩
    · rfl
    · simp [first, second]
  intro s
  apply twins_ite
  · intro known
    simp only [Bool.and_eq_true] at known
    apply twins_pure
    rintro s' t ⟨rfl, alike⟩
    exact ⟨alike, fun _ => alike.valid known.1⟩
  · intro _
    have refused : ∀ s t, Alike v false s t → Alike v false s t ∧ (false = true → Alike v true s t) :=
      fun s t alike => ⟨alike, fun done => by cases done⟩
    apply Twins.bind ((keeps_resolveParent path).narrow fun _ _ found => found.2)
    intro parent
    cases parent with
    | none => exact twins_pure refused
    | some parent =>
      apply (keeps_findEntry _ _ _).bind
      intro found
      cases found with
      | none => exact twins_pure refused
      | some e =>
        apply twins_ite
        · exact fun _ => twins_pure refused
        · intro _
          refine Twins.bind (twins_modify ?_) fun _ =>
            twins_pure fun s t alike => ⟨Alike.any alike, fun _ => alike⟩
          rintro s t ⟨f, r, rfl, is, table, -⟩
          exact ⟨f, _, rfl, is, table, .inl rfl⟩

theorem keeps_lastRead (g : ReadCache → ReadCache) :
    Keeps (modify fun s : Fs => { s with ra := g s.ra }) (Alike v true) := by
  apply twins_modify
  rintro s t ⟨f, r, rfl, is, table, rfl | ⟨never, -⟩⟩
  · exact ⟨f, _, rfl, is, table, .inl rfl⟩
  · cases never

theorem keeps_spool (n : Nat) : Keeps (spool n) (Alike v true) := by
  induction n with
  | zero => exact keeps_pure
  | succ n ih =>
    unfold spool
    apply twins_get (fun s t alike => by rw [alike.last])
    intro s t alike
    apply (keeps_fatNextCluster _).bind
    intro cluster
    apply (keeps_lastRead (fun ra => { ra with cluster := cluster })).bind
    intro _
    apply twins_ite
    · intro _
      apply keeps_forgetReadCache.bind
      exact fun _ => keeps_pure
    · intro _
      apply (keeps_lastRead (fun ra => { ra with index := ra.index + 1 })).bind
      exact fun _ => ih

theorem keeps_seekCluster (want : Nat) : Keeps (seekCluster want) (Alike v true) := by
  unfold seekCluster
  apply Keeps.bind
  · apply twins_modify
    rintro s t ⟨f, r, rfl, is, table, rfl | ⟨never, -⟩⟩
    · dsimp only
      split
      · exact ⟨f, _, rfl, is, table, .inl rfl⟩
      · exact ⟨f, _, rfl, is, table, .inl rfl⟩
    · cases never
  · intro _
    apply twins_get (fun s t alike => by rw [alike.last])
    exact fun _ _ _ => keeps_spool _

theorem keeps_readAt (path : CString) (offset len : BitVec 32) :
    Keeps (readAt path offset len) (Alike v false) := by
  unfold readAt
  apply twins_get (fun s t alike => by rw [alike.mounted])
  intro s t alike
  apply twins_ite
  · exact fun _ => keeps_pure
  · intro _
    apply Twins.bind (twins_remember _)
    intro ok
    cases ok with
    | false => exact twins_pure fun _ _ found => found.1
    | true =>
      have remembered : ∀ s t, (Alike v false s t ∧ (true = true → Alike v true s t)) →
          Alike v true s t := fun s t found => found.2 rfl
      refine Twins.narrow ?_ remembered
      apply twins_get (fun s t alike => by rw [alike.last])
      intro s t alike
      apply twins_ite
      · exact fun _ => twins_pure fun _ _ alike => Alike.any alike
      · intro _
        apply twins_get (fun s t alike => by rw [alike.volume])
        intro s t alike
        apply (keeps_seekCluster _).bind
        intro ok
        apply twins_ite
        · intro _
          apply twins_get (fun s t alike => by rw [alike.last])
          intro s t alike
          apply Twins.bind ((reads_alike.readClusters _ _ _ _ _).narrow fun _ _ alike => Alike.any alike)
          rintro ⟨ok, out⟩
          exact keeps_pure
        · exact fun _ => twins_pure fun _ _ alike => Alike.any alike

/-- What is stale has no part in the program. -/
def Blind (v : Volume) (read : Bool) (α : Type) (x : Prog Fs α) : Prop := Keeps x (Alike v read)

theorem blind_forgets {α : Type} {f : Unit → Prog Fs α} (rest : Keeps (f ()) (Alike v read)) :
    Blind v read α (forgetReadCache >>= f) := keeps_forgetReadCache.bind fun _ => rest

end Calls

end Ubiqos.Fat
