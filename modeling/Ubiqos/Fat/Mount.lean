import Ubiqos.Fat.Remount

/-!
`ubiqos_fat_mount`, with the two statics only it and `ubiqos_fat_extent` use. It takes
everything the library needs from the card: once it has succeeded, what the library
held before is stale.
-/

namespace Ubiqos.Fat

open Function Prog

structure Library where
  fs : Fs
  volumeLba : Nat
  volumeSectors : Nat

def onFs {α : Type} (x : Prog Fs α) : Prog Library α := fun l =>
  (x.run l.fs).map fun outcome => (outcome.1, { l with fs := outcome.2 })

def onSector (lba : Nat) : Prog Library Bool := onFs (readSector lba)

/-- From the boot sector in the buffer, which was read from block `vbr`. -/
def mountAt (vbr : Nat) : Prog Library Bool := do
  let b := (← get).fs.sector
  modify fun l => { l with fs := { l.fs with volume := { l.fs.volume with
    sectorsPerCluster := (b 13).toNat
    numFats := (b 16).toNat
    sectorsPerFat := rd32 b 36
    rootCluster := rd32 b 44 } } }
  if rd16 b 17 ≠ 0 ∨ rd16 b 22 ≠ 0 then return false
  else if rd16 b 11 ≠ 512 ∨ (b 13).toNat = 0 ∨ rd32 b 36 = 0 then return false
  else
    let reserved := rd16 b 14
    let total := rd32 b 32
    let fats := (b 16).toNat * rd32 b 36 % 2 ^ 32
    modify fun l => {
      fs := { l.fs with
        mounted := true
        volume := { l.fs.volume with
          fatStartLba := (vbr + reserved) % 2 ^ 32
          dataStartLba := (vbr + reserved + fats) % 2 ^ 32
          clusterCount := (total + (2 ^ 32 - (reserved + fats) % 2 ^ 32)) % 2 ^ 32 / (b 13).toNat } }
      volumeLba := vbr
      volumeSectors := total }
    return true

def forgetAll (s : Fs) : Fs :=
  { s with
    fatbufLba := invalidLba
    allocHint := 2
    ra := { s.ra with valid := false }
    mounted := false }

def fatMount : Prog Library Bool := do
  modify fun l => { l with fs := forgetAll l.fs }
  if ← onSector 0 then
    let b := (← get).fs.sector
    if b 510 ≠ 0x55 ∨ b 511 ≠ 0xaa then return false
    else
      modify fun l => { l with volumeLba := 0, volumeSectors := 0 }
      if b 0 = 0xeb ∨ b 0 = 0xe9 then mountAt 0
      else
        -- a partition table, of which the first entry counts
        let vbr := rd32 b 454
        if vbr = 0 then return false
        else if ← onSector vbr then mountAt vbr else return false
  else return false

/-- `ubiqos_fat_extent`, the count of blocks. -/
def fatExtent (l : Library) : Option Nat :=
  if !l.fs.mounted ∨ l.volumeSectors = 0 then none
  else some ((l.volumeLba + l.volumeSectors) % 2 ^ 32)

def Strangers (l m : Library) : Prop :=
  ∃ volume mounted sector fatbuf fatbufLba allocHint ra first count,
    m = ⟨{ l.fs with
      volume := volume, mounted := mounted, sector := sector, fatbuf := fatbuf,
      fatbufLba := fatbufLba, allocHint := allocHint, ra := ra }, first, count⟩

def Fresh (l m : Library) : Prop :=
  ∃ v, Alike v false l.fs m.fs ∧ l.volumeLba = m.volumeLba ∧ l.volumeSectors = m.volumeSectors

def Forgotten (read : Bool) (l m : Library) : Prop :=
  l.fs.fatbufLba = invalidLba ∧ l.fs.ra.valid = false ∧
    ∃ volume sector fatbuf ra first count,
      ra.valid = false ∧ (read = true → sector = l.fs.sector) ∧
        m = ⟨{ l.fs with volume := volume, sector := sector, fatbuf := fatbuf, ra := ra }, first, count⟩

section Mounting
variable {l m : Library} {read : Bool}

theorem Fresh.sector (fresh : Fresh l m) : l.fs.sector = m.fs.sector := by
  obtain ⟨v, alike, -, -⟩ := fresh
  exact alike.sector

theorem Forgotten.strangers (forgotten : Forgotten read l m) : Strangers l m := by
  obtain ⟨-, -, volume, sector, fatbuf, ra, first, count, -, -, rfl⟩ := forgotten
  exact ⟨volume, _, sector, fatbuf, _, _, ra, first, count, rfl⟩

theorem Forgotten.sector (forgotten : Forgotten true l m) : l.fs.sector = m.fs.sector := by
  obtain ⟨-, -, volume, sector, fatbuf, ra, first, count, -, same, rfl⟩ := forgotten
  exact (same rfl).symm

theorem onSector_run (lba : Nat) (l : Library) :
    (onSector lba).run l = some (l.fs.faults.head?.join.isNone, { l with fs := { l.fs with
      faults := l.fs.faults.tail
      sector := l.fs.faults.head?.join.getD (l.fs.card lba) } }) :=
  congrArg (Option.map _) (readSector_outcome lba l.fs)

theorem twins_onSector (lba : Nat) :
    Twins (onSector lba) (Forgotten read) fun _ => Forgotten true := by
  rintro l m ⟨none, invalid, volume, sector, fatbuf, ra, first, count, other, -, rfl⟩
  exact .inr ⟨_, _, _, onSector_run lba l, onSector_run lba _, none, invalid, volume, _, fatbuf, ra,
    first, count, other, fun _ => rfl, rfl⟩

theorem Fresh.strangers (fresh : Fresh l m) : Strangers l m := by
  obtain ⟨fs, first, count⟩ := m
  obtain ⟨v, ⟨f, r, rfl, -, -, -⟩, -, -⟩ := fresh
  exact ⟨_, _, _, f, _, _, r, first, count, rfl⟩

def Taken (l m : Library) : Prop :=
  Forgotten true l m ∧ l.fs.volume.sectorsPerCluster = m.fs.volume.sectorsPerCluster ∧
    l.fs.volume.numFats = m.fs.volume.numFats ∧
    l.fs.volume.sectorsPerFat = m.fs.volume.sectorsPerFat ∧
    l.fs.volume.rootCluster = m.fs.volume.rootCluster

def Mounted (ok : Bool) (l m : Library) : Prop := Strangers l m ∧ (ok = true → Fresh l m)

theorem Forgotten.refused (forgotten : Forgotten read l m) : Mounted false l m :=
  ⟨forgotten.strangers, fun done => by cases done⟩

theorem twins_mountAt (vbr : Nat) : Twins (mountAt vbr) (Forgotten true) Mounted := by
  unfold mountAt
  apply twins_get (fun l m forgotten => by rw [forgotten.sector])
  intro l m forgotten
  have taken : Twins (modify fun k : Library => { k with fs := { k.fs with volume := { k.fs.volume with
        sectorsPerCluster := (l.fs.sector 13).toNat
        numFats := (l.fs.sector 16).toNat
        sectorsPerFat := rd32 l.fs.sector 36
        rootCluster := rd32 l.fs.sector 44 } } }) (Forgotten true) fun _ => Taken := by
    apply twins_modify
    rintro k o ⟨none, invalid, volume, sector, fatbuf, ra, first, count, other, same, rfl⟩
    exact ⟨⟨none, invalid, _, sector, fatbuf, ra, first, count, other, same, rfl⟩, rfl, rfl, rfl, rfl⟩
  apply Twins.bind taken
  intro _
  apply twins_ite
  · exact fun _ => twins_pure fun _ _ taken => taken.1.refused
  · intro _
    apply twins_ite
    · exact fun _ => twins_pure fun _ _ taken => taken.1.refused
    · intro _
      refine Twins.bind (twins_modify ?_) fun _ =>
        twins_pure fun k o (fresh : Fresh k o) => ⟨fresh.strangers, fun _ => fresh⟩
      -- the rest of the geometry comes from the same numbers
      rintro k o ⟨⟨none, invalid, volume, sector, fatbuf, ra, first, count, other, same, rfl⟩,
        spc, fats, spf, root⟩
      refine ⟨_, ⟨fatbuf, ra, ?_, rfl, .inr none, .inr ⟨rfl, invalid, other⟩⟩, rfl, rfl⟩
      dsimp only at spc fats spf root
      simp [same rfl, spc, fats, spf, root]

theorem twins_fatMount : Twins fatMount Strangers Mounted := by
  unfold fatMount
  have forgets : Twins (modify fun l : Library => { l with fs := forgetAll l.fs }) Strangers
      fun _ => Forgotten false := by
    apply twins_modify
    rintro l m ⟨volume, mounted, sector, fatbuf, fatbufLba, allocHint, ra, first, count, rfl⟩
    exact ⟨rfl, rfl, volume, sector, fatbuf, { ra with valid := false }, first, count, rfl,
      fun never => absurd never (by decide), rfl⟩
  apply Twins.bind forgets
  intro _
  apply Twins.bind (twins_onSector 0)
  intro ok
  apply twins_ite
  · intro _
    apply twins_get (fun l m forgotten => by rw [forgotten.sector])
    intro l m forgotten
    apply twins_ite
    · exact fun _ => twins_pure fun _ _ forgotten => forgotten.refused
    · intro _
      have cleared : Keeps (modify fun l : Library => { l with volumeLba := 0, volumeSectors := 0 })
          (Forgotten true) := by
        apply twins_modify
        rintro l m ⟨none, invalid, volume, sector, fatbuf, ra, first, count, other, same, rfl⟩
        exact ⟨none, invalid, volume, sector, fatbuf, ra, 0, 0, other, same, rfl⟩
      apply cleared.bind
      intro _
      apply twins_ite
      · exact fun _ => twins_mountAt 0
      · intro _
        apply twins_ite
        · exact fun _ => twins_pure fun _ _ forgotten => forgotten.refused
        · intro _
          apply Twins.bind (twins_onSector _)
          intro ok
          apply twins_ite
          · exact fun _ => twins_mountAt _
          · exact fun _ => twins_pure fun _ _ forgotten => forgotten.refused
  · exact fun _ => twins_pure fun _ _ forgotten => forgotten.refused

theorem keeps_onFs {α : Type} {x : Prog Fs α} {l m : Library} {v : Volume}
    (keeps : Keeps x (Alike v false)) (alike : Alike v false l.fs m.fs)
    (first : l.volumeLba = m.volumeLba) (count : l.volumeSectors = m.volumeSectors) :
    (x.run l.fs = none ∧ x.run m.fs = none) ∨ ∃ a s t, x.run l.fs = some (a, s) ∧
      x.run m.fs = some (a, t) ∧ Fresh { l with fs := s } { m with fs := t } := by
  rcases keeps l.fs m.fs alike with endless | ⟨a, s, t, left, right, after⟩
  · exact .inl endless
  · exact .inr ⟨a, s, t, left, right, v, after, first, count⟩

theorem keeps_onSector (lba : Nat) : Keeps (onSector lba) Fresh := by
  rintro l m ⟨v, alike, first, count⟩
  rcases keeps_onFs (keeps_readSector lba) alike first count with ⟨left, right⟩ | ⟨a, s, t, left, right, fresh⟩
  · exact .inl ⟨congrArg (Option.map _) left, congrArg (Option.map _) right⟩
  · exact .inr ⟨a, _, _, congrArg (Option.map _) left, congrArg (Option.map _) right, fresh⟩

theorem keeps_mountAt (vbr : Nat) : Keeps (mountAt vbr) Fresh := by
  unfold mountAt
  apply twins_get (fun l m fresh => by rw [fresh.sector])
  intro l m fresh
  apply Keeps.bind
  · apply twins_modify
    rintro k o ⟨v, ⟨f, r, same, is, table, last⟩, first, count⟩
    exact ⟨_, ⟨f, r, by rw [same], rfl, table, last⟩, first, count⟩
  · intro _
    apply twins_ite
    · exact fun _ => keeps_pure
    · intro _
      apply twins_ite
      · exact fun _ => keeps_pure
      · intro _
        apply Keeps.bind
        · apply twins_modify
          rintro k o ⟨v, ⟨f, r, same, is, table, last⟩, first, count⟩
          exact ⟨_, ⟨f, r, by rw [same], rfl, table, last⟩, rfl, rfl⟩
        · exact fun _ => keeps_pure

theorem keeps_fatMount : Keeps fatMount Fresh := by
  unfold fatMount
  apply Keeps.bind
  · apply twins_modify
    rintro l m ⟨v, ⟨f, r, same, is, table, last⟩, first, count⟩
    exact ⟨v, ⟨f, { r with valid := false }, by rw [same]; rfl, is, .inr rfl, .inr ⟨rfl, rfl, rfl⟩⟩, first, count⟩
  · intro _
    apply (keeps_onSector 0).bind
    intro ok
    apply twins_ite
    · intro _
      apply twins_get (fun l m fresh => by rw [fresh.sector])
      intro l m fresh
      apply twins_ite
      · exact fun _ => keeps_pure
      · intro _
        apply Keeps.bind
        · apply twins_modify
          rintro k o ⟨v, alike, -, -⟩
          exact ⟨v, alike, rfl, rfl⟩
        · intro _
          apply twins_ite
          · exact fun _ => keeps_mountAt 0
          · intro _
            apply twins_ite
            · exact fun _ => keeps_pure
            · intro _
              apply (keeps_onSector _).bind
              intro ok
              exact twins_ite (fun _ => keeps_mountAt _) (fun _ => keeps_pure)
    · exact fun _ => keeps_pure

end Mounting

end Ubiqos.Fat
