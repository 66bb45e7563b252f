import Ubiqos.Disk.Sides

/-!
A run beside the same run on a library that remembers something else. From the moment
the card is the host's the two differ in the library only, and there in nothing that a
mount leaves.
-/

namespace Ubiqos.Disk

open Function Fat Prog

section Libraries
variable {l m : Library}

theorem fatExtent_eq (fresh : Fresh l m) : fatExtent l = fatExtent m := by
  obtain ⟨v, alike, first, count⟩ := fresh
  unfold fatExtent
  rw [alike.mounted, first, count]

theorem strangers_faults (strangers : Strangers l m) : l.fs.faults = m.fs.faults := by
  obtain ⟨_, _, _, _, _, _, _, _, _, rfl⟩ := strangers
  rfl

theorem strangers_card (strangers : Strangers l m) : l.fs.card = m.fs.card := by
  obtain ⟨_, _, _, _, _, _, _, _, _, rfl⟩ := strangers
  rfl

theorem strangers_put (strangers : Strangers l m) (lba : Nat) (b : Block) :
    Strangers { l with fs := { l.fs with card := update l.fs.card lba b } }
      { m with fs := { m.fs with card := update m.fs.card lba b } } := by
  obtain ⟨volume, mounted, sector, fatbuf, fatbufLba, allocHint, ra, first, count, rfl⟩ := strangers
  exact ⟨volume, mounted, sector, fatbuf, fatbufLba, allocHint, ra, first, count, rfl⟩

theorem strangers_tail (strangers : Strangers l m) :
    Strangers { l with fs := { l.fs with faults := l.fs.faults.tail } }
      { m with fs := { m.fs with faults := m.fs.faults.tail } } := by
  obtain ⟨volume, mounted, sector, fatbuf, fatbufLba, allocHint, ra, first, count, rfl⟩ := strangers
  exact ⟨volume, mounted, sector, fatbuf, fatbufLba, allocHint, ra, first, count, rfl⟩

theorem fresh_put (fresh : Fresh l m) (lba : Nat) (b : Block) :
    Fresh { l with fs := { l.fs with card := update l.fs.card lba b } }
      { m with fs := { m.fs with card := update m.fs.card lba b } } := by
  obtain ⟨v, ⟨f, r, same, is, table, last⟩, first, count⟩ := fresh
  exact ⟨v, ⟨f, r, by rw [same], is, table, last⟩, first, count⟩

theorem fresh_tail (fresh : Fresh l m) :
    Fresh { l with fs := { l.fs with faults := l.fs.faults.tail } }
      { m with fs := { m.fs with faults := m.fs.faults.tail } } := by
  obtain ⟨v, ⟨f, r, same, is, table, last⟩, first, count⟩ := fresh
  exact ⟨v, ⟨f, r, by rw [same], is, table, last⟩, first, count⟩

theorem keeps_run (c : Call) {v : Volume} (bound : ∀ cluster, v.fatLba cluster ≠ invalidLba) :
    Keeps c.run (Alike v false) := by
  have walk := @keeps_writing v false bound
  cases c with
  | stat path => exact Keeps.bind (walk_stat walk.toReading path) fun _ => keeps_pure
  | readAt path offset len => exact (keeps_readAt path offset len).bind fun _ => keeps_pure
  | statNth path index => exact Keeps.bind (walk_statNth walk.toReading path index) fun _ => keeps_pure
  | writeAt path offset buf len =>
    exact Keeps.bind (walk_writeAt walk blind_forgets path offset buf len) fun _ => keeps_pure
  | remove path => exact Keeps.bind (walk_remove walk blind_forgets path) fun _ => keeps_pure
  | rename source target => exact Keeps.bind (walk_rename walk blind_forgets source target) fun _ => keeps_pure
  | mkdir path => exact Keeps.bind (walk_mkdir walk blind_forgets path) fun _ => keeps_pure
  | rmdir path => exact Keeps.bind (walk_rmdir walk blind_forgets path) fun _ => keeps_pure

end Libraries

def Away {Out : Type} (w : World Out) : Prop :=
  w.phase = .lent ∨ w.sd = false ∧ w.cardMounted = false ∧
    (w.phase = .idle ∨ w.phase = .taking ∨ w.phase = .taken ∨ w.phase = .bringing ∨ w.phase = .hung)

/-- The same world with another library, which may have no more in common than the
card while the volume is away. -/
def Twin {Out : Type} (w u : World Out) : Prop :=
  ∃ m, u = { w with lib := m } ∧ (Fresh w.lib m ∨ Strangers w.lib m ∧ Away w)

section Twins
variable {Out : Type} {w u : World Out}

theorem Twin.strangers (twin : Twin w u) : Strangers w.lib u.lib := by
  obtain ⟨m, rfl, fresh | ⟨strangers, -⟩⟩ := twin
  · exact fresh.strangers
  · exact strangers

theorem Twin.rest (twin : Twin w u) : u.hostHasIt = w.hostHasIt ∧ u.totalBlocks = w.totalBlocks ∧
    u.sent = w.sent ∧ u.answers = w.answers := by
  obtain ⟨m, rfl, -⟩ := twin
  exact ⟨rfl, rfl, rfl, rfl⟩

theorem Twin.phase (twin : Twin w u) : u.phase = w.phase := by
  obtain ⟨m, rfl, -⟩ := twin
  rfl

theorem Twin.sends (twin : Twin w u) (count : Int) (data : List Byte) :
    Twin (w.sends count data) (u.sends count data) := by
  obtain ⟨m, rfl, related⟩ := twin
  exact ⟨m, rfl, related⟩

theorem Twin.touch (twin : Twin w u) (lba : Nat) : Twin (w.touch lba) (u.touch lba) := by
  obtain ⟨m, rfl, fresh | ⟨strangers, away⟩⟩ := twin
  · exact ⟨_, rfl, .inl (fresh_tail fresh)⟩
  · exact ⟨_, rfl, .inr ⟨strangers_tail strangers, away⟩⟩

theorem Twin.put (twin : Twin w u) (lba : Nat) (b : Block) : Twin (w.put lba b) (u.put lba b) := by
  obtain ⟨m, rfl, fresh | ⟨strangers, away⟩⟩ := twin
  · exact ⟨_, rfl, .inl (fresh_put fresh lba b)⟩
  · exact ⟨_, rfl, .inr ⟨strangers_put strangers lba b, away⟩⟩

theorem Twin.fault (twin : Twin w u) : u.fault = w.fault := by
  unfold World.fault
  rw [strangers_faults twin.strangers]

theorem Twin.hostReadFrom {lba offset len n done : Nat} {out : List Byte} (twin : Twin w u) :
    Twin (hostReadFrom lba offset len n done out w) (hostReadFrom lba offset len n done out u) := by
  induction n generalizing w u done out with
  | zero => exact twin.sends _ _
  | succ n ih =>
    unfold Disk.hostReadFrom
    split
    · dsimp only
      rw [twin.fault, ← strangers_card twin.strangers]
      split
      · exact (twin.touch _).sends _ _
      · exact ih (twin.touch _)
    · exact twin.sends _ _

theorem Twin.hostWriteFrom {lba len n i : Nat} {buf : Nat → Byte} (twin : Twin w u) :
    Twin (hostWriteFrom lba len buf n i w) (hostWriteFrom lba len buf n i u) := by
  induction n generalizing w u i with
  | zero => exact twin.sends _ _
  | succ n ih =>
    unfold Disk.hostWriteFrom
    dsimp only
    rw [twin.fault]
    split
    · exact ((twin.touch _).put _ _).sends _ _
    · exact ih ((twin.touch _).put _ _)

theorem Twin.hostReads (twin : Twin w u) (lba offset len : Nat) :
    Twin (w.hostReads lba offset len) (u.hostReads lba offset len) := by
  obtain ⟨has, total, -⟩ := twin.rest
  unfold World.hostReads
  rw [has, total]
  split
  · exact twin.sends _ _
  · exact twin.hostReadFrom

theorem Twin.hostWrites (twin : Twin w u) (lba offset len : Nat) (buf : Nat → Byte) :
    Twin (w.hostWrites lba offset len buf) (u.hostWrites lba offset len buf) := by
  obtain ⟨has, total, -⟩ := twin.rest
  unfold World.hostWrites
  rw [has, total]
  split
  · exact twin.sends _ _
  · split
    · exact twin.sends _ _
    · exact twin.hostWriteFrom

theorem Twin.dropCardIfDead (twin : Twin w u) (idle : w.phase = .idle) (dead : Bool) :
    Twin (w.dropCardIfDead dead) (u.dropCardIfDead dead) ∧ (w.dropCardIfDead dead).phase = .idle := by
  obtain ⟨m, rfl, related⟩ := twin
  unfold World.dropCardIfDead
  split
  · refine ⟨⟨m, rfl, ?_⟩, idle⟩
    rcases related with fresh | ⟨strangers, -⟩
    · exact .inl fresh
    · exact .inr ⟨strangers, .inr ⟨rfl, rfl, .inl idle⟩⟩
  · exact ⟨⟨m, rfl, related⟩, idle⟩

theorem Away.idle (away : Away w) (idle : w.phase = .idle) : w.sd = false ∧ w.cardMounted = false := by
  rcases away with lent | away
  · rw [idle] at lent
    cases lent
  · exact ⟨away.1, away.2.1⟩

theorem Twin.answer (twin : Twin w u) (idle : w.phase = .idle) (a : Answer Out) :
    Twin (w.answer a) (u.answer a) := by
  obtain ⟨m, rfl, fresh | ⟨strangers, away⟩⟩ := twin
  · exact ⟨m, rfl, .inl fresh⟩
  · obtain ⟨sd, cardMounted⟩ := away.idle idle
    exact ⟨m, rfl, .inr ⟨strangers, .inr ⟨sd, cardMounted, .inl rfl⟩⟩⟩

theorem Twin.request (twin : Twin w u) (dead : Bool) (ask : Ask Out) :
    Twin (w.step (.request dead ask)) (u.step (.request dead ask)) := by
  unfold World.step
  dsimp only
  rw [twin.phase]
  split
  · rename_i idle
    obtain ⟨twin, idle⟩ := twin.dropCardIfDead idle dead
    obtain ⟨m, same, related⟩ := twin
    rw [same]
    dsimp only
    split
    · rename_i there
      rcases related with fresh | ⟨-, away⟩
      · exact ⟨m, rfl, .inl fresh⟩
      · rw [(away.idle idle).1] at there
        cases there
    · exact Twin.answer ⟨m, rfl, related⟩ idle _
  · exact twin

theorem handOver_twin {m : Library} (fresh : Fresh w.lib m) :
    World.handOver { w with lib := m } = ({ w.handOver.1 with lib := m }, w.handOver.2) ∧
      w.handOver.1.lib = w.lib := by
  unfold World.handOver
  dsimp only
  rw [← fatExtent_eq fresh]
  split
  · exact ⟨rfl, rfl⟩
  · split <;> exact ⟨rfl, rfl⟩

theorem Twin.usbdisk (twin : Twin w u) (dead : Bool) (what : Nat) :
    Twin (w.step (.usbdisk dead what)) (u.step (.usbdisk dead what)) := by
  unfold World.step
  dsimp only
  rw [twin.phase]
  split
  · rename_i idle
    obtain ⟨twin, idle⟩ := twin.dropCardIfDead idle dead
    generalize w.dropCardIfDead dead = w at twin idle
    generalize u.dropCardIfDead dead = u at twin
    obtain ⟨m, rfl, related⟩ := twin
    unfold World.usbdisk
    split
    · dsimp only
      split
      · exact Twin.answer ⟨m, rfl, related⟩ idle _
      · rename_i mounted
        rcases related with fresh | ⟨-, away⟩
        · obtain ⟨same, lib⟩ := handOver_twin fresh
          rw [same]
          rw [← lib] at fresh
          generalize w.handOver = given at fresh
          obtain ⟨v, ok⟩ := given
          cases ok with
          | true => exact ⟨m, rfl, .inl fresh⟩
          | false => exact ⟨m, rfl, .inl fresh⟩
        · simp [(away.idle idle).2] at mounted
    · dsimp only
      split
      · exact Twin.answer ⟨m, rfl, related⟩ idle _
      · rcases related with fresh | ⟨strangers, away⟩
        · exact ⟨m, rfl, .inl fresh⟩
        · obtain ⟨sd, cardMounted⟩ := away.idle idle
          exact ⟨m, rfl, .inr ⟨strangers, .inr ⟨sd, cardMounted, .inr (.inl rfl)⟩⟩⟩
  · exact twin

theorem Twin.mount (twin : Twin w u) (dead : Bool) (what : Nat) (bus : Int) :
    Twin (w.step (.mount dead what bus)) (u.step (.mount dead what bus)) := by
  unfold World.step
  dsimp only
  rw [twin.phase]
  split
  · rename_i idle
    obtain ⟨twin, idle⟩ := twin.dropCardIfDead idle dead
    generalize w.dropCardIfDead dead = w at twin idle
    generalize u.dropCardIfDead dead = u at twin
    obtain ⟨m, rfl, related⟩ := twin
    unfold World.mount
    dsimp only
    split
    · exact Twin.answer ⟨m, rfl, related⟩ idle _
    · split
      · exact Twin.answer ⟨m, rfl, related⟩ idle _
      · rcases related with fresh | ⟨strangers, away⟩
        · exact ⟨m, rfl, .inl fresh⟩
        · obtain ⟨sd, cardMounted⟩ := away.idle idle
          exact ⟨m, rfl, .inr ⟨strangers, .inr ⟨sd, cardMounted, .inr (.inr (.inr (.inl rfl)))⟩⟩⟩
  · exact twin

theorem Twin.remount (twin : Twin w u) {place : Phase Out} (phase : w.phase = place)
    (busy : place ≠ .lent ∧ place ≠ .idle) (next : Phase Out) :
    Twin (w.remount next) (u.remount next) := by
  obtain ⟨m, rfl, fresh | ⟨strangers, away⟩⟩ := twin
  · unfold World.remount
    dsimp only
    rcases keeps_fatMount w.lib m fresh with ⟨left, right⟩ | ⟨ok, l, k, left, right, after⟩
    · rw [left, right]
      exact ⟨m, rfl, .inl fresh⟩
    · rw [left, right]
      cases ok with
      | true => exact ⟨k, rfl, .inl after⟩
      | false => exact ⟨k, rfl, .inl after⟩
  · obtain ⟨sd, cardMounted, -⟩ : w.sd = false ∧ w.cardMounted = false ∧ _ := by
      rcases away with lent | away
      · exact absurd (phase.symm.trans lent) busy.1
      · exact away
    unfold World.remount
    dsimp only
    rcases twins_fatMount w.lib m strangers with ⟨left, right⟩ | ⟨ok, l, k, left, right, after, fresh⟩
    · rw [left, right]
      exact ⟨m, rfl, .inr ⟨strangers, .inr ⟨sd, cardMounted, .inr (.inr (.inr (.inr rfl)))⟩⟩⟩
    · rw [left, right]
      cases ok with
      | true => exact ⟨k, rfl, .inl (fresh rfl)⟩
      | false => exact ⟨k, rfl, .inr ⟨after, .inr ⟨sd, cardMounted, .inl rfl⟩⟩⟩

theorem Twin.enters {m : Library} (fresh : Fresh w.lib m) (room : Bool) :
    Twin (w.enters room) ({ w with lib := m }.enters room) := by
  unfold World.enters
  dsimp only
  split
  · exact ⟨m, rfl, .inl fresh⟩
  · exact ⟨m, rfl, .inl fresh⟩

theorem Twin.fresh (twin : Twin w u) (here : ¬ Away w) :
    ∃ m, u = { w with lib := m } ∧ Fresh w.lib m := by
  obtain ⟨m, same, fresh | ⟨-, away⟩⟩ := twin
  · exact ⟨m, same, fresh⟩
  · exact absurd away here

theorem Twin.serves (twin : Twin w u) (ready room : Bool) (fair : Fair w (.serves ready room)) :
    Twin (w.serves ready room) (u.serves ready room) := by
  unfold World.serves
  rw [twin.phase]
  cases phase : w.phase with
  | idle => exact twin
  | hung => exact twin
  | asking ask =>
    obtain ⟨m, rfl, fresh⟩ := twin.fresh (by simp [Away, phase])
    cases ask with
    | done out => exact ⟨m, rfl, .inl fresh⟩
    | call c next =>
      obtain ⟨v, alike, first, count⟩ := fresh
      have bound : ∀ cluster, v.fatLba cluster ≠ invalidLba := by
        have bound := fair c next phase
        rwa [alike.left] at bound
      dsimp only
      rcases keeps_onFs (keeps_run c bound) alike first count with
        ⟨left, right⟩ | ⟨reply, s, t, left, right, after⟩
      · rw [left, right]
        exact ⟨m, rfl, .inl ⟨v, alike, first, count⟩⟩
      · rw [left, right]
        exact ⟨_, rfl, .inl after⟩
  | lent =>
    obtain ⟨m, rfl, related⟩ := twin
    refine ⟨m, rfl, ?_⟩
    rcases related with fresh | ⟨strangers, -⟩
    · exact .inl fresh
    · exact .inr ⟨strangers, .inr ⟨rfl, rfl, .inl rfl⟩⟩
  | taking =>
    obtain ⟨m, rfl, related⟩ := twin
    refine ⟨m, rfl, ?_⟩
    rcases related with fresh | ⟨strangers, lent | ⟨sd, cardMounted, -⟩⟩
    · exact .inl fresh
    · rw [phase] at lent
      cases lent
    · exact .inr ⟨strangers, .inr ⟨sd, cardMounted, .inr (.inr (.inl rfl))⟩⟩
  | taken => exact twin.remount phase ⟨by simp, by simp⟩ _
  | back =>
    obtain ⟨m, rfl, fresh⟩ := twin.fresh (by simp [Away, phase])
    dsimp only
    split
    · exact ⟨m, rfl, .inl fresh⟩
    · exact Twin.enters fresh room
  | bringing =>
    dsimp only
    split
    · exact twin.remount phase ⟨by simp, by simp⟩ _
    · obtain ⟨m, rfl, related⟩ := twin
      refine ⟨m, rfl, ?_⟩
      rcases related with fresh | ⟨strangers, lent | ⟨sd, cardMounted, -⟩⟩
      · exact .inl fresh
      · rw [phase] at lent
        cases lent
      · exact .inr ⟨strangers, .inr ⟨sd, cardMounted, .inl rfl⟩⟩
  | brought =>
    obtain ⟨m, rfl, fresh⟩ := twin.fresh (by simp [Away, phase])
    exact Twin.enters fresh room

theorem Twin.step (twin : Twin w u) (event : Event Out) (fair : Fair w event) :
    Twin (w.step event) (u.step event) := by
  cases event with
  | request dead ask => exact twin.request dead ask
  | usbdisk dead what => exact twin.usbdisk dead what
  | mount dead what bus => exact twin.mount dead what bus
  | serves ready room => exact twin.serves ready room fair
  | hostReads lba offset len => exact twin.hostReads _ _ _
  | hostWrites lba offset len buf => exact twin.hostWrites _ _ _ _
  | hostEjects =>
    obtain ⟨m, rfl, related⟩ := twin
    exact ⟨m, rfl, related⟩

theorem twin_run (events : List (Event Out)) (fair : Machine.Along World.step Fair w events)
    (twin : Twin w u) : Twin (run w events) (run u events) := by
  induction events generalizing w u with
  | nil => exact twin
  | cons event rest ih => exact ih fair.2 (twin.step event fair.1)

/-- The same world with a library that remembers anything else. The card, its device
and the memory of the stack are not the library's. -/
def World.remembers (w : World Out) (other : Library) : World Out :=
  { w with lib := { other with fs := { other.fs with
      card := w.lib.fs.card
      faults := w.lib.fs.faults
      stack := w.lib.fs.stack
      calls := w.lib.fs.calls } } }

theorem twin_remembers (held : Held w) (has : w.hostHasIt = true) (other : Library) :
    Twin w (w.remembers other) := by
  refine ⟨_, rfl, .inr ⟨⟨_, _, _, _, _, _, _, _, _, rfl⟩, ?_⟩⟩
  rcases held.lent has with lent | ⟨sd, cardMounted, idle | taking⟩
  · exact .inl lent
  · exact .inr ⟨sd, cardMounted, .inl idle⟩
  · exact .inr ⟨sd, cardMounted, .inr (.inl taking)⟩

/-- In a run of fair events only the side that has the card uses it, and what the library
held while the host had it makes no difference to any answer that is still to come. -/
theorem run_sides (lib : Library) (events : List (Event Out))
    (fair : Machine.Along World.step Fair (boot lib) events) :
    (∀ touch ∈ (run (boot lib) events).touched, touch.Proper) ∧
    ∀ front back, events = front ++ back → (run (boot lib) front).hostHasIt = true →
      ∀ other, (run ((run (boot lib) front).remembers other) back).answers =
          (run (boot lib) events).answers ∧
        (run ((run (boot lib) front).remembers other) back).sent = (run (boot lib) events).sent := by
  refine ⟨(held_run lib events fair).proper, ?_⟩
  rintro front back rfl has other
  obtain ⟨before, after⟩ := Machine.along_append.mp fair
  have twin := twin_run back after (twin_remembers (held_run lib front before) has other)
  have whole : run (boot lib) (front ++ back) = run (run (boot lib) front) back := List.foldl_append
  obtain ⟨-, -, sent, answers⟩ := twin.rest
  rw [whole]
  exact ⟨answers, sent⟩

end Twins

section Runs

def bootSector : Block := fun i =>
  [(0, 0xeb), (12, 2), (13, 1), (14, 1), (16, 1), (32, 16), (36, 1), (44, 2), (510, 0x55), (511, 0xaa)].lookup i
    |>.getD 0

def smallCard : Library where
  fs :=
    { volume := ⟨0, 0, 0, 0, 0, 0, 0⟩
      mounted := false
      card := fun lba => if lba = 0 then bootSector else fun _ => 0
      faults := []
      sector := fun _ => 0
      fatbuf := fun _ => 0
      fatbufLba := invalidLba
      allocHint := 2
      ra := ⟨[], false, 0, 0, 0, 0⟩
      stack := fun _ _ => 0
      calls := 0 }
  volumeLba := 0
  volumeSectors := 0

def lends : List (Event Unit) :=
  [.mount false 0 0, .serves true true, .serves true true, .usbdisk false 1, .serves true true]

def returns : List (Event Unit) :=
  [.hostReads 15 0 512, .hostWrites 3 0 512 (fun _ => 7), .usbdisk false 2,
    .serves true true, .serves true true, .serves true true]

def quiet (w : World Unit) : Event Unit → Bool
  | .serves _ _ => match w.phase with
      | .asking _ => false
      | _ => true
  | .hostReads lba offset len => offset.toNat + len.toNat < 2 ^ 32 ∧
      512 * lba.toNat + offset.toNat + len.toNat ≤ 512 * w.totalBlocks
  | .hostWrites lba _ len _ => 512 * lba.toNat + len.toNat ≤ 512 * w.totalBlocks
  | _ => true

theorem fair_of_quiet (w : World Unit) (event : Event Unit) (calm : quiet w event = true) : Fair w event := by
  cases event with
  | request dead ask => trivial
  | usbdisk dead what => trivial
  | mount dead what bus => trivial
  | hostEjects => trivial
  | hostReads lba offset len => exact fun _ _ => by simpa [quiet] using calm
  | hostWrites lba offset len buf => exact fun _ _ => by simpa [quiet] using calm
  | serves ready room =>
    intro c next phase
    simp [quiet, phase] at calm

theorem run_sides_returned :
    (∀ touch ∈ (run (boot smallCard) (lends ++ returns)).touched, touch.Proper) ∧
      (run ((run (boot smallCard) lends).remembers smallCard) returns).answers =
        (run (boot smallCard) (lends ++ returns)).answers := by
  have fair : Machine.Along World.step Fair (boot smallCard) (lends ++ returns) :=
    Machine.along_mono fair_of_quiet (by decide +kernel)
  obtain ⟨proper, forgotten⟩ := run_sides smallCard (lends ++ returns) fair
  exact ⟨proper, (forgotten lends returns rfl (by decide +kernel) smallCard).1⟩

/-- A read that begins at the last block and goes on. -/
theorem beyond_the_end :
    ∃ touch ∈ (run (boot smallCard) (lends ++ [.hostReads 15 0 1024])).touched, ¬ touch.Proper :=
  ⟨.host 16 true 16, by decide +kernel, by simp [Touch.Proper]⟩

end Runs

end Ubiqos.Disk
