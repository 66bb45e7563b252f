import Ubiqos.Disk.Lending
import Ubiqos.Lib.Along

/-!
Only one side uses the card, and what the file server knew of it before it was lent is
of no use afterwards. The first is an invariant of the flag and the server's place; the
second compares a run with the same run on a library that remembers anything else.
-/

namespace Ubiqos.Disk

open Function Fat Prog

/-- The host asks for blocks it has been told of, and no table lies so far up the card
that one of its sectors has the number that means none. -/
def Fair {Out : Type} (w : World Out) : Event Out → Prop
  | .hostReads lba offset len => w.hostHasIt = true → lba.toNat < w.totalBlocks →
      offset.toNat + len.toNat < 2 ^ 32 ∧ 512 * lba.toNat + offset.toNat + len.toNat ≤ 512 * w.totalBlocks
  | .hostWrites lba _ len _ => w.hostHasIt = true → lba.toNat < w.totalBlocks →
      512 * lba.toNat + len.toNat ≤ 512 * w.totalBlocks
  | .serves _ _ => ∀ c next, w.phase = .asking (.call c next) →
      ∀ cluster, w.lib.fs.volume.fatLba cluster ≠ invalidLba
  | _ => True

/-- The server uses the card while the host does not have it, the host while it does
and within what it has been told of. -/
def Touch.Proper : Touch → Prop
  | .volume hostHasIt => hostHasIt = false
  | .host lba hostHasIt totalBlocks => hostHasIt = true ∧ lba < totalBlocks

structure Held {Out : Type} (w : World Out) : Prop where
  lent : w.hostHasIt = true → w.phase = .lent ∨
    w.sd = false ∧ w.cardMounted = false ∧ (w.phase = .idle ∨ w.phase = .taking)
  proper : ∀ touch ∈ w.touched, touch.Proper

section Holding
variable {Out : Type} {w v : World Out}

theorem Held.boot (lib : Library) : Held (boot lib : World Out) := by
  constructor
  · intro has
    cases has
  · intro touch member
    cases member

theorem Held.mine (held : Held w) (has : v.hostHasIt = false) (touched : v.touched = w.touched) : Held v :=
  ⟨fun always => absurd (has.symm.trans always) (by decide), by rw [touched]; exact held.proper⟩

theorem Held.server (held : Held w) {place : Phase Out} (phase : w.phase = place) (busy : place ≠ .lent)
    (working : place ≠ .idle ∧ place ≠ .taking) : w.hostHasIt = false := by
  by_contra has
  rcases held.lent (by simpa using has) with lent | ⟨-, -, idle | taking⟩
  · exact busy (phase.symm.trans lent)
  · exact working.1 (phase.symm.trans idle)
  · exact working.2 (phase.symm.trans taking)

theorem Held.host (held : Held w) (phase : v.phase = w.phase) (sd : v.sd = w.sd)
    (cardMounted : v.cardMounted = w.cardMounted) (has : v.hostHasIt = w.hostHasIt)
    (proper : ∀ touch ∈ v.touched, touch.Proper) : Held v :=
  ⟨by rw [phase, sd, cardMounted, has]; exact held.lent, proper⟩

theorem Held.dropCardIfDead (held : Held w) (idle : w.phase = .idle) (dead : Bool) :
    Held (w.dropCardIfDead dead) ∧ (w.dropCardIfDead dead).phase = .idle := by
  unfold World.dropCardIfDead
  split
  · refine ⟨⟨fun _ => .inr ⟨rfl, rfl, .inl idle⟩, held.proper⟩, idle⟩
  · exact ⟨held, idle⟩

theorem Held.idles (held : Held w) (idle : w.phase = .idle) (a : Answer Out) : Held (w.answer a) := by
  refine ⟨fun has => ?_, held.proper⟩
  rcases held.lent has with lent | away
  · rw [idle] at lent
    cases lent
  · exact .inr ⟨away.1, away.2.1, .inl rfl⟩

theorem Held.request (held : Held w) (dead : Bool) (ask : Ask Out) :
    Held (w.step (.request dead ask)) := by
  unfold World.step
  dsimp only
  split
  · rename_i idle
    obtain ⟨held, idle⟩ := held.dropCardIfDead idle dead
    split
    · rename_i there
      have mine : (w.dropCardIfDead dead).hostHasIt = false := by
        by_contra has
        rcases held.lent (by simpa using has) with lent | ⟨gone, -, -⟩
        · rw [idle] at lent
          cases lent
        · rw [gone] at there
          cases there
      exact held.mine mine rfl
    · exact held.idles idle _
  · exact held

theorem handOver_cases (w : World Out) : ∃ total,
    w.handOver = ({ w with totalBlocks := total }, false) ∨
      w.handOver = ({ w with totalBlocks := total, hostHasIt := true }, true) := by
  unfold World.handOver
  split
  · rename_i has
    exact ⟨w.totalBlocks, .inr (by rw [← has])⟩
  · split
    · exact ⟨w.totalBlocks, .inl rfl⟩
    · exact ⟨0, .inl rfl⟩
    · exact ⟨_, .inr rfl⟩

theorem Held.usbdisk (held : Held w) (dead : Bool) (what : Nat) :
    Held (w.step (.usbdisk dead what)) := by
  unfold World.step
  dsimp only
  split
  · rename_i idle
    obtain ⟨held, idle⟩ := held.dropCardIfDead idle dead
    unfold World.usbdisk
    split
    · split
      · exact held.idles idle _
      · obtain ⟨total, refused | given⟩ := handOver_cases (w.dropCardIfDead dead)
        · rw [refused]
          refine ⟨fun has => ?_, held.proper⟩
          rcases held.lent has with lent | away
          · rw [idle] at lent
            cases lent
          · exact .inr ⟨away.1, away.2.1, .inl rfl⟩
        · rw [given]
          exact ⟨fun _ => .inl rfl, held.proper⟩
    · split
      · exact held.idles idle _
      · refine ⟨fun has => ?_, held.proper⟩
        rcases held.lent has with lent | away
        · rw [idle] at lent
          cases lent
        · exact .inr ⟨away.1, away.2.1, .inr rfl⟩
  · exact held

theorem Held.mount (held : Held w) (dead : Bool) (what : Nat) (bus : Int) :
    Held (w.step (.mount dead what bus)) := by
  unfold World.step
  dsimp only
  split
  · rename_i idle
    obtain ⟨held, idle⟩ := held.dropCardIfDead idle dead
    unfold World.mount
    split
    · exact held.idles idle _
    · rename_i mine
      have mine : (w.dropCardIfDead dead).hostHasIt = false := by simpa using mine
      split
      · exact held.idles idle _
      · exact held.mine mine rfl
  · exact held

theorem Held.uses (held : Held w) (mine : w.hostHasIt = false) (has : v.hostHasIt = w.hostHasIt)
    (touched : v.touched = .volume w.hostHasIt :: w.touched) : Held v := by
  refine ⟨fun always => ?_, ?_⟩
  · rw [has, mine] at always
    cases always
  · rw [touched]
    intro touch member
    rcases List.mem_cons.mp member with rfl | before
    · exact mine
    · exact held.proper touch before

theorem Held.remount (held : Held w) (mine : w.hostHasIt = false) (next : Phase Out) :
    Held (w.remount next) := by
  unfold World.remount
  dsimp only
  split
  · exact held.uses mine rfl rfl
  · exact held.uses mine rfl rfl
  · exact held.uses mine rfl rfl

theorem Held.enters (held : Held w) (mine : w.hostHasIt = false) (room : Bool) :
    Held (w.enters room) := by
  unfold World.enters
  split
  · exact held.mine mine rfl
  · exact held.mine mine rfl

theorem Held.serves (held : Held w) (ready room : Bool) : Held (w.serves ready room) := by
  unfold World.serves
  split
  · exact held
  · rename_i out phase
    exact held.mine (held.server phase (by simp) (by simp)) rfl
  · rename_i c next phase
    have mine := held.server phase (by simp) (by simp)
    dsimp only
    split
    · exact held.uses mine rfl rfl
    · exact held.uses mine rfl rfl
  · exact ⟨fun _ => .inr ⟨rfl, rfl, .inl rfl⟩, held.proper⟩
  · exact held.mine rfl rfl
  · rename_i phase
    exact held.remount (held.server phase (by simp) (by simp)) _
  · rename_i phase
    have mine := held.server phase (by simp) (by simp)
    split
    · exact held.mine mine rfl
    · exact held.enters mine room
  · rename_i phase
    have mine := held.server phase (by simp) (by simp)
    split
    · exact held.remount mine _
    · exact held.uses mine rfl rfl
  · rename_i phase
    exact held.enters (held.server phase (by simp) (by simp)) room
  · exact held

theorem Held.touch (held : Held w) (has : w.hostHasIt = true) {lba : Nat} (below : lba < w.totalBlocks) :
    Held (w.touch lba) := by
  refine held.host rfl rfl rfl rfl fun touch member => ?_
  rcases List.mem_cons.mp member with rfl | before
  · exact ⟨has, below⟩
  · exact held.proper touch before

theorem Held.sends (held : Held w) (count : Int) (data : List Byte) : Held (w.sends count data) :=
  held.host rfl rfl rfl rfl held.proper

theorem Held.hostReadFrom {lba offset len n done : Nat} {out : List Byte} (held : Held w)
    (has : w.hostHasIt = true) (small : offset + len < 2 ^ 32)
    (within : 512 * lba + offset + len ≤ 512 * w.totalBlocks) :
    Held (hostReadFrom lba offset len n done out w) := by
  induction n generalizing w done out with
  | zero => exact held.sends _ _
  | succ n ih =>
    unfold Disk.hostReadFrom
    split
    · rename_i more
      have below : (lba + (offset + done) % 2 ^ 32 / 512) % 2 ^ 32 < w.totalBlocks := by
        have near : (offset + done) % 2 ^ 32 = offset + done := Nat.mod_eq_of_lt (by omega)
        rw [near]
        exact lt_of_le_of_lt (Nat.mod_le _ _) (by omega)
      dsimp only
      split
      · exact (held.touch has below).sends _ _
      · exact ih (held.touch has below) has within
    · exact held.sends _ _

theorem Held.hostWriteFrom {lba len n i : Nat} {buf : Nat → Byte} (held : Held w)
    (has : w.hostHasIt = true) (within : lba + i + n ≤ w.totalBlocks) :
    Held (hostWriteFrom lba len buf n i w) := by
  induction n generalizing w i with
  | zero => exact held.sends _ _
  | succ n ih =>
    unfold Disk.hostWriteFrom
    have below : (lba + i) % 2 ^ 32 < w.totalBlocks :=
      lt_of_le_of_lt (Nat.mod_le _ _) (by omega)
    have put : ∀ b, Held ((w.touch ((lba + i) % 2 ^ 32)).put ((lba + i) % 2 ^ 32) b) :=
      fun b => (held.touch has below).host rfl rfl rfl rfl (held.touch has below).proper
    dsimp only
    split
    · exact (put _).sends _ _
    · exact ih (put _) has (by simpa [World.put, World.touch] using (by omega : lba + (i + 1) + n ≤ w.totalBlocks))

theorem Held.step (held : Held w) (event : Event Out) (fair : Fair w event) : Held (w.step event) := by
  cases event with
  | request dead ask => exact held.request dead ask
  | usbdisk dead what => exact held.usbdisk dead what
  | mount dead what bus => exact held.mount dead what bus
  | serves ready room => exact held.serves ready room
  | hostEjects => exact held.mine rfl rfl
  | hostReads lba offset len =>
    change Held (w.hostReads lba.toNat offset.toNat len.toNat)
    unfold World.hostReads
    split
    · exact held.sends _ _
    · rename_i allowed
      obtain ⟨has, below⟩ := not_or.mp allowed
      have has : w.hostHasIt = true := by simpa using has
      obtain ⟨small, within⟩ := fair has (by omega)
      exact held.hostReadFrom has small within
  | hostWrites lba offset len buf =>
    change Held (w.hostWrites lba.toNat offset.toNat len.toNat buf)
    unfold World.hostWrites
    split
    · exact held.sends _ _
    · rename_i allowed
      obtain ⟨has, below⟩ := not_or.mp allowed
      have has : w.hostHasIt = true := by simpa using has
      split
      · exact held.sends _ _
      · have within := fair has (by omega)
        exact held.hostWriteFrom has (by omega)

theorem held_run (lib : Library) (events : List (Event Out))
    (fair : Machine.Along World.step Fair (boot lib) events) : Held (run (boot lib) events) :=
  Machine.along_invariant Held fair (Held.boot lib)
    (fun _ event _ allowed held => held.step event allowed)

end Holding

end Ubiqos.Disk
