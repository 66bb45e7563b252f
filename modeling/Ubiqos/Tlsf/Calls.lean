import Ubiqos.Tlsf.Blocks

/-!
The three calls as a caller sees them. `malloc` brings one more block into use
and `free` takes it back: either way the other blocks in use stay, and stay as
large as they were. `Gains` says so from the side of the pool with one less.
-/

namespace Ubiqos.Tlsf

open Function Tiling

structure Gains (p : Pool) (tiles : List Nat) (block : Nat) (p' : Pool) (tiles' : List Nat) :
    Prop where
  start : p'.poolStart = p.poolStart
  stop : p'.poolEnd = p.poolEnd
  fresh : ¬ UsedIn p tiles block
  used : ∀ other, UsedIn p' tiles' other ↔ UsedIn p tiles other ∨ other = block
  size : ∀ other, UsedIn p tiles other → payload (p'.size other) = payload (p.size other)

theorem Keeps.symm {p q : Pool} {tiles tiles' : List Nat} (keeps : Keeps p tiles q tiles') :
    Keeps q tiles' p tiles :=
  ⟨keeps.start.symm, keeps.stop.symm, fun block => (keeps.used block).symm,
    fun block used => (keeps.size block ((keeps.used block).mp used)).symm⟩

theorem Keeps.gains {p q r : Pool} {tiles tiles' tiles'' : List Nat} {block : Nat}
    (keeps : Keeps p tiles q tiles') (gains : Gains q tiles' block r tiles'') :
    Gains p tiles block r tiles'' := by
  refine ⟨gains.start.trans keeps.start, gains.stop.trans keeps.stop, ?_, ?_, ?_⟩
  · exact fun used => gains.fresh ((keeps.used block).mpr used)
  · intro other
    rw [gains.used, keeps.used]
  · intro other used
    exact (gains.size other ((keeps.used other).mpr used)).trans (keeps.size other used)

theorem Gains.keeps {p q r : Pool} {tiles tiles' tiles'' : List Nat} {block : Nat}
    (gains : Gains p tiles block q tiles') (keeps : Keeps q tiles' r tiles'') :
    Gains p tiles block r tiles'' := by
  refine ⟨keeps.start.trans gains.start, keeps.stop.trans gains.stop, gains.fresh, ?_, ?_⟩
  · intro other
    rw [keeps.used, gains.used]
  · intro other used
    have later := (gains.used other).mpr (.inl used)
    exact (keeps.size other later).trans (gains.size other used)

section Calls
variable {p : Pool} {front back tiles : List Nat} {block size : Nat} {before : Option Nat}
  {lists : Class → List Nat}

theorem Hole.gains (hole : Hole p front block before back lists) :
    Gains p (front ++ back) block p (front ++ block :: back) :=
  ⟨rfl, rfl, fun used => hole.outside used.1, usedIn_joined hole.used, fun _ _ => rfl⟩

theorem free_whole (whole : Whole p tiles lists) (used : UsedIn p tiles block) :
    ∃ tiles' lists', Whole (free p (block + headerBytes)) tiles' lists' ∧
      Gains (free p (block + headerBytes)) tiles' block p tiles := by
  obtain ⟨front, back, rfl⟩ := List.append_of_mem used.1
  have hole := whole.take used.2
  obtain ⟨before, back', lists', wide, behind, keepsNext⟩ := absorbNext_hole hole
  obtain ⟨front', before', lists'', wider, ahead, behind, keepsPrev⟩ := absorbPrev_hole wide behind
  obtain ⟨final, settled, keepsLast⟩ := settle wider ahead behind
  have calls : free p (block + headerBytes) =
      insert (linkAfter (absorbPrev (absorbNext p block) block).1
        (absorbPrev (absorbNext p block) block).2) (absorbPrev (absorbNext p block) block).2 := by
    simp [free, headerBytes]
  rw [calls]
  exact ⟨_, final, settled, (keepsNext.trans (keepsPrev.trans keepsLast)).symm.gains hole.gains⟩

theorem Whole.open (whole : Whole p (front ++ block :: back) lists)
    (free : isFree (p.size block) = true) :
    ∃ lists', Hole (remove p block) front block (some block) back lists' ∧
      Unfree (remove p block) front.getLast? ∧ Unfree (remove p block) back.head? ∧
      Keeps p (front ++ block :: back) (remove p block) (front ++ back) := by
  obtain ⟨_, start, stop, prevs, sizes, _⟩ := remove_frame p block
  have nodup := tiled_nodup whole.tiled (fun other _ => width_pos p other)
  have outside : block ∉ front ++ back := by
    rw [List.nodup_middle] at nodup
    exact (List.nodup_cons.mp nodup).1
  have same : ∀ other ∈ front ++ back, (remove p block).size other = p.size other := by
    intro other member
    rw [sizes, update_of_ne (ne_of_mem_of_not_mem member outside)]
  have inFront : ∀ other ∈ front, (remove p block).size other = p.size other :=
    fun other member => same other (List.mem_append_left back member)
  have inBack : ∀ other ∈ back, (remove p block).size other = p.size other :=
    fun other member => same other (List.mem_append_right front member)
  have here : (remove p block).size block = payload (p.size block) := by
    rw [sizes, update_self]
  have whatItIs : (remove p block).reshaped (remove p block).size p.prevPhys = remove p block := by
    rw [← prevs]
    rfl
  obtain ⟨listed, bytes, keeps⟩ := eaten whole.listed whole.bytes free outside same
  rw [whatItIs] at listed bytes keeps
  obtain ⟨middle, left, isHere, link, right⟩ := tiled_append.mp whole.tiled
  rw [← isHere] at left right
  obtain ⟨mergedFront, mergedRest, apartFront⟩ := List.isChain_append.mp whole.merged
  obtain ⟨apartBack, mergedBack⟩ := List.isChain_cons.mp mergedRest
  have sameWidth : width (remove p block) block = width p block := by
    rw [width, width, here, payload_payload]
  refine ⟨_, ⟨?_, ?_, ?_, ?_, ?_, ?_, listed, bytes⟩, ?_, ?_, keeps⟩
  · rw [start]
    exact tiled_reshape left inFront (fun _ _ => by rw [prevs])
  · rw [prevs, link, Option.or_none]
  · rw [stop, sameWidth]
    exact tiled_reshape right inBack (fun _ _ => by rw [prevs])
  · rw [here, isFree_payload]
  · exact Merged.congr mergedFront inFront
  · exact Merged.congr mergedBack inBack
  · intro other isOther
    rw [inFront other (List.mem_of_getLast? isOther)]
    simpa [free] using apartFront other isOther block rfl
  · intro other isOther
    rw [inBack other (List.mem_of_head? isOther)]
    simpa [free] using apartBack other isOther

theorem Hole.before_cut (hole : Hole p front block before back lists) :
    ∀ other ∈ front, other < block := by
  intro other member
  have bound := (hole.below other member).2
  have positive := width_pos p other
  omega

theorem Hole.behind_cut (hole : Hole p front block before back lists)
    (roomy : headerBytes + size ≤ payload (p.size block)) :
    ∀ other ∈ back, block + headerBytes + size < other := by
  intro other member
  have bound := (hole.above other member).1
  unfold width headerBytes at bound
  unfold headerBytes at roomy ⊢
  omega

theorem Hole.cut (hole : Hole p front block (some block) back lists) (even : size % 2 = 0)
    (roomy : headerBytes + size ≤ payload (p.size block)) {q : Pool}
    (cut : q = p.reshaped
      (update (update p.size (block + headerBytes + size)
        (payload (p.size block) - size - headerBytes)) block size)
      (update p.prevPhys (block + headerBytes + size) (some block))) :
    Hole q (front ++ [block]) (block + headerBytes + size) (some block) back lists ∧
      Gains p (front ++ back) block q (front ++ [block] ++ back) ∧ q.size block = size ∧
      ∀ other ∈ front ++ back, q.size other = p.size other := by
  have even' := payload_even (p.size block)
  have outside := hole.outside
  have below := hole.before_cut
  have above := hole.behind_cut roomy
  generalize restIs : block + headerBytes + size = rest at cut above ⊢
  have later : block < rest := by
    unfold headerBytes at restIs
    omega
  have restAway : rest ∉ front ++ back := by
    intro member
    rcases List.mem_append.mp member with inFront | inBack
    · have bound := below rest inFront
      omega
    · exact absurd (above rest inBack) (Nat.lt_irrefl rest)
  -- The cut writes the sizes of `block` and `rest` and one link, and nothing else.
  have same : ∀ other ∈ front ++ back, q.size other = p.size other := by
    intro other member
    rw [cut, reshaped_size, update_of_ne (ne_of_mem_of_not_mem member outside),
      update_of_ne (ne_of_mem_of_not_mem member restAway)]
  have samePrev : ∀ other, other ≠ rest → q.prevPhys other = p.prevPhys other := by
    intro other away
    rw [cut, reshaped_prevPhys, update_of_ne away]
  have inFront : ∀ other ∈ front, q.size other = p.size other :=
    fun other member => same other (List.mem_append_left back member)
  have inBack : ∀ other ∈ back, q.size other = p.size other :=
    fun other member => same other (List.mem_append_right front member)
  have here : q.size block = size := by
    rw [cut, reshaped_size, update_self]
  have there : q.size rest = payload (p.size block) - size - headerBytes := by
    rw [cut, reshaped_size, update_of_ne (by omega), update_self]
  have hereUsed : isFree (q.size block) = false := by
    rw [here]
    exact used_of_even even
  have thereUsed : isFree (q.size rest) = false := by
    rw [there]
    refine used_of_even ?_
    unfold headerBytes at roomy ⊢
    omega
  -- The two parts fill the old block: the header of `rest` comes out of its payload.
  have meets : block + width q block = rest := by
    rw [width, payload_of_used hereUsed, here, ← restIs]
    omega
  have ends : rest + width q rest = block + width p block := by
    rw [width, payload_of_used thereUsed, there, ← restIs, width]
    omega
  have freeSame : ∀ other, FreeIn q (front ++ [block] ++ back) other ↔
      FreeIn p (front ++ back) other := by
    intro other
    rw [← FreeIn.congr same, List.append_assoc]
    exact freeIn_beside hereUsed other
  refine ⟨⟨?_, ?_, ?_, thereUsed, ?_, hole.mergedBack.congr inBack, ?_, ?_⟩, ?_, here, same⟩
  · have start : q.poolStart = p.poolStart := by rw [cut, reshaped_poolStart]
    rw [start]
    refine tiled_append.mpr ⟨block, ?_, rfl, ?_, meets⟩
    · refine tiled_reshape hole.left inFront ?_
      intro other member
      have bound := below other member
      exact samePrev other (by omega)
    · rw [Option.or_none, samePrev block (by omega)]
      exact hole.link
  · rw [cut, reshaped_prevPhys, update_self, List.getLast?_concat]
  · have stop : q.poolEnd = p.poolEnd := by rw [cut, reshaped_poolEnd]
    rw [stop, ends]
    refine tiled_reshape hole.right inBack ?_
    intro other member
    have bound := above other member
    exact samePrev other (by omega)
  · refine List.isChain_append.mpr ⟨hole.mergedFront.congr inFront, List.isChain_singleton block, ?_⟩
    rintro other _ next isNext ⟨_, free⟩
    rw [← Option.some.inj isNext, hereUsed] at free
    exact absurd free (by simp)
  · refine FreeLists.congr ?_ freeSame
    rw [cut]
    refine hole.listed.reshape ?_
    rintro other ⟨member, _⟩
    rw [← same other member, cut, reshaped_size]
  · have total : q.freeBytes = p.freeBytes := by rw [cut, reshaped_freeBytes]
    rw [total, hole.bytes, List.append_assoc, List.singleton_append, freeSum_append, freeSum_append,
      freeSum_cons, hereUsed, freeSum_congr inFront, freeSum_congr inBack]
    simp
  · refine ⟨by rw [cut, reshaped_poolStart], by rw [cut, reshaped_poolEnd],
      hole.gains.fresh, ?_, ?_⟩
    · intro other
      rw [← UsedIn.congr same, List.append_assoc]
      exact usedIn_joined hereUsed other
    · intro other used
      rw [same other used.1]

theorem split_hole (hole : Hole p front block (some block) back lists) (even : size % 2 = 0)
    (roomy : headerBytes + size ≤ payload (p.size block)) (behind : Unfree p back.head?) :
    ∃ tiles' lists', Whole (split p block size) tiles' lists' ∧
      Gains p (front ++ back) block (split p block size) tiles' ∧
      payload ((split p block size).size block) = size := by
  generalize cut : p.reshaped
    (update (update p.size (block + headerBytes + size)
      (payload (p.size block) - size - headerBytes)) block size)
    (update p.prevPhys (block + headerBytes + size) (some block)) = q
  obtain ⟨rest, gains, here, same⟩ := hole.cut even roomy cut.symm
  have hereUsed : isFree (q.size block) = false := by
    rw [here]
    exact used_of_even even
  obtain ⟨lists', whole, keeps⟩ := settle rest
    (by
      intro other isOther
      rw [List.getLast?_concat] at isOther
      rw [← Option.some.inj isOther, hereUsed])
    (by
      intro other isOther
      rw [same other (List.mem_append_right front (List.mem_of_head? isOther))]
      exact behind other isOther)
  have splits : split p block size =
      insert (linkAfter q (block + headerBytes + size)) (block + headerBytes + size) := by
    rw [← cut]
    rfl
  rw [splits]
  refine ⟨_, lists', whole, gains.keeps keeps, ?_⟩
  rw [keeps.size block ⟨by simp, hereUsed⟩, payload_of_used hereUsed, here]

theorem clearing_used {q : Pool} (used : isFree (q.size block) = false) :
    { q with size := update q.size block (payload (q.size block)) } = q := by
  rw [payload_of_used used, update_eq_self]

theorem trim_hole (hole : Hole p front block (some block) back lists) (even : size % 2 = 0)
    (enough : size ≤ payload (p.size block)) (behind : Unfree p back.head?) :
    ∃ tiles' lists', Whole (trim p block size) tiles' lists' ∧
      Gains p (front ++ back) block (trim p block size) tiles' ∧
      size ≤ payload ((trim p block size).size block) := by
  by_cases roomy : headerBytes + minPayload ≤ payload (p.size block) - size
  · obtain ⟨tiles', lists', whole, gains, exact'⟩ := split_hole hole even (by omega) behind
    have used := ((gains.used block).mpr (.inr rfl)).2
    have trims : trim p block size = split p block size := by
      rw [trim, if_pos roomy, clearing_used used]
    rw [trims]
    exact ⟨tiles', lists', whole, gains, Nat.le_of_eq exact'.symm⟩
  · have trims : trim p block size = p := by
      rw [trim, if_neg roomy, clearing_used hole.used]
    rw [trims]
    exact ⟨_, lists, hole.close, hole.gains, enough⟩

theorem roundUp_even (size : Nat) : roundUp size % 2 = 0 := by
  unfold roundUp minPayload
  omega

theorem malloc_whole (whole : Whole p tiles lists) {pointer : Nat}
    (given : (malloc p size).2 = some pointer) :
    ∃ block tiles' lists', pointer = block + headerBytes ∧ Whole (malloc p size).1 tiles' lists' ∧
      Gains p tiles block (malloc p size).1 tiles' ∧
      roundUp size ≤ payload ((malloc p size).1.size block) := by
  unfold malloc at given ⊢
  by_cases zero : size = 0
  · simp [zero] at given
  · rw [if_neg zero] at given ⊢
    cases searched : search p (roundUp size) with
    | none => simp [searched] at given
    | some block =>
      simp only [searched, Option.some.injEq] at given ⊢
      obtain ⟨⟨member, free⟩, enough⟩ := search_some whole.listed searched
      obtain ⟨front, back, rfl⟩ := List.append_of_mem member
      obtain ⟨lists', hole, _, behind, keeps⟩ := whole.open free
      have same : payload ((remove p block).size block) = payload (p.size block) := by
        rw [(remove_frame p block).2.2.2.2.1, update_self, payload_payload]
      obtain ⟨tiles', final, trimmed, gains, fits⟩ := trim_hole hole (roundUp_even size)
        (by rw [same]; exact enough) behind
      exact ⟨block, tiles', final, given.symm, trimmed, keeps.gains gains, fits⟩

theorem malloc_none (given : (malloc p size).2 = none) : (malloc p size).1 = p := by
  unfold malloc at given ⊢
  by_cases zero : size = 0
  · simp [zero]
  · rw [if_neg zero] at given ⊢
    cases searched : search p (roundUp size) with
    | none => simp only [searched]
    | some block => simp [searched] at given

end Calls

structure Region (mem bytes : Nat) : Prop where
  aligned : mem % 4 = 0
  whole : bytes % 4 = 0
  within : mem + bytes < 2 ^ 32

instance (mem bytes : Nat) : Decidable (Region mem bytes) :=
  decidable_of_iff (mem % 4 = 0 ∧ bytes % 4 = 0 ∧ mem + bytes < 2 ^ 32)
    ⟨fun ⟨aligned, whole, within⟩ => ⟨aligned, whole, within⟩,
      fun region => ⟨region.aligned, region.whole, region.within⟩⟩

theorem insert_bare {p q : Pool} (filled : insert q q.poolStart = p) (rows : 0 < q.flCount ∧ q.flCount ≤ 32)
    (noRow : q.flBitmap = 0) (noList : ∀ f, q.slBitmap f = 0)
    (noHead : ∀ f s, q.blocks f s = none) (first : q.prevPhys q.poolStart = none)
    (even : q.size q.poolStart % 2 = 0)
    (ends : q.poolStart + headerBytes + q.size q.poolStart = q.poolEnd) (nothing : q.freeBytes = 0) :
    (∃ lists, Whole p [p.poolStart] lists) ∧ ∀ block, ¬ UsedIn p [p.poolStart] block := by
  have used := used_of_even even
  have hole : Hole q [] q.poolStart (some q.poolStart) [] (fun _ => []) := by
    refine ⟨rfl, first, ?_, used, .nil, .nil, ⟨rows, ?_, ?_, ?_, ?_⟩, nothing⟩
    · have stop : q.poolStart + width q q.poolStart = q.poolEnd := by
        rw [width, payload_of_used used]
        omega
      exact stop
    · exact fun c => noHead c.1 c.2
    · simp [FreeIn]
    · simp [noList]
    · simp [noRow, noList]
  obtain ⟨whole, keeps⟩ := insert_hole hole (by simp [Unfree]) (by simp [Unfree])
  rw [filled] at whole keeps
  have start : q.poolStart = p.poolStart := keeps.start.symm
  rw [List.nil_append, start] at whole keeps
  refine ⟨⟨_, whole⟩, ?_⟩
  intro block inUse
  exact absurd ((keeps.used block).mp inUse).1 (by simp)

theorem create_whole {mem bytes : Nat} (region : Region mem bytes) {p : Pool}
    (created : create mem bytes = some p) :
    (∃ lists, Whole p [p.poolStart] lists) ∧ (∀ block, ¬ UsedIn p [p.poolStart] block) ∧
      mem ≤ p.poolStart ∧ p.poolEnd = mem + bytes := by
  unfold create at created
  by_cases empty : bytes = 0
  · simp [empty] at created
  · rw [if_neg empty] at created
    dsimp only at created
    split at created
    · exact absurd created (by simp)
    · rename_i roomy
      rw [Option.some.injEq] at created
      generalize rowsAre : min (bytes.log2 + 1) flIndexMax = rows at roomy created
      generalize startIs : (mem + (ctrlBytes + rows * rowBytes) + 7) / 8 * 8 = start at created
      have rowsBound : 0 < rows ∧ rows ≤ 32 := by
        unfold flIndexMax at rowsAre
        omega
      have startBound : mem ≤ start ∧ start + headerBytes ≤ mem + bytes := by
        unfold headerBytes minPayload at roomy
        unfold headerBytes
        omega
      have even : (mem + bytes - start - headerBytes) % 2 = 0 := by
        have aligned := region.aligned
        have whole := region.whole
        unfold headerBytes at startBound ⊢
        omega
      have ends : start + headerBytes + (mem + bytes - start - headerBytes) = mem + bytes := by
        omega
      obtain ⟨whole, unused⟩ := insert_bare created rowsBound rfl (fun _ => rfl) (fun _ _ => rfl)
        rfl (by simpa using even) (by simpa using ends) rfl
      refine ⟨whole, unused, ?_, ?_⟩
      · rw [← created]
        exact startBound.1
      · rw [← created]
        rfl

end Ubiqos.Tlsf
