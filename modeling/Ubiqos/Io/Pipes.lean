import Ubiqos.Io.Accounts
import Ubiqos.Lib.Cyclic

/-!
A pipe is a stream of bytes. Beside the table a run keeps, for each ring, what
its writes reported as taken and what its reads returned, from the call that
handed the ring out. What the ring holds is always what is between the two.
-/

namespace Ubiqos.Io

open Function Machine Tally Cyclic

def Pipe.content (q : Pipe) : List Byte := contents pipeBuf q.buf q.tail (pipeUsed q)

def Pipe.Sound (q : Pipe) : Prop := q.head < pipeBuf ∧ q.tail < pipeBuf

variable {q : Pipe}

theorem pipeUsed_eq (sound : q.Sound) : pipeUsed q = held pipeBuf q.head q.tail := by
  obtain ⟨headInside, tailInside⟩ := sound
  unfold pipeUsed held
  simp only [pipeBuf] at headInside tailInside ⊢
  omega

theorem content_length (q : Pipe) : q.content.length = pipeUsed q := length_contents _

theorem content_empty (head : q.head = 0) (tail : q.tail = 0) :
    q.Sound ∧ q.content = [] := by
  have used : pipeUsed q = 0 := by simp [pipeUsed, head, tail]
  constructor
  · exact ⟨by rw [head]; decide, by rw [tail]; decide⟩
  · exact List.length_eq_zero_iff.mp ((content_length q).trans used)

theorem pipeUsed_lt (q : Pipe) : pipeUsed q < pipeBuf := Nat.mod_lt _ (by decide)

theorem push_content (sound : q.Sound) (room : pipeUsed q < pipeBuf - 1) (byte : Byte) :
    Pipe.Sound { q with buf := update q.buf q.head byte, head := (q.head + 1) % pipeBuf } ∧
      Pipe.content { q with buf := update q.buf q.head byte, head := (q.head + 1) % pipeBuf } =
        q.content ++ [byte] := by
  obtain ⟨headInside, tailInside⟩ := sound
  have used := pipeUsed_eq ⟨headInside, tailInside⟩
  have pushed : Pipe.Sound
      { q with buf := update q.buf q.head byte, head := (q.head + 1) % pipeBuf } :=
    ⟨Nat.mod_lt _ (by decide), tailInside⟩
  have inside : held pipeBuf q.head q.tail + 1 < pipeBuf := by omega
  refine ⟨pushed, ?_⟩
  unfold Pipe.content
  rw [pipeUsed_eq pushed, used]
  dsimp only
  rw [held_succ inside]
  have grown : contents pipeBuf
      (update q.buf ((q.tail + held pipeBuf q.head q.tail) % pipeBuf) byte) q.tail
      (held pipeBuf q.head q.tail + 1) =
      contents pipeBuf q.buf q.tail (held pipeBuf q.head q.tail) ++ [byte] :=
    contents_push byte (Nat.lt_of_succ_lt inside)
  rwa [head_eq headInside tailInside] at grown

theorem pop_content (sound : q.Sound) (filled : pipeUsed q ≠ 0) :
    Pipe.Sound { q with tail := (q.tail + 1) % pipeBuf } ∧
      q.content = q.buf q.tail :: Pipe.content { q with tail := (q.tail + 1) % pipeBuf } := by
  obtain ⟨headInside, tailInside⟩ := sound
  have used := pipeUsed_eq ⟨headInside, tailInside⟩
  have popped : Pipe.Sound { q with tail := (q.tail + 1) % pipeBuf } :=
    ⟨headInside, Nat.mod_lt _ (by decide)⟩
  rw [used] at filled
  refine ⟨popped, ?_⟩
  unfold Pipe.content
  rw [pipeUsed_eq popped, used]
  dsimp only
  rw [← held_pred headInside tailInside filled, contents_pop _ tailInside]

theorem fill_content (sound : q.Sound) (bytes : List Byte) :
    (fill q bytes).1.Sound ∧
      (fill q bytes).1.content = q.content ++ bytes.take (fill q bytes).2 := by
  induction bytes generalizing q with
  | nil => simpa [fill] using sound
  | cons byte rest ih =>
    unfold fill
    split
    · rename_i room
      obtain ⟨pushed, grown⟩ := push_content sound room byte
      obtain ⟨after, taken⟩ := ih pushed
      refine ⟨after, ?_⟩
      dsimp only
      rw [taken, grown, List.take_succ_cons, List.append_assoc, List.singleton_append]
    · simpa using sound

theorem drain_empty (empty : pipeUsed q = 0) (len : Nat) : drain q len = (q, []) := by
  cases len with
  | zero => rfl
  | succ len => simp [drain, empty]

theorem drain_succ (filled : pipeUsed q ≠ 0) (len : Nat) :
    drain q (len + 1) = ((drain { q with tail := (q.tail + 1) % pipeBuf } len).1,
      q.buf q.tail :: (drain { q with tail := (q.tail + 1) % pipeBuf } len).2) := by
  simp [drain, filled]

theorem drain_content (sound : q.Sound) (len : Nat) :
    (drain q len).1.Sound ∧ q.content = (drain q len).2 ++ (drain q len).1.content := by
  induction len generalizing q with
  | zero => exact ⟨sound, (List.nil_append _).symm⟩
  | succ len ih =>
    by_cases empty : pipeUsed q = 0
    · rw [drain_empty empty]
      exact ⟨sound, (List.nil_append _).symm⟩
    · obtain ⟨popped, first⟩ := pop_content sound empty
      obtain ⟨after, rest⟩ := ih popped
      rw [drain_succ empty]
      exact ⟨after, first.trans (congrArg (q.buf q.tail :: ·) rest)⟩

def SameBytes (a b : Pipe) : Prop := a.buf = b.buf ∧ a.head = b.head ∧ a.tail = b.tail

theorem SameBytes.refl (a : Pipe) : SameBytes a a := ⟨rfl, rfl, rfl⟩

theorem SameBytes.trans {a b c : Pipe} (first : SameBytes a b) (second : SameBytes b c) :
    SameBytes a c :=
  ⟨first.1.trans second.1, first.2.1.trans second.2.1, first.2.2.trans second.2.2⟩

theorem SameBytes.content {a b : Pipe} (same : SameBytes a b) : a.content = b.content := by
  obtain ⟨buf, head, tail⟩ := same
  simp only [Pipe.content, pipeUsed, buf, head, tail]

theorem SameBytes.sound {a b : Pipe} (same : SameBytes a b) (sound : a.Sound) : b.Sound := by
  obtain ⟨_, head, tail⟩ := same
  simpa [Pipe.Sound, head, tail] using sound

section Calls
variable {n k f : Nat}

def Still (t t' : Table n k f) : Prop := ∀ q, SameBytes (t.pipes q) (t'.pipes q)

theorem Still.refl (t : Table n k f) : Still t t := fun _ => .refl _

theorem Still.trans {t t' t'' : Table n k f} (first : Still t t') (second : Still t' t'') :
    Still t t'' :=
  fun q => (first q).trans (second q)

theorem still_of_pipes {t t' : Table n k f} (same : t'.pipes = t.pipes) : Still t t' := by
  intro q
  rw [same]
  exact .refl _

theorem still_setPipe (t : Table n k f) {q : Ring} {pipe : Pipe} (same : SameBytes (t.pipes q) pipe) :
    Still t (setPipe t q pipe) := by
  intro p
  by_cases here : p = q
  · subst here
    simpa [setPipe] using same
  · simpa [setPipe, here] using SameBytes.refl _

theorem counts_still (t : Table n k f) (q : Ring) :
    Still t (addReader t q) ∧ Still t (addWriter t q) ∧
      Still t (dropReader t q) ∧ Still t (dropWriter t q) :=
  ⟨still_setPipe t ⟨rfl, rfl, rfl⟩, still_setPipe t ⟨rfl, rfl, rfl⟩,
    still_setPipe t ⟨rfl, rfl, rfl⟩, still_setPipe t ⟨rfl, rfl, rfl⟩⟩

theorem dropEnd_still (t : Table n k f) (slot : Slot f) : Still t (dropEnd t slot) := by
  unfold dropEnd
  split
  · exact .refl t
  · exact (counts_still t _).2.2.1.trans (counts_still _ _).2.2.2
  · split
    · exact (counts_still t _).2.2.2
    · exact (counts_still t _).2.2.1

theorem addEnd_still (t : Table n k f) (slot : Slot f) : Still t (addEnd t slot) := by
  unfold addEnd
  split
  · exact .refl t
  · exact (counts_still t _).1.trans (counts_still _ _).2.1
  · split
    · exact (counts_still t _).2.1
    · exact (counts_still t _).1

theorem fileRelease_still (t : Table n k f) (spot : Pid n × Fin k) : Still t (fileRelease t spot) := by
  unfold fileRelease
  split
  · exact .refl t
  · exact still_of_pipes rfl

theorem pipeRelease_still (t : Table n k f) (spot : Pid n × Fin k) : Still t (pipeRelease t spot) := by
  unfold pipeRelease
  split
  · exact .refl t
  · exact (dropEnd_still t _).trans (still_of_pipes rfl)

theorem close_still (t : Table n k f) (path owner : Int) : Still t (close t path owner).1 := by
  unfold close
  split
  · exact fileRelease_still t _
  · split
    · exact pipeRelease_still t _
    · split
      · exact still_of_pipes rfl
      · exact .refl t

theorem copySlot_still (t : Table n k f) (source target : Pid n × Fin k) :
    Still t (copySlot t source target) := by
  have placed : Still t (addFile (setSlot t target (t.paths source)) (t.paths source)) :=
    still_of_pipes (addFile_frame _ _).2
  exact placed.trans (addEnd_still _ _)

theorem dup_still (t : Table n k f) (path newPath owner : Int) :
    Still t (dup t path newPath owner).1 := by
  unfold dup
  split
  · exact .refl t
  · split
    · exact .refl t
    · split
      · exact .refl t
      · split
        · split
          · exact .refl t
          · exact copySlot_still t _ _
        · split
          · exact .refl t
          · exact (close_still t newPath owner).trans (copySlot_still _ _ _)

theorem inherit_still (t : Table n k f) (parent child : Int) : Still t (inherit t parent child) := by
  unfold inherit
  split
  · exact foldl_invariant (Still t) (.refl t)
      (fun _ _ _ still => still.trans (copySlot_still _ _ _))
  · exact .refl t

theorem closeAll_still (t : Table n k f) (owner : Int) : Still t (closeAll t owner) := by
  unfold closeAll
  split
  · exact .refl t
  · rename_i pid _
    apply foldl_invariant (Still t) (.refl t)
    intro t' p _ still
    have released := (fileRelease_still t' (pid, p)).trans (pipeRelease_still _ (pid, p))
    exact (still.trans released).trans (still_of_pipes rfl)

theorem open_still (t : Table n k f) :
    (∀ name configured, Still t (addDescriptor t name configured)) ∧
      (∀ name opens owner, Still t (openDevice t name opens owner).1) ∧
      (∀ name opens owner path, Still t (openAs t name opens owner path).1) ∧
      ∀ path owner, Still t (openFile t path owner).1 := by
  refine ⟨?_, ?_, ?_, ?_⟩
  · intro name configured
    unfold addDescriptor
    split
    · exact .refl t
    · split <;> exact still_of_pipes rfl
  · intro name opens owner
    unfold openDevice
    split
    · split
      · exact .refl t
      · split <;> exact still_of_pipes rfl
    · exact .refl t
  · intro name opens owner path
    unfold openAs
    split
    · split <;> exact still_of_pipes rfl
    · exact .refl t
  · intro path owner
    unfold openFile
    split
    · exact .refl t
    · split <;> exact still_of_pipes rfl

def handedOut (t t' : Table n k f) (q : Ring) : Bool := freeRing t q && !freeRing t' q

def Handed (t t' : Table n k f) : Prop :=
  ∀ q, (handedOut t t' q = true → (t'.pipes q).head = 0 ∧ (t'.pipes q).tail = 0) ∧
    (handedOut t t' q = false → SameBytes (t.pipes q) (t'.pipes q))

/-- From `t` to `t'` a ring is as it was, or was handed out. -/
def SameOrFresh (t t' : Table n k f) (q : Ring) : Prop :=
  t'.pipes q = t.pipes q ∨ (freeRing t q = true ∧ freeRing t' q = false ∧
    (t'.pipes q).head = 0 ∧ (t'.pipes q).tail = 0)

theorem handed_of {t t' : Table n k f} (each : ∀ q, SameOrFresh t t' q) : Handed t t' := by
  intro q
  rcases each q with same | ⟨before, after, head, tail⟩
  · have kept : freeRing t' q = freeRing t q := by simp [freeRing, same]
    constructor
    · intro out
      simp [handedOut, kept] at out
    · intro _
      rw [same]
      exact .refl _
  · constructor
    · intro _
      exact ⟨head, tail⟩
    · intro out
      simp [handedOut, before, after] at out

theorem freshRing_each {t : Table n k f} {a : Ring} (free : freeRing t a = true) (q : Ring) :
    SameOrFresh t (freshRing t a) q := by
  by_cases same : q = a
  · subst same
    exact Or.inr ⟨free, by simp [freshRing, setPipe, freeRing], by simp [freshRing, setPipe],
      by simp [freshRing, setPipe]⟩
  · left
    simp [freshRing, setPipe, same]

theorem freshRings_each {t : Table n k f} {a b : Ring} (freeA : freeRing t a = true)
    (freeB : freeRing t b = true) (apart : a ≠ b) (q : Ring) :
    SameOrFresh t (freshRing (freshRing t a) b) q := by
  have still : freeRing (freshRing t a) b = true := by
    simpa [freeRing, freshRing, setPipe, Ne.symm apart] using freeB
  by_cases first : q = a
  · -- the second ring is another one, so what was done to the first stays
    subst first
    rcases freshRing_each freeA q with same | ⟨before, after, head, tail⟩
    · simp [freshRing, setPipe, freeRing] at same freeA
      have one := congrArg Pipe.readers same
      simp [freeA] at one
    · right
      refine ⟨before, ?_, ?_, ?_⟩
      · simp [freshRing, setPipe, freeRing, apart]
      · simp [freshRing, setPipe, apart]
      · simp [freshRing, setPipe, apart]
  · have kept : (freshRing t a).pipes q = t.pipes q := by simp [freshRing, setPipe, first]
    have free : freeRing (freshRing t a) q = freeRing t q := by simp [freeRing, kept]
    rcases freshRing_each still q with same | ⟨before, after, head, tail⟩
    · exact Or.inl (same.trans kept)
    · exact Or.inr ⟨free ▸ before, after, head, tail⟩

theorem pipe_handed (t : Table n k f) (owner : Int) : Handed t (pipe t owner).1 := by
  apply handed_of
  intro q
  unfold pipe
  split
  · exact Or.inl rfl
  · split
    · rename_i unused _
      exact freshRing_each (List.find?_some unused) q
    · exact Or.inl rfl

theorem pipepair_handed (t : Table n k f) (owner : Int) : Handed t (pipepair t owner).1 := by
  apply handed_of
  intro q
  unfold pipepair
  split
  · exact Or.inl rfl
  · split
    · rename_i rings _
      obtain ⟨freeA, freeB, apart⟩ := filter_pair rings
      exact freshRings_each freeA freeB apart q
    · exact Or.inl rfl

end Calls

structure Stream where
  accepted : List Byte
  returned : List Byte

structure Traced (n k f : Nat) where
  table : Table n k f
  log : Ring → Stream

section Runs
variable {n k f : Nat}

def record (t : Table n k f) (log : Ring → Stream) : Op → Ring → Stream
  | .write path owner bytes =>
    match pipeEntry t path owner with
    | none => log
    | some spot =>
      match (t.paths spot).out, (pipeWrite t spot bytes).2 with
      | some q, some taken =>
        update log q { log q with accepted := (log q).accepted ++ bytes.take taken }
      | _, _ => log
  | .read path owner len =>
    match pipeEntry t path owner with
    | none => log
    | some spot =>
      match (t.paths spot).inn, (pipeRead t spot len).2 with
      | some q, some bytes =>
        update log q { log q with returned := (log q).returned ++ bytes }
      | _, _ => log
  | .pipe owner => fun q => if handedOut t (pipe t owner).1 q then ⟨[], []⟩ else log q
  | .pipepair owner => fun q => if handedOut t (pipepair t owner).1 q then ⟨[], []⟩ else log q
  | _ => log

def observe (s : Traced n k f) (op : Op) : Traced n k f :=
  ⟨step s.table op, record s.table s.log op⟩

def trace (n k f : Nat) (ops : List Op) : Traced n k f :=
  ops.foldl observe ⟨ioInit n k f, fun _ => ⟨[], []⟩⟩

theorem trace_table (ops : List Op) : (trace n k f ops).table = run n k f ops := by
  unfold trace run
  induction ops using List.reverseRecOn with
  | nil => rfl
  | append_singleton earlier last ih => simp only [List.foldl_append, List.foldl_cons, List.foldl_nil,
      observe, ih]

def Streams (s : Traced n k f) : Prop :=
  ∀ q, (s.table.pipes q).Sound ∧
    (s.log q).accepted = (s.log q).returned ++ (s.table.pipes q).content

variable {t : Table n k f} {s : Traced n k f}

theorem still_streams (streams : Streams s)
    (still : Still s.table t) : Streams ⟨t, s.log⟩ := by
  intro q
  obtain ⟨sound, balance⟩ := streams q
  exact ⟨(still q).sound sound, by rw [balance, (still q).content]⟩

theorem handed_streams (streams : Streams s)
    (handed : Handed s.table t) :
    Streams ⟨t, fun q => if handedOut s.table t q then ⟨[], []⟩ else s.log q⟩ := by
  intro q
  obtain ⟨sound, balance⟩ := streams q
  obtain ⟨fresh, kept⟩ := handed q
  dsimp only
  cases out : handedOut s.table t q with
  | true =>
    obtain ⟨head, tail⟩ := fresh out
    obtain ⟨sound', empty⟩ := content_empty head tail
    refine ⟨sound', ?_⟩
    rw [empty]
    rfl
  | false =>
    have same := kept out
    refine ⟨same.sound sound, ?_⟩
    rw [← same.content]
    exact balance

theorem write_streams (streams : Streams s) (path owner : Int) (bytes : List Byte) :
    Streams (observe s (.write path owner bytes)) := by
  cases entry : pipeEntry s.table path owner with
  | none => simpa only [observe, step, record, entry] using streams
  | some spot =>
    cases out : (s.table.paths spot).out with
    | none => simpa only [observe, step, record, entry, pipeWrite, out] using streams
    | some q =>
      by_cases deserted : (s.table.pipes q).readers = 0
      · simpa only [observe, step, record, entry, pipeWrite, out, if_pos deserted] using streams
      · simp only [observe, step, record, entry, pipeWrite, out, if_neg deserted]
        intro p
        obtain ⟨sound, balance⟩ := streams p
        by_cases here : p = q
        · subst here
          obtain ⟨after, taken⟩ := fill_content sound bytes
          simp only [setPipe, update_self]
          exact ⟨after, by rw [taken, balance, List.append_assoc]⟩
        · simp only [setPipe, update_of_ne here]
          exact ⟨sound, balance⟩

theorem read_streams (streams : Streams s) (path owner : Int) (len : Nat) :
    Streams (observe s (.read path owner len)) := by
  cases entry : pipeEntry s.table path owner with
  | none => simpa only [observe, step, record, entry] using streams
  | some spot =>
    cases inn : (s.table.paths spot).inn with
    | none => simpa only [observe, step, record, entry, pipeRead, inn] using streams
    | some q =>
      simp only [observe, step, record, entry, pipeRead, inn]
      intro p
      obtain ⟨sound, balance⟩ := streams p
      by_cases here : p = q
      · subst here
        obtain ⟨after, returned⟩ := drain_content sound len
        simp only [setPipe, update_self]
        exact ⟨after, by rw [balance, returned, List.append_assoc]⟩
      · simp only [setPipe, update_of_ne here]
        exact ⟨sound, balance⟩

theorem observe_streams (streams : Streams s) (op : Op) :
    Streams (observe s op) := by
  cases op with
  | addDescriptor name configured =>
    exact still_streams streams ((open_still s.table).1 name configured)
  | openDevice name opens owner =>
    exact still_streams streams ((open_still s.table).2.1 name opens owner)
  | openAs name opens owner path =>
    exact still_streams streams ((open_still s.table).2.2.1 name opens owner path)
  | openFile path owner => exact still_streams streams ((open_still s.table).2.2.2 path owner)
  | pipe owner => exact handed_streams streams (pipe_handed s.table owner)
  | pipepair owner => exact handed_streams streams (pipepair_handed s.table owner)
  | dup path newPath owner => exact still_streams streams (dup_still s.table path newPath owner)
  | close path owner => exact still_streams streams (close_still s.table path owner)
  | inherit parent child => exact still_streams streams (inherit_still s.table parent child)
  | closeAll owner => exact still_streams streams (closeAll_still s.table owner)
  | write path owner bytes => exact write_streams streams path owner bytes
  | read path owner len => exact read_streams streams path owner len

theorem trace_streams (ops : List Op) : Streams (trace n k f ops) := by
  unfold trace
  apply foldl_invariant Streams
  · intro q
    have start : ((ioInit n k f).pipes q).Sound ∧ ((ioInit n k f).pipes q).content = [] :=
      content_empty rfl rfl
    exact ⟨start.1, by rw [start.2]; rfl⟩
  · intro s op _ streams
    exact observe_streams streams op

theorem no_reader (exact : Exact t) (q : Ring) :
    (t.pipes q).readers = 0 ↔ ∀ spot, (t.paths spot).inn ≠ some q := by
  rw [exact.readers, List.countP_nil, Nat.add_zero, tally_eq_zero]
  simp [reading]

theorem no_writer (exact : Exact t) (q : Ring) :
    (t.pipes q).writers = 0 ↔ ∀ spot, (t.paths spot).out ≠ some q := by
  rw [exact.writers, List.countP_nil, Nat.add_zero, tally_eq_zero]
  simp [writing]

theorem reading_end {slot : Slot f} (single : Single slot) {q : Ring} (inn : slot.inn = some q) :
    slot.pipe = some q ∧ slot.write = false := by
  obtain ⟨device, file, pipe, back, write⟩ := slot
  cases pipe with
  | none => simp [Slot.inn] at inn
  | some a =>
    cases back with
    | none =>
      cases write with
      | true => simp [Slot.inn] at inn
      | false => simpa [Slot.inn] using inn
    | some b =>
      rcases single with free | ⟨_, beside⟩
      · simp [isFree, vacant] at free
      · simp only [Slot.inn, Option.some.injEq] at inn
        exact ⟨by simp [inn], (beside rfl).2⟩

variable {spot : Pid n × Fin k}

theorem atEof_iff (exact : Exact t) {q : Ring}
    (inn : (t.paths spot).inn = some q) :
    pipeAtEof t spot = true ↔
      pipeUsed (t.pipes q) = 0 ∧ ∀ other, (t.paths other).out ≠ some q := by
  obtain ⟨pipe, write⟩ := reading_end (exact.single spot) inn
  rw [← no_writer exact]
  simp [pipeAtEof, pipe, write]

theorem refused_iff (exact : Exact t) {q : Ring}
    (out : (t.paths spot).out = some q) (bytes : List Byte) :
    (pipeWrite t spot bytes).2 = none ↔ ∀ other, (t.paths other).inn ≠ some q := by
  rw [← no_reader exact]
  unfold pipeWrite
  rw [out]
  dsimp only
  split
  · simpa
  · simpa

/-- As long as no call writes over a slot in use, every ring is an exact stream
between its writers and its readers: what comes out is what went in, and each end
learns that the other is gone exactly when it is. -/
theorem run_pipes_exact {ops : List Op} (careful : Along step Careful (ioInit n k f) ops)
    (q : Ring) :
    ((trace n k f ops).log q).returned <+: ((trace n k f ops).log q).accepted ∧
    ((trace n k f ops).log q).accepted =
      ((trace n k f ops).log q).returned ++ ((trace n k f ops).table.pipes q).content ∧
    ((trace n k f ops).table.pipes q).content.length ≤ pipeBuf - 1 ∧
    (∀ spot, ((trace n k f ops).table.paths spot).inn = some q →
      (pipeAtEof (trace n k f ops).table spot = true ↔
        ((trace n k f ops).log q).returned = ((trace n k f ops).log q).accepted ∧
          ∀ other, ((trace n k f ops).table.paths other).out ≠ some q)) ∧
    ∀ spot bytes, ((trace n k f ops).table.paths spot).out = some q →
      ((pipeWrite (trace n k f ops).table spot bytes).2 = none ↔
        ∀ other, ((trace n k f ops).table.paths other).inn ≠ some q) := by
  have exact : Exact (trace n k f ops).table := by
    rw [trace_table]
    exact run_exact careful
  obtain ⟨_, balance⟩ := trace_streams (n := n) (k := k) (f := f) ops q
  refine ⟨⟨_, balance.symm⟩, balance, ?_, ?_, ?_⟩
  · rw [content_length]
    exact Nat.le_pred_of_lt (pipeUsed_lt _)
  · intro spot inn
    have all : ((trace n k f ops).log q).returned = ((trace n k f ops).log q).accepted ↔
        pipeUsed ((trace n k f ops).table.pipes q) = 0 := by
      rw [balance, ← content_length, List.length_eq_zero_iff]
      exact List.self_eq_append_right
    rw [all]
    exact atEof_iff exact inn
  · intro spot bytes out
    exact refused_iff exact out bytes

def feeding : List Op :=
  [.pipe 1, .inherit 1 2, .write 1 1 [0x68, 0x69], .close 1 2, .closeAll 1, .read 0 2 1]

theorem run_pipes_exact_feeding :
    Along step Careful (ioInit 3 3 1) feeding ∧
      ((trace 3 3 1 feeding).log 0).accepted =
        ((trace 3 3 1 feeding).log 0).returned ++ ((trace 3 3 1 feeding).table.pipes 0).content :=
  have careful : Along step Careful (ioInit 3 3 1) feeding := by decide
  ⟨careful, (run_pipes_exact careful 0).2.1⟩

/-- The slot of a child that ended before it was given its paths is given them all
the same, and the next child's paths are then written over them. -/
def overwritten : List Op :=
  [.pipe 2, .inherit 2 3, .inherit 2 4, .inherit 2 4, .close 1 2, .close 1 3, .close 1 4]

/-- No descriptor writes the ring any more and nothing is in it, and its reader is not
told so. -/
theorem overwritten_never_ends :
    ((trace 5 2 1 overwritten).table.paths (3, 0)).inn = some 0 ∧
      ((trace 5 2 1 overwritten).log 0).returned = ((trace 5 2 1 overwritten).log 0).accepted ∧
      (∀ other, ((trace 5 2 1 overwritten).table.paths other).out ≠ some 0) ∧
      pipeAtEof (trace 5 2 1 overwritten).table (3, 0) = false := by
  decide

end Runs

end Ubiqos.Io
