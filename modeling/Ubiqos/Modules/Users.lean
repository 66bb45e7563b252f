import Ubiqos.Modules.Links

/-!
The machine of scheduler and directory together, from a boot that has scanned
the flash image. Each function of the directory is one step, whoever calls it.
-/

namespace Ubiqos.Modules

open Function Compact Machine

/-- The flash image is walked forwards, so no two of its modules lie at one
address. -/
structure Flash where
  modules : List Resident
  apart : (modules.map (fun m => m.header.module.address)).Nodup

/-- `pending` are the modules linked for an exec the server has not served,
`explicit` the links given out by `SYS_DATALINK` and held for tables, and
`images` the images the directory has taken over. -/
structure World (n : Nat) where
  kernel : Kernel n
  directory : Directory
  pending : List Header
  explicit : List Addr
  images : List Addr

inductive Op (n : Nat) where
  | call (call : Call n)
  | exec (name : Buffer)
  | serve (request : Nat) (parent : Int) (mem code : Option Addr)
  | datalink (name : Buffer)
  | dataunlink (address : Addr)
  | lookup (name : Buffer)
  | library (name : Buffer) (copies : Bool)
  | driver (name : Buffer) (copies room starts : Bool)
  | load (image : Header) (name : Buffer)

variable {n : Nat} [NeZero n]

def boot (n : Nat) [NeZero n] (flash : Flash) (stale : Nat → Entry) : World n :=
  ⟨schedulerInit n, flashScan flash.modules (moddirInit stale), [], [], []⟩

def unlinkAll (d : Directory) (news : List (Outside n)) : Directory :=
  (unlinked news).foldr (fun module d => moddirUnlink d module.address) d

def kernelStep (w : World n) (call : Call n) : World n :=
  let kernel := stepAll w.kernel call
  let news := kernel.life.outside.take
    (kernel.life.outside.length - w.kernel.life.outside.length)
  { w with kernel := kernel, directory := unlinkAll w.directory news }

/-- `match` and `link`, as every caller with a name from a user writes it. -/
def linkNamed (flash : List Resident) (d : Directory) (name : Buffer) : Directory × Option Header :=
  match moddirMatch flash d name with
  | (d, none) => (d, none)
  | (d, some stored) => moddirLink flash d stored

section Step
variable (flash : Flash)

/-- `SYS_DATALINK`: only a data module's link is given out. -/
def sysDatalink (w : World n) (name : Buffer) : World n :=
  match linkNamed flash.modules w.directory name with
  | (d, none) => { w with directory := d }
  | (d, some h) =>
    if h.kind ≠ .data then { w with directory := moddirUnlink d h.module.address }
    else { w with directory := d, explicit := h.module.address :: w.explicit }

def keep (w : World n) (result : Directory × Option Header) : World n :=
  match result with
  | (d, none) => { w with directory := d }
  | (d, some h) => { w with directory := d, explicit := h.module.address :: w.explicit }

def step (w : World n) : Op n → World n
  | .call call => if brought call = [] then kernelStep w call else w
  | .exec name =>
    match linkNamed flash.modules w.directory name with
    | (d, none) => { w with directory := d }
    | (d, some h) => { w with directory := d, pending := h :: w.pending }
  | .serve request parent mem code =>
    match w.pending[request]? with
    | none => w
    | some h =>
      kernelStep { w with pending := w.pending.eraseIdx request }
        (.create h.module parent mem code)
  | .datalink name => sysDatalink flash w name
  | .dataunlink address =>
    { w with
      directory := moddirUnlink w.directory address
      explicit := w.explicit.erase address }
  | .lookup name => { w with directory := (moddirMatch flash.modules w.directory name).1 }
  | .library name copies => keep w (libLink flash.modules w.directory name copies)
  | .driver name copies room starts =>
    keep w (driverFromModule flash.modules w.directory name copies room starts)
  | .load image name =>
    match moddirAddImage flash.modules w.directory image name with
    | (d, false) => { w with directory := d }
    | (d, true) => { w with directory := d, images := image.module.address :: w.images }

def run (stale : Nat → Entry) (ops : List (Op n)) : World n :=
  ops.foldl (step flash) (boot n flash stale)

end Step

def users (w : World n) (a : Addr) : Nat :=
  (holdings w.kernel).running (fun module => module.address = a) +
    w.pending.countP (fun h => h.module.address = a) + w.explicit.count a

/-- The module's link count is the number of its users, and while it has any it
is there. -/
structure Exact (w : World n) : Prop where
  counted : ∀ e ∈ items w.directory.entries, e.links = users w e.address
  there : ∀ a, 0 < users w a → ∃ e ∈ items w.directory.entries, e.address = a

structure Inv (flash : Flash) (w : World n) : Prop where
  settled : Settled w.kernel
  clean : Clean (holdings w.kernel)
  sound : Sound flash.modules w.directory
  links : ∀ a, linksAt w.directory a = users w a
  images : ∀ a, w.images.count a = imagesAt w.directory a

theorem Inv.exact {flash : Flash} {w : World n} (inv : Inv flash w) : Exact w := by
  refine ⟨?_, ?_⟩
  · intro e member
    obtain ⟨i, inside, rfl⟩ := List.mem_map.mp member
    rw [← inv.links, (links_of_entry w.directory (List.mem_range.mp inside) inv.sound.unique).1]
  · intro a used
    rw [← inv.links] at used
    obtain ⟨e, member, isAt⟩ := List.countP_pos_iff.mp (count_pos used)
    exact ⟨e, member, of_decide_eq_true isAt⟩

section Kernel

theorem unlinkAll_counts {flash : List Resident} {d : Directory} (sound : Sound flash d)
    (modules : List Module) :
    let d' := modules.foldr (fun module d => moddirUnlink d module.address) d
    Sound flash d' ∧
    (∀ b, linksAt d' b = linksAt d b - modules.countP (fun module => module.address = b)) ∧
    (∀ b, imagesAt d' b = imagesAt d b) ∧ ∀ b, Held d b → Held d' b := by
  induction modules with
  | nil => exact ⟨sound, fun _ => rfl, fun _ => rfl, fun _ held => held⟩
  | cons module rest ih =>
    obtain ⟨sound', links, images, held⟩ := ih
    refine ⟨sound'.unlink _, ?_, ?_, ?_⟩
    · intro b
      rw [List.foldr_cons, (moddirUnlink_counts sound'.unique module.address b).1, links,
        List.countP_cons]
      simp only [decide_eq_true_eq, eq_comm (a := b)]
      omega
    · intro b
      rw [List.foldr_cons, (moddirUnlink_counts sound'.unique module.address b).2.2, images]
    · intro b before
      exact (held b before).unlink sound'.unique _

theorem kernelStep_inv {flash : Flash} {w : World n} (settled : Settled w.kernel)
    (clean : Clean (holdings w.kernel)) (sound : Sound flash.modules w.directory)
    (call : Call n) (outlived : survives w.kernel call = true)
    (links : ∀ a, linksAt w.directory a =
      users w a + (brought call).countP (fun module => module.address = a))
    (images : ∀ a, w.images.count a = imagesAt w.directory a) :
    Inv flash (kernelStep w call) ∧
      ∀ a, 0 < linksAt w.directory a → Held (kernelStep w call).directory a := by
  obtain ⟨news, outside⟩ := step_news settled clean call
  have whole := stepAll_eq outlived
  have new : (Ubiqos.step w.kernel call).life.outside.take
      ((Ubiqos.step w.kernel call).life.outside.length - w.kernel.life.outside.length) = news := by
    rw [outside]
    simp
  have directory : (kernelStep w call).directory =
      (unlinked news).foldr (fun module d => moddirUnlink d module.address) w.directory := by
    simp only [kernelStep, whole, new, unlinkAll]
  obtain ⟨sound', fewer, sameImages, held⟩ := unlinkAll_counts sound (unlinked news)
  have book : ∀ a, (unlinked news).countP (fun module => module.address = a) +
      (holdings (Ubiqos.step w.kernel call)).running (fun module => module.address = a) =
      (holdings w.kernel).running (fun module => module.address = a) +
        (brought call).countP (fun module => module.address = a) := by
    intro a
    have total := (step_books settled clean call).2 (fun module => module.address = a)
    rw [outside, unlinked_append, List.countP_append] at total
    omega
  have kernel : (kernelStep w call).kernel = Ubiqos.step w.kernel call := whole
  refine ⟨⟨?_, ?_, ?_, ?_, ?_⟩, ?_⟩
  · rw [kernel]
    exact step_settled settled call
  · rw [kernel]
    exact step_clean settled call clean
  · rw [directory]
    exact sound'
  · intro a
    have before := links a
    have change := book a
    rw [directory, fewer]
    simp only [users, kernelStep, whole] at before ⊢
    omega
  · intro a
    rw [directory, sameImages]
    exact images a
  · intro a linked
    have there := count_pos linked
    rw [directory]
    apply held
    exact ⟨fun none => by omega, fun none => by omega⟩

end Kernel

section Directory
variable {flash : List Resident} {d : Directory}

theorem linkNamed_gains (apart : (flash.map (fun m => m.header.module.address)).Nodup)
    (sound : Sound flash d) (room : Roomy d) (name : Buffer) :
    ((linkNamed flash d name).2 = none → Asked flash d (linkNamed flash d name).1) ∧
    ∀ header, (linkNamed flash d name).2 = some header →
      Gains flash d (linkNamed flash d name).1 header.module.address := by
  obtain ⟨asked, there⟩ := moddirMatch_asked apart sound name
  unfold linkNamed
  split
  · rename_i d' outcome
    rw [outcome] at asked
    exact ⟨fun _ => asked, by simp⟩
  · rename_i d' stored outcome
    rw [outcome] at asked there
    dsimp only at asked there
    obtain ⟨missing, found⟩ := moddirLink_gains apart asked.sound (asked.roomy sound room)
      (stored_unstored (there stored rfl))
    refine ⟨?_, fun header same => asked.gains (found header same).2⟩
    intro none
    have more := missing none
    refine ⟨more.sound, ?_, ?_, ?_⟩
    · intro a
      rw [more.links, asked.links]
    · intro a
      rw [more.images, asked.images]
    · intro a linked
      have kept := asked.stays a linked
      rw [more.stays a (by omega), kept]

def Suits (h : Header) (kind : Kind) (copies : Bool) : Prop :=
  h.kind = kind ∧ (h.attrPrivate = true → copies = true)

instance (h : Header) (kind : Kind) (copies : Bool) : Decidable (Suits h kind copies) :=
  inferInstanceAs (Decidable (_ ∧ _))

variable {name : Buffer}

theorem linkTable_turn (apart : (flash.map (fun m => m.header.module.address)).Nodup)
    (sound : Sound flash d) (room : Roomy d) (unstored : Unstored flash d name)
    (kind : Kind) (copies : Bool) :
    ((linkTable flash d name kind copies).2 = none →
      Turn flash d (linkTable flash d name kind copies).1 (fun _ => 0)) ∧
    ∀ header, (linkTable flash d name kind copies).2 = some header →
      sought flash d name = some header ∧ Suits header kind copies ∧
        Gains flash d (linkTable flash d name kind copies).1 header.module.address := by
  obtain ⟨missing, found⟩ := moddirLink_gains apart sound room unstored
  unfold linkTable
  split
  · rename_i d' outcome
    rw [outcome] at missing
    exact ⟨fun _ => (missing rfl).turn, by simp⟩
  · rename_i d' h outcome
    rw [outcome] at found
    obtain ⟨looked, gains⟩ := found h rfl
    split
    · exact ⟨fun _ => gains.undone, by simp⟩
    · rename_i right
      split
      · exact ⟨fun _ => gains.undone, by simp⟩
      · rename_i copied
        refine ⟨by simp, ?_⟩
        intro header same
        rw [← Option.some.inj same]
        refine ⟨looked, ⟨not_not.mp right, ?_⟩, gains⟩
        intro needs
        by_contra lacks
        exact copied ⟨needs, by simpa using lacks⟩

theorem spoken_turn (apart : (flash.map (fun m => m.header.module.address)).Nodup)
    (sound : Sound flash d) (room : Roomy d) (unstored : Unstored flash d name)
    {kind : Kind} {copies : Bool}
    (speaks : ∀ h ∈ sought flash d name, Suits h kind copies → h.speaks = true) :
    ((spoken (linkTable flash d name kind copies)).2 = none →
      Turn flash d (spoken (linkTable flash d name kind copies)).1 (fun _ => 0)) ∧
    ∀ header, (spoken (linkTable flash d name kind copies)).2 = some header →
      sought flash d name = some header ∧ Suits header kind copies ∧
        Gains flash d (spoken (linkTable flash d name kind copies)).1 header.module.address := by
  obtain ⟨missing, found⟩ := linkTable_turn apart sound room unstored kind copies
  unfold spoken
  split
  · rename_i d' outcome
    rw [outcome] at missing
    exact ⟨missing, by simp⟩
  · rename_i d' h outcome
    rw [outcome] at found
    obtain ⟨looked, suits, gains⟩ := found h rfl
    rw [if_pos (speaks h looked suits)]
    refine ⟨by simp, ?_⟩
    intro header same
    rw [← Option.some.inj same]
    exact ⟨looked, suits, gains⟩

theorem driverFromModule_turn (apart : (flash.map (fun m => m.header.module.address)).Nodup)
    (sound : Sound flash d) (room : Roomy d) (unstored : Unstored flash d name)
    {copies starts : Bool}
    (speaks : ∀ h ∈ sought flash d name, Suits h .driver copies →
      h.speaks = true ∧ starts = true) :
    ((driverFromModule flash d name copies true starts).2 = none →
      Turn flash d (driverFromModule flash d name copies true starts).1 (fun _ => 0)) ∧
    ∀ header, (driverFromModule flash d name copies true starts).2 = some header →
      Gains flash d (driverFromModule flash d name copies true starts).1
        header.module.address := by
  obtain ⟨missing, found⟩ := spoken_turn apart sound room unstored
    (fun h looked suits => (speaks h looked suits).1)
  simp only [driverFromModule, driverLink, Bool.not_true, Bool.false_eq_true, if_false]
  split
  · rename_i d' outcome
    rw [outcome] at missing
    exact ⟨missing, by simp⟩
  · rename_i d' h outcome
    rw [outcome] at found
    obtain ⟨looked, suits, gains⟩ := found h rfl
    rw [if_pos (speaks h looked suits).2]
    refine ⟨by simp, ?_⟩
    intro header same
    rw [← Option.some.inj same]
    exact gains

end Directory

/-- The calls under which the counts stay exact: nobody ends itself by interrupting
itself, an unlink gives back a link that was given out, a table is not refused once it is linked, a name that finds no
entry is not that of a module with one, an image is loaded where nothing is
registered, and no count runs out of its word. -/
def Careful (flash : Flash) (w : World n) : Op n → Prop
  | .call call => survives w.kernel call = true
  | .exec _ => Roomy w.directory
  | .serve .. => True
  | .datalink _ => Roomy w.directory
  | .dataunlink address => address ∈ w.explicit ∨ countAt w.directory address = 0
  | .lookup _ => True
  | .library name copies =>
    Roomy w.directory ∧ Unstored flash.modules w.directory name ∧
      ∀ h ∈ sought flash.modules w.directory name, Suits h .library copies → h.speaks = true
  | .driver name copies room starts =>
    room = true → Roomy w.directory ∧ Unstored flash.modules w.directory name ∧
      ∀ h ∈ sought flash.modules w.directory name, Suits h .driver copies →
        h.speaks = true ∧ starts = true
  | .load image _ =>
    countAt w.directory image.module.address = 0 ∧
      ∀ m ∈ flash.modules, m.header.module.address ≠ image.module.address

instance careful_decidable (flash : Flash) (w : World n) : (op : Op n) → Decidable (Careful flash w op)
  | .serve .. | .lookup _ => isTrue trivial
  | .call _ => inferInstanceAs (Decidable (_ = true))
  | .exec _ | .datalink _ => inferInstanceAs (Decidable (Roomy _))
  | .dataunlink _ => inferInstanceAs (Decidable (_ ∨ _))
  | .library .. => inferInstanceAs (Decidable (_ ∧ _ ∧ _))
  | .driver .. => inferInstanceAs (Decidable (_ → _))
  | .load .. => inferInstanceAs (Decidable (_ ∧ _))

section Steps
variable {flash : Flash} {w : World n}

theorem Inv.turn (inv : Inv flash w) {d : Directory} {more : Addr → Nat}
    (turn : Turn flash.modules w.directory d more) {w' : World n} (kernel : w'.kernel = w.kernel)
    (directory : w'.directory = d) (images : w'.images = w.images)
    (used : ∀ a, users w' a = users w a + more a) :
    Inv flash w' ∧ ∀ a, 0 < users w a → Held w'.directory a := by
  refine ⟨⟨?_, ?_, ?_, ?_, ?_⟩, ?_⟩
  · rw [kernel]
    exact inv.settled
  · rw [kernel]
    exact inv.clean
  · rw [directory]
    exact turn.sound
  · intro a
    rw [directory, turn.links, used, inv.links]
  · intro a
    rw [directory, turn.images, images]
    exact inv.images a
  · intro a linked
    rw [directory]
    apply turn.held
    rw [inv.links]
    exact linked

theorem keep_inv (inv : Inv flash w) {result : Directory × Option Header}
    (missing : result.2 = none → Turn flash.modules w.directory result.1 (fun _ => 0))
    (found : ∀ header, result.2 = some header →
      Gains flash.modules w.directory result.1 header.module.address) :
    Inv flash (keep w result) ∧ ∀ a, 0 < users w a → Held (keep w result).directory a := by
  obtain ⟨d, outcome⟩ := result
  cases outcome with
  | none => exact inv.turn (missing rfl) rfl rfl rfl (fun _ => rfl)
  | some h =>
    refine inv.turn (found h rfl).turn rfl rfl rfl ?_
    intro a
    simp only [users, keep, List.count_cons, beq_iff_eq, eq_comm (a := a)]
    omega

theorem Inv.linked (inv : Inv flash w) {a : Addr} (used : 0 < users w a) :
    0 < linksAt w.directory a := by
  rw [inv.links]
  exact used

theorem Inv.unmoved (inv : Inv flash w) :
    Inv flash w ∧ ∀ a, 0 < users w a → Held w.directory a :=
  inv.turn (Asked.refl inv.sound).turn rfl rfl rfl (fun _ => rfl)

theorem call_inv (inv : Inv flash w) (call : Call n) (careful : survives w.kernel call = true) :
    Inv flash (step flash w (.call call)) ∧
      ∀ a, 0 < users w a → Held (step flash w (.call call)).directory a := by
  simp only [step]
  split
  · rename_i nothing
    obtain ⟨kept, held⟩ := kernelStep_inv inv.settled inv.clean inv.sound call careful
      (fun a => by rw [nothing]; exact inv.links a) inv.images
    exact ⟨kept, fun a used => held a (inv.linked used)⟩
  · exact inv.unmoved

theorem exec_inv (inv : Inv flash w) (name : Buffer) (roomy : Roomy w.directory) :
    Inv flash (step flash w (.exec name)) ∧
      ∀ a, 0 < users w a → Held (step flash w (.exec name)).directory a := by
  obtain ⟨missing, found⟩ := linkNamed_gains flash.apart inv.sound roomy name
  simp only [step]
  split
  · rename_i d outcome
    rw [outcome] at missing
    exact inv.turn (missing rfl).turn rfl rfl rfl (fun _ => rfl)
  · rename_i d h outcome
    rw [outcome] at found
    refine inv.turn (found h rfl).turn rfl rfl rfl ?_
    intro a
    simp only [users, List.countP_cons, decide_eq_true_eq, eq_comm (a := a)]
    omega

theorem users_eraseIdx {request : Nat} {h : Header} (asked : w.pending[request]? = some h)
    (a : Addr) :
    users w a = users { w with pending := w.pending.eraseIdx request } a +
      [h.module].countP (fun module => module.address = a) := by
  obtain ⟨inside, isAt⟩ := List.getElem?_eq_some_iff.mp asked
  have split := (List.getElem_cons_eraseIdx_perm inside).countP_eq
    (fun h => decide (h.module.address = a))
  rw [isAt, List.countP_cons] at split
  simp only [users, List.countP_singleton]
  omega

theorem serve_inv (inv : Inv flash w) (request : Nat) (parent : Int) (mem code : Option Addr) :
    Inv flash (step flash w (.serve request parent mem code)) ∧
      ∀ a, 0 < users w a → Held (step flash w (.serve request parent mem code)).directory a := by
  simp only [step]
  cases asked : w.pending[request]? with
  | none => exact inv.unmoved
  | some h =>
    obtain ⟨kept, held⟩ := kernelStep_inv
      (w := { w with pending := w.pending.eraseIdx request }) inv.settled inv.clean inv.sound
      (.create h.module parent mem code) rfl
      (fun a => (inv.links a).trans (users_eraseIdx asked a)) inv.images
    exact ⟨kept, fun a used => held a (inv.linked used)⟩

theorem datalink_inv (inv : Inv flash w) (name : Buffer) (roomy : Roomy w.directory) :
    Inv flash (step flash w (.datalink name)) ∧
      ∀ a, 0 < users w a → Held (step flash w (.datalink name)).directory a := by
  obtain ⟨missing, found⟩ := linkNamed_gains flash.apart inv.sound roomy name
  simp only [step, sysDatalink]
  split
  · rename_i d outcome
    rw [outcome] at missing
    exact inv.turn (missing rfl).turn rfl rfl rfl (fun _ => rfl)
  · rename_i d h outcome
    rw [outcome] at found
    have gains := found h rfl
    split
    · exact inv.turn gains.undone rfl rfl rfl (fun _ => rfl)
    · refine inv.turn gains.turn rfl rfl rfl ?_
      intro a
      simp only [users, List.count_cons, beq_iff_eq, eq_comm (a := a)]
      omega

theorem dataunlink_inv (inv : Inv flash w) (address : Addr)
    (careful : address ∈ w.explicit ∨ countAt w.directory address = 0) :
    Inv flash (step flash w (.dataunlink address)) ∧
      ∀ a, 0 < users w a → Held (step flash w (.dataunlink address)).directory a := by
  have counts := moddirUnlink_counts inv.sound.unique address
  refine ⟨⟨inv.settled, inv.clean, inv.sound.unlink address, ?_, ?_⟩, ?_⟩
  · intro a
    have before := inv.links a
    simp only [step]
    rw [(counts a).1, before]
    simp only [users]
    rcases careful with given | absent
    · have fewer := (List.perm_cons_erase given).count_eq a
      rw [List.count_cons] at fewer
      simp only [beq_iff_eq, eq_comm (a := address)] at fewer
      omega
    · have none : users w address = 0 := by
        rw [← inv.links, linksAt_absent _ absent]
      have ungiven : address ∉ w.explicit := by
        rw [← List.count_eq_zero]
        unfold users at none
        omega
      rw [List.erase_of_not_mem ungiven]
      by_cases here : a = address
      · subst here
        unfold users at none
        simp only [if_true]
        omega
      · simp [here]
  · intro a
    simp only [step]
    rw [(counts a).2.2]
    exact inv.images a
  · intro a used
    exact (inv.unmoved.2 a used).unlink inv.sound.unique address

theorem load_inv (inv : Inv flash w) (image : Header) (name : Buffer)
    (absent : countAt w.directory image.module.address = 0)
    (elsewhere : ∀ m ∈ flash.modules, m.header.module.address ≠ image.module.address) :
    Inv flash (step flash w (.load image name)) ∧
      ∀ a, 0 < users w a → Held (step flash w (.load image name)).directory a := by
  obtain ⟨sound, links, images, _, held⟩ := add_turn inv.sound name true absent
    (fun m resident same => absurd same (elsewhere m resident))
  simp only [step, moddirAddImage]
  split
  · rename_i d outcome
    rw [outcome] at sound links images held
    refine ⟨⟨inv.settled, inv.clean, sound, ?_, ?_⟩, fun a used => held a (inv.linked used)⟩
    · intro a
      rw [links a]
      exact inv.links a
    · intro a
      simpa [inv.images a] using (images a).symm
  · rename_i d outcome
    rw [outcome] at sound links images held
    refine ⟨⟨inv.settled, inv.clean, sound, ?_, ?_⟩, fun a used => held a (inv.linked used)⟩
    · intro a
      rw [links a]
      exact inv.links a
    · intro a
      rw [images a, List.count_cons, inv.images a]
      simp

theorem step_inv (inv : Inv flash w) (op : Op n) (careful : Careful flash w op) :
    Inv flash (step flash w op) ∧
      ∀ a, 0 < users w a → Held (step flash w op).directory a := by
  cases op with
  | call call => exact call_inv inv call careful
  | exec name => exact exec_inv inv name careful
  | serve request parent mem code => exact serve_inv inv request parent mem code
  | datalink name => exact datalink_inv inv name careful
  | dataunlink address => exact dataunlink_inv inv address careful
  | lookup name =>
    exact inv.turn (moddirMatch_asked flash.apart inv.sound name).1.turn rfl rfl rfl
      (fun _ => rfl)
  | library name copies =>
    obtain ⟨room, unstored, speaks⟩ := careful
    obtain ⟨missing, found⟩ := spoken_turn flash.apart inv.sound room unstored speaks
    exact keep_inv inv missing (fun header same => (found header same).2.2)
  | driver name copies room starts =>
    cases room with
    | false => exact inv.unmoved
    | true =>
      obtain ⟨room, unstored, speaks⟩ := careful rfl
      obtain ⟨missing, found⟩ :=
        driverFromModule_turn flash.apart inv.sound room unstored speaks
      exact keep_inv inv missing found
  | load image name =>
    obtain ⟨absent, elsewhere⟩ := careful
    exact load_inv inv image name absent elsewhere

end Steps

/-- What the scan has registered so far is of the flash modules it has passed. -/
structure Scanned (flash : List Resident) (passed : List Resident) (d : Directory) : Prop where
  sound : Sound flash d
  links : ∀ a, linksAt d a = 0
  images : ∀ a, imagesAt d a = 0
  from' : ∀ a, 0 < countAt d a → ∃ m ∈ passed, m.header.module.address = a

def program : Header := ⟨⟨4096, true, false⟩, .program, 1, true, false, false, false⟩

/-- A flash module `a`, of revision one. -/
def resident : Resident := ⟨[0x61], program, by decide, by decide⟩

def blank : Nat → Entry := fun _ => ⟨program, 0, false, fun _ => 0⟩

def started : List (Op 5) :=
  [.exec (bufferOf [0x61]), .serve 0 (-1) (some 8192) none,
    .call (.tick (fun _ _ => false) (fun _ _ => false))]

end Ubiqos.Modules
