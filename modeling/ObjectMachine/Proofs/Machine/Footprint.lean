import ObjectMachine.Proofs.Image.Evolution
import ObjectMachine.Proofs.Machine.Integrity

namespace ObjectMachine.Machine

variable {W : Licence} {F : Value → Prop} {K : Array Value} {S : Schedule → Prop} {p : Value}
  {base : Heap} {known : List Value} {m m' : Machine}

section Quiet

variable {α β : Type}

structure Same (m m' : Machine) : Prop where
  heap : m'.image.heap = m.image.heap
  schedule : m'.schedule = m.schedule
  process : m'.process = m.process
  known : m'.image.known = m.image.known

theorem Same.refl (m : Machine) : Same m m := ⟨rfl, rfl, rfl, rfl⟩

theorem Same.trans {m'' : Machine} (h : Same m m') (h' : Same m' m'') : Same m m'' :=
  ⟨h'.heap.trans h.heap, h'.schedule.trans h.schedule, h'.process.trans h.process,
    h'.known.trans h.known⟩

/-- However a step ends, it has written nothing. -/
def Quiet (act : MachineAction α) : Prop :=
  ∀ m, match act m with
    | .ok _ m' => Same m m'
    | .error _ m' => Same m m'

namespace Quiet

theorem ok {act : MachineAction α} (h : Quiet act) {a : α} (heq : act m = .ok a m') :
    Same m m' := by
  have := h m
  rwa [heq] at this

theorem pure (a : α) : Quiet (Pure.pure a : MachineAction α) := fun m => .refl m

theorem get : Quiet (get : MachineAction Machine) := fun m => .refl m

theorem fail (cause : RuntimeError) : Quiet (Action.fail cause : MachineAction α) :=
  fun m => .refl m

theorem fault (f : Fault) : Quiet (Action.fault f : MachineAction α) := fun m => .refl m

theorem query (f : Machine → Except Fault α) : Quiet (Action.query f : MachineAction α) := by
  intro m
  rw [Action.query]
  cases f m <;> exact .refl m

theorem modify {f : Machine → Machine} (hf : ∀ m, Same m (f m)) :
    Quiet (modify f : MachineAction PUnit) := hf

theorem bind {act : MachineAction α} {next : α → MachineAction β} (hact : Quiet act)
    (hnext : ∀ a, Quiet (next a)) : Quiet (act >>= next) := by
  intro m
  have hfirst := hact m
  change match EStateM.bind act next m with
    | .ok _ m' => Same m m'
    | .error _ m' => Same m m'
  rw [EStateM.bind]
  cases heq : act m with
  | error e m' =>
    rw [heq] at hfirst
    exact hfirst
  | ok a m' =>
    rw [heq] at hfirst
    have hlater := hnext a m'
    dsimp only
    cases hend : next a m' with
    | ok b m'' =>
      rw [hend] at hlater
      exact hfirst.trans hlater
    | error e m'' =>
      rw [hend] at hlater
      exact hfirst.trans hlater

end Quiet

theorem setAccumulator_quiet (v : Value) : Quiet (setAccumulator v) :=
  .modify fun _ => ⟨rfl, rfl, rfl, rfl⟩

theorem request_quiet (outcome : RunOutcome) : Quiet (request outcome) :=
  .modify fun _ => ⟨rfl, rfl, rfl, rfl⟩

theorem jump_quiet (offset : Int16) : Quiet (jump offset) := .modify fun _ => ⟨rfl, rfl, rfl, rfl⟩

theorem registers_quiet (rs : List UInt8) : Quiet (registers rs) := by
  induction rs with
  | nil => exact .pure _
  | cons r rs ih => exact .bind (.query _) fun v => .bind ih fun vs => .pure _

theorem withAccumulator_quiet (rs : List UInt8) : Quiet (withAccumulator rs) :=
  .bind (registers_quiet rs) fun _ => .bind .get fun _ => .pure _

theorem fetchCode_quiet (bytecode : Value) : Quiet (fetchCode bytecode) := by
  intro m
  obtain ⟨cache, epoch, hm⟩ := m.refreshed_eq
  rw [fetchCode_eq, hm]
  dsimp only
  split
  · rename_i hend
    split at hend
    · cases hend
      exact ⟨rfl, rfl, rfl, rfl⟩
    · split at hend
      · cases hend
        exact ⟨rfl, rfl, rfl, rfl⟩
      · cases hend
  · rename_i hend
    split at hend
    · cases hend
    · split at hend
      · cases hend
      · cases hend
        exact ⟨rfl, rfl, rfl, rfl⟩

theorem onImage_unfailing {act : ImageAction α} (hact : act.Unfailing) :
    (onImage act).Unfailing := by
  intro m cause m' heq
  rw [onImage] at heq
  dsimp only at heq
  split at heq
  · cases heq
  · rename_i hstop
    cases heq
    exact hact _ cause _ hstop

theorem setSlot_unfailing (v : Value) (i : Nat) (x : Value) : (setSlot v i x).Unfailing :=
  onImage_unfailing (Image.onHeap_unfailing (Heap.setSlot_unfailing v i x))

theorem onSchedule_unfailing {act : Schedule → ImageAction (α × Schedule)}
    (hact : ∀ s, (act s).Unfailing) : (onSchedule act).Unfailing :=
  .bind .get fun _ => .bind (onImage_unfailing (hact _)) fun _ => .bind (.modify _) fun _ =>
    .pure _

theorem spill_unfailing : spill.Unfailing :=
  .bind .get fun _ => .bind (setSlot_unfailing _ _ _) fun _ => .bind (setSlot_unfailing _ _ _)
    fun _ => setSlot_unfailing _ _ _

theorem loadFrame_quiet : Quiet loadFrame :=
  .bind .get fun _ => .bind (.query _) fun _ => .bind (.query _) fun _ => .bind (.query _) fun _ =>
    .bind (.query _) fun _ => .bind (fetchCode_quiet _) fun _ => .modify fun _ =>
      ⟨rfl, rfl, rfl, rfl⟩

/-- A check that may end the process. -/
theorem check_quiet {c : Prop} [Decidable c] {cause : List String → RuntimeError}
    {rest : PUnit → MachineAction PUnit} (hrest : Quiet (rest ⟨⟩)) :
    Quiet (if c then do
        let frames ← trace
        let u ← Action.fail (cause frames)
        rest u
      else rest ⟨⟩) := by
  split
  · exact .bind (.query _) fun _ => .bind (.fail _) fun _ => hrest
  · exact hrest

theorem continueIn_quiet (target value : Value) : Quiet (continueIn target value) := by
  refine .bind (setAccumulator_quiet value) fun _ => ?_
  split
  · exact request_quiet _
  · refine .bind (.query _) fun pc => check_quiet ?_
    exact .bind (.modify fun _ => ⟨rfl, rfl, rfl, rfl⟩) fun _ => loadFrame_quiet

theorem isInstance_quiet (v : Value) (k : KernelClass) : Quiet (isInstance v k) := .query _

theorem returnInto_quiet (target value : Value) : Quiet (returnInto target value) := by
  refine .bind (isInstance_quiet _ _) fun isContext => ?_
  split
  · exact setAccumulator_quiet _
  · exact continueIn_quiet _ _

end Quiet

/-- A machine that still runs the same process, in an image that knows the same objects. Since some
earlier time, cells changed only as they may, and the schedule is one of those that it may have come
to. -/
structure Within (W : Licence) (F : Value → Prop) (K : Array Value) (S : Schedule → Prop)
    (p : Value) (base : Heap) (m : Machine) : Prop extends Grown W F base m where
  schedule : S m.schedule
  process : m.process = p
  known : m.image.known = K

section Upholding

variable {α : Type} [Holder α]

theorem Within.same (hm : Within W F K S p base m) (hintact : Intact m') (hsame : Same m m') :
    Within W F K S p base m' where
  intact := hintact
  grows v hv := by
    rw [Store.heap]
    change m'.image.heap.arenas.Sane v
    rw [hsame.heap]
    exact hm.grows v hv
  evolves := by
    change base.Evolves W m'.image.heap
    rw [hsame.heap]
    exact hm.evolves
  preserves := by
    change base.Preserves m'.image.heap
    rw [hsame.heap]
    exact hm.preserves
  instantiates := by
    change base.Instantiates F m'.image.heap
    rw [hsame.heap]
    exact hm.instantiates
  schedule := hsame.schedule ▸ hm.schedule
  process := hsame.process.trans hm.process
  known := hsame.known.trans hm.known

/-- What writes nothing keeps to every licence. -/
theorem Quiet.leaves {act : MachineAction α} (hquiet : Quiet act) (hm : Within W F K S p base m)
    (hend : Settled m (act m)) : Leaves (Within W F K S p base) m (act m) := by
  have hsame := hquiet m
  cases heq : act m with
  | ok a m' =>
    rw [heq] at hend hsame
    exact ⟨hm.same hend.1 hsame, hend.2⟩
  | error e m' =>
    rw [heq] at hend hsame
    cases e with
    | fault f => trivial
    | failure cause => exact ⟨hm.same hend.1 hsame, hend.2⟩

theorem Quiet.upholds {act : MachineAction α} (hquiet : Quiet act) (hstable : Stable known act) :
    Upholds (Within W F K S p base) known act :=
  fun m hm hknown => hquiet.leaves hm (hstable m hm.intact hknown)

theorem Within.put (hm : Within W F K S p base m) {image : Image} (hi : Grown W F base image)
    (hknown : image.known = K) (hgrows : Grows m { m with image }) :
    Within W F K S p base { m with image } where
  intact := by
    refine ⟨hi.intact.whole, fun v hv => ?_⟩
    have hparts : v ∈ image.values ∨ v ∈ held m := by
      simp only [Holder.held, List.mem_append] at hv ⊢
      tauto
    exact hparts.elim (hi.intact.held v) fun h => hgrows.sane (hm.intact.held v h)
  grows := hi.grows
  evolves := hi.evolves
  preserves := hi.preserves
  instantiates := hi.instantiates
  schedule := hm.schedule
  process := hm.process
  known := hknown

theorem Within.image (hm : Within W F K S p base m) : Grown W F base m.image :=
  ⟨⟨intact_image hm.intact, hm.grows, hm.evolves⟩, hm.preserves, hm.instantiates⟩

theorem onImage_leaves {act : ImageAction α} (hm : Within W F K S p base m)
    (hknows : act.Keeps (·.known = K)) (hact : Leaves (Grown W F base) m.image (act m.image)) :
    Leaves (Within W F K S p base) m (onImage act m) := by
  refine .within (fun m : Machine => m.image) (fun m image => { m with image }) id
    (hact.and_keeps hknows hm.known) ?_ rfl (fun _ => rfl)
    fun image hi hgrows => hm.put hi.1 hi.2 hgrows
  rw [onImage]
  cases act m.image with
  | ok a i => rfl
  | error e i => cases e <;> rfl

theorem onImage_upholds {act : ImageAction α} (hknows : act.Keeps (·.known = K))
    (hact : Upholds (Grown W F base) known act) :
    Upholds (Within W F K S p base) known (onImage act) :=
  fun m hm hknown => onImage_leaves hm hknows (hact m.image hm.image hknown)

theorem onHeap_upholds {act : Action HeapError Heap α} (hact : Upholds (Grown W F base) known act) :
    Upholds (Within W F K S p base) known (onHeap act) :=
  onImage_upholds (Image.onHeap_knows _ _) (Image.onHeap_upholds hact)

theorem setSlot_upholds {v x : Value} (hv : Trusted known v) (i : Nat) (hx : Trusted known x)
    (hW : base.arenas.Sane v → W ⟨v, i⟩ x) :
    Upholds (Within W F K S p base) known (setSlot v i x) :=
  onHeap_upholds (Heap.setSlot_upholds hv i hx hW)

theorem slot_upholds {v : Value} (hv : Trusted known v) (i : Nat) :
    Upholds (Within W F K S p base) known (slot v i) :=
  Quiet.upholds (.query _) (slot_stable hv i)

theorem setAccumulator_upholds {v : Value} (hv : Trusted known v) :
    Upholds (Within W F K S p base) known (setAccumulator v) :=
  (setAccumulator_quiet v).upholds (setAccumulator_stable hv)

end Upholding

section Activations

variable {code receiver value parentHeapVars : Value} {args : List Value}

/-- Entering a new context saves the position of the caller. -/
theorem activate_leaves {home : Option Value} (hm : Within W F K S p base m)
    (hknown : ∀ v ∈ known, Sane m v) (hcode : Trusted known code)
    (hreceiver : Trusted known receiver) (hargs : ∀ v ∈ args, Trusted known v)
    (hparent : Trusted known parentHeapVars) (hhome : ∀ v ∈ held home, Trusted known v)
    (hF : ∀ x, F x)
    (hW : base.arenas.Sane m.context → W ⟨m.context, Slot.Context.pc⟩ (.ofNat m.pc)) :
    Leaves (Within W F K S p base) m (activate code receiver args parentHeapVars home m) := by
  rw [activate, get_bind]
  have hrest : Upholds (Within W F K S p base) (m.context :: known) (do
      setSlot m.context Slot.Context.pc (.ofNat m.pc)
      let context ← onImage (Image.newContext code receiver args m.context parentHeapVars home)
      modify fun m => { m with context }
      loadFrame) := by
    refine .bind (setSlot_upholds (by simp) _ (by simp) hW) fun _ => ?_
    refine .bind (onImage_upholds (Image.newContext_knows _ _ _ _ _ _ _)
      (Image.newContext_upholds (by simp [hcode]) (by simp [hreceiver])
        (fun v hv => by simp [hargs v hv]) (by simp) (by simp [hparent])
        (fun v hv => by simp [hhome v hv]) hF)) fun context => ?_
    refine .bind (Quiet.upholds (.modify fun _ => ⟨rfl, rfl, rfl, rfl⟩)
      (reload_stable (fun _ => rfl) (fun _ => rfl) ?_)) fun _ =>
        loadFrame_quiet.upholds loadFrame_stable
    simp +contextual [or_imp]
  refine hrest m hm fun v hv => ?_
  rcases List.mem_cons.mp hv with rfl | hv
  · exact hm.intact.held _ (by simp)
  · exact hknown v hv

theorem dispatch_leaves {selector cls : Value} (hm : Within W F K S p base m)
    (hknown : ∀ v ∈ known, Sane m v) (hreceiver : Trusted known receiver)
    (hargs : ∀ v ∈ args, Trusted known v) (hcls : Trusted known cls) (hF : ∀ x, F x)
    (hW : base.arenas.Sane m.context → W ⟨m.context, Slot.Context.pc⟩ (.ofNat m.pc)) :
    Leaves (Within W F K S p base) m (dispatch selector receiver args cls m) := by
  refine .query fun found hfound => ?_
  cases found with
  | none =>
    refine Quiet.leaves ?_ hm ?_
    · exact .bind (.query _) fun _ => .bind (.query _) fun _ => .bind (.query _) fun _ => .fail _
    · have hname : Stable [] (ask fun i => do i.heap.className (← i.classOf receiver)) :=
        .inspect fun _ => rfl
      refine hname.bind (fun name => ?_) m hm.intact nofun
      exact .bind (.inspect fun _ => rfl) fun text => .bind trace_stable fun _ => .fail _
  | some found =>
    obtain ⟨method, owner⟩ := found
    have hsane := (hm.intact.whole.yields_lookupFrom selector _ (hcls.sane hknown)) _ hfound
    have hmethod : Sane m method := hsane method (by simp)
    have hknown' : ∀ v ∈ method :: known, Sane m v := by
      intro v hv
      rcases List.mem_cons.mp hv with rfl | hv
      · exact hmethod
      · exact hknown v hv
    exact activate_leaves hm hknown' (by simp) (by simp [hreceiver])
      (fun v hv => by simp [hargs v hv]) (by simp) (by simp) hF hW

theorem returnValue_leaves (hm : Within W F K S p base m) (hvalue : Sane m value)
    (hW : base.arenas.Sane m.context → W ⟨m.context, Slot.Context.pc⟩ .nil) :
    Leaves (Within W F K S p base) m (returnValue value m) := by
  rw [returnValue, get_bind]
  have hrest : Upholds (Within W F K S p base) [m.context, value] (do
      setSlot m.context Slot.Context.pc .nil
      continueIn (← slot m.context Slot.Context.previous) value) := by
    refine .bind (setSlot_upholds (by simp) _ (by simp) hW) fun _ => ?_
    refine .bind (slot_upholds (by simp) _) fun previous => ?_
    exact (continueIn_quiet _ _).upholds (continueIn_stable (by simp) (by simp))
  refine hrest m hm fun v hv => ?_
  simp only [List.mem_cons, List.not_mem_nil, or_false] at hv
  rcases hv with rfl | rfl
  · exact hm.intact.held _ (by simp)
  · exact hvalue

theorem invokeBlock_leaves {block : Value} (hm : Within W F K S p base m) (hblock : Sane m block)
    (hargs : ∀ v ∈ args, Sane m v) (hF : ∀ x, F x)
    (hW : base.arenas.Sane m.context → W ⟨m.context, Slot.Context.pc⟩ (.ofNat m.pc)) :
    Leaves (Within W F K S p base) m (invokeBlock block args m) := by
  have hsetNil : Upholds (Within W F K S p base) [] (setAccumulator .nil) :=
    setAccumulator_upholds (by simp)
  have hnil : Leaves (Within W F K S p base) m (setAccumulator .nil m) := hsetNil m hm nofun
  refine .query fun isBlock _ => ?_
  split
  · exact hnil
  refine .query fun shape _ => ?_
  split
  · exact hnil
  refine .query fun receiver hreceiver => .query fun parent hparent => .query fun home hhome => ?_
  have whole : m.image.heap.Whole := hm.intact.whole
  have hknown : ∀ v ∈ block :: receiver :: parent :: home :: args, Sane m v := by
    simp only [List.mem_cons]
    rintro v (rfl | rfl | rfl | rfl | hv)
    · exact hblock
    · exact whole.slot hblock hreceiver
    · exact whole.slot hblock hparent
    · exact whole.slot hblock hhome
    · exact hargs v hv
  refine activate_leaves hm hknown (by simp) (by simp) (fun v hv => ?_) (by simp) (by simp) hF hW
  exact trusted_of_mem (by simp [hv])

end Activations

section Unwinding

def HandsBack (context : Value) (c : Cell) : List (Nat × Instruction) → Machine → Prop
  | (_, .promote own parent) :: rest, m =>
    (∃ theirs, m.image.heap.slot context Slot.Context.parentHeapVars = .ok theirs ∧
      c = ⟨theirs, parent.toNat⟩) ∨
    ∃ m', restore context own parent m = .ok () m' ∧ HandsBack context c rest m'
  | _, _ => False

def Unwinds (c : Cell) : List Value → Machine → Prop
  | [], _ => False
  | context :: rest, m =>
    (∃ code bytecode bytes, m.image.heap.slot context Slot.Context.method = .ok code ∧
      m.image.heap.slot code Slot.Code.bytecode = .ok bytecode ∧
      m.image.heap.bytes bytecode = .ok bytes ∧
      HandsBack context c (Code.decodeAll bytes).1 m) ∨
    ∃ m' m'', unwind context m = .ok () m' ∧ setSlot context Slot.Context.pc .nil m' = .ok () m'' ∧
      Unwinds c rest m''

variable {context : Value}

theorem restore_leaves {own parent : UInt8} (hm : Within W F K S p base m)
    (hcontext : Sane m context)
    (hW : ∀ theirs x, base.arenas.Sane theirs →
      m.image.heap.slot context Slot.Context.parentHeapVars = .ok theirs →
      W ⟨theirs, parent.toNat⟩ x) :
    Leaves (Within W F K S p base) m (restore context own parent m) := by
  have whole : m.image.heap.Whole := hm.intact.whole
  refine .query fun mine hmine => .query fun value hvalue => .query fun theirs htheirs => ?_
  have hstore : Upholds (Within W F K S p base) [theirs, value]
    (setSlot theirs parent.toNat value) :=
    setSlot_upholds (by simp) _ (by simp) fun h => hW theirs value h htheirs
  refine hstore m hm fun v hv => ?_
  simp only [List.mem_cons, List.not_mem_nil, or_false] at hv
  rcases hv with rfl | rfl
  · exact whole.slot hcontext htheirs
  · exact whole.slot (whole.slot hcontext hmine) hvalue

theorem restoreLeading_leaves (code : List (Nat × Instruction)) (hm : Within W F K S p base m)
    (hcontext : Sane m context)
    (hW : ∀ c x, base.arenas.Sane c.object → HandsBack context c code m → W c x) :
    Leaves (Within W F K S p base) m (restoreLeading context code m) := by
  fun_induction restoreLeading context code generalizing m with
  | case1 at' own parent rest ih =>
    refine .bind (restore_leaves hm hcontext fun theirs x h htheirs =>
      hW _ x h (.inl ⟨theirs, htheirs, rfl⟩)) fun _ m' heq hm' hgrows _ => ?_
    exact ih hm' (hgrows.sane hcontext) fun c x h hc => hW c x h (.inr ⟨m', heq, hc⟩)
  | case2 => exact .pure hm (by simp)

theorem unwind_leaves (hm : Within W F K S p base m) (hcontext : Sane m context)
    (hW : ∀ c x code bytecode bytes, base.arenas.Sane c.object →
      m.image.heap.slot context Slot.Context.method = .ok code →
      m.image.heap.slot code Slot.Code.bytecode = .ok bytecode →
      m.image.heap.bytes bytecode = .ok bytes →
      HandsBack context c (Code.decodeAll bytes).1 m → W c x) :
    Leaves (Within W F K S p base) m (unwind context m) := by
  refine .query fun code hcode => ?_
  rw [get_bind]
  refine .query fun cls _ => ?_
  split
  · refine .query fun bytecode hbytecode => .query fun bytes hbytes => ?_
    exact restoreLeading_leaves _ hm hcontext fun c x h hc =>
      hW c x code bytecode bytes h hcode hbytecode hbytes hc
  · exact .pure hm (by simp)

theorem unwindAll_leaves (contexts : List Value) (hm : Within W F K S p base m)
    (hcontexts : ∀ v ∈ contexts, Sane m v)
    (hends : ∀ v ∈ contexts, base.arenas.Sane v → W ⟨v, Slot.Context.pc⟩ .nil)
    (hW : ∀ c x, base.arenas.Sane c.object → Unwinds c contexts m → W c x) :
    Leaves (Within W F K S p base) m (unwindAll contexts m) := by
  induction contexts generalizing m with
  | nil => exact .pure hm (by simp)
  | cons context rest ih =>
    have hcontext := hcontexts context List.mem_cons_self
    refine .bind (unwind_leaves hm hcontext fun c x code bytecode bytes h hcode hbytecode hbytes
      hc => hW c x h (.inl ⟨code, bytecode, bytes, hcode, hbytecode, hbytes, hc⟩))
      fun _ m₁ hunwind hm₁ hgrows _ => ?_
    have hend : Upholds (Within W F K S p base) [context] (setSlot context Slot.Context.pc .nil) :=
      setSlot_upholds (by simp) _ (by simp) (hends context List.mem_cons_self)
    refine .bind (hend m₁ hm₁ fun v hv => ?_) fun _ m₂ hset hm₂ hgrows' _ => ?_
    · obtain rfl := List.mem_singleton.mp hv
      exact hgrows.sane hcontext
    refine ih hm₂ (fun v hv => hgrows'.sane (hgrows.sane (hcontexts v (.tail _ hv))))
      (fun v hv => hends v (.tail _ hv)) fun c x h hc => hW c x h ?_
    exact .inr ⟨m₁, m₂, hunwind, hset, hc⟩

def Unwound (m : Machine) (source : Value) (contexts : List Value) : Prop :=
  ∃ home, m.image.heap.slot source Slot.Context.home = .ok home ∧
    chainTo m.image.heap home (m.image.heap.chainBound + 1) [] m.context = .ok (some contexts)

/-- A check that may end the process. -/
theorem check_leaves {c : Prop} [Decidable c] {cause : List String → RuntimeError}
    {rest : PUnit → MachineAction PUnit} (hm : Within W F K S p base m)
    (hrest : ¬c → Leaves (Within W F K S p base) m (rest ⟨⟩ m)) :
    Leaves (Within W F K S p base) m ((if c then do
        let frames ← trace
        let u ← Action.fail (cause frames)
        rest u
      else rest ⟨⟩) m) := by
  split
  · refine .query fun frames _ => ?_
    exact .bind (.fail hm) fun _ _ heq _ _ _ => nomatch fail_eq_ok.mp heq
  · rename_i hc
    exact hrest hc

theorem nonLocalReturn_leaves {source value : Value} (hm : Within W F K S p base m)
    (hsource : Sane m source) (hvalue : Sane m value)
    (hends : ∀ contexts, m.Unwound source contexts → ∀ v ∈ contexts, base.arenas.Sane v →
      W ⟨v, Slot.Context.pc⟩ .nil)
    (hW : ∀ contexts c x, m.Unwound source contexts → base.arenas.Sane c.object →
      Unwinds c contexts m → W c x) :
    Leaves (Within W F K S p base) m (nonLocalReturn source value m) := by
  have whole : m.image.heap.Whole := hm.intact.whole
  refine .query fun isContext _ => ?_
  split
  · have hnil : Upholds (Within W F K S p base) [] (setAccumulator .nil) :=
      setAccumulator_upholds (by simp)
    exact hnil m hm nofun
  refine .query fun home hhome => check_leaves hm fun _ => .query fun pc _ => ?_
  refine check_leaves hm fun _ => .query fun chain hchain => ?_
  cases chain with
  | none => exact .query fun frames _ => .fail hm
  | some contexts =>
    have hunwound : m.Unwound source contexts := ⟨home, hhome, hchain⟩
    have hcontexts : ∀ v ∈ contexts, Sane m v := by
      intro v hv
      have hnone : ∀ v ∈ ([] : List Value), m.image.heap.arenas.Sane v := by simp
      have hsane := yields_chainTo whole home (m.image.heap.chainBound + 1) hnone
        (hm.intact.held m.context (by simp)) _ hchain
      exact hsane v (by simpa using hv)
    refine .bind (unwindAll_leaves contexts hm hcontexts (hends contexts hunwound)
      fun c x => hW contexts c x hunwound) fun _ m' _ hm' hgrows _ => ?_
    have hgoOn : Upholds (Within W F K S p base) [home, value] (do
        continueIn (← slot home Slot.Context.previous) value) :=
      .bind (slot_upholds (by simp) _) fun previous =>
        (continueIn_quiet _ _).upholds (continueIn_stable (by simp) (by simp))
    refine hgoOn m' hm' fun v hv => ?_
    simp only [List.mem_cons, List.not_mem_nil, or_false] at hv
    rcases hv with rfl | rfl
    · exact hgrows.sane (whole.slot hsource hhome)
    · exact hgrows.sane hvalue

end Unwinding

section Primitives

def schedules : Primitive → Bool
  | .processFork | .processSuspend | .processResume => true
  | _ => false

def PrimitiveStores (m : Machine) (c : Cell) : Primitive → List Value → Prop
  | .elementAtPut, [receiver, index, _] =>
    indexable? m.image receiver = .ok (some .array) ∧ ∃ size k,
      m.image.heap.size receiver = .ok size ∧ position? size index = some k ∧ c = ⟨receiver, k⟩
  | .dictionaryAtPut, [d, key, _] =>
    isDictionary m.image d = .ok true ∧ m.image.heap.Enters d key c
  | .blockReturn, [source, _] => ∃ contexts, m.Unwound source contexts ∧ Unwinds c contexts m
  | _, _ => False

def PrimitiveMakes (m : Machine) (cls : Value) : Primitive → List Value → Prop
  | .basicNew, c :: _ => cls = c
  | .arrayNew, [c, _] => cls = c
  | .dictionaryNew, c :: _ => cls = c
  | .dictionaryAtPut, _ => cls = m.image.kernelClass .link
  | .blockInvoke, _ | .processFork, _ => True
  | _, _ => False

def PrimitiveEnds (m : Machine) (v : Value) : Primitive → List Value → Prop
  | .blockReturn, [source, _] => ∃ contexts, m.Unwound source contexts ∧ v ∈ contexts
  | _, _ => False

theorem firstArg_quiet (args : List Value) : Quiet (firstArg args) := by
  cases args with
  | nil => exact .fault _
  | cons v rest => exact .pure v

theorem firstArg_upholds {args : List Value} (hargs : ∀ v ∈ args, Trusted known v) :
    Upholds (Within W F K S p base) known (firstArg args) :=
  (firstArg_quiet args).upholds (firstArg_stable hargs)

theorem firstArg_eq_ok {args : List Value} {v : Value} (heq : firstArg args m = .ok v m') :
    m' = m := by
  cases args with
  | nil => cases fault_eq_ok.mp heq
  | cons first rest => exact (pure_eq_ok.mp heq).2.symm

theorem firstArg_head {args : List Value} {v : Value} (heq : firstArg args m = .ok v m') :
    ∃ rest, args = v :: rest := by
  cases args with
  | nil => cases fault_eq_ok.mp heq
  | cons first rest => exact ⟨rest, (pure_eq_ok.mp heq).1 ▸ rfl⟩

theorem newString_upholds (text : String) :
    Upholds (Within W F K S p base) known (onImage (Image.newString text)) :=
  onImage_upholds (Image.newString_knows _ _) (Image.newString_upholds text)

theorem stringConcat_upholds (a b : Value) :
    Upholds (Within W F K S p base) known (stringConcat a b) := by
  refine .bind (.inspect fun _ => by simp) fun texts => ?_
  split
  · exact newString_upholds _
  · exact .pure (by simp)

theorem basicNew_upholds {cls : Value} (hcls : Trusted known cls) (hF : F cls) :
    Upholds (Within W F K S p base) known (basicNew cls) := by
  refine .bind (.inspect fun _ => rfl) fun isClass => ?_
  split
  · exact .pure (by simp)
  · refine .bind (.inspect fun _ => rfl) fun size => ?_
    exact onHeap_upholds (Heap.allocatePointers_upholds (by simp [hcls]) _ hF)

theorem arrayNew_upholds {cls size : Value} (hcls : Trusted known cls) (hF : F cls) :
    Upholds (Within W F K S p base) known (arrayNew cls size) := by
  rw [arrayNew]
  split
  · exact .pure (by simp)
  · refine .bind (.inspect fun _ => rfl) fun isArray => ?_
    split
    · exact .pure (by simp)
    · refine .get_bind (fun _ hm => hm.intact) fun m _ => ?_
      split
      · exact .pure (by simp)
      · exact onHeap_upholds (Heap.allocatePointers_upholds (by simp [hcls]) _ hF)

theorem dictionaryNew_upholds {cls : Value} (hcls : Trusted known cls) (hF : F cls) :
    Upholds (Within W F K S p base) known (dictionaryNew cls) := by
  refine .bind (.inspect fun _ => rfl) fun isDictionary => ?_
  split
  · exact onHeap_upholds (Heap.newDictionary_upholds (by simp [hcls]) _ hF)
  · exact .pure (by simp)

theorem nil_leaves (hm : Within W F K S p base m) :
    Leaves (Within W F K S p base) m ((pure .nil : MachineAction Value) m) := by
  refine .pure hm fun v hv => ?_
  obtain rfl := List.mem_singleton.mp hv
  exact Arenas.sane_nil _

theorem elementAtPut_leaves {receiver index value : Value} (hm : Within W F K S p base m)
    (hreceiver : Sane m receiver) (hvalue : Sane m value)
    (hW : ∀ c x, m.PrimitiveStores c .elementAtPut [receiver, index, value] → W c x) :
    Leaves (Within W F K S p base) m (elementAtPut receiver index value m) := by
  refine .query fun shape hshape => ?_
  split
  · refine .query fun size hsize => ?_
    cases hk : position? size index with
    | none => exact nil_leaves hm
    | some k =>
      have hstore : Upholds (Within W F K S p base) [receiver, value]
          (do setSlot receiver k value; return value) :=
        .bind (setSlot_upholds (by simp) _ (by simp) fun _ =>
          hW _ _ ⟨hshape, size, k, hsize, hk, rfl⟩) fun _ => .pure (by simp)
      refine hstore m hm fun v hv => ?_
      simp only [List.mem_cons, List.not_mem_nil, or_false] at hv
      rcases hv with rfl | rfl <;> assumption
  · exact nil_leaves hm

theorem dictionaryAtPut_leaves {d key value : Value} (hm : Within W F K S p base m)
    (hargs : ∀ v ∈ [d, key, value], Sane m v) (hF : F (m.image.kernelClass .link))
    (hW : ∀ c x, m.PrimitiveStores c .dictionaryAtPut [d, key, value] → W c x) :
    Leaves (Within W F K S p base) m (dictionaryAtPut d key value m) := by
  refine .query fun found hfound => ?_
  split
  · rename_i hdictionary
    subst hdictionary
    rw [get_bind]
    refine .bind (onImage_leaves hm (Image.onHeap_knows _ _) (Image.onHeap_leaves hm.image
      (Heap.dictionaryPut_leaves (Image.grown_heap hm.image) ?_ (hargs d (by simp))
        (hargs key (by simp)) (hargs value (by simp)) hF fun c x _ hc => hW c x ⟨hfound, hc⟩)))
      fun _ _ _ hm' hgrows _ => ?_
    · exact hm.intact.held _ (by simp)
    · exact .pure hm' (by simpa using hgrows.sane (hargs value (by simp)))
  · exact nil_leaves hm

theorem onImage_eq_ok {α : Type} {act : ImageAction α} {a : α} (heq : onImage act m = .ok a m') :
    ∃ image, act m.image = .ok a image ∧ m' = { m with image } := by
  rw [onImage] at heq
  dsimp only at heq
  split at heq
  · rename_i hact
    cases heq
    exact ⟨_, hact, rfl⟩
  · cases heq

/-- A step that changes the schedule, if its queues may come to anything. -/
theorem onSchedule_leaves {α : Type} [Holder α] {act : Schedule → ImageAction (α × Schedule)}
    (hm : Within W F K S p base m) (hS : ∀ s, m.schedule.Requeued s → S s)
    (hqueues : ∀ {a s i}, act m.schedule m.image = .ok (a, s) i → m.schedule.Requeued s)
    (hknows : ∀ s, (act s).Keeps (·.known = K))
    (hact : Leaves (Grown W F base) m.image (act m.schedule m.image)) :
    Leaves (Within W F K S p base) m (onSchedule act m) := by
  rw [onSchedule, get_bind]
  refine .bind (onImage_leaves hm (hknows _) hact) fun delivered m' heq hm' _ hsane => ?_
  obtain ⟨a, schedule⟩ := delivered
  obtain ⟨image, hmade, -⟩ := onImage_eq_ok heq
  have hintact : Intact { m' with schedule } := by
    refine ⟨hm'.intact.whole, fun v hv => ?_⟩
    have hparts : v ∈ held schedule ∨ v ∈ held m' := by
      simp only [Holder.held, List.mem_append] at hv ⊢
      tauto
    exact hparts.elim (fun h => hsane v (List.mem_append_right _ h)) (hm'.intact.held v)
  exact ⟨⟨⟨⟨hintact, hm'.grows, hm'.evolves⟩, hm'.preserves, hm'.instantiates⟩,
      hS _ (hqueues hmade), hm'.process, hm'.known⟩, fun _ hv => hv,
    fun v hv => hsane v (List.mem_append_left _ hv)⟩

theorem schedule_sane (hm : Intact m) : ∀ v ∈ held m.schedule, Sane m.image v :=
  fun v hv => hm.held v (by simp only [Holder.held, List.mem_append] at hv ⊢; tauto)

theorem fork_leaves {block name : Value} (hm : Within W F K S p base m)
    (hS : ∀ s, m.schedule.Requeued s → S s)
    (hargs : ∀ v ∈ [block, name], Sane m v) (hF : ∀ x, F x)
    (hW : m.schedule.Moves W base m.image.heap) :
    Leaves (Within W F K S p base) m (fork block name m) := by
  refine .query fun isBlock _ => ?_
  split
  · exact nil_leaves hm
  have hcontext : Upholds (Within W F K S p base) [block, name]
      (onImage (Image.blockContext? block [] .nil)) :=
    onImage_upholds (Image.blockContext?_knows _ _ _ _)
      (Image.blockContext?_upholds (by simp) nofun (by simp) hF)
  refine .bind (hcontext m hm hargs) fun context m' heq hm' hgrows hsane => ?_
  obtain ⟨image, -, rfl⟩ := onImage_eq_ok heq
  cases context with
  | none => exact nil_leaves hm'
  | some context =>
    have hknown : ∀ v ∈ [context, name] ++ held m.schedule, Sane image v := by
      intro v hv
      rcases List.mem_append.mp hv with hv | hv
      · simp only [List.mem_cons, List.not_mem_nil, or_false] at hv
        rcases hv with rfl | rfl
        · exact hsane v (by simp)
        · exact hgrows.sane (hargs v (by simp))
      · exact schedule_sane hm'.intact v hv
    refine onSchedule_leaves hm' hS Schedule.spawn_requeued (Schedule.spawn_knows · _ _ _)
      (Schedule.spawn_leaves hm'.image ?_ hknown (by simp) (by simp) (hF _)
        fun x h => (hW _ x h .lastRunnable).1)
    exact Schedule.vouched_iff.mpr fun v hv => trusted_of_mem (List.mem_append_right _ hv)

theorem suspend_leaves {target : Value} (hm : Within W F K S p base m)
    (hS : ∀ s, m.schedule.Requeued s → S s)
    (htarget : Sane m target) (hW : m.schedule.Moves W base m.image.heap) :
    Leaves (Within W F K S p base) m (suspend target m) := by
  have hdone : ∀ {m'}, Within W F K S p base m' → Grows m m' →
      Leaves (Within W F K S p base) m' ((pure target : MachineAction Value) m') := by
    intro m' hm' hgrows
    exact .pure hm' (by simpa using hgrows.sane htarget)
  refine .query fun isProcess _ => ?_
  split
  · exact nil_leaves hm
  rw [get_bind]
  dsimp only
  split
  · have hask : Upholds (Within W F K S p base) [] (request .suspended) :=
      (request_quiet _).upholds (request_stable nofun)
    exact .bind (hask m hm nofun) fun _ _ _ hm' hgrows _ => hdone hm' hgrows
  · refine .bind (onSchedule_leaves hm hS Schedule.suspend_requeued
      (Schedule.suspend_knows · _ _) ?_) fun _ _ _ hm' hgrows _ =>
      hdone hm' hgrows
    exact Schedule.suspend_leaves hm.image (schedule_sane hm.intact) htarget hW

theorem resume_leaves {target : Value} (hm : Within W F K S p base m)
    (hS : ∀ s, m.schedule.Requeued s → S s)
    (htarget : Sane m target) (hW : m.schedule.Moves W base m.image.heap) :
    Leaves (Within W F K S p base) m (resume target m) := by
  refine .query fun isProcess _ => ?_
  split
  · exact nil_leaves hm
  refine .bind (onSchedule_leaves hm hS Schedule.resume_requeued
    (Schedule.resume_knows · _ _) ?_) fun _ _ _ hm' hgrows _ => ?_
  · exact Schedule.resume_leaves hm.image (schedule_sane hm.intact) htarget hW
  · exact .pure hm' (by simpa using hgrows.sane htarget)

theorem runPrimitive_leaves (prim : Primitive) {args : List Value} (hm : Within W F K S p base m)
    (hargs : ∀ v ∈ args, Sane m v)
    (hposition : base.arenas.Sane m.context → W ⟨m.context, Slot.Context.pc⟩ (.ofNat m.pc))
    (hends : ∀ v, m.PrimitiveEnds v prim args → W ⟨v, Slot.Context.pc⟩ .nil)
    (hstores : ∀ c x, m.PrimitiveStores c prim args → W c x)
    (hmakes : ∀ cls, m.PrimitiveMakes cls prim args → F cls)
    (hschedules : schedules prim →
      (∀ s, m.schedule.Requeued s → S s) ∧ m.schedule.Moves W base m.image.heap) :
    Leaves (Within W F K S p base) m (runPrimitive prim args m) := by
  have hend := runPrimitive_stable prim (fun v hv => trusted_of_mem hv) m hm.intact hargs
  have htrusted : ∀ v ∈ args, Trusted args v := fun v hv => trusted_of_mem hv
  have hfirst : Upholds (Within W F K S p base) args (firstArg args) := firstArg_upholds htrusted
  unfold runPrimitive at hend ⊢
  split
  case h_1 => exact Quiet.leaves (.bind .get fun _ => .pure _) hm hend
  case h_2 | h_3 | h_4 | h_5 | h_6 => exact Quiet.leaves (.query _) hm hend
  case h_7 | h_8 | h_9 | h_10 | h_11 | h_12 =>
    exact Quiet.leaves (.bind .get fun _ => .pure _) hm hend
  case h_13 | h_20 =>
    exact Quiet.leaves (.bind (firstArg_quiet _) fun _ => .query _) hm hend
  case h_14 =>
    exact Quiet.leaves (.bind (firstArg_quiet _) fun _ => .bind (.query _) fun _ => .pure _) hm hend
  case h_15 | h_16 =>
    exact hfirst.bind (fun _ => .bind (.inspect fun _ => rfl) fun _ => newString_upholds _)
      m hm hargs
  case h_17 =>
    refine Quiet.leaves (.bind (firstArg_quiet _) fun _ => .bind (.query _) fun _ => ?_) hm hend
    exact .bind (.modify fun _ => ⟨rfl, rfl, rfl, rfl⟩) fun _ => .pure _
  case h_18 =>
    refine .bind (hfirst m hm hargs) fun cls m' heq hm' _ hsane => ?_
    obtain ⟨rest, rfl⟩ := firstArg_head heq
    exact basicNew_upholds (by simp) (hmakes cls rfl) m' hm' hsane
  case h_19 cls size =>
    exact arrayNew_upholds (htrusted cls (by simp)) (hmakes cls rfl) m hm hargs
  case h_21 => exact Quiet.leaves (.query _) hm hend
  case h_22 => exact elementAtPut_leaves hm (hargs _ (by simp)) (hargs _ (by simp)) hstores
  case h_23 => exact stringConcat_upholds _ _ m hm hargs
  case h_24 => exact Quiet.leaves (.query _) hm hend
  case h_25 =>
    refine hfirst.bind (fun v => .bind (.inspect fun _ => by simp) fun text => ?_) m hm hargs
    cases text with
    | none => exact .pure (by simp)
    | some text => exact newString_upholds text
  case h_26 =>
    refine hfirst.bind (fun v => .bind (.inspect fun _ => by simp) fun text => ?_) m hm hargs
    cases text with
    | none => exact .pure (by simp)
    | some text => exact onImage_upholds (Image.intern_knows _ _) (Image.intern_upholds text)
  case h_27 =>
    refine .bind (hfirst m hm hargs) fun cls m' heq hm' _ hsane => ?_
    obtain ⟨rest, rfl⟩ := firstArg_head heq
    exact dictionaryNew_upholds (by simp) (hmakes cls rfl) m' hm' hsane
  case h_28 => exact Quiet.leaves (.query _) hm hend
  case h_29 => exact dictionaryAtPut_leaves hm hargs (hmakes _ rfl) hstores
  case h_30 =>
    refine .bind (invokeBlock_leaves hm (hargs _ (by simp)) (fun v hv => hargs v (by simp [hv]))
      (fun x => hmakes x trivial) hposition) fun _ _ _ hm' _ _ => nil_leaves hm'
  case h_31 =>
    refine .bind (nonLocalReturn_leaves hm (hargs _ (by simp)) (hargs _ (by simp))
      (fun contexts hc v hv _ => hends v ⟨contexts, hc, hv⟩)
      fun contexts c x hc _ hu => hstores c x ⟨contexts, hc, hu⟩) fun _ _ _ hm' _ _ =>
        nil_leaves hm'
  case h_32 => exact Quiet.leaves (.bind (returnInto_quiet _ _) fun _ => .pure _) hm hend
  case h_33 | h_34 | h_35 =>
    exact (setAccumulator_upholds trusted_nil).bind (fun _ => .pure (by simp)) m hm hargs
  case h_36 =>
    exact fork_leaves hm (hschedules rfl).1 hargs (fun x => hmakes x trivial) (hschedules rfl).2
  case h_37 => exact Quiet.leaves (.bind .get fun _ => .pure _) hm hend
  case h_38 => exact Quiet.leaves (.bind (request_quiet _) fun _ => .pure _) hm hend
  case h_39 =>
    refine .bind (hfirst m hm hargs) fun target m' heq hm' _ hsane => ?_
    obtain rfl := firstArg_eq_ok heq
    exact suspend_leaves hm' (hschedules rfl).1 (hsane target (by simp)) (hschedules rfl).2
  case h_40 =>
    refine .bind (hfirst m hm hargs) fun target m' heq hm' _ hsane => ?_
    obtain rfl := firstArg_eq_ok heq
    exact resume_leaves hm' (hschedules rfl).1 (hsane target (by simp)) (hschedules rfl).2
  case h_41 | h_42 =>
    exact Quiet.leaves (.bind (.modify fun _ => ⟨rfl, rfl, rfl, rfl⟩) fun _ => .pure _) hm hend
  case h_43 => exact nil_leaves hm

end Primitives

end ObjectMachine.Machine
