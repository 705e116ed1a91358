import ObjectMachine.Proofs.Code.Compilation
import ObjectMachine.Proofs.Machine.Stacking

namespace ObjectMachine

theorem mem_of_mem_snoc {α : Type} {inner outer : List α} {x y : α} (hx : x ∈ inner ++ [y]) :
    x ∈ inner ++ y :: outer := by
  simp only [List.mem_append, List.mem_cons, List.not_mem_nil, or_false] at hx ⊢
  exact hx.imp_right .inl

structure Image.Unwound (i : Image) (heap : Heap) (frames : List StackFrame) : Prop where
  ended : ∀ f ∈ frames, heap.Holds ⟨f.context, Slot.Context.pc⟩ .nil
  /-- Any other context goes on where it would have. -/
  contexts : ∀ v x, i.Instance .context v → v ∉ frames.map StackFrame.context →
    i.heap.Holds ⟨v, Slot.Context.pc⟩ x → heap.Holds ⟨v, Slot.Context.pc⟩ x
  /-- Cells stay, but for the parents' variables that blocks have copies of. -/
  kept : ∀ c x, i.heap.Holds c x → (∀ f ∈ frames, c ≠ ⟨f.context, Slot.Context.pc⟩) →
    (∀ f ∈ frames, ∀ copy ∈ f.copies, c ≠ copy.2) → heap.Holds c x
  cells : ∀ c x, heap.Holds c x → ∃ y, i.heap.Holds c y
  header : ∀ v, i.heap.arenas.Sane v → heap.header v = i.heap.header v
  spells : ∀ v content, i.heap.Spells v content → heap.Spells v content

theorem Heap.Delivers.mono {h h' : Heap} {ended ended' : List Value} {copies : List (Cell × Cell)}
    (hd : Delivers h h' ended copies) (hsub : ended ⊆ ended') : Delivers h h' ended' copies :=
  { hd with holds := fun hlasts => hd.holds fun v hv => hlasts v (hsub hv) }

namespace Machine

open Image

variable {m m' : Machine} {f : StackFrame} {frames : List StackFrame} {v x : Value}
  {k : KernelClass}

theorem isInstance_of_instance (hv : m.image.Instance k v) : isInstance v k m = .ok true m := by
  rw [isInstance, ask]
  refine query_of_eq_ok ?_
  simp only [if_pos hv.reference, hv.classOf, bind, Except.bind, pure, Except.pure, decide_true]

theorem isInstance_of_not_instance (whole : m.image.heap.Whole) (hv : m.image.heap.arenas.Sane v)
    (hnot : ¬m.image.Instance k v) : isInstance v k m = .ok false m := by
  rw [isInstance, ask]
  refine query_of_eq_ok ?_
  by_cases hreference : v.isReference
  · obtain ⟨cls, hcls⟩ := exists_classOf whole hv
    have hother : cls ≠ m.image.kernelClass k := fun heq => hnot ⟨hv, hreference, heq ▸ hcls⟩
    simp only [if_pos hreference, hcls, bind, Except.bind, pure, Except.pure, hother, decide_false]
  · simp only [if_neg hreference, pure, Except.pure]

theorem exists_setSlot (whole : m.image.heap.Whole) {c : Cell} (hc : ∃ y, m.image.heap.Holds c y)
    (hx : m.image.heap.arenas.Sane x) : ∃ heap,
      setSlot c.object c.index x m = .ok () { m with image := { m.image with heap } } ∧
      Heap.Rewrites m.image.heap heap c x := by
  obtain ⟨y, hy⟩ := hc
  obtain ⟨heap, hset, hr⟩ := hy.write whole hx
  exact ⟨heap, setSlot_of_eq_ok hset, hr⟩

theorem restore_ok {own parent : UInt8} (whole : m.image.heap.Whole) (hf : m.image.Activates f)
    (hown : ∃ x, m.image.heap.Holds ⟨f.mine, own.toNat⟩ x)
    (hparent : ∃ x, m.image.heap.Holds ⟨f.theirs, parent.toNat⟩ x) :
    ∃ m', restore f.context own parent m = .ok () m' := by
  obtain ⟨x, hx⟩ := hown
  obtain ⟨heap, hset, -⟩ := exists_setSlot whole hparent (hx.value_sane whole)
  have hread : ∀ {c : Cell} {y : Value}, m.image.heap.Holds c y →
      slot c.object c.index m = .ok y m := fun hc => query_of_eq_ok hc.slot
  refine ⟨{ m with image := { m.image with heap } }, ?_⟩
  rw [restore, bind_of_eq_ok (hread hf.mine), bind_of_eq_ok (hread hx),
    bind_of_eq_ok (hread hf.theirs)]
  exact hset

theorem restoreLeading_ok (hkinds : Function.Injective m.image.kernelClass)
    (code : List (Nat × Instruction)) (whole : m.image.heap.Whole) (hf : m.image.Activates f)
    (hcode : ∀ slots ∈ leadingPromotes code,
      (∃ x, m.image.heap.Holds ⟨f.mine, slots.1.toNat⟩ x) ∧
        ∃ x, m.image.heap.Holds ⟨f.theirs, slots.2.toNat⟩ x) :
    ∃ m', restoreLeading f.context code m = .ok () m' := by
  fun_induction leadingPromotes code generalizing m with
  | case1 pc own parent rest ih =>
    obtain ⟨⟨hown, hparent⟩, hrest⟩ := List.forall_mem_cons.mp hcode
    obtain ⟨m₁, hrestore⟩ := restore_ok whole hf hown hparent
    obtain ⟨heap, rfl, hd⟩ : ∃ heap, m₁ = { m with image := { m.image with heap } } ∧
        Heap.Delivers m.image.heap heap [] [(⟨f.mine, own.toNat⟩, ⟨f.theirs, parent.toNat⟩)] :=
      restore_delivers whole hf.mine hf.theirs hrestore
    obtain ⟨x, hx⟩ := hparent
    have ho : m.image.Confined [] [(⟨f.mine, own.toNat⟩, ⟨f.theirs, parent.toNat⟩)] := by
      refine ⟨List.forall_mem_nil _, fun copy hcopy => ?_⟩
      obtain rfl := List.mem_singleton.mp hcopy
      exact array_of_holds hx (hf.arrays f.theirs (by simp))
    obtain ⟨m₂, hlater⟩ := ih (m := { m with image := { m.image with heap } }) hkinds hd.whole
      (hf.deliver hkinds hd ho) fun slots hslots =>
        ⟨persists hd (hrest slots hslots).1, persists hd (hrest slots hslots).2⟩
    exact ⟨m₂, bind_eq_ok.mpr ⟨(), _, hrestore, hlater⟩⟩
  | case2 code hother =>
    refine ⟨m, ?_⟩
    rw [restoreLeading]
    · rfl
    · exact hother

/-- A frame can be unwound. -/
theorem unwind_ok (hkinds : Function.Injective m.image.kernelClass) (whole : m.image.heap.Whole)
    (hf : m.image.Activates f) : ∃ m', unwind f.context m = .ok () m' := by
  obtain ⟨bytes, t, hbytes, hspells, hruns⟩ := hf.bytecode
  have hcode : slot f.context Slot.Context.method m = .ok f.code m := query_of_eq_ok hf.code.slot
  have hclass : ∀ {cls}, m.image.classOf f.code = .ok cls → ask (·.classOf f.code) m = .ok cls m :=
    fun hcls => query_of_eq_ok hcls
  rw [unwind, bind_of_eq_ok hcode, get_bind]
  have hchained := hf.chained
  cases hruns with
  | method _ hmethod _ =>
    rw [bind_of_eq_ok (hclass hmethod.classOf),
      if_neg fun h => absurd (hkinds h) (by decide)]
    exact ⟨m, rfl⟩
  | block _ hblock hleading _ _ =>
    have hread : slot f.code Slot.Code.bytecode m = .ok bytes m := query_of_eq_ok hbytes.slot
    have hread' : ask (·.heap.bytes bytes) m = .ok t.bytecode m := query_of_eq_ok hspells.2
    rw [bind_of_eq_ok (hclass hblock.classOf), if_pos rfl, bind_of_eq_ok hread,
      bind_of_eq_ok hread']
    rw [hleading] at hchained
    exact restoreLeading_ok hkinds _ whole hf hchained

/-- Frames can be unwound one after the other, and then all of them have ended. -/
theorem unwindAll_ok (hkinds : Function.Injective m.image.kernelClass)
    (whole : m.image.heap.Whole) (hactivates : ∀ f ∈ frames, m.image.Activates f)
    (hnodup : (frames.map StackFrame.context).Nodup) :
    ∃ heap, unwindAll (frames.map StackFrame.context) m =
        .ok () { m with image := { m.image with heap } } ∧
      Heap.Delivers m.image.heap heap (frames.map StackFrame.context)
        (frames.flatMap StackFrame.copies) ∧
      ∀ f ∈ frames, heap.Holds ⟨f.context, Slot.Context.pc⟩ .nil := by
  induction frames generalizing m with
  | nil => exact ⟨m.image.heap, rfl, .refl whole, nofun⟩
  | cons f rest ih =>
    obtain ⟨hf, hrest⟩ := List.forall_mem_cons.mp hactivates
    obtain ⟨hnew, hnodup'⟩ := List.nodup_cons.mp hnodup
    have htheirs : f.theirs ≠ f.context := hf.not_context hkinds (by simp) hf.context
    have hended : f.mine ∉ (f :: rest).map StackFrame.context := by
      intro hmem
      obtain ⟨g, hg, hsame⟩ := List.mem_map.mp hmem
      exact hf.not_context hkinds (by simp) (hactivates g hg).context hsame.symm
    obtain ⟨m₁, hunwind⟩ := unwind_ok hkinds whole hf
    obtain ⟨heap₁, rfl, hd₁⟩ := unwind_delivers (hf.stacks hkinds) htheirs hended whole hunwind
    have ho₁ : m.image.Confined ((f :: rest).map StackFrame.context) f.copies :=
      ⟨(confined_of_activates hactivates).ended, hf.targets⟩
    have hf₁ := hf.deliver hkinds hd₁ ho₁
    obtain ⟨heap₂, hset, hr⟩ := exists_setSlot (c := ⟨f.context, Slot.Context.pc⟩) (x := .nil)
      (m := { m with image := { m.image with heap := heap₁ } }) hd₁.whole hf₁.pc
      (Arenas.sane_nil _)
    have hd₂ : Heap.Delivers heap₁ heap₂ ((f :: rest).map StackFrame.context) [] :=
      hr.delivers_ended (List.mem_map_of_mem (List.mem_cons_self ..))
    have ho₂ : Confined { m.image with heap := heap₁ } ((f :: rest).map StackFrame.context) [] :=
      ⟨fun v hv => (ho₁.ended v hv).deliver hd₁, nofun⟩
    have hlater : ∀ g ∈ f :: rest, Activates { m.image with heap := heap₂ } g := fun g hg =>
      Activates.deliver (i := { m.image with heap := heap₁ }) hkinds
        ((hactivates g hg).deliver hkinds hd₁ ho₁) hd₂ ho₂
    obtain ⟨heap, hunwound, hd, hpcs⟩ := ih
      (m := { m with image := { m.image with heap := heap₂ } }) hkinds hd₂.whole
      (fun g hg => hlater g (.tail _ hg)) hnodup'
    have hfirst := hd₁.trans hd₂ nofun
    rw [List.append_nil] at hfirst
    refine ⟨heap, bind_eq_ok.mpr ⟨(), _, hunwind, bind_eq_ok.mpr ⟨(), _, hset, hunwound⟩⟩, ?_, ?_⟩
    · refine hfirst.trans (hd.mono fun v hv => .tail _ hv) fun copy hcopy => ?_
      obtain ⟨g, hg, hcopy⟩ := List.mem_flatMap.mp hcopy
      refine handedOver_lasts (fun hmem => ?_) copy hcopy
      obtain ⟨w, hw, hsame⟩ := List.mem_map.mp hmem
      exact (hactivates g (.tail _ hg)).not_context hkinds (by simp) (hactivates w hw).context
        hsame.symm
    · refine List.forall_mem_cons.mpr ⟨hd.untouched ?_ ?_ hr.written, hpcs⟩
      · intro v hv heq
        have hsame : f.context = v := congrArg Cell.object heq
        exact hnew (hsame ▸ hv)
      · intro copy hcopy heq
        have harray := (confined_of_activates fun g hg => hlater g (.tail _ hg)).copies copy hcopy
        rw [heq] at harray
        exact Instance.ne (i := { m.image with heap := heap₂ }) hkinds (hlater f (.head _)).context
          harray (by decide) rfl

/-- What frames leave when they are unwound. -/
theorem unwindAll_unwound (hkinds : Function.Injective m.image.kernelClass)
    (whole : m.image.heap.Whole) (hactivates : ∀ f ∈ frames, m.image.Activates f)
    (hnodup : (frames.map StackFrame.context).Nodup) :
    ∃ heap, unwindAll (frames.map StackFrame.context) m =
        .ok () { m with image := { m.image with heap } } ∧ m.image.Unwound heap frames ∧
      Heap.Delivers m.image.heap heap (frames.map StackFrame.context)
        (frames.flatMap StackFrame.copies) := by
  obtain ⟨heap, heq, hd, hended⟩ := unwindAll_ok hkinds whole hactivates hnodup
  refine ⟨heap, heq, ⟨hended, fun v x hv hnot hx => ?_, fun c x hx hpcs hcopies => ?_,
    fun _ _ hx => hd.cells hx, fun _ hv => hd.header hv, fun _ _ hs => hd.spells hs⟩, hd⟩
  · refine hd.untouched (fun w hw heq => hnot ?_) (fun copy hcopy heq => ?_) hx
    · have hsame : v = w := congrArg Cell.object heq
      rwa [hsame]
    · have harray := (confined_of_activates hactivates).copies copy hcopy
      rw [heq] at harray
      exact hv.ne hkinds harray (by decide) rfl
  · refine hd.untouched (fun w hw => ?_) (fun copy hcopy heq => ?_) hx
    · obtain ⟨f, hf, rfl⟩ := List.mem_map.mp hw
      exact hpcs f hf
    · obtain ⟨f, hf, hcopy⟩ := List.mem_flatMap.mp hcopy
      exact hcopies f hf copy hcopy heq.symm

theorem trace_of_stack (hs : m.image.Stack m.context frames) :
    ∃ lines, m.image.trace m.context = .ok lines ∧ trace m = .ok lines m := by
  obtain ⟨lines, hlines⟩ := hs.trace
  exact ⟨lines, hlines, query_of_eq_ok hlines⟩

section Continuing

theorem continueIn_dead {target value : Value}
    (hdead : m.image.heap.Holds ⟨target, Slot.Context.pc⟩ .nil) {lines : List String}
    (hlines : m.image.trace m.context = .ok lines) : continueIn target value m =
      .error (.failure (.deadContext lines)) { m with accumulator := value } := by
  have hread : slot target Slot.Context.pc { m with accumulator := value } =
      .ok .nil { m with accumulator := value } := query_of_eq_ok hdead.slot
  have htrace : trace { m with accumulator := value } =
      .ok lines { m with accumulator := value } := query_of_eq_ok hlines
  rw [continueIn, setAccumulator, modify_bind, if_neg hdead.not_isNil, bind_of_eq_ok hread,
    if_pos (by rfl), bind_of_eq_ok htrace]
  rfl

theorem loadFrame_ok (hf : m.image.Activates f) (hcontext : m.context = f.context)
    {x : Value} (hpc : m.image.heap.Holds ⟨f.context, Slot.Context.pc⟩ x) :
    ∃ m', loadFrame m = .ok () m' ∧ m'.toWorld = m.toWorld ∧ m'.context = f.context ∧
      m'.method = f.code ∧ m'.pc = x.toNat?.getD 0 ∧ m'.accumulator = m.accumulator ∧
      m'.stop = m.stop := by
  obtain ⟨literals, hliterals⟩ := hf.literals
  obtain ⟨bytes, t, hbytes, hspells, -⟩ := hf.bytecode
  obtain ⟨code, m₁, hfetch⟩ : ∃ code m₁, fetchCode bytes m = .ok code m₁ := by
    obtain ⟨cache, epoch, hrefreshed⟩ := m.refreshed_eq
    rw [fetchCode_eq, hrefreshed]
    dsimp only
    split
    · exact ⟨_, _, rfl⟩
    · rw [hspells.2]
      exact ⟨_, _, rfl⟩
  have hread : ∀ {v w : Value} {k : Nat}, m.image.heap.Holds ⟨v, k⟩ w →
      slot v k m = .ok w m := fun hc => query_of_eq_ok hc.slot
  obtain ⟨cache, epoch, rfl⟩ := fetchCode_eq_ok hfetch
  have hcode := hf.code
  rw [← hcontext] at hcode hpc
  refine ⟨{ m with
    cache, epoch, method := f.code, literals, pc := x.toNat?.getD 0, code }, ?_, rfl, hcontext, rfl,
    rfl, rfl, rfl⟩
  rw [loadFrame, get_bind, bind_of_eq_ok (hread hcode), bind_of_eq_ok (hread hliterals),
    bind_of_eq_ok (hread hpc), bind_of_eq_ok (hread hbytes), bind_of_eq_ok hfetch]
  rfl

theorem continueIn_ok {value : Value} (hf : m.image.Activates f)
    (hpc : m.image.heap.Holds ⟨f.context, Slot.Context.pc⟩ x) (hlive : ¬x.isNil) :
    ∃ m', continueIn f.context value m = .ok () m' ∧ m'.toWorld = m.toWorld ∧
      m'.context = f.context ∧ m'.method = f.code ∧ m'.pc = x.toNat?.getD 0 ∧
      m'.accumulator = value ∧ m'.stop = m.stop := by
  have hread : slot f.context Slot.Context.pc { m with accumulator := value } =
      .ok x { m with accumulator := value } := query_of_eq_ok hpc.slot
  obtain ⟨m', hload, hrest⟩ := loadFrame_ok
    (m := { m with accumulator := value, context := f.context }) hf rfl hpc
  refine ⟨m', ?_, hrest⟩
  rw [continueIn, setAccumulator, modify_bind, if_neg hpc.not_isNil, bind_of_eq_ok hread,
    if_neg hlive]
  exact hload

end Continuing

section Deciding

variable {source home value : Value}

theorem nonLocalReturn_not_context (whole : m.image.heap.Whole)
    (hsource : m.image.heap.arenas.Sane source) (hnot : ¬m.image.Instance .context source) :
    nonLocalReturn source value m = .ok () { m with accumulator := .nil } := by
  rw [nonLocalReturn, bind_of_eq_ok (isInstance_of_not_instance whole hsource hnot)]
  rfl

/-- A home that cannot be returned from is found out before anything is written. -/
theorem nonLocalReturn_dead (whole : m.image.heap.Whole) (hs : m.image.Stack m.context frames)
    (hsource : m.image.Instance .context source)
    (hhome : m.image.heap.Holds ⟨source, Slot.Context.home⟩ home)
    (hpc : home.isNil ∨ ∃ x, m.image.heap.Holds ⟨home, Slot.Context.pc⟩ x)
    (hdead : home.isNil ∨ m.image.heap.Holds ⟨home, Slot.Context.pc⟩ .nil ∨
      home ∉ frames.map StackFrame.context) :
    ∃ lines, m.image.trace m.context = .ok lines ∧
      nonLocalReturn source value m = .error (.failure (.deadContext lines)) m := by
  obtain ⟨lines, hlines, htrace⟩ := trace_of_stack hs
  have hread : ∀ {v w : Value} {k : Nat}, m.image.heap.Holds ⟨v, k⟩ w →
      slot v k m = .ok w m := fun hc => query_of_eq_ok hc.slot
  refine ⟨lines, hlines, ?_⟩
  rw [nonLocalReturn, bind_of_eq_ok (isInstance_of_instance hsource)]
  simp only [Bool.not_true, Bool.false_eq_true, if_false]
  rw [bind_of_eq_ok (hread hhome)]
  by_cases hnil : home.isNil
  · rw [if_pos hnil, bind_of_eq_ok htrace]
    rfl
  · obtain ⟨x, hx⟩ := hpc.resolve_left hnil
    rw [if_neg hnil, bind_of_eq_ok (hread hx)]
    by_cases hended : x.isNil
    · rw [if_pos hended, bind_of_eq_ok htrace]
      rfl
    · have hout : home ∉ frames.map StackFrame.context := by
        refine (hdead.resolve_left hnil).resolve_left fun hdead => hended ?_
        rw [hx.unique hdead]
        rfl
      have hchain : (Action.query fun m : Machine => chainTo m.image.heap home
          (m.image.heap.chainBound + 1) [] m.context : MachineAction _) m = .ok none m :=
        query_of_eq_ok (hs.chainTo_none [] hout (hs.length_lt whole))
      rw [if_neg hended, bind_of_eq_ok hchain]
      simp only
      rw [bind_of_eq_ok htrace]
      rfl

theorem nonLocalReturn_unwinds {inner outer : List StackFrame} (whole : m.image.heap.Whole)
    (hkinds : Function.Injective m.image.kernelClass)
    (hs : m.image.Stack m.context (inner ++ f :: outer))
    (hsource : m.image.Instance .context source)
    (hhome : m.image.heap.Holds ⟨source, Slot.Context.home⟩ f.context)
    (hlive : ¬m.image.heap.Holds ⟨f.context, Slot.Context.pc⟩ .nil) {caller : Value}
    (hcaller : m.image.heap.Holds ⟨f.context, Slot.Context.previous⟩ caller) :
    ∃ heap, m.image.Unwound heap (inner ++ [f]) ∧
      Heap.Delivers m.image.heap heap ((inner ++ [f]).map StackFrame.context)
        ((inner ++ [f]).flatMap StackFrame.copies) ∧
      nonLocalReturn source value m =
        continueIn caller value { m with image := { m.image with heap } } := by
  have hactivates : ∀ g ∈ inner ++ [f], m.image.Activates g := fun g hg =>
    hs.activates g (mem_of_mem_snoc hg)
  have hf := hactivates f (by simp)
  have hnodup : ((inner ++ [f]).map StackFrame.context).Nodup := by
    refine List.Nodup.sublist (List.Sublist.map _ ?_) hs.nodup
    exact List.Sublist.append (List.Sublist.refl inner) (by simp)
  obtain ⟨heap, hunwind, hunwound, hd⟩ := unwindAll_unwound hkinds whole hactivates hnodup
  refine ⟨heap, hunwound, hd, ?_⟩
  obtain ⟨x, hx⟩ := hf.pc
  have hx' : ¬x.isNil := fun hnil => hlive (Value.eq_nil_of_isNil hnil ▸ hx)
  have hread : ∀ {v w : Value} {k : Nat}, m.image.heap.Holds ⟨v, k⟩ w →
      slot v k m = .ok w m := fun hc => query_of_eq_ok hc.slot
  have hchain : (Action.query fun m : Machine => chainTo m.image.heap f.context
      (m.image.heap.chainBound + 1) [] m.context : MachineAction _) m =
        .ok (some ((inner ++ [f]).map StackFrame.context)) m :=
    query_of_eq_ok (hs.chainTo_some [] (hs.length_lt whole))
  have hcaller' : slot f.context Slot.Context.previous { m with image := { m.image with heap } } =
      .ok caller { m with image := { m.image with heap } } :=
    query_of_eq_ok ((confined_of_activates hactivates).kept hd (by decide)
      (fun harray => hf.context.ne hkinds harray (by decide) rfl) hcaller).slot
  rw [nonLocalReturn, bind_of_eq_ok (isInstance_of_instance hsource)]
  simp only [Bool.not_true, Bool.false_eq_true, if_false]
  rw [bind_of_eq_ok (hread hhome), if_neg hcaller.not_isNil, bind_of_eq_ok (hread hx), if_neg hx',
    bind_of_eq_ok hchain]
  simp only
  rw [bind_of_eq_ok hunwind, bind_of_eq_ok hcaller']

/-- A return from the home of a block. It is given up before anything is written if the home has
returned or is not on the stack. Otherwise all contexts up to the home end, and the machine goes on
in the home's caller, ends its run if there is none, or fails if the caller has itself returned. -/
theorem nonLocalReturn_effect (value : Value) (whole : m.image.heap.Whole)
    (hkinds : Function.Injective m.image.kernelClass)
    (hs : m.image.Stack m.context frames) (hsource : m.image.heap.arenas.Sane source)
    (hhome : m.image.Instance .context source →
      ∃ home, m.image.heap.Holds ⟨source, Slot.Context.home⟩ home ∧
        (home.isNil ∨ ∃ x, m.image.heap.Holds ⟨home, Slot.Context.pc⟩ x)) :
    (¬m.image.Instance .context source →
      nonLocalReturn source value m = .ok () { m with accumulator := .nil }) ∧
    ∀ home, m.image.Instance .context source →
      m.image.heap.Holds ⟨source, Slot.Context.home⟩ home →
      (home.isNil ∨ m.image.heap.Holds ⟨home, Slot.Context.pc⟩ .nil ∨
          home ∉ frames.map StackFrame.context →
        ∃ lines, m.image.trace m.context = .ok lines ∧
          nonLocalReturn source value m = .error (.failure (.deadContext lines)) m) ∧
      ∀ inner f outer, frames = inner ++ f :: outer → f.context = home →
        ¬m.image.heap.Holds ⟨home, Slot.Context.pc⟩ .nil →
        ∃ caller heap, m.image.heap.Holds ⟨home, Slot.Context.previous⟩ caller ∧
          m.image.Unwound heap (inner ++ [f]) ∧
          (caller.isNil → nonLocalReturn source value m =
            .ok () { m with
              image := { m.image with heap }, accumulator := value
              stop := some (.returned value) }) ∧
          (m.image.heap.Holds ⟨caller, Slot.Context.pc⟩ .nil →
            ∃ lines, Image.trace { m.image with heap } m.context = .ok lines ∧
              nonLocalReturn source value m = .error (.failure (.deadContext lines))
                { m with image := { m.image with heap }, accumulator := value }) ∧
          ∀ pc, m.image.heap.Holds ⟨caller, Slot.Context.pc⟩ pc → ¬pc.isNil →
            ∃ m', nonLocalReturn source value m = .ok () m' ∧
              m'.toWorld = { m.toWorld with image := { m.image with heap } } ∧
              m'.context = caller ∧ m.image.heap.Holds ⟨caller, Slot.Context.method⟩ m'.method ∧
              m'.pc = pc.toNat?.getD 0 ∧ m'.accumulator = value ∧ m'.stop = m.stop := by
  refine ⟨nonLocalReturn_not_context whole hsource,
    fun home hcontext hread => ⟨fun hdead => ?_, ?_⟩⟩
  · obtain ⟨home', hread', hpc⟩ := hhome hcontext
    obtain rfl := hread.unique hread'
    exact nonLocalReturn_dead whole hs hcontext hread hpc hdead
  · rintro inner f outer rfl rfl hlive
    obtain ⟨caller, hcaller, hrest⟩ := hs.caller
    obtain ⟨heap, hunwound, hd, heq⟩ :=
      nonLocalReturn_unwinds whole hkinds hs hcontext hread hlive hcaller
    have ho := confined_of_activates fun g hg => hs.activates g (mem_of_mem_snoc hg)
    -- The caller is a context that is not unwound, so it is still where it was.
    have hstill : ∀ {pc}, m.image.heap.Holds ⟨caller, Slot.Context.pc⟩ pc →
        ∃ g ∈ outer, caller = g.context ∧ heap.Holds ⟨caller, Slot.Context.pc⟩ pc := by
      intro pc hpc
      cases hrest with
      | nil => exact absurd rfl hpc.not_isNil
      | @cons g _ outer hg _ _ =>
        refine ⟨g, .head _, rfl, hunwound.contexts _ _ hg.context ?_ hpc⟩
        have hnodup := hs.nodup
        rw [List.append_cons, List.map_append, List.map_cons] at hnodup
        exact fun hmem => (List.nodup_append.mp hnodup).2.2 _ hmem _ (.head _) rfl
    refine ⟨caller, heap, hcaller, hunwound, fun hnil => ?_, fun hdead => ?_, fun pc hpc hgo => ?_⟩
    · rw [heq, Value.eq_nil_of_isNil hnil]
      rfl
    · obtain ⟨g, -, rfl, hdead'⟩ := hstill hdead
      obtain ⟨lines, hlines⟩ := (hs.deliver hkinds hd ho).trace
      exact ⟨lines, hlines, heq.trans
        (continueIn_dead (m := { m with image := { m.image with heap } }) hdead' hlines)⟩
    · obtain ⟨g, hg, rfl, hpc'⟩ := hstill hpc
      have hactivates := hs.activates g (by simp [hg])
      obtain ⟨m', hgo', hworld, hcontext', hmethod, hpc'', haccumulator, hstop⟩ :=
        continueIn_ok (m := { m with image := { m.image with heap } })
          (hactivates.deliver hkinds hd ho) hpc' hgo
      exact ⟨m', heq.trans hgo', hworld, hcontext', hmethod ▸ hactivates.code, hpc'', haccumulator,
        hstop⟩

end Deciding

end Machine

def CodeTemplate.blocks (t : CodeTemplate) : List CodeTemplate :=
  t.literals.filterMap fun
    | .block b => some b
    | _ => none

theorem CodeTemplate.WellFormed.of_mem_blocks {t b : CodeTemplate} {outer : Nat}
    (h : t.WellFormed outer) (hb : b ∈ t.blocks) : b.WellFormed t.heapVars := by
  obtain ⟨c, hc, hblock⟩ := List.mem_filterMap.mp hb
  cases h with
  | intro _ hblocks =>
    cases c with
    | block b' =>
      obtain rfl := Option.some.inj hblock
      exact hblocks _ hc
    | integer | string | symbol | array => cases hblock

theorem CodeTemplate.WellFormed.runnable {t : CodeTemplate} {outer : Nat}
    (h : t.WellFormed outer) : t.Runnable outer := by
  cases h with
  | intro hrunnable _ => exact hrunnable

def answering : Method where
  selector := "answer"
  params := []
  temps := ["x"]
  body := [.send (.thunk [.thunk [.variable "x"], .ret (.int 7)]) "value" []]

def answeringCode : CodeTemplate := (answering.compile []).toOption.getD default

def answeringBlock : CodeTemplate := answeringCode.blocks.headD default

/-- What the compiler makes of the method and of its block. -/
theorem answering_compiled : (answering.compile []).isOk = true ∧
    answeringCode.blocks.isEmpty = false ∧ answeringCode.heapVars = 1 ∧
    answeringBlock.heapVars = 1 ∧ leadingPromotes answeringBlock.items = [(0, 0)] ∧
    answeringCode.bytecode = #[25, 0, 23, 1, 0, 32] ∧ answeringBlock.bytecode =
      #[16, 0, 0, 25, 0, 6, 1, 15, 2, 17, 0, 0, 3, 23, 2, 1, 2, 17, 0, 0, 31] := by
  decide +kernel

theorem answering_compile : answering.compile [] = .ok answeringCode := by
  obtain ⟨hok, -⟩ := answering_compiled
  rw [answeringCode]
  cases hc : answering.compile [] with
  | error e => simp [hc, Except.isOk, Except.toBool] at hok
  | ok t => rfl

theorem answeringCode_runnable : answeringCode.Runnable 0 :=
  (Method.compile_wellFormed answering_compile).runnable

theorem answeringBlock_runnable : answeringBlock.Runnable 1 := by
  obtain ⟨-, hsome, hvars, -⟩ := answering_compiled
  have hmem : answeringBlock ∈ answeringCode.blocks := by
    rw [answeringBlock]
    cases hblocks : answeringCode.blocks with
    | nil => simp [hblocks] at hsome
    | cons b rest => exact List.mem_cons_self
  exact hvars ▸ ((Method.compile_wellFormed answering_compile).of_mem_blocks hmem).runnable

/-- The method has been called twice, and the block runs that its second activation made. Besides
there is a context that has lost its home. -/
def answeringObjects : ImageAction Value := do
  let cls ← Image.onHeap (Heap.allocatePointers .nil 1)
  let receiver ← Image.onHeap (Heap.allocatePointers cls 0)
  let theirs ← Image.onHeap (Heap.allocatePointers (.ofNat 9) 1)
  let mine ← Image.onHeap (Heap.allocatePointers (.ofNat 9) 1)
  let method ← Image.onHeap (Heap.allocatePointers (.ofNat 13) 8)
  let block ← Image.onHeap (Heap.allocatePointers (.ofNat 14) 11)
  let caller ← Image.onHeap (Heap.allocatePointers (.ofNat 15) 8)
  let home ← Image.onHeap (Heap.allocatePointers (.ofNat 15) 8)
  let context ← Image.onHeap (Heap.allocatePointers (.ofNat 15) 8)
  let stray ← Image.onHeap (Heap.allocatePointers (.ofNat 15) 8)
  let methodBytes ← Image.onHeap (Heap.allocateBytes .nil #[25, 0, 23, 1, 0, 32])
  let blockBytes ← Image.onHeap (Heap.allocateBytes .nil
    #[16, 0, 0, 25, 0, 6, 1, 15, 2, 17, 0, 0, 3, 23, 2, 1, 2, 17, 0, 0, 31])
  Image.fillSlots method 0 [methodBytes]
  Image.fillSlots block 0 [blockBytes]
  Image.fillSlots caller 0 [.nil, receiver, method, .ofNat 5, .nil, .nil, caller]
  Image.fillSlots home 0 [caller, receiver, method, .ofNat 5, theirs, .nil, home]
  Image.fillSlots context 0 [home, receiver, block, .ofNat 5, mine, theirs, home]
  Image.fillSlots stray Slot.Context.home [.ofNat 3]
  return context

def answeringImage : Image :=
  { Machine.blankImage with heap := ⟨{
    pointers := #[0, 2, 0, 0x100000004, 0, 32, 8, 73, 0x10000000c, 0, 73, 0x100000010, 0,
      105, 0x800000014, 40, 0, 0, 0, 0, 0, 0, 0, 113, 0xb00000018, 88, 0, 0, 0, 0, 0, 0, 0, 0, 0, 0,
      121, 0x80000001c, 0, 80, 208, 41, 0, 0, 576, 0, 121, 0x800000020, 576, 80, 208, 41, 112, 0,
      736, 0, 121, 0x800000024, 736, 80, 368, 41, 160, 112, 736, 0, 121, 0x800000028, 0, 0, 0, 0, 0,
      0, 25, 0]
    leaf := #[0, 2, 0, 0x60000002d, 0x200001170019, 0, 0x1500000031, 0xf01060019000010,
      0x102170300001102, 0x1f00001102] },
    0x1000, 0x1000, 13, { objects := 12, words := 82 }⟩ }

def answeringMachine : Machine where
  image := answeringImage
  context := .ofAddress ⟨.pointers, 56⟩

theorem answeringObjects_stable : Stable [] answeringObjects := by
  refine .bind (Image.onHeap_stable (Heap.allocatePointers_stable (by simp) _)) fun cls => ?_
  refine .bind (Image.onHeap_stable (Heap.allocatePointers_stable (by simp) _)) fun receiver => ?_
  refine .bind (Image.onHeap_stable (Heap.allocatePointers_stable (by simp) _)) fun theirs => ?_
  refine .bind (Image.onHeap_stable (Heap.allocatePointers_stable (by simp) _)) fun mine => ?_
  refine .bind (Image.onHeap_stable (Heap.allocatePointers_stable (by simp) _)) fun method => ?_
  refine .bind (Image.onHeap_stable (Heap.allocatePointers_stable (by simp) _)) fun block => ?_
  refine .bind (Image.onHeap_stable (Heap.allocatePointers_stable (by simp) _)) fun caller => ?_
  refine .bind (Image.onHeap_stable (Heap.allocatePointers_stable (by simp) _)) fun home => ?_
  refine .bind (Image.onHeap_stable (Heap.allocatePointers_stable (by simp) _)) fun context => ?_
  refine .bind (Image.onHeap_stable (Heap.allocatePointers_stable (by simp) _)) fun stray => ?_
  refine .bind (Image.onHeap_stable (Heap.allocateBytes_stable (by simp) _)) fun methodBytes => ?_
  refine .bind (Image.onHeap_stable (Heap.allocateBytes_stable (by simp) _)) fun blockBytes => ?_
  refine .bind (Image.fillSlots_stable (by simp) _ (by simp)) fun _ => ?_
  refine .bind (Image.fillSlots_stable (by simp) _ (by simp)) fun _ => ?_
  refine .bind (Image.fillSlots_stable (by simp) _ (by simp)) fun _ => ?_
  refine .bind (Image.fillSlots_stable (by simp) _ (by simp)) fun _ => ?_
  refine .bind (Image.fillSlots_stable (by simp) _ (by simp)) fun _ => ?_
  refine .bind (Image.fillSlots_stable (by simp) _ (by simp)) fun _ => ?_
  exact .pure (by simp)

theorem Heap.eq_of_parts {h h' : Heap} (hparts : h.arenas.pointers = h'.arenas.pointers ∧
    h.arenas.leaf = h'.arenas.leaf ∧ h.capacity = h'.capacity ∧ h.limit = h'.limit ∧
    h.nextHash = h'.nextHash ∧ h.stats = h'.stats) : h = h' := by
  obtain ⟨⟨_, _⟩, _, _, _, _⟩ := h
  obtain ⟨⟨_, _⟩, _, _, _, _⟩ := h'
  obtain ⟨rfl, rfl, rfl, rfl, rfl, rfl⟩ := hparts
  rfl

theorem answeringMachine_whole : answeringMachine.image.heap.Whole := by
  have whole := (Machine.poised_intact Machine.blankImage_intact answeringObjects_stable [] 0).whole
  have hparts : let h := (Machine.poised Machine.blankImage answeringObjects [] 0).image.heap
      let h' := answeringMachine.image.heap
      h.arenas.pointers = h'.arenas.pointers ∧ h.arenas.leaf = h'.arenas.leaf ∧
        h.capacity = h'.capacity ∧ h.limit = h'.limit ∧ h.nextHash = h'.nextHash ∧
        h.stats = h'.stats := by
    decide +kernel
  exact Heap.eq_of_parts hparts ▸ whole

abbrev answeringObject (word : Nat) : Value := .ofAddress ⟨.pointers, word⟩

def answeringSlots : List (Nat × List Value) :=
  [(2, [.nil]), (5, []), (7, [.nil]), (10, [.nil]),
    (13, .ofAddress ⟨.leaf, 2⟩ :: .replicate 7 .nil),
    (23, .ofAddress ⟨.leaf, 5⟩ :: .replicate 10 .nil),
    (36, [.nil, answeringObject 5, answeringObject 13, .ofNat 5, .nil, .nil,
      answeringObject 36, .nil]),
    (46, [answeringObject 36, answeringObject 5, answeringObject 13, .ofNat 5,
      answeringObject 7, .nil, answeringObject 46, .nil]),
    (56, [answeringObject 46, answeringObject 5, answeringObject 23, .ofNat 5,
      answeringObject 10, answeringObject 7, answeringObject 46, .nil]),
    (66, [.nil, .nil, .nil, .nil, .nil, .nil, .ofNat 3, .nil])]

def answeringSlot? (word index : Nat) : Option Value :=
  (answeringSlots.lookup word).bind (·[index]?)

def answeringClasses : List (Nat × KernelClass) :=
  [(7, .array), (10, .array), (13, .method), (23, .block), (36, .context), (46, .context),
    (56, .context), (66, .context)]

theorem answering_evaluated :
    answeringMachine.image.heap.arenas.starts .pointers = .ok (answeringSlots.map Prod.fst) ∧
    (∀ row ∈ answeringSlots, 0 < row.1 ∧ row.1 < addressLimit) ∧
    (∀ row ∈ answeringSlots, ∀ e ∈ row.2.zipIdx,
      answeringMachine.image.heap.slot (answeringObject row.1) e.2 = .ok e.1) ∧
    (∀ row ∈ answeringClasses, (answeringSlot? row.1 0).isSome ∧
      (answeringObject row.1).isReference = true ∧
      answeringMachine.image.classOf (answeringObject row.1) =
        .ok (answeringMachine.image.kernelClass row.2)) ∧
    answeringMachine.image.classOf (answeringObject 5) = .ok (answeringObject 2) ∧
    answeringMachine.image.classOf (answeringObject 2) ≠
      .ok (answeringMachine.image.kernelClass .array) ∧
    answeringMachine.image.heap.Spells (.ofAddress ⟨.leaf, 2⟩) #[25, 0, 23, 1, 0, 32] ∧
    answeringMachine.image.heap.Spells (.ofAddress ⟨.leaf, 5⟩)
      #[16, 0, 0, 25, 0, 6, 1, 15, 2, 17, 0, 0, 3, 23, 2, 1, 2, 17, 0, 0, 31] ∧
    ∀ k ∈ KernelClass.all, (answeringMachine.image.kernelClass k).toNat? = some k.index := by
  refine ⟨?_, ?_, ?_, ?_, ?_, ?_, ⟨⟨2, ?_⟩, ?_⟩, ⟨⟨5, ?_⟩, ?_⟩, ?_⟩ <;> decide +kernel

theorem answeringMachine_kinds : Function.Injective answeringMachine.image.kernelClass := by
  obtain ⟨-, -, -, -, -, -, -, -, hindex⟩ := answering_evaluated
  exact Image.kinds_of_indices hindex

theorem answering_holds {word index : Nat} {x : Value}
    (hslot : answeringSlot? word index = some x) :
    answeringMachine.image.heap.Holds ⟨answeringObject word, index⟩ x := by
  obtain ⟨hstarts, hbounds, hslots, -⟩ := answering_evaluated
  obtain ⟨slots, hrow, hindex⟩ := Option.bind_eq_some_iff.mp hslot
  obtain ⟨before, after, heq, -⟩ := List.lookup_eq_some_iff.mp hrow
  have hmem : (word, slots) ∈ answeringSlots := heq ▸ List.mem_append_right _ List.mem_cons_self
  exact ⟨.inr (.inr ⟨_, Value.address?_ofAddress (hbounds _ hmem).2 (hbounds _ hmem).1, _, hstarts,
    List.mem_map_of_mem hmem⟩), hslots _ hmem (x, index) (List.mem_zipIdx_iff_getElem?.mpr hindex)⟩

theorem answering_instance {word : Nat} {k : KernelClass}
    (hclass : answeringClasses.lookup word = some k) :
    answeringMachine.image.Instance k (answeringObject word) := by
  obtain ⟨-, -, -, hclasses, -⟩ := answering_evaluated
  obtain ⟨before, after, heq, -⟩ := List.lookup_eq_some_iff.mp hclass
  obtain ⟨hslot, hreference, hkind⟩ :=
    hclasses (word, k) (heq ▸ List.mem_append_right _ List.mem_cons_self)
  obtain ⟨x, hx⟩ := Option.isSome_iff_exists.mp hslot
  exact ⟨(answering_holds hx).sane, hreference, hkind⟩

def answeringFrames : List StackFrame :=
  [⟨answeringObject 56, answeringObject 23, answeringObject 10, answeringObject 7, [(0, 0)]⟩,
    ⟨answeringObject 46, answeringObject 13, answeringObject 7, .nil, []⟩,
    ⟨answeringObject 36, answeringObject 13, .nil, .nil, []⟩]

theorem answering_named : answeringMachine.image.Named (answeringObject 5) (answeringObject 2) := by
  obtain ⟨-, -, -, -, hclass, hplain, -⟩ := answering_evaluated
  have hreceiver : answeringMachine.image.heap.Holds ⟨answeringObject 36, Slot.Context.receiver⟩
      (answeringObject 5) := answering_holds rfl
  exact ⟨hreceiver.value_sane answeringMachine_whole, hclass, ⟨.nil, answering_holds rfl, .inl rfl⟩,
    fun harray => hplain harray.classOf⟩

theorem answering_array (word : Nat) (hword : word ∈ [7, 10]) :
    answeringMachine.image.Instance .array (answeringObject word) ∧
      answeringMachine.image.heap.Room (answeringObject word) 1 := by
  have hrows : answeringClasses.lookup word = some .array ∧ answeringSlot? word 0 = some .nil := by
    simp only [List.mem_cons, List.not_mem_nil, or_false] at hword
    rcases hword with rfl | rfl <;> exact ⟨rfl, rfl⟩
  refine ⟨answering_instance hrows.1, fun k hk => ?_⟩
  obtain rfl : k = 0 := by omega
  exact ⟨_, answering_holds hrows.2⟩

theorem answering_activates (word : Nat) {mine : Value} (hword : word ∈ [36, 46])
    (hmine : answeringSlot? word Slot.Context.heapVars = some mine)
    (harray : mine = .nil ∨ answeringMachine.image.Instance .array mine) :
    answeringMachine.image.Activates
      ⟨answeringObject word, answeringObject 13, mine, .nil, []⟩ := by
  obtain ⟨-, -, -, -, -, -, hspells, -⟩ := answering_evaluated
  obtain ⟨-, -, -, -, -, hcode, -⟩ := answering_compiled
  have hrows : answeringClasses.lookup word = some .context ∧
      answeringSlot? word Slot.Context.receiver = some (answeringObject 5) ∧
      answeringSlot? word Slot.Context.method = some (answeringObject 13) ∧
      answeringSlot? word Slot.Context.pc = some (.ofNat 5) ∧
      answeringSlot? word Slot.Context.parentHeapVars = some .nil := by
    simp only [List.mem_cons, List.not_mem_nil, or_false] at hword
    rcases hword with rfl | rfl <;> exact ⟨rfl, rfl, rfl, rfl, rfl⟩
  obtain ⟨hclass, hreceiver, hmethod, hpc, htheirs⟩ := hrows
  exact {
    context := answering_instance hclass
    pc := ⟨_, answering_holds hpc⟩
    receiver := ⟨_, _, answering_holds hreceiver, answering_named⟩
    code := answering_holds hmethod
    mine := answering_holds hmine
    theirs := answering_holds htheirs
    arrays := List.forall_mem_cons.mpr ⟨harray, List.forall_mem_singleton.mpr (.inl rfl)⟩
    selector := ⟨.nil, answering_holds rfl, .inl rfl⟩
    literals := ⟨.nil, answering_holds rfl⟩
    bytecode := ⟨_, answeringCode, answering_holds rfl, hcode ▸ hspells,
      .method answeringCode_runnable (answering_instance rfl) rfl⟩ }

theorem answering_activates_block : answeringMachine.image.Activates
    ⟨answeringObject 56, answeringObject 23, answeringObject 10, answeringObject 7, [(0, 0)]⟩ := by
  obtain ⟨-, -, -, -, -, -, -, hspells, -⟩ := answering_evaluated
  obtain ⟨-, -, -, hvars, hchained, -, hcode⟩ := answering_compiled
  obtain ⟨harray, hroom⟩ := answering_array 10 (by decide)
  obtain ⟨harray', hroom'⟩ := answering_array 7 (by decide)
  exact {
    context := answering_instance rfl
    pc := ⟨_, answering_holds rfl⟩
    receiver := ⟨_, _, answering_holds rfl, answering_named⟩
    code := answering_holds rfl
    mine := answering_holds rfl
    theirs := answering_holds rfl
    arrays := List.forall_mem_cons.mpr ⟨.inr harray, List.forall_mem_singleton.mpr (.inr harray')⟩
    selector := ⟨.nil, answering_holds rfl, .inl rfl⟩
    literals := ⟨.nil, answering_holds rfl⟩
    bytecode := ⟨_, answeringBlock, answering_holds rfl, hcode ▸ hspells,
      .block answeringBlock_runnable (answering_instance rfl) hchained.symm (hvars ▸ hroom)
        hroom'⟩ }

theorem answeringMachine_stack :
    answeringMachine.image.Stack answeringMachine.context answeringFrames := by
  have hhome := answering_activates 46 (by decide) rfl (.inr (answering_array 7 (by decide)).1)
  have hcaller := answering_activates 36 (by decide) rfl (.inl rfl)
  have hlast : answeringMachine.image.heap.Holds ⟨answeringObject 36, Slot.Context.previous⟩ .nil :=
    answering_holds rfl
  have hmiddle : answeringMachine.image.heap.Holds ⟨answeringObject 46, Slot.Context.previous⟩
      (answeringObject 36) := answering_holds rfl
  have hfirst : answeringMachine.image.heap.Holds ⟨answeringObject 56, Slot.Context.previous⟩
      (answeringObject 46) := answering_holds rfl
  exact .cons answering_activates_block hfirst (.cons hhome hmiddle (.cons hcaller hlast .nil))

/-- The block returns from the second activation, and the first one goes on with the value. -/
theorem nonLocalReturn_effect_answering : ∃ heap m',
    Machine.nonLocalReturn (answeringObject 56) (.ofNat 7) answeringMachine = .ok () m' ∧
      m'.image.heap = heap ∧ m'.context = answeringObject 36 ∧ m'.pc = 5 ∧
      m'.accumulator = .ofNat 7 ∧
      heap.Holds ⟨answeringObject 56, Slot.Context.pc⟩ .nil ∧
      heap.Holds ⟨answeringObject 46, Slot.Context.pc⟩ .nil ∧
      heap.Holds ⟨answeringObject 36, Slot.Context.pc⟩ (.ofNat 5) := by
  have hsource := answering_activates_block.context
  have hcaller : answeringMachine.image.heap.Holds ⟨answeringObject 36, Slot.Context.pc⟩
      (.ofNat 5) := answering_holds rfl
  have hpc : answeringMachine.image.heap.Holds ⟨answeringObject 46, Slot.Context.pc⟩ (.ofNat 5) :=
    answering_holds rfl
  have hhome : answeringMachine.image.heap.Holds ⟨answeringObject 56, Slot.Context.home⟩
      (answeringObject 46) := answering_holds rfl
  have hprevious : answeringMachine.image.heap.Holds ⟨answeringObject 46, Slot.Context.previous⟩
      (answeringObject 36) := answering_holds rfl
  obtain ⟨-, heffect⟩ := Machine.nonLocalReturn_effect (.ofNat 7) answeringMachine_whole
    answeringMachine_kinds answeringMachine_stack hsource.sane
    fun _ => ⟨_, hhome, .inr ⟨_, hpc⟩⟩
  obtain ⟨caller, heap, hread, hunwound, -, -, hgo⟩ := (heffect _ hsource hhome).2
    [⟨answeringObject 56, answeringObject 23, answeringObject 10, answeringObject 7, [(0, 0)]⟩]
    ⟨answeringObject 46, answeringObject 13, answeringObject 7, .nil, []⟩ _ rfl rfl
    fun hdead => absurd (hpc.unique hdead) (by decide)
  obtain rfl := hprevious.unique hread
  obtain ⟨m', heq, hworld, hcontext, -, hposition, haccumulator, -⟩ := hgo _ hcaller (by decide)
  have himage := congrArg (fun w : World => w.image.heap) hworld
  refine ⟨heap, m', heq, himage, hcontext, hposition.trans (by decide), haccumulator,
    hunwound.ended _ (.head _), hunwound.ended _ (.tail _ (.head _)),
    hunwound.contexts _ _ ?_ (by decide) hcaller⟩
  exact (answeringMachine_stack.activates _ (.tail _ (.tail _ (.head _)))).context

/-- A context whose home is an integer, which is on no stack. The return is neither carried out nor
given up: it breaks a rule of the memory. -/
theorem stray_faults : answeringMachine.image.Stack answeringMachine.context answeringFrames ∧
    answeringMachine.image.Instance .context (answeringObject 66) ∧
    answeringMachine.image.heap.Holds ⟨answeringObject 66, Slot.Context.home⟩ (.ofNat 3) ∧
    .ofNat 3 ∉ answeringFrames.map StackFrame.context ∧
    ∃ fault m', Machine.nonLocalReturn (answeringObject 66) (.ofNat 7) answeringMachine =
      .error (.fault fault) m' := by
  have hhome : answeringMachine.image.heap.Holds ⟨answeringObject 66, Slot.Context.home⟩
      (.ofNat 3) := answering_holds rfl
  have hsource : answeringMachine.image.Instance .context (answeringObject 66) :=
    answering_instance rfl
  have hfaults : (match Machine.nonLocalReturn (answeringObject 66) (.ofNat 7) answeringMachine with
    | .error (.fault _) _ => true
    | _ => false) = true := by decide +kernel
  refine ⟨answeringMachine_stack, hsource, hhome, by decide, ?_⟩
  split at hfaults
  · exact ⟨_, _, ‹_›⟩
  · cases hfaults

end ObjectMachine
