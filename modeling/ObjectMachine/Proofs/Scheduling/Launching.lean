import ObjectMachine.Proofs.Image.Completing
import ObjectMachine.Proofs.Machine.Activating
import ObjectMachine.Proofs.Scheduling.Answering

namespace ObjectMachine

namespace Part

/-- What an activation of some code is made of. -/
def context (s : CodeShape) : List Part :=
  [.slots (Slot.Context.registers + (1 + s.args + s.temps + s.stack))] ++
    if s.heapVars > 0 then [.slots s.heapVars] else []

def process (s : CodeShape) (name : String) : List Part :=
  context s ++ [symbol name, .slots Slot.Process.count]

theorem context_fits (s : CodeShape) : (context s).findSome? misfit? = none :=
  findSome?_misfit_eq_none.mpr fun n hn => by
    rw [context] at hn
    split at hn <;> simp at hn

end Part

/-- The last process of a queue, if there is one, can be told of its successor. -/
def Queue.Extensible (q : Queue) (h : Heap) : Prop :=
  q.tail.isNil ∨ ∃ xs, h.Row q.tail 0 xs ∧ xs.length = Slot.Process.count

theorem Queue.Extensible.later {q : Queue} {h h' : Heap} (hq : q.Extensible h)
    (he : Heap.Extends (fun _ => False) h h') : q.Extensible h' :=
  hq.imp id fun ⟨xs, hrow, hlength⟩ => ⟨xs, he.row hrow fun _ _ => id, hlength⟩

/-- Code without constants is the same wherever its object is left alone. -/
theorem Heap.Builds.embodies_plain {written : Cell → Prop} {h h' : Heap} {v : Value}
    {t : CodeTemplate} (hb : Heap.Builds written h h') (hfree : ∀ k, ¬written ⟨v, k⟩)
    (he : h.Embodies v t []) : h'.Embodies v t [] where
  bytecode := he.bytecode.imp fun _ hbytes => ⟨hb.kept (hfree _) hbytes.1, hb.spells hbytes.2⟩
  literals := he.literals.imp fun _ htable => ⟨hb.kept (hfree _) htable.1, Heap.row_nil⟩
  args := hb.kept (hfree _) he.args
  temps := hb.kept (hfree _) he.temps
  heapVars := hb.kept (hfree _) he.heapVars
  stack := hb.kept (hfree _) he.stack

namespace Image

variable {i i' : Image} {code receiver previous parent v x : Value} {args : List Value}
  {home : Option Value} {shape : CodeShape} {n k : Nat}

/-- A slot that is there can be set. -/
theorem setSlot_row {xs : List Value} (hi : Intact i) (hs : i.Spelled) (hrow : i.heap.Row v 0 xs)
    (hk : k < xs.length) (hx : Sane i x) : ∃ i', onHeap (Heap.setSlot v k x) i = .ok () i' ∧
      i.heap.Takes [] i'.heap ∧ Enlarges (fun c => c.object = v) i i' ∧
      i'.heap.Row v 0 (xs.set k x) := by
  have hwhole : i.heap.Whole := hi.whole
  have hy := hrow.get (List.getElem?_eq_getElem hk)
  rw [Nat.zero_add] at hy
  obtain ⟨_, i', heq, htakes⟩ := setSlot_completes hi hy hx fun id => hwhole.sound.fits id
  obtain ⟨he, hheld⟩ := setSlot_enlarges hi hs hy.sane hx heq
  refine ⟨i', heq, htakes, he.mono fun c _ hc => hc ▸ rfl, fun j z hz => ?_⟩
  rw [Nat.zero_add]
  by_cases hj : k = j
  · subst hj
    rw [List.getElem?_set_self hk] at hz
    exact Option.some.inj hz ▸ hheld
  · rw [List.getElem?_set_ne hj] at hz
    have hold := hrow.get hz
    rw [Nat.zero_add] at hold
    exact he.heap.kept (fun heq => hj (congrArg Cell.index heq).symm) hold

theorem newString_completes (hi : Intact i) (text : String) :
    Completes [Part.symbol text] i (newString text i) :=
  .get (allocateBytes_completes hi _ _)

/-- Where there is room for its registers, code can be activated. -/
theorem newContext_completes (hi : Intact i) (hs : i.Spelled)
    (hshape : i.heap.codeShape code = .ok shape)
    (hsane : ∀ v ∈ code :: receiver :: previous :: parent :: (home.toList ++ args), Sane i v) :
    Completes (Part.context shape) i (newContext code receiver args previous parent home i) := by
  simp only [List.forall_mem_cons, List.forall_mem_append] at hsane
  obtain ⟨hcode, hreceiver, hprevious, hparent, hhome, hargs⟩ := hsane
  rw [Part.context]
  refine .query hshape
    (.get ((allocatePointers_completes hi _ _).bind fun ctx i₁ hmade hroom => ?_))
  obtain ⟨he₁, hfresh, -, hslots⟩ :=
    allocatePointers_enlarges hi hs (kernelClass_sane hi .context) hmade
  have hwhole : i.heap.Whole := hi.whole
  rw [Nat.mod_eq_of_lt (hwhole.count_lt hroom)] at hslots
  have hspans : i₁.heap.Spans ctx (Slot.Context.registers +
      (1 + shape.args + shape.temps + shape.stack)) := fun k hk => ⟨_, hslots k hk⟩
  -- The slots are filled in the same way whatever the heap variables are.
  have hfill : ∀ {i₂ vars}, Enlarges (fun _ => False) i₁ i₂ → Sane i₂ vars →
      Completes [] i₂ ((do
        fillSlots ctx 0
          [previous, receiver, code, .ofNat 0, vars, parent, home.getD ctx, receiver]
        fillSlots ctx (Slot.Context.registers + 1) (args.take shape.args)
        return ctx : ImageAction Value) i₂) := by
    intro i₂ vars he₂ hvars
    have hlater : ∀ {v}, Sane i v → Sane i₂ v := fun hv => he₂.sane (he₁.sane hv)
    have hspans₂ := he₂.heap.spans hspans
    have hctx := he₂.sane hfresh.sane
    have hhome' : Sane i₂ (home.getD ctx) := by
      cases home with
      | none => exact hctx
      | some home => exact hlater (hhome home (by simp))
    have hfields : ∀ v ∈ [previous, receiver, code, .ofNat 0, vars, parent, home.getD ctx,
        receiver], Sane i₂ v := by
      simp only [List.forall_mem_cons]
      exact ⟨hlater hprevious, hlater hreceiver, hlater hcode, .inr (.inl (by simp)), hvars,
        hlater hparent, hhome', hlater hreceiver, List.forall_mem_nil _⟩
    refine (fillSlots_completes he₂.intact he₂.spelled hctx (fun j hj => ?_) hfields).before
      fun _ i₃ hfilled => ?_
    · refine hspans₂ _ (Nat.zero_add j ▸ ?_)
      simp only [List.length_cons, List.length_nil, Slot.Context.registers] at hj ⊢
      omega
    · obtain ⟨he₃, -⟩ := fillSlots_enlarges he₂.intact he₂.spelled hctx hfields hfilled
      refine .map _ (fillSlots_completes he₃.intact he₃.spelled (he₃.sane hctx) (fun j hj => ?_)
        fun v hv => he₃.sane (hlater (hargs v (List.mem_of_mem_take hv))))
      have := List.length_take_le shape.args args
      exact he₃.heap.spans hspans₂ _ (by simp only [Slot.Context.registers]; omega)
  by_cases hvars : shape.heapVars > 0
  · rw [if_pos hvars, if_pos hvars]
    refine (allocatePointers_completes he₁.intact _ _).before fun vars i₂ hmade => ?_
    obtain ⟨he₂, hfresh₂, -⟩ := allocatePointers_enlarges he₁.intact he₁.spelled
      (he₁.sane (kernelClass_sane hi .array)) hmade
    exact hfill he₂ hfresh₂.sane
  · rw [if_neg hvars, if_neg hvars]
    exact hfill (.refl he₁.intact he₁.spelled) (Arenas.sane_nil _)

/-- A process that is in no list can be appended to one whose last process is still there. -/
theorem enqueue_affords {q : Queue} {p : Value} (hi : Intact i) (hs : i.Spelled)
    (hp : i.heap.Holds ⟨p, Slot.Process.link⟩ .nil) (hne : p ≠ q.tail)
    (hend : q.Extensible i.heap) :
    ∃ i', onHeap (q.enqueue p) i = .ok ⟨if q.tail.isNil then p else q.head, p⟩ i' ∧
      i.heap.Takes [] i'.heap ∧ Enlarges (fun c => ¬q.tail.isNil ∧ c.object = q.tail) i i' := by
  have hlink : (Action.query (·.slot p Slot.Process.link) : Action HeapError Heap Value) i.heap =
      .ok .nil i.heap := query_of_eq_ok hp.slot
  have hcheck : (!Value.isNil .nil || p == q.tail) = false := by
    simpa [Value.isNil, Value.nil] using hne
  by_cases hempty : q.tail.isNil
  · refine ⟨i, onHeap_eq_ok.mpr ⟨i.heap, ?_, rfl⟩, .refl _, .refl hi hs⟩
    rw [Queue.enqueue, bind_of_eq_ok hlink, hcheck, if_pos hempty, if_pos hempty]
    rfl
  · obtain ⟨xs, hrow, hlength⟩ := hend.resolve_left hempty
    have hsane : Sane i p := hp.sane
    obtain ⟨i', hset, htakes, he, -⟩ := setSlot_row (k := Slot.Process.link) hi hs hrow
      (hlength ▸ by decide) hsane
    obtain ⟨heap, hwritten, rfl⟩ := onHeap_eq_ok.mp hset
    refine ⟨_, onHeap_eq_ok.mpr ⟨heap, ?_, rfl⟩, htakes, he.mono fun _ _ hc => ⟨hempty, hc⟩⟩
    rw [Queue.enqueue, bind_of_eq_ok hlink, hcheck, if_neg hempty, if_neg hempty]
    exact bind_of_eq_ok hwritten

/-- Where there is room for it, a process is made, ready to run after all others. -/
theorem spawn_affords {s : Schedule} {context name : Value} (hi : Intact i)
    (hs : i.Spelled) (hcontext : Sane i context) (hname : Sane i name)
    (htail : Sane i s.runnable.tail) (hend : s.runnable.Extensible i.heap)
    (hroom : i.heap.Affords [.slots Slot.Process.count]) :
    ∃ p i', s.spawn context name i = .ok (p, { s with
        runnable := ⟨if s.runnable.tail.isNil then p else s.runnable.head, p⟩
        spawned := s.spawned + 1 }) i' ∧
      i.heap.Takes [.slots Slot.Process.count] i'.heap ∧
      Enlarges (fun c => ¬s.runnable.tail.isNil ∧ c.object = s.runnable.tail) i i' ∧ ¬Sane i p ∧
      i'.heap.Row p 0 [.ofNat (s.spawned + 1), name, .nil, context, .nil,
        ProcessState.runnable.toValue] := by
  have hint : ∀ {i : Image} n, Sane i (.ofNat n) := fun n => .inr (.inl (by simp))
  obtain ⟨p, i₁, hmade, ht₁⟩ :=
    allocatePointers_completes hi (i.kernelClass .process) Slot.Process.count hroom
  obtain ⟨he₁, hfresh, -, hslots⟩ :=
    allocatePointers_enlarges hi hs (kernelClass_sane hi .process) hmade
  have hrow₁ : i₁.heap.Row p 0 (List.replicate Slot.Process.count .nil) := fun k y hy => by
    obtain ⟨hk, rfl⟩ := List.getElem?_eq_some_iff.mp hy
    rw [List.length_replicate] at hk
    rw [Nat.zero_add, List.getElem_replicate]
    exact hslots k hk
  obtain ⟨i₂, hset₂, ht₂, he₂, hrow₂⟩ := setSlot_row he₁.intact he₁.spelled hrow₁
    (k := Slot.Process.id) (by simp) (hint (s.spawned + 1))
  obtain ⟨i₃, hset₃, ht₃, he₃, hrow₃⟩ := setSlot_row he₂.intact he₂.spelled hrow₂
    (k := Slot.Process.name) (by simp +decide) (he₂.sane (he₁.sane hname))
  obtain ⟨i₄, hset₄, ht₄, he₄, hrow₄⟩ := setSlot_row he₃.intact he₃.spelled hrow₃
    (k := Slot.Process.context) (by simp +decide) (he₃.sane (he₂.sane (he₁.sane hcontext)))
  obtain ⟨i₅, hset₅, ht₅, he₅, hrow₅⟩ := setSlot_row he₄.intact he₄.spelled hrow₄
    (k := Slot.Process.state) (x := ProcessState.runnable.toValue) (by simp) (hint 0)
  have he : Enlarges (fun _ => False) i i₅ :=
    (((((he₁.mono fun _ _ => False.elim).trans he₂).trans he₃).trans he₄).trans he₅).mono
      fun c hc heq => hfresh.new (heq ▸ hc)
  obtain ⟨i₆, henqueue, ht₆, he₆⟩ := enqueue_affords (q := s.runnable) (p := p) he₅.intact
    he₅.spelled (hrow₅.get (k := 2) rfl) (fun heq => hfresh.new (heq ▸ htail))
    (hend.later he.heap.toExtends)
  refine ⟨p, i₆, ?_, ((((ht₁.then ht₂).then ht₃).then ht₄).then ht₅).then ht₆,
    (he.mono fun _ _ => False.elim).trans he₆, hfresh.new,
    he₆.heap.row hrow₅ fun _ _ ⟨_, (heq : p = _)⟩ => hfresh.new (heq ▸ htail)⟩
  refine (bind_of_eq_ok rfl).trans ?_
  rw [bind_of_eq_ok hmade, bind_of_eq_ok hset₂, bind_of_eq_ok hset₃,
    bind_of_eq_ok hset₄, bind_of_eq_ok hset₅, bind_of_eq_ok henqueue]
  rfl

/-- A string as such, in which a process finds its name. -/
structure IsText (i : Image) (v : Value) : Prop where
  sane : Sane i v
  isa : i.heap.isa v = .ok (i.kernelClass .string)
  spells : ∃ text, i.heap.Spells v (Text.toBytes text)

theorem IsText.later {written : Cell → Prop} (h : i.IsText v) (ha : Adds written i i') :
    i'.IsText v :=
  ⟨ha.sane h.sane, by rw [ha.isa_eq h.sane, h.isa, ha.kernelClass],
    h.spells.imp fun _ => ha.heap.spells⟩

/-- A string as such can always be read. -/
theorem IsText.text? (h : i.IsText v) : ∃ name?, i.text? v = .ok name? := by
  obtain ⟨text, hspells⟩ := h.spells
  obtain ⟨⟨word, hloc⟩, -⟩ := id hspells
  have hreference : v.isReference := Value.isReference_iff.mpr ⟨_, hloc⟩
  have hinteger : ¬v.isInteger := by
    intro hint
    simp only [Value.isReference, Value.isInteger, Bool.and_eq_true, beq_iff_eq] at hreference hint
    exact absurd (hreference.2.symm.trans hint) (by decide)
  have hkind : ∃ b, i.isKindOf v (i.kernelClass .string) = .ok b := by
    rw [isKindOf, classOf, if_neg hinteger, if_neg hspells.not_isNil, h.isa]
    simp only [bind, Except.bind, inheritsFrom, Heap.inheritsFrom, if_true]
    split <;> exact ⟨_, rfl⟩
  obtain ⟨b, hkind⟩ := hkind
  simp only [Image.text?, hreference, Bool.not_true, Bool.false_eq_true, if_false, hkind, bind,
    Except.bind, hspells.text, pure, Except.pure]
  split <;> exact ⟨_, rfl⟩

theorem describeProcess_delivers {p number title : Value} {xs : List Value}
    (hrow : i.heap.Row p 0 (number :: title :: xs)) (htitle : i.IsText title) :
    ∃ d, i.describeProcess p = .ok d := by
  obtain ⟨name?, hname?⟩ := htitle.text?
  have hnumber : i.heap.slot p Slot.Process.id = .ok number := (hrow.get (k := 0) rfl).slot
  have hname : i.heap.slot p Slot.Process.name = .ok title := (hrow.get (k := 1) rfl).slot
  simp only [describeProcess, Heap.count, hnumber, hname, hname?, bind, Except.bind, pure,
    Except.pure]
  split <;> exact ⟨_, rfl⟩

/-- A statement list without constants but integers becomes a method. -/
theorem compileDoIt_affords {temps : List String} {body : List Expr} {t : CodeTemplate}
    (ns : List Int) (hi : Intact i) (hs : i.Spelled)
    (ht : (doItMethod temps body).compile [] = .ok t) (hliterals : t.literals = ns.map .integer)
    (hns : ∀ n ∈ ns, Value.Fits n) (hcount : ns.length < 0x100000000)
    (hfits : t.methodParts.findSome? Part.misfit? = none) (hroom : i.heap.Affords t.methodParts) :
    ∃ method i', compileDoIt temps body i = .ok method i' ∧
      i.heap.Takes t.methodParts i'.heap ∧ Adds (fun _ => False) i i' ∧ Sane i' method ∧
      i'.heap.Embodies method t (ns.map .wrapInt) := by
  obtain ⟨method, i', heq, htakes⟩ := (compileDoIt_completes hi hs ht).delivers hfits hroom
  have hload : load t (i.kernelClass .undefinedObject) i = .ok method i' := by
    rw [compileDoIt, ht] at heq
    exact heq
  obtain ⟨ha, hsane⟩ := Adds.of_ok (fun _ => False) [i.kernelClass .undefinedObject]
    (load_adds t (by simp)) hi hs (by simpa using kernelClass_sane hi .undefinedObject) hload
  have hwhole : i.heap.Whole := hi.whole
  have hwhole' : i'.heap.Whole := ha.intact.whole
  obtain ⟨_, _, -, -, -, hbears, -⟩ := load_bears hwhole.sound hliterals hns hcount hload
  exact ⟨method, i', heq, htakes, ha, hsane method (by simp), hbears.embodies hwhole'⟩

end Image

namespace World

variable {w : World} {method receiver : Value} {t : CodeTemplate} {constants : List Value}
  {name : String}

theorem onSchedule_of_eq_ok {α : Type} {act : Schedule → ImageAction (α × Schedule)} {a : α}
    {schedule : Schedule} {image : Image}
    (heq : act w.schedule w.image = .ok (a, schedule) image) :
    onSchedule act w = .ok a { w with image, schedule } := by
  refine (bind_of_eq_ok rfl).trans ?_
  rw [bind_of_eq_ok (onImage_eq_ok.mpr ⟨image, heq, rfl⟩)]
  rfl

/-- A process was made that stands at the beginning of a method. -/
structure Launches (w : World) (method receiver p ctx : Value) (idle : Nat) (w' : World) :
    Prop where
  adds : Image.Adds
    (fun c => ¬w.schedule.runnable.tail.isNil ∧ c.object = w.schedule.runnable.tail)
    w.image w'.image
  schedule : w'.schedule = { w.schedule with
    runnable := ⟨if w.schedule.runnable.tail.isNil then p else w.schedule.runnable.head, p⟩
    spawned := w.schedule.spawned + 1 }
  interrupts : w'.interrupts = w.interrupts
  process : ∃ number title, w'.image.IsText title ∧ w'.image.heap.Row p 0
    [number, title, .nil, ctx, .nil, ProcessState.runnable.toValue]
  fields : w'.image.heap.Row ctx 0 [.nil, receiver, method, .ofNat 0]
  registers : w'.image.heap.Row ctx Slot.Context.registers (receiver :: List.replicate idle .nil)

/-- Where there is room for it, a process is made for any method that takes no arguments. -/
theorem spawnMethod_affords (hw : Intact w) (hs : w.image.Spelled)
    (hcode : w.image.heap.Embodies method t constants) (hargs : t.args = 0)
    (hsmall : t.args + t.temps + t.heapVars + t.stack < 0x10000000)
    (hmethod : Sane w.image method) (hreceiver : Sane w.image receiver)
    (hend : w.schedule.runnable.Extensible w.image.heap)
    (hroom : w.image.heap.Affords (Part.process ⟨t.args, t.temps, t.heapVars, t.stack⟩ name)) :
    ∃ id w', spawnMethod method receiver name w = .ok id w' ∧
      w.image.heap.Takes (Part.process ⟨t.args, t.temps, t.heapVars, t.stack⟩ name)
        w'.image.heap ∧
      ∃ p ctx, w.Launches method receiver p ctx (t.temps + t.stack) w' := by
  have hi : Intact w.image := image_intact hw
  have htail : Sane w.image w.schedule.runnable.tail :=
    hw.held _ (List.mem_append_right _ (by simp [Schedule.roots]))
  have hnil : Sane w.image .nil := Arenas.sane_nil _
  have hcompletes : Image.Completes (Part.context ⟨t.args, t.temps, t.heapVars, t.stack⟩) w.image
      (Image.newContext method receiver [] .nil .nil none w.image) :=
    Image.newContext_completes hi hs (hcode.codeShape (by omega))
      (by simp [hmethod, hreceiver, hnil])
  obtain ⟨ctx, i₁, hnew, ht₁⟩ := hcompletes.delivers (Part.context_fits _) hroom.of_append
  obtain ⟨heap, rfl, hbuilds, hfresh, hfields, hregisters⟩ : ∃ heap, i₁ = { w.image with heap } ∧
      w.image.heap.Builds (fun _ => False) heap ∧ ¬Sane w.image ctx ∧
      heap.Row ctx 0 [.nil, receiver, method, .ofNat 0] ∧
      heap.Row ctx Slot.Context.registers
        (receiver :: [] ++ List.replicate (t.temps + t.stack) .nil) := by
    have hnone : ([] : List Value).length = t.args := hargs.symm
    rcases Image.newContext_ends hi hcode hsmall hnone
      (by simp [hmethod, hreceiver, hnil] : ∀ v ∈ [.nil, receiver, method, .nil], Sane w.image v)
      (by simp : ∀ v ∈ (none : Option Value), Sane w.image v) with
      ⟨e, i', hfails⟩ | ⟨ctx', heap, hmade, hbuilds, hfresh, -, hfields, hregisters⟩
    · cases hnew.symm.trans hfails
    · cases hnew.symm.trans hmade
      exact ⟨heap, rfl, hbuilds, hfresh, hfields, hregisters⟩
  have ha₁ : Image.Adds (fun _ => False) w.image { w.image with heap } :=
    ⟨⟨hbuilds.whole, fun v hv => hbuilds.grows _ (hi.held v hv)⟩,
      fun hname => hbuilds.spells (hs hname), hbuilds, rfl, id⟩
  obtain ⟨title, i₂, hstring, ht₂⟩ := (Image.newString_completes ha₁.intact name).delivers rfl
    (ht₁.affords hroom).of_append
  obtain ⟨he₂, hfresh₂, hspells⟩ := Image.allocateBytes_enlarges ha₁.intact ha₁.spelled
    (Image.kernelClass_sane ha₁.intact .string) hstring
  have ha₂ := ha₁.trans he₂.toAdds
  have hctx : Sane i₂ ctx := he₂.sane (hfields.get (k := 0) rfl).sane
  have hrest : heap.Affords ([Part.symbol name] ++ [.slots Slot.Process.count]) :=
    ht₁.affords hroom
  obtain ⟨p, i₃, hspawn, ht₃, he₃, hfresh₃, hrow⟩ := Image.spawn_affords (s := w.schedule)
    ha₂.intact ha₂.spelled hctx hfresh₂.sane (ha₂.sane htail)
    (hend.later ha₂.heap.toExtends) (ht₂.affords hrest)
  have ha := (ha₂.mono fun _ _ => False.elim).trans he₃.toAdds
  have htitle : i₃.IsText title :=
    .later ⟨hfresh₂.sane, hfresh₂.isa.trans (congrArg _ (he₂.kernelClass _).symm), name, hspells⟩
      he₃.toAdds
  obtain ⟨⟨number, name'⟩, hdescribe⟩ := Image.describeProcess_delivers hrow htitle
  have hother : ctx ≠ w.schedule.runnable.tail := fun heq => hfresh (heq ▸ htail)
  have hlater : ∀ {k xs}, heap.Row ctx k xs → i₃.heap.Row ctx k xs := fun hrow =>
    he₃.heap.row (he₂.heap.row hrow fun _ _ => id) fun _ _ hc => hother hc.2
  let schedule : Schedule := { w.schedule with
    runnable := ⟨if w.schedule.runnable.tail.isNil then p else w.schedule.runnable.head, p⟩
    spawned := w.schedule.spawned + 1 }
  have hspawned : spawnMethod method receiver name w =
      .ok number { w with image := i₃, schedule := schedule } := by
    rw [spawnMethod, bind_of_eq_ok (onImage_eq_ok.mpr ⟨_, hnew, rfl⟩),
      bind_of_eq_ok (onImage_eq_ok.mpr ⟨_, hstring, rfl⟩),
      bind_of_eq_ok (onSchedule_of_eq_ok hspawn)]
    exact query_bind_eq_ok.mpr ⟨_, hdescribe, rfl⟩
  refine ⟨number, _, hspawned, ?_, p, ctx, ha, rfl, rfl, ⟨_, _, htitle, hrow⟩, hlater hfields,
    hlater hregisters⟩
  have htakes := (ht₁.trans ht₂).trans ht₃
  rwa [List.append_assoc] at htakes

section Running

variable {p ctx number title accumulator state v : Value}

/-- The only process of the queue is taken off it. -/
theorem dequeue_only (hi : Intact w.image) (hs : w.image.Spelled)
    (hqueue : w.schedule.runnable = ⟨p, p⟩)
    (hrow : w.image.heap.Row p 0 [number, title, .nil, ctx, accumulator, state]) :
    ∃ image, dequeue w =
        .ok (some p) { w with image, schedule := { w.schedule with runnable := {} } } ∧
      Image.Enlarges (fun c => c.object = p) w.image image ∧
      image.heap.Row p 0 [number, title, .nil, ctx, accumulator, state] := by
  have hlink : w.image.heap.Holds ⟨p, Slot.Process.link⟩ .nil := hrow.get (k := 2) rfl
  obtain ⟨image, hset, -, he, hrow'⟩ := Image.setSlot_row (k := Slot.Process.link) (x := .nil) hi hs
    hrow (by decide : 2 < 6) (Arenas.sane_nil _)
  obtain ⟨heap, hwritten, rfl⟩ := Image.onHeap_eq_ok.mp hset
  refine ⟨_, onSchedule_of_eq_ok ?_, he, hrow'⟩
  refine bind_eq_ok.mpr ⟨(some p, {}), _, Image.onHeap_eq_ok.mpr ⟨heap, ?_, rfl⟩, rfl⟩
  rw [hqueue, Queue.dequeue, if_neg hlink.not_isNil]
  exact query_bind_eq_ok.mpr ⟨.nil, hlink.slot, bind_of_eq_ok hwritten⟩

theorem dequeue_empty (hqueue : w.schedule.runnable = {}) : dequeue w = .ok none w := by
  obtain ⟨image, ⟨runnable, waiting, current, spawned, finished⟩, interrupts, clock⟩ := w
  obtain rfl : runnable = {} := hqueue
  let schedule : Schedule := ⟨{}, waiting, current, spawned, finished⟩
  exact (onSchedule_of_eq_ok rfl : dequeue ⟨image, schedule, interrupts, clock⟩ =
    .ok none ⟨image, schedule, interrupts, clock⟩)

/-- A process is finished with a result, and told by its name. -/
theorem finish_affords (hi : Intact w.image) (hs : w.image.Spelled)
    (hrow : w.image.heap.Row p 0 [number, title, .nil, ctx, accumulator, state])
    (htitle : w.image.IsText title) (hv : Sane w.image v) :
    ∃ image id name, finish p v w = .ok () { w with image, schedule :=
      { w.schedule with finished := w.schedule.finished.push ⟨id, name, v⟩ } } := by
  obtain ⟨i₁, hset₁, -, he₁, hrow₁⟩ := Image.setSlot_row (k := Slot.Process.state)
    (x := ProcessState.done.toValue) hi hs hrow (by decide : 5 < 6)
    (.inr (.inl (Value.isInteger_ofNat 2)))
  obtain ⟨i₂, hset₂, -, he₂, hrow₂⟩ := Image.setSlot_row (k := Slot.Process.context) (x := .nil)
    he₁.intact he₁.spelled hrow₁ (by decide : 3 < 6) (Arenas.sane_nil _)
  obtain ⟨i₃, hset₃, -, he₃, hrow₃⟩ := Image.setSlot_row (k := Slot.Process.accumulator)
    he₂.intact he₂.spelled hrow₂ (by decide : 4 < 6) (he₂.sane (he₁.sane hv))
  obtain ⟨⟨id, name⟩, hdescribe⟩ := Image.describeProcess_delivers hrow₃
    (htitle.later ((he₁.toAdds.trans he₂.toAdds).trans he₃.toAdds))
  refine ⟨i₃, id, name, bind_eq_ok.mpr ⟨(), _, onImage_eq_ok.mpr ⟨i₁, hset₁, rfl⟩, ?_⟩⟩
  refine bind_eq_ok.mpr ⟨(), _, onImage_eq_ok.mpr ⟨i₂, hset₂, rfl⟩, ?_⟩
  refine bind_eq_ok.mpr ⟨(), _, onImage_eq_ok.mpr ⟨i₃, hset₃, rfl⟩, ?_⟩
  exact query_bind_eq_ok.mpr ⟨_, hdescribe, rfl⟩

/-- A machine at the end of a method returns to the scheduler from an outermost context. -/
theorem interpret_returnSelf {method receiver : Value} {constants : List Value} {t : CodeTemplate}
    (hi : Intact w.image) (hs : w.image.Spelled) (hcalm : w.interrupts.pending = false)
    (hprocess : w.image.heap.Row w.schedule.current 0
      [number, title, .nil, ctx, accumulator, state])
    (hfields : w.image.heap.Row ctx 0 [.nil, receiver, method, .ofNat 0])
    (hregister : w.image.heap.Holds ⟨ctx, Slot.Context.registers⟩ receiver)
    (hcode : w.image.heap.Embodies method t constants) (ht : t.bytecode = #[32]) (turns : Nat) :
    ∃ image, interpret .never (turns + 1) w =
        .ok (some (.returned receiver)) { w with image, clock := w.clock + 1 } ∧
      Image.Enlarges (fun c => c.object = ctx) w.image image := by
  obtain ⟨bytes, hbytes, hspells⟩ := hcode.bytecode
  obtain ⟨table, htable, -⟩ := hcode.literals
  have hctx : w.image.heap.slot w.schedule.current Slot.Process.context = .ok ctx :=
    (hprocess.get (k := 3) rfl).slot
  have haccumulator : w.image.heap.slot w.schedule.current Slot.Process.accumulator =
    .ok accumulator := (hprocess.get (k := 4) rfl).slot
  have hmethod : w.image.heap.slot ctx Slot.Context.method = .ok method :=
    (hfields.get (k := 2) rfl).slot
  have hpc : w.image.heap.slot ctx Slot.Context.pc = .ok (.ofNat 0) :=
    (hfields.get (k := 3) rfl).slot
  obtain ⟨cache, hunspill⟩ := Machine.unspill_of_slots (m := .ofWorld w)
    (Machine.refreshed_of_cache rfl) hctx haccumulator hmethod htable.slot hpc hbytes.slot hspells.2
  obtain ⟨image, hset, -, he, hfields'⟩ := Image.setSlot_row (k := Slot.Context.pc) (x := .nil)
    hi hs hfields (by decide : 3 < 4) (Arenas.sane_nil _)
  obtain ⟨heap, hwritten, rfl⟩ := Image.onHeap_eq_ok.mp hset
  have hprevious : heap.slot ctx Slot.Context.previous = .ok .nil :=
    (hfields'.get (k := 0) rfl).slot
  have hdecode : Code.decodeAt t.bytecode 0 = .ok (.returnSelf, 1) := by
    rw [ht]
    rfl
  let m : Machine := { Machine.ofWorld w with
    process := w.schedule.current, context := ctx, accumulator, method, literals := table
    code := t.bytecode, cache, epoch := w.image.heap.stats.collections }
  let m' : Machine := { m with
    image := { w.image with heap }, clock := w.clock + 1, pc := 1, accumulator := receiver
    stop := some (.returned receiver) }
  have hexecute : Machine.execute .returnSelf { m with clock := m.clock + 1, start := 0, pc := 1 } =
      .ok () m' := by
    refine query_bind_eq_ok.mpr ⟨receiver, hregister.slot, bind_eq_ok.mpr ⟨_, _, rfl, ?_⟩⟩
    refine bind_eq_ok.mpr ⟨(), _, Machine.setSlot_of_eq_ok hwritten, ?_⟩
    exact query_bind_eq_ok.mpr ⟨.nil, hprevious, rfl⟩
  have hstep : Machine.step .never m = .ok (some (.returned receiver)) { m' with stop := none } :=
    Machine.step_executed hcalm hdecode hexecute
  have hrun : (do Machine.unspill; Machine.run .never (turns + 1)) (Machine.ofWorld w) =
      .ok (some (.returned receiver)) { m' with stop := none } := by
    rw [bind_of_eq_ok hunspill, Machine.run]
    exact bind_of_eq_ok hstep
  exact ⟨{ w.image with heap }, interpret_of_eq_ok hrun, he⟩

theorem settle_returned (hi : Intact w.image) (hs : w.image.Spelled)
    (hrow : w.image.heap.Row w.schedule.current 0
      [number, title, .nil, ctx, accumulator, state])
    (htitle : w.image.IsText title) (hv : Sane w.image v) :
    ∃ image finished, settle (.returned v) w = .ok w.schedule.current
      { w with image, schedule := { w.schedule with current := .nil, finished } } := by
  let w₁ : World := { w with schedule := { w.schedule with current := .nil } }
  obtain ⟨image, id, name, hfinish⟩ := finish_affords (w := w₁) hi hs hrow htitle hv
  refine ⟨image, w.schedule.finished.push ⟨id, name, v⟩, ?_⟩
  exact bind_eq_ok.mpr ⟨w.schedule.current, w₁, rfl, bind_eq_ok.mpr ⟨(), _, hfinish, rfl⟩⟩

/-- A process alone in the queue that has only to return is run to its end. -/
theorem run_returnSelf {method receiver : Value} {t : CodeTemplate} (hi : Intact w.image)
    (hs : w.image.Spelled) (hcalm : w.interrupts.pending = false)
    (hqueue : w.schedule.runnable = ⟨p, p⟩) (hwaiting : w.schedule.waiting = {})
    (hprocess : w.image.heap.Row p 0 [number, title, .nil, ctx, accumulator, state])
    (htitle : w.image.IsText title)
    (hfields : w.image.heap.Row ctx 0 [.nil, receiver, method, .ofNat 0])
    (hregister : w.image.heap.Holds ⟨ctx, Slot.Context.registers⟩ receiver)
    (hcode : w.image.heap.Embodies method t []) (ht : t.bytecode = #[32]) (fuel : Nat) :
    ∃ w', run .never (fuel + 2) w = .ok (some ()) w' := by
  -- A slot tells the process from its context and from the method.
  have hlink : w.image.heap.Holds ⟨p, 2⟩ .nil := hprocess.get (k := 2) rfl
  have hmethod : w.image.heap.Holds ⟨ctx, 2⟩ method := hfields.get (k := 2) rfl
  obtain ⟨_, hbytes, -⟩ := id hcode.bytecode
  have hctx : ctx ≠ p := by
    rintro rfl
    exact hbytes.not_isNil (hmethod.unique hlink ▸ rfl)
  have hapart : method ≠ p := by
    rintro rfl
    exact Value.ne_nil_of_isInteger (Value.isInteger_ofNat _) (hcode.args.unique hlink)
  obtain ⟨i₁, hdequeue, he₁, hrow₁⟩ := dequeue_only hi hs hqueue hprocess
  let w₁ : World := { w with
    image := i₁, schedule := { w.schedule with runnable := {}, current := p } }
  obtain ⟨i₂, hinterpret, he₂⟩ := interpret_returnSelf (w := w₁) he₁.intact he₁.spelled hcalm hrow₁
    (he₁.heap.row hfields fun _ _ => hctx) (he₁.heap.kept hctx hregister)
    (he₁.heap.embodies_plain (fun _ => hapart) hcode) ht (fuel + 1)
  have hwhole : w.image.heap.Whole := hi.whole
  obtain ⟨i₃, finished, hsettle⟩ := settle_returned
    (w := { w₁ with image := i₂, clock := w.clock + 1 }) he₂.intact he₂.spelled
    (he₂.heap.row hrow₁ fun _ _ => hctx.symm) ((htitle.later he₁.toAdds).later he₂.toAdds)
    (he₂.sane (he₁.sane (hregister.value_sane hwhole)))
  let w₂ : World := { w₁ with
    image := i₃, clock := w.clock + 1, schedule := { w₁.schedule with current := .nil, finished } }
  have hprocess : runProcess .never (fuel + 2) p { w with
      image := i₁, schedule := { w.schedule with runnable := {} } } = .ok (some ()) w₂ := by
    refine bind_eq_ok.mpr ⟨(), w₁, rfl, bind_eq_ok.mpr ⟨some (.returned receiver), _,
      tryCatch_of_eq_ok hinterpret, bind_eq_ok.mpr ⟨p, w₂, hsettle, rfl⟩⟩⟩
  have hcount : countWaiting w₂ = .ok 0 w₂ := by
    refine query_of_eq_ok ?_
    simp only [w₂, w₁, hwaiting]
    rfl
  refine ⟨w₂, bind_eq_ok.mpr ⟨some p, _, hdequeue, bind_eq_ok.mpr ⟨some (), w₂, hprocess, ?_⟩⟩⟩
  exact bind_eq_ok.mpr ⟨none, w₂, dequeue_empty rfl, bind_eq_ok.mpr ⟨0, w₂, hcount, rfl⟩⟩

/-- So is a process just made, if no other was there. -/
theorem Launches.run_returnSelf {w' : World} {method receiver : Value} {t : CodeTemplate}
    {idle : Nat} (hl : w.Launches method receiver p ctx idle w')
    (hqueue : w.schedule.runnable = {}) (hwaiting : w.schedule.waiting = {})
    (hcalm : w.interrupts.pending = false) (hcode : w.image.heap.Embodies method t [])
    (ht : t.bytecode = #[32]) (fuel : Nat) :
    ∃ w'', run .never (fuel + 2) w' = .ok (some ()) w'' := by
  obtain ⟨number, title, htitle, hprocess⟩ := hl.process
  have hempty : w.schedule.runnable.tail.isNil := by rw [hqueue]; rfl
  refine World.run_returnSelf hl.adds.intact hl.adds.spelled (hl.interrupts ▸ hcalm) ?_ ?_ hprocess
    htitle hl.fields (hl.registers.get (k := 0) rfl)
    (hl.adds.heap.embodies_plain (fun _ hc => hc.1 hempty) hcode) ht fuel
  · rw [hl.schedule, if_pos hempty]
  · rw [hl.schedule, hwaiting]

end Running

end World

end ObjectMachine
