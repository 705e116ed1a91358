import ObjectMachine.Proofs.Machine.Footprint

namespace ObjectMachine.Machine

variable {m m' : Machine}

def call? : Instruction → Option (UInt8 × MachineAction (List Value))
  | .primitive0 p => some (p, pure [])
  | .primitive1 p => some (p, withAccumulator [])
  | .primitive2 p reg => some (p, withAccumulator [reg])
  | .primitive3 p reg₁ reg₂ => some (p, withAccumulator [reg₁, reg₂])
  | .primitiveV p first count => some (p, registers (registerRun first count))
  | _ => none

def Calls (m : Machine) (i : Instruction) (prim : Primitive) (args : List Value) : Prop :=
  ∃ index act, call? i = some (index, act) ∧ Primitive.ofIndex? index.toNat = some prim ∧
    act m = .ok args m

theorem Calls.sane {i : Instruction} {prim : Primitive} {args : List Value} (hm : Intact m)
    (hcalls : m.Calls i prim args) : ∀ v ∈ args, Sane m v := by
  obtain ⟨index, act, hcall, -, hargs⟩ := hcalls
  have hstable : Stable [] act := by
    unfold call? at hcall
    split at hcall <;> cases hcall
    · exact .pure (by simp)
    · exact withAccumulator_stable _
    · exact withAccumulator_stable _
    · exact withAccumulator_stable _
    · exact registers_stable _
  have hend := hstable m hm (by simp)
  rw [hargs] at hend
  exact fun v hv => hend.2.2 v (by simpa using hv)

inductive Stores (m : Machine) : Instruction → Cell → Prop where
  | instVar {k : UInt8} {v : Value} : m.image.heap.slot m.context Slot.Context.registers = .ok v →
    m.Stores (.storeInstVar k) ⟨v, k.toNat⟩
  | own {s : UInt8} {mine : Value} : m.image.heap.slot m.context Slot.Context.heapVars = .ok mine →
    m.Stores (.storeOwn s) ⟨mine, s.toNat⟩
  | parent {s : UInt8} {theirs : Value} :
    m.image.heap.slot m.context Slot.Context.parentHeapVars = .ok theirs →
    m.Stores (.storeParent s) ⟨theirs, s.toNat⟩
  | global {l : UInt8} {key : Value} {c : Cell} : m.image.heap.slot m.literals l.toNat = .ok key →
    m.image.heap.Enters m.image.globals key c → m.Stores (.storeGlobal l) c
  | promote {own parent : UInt8} {mine : Value} :
    m.image.heap.slot m.context Slot.Context.heapVars = .ok mine →
    m.Stores (.promote own parent) ⟨mine, own.toNat⟩
  | restore {parent own : UInt8} {theirs : Value} :
    m.image.heap.slot m.context Slot.Context.parentHeapVars = .ok theirs →
    m.Stores (.restore parent own) ⟨theirs, parent.toNat⟩
  | syncOwn {own parent reg : UInt8} {mine : Value} :
    m.image.heap.slot m.context Slot.Context.heapVars = .ok mine →
    m.Stores (.sync own parent reg) ⟨mine, own.toNat⟩
  | syncParent {own parent reg : UInt8} {theirs : Value} :
    m.image.heap.slot m.context Slot.Context.parentHeapVars = .ok theirs →
    m.Stores (.sync own parent reg) ⟨theirs, parent.toNat⟩
  | primitive {i : Instruction} {prim : Primitive} {args : List Value} {c : Cell} :
    m.Calls i prim args → m.PrimitiveStores c prim args → m.Stores i c

inductive Ends (m : Machine) : Instruction → Value → Prop where
  | return_ : m.Ends .return_ m.context
  | returnSelf : m.Ends .returnSelf m.context
  | primitive {i : Instruction} {prim : Primitive} {args : List Value} {v : Value} :
    m.Calls i prim args → m.PrimitiveEnds v prim args → m.Ends i v

inductive Makes (m : Machine) : Instruction → Value → Prop where
  | send {selector : UInt8} {args : ArgRegisters} {cls : Value} : m.Makes (.send selector args) cls
  | sendSuper {selector : UInt8} {args : ArgRegisters} {cls : Value} :
    m.Makes (.sendSuper selector args) cls
  | operator {reg : UInt8} {op : BinaryOp} {cls : Value} : m.Makes (.binaryOp reg op) cls
  | block {l : UInt8} : m.Makes (.copyBlock l) (m.image.kernelClass .block)
  | link {l : UInt8} : m.Makes (.storeGlobal l) (m.image.kernelClass .link)
  | primitive {i : Instruction} {prim : Primitive} {args : List Value} {cls : Value} :
    m.Calls i prim args → m.PrimitiveMakes cls prim args → m.Makes i cls

def setRegister? : Instruction → Option UInt8
  | .storeRegister r => some r
  | .sync _ _ r => some r
  | _ => none

def Schedules (m : Machine) (i : Instruction) : Prop :=
  ∃ prim args, m.Calls i prim args ∧ schedules prim

/-- All that an instruction may write to, apart from new objects. -/
inductive Writes (m : Machine) (i : Instruction) : Licence where
  | position : m.Writes i ⟨m.context, Slot.Context.pc⟩ (.ofNat m.pc)
  | ended {v : Value} : m.Ends i v → m.Writes i ⟨v, Slot.Context.pc⟩ .nil
  | register {r : UInt8} {x : Value} : setRegister? i = some r →
    m.Writes i ⟨m.context, Slot.Context.registers + r.toNat⟩ x
  | stored {c : Cell} {x : Value} : m.Stores i c → m.Writes i c x
  | link {v x : Value} : m.Schedules i → m.schedule.Lists m.image.heap v →
    m.Writes i ⟨v, Slot.Process.link⟩ x
  | state {v x : Value} : m.Schedules i → m.schedule.Lists m.image.heap v →
    m.Writes i ⟨v, Slot.Process.state⟩ x

def Continues (m : Machine) (i : Instruction) : Machine → Prop :=
  Within (m.Writes i) (m.Makes i) m.image.known
    (fun s => m.schedule.Requeued s ∧ (m.Schedules i ∨ s = m.schedule)) m.process m.image.heap

theorem continues_self (hm : Intact m) (i : Instruction) : m.Continues i m :=
  ⟨hm.grown, ⟨⟨rfl, rfl⟩, .inr rfl⟩, rfl, rfl⟩

theorem safepoint_unfailing (hm : Intact m) (cause : RuntimeError) (m' : Machine) :
    safepoint m ≠ .error (.failure cause) m' := by
  intro heq
  rw [safepoint, get_bind] at heq
  split at heq
  · change EStateM.bind spill (fun _ => collect >>= fun _ => unspill) m = _ at heq
    rw [EStateM.bind] at heq
    have hspill := spill_stable.kept hm
    cases hend : spill m with
    | error e m₁ =>
      rw [hend] at heq
      cases heq
      exact absurd hend (spill_unfailing m cause m')
    | ok u m₁ =>
      rw [hend] at heq hspill
      obtain ⟨m₂, hcollect, -, -⟩ := collect_intact hspill.1
      change EStateM.bind collect (fun _ => unspill) m₁ = _ at heq
      rw [EStateM.bind, hcollect] at heq
      exact unspill_unfailing m₂ cause m' heq
  · cases heq

/-- An instruction comes to a point at which garbage may be collected. An operator does so if it
is not defined on its operands. -/
def Pauses (m : Machine) : Instruction → Prop
  | .binaryOp reg op => ∃ left, m.image.heap.slot m.context (Slot.Context.registers + reg.toNat) =
      .ok left ∧ runPrimitive op.primitive [left, m.accumulator] m = .ok .nil m
  | .send .. | .sendSuper .. | .copyBlock _ => True
  | i => ∃ index act, call? i = some (index, act) ∧ (Primitive.ofIndex? index.toNat).isSome

def Pause (m : Machine) (i : Instruction) (m₁ : Machine) : Prop :=
  m.Pauses i ∧ safepoint m = .ok () m₁ ∨ ¬m.Pauses i ∧ m₁ = m

theorem Pause.unique {i : Instruction} {m₁ m₂ : Machine} (h₁ : m.Pause i m₁)
    (h₂ : m.Pause i m₂) : m₁ = m₂ := by
  rcases h₁ with ⟨hp, h₁⟩ | ⟨hp, rfl⟩
  · rcases h₂ with ⟨-, h₂⟩ | ⟨hn, -⟩
    · exact (EStateM.Result.ok.inj (h₁.symm.trans h₂)).2
    · exact absurd hp hn
  · rcases h₂ with ⟨hn, -⟩ | ⟨-, rfl⟩
    · exact absurd hn hp
    · rfl

/-- An instruction that breaks no rule does its work after garbage was collected, if any is. From
then on all cells stay as they are but for those that it writes to. -/
def Performs (m : Machine) (i : Instruction) (r : EStateM.Result (Stop RuntimeError) Machine Unit) :
    Prop :=
  (∃ f m', r = .error (.fault f) m') ∨
    ∃ m₁, m.Pause i m₁ ∧ Intact m₁ ∧ Leaves (m₁.Continues i) m₁ r

theorem performs_of_leaves {i : Instruction} {r : EStateM.Result (Stop RuntimeError) Machine Unit}
    (hm : Intact m) (hpauses : ¬m.Pauses i) (hr : Leaves (m.Continues i) m r) : m.Performs i r :=
  .inr ⟨m, .inr ⟨hpauses, rfl⟩, hm, hr⟩

theorem performs_after_safepoint {i : Instruction} {rest : MachineAction Unit} (hm : Intact m)
    (hstop : m.stop = none) (hpauses : m.Pauses i)
    (hrest : ∀ m₁, Intact m₁ → Leaves (m₁.Continues i) m₁ (rest m₁)) :
    m.Performs i ((safepoint >>= fun _ => rest) m) := by
  have hkept := safepoint_kept hm hstop
  cases heq : safepoint m with
  | ok u m₁ =>
    rw [heq] at hkept
    refine .inr ⟨m₁, .inl ⟨hpauses, heq⟩, hkept.1, ?_⟩
    rw [bind_of_eq_ok heq]
    exact hrest m₁ hkept.1
  | error e m₁ =>
    cases e with
    | failure cause => exact absurd heq (safepoint_unfailing hm cause m₁)
    | fault f =>
      refine .inl ⟨f, m₁, ?_⟩
      change EStateM.bind safepoint (fun _ => rest) m = _
      rw [EStateM.bind, heq]

theorem registers_eq_ok {rs : List UInt8} {vs : List Value} (heq : registers rs m = .ok vs m') :
    m' = m := by
  induction rs generalizing vs with
  | nil => exact (pure_eq_ok.mp heq).2.symm
  | cons r rs ih =>
    obtain ⟨v, m₁, hread, heq'⟩ := bind_eq_ok.mp heq
    obtain ⟨-, rfl⟩ := query_eq_ok hread
    obtain ⟨vs', m₂, hrest, heq''⟩ := bind_eq_ok.mp heq'
    obtain ⟨-, rfl⟩ := pure_eq_ok.mp heq''
    exact ih hrest

theorem withAccumulator_eq_ok {rs : List UInt8} {vs : List Value}
    (heq : withAccumulator rs m = .ok vs m') : m' = m := by
  obtain ⟨values, m₁, hread, heq'⟩ := bind_eq_ok.mp heq
  obtain rfl := registers_eq_ok hread
  exact (pure_eq_ok.mp heq').2.symm

section Executing

variable (hm : Intact m)
include hm

theorem send_performs (i : Instruction) (hpauses : m.Pauses i)
    (hmakes : ∀ m₁ cls, Makes m₁ i cls) (selector : UInt8) (args : ArgRegisters) (toSuper : Bool)
    (hstop : m.stop = none) :
    m.Performs i (send selector args toSuper m) := by
  refine performs_after_safepoint hm hstop hpauses fun m₁ hm₁ => ?_
  have hc := continues_self hm₁ i
  have whole : m₁.image.heap.Whole := hm₁.whole
  refine .query fun selector _ => ?_
  rw [get_bind]
  have hregisters : Stable [] (registers args.regs) := registers_stable _
  refine .bind ((registers_quiet _).leaves hc (hregisters m₁ hm₁ (by simp)))
    fun values m₂ heq hc₂ _ hvalues => ?_
  obtain rfl := registers_eq_ok heq
  have hsend : ∀ cls, Sane m₂ cls → Leaves (m₂.Continues i) m₂
      (dispatch selector m₂.accumulator values cls m₂) := by
    intro cls hcls
    have hknown : ∀ v ∈ m₂.accumulator :: cls :: values, Sane m₂ v := by
      simp only [List.mem_cons]
      rintro v (rfl | rfl | hv)
      · exact hm₁.held _ (by simp)
      · exact hcls
      · exact hvalues v (by simpa using hv)
    exact dispatch_leaves hc hknown (by simp) (fun v hv => trusted_of_mem (by simp [hv])) (by simp)
      (hmakes _) fun _ => .position
  dsimp only
  split
  · rw [get_bind]
    refine .query fun defining hdefining => .query fun cls hcls => hsend cls ?_
    exact whole.slot (whole.slot (hm₁.held m₂.method (by simp)) hdefining) hcls
  · refine .query fun cls hcls => hsend cls ?_
    exact Image.yields_classOf (intact_image hm₁) (hm₁.held m₂.accumulator (by simp)) cls hcls cls
      (by simp)

theorem binaryOp_performs (reg : UInt8) (op : BinaryOp) (hstop : m.stop = none) :
    m.Performs (.binaryOp reg op) (binaryOp reg op m) := by
  rw [binaryOp]
  cases hleft : register reg m with
  | error e m₁ =>
    refine performs_of_leaves hm ?_ (.query fun left hread => ?_)
    · rintro ⟨left, hread, -⟩
      exact nomatch hleft.symm.trans (query_of_eq_ok hread)
    · exact nomatch hleft.symm.trans (query_of_eq_ok hread)
  | ok left m₁ =>
    obtain ⟨hread, rfl⟩ := query_eq_ok hleft
    obtain ⟨v, hv⟩ := runPrimitive_operator op left m₁.accumulator m₁
    rw [bind_of_eq_ok hleft, get_bind]
    dsimp only
    rw [bind_of_eq_ok hv]
    split
    · rename_i hdefined
      refine performs_of_leaves hm ?_ ((setAccumulator_quiet v).leaves (continues_self hm _) ?_)
      · rintro ⟨left', hread', hnil⟩
        obtain rfl := Except.ok.inj (hread.symm.trans hread')
        rw [hv] at hnil
        cases hnil
        simp [Value.isNil, Value.nil] at hdefined
      have hoperands : ∀ v ∈ [left, m₁.accumulator], Sane m₁ v := by
        have whole : m₁.image.heap.Whole := hm.whole
        simp only [List.mem_cons, List.not_mem_nil, or_false]
        rintro v (rfl | rfl)
        · exact whole.slot (hm.held m₁.context (by simp)) hread
        · exact hm.held _ (by simp)
      have hend := runPrimitive_stable op.primitive (fun v hv => trusted_of_mem hv) m₁ hm hoperands
      rw [hv] at hend
      have hstore : Stable (held v) (setAccumulator v) := setAccumulator_stable (by simp)
      exact hstore m₁ hm hend.2.2
    · rename_i hundefined
      have hnil : v = .nil := by
        have : v.isNil := by simpa using hundefined
        exact congrArg Value.mk (beq_iff_eq.mp this)
      subst hnil
      refine performs_after_safepoint hm hstop ⟨left, hread, hv⟩ fun m₂ hm₂ => ?_
      have whole : m₂.image.heap.Whole := hm₂.whole
      refine .query fun receiver hreceiver => ?_
      rw [get_bind]
      refine .query fun cls hcls => ?_
      have hsane : Sane m₂ receiver := whole.slot (hm₂.held m₂.context (by simp)) hreceiver
      have hknown : ∀ v ∈ [receiver, m₂.accumulator, cls], Sane m₂ v := by
        simp only [List.mem_cons, List.not_mem_nil, or_false]
        rintro v (rfl | rfl | rfl)
        · exact hsane
        · exact hm₂.held _ (by simp)
        · exact Image.yields_classOf (intact_image hm₂) hsane v hcls v (by simp)
      exact dispatch_leaves (continues_self hm₂ _) hknown (by simp) (by simp) (by simp)
        (fun _ => .operator) fun _ => .position

theorem copyBlock_performs (index : UInt8) (hstop : m.stop = none) :
    m.Performs (.copyBlock index) (copyBlock index m) := by
  refine performs_after_safepoint hm hstop trivial fun m₁ hm₁ => ?_
  have hcopy : Upholds (m₁.Continues (.copyBlock index)) [] (do
      let template ← literal index
      let blockClass := (← get).image.kernelClass .block
      let block ← onHeap (Heap.allocatePointers blockClass Slot.Block.count)
      let fields ← ask fun i => (List.range Slot.Code.count).mapM (i.heap.slot template)
      onImage (Image.fillSlots block 0 fields)
      let context := (← get).context
      setSlot block Slot.Block.receiver (← slot context Slot.Context.registers)
      setSlot block Slot.Block.parentHeapVars (← slot context Slot.Context.heapVars)
      setSlot block Slot.Block.home (← slot context Slot.Context.home)
      setAccumulator block) := by
    refine .bind (Quiet.upholds (.query _) (literal_stable index)) fun template => ?_
    refine .get_bind (fun _ h => h.intact) fun m₂ hm₂ => ?_
    have hclass : m₂.image.kernelClass .block = m₁.image.kernelClass .block := by
      rw [Image.kernelClass, Image.kernelClass, hm₂.known]
    refine .bind_of (R := fun block => ¬m₁.image.heap.arenas.Sane block)
      (onHeap_upholds (Heap.allocatePointers_upholds (by simp) _ (hclass ▸ .block))) ?_
      fun block hfresh => ?_
    · intro m₃ block m₄ hm₃ hknown heq
      obtain ⟨image, himage, rfl⟩ := onImage_eq_ok heq
      obtain ⟨heap, hmade, rfl⟩ := Image.onHeap_eq_ok.mp himage
      exact Heap.allocatePointers_fresh (by simp) _ (Image.grown_heap hm₃.image) hknown hmade
    refine .bind (.query fun m₃ hm₃ hknown => yields_mapM (fun k => hm₃.intact.whole.yields_slot
      (hknown template (by simp)) k) _) fun fields => ?_
    refine .bind (onImage_upholds (Image.fillSlots_knows _ _ _ _)
      (Image.fillSlots_upholds (by simp) _ (fun v hv => by simp [hv]) hfresh)) fun _ => ?_
    refine .get_bind (fun _ h => h.intact) fun m₃ _ => ?_
    refine .bind (slot_upholds (by simp) _) fun receiver => ?_
    refine .bind (setSlot_upholds (by simp) _ (by simp) (absurd · hfresh)) fun _ => ?_
    refine .bind (slot_upholds (by simp) _) fun parent => ?_
    refine .bind (setSlot_upholds (by simp) _ (by simp) (absurd · hfresh)) fun _ => ?_
    refine .bind (slot_upholds (by simp) _) fun home => ?_
    refine .bind (setSlot_upholds (by simp) _ (by simp) (absurd · hfresh)) fun _ => ?_
    exact setAccumulator_upholds (by simp)
  exact hcopy m₁ (continues_self hm₁ _) (by simp)

theorem callPrimitive_performs {i : Instruction} {index : UInt8}
    {args : MachineAction (List Value)} (hcall : call? i = some (index, args))
    (hpauses : m.Pauses i ↔ (Primitive.ofIndex? index.toNat).isSome)
    (hargs : ∀ {known}, Stable known args) (hquiet : Quiet args)
    (hread : ∀ {m m' vs}, args m = .ok vs m' → m' = m) (hstop : m.stop = none) :
    m.Performs i (callPrimitive index args m) := by
  rw [callPrimitive]
  cases hprim : Primitive.ofIndex? index.toNat with
  | none =>
    refine performs_of_leaves hm ?_ (Quiet.leaves ?_ (continues_self hm i) ?_)
    · rw [hpauses, hprim]
      simp
    · exact .bind .get fun _ => .bind (.query _) fun _ => .fail _
    · have hstart : Stable [] (get : MachineAction Machine) := .get
      exact hstart.bind (fun _ => .bind trace_stable fun _ => .fail _) m hm (by simp)
  | some prim =>
    refine performs_after_safepoint hm hstop (hpauses.mpr (by rw [hprim]; rfl)) fun m₁ hm₁ => ?_
    have hc := continues_self hm₁ i
    have hstable : Stable [] args := hargs
    refine .bind (hquiet.leaves hc (hstable m₁ hm₁ (by simp))) fun values m₂ heq hc₂ _ hsane => ?_
    obtain rfl := hread heq
    have hcalls : m₂.Calls i prim values := ⟨index, args, hcall, hprim, heq⟩
    refine .bind (runPrimitive_leaves prim hc (fun v hv => hsane v (by simpa using hv))
      (fun _ => .position) (fun v hv => .ended (.primitive hcalls hv))
      (fun c x hs => .stored (.primitive hcalls hs)) (fun cls h => .primitive hcalls h)
      fun hsched => ?_) fun result m₃ _ hc₃ _ hresult => ?_
    · have hschedules : m₂.Schedules i := ⟨prim, values, hcalls, hsched⟩
      exact ⟨fun _ hs => ⟨hs, .inl hschedules⟩,
        fun v x _ hl => ⟨.link hschedules hl, .state hschedules hl⟩⟩
    · split
      · exact setAccumulator_upholds (trusted_of_mem (List.mem_singleton_self result)) m₃ hc₃
          fun v hv => hresult v (by simpa using hv)
      · exact .pure hc₃ (by simp)

/-- What an instruction does, whether it delivers or fails. -/
theorem execute_performs (hstop : m.stop = none) (i : Instruction) :
    m.Performs i (execute i m) := by
  have hc := continues_self hm i
  have whole : m.image.heap.Whole := hm.whole
  have hcontext : m.image.heap.arenas.Sane m.context := hm.held _ (by simp)
  have haccumulator : m.image.heap.arenas.Sane m.accumulator := hm.held _ (by simp)
  -- Instructions that only load or branch.
  have hquiet : ¬m.Pauses i → Quiet (execute i) → Stable [] (execute i) →
      m.Performs i (execute i m) := fun hp hq hs =>
    performs_of_leaves hm hp (hq.leaves hc (hs m hm (by simp)))
  -- One value is stored.
  have hstore : ∀ {v x : Value} {k : Nat}, m.image.heap.arenas.Sane v →
      m.image.heap.arenas.Sane x → m.Writes i ⟨v, k⟩ x →
      Leaves (m.Continues i) m (setSlot v k x m) := by
    intro v x k hv hx hW
    have hset : Upholds (m.Continues i) [v, x] (setSlot v k x) :=
      setSlot_upholds (by simp) _ (by simp) fun _ => hW
    refine hset m hc fun y hy => ?_
    simp only [List.mem_cons, List.not_mem_nil, or_false] at hy
    rcases hy with rfl | rfl <;> assumption
  cases i with
  | loadNil =>
    exact hquiet (by simp [Pauses, call?]) (setAccumulator_quiet _)
      (setAccumulator_stable (by simp))
  | loadTrue | loadFalse | loadThisContext | loadGlobals =>
    refine hquiet (by simp [Pauses, call?]) (.modify fun _ => ⟨rfl, rfl, rfl, rfl⟩) ?_
    exact reload_stable (fun _ => rfl) (fun _ => rfl) (by simp +contextual [or_imp])
  | loadInstVar k =>
    refine hquiet (by simp [Pauses, call?])
      (.bind (.query _) fun _ => .bind (.query _) fun _ => setAccumulator_quiet _) ?_
    refine .bind (register_stable 0) fun receiver => ?_
    exact .bind (slot_stable (by simp) _) fun v => setAccumulator_stable (by simp)
  | loadLiteral k =>
    refine hquiet (by simp [Pauses, call?]) (.bind (.query _) fun _ => setAccumulator_quiet _) ?_
    exact .bind (literal_stable k) fun v => setAccumulator_stable (by simp)
  | loadOwn s | loadParent s =>
    refine hquiet (by simp [Pauses, call?])
      (.bind (.query _) fun _ => .bind (.query _) fun _ => setAccumulator_quiet _) ?_
    refine .bind (heapVars_stable _) fun vars => ?_
    exact .bind (slot_stable (by simp) _) fun v => setAccumulator_stable (by simp)
  | loadGlobal l =>
    refine hquiet (by simp [Pauses, call?])
      (.bind (.query _) fun _ => .bind (.query _) fun _ => setAccumulator_quiet _) ?_
    refine .bind (literal_stable l) fun key => ?_
    refine .bind (.query fun m hm _ => hm.whole.yields_dictionaryAt (hm.held _ (by simp)) key)
      fun found => ?_
    exact setAccumulator_stable (by cases found <;> simp)
  | loadRegister r =>
    refine hquiet (by simp [Pauses, call?]) (.bind (.query _) fun _ => setAccumulator_quiet _) ?_
    exact .bind (register_stable r) fun v => setAccumulator_stable (by simp)
  | storeInstVar k =>
    refine performs_of_leaves hm (by simp [Pauses, call?])
      (.query fun receiver hreceiver => ?_)
    exact hstore (whole.slot hcontext hreceiver) haccumulator (.stored (.instVar hreceiver))
  | storeOwn s =>
    refine performs_of_leaves hm (by simp [Pauses, call?])
      (.query fun mine hmine => ?_)
    exact hstore (whole.slot hcontext hmine) haccumulator (.stored (.own hmine))
  | storeParent s =>
    refine performs_of_leaves hm (by simp [Pauses, call?])
      (.query fun theirs htheirs => ?_)
    exact hstore (whole.slot hcontext htheirs) haccumulator (.stored (.parent htheirs))
  | storeGlobal l =>
    refine performs_of_leaves hm (by simp [Pauses, call?])
      (.query fun key hkey => ?_)
    rw [get_bind]
    refine .bind (onImage_leaves hc (Image.onHeap_knows _ _) (Image.onHeap_leaves hc.image
      (Heap.dictionaryPut_leaves (Image.grown_heap hc.image) ?_ ?_ ?_ haccumulator .link
        fun c x _ he => .stored (.global hkey he)))) fun _ _ _ hc' _ _ => .pure hc' (by simp)
    · exact hm.held _ (by simp)
    · exact hm.held _ (by simp)
    · exact whole.slot (hm.held m.literals (by simp)) hkey
  | storeRegister r =>
    refine performs_of_leaves hm (by simp [Pauses, call?]) ?_
    exact hstore hcontext haccumulator (.register rfl)
  | promote own parent =>
    refine performs_of_leaves hm (by simp [Pauses, call?])
      (.query fun theirs htheirs => .query fun value hvalue => ?_)
    refine .query fun mine hmine => ?_
    exact hstore (whole.slot hcontext hmine) (whole.slot (whole.slot hcontext htheirs) hvalue)
      (.stored (.promote hmine))
  | restore parent own =>
    refine performs_of_leaves hm (by simp [Pauses, call?])
      (restore_leaves hc hcontext fun theirs x _ htheirs => ?_)
    exact .stored (.restore htheirs)
  | sync own parent reg =>
    refine performs_of_leaves hm (by simp [Pauses, call?])
      (.query fun mine hmine => .query fun theirs htheirs => ?_)
    refine .query fun value hvalue => .query fun agreed _ => ?_
    have hsettle : ∀ {v x : Value} {k : Nat}, Sane m v → Sane m x →
        m.Writes (.sync own parent reg) ⟨v, k⟩ x →
        Leaves (m.Continues (.sync own parent reg)) m
          ((do setSlot v k x; setRegister reg x : MachineAction Unit) m) := by
      intro v x k hv hx hW
      refine .bind (hstore hv hx hW) fun _ m' heq hc' hgrows _ => ?_
      obtain ⟨heap, -, rfl⟩ := setSlot_eq_ok heq
      have hset : Upholds (m.Continues (.sync own parent reg)) [m.context, x]
          (setSlot m.context (Slot.Context.registers + reg.toNat) x) :=
        setSlot_upholds (by simp) _ (by simp) fun _ => .register rfl
      refine hset _ hc' fun y hy => ?_
      simp only [List.mem_cons, List.not_mem_nil, or_false] at hy
      rcases hy with rfl | rfl
      · exact hgrows.sane hcontext
      · exact hgrows.sane hx
    have hmineSane : Sane m mine := whole.slot hcontext hmine
    have htheirsSane : Sane m theirs := whole.slot hcontext htheirs
    split
    · exact hsettle htheirsSane (whole.slot hmineSane hvalue) (.stored (.syncParent htheirs))
    · refine .query fun newer hnewer => ?_
      exact hsettle hmineSane (whole.slot htheirsSane hnewer) (.stored (.syncOwn hmine))
  | jump offset => exact hquiet (by simp [Pauses, call?]) (jump_quiet offset) (jump_stable offset)
  | branchIfFalse offset | branchIfTrue offset =>
    refine hquiet (by simp [Pauses, call?]) (.bind .get fun m => ?_) (.bind .get fun m => ?_)
    · split
      · exact jump_quiet offset
      · exact .pure _
    · split
      · exact jump_stable offset
      · exact .pure (by simp)
  | binaryOp reg op => exact binaryOp_performs hm reg op hstop
  | send selector args =>
    exact send_performs hm (.send selector args) trivial (fun _ _ => .send) selector args false
      hstop
  | sendSuper selector args =>
    exact send_performs hm (.sendSuper selector args) trivial (fun _ _ => .sendSuper) selector args
      true hstop
  | copyBlock l => exact copyBlock_performs hm l hstop
  | primitive0 p =>
    exact callPrimitive_performs hm rfl (by simp [Pauses, call?]) (.pure (by simp)) (.pure _)
      (fun heq => (pure_eq_ok.mp heq).2.symm) hstop
  | primitive1 p =>
    exact callPrimitive_performs hm rfl (by simp [Pauses, call?]) (withAccumulator_stable _)
      (withAccumulator_quiet _) withAccumulator_eq_ok hstop
  | primitive2 p reg =>
    exact callPrimitive_performs hm rfl (by simp [Pauses, call?]) (withAccumulator_stable _)
      (withAccumulator_quiet _) withAccumulator_eq_ok hstop
  | primitive3 p reg₁ reg₂ =>
    exact callPrimitive_performs hm rfl (by simp [Pauses, call?]) (withAccumulator_stable _)
      (withAccumulator_quiet _) withAccumulator_eq_ok hstop
  | primitiveV p first count =>
    exact callPrimitive_performs hm rfl (by simp [Pauses, call?]) (registers_stable _)
      (registers_quiet _) registers_eq_ok hstop
  | return_ =>
    refine performs_of_leaves hm (by simp [Pauses, call?])
      (returnValue_leaves hc haccumulator fun _ => .ended .return_)
  | returnSelf =>
    refine performs_of_leaves hm (by simp [Pauses, call?])
      (.query fun receiver hreceiver => ?_)
    exact returnValue_leaves hc (whole.slot hcontext hreceiver) fun _ => .ended .returnSelf

end Executing

end ObjectMachine.Machine
