import ObjectMachine.Proofs.Machine.Activating

namespace ObjectMachine

section Tracks

variable {t : Track} {xs ys : List Value} {x : Value} {k : Nat}

theorem exists_getElem?_of_forall₂ (h : List.Forall₂ t xs ys) (hx : xs[k]? = some x) :
    ∃ y, ys[k]? = some y ∧ t x y := by
  induction h generalizing k with
  | nil => simp at hx
  | @cons a b _ _ hab _ ih =>
    cases k with
    | zero => exact ⟨b, rfl, Option.some.inj hx ▸ hab⟩
    | succ k => exact ih hx

/-- What moved, and then stood still, moved. -/
theorem Track.after_still {h : Heap} (hsane : ∀ {v x}, t v x → h.arenas.Sane x)
    (hxy : List.Forall₂ t xs ys) : List.Forall₂ (Track.after (.still h) t) xs ys :=
  hxy.imp fun _ y hy => ⟨y, hy, rfl, hsane hy⟩

end Tracks

theorem Window.length_of_execute {r : Routine} {w w' : Window} {i : Instruction}
    (hi : w.execute r i = some w') : w'.registers.length = w.registers.length := by
  cases i
  case storeRegister reg =>
    rw [execute] at hi
    split at hi
    · cases hi
      exact List.length_set
    · cases hi
  case loadLiteral | loadRegister =>
    obtain ⟨_, -, hw⟩ := Option.bind_eq_some_iff.mp hi
    cases hw
    rfl
  case binaryOp =>
    obtain ⟨_, -, hrest⟩ := Option.bind_eq_some_iff.mp hi
    obtain ⟨_, -, hw⟩ := Option.bind_eq_some_iff.mp hrest
    cases hw
    rfl
  case branchIfFalse | branchIfTrue =>
    cases hi
    split <;> rfl
  all_goals first | (cases hi; rfl) | cases hi

namespace Image.Retains

variable {written : Cell → Prop} {t : Track} {i i' : Image} {v x c : Value}

theorem classOf (hr : Retains written t i i') (hv : t v x) (hc : i.classOf v = .ok c) :
    ∃ d, i'.classOf x = .ok d ∧ t c d := by
  rw [Image.classOf] at hc
  rw [Image.classOf, hr.heap.isInteger hv, hr.heap.isNil hv]
  by_cases hint : v.isInteger
  · rw [if_pos hint] at hc ⊢
    obtain rfl := Except.ok.inj hc
    exact ⟨_, rfl, hr.kernelClass _⟩
  rw [if_neg hint] at hc ⊢
  by_cases hnil : v.isNil
  · rw [if_pos hnil] at hc ⊢
    obtain rfl := Except.ok.inj hc
    exact ⟨_, rfl, hr.kernelClass _⟩
  · rw [if_neg hnil] at hc ⊢
    exact hr.heap.isa hv hc

theorem classOf_kernel (hr : Retains written t i i') (hv : t v x) {k : KernelClass}
    (hc : i.classOf v = .ok (i.kernelClass k)) : i'.classOf x = .ok (i'.kernelClass k) := by
  obtain ⟨d, hd, hcd⟩ := hr.classOf hv hc
  rw [hd, hr.heap.unique hcd (hr.kernelClass k)]

end Image.Retains

namespace Machine

variable {m m' m₁ : Machine} {code : Array UInt8} {constants mconstants args values : List Value}
  {w : Window} {tm : CodeTemplate} {i : Instruction} {t : Track} {callee receiver : Value}

structure Engages (m : Machine) (code : Array UInt8) (constants : List Value) (w : Window)
    (t : Track) (m' : Machine) : Prop where
  retains : m.image.Retains (fun c => ∃ x, m.Spilled c x) t m'.image
  fresh : ∀ v, ¬t v m'.context
  process : t m.process m'.process
  caller : ∃ caller constants' registers', t m.context caller ∧
    m'.image.heap.Holds ⟨m'.context, Slot.Context.previous⟩ caller ∧
    List.Forall₂ t constants constants' ∧ List.Forall₂ t w.registers registers' ∧
    m'.image.Suspends caller code constants' w.pc registers'

def Steps (m : Machine) (i : Instruction) : Prop :=
  (∀ c x, m.Writes i c x → c = ⟨m.context, Slot.Context.pc⟩) ∧ ¬m.Schedules i

theorem Works.engages (h : m.Works code constants w) (hlength : constants.length ≤ 3)
    (hp : m.Pause i m₁) (hr : m.Rejoins t m₁) (hm₁ : m₁.Ready) (hsteps : m₁.Steps i)
    (heq : execute i m = .ok () m')
    (hopens : m₁.Opens m' tm mconstants callee receiver args) :
    m.Engages code constants w (Track.after (.still m₁.image.heap) t) m' ∧
      m'.Works tm.bytecode mconstants ⟨0, m₁.accumulator,
        receiver :: args ++ List.replicate (tm.temps + tm.stack) .nil⟩ := by
  obtain ⟨constants', w', hworks, hpc, -, hcc, hrr⟩ := h.resume hlength hr hm₁
  have hretains := h.ready.retains_executed hp hm₁ heq
  have hlow : ∀ u k, k < 3 → ¬∃ x, m₁.Writes i ⟨u, k⟩ x := by
    rintro u k hk ⟨x, hx⟩
    have := congrArg Cell.index (hsteps.1 _ x hx)
    simp only [Slot.Context.pc] at this
    omega
  have hhigh : ∀ k, ¬∃ x, m₁.Writes i ⟨m₁.context, Slot.Context.registers + k⟩ x := by
    rintro k ⟨x, hx⟩
    have := congrArg Cell.index (hsteps.1 _ x hx)
    simp only [Slot.Context.pc, Slot.Context.registers] at this
    omega
  have hsane : ∀ {v x}, t v x → m₁.image.heap.arenas.Sane x := fun hx => (hr.retains.heap.sane hx).2
  have hsame : Track.after (.still m₁.image.heap) t m.context m₁.context :=
    ⟨_, hr.context, rfl, hsane hr.context⟩
  have hwritten : ∀ {v x k}, t v x → (∃ y, m₁.Writes i ⟨x, k⟩ y) → ∃ y, m.Spilled ⟨v, k⟩ y := by
    rintro v x k hx ⟨y, hy⟩
    obtain ⟨rfl, rfl⟩ := Cell.mk.inj (hsteps.1 _ y hy)
    obtain rfl := hr.retains.heap.injective hx hr.context
    exact ⟨y, .position⟩
  have hready : m'.Ready := by
    refine h.ready.executed hp hm₁ heq (fun c x hx => ?_) hsteps.2 hopens.hosts hopens.context
      ⟨_, hopens.registers.get (k := 0) rfl⟩ ?_ ?_ ?_
    · rw [hsteps.1 c x hx]
    · rw [hopens.pc]
      decide
    · rw [hopens.stop, hm₁.running]
    · rw [hopens.interrupts, hm₁.calm]
  refine ⟨⟨hr.retains.after hretains hwritten, ?_, ?_, m₁.context, constants', w'.registers, hsame,
    hopens.fields.get (k := 0) rfl, Track.after_still hsane hcc, Track.after_still hsane hrr, ?_⟩,
    hready, hopens.hosts, hopens.pc, hopens.accumulator, hopens.registers⟩
  · rintro v ⟨u, -, rfl, hu⟩
    exact hopens.fresh hu
  · refine ⟨_, hr.process, ?_, hsane hr.process⟩
    exact (h.ready.continues hp heq).process
  · have hcontext := hworks.ready.inContext
    obtain ⟨_, hhosts, hhosted⟩ := hretains.heap.hosts ⟨rfl, hcontext.sane⟩ hlow
      (hcc.length_eq ▸ hlength) hworks.hosts
    obtain rfl := Heap.eq_of_still hhosts
    obtain ⟨_, hrows, hrow⟩ := hretains.heap.row ⟨rfl, hcontext.sane⟩ (fun k _ => hhigh k)
      hworks.registers
    obtain rfl := Heap.eq_of_still hrows
    exact ⟨(hretains.instance_iff hm₁.intact.whole ⟨rfl, hcontext.sane⟩).mpr hcontext, hhosted,
      hpc ▸ hworks.pc ▸ hopens.position, hrow⟩

/-- Sends and calls of the primitive that invokes blocks write to no more than the position. -/
theorem steps_of_enters (hi : (∃ selector args, i = .send selector args) ∨
      ∃ index act, call? i = some (index, act) ∧
        Primitive.ofIndex? index.toNat = some .blockInvoke) : m.Steps i := by
  have hcalls : ∀ prim values, m.Calls i prim values → prim = .blockInvoke := by
    rintro prim values ⟨index, act, hcall, hprim, -⟩
    rcases hi with ⟨selector, args, rfl⟩ | ⟨index', act', hcall', hprim'⟩
    · cases hcall
    · obtain ⟨rfl, rfl⟩ := Prod.mk.inj (Option.some.inj (hcall.symm.trans hcall'))
      exact Option.some.inj (hprim.symm.trans hprim')
  have hschedules : ¬m.Schedules i := by
    rintro ⟨prim, values, hc, hprim⟩
    obtain rfl := hcalls prim values hc
    cases hprim
  refine ⟨fun c x hx => ?_, hschedules⟩
  cases hx with
  | position => rfl
  | ended hends =>
    cases hends with
    | return_ | returnSelf => simp [call?] at hi
    | primitive hc hprim =>
      obtain rfl := hcalls _ _ hc
      exact hprim.elim
  | register hset =>
    cases i <;> simp_all [setRegister?, call?]
  | stored hstores =>
    cases hstores with
    | primitive hc hprim =>
      obtain rfl := hcalls _ _ hc
      exact hprim.elim
    | _ => simp [call?] at hi
  | link hs | state hs => exact absurd hs hschedules

section Arguments

variable {rs : List UInt8} {ws ws' vs : List Value}

def Picks (ws : List Value) (rs : List UInt8) (vs : List Value) : Prop :=
  List.Forall₂ (fun r v => ws[r.toNat]? = some v) rs vs

theorem registers_of_picks (hrow : m.image.heap.Row m.context Slot.Context.registers ws)
    (hpicks : Picks ws rs vs) : registers rs m = .ok vs m := by
  induction hpicks with
  | nil => rfl
  | cons hv _ ih =>
    exact query_bind_eq_ok.mpr ⟨_, (hrow.get hv).slot, bind_eq_ok.mpr ⟨_, m, ih, rfl⟩⟩

theorem Picks.moved (hpicks : Picks ws rs vs) (hws : List.Forall₂ t ws ws') :
    ∃ vs', Picks ws' rs vs' ∧ List.Forall₂ t vs vs' := by
  induction hpicks with
  | nil => exact ⟨[], .nil, .nil⟩
  | cons hv _ ih =>
    obtain ⟨x, hx, hvx⟩ := exists_getElem?_of_forall₂ hws hv
    obtain ⟨vs', hpicks', hvs⟩ := ih
    exact ⟨x :: vs', .cons hx hpicks', .cons hvx hvs⟩

end Arguments

section Calls

variable {selector index first count : UInt8} {args : ArgRegisters} {name block : Value}
  {k : KernelClass}

structure Called (m : Machine) (code : Array UInt8) (constants : List Value) (w : Window)
    (tm : CodeTemplate) (mconstants args : List Value) (t : Track) (receiver : Value)
    (m' : Machine) : Prop where
  engages : m.Engages code constants w t m'
  works : ∃ mconstants' args' accumulator, List.Forall₂ t mconstants mconstants' ∧
    List.Forall₂ t args args' ∧ t w.accumulator accumulator ∧
    m'.Works tm.bytecode mconstants' ⟨0, accumulator,
      receiver :: args' ++ List.replicate (tm.temps + tm.stack) .nil⟩

/-- Code that is entered after a pause is run with what became of the arguments, unless there is no
room for its context. -/
theorem Works.calls (h : m.Works code constants w) (hlength : constants.length ≤ 3)
    (hp : m.Pause i m₁) (hr : m.Rejoins t m₁) (hm₁ : m₁.Ready) (hsteps : m₁.Steps i)
    {args args' mconstants' : List Value} {callee receiver parent : Value} {home : Option Value}
    (heq : execute i m = activate callee receiver args' parent home m₁)
    (hcallee : m₁.image.Inert callee) (he : m₁.image.heap.Embodies callee tm mconstants')
    (hmm : List.Forall₂ t mconstants mconstants') (hmlength : mconstants.length ≤ 3)
    (hargs : List.Forall₂ t args args') (hcount : args.length = tm.args)
    (hsmall : tm.args + tm.temps + tm.heapVars + tm.stack < 0x10000000)
    (hreceiver : Sane m₁ receiver) (hparent : Sane m₁ parent) (hhome : ∀ v ∈ home, Sane m₁ v) :
    (∃ e m', execute i m = .error (.failure (.allocation e)) m') ∨
    ∃ t' m', execute i m = .ok () m' ∧
      m.Called code constants w tm mconstants args t' receiver m' ∧
      m'.image.heap.Holds ⟨m'.context, Slot.Context.method⟩ callee ∧
      ∀ v x, t v x → t' v x := by
  have hsane : ∀ {v x}, t v x → m₁.image.heap.arenas.Sane x := fun hx => (hr.retains.heap.sane hx).2
  have hknown : ∀ v ∈ receiver :: callee :: parent :: args', Sane m₁ v := by
    intro v hv
    simp only [List.mem_cons] at hv
    rcases hv with rfl | rfl | rfl | hv
    · exact hreceiver
    · exact he.args.sane
    · exact hparent
    · obtain ⟨k, hk, rfl⟩ := List.mem_iff_getElem.mp hv
      have hlt : k < args.length := hargs.length_eq ▸ hk
      exact hsane (hargs.get hlt hk)
  have hcontext : callee ≠ m₁.context := fun heq => (heq ▸ hcallee).context hm₁.inContext
  rcases activate_ends hm₁ he (hmm.length_eq ▸ hmlength) hcontext hsmall
    (hargs.length_eq ▸ hcount) hknown hhome with ⟨e, m', hfull⟩ | ⟨m', hact, hopens⟩
  · exact .inl ⟨e, m', heq.trans hfull⟩
  · obtain ⟨hengages, hworks⟩ := h.engages hlength hp hr hm₁ hsteps (heq.trans hact) hopens
    exact .inr ⟨_, m', heq.trans hact, ⟨hengages, _, _, m₁.accumulator,
      Track.after_still hsane hmm, Track.after_still hsane hargs,
      ⟨_, h.accumulator ▸ hr.accumulator, rfl, hsane hr.accumulator⟩, hworks⟩,
      hopens.fields.get (k := 2) rfl, fun v x hx => ⟨x, hx, rfl, hsane hx⟩⟩

/-- A send runs the method that the class of the receiver has, unless there is no room. -/
theorem Works.sends (h : m.Works code constants w) (hlength : constants.length ≤ 3)
    (hname : m.image.heap.Holds ⟨m.literals, selector.toNat⟩ name)
    (hliterals : m.image.Inert m.literals ∨ selector.toNat < 3)
    (hargs : Picks w.registers args.regs values)
    (hclass : m.image.classOf w.accumulator = .ok (m.image.kernelClass k))
    (hprovides : m.image.Provides k name tm mconstants) (hmlength : mconstants.length ≤ 3)
    (hsmall : tm.args + tm.temps + tm.heapVars + tm.stack < 0x10000000)
    (hcount : values.length = tm.args) :
    (∃ e m', execute (.send selector args) m = .error (.failure (.allocation e)) m') ∨
    ∃ t receiver m', execute (.send selector args) m = .ok () m' ∧ t w.accumulator receiver ∧
      m.Called code constants w tm mconstants values t receiver m' := by
  obtain ⟨t, m₁, hsafe, hr, hm₁⟩ := h.ready.safepoint
  have hp : m.Pause (.send selector args) m₁ := .inl ⟨trivial, hsafe⟩
  have htransient := hr.retains.mono h.ready.transient
  obtain ⟨constants', w', hworks, -, -, hcc, hrr⟩ := h.resume hlength hr hm₁
  obtain ⟨name', hname', hnn⟩ := hr.literal h.ready hm₁ hliterals hname
  obtain ⟨values', hargs', hvv⟩ := hargs.moved hrr
  obtain ⟨mconstants', hmm, hprovides'⟩ :=
    htransient.provides h.ready.intact.whole hnn hmlength hprovides
  obtain ⟨method, hfinds, hinert, he⟩ := hprovides'.method
  have hclass' : m₁.image.classOf m₁.accumulator = .ok (m₁.image.kernelClass k) :=
    hr.retains.classOf_kernel hr.accumulator (h.accumulator ▸ hclass)
  obtain ⟨owner, hlookup⟩ := hfinds.lookup hm₁.intact.whole
  have heq : execute (.send selector args) m =
      activate method m₁.accumulator values' .nil none m₁ := by
    have hliteral : literal selector m₁ = .ok name' m₁ := query_of_eq_ok hname'.slot
    have hregisters : Machine.registers args.regs m₁ = .ok values' m₁ :=
      registers_of_picks hworks.registers hargs'
    have hask : ask (·.classOf m₁.accumulator) m₁ = .ok (m₁.image.kernelClass k) m₁ :=
      query_of_eq_ok hclass'
    have hfound : ask (·.heap.lookup (m₁.image.kernelClass k) name') m₁ =
        .ok (some (method, owner)) m₁ := query_of_eq_ok hlookup
    change send selector args false m = _
    rw [send, bind_of_eq_ok hsafe, bind_of_eq_ok hliteral, get_bind, bind_of_eq_ok hregisters]
    simp only [Bool.false_eq_true, if_false]
    rw [bind_of_eq_ok hask, dispatch, bind_of_eq_ok hfound]
  rcases h.calls hlength hp hr hm₁ (steps_of_enters (.inl ⟨_, _, rfl⟩)) heq hinert he hmm hmlength
    hvv hcount hsmall (hm₁.intact.held _ (by simp)) (Arenas.sane_nil _) (by simp) with
    hfull | ⟨t', m', hexecute, hcalled, -, ht⟩
  · exact .inl hfull
  · exact .inr ⟨t', _, m', hexecute, ht _ _ (h.accumulator ▸ hr.accumulator), hcalled⟩

/-- A block that is invoked with as many arguments as it takes is run. -/
theorem invokeBlock_eq {receiver parent home : Value} (hclosure : m.image.Closure block tm)
    (hsmall : tm.args + tm.temps + tm.heapVars + tm.stack < 0x10000000)
    (hcount : values.length = tm.args)
    (hreceiver : m.image.heap.Holds ⟨block, Slot.Block.receiver⟩ receiver)
    (hparent : m.image.heap.Holds ⟨block, Slot.Block.parentHeapVars⟩ parent)
    (hhome : m.image.heap.Holds ⟨block, Slot.Block.home⟩ home) :
    invokeBlock block values m = activate block receiver values parent (some home) m := by
  have hinstance : isInstance block .block m = .ok true m := by
    rw [isInstance]
    refine query_of_eq_ok ?_
    simp [hclosure.block.reference, hclosure.block.classOf, bind, Except.bind, pure, Except.pure]
  have hshape : ask (·.heap.codeShape block) m = .ok ⟨tm.args, tm.temps, tm.heapVars, tm.stack⟩ m :=
    query_of_eq_ok (hclosure.embodies.codeShape (by omega))
  have hslot : ∀ {k x}, m.image.heap.Holds ⟨block, k⟩ x → slot block k m = .ok x m :=
    fun hx => query_of_eq_ok hx.slot
  rw [invokeBlock, bind_of_eq_ok hinstance]
  simp only [Bool.not_true, Bool.false_eq_true, if_false]
  rw [bind_of_eq_ok hshape]
  simp only [hcount, ne_eq, not_true_eq_false, if_false]
  rw [bind_of_eq_ok (hslot hreceiver), bind_of_eq_ok (hslot hparent), bind_of_eq_ok (hslot hhome)]

/-- The invocation of a block with as many arguments as it takes runs it, unless there is no room.
-/
theorem Works.invokes (h : m.Works code constants w) (hlength : constants.length ≤ 3)
    (hprim : Primitive.ofIndex? index.toNat = some .blockInvoke)
    (hargs : Picks w.registers (registerRun first count) (block :: values))
    (hclosure : m.image.Closure block tm)
    (hsmall : tm.args + tm.temps + tm.heapVars + tm.stack < 0x10000000)
    (hcount : values.length = tm.args) :
    (∃ e m', execute (.primitiveV index first count) m = .error (.failure (.allocation e)) m') ∨
    ∃ t receiver m', execute (.primitiveV index first count) m = .ok () m' ∧
      m.Called code constants w tm [] values t receiver m' ∧
      ∃ block', t block block' ∧
        m'.image.heap.Holds ⟨m'.context, Slot.Context.method⟩ block' := by
  obtain ⟨t, m₁, hsafe, hr, hm₁⟩ := h.ready.safepoint
  have hpauses : m.Pauses (.primitiveV index first count) :=
    ⟨_, _, rfl, by rw [hprim]; rfl⟩
  have hp : m.Pause (.primitiveV index first count) m₁ := .inl ⟨hpauses, hsafe⟩
  have htransient := hr.retains.mono h.ready.transient
  have whole := h.ready.intact.whole
  obtain ⟨constants', w', hworks, -, -, hcc, hrr⟩ := h.resume hlength hr hm₁
  obtain ⟨all, hargs', hall⟩ := hargs.moved hrr
  cases hall with
  | @cons _ block' _ values' hbb hvv =>
  have hclosure' := htransient.closure whole h.ready.kinds hbb hclosure
  obtain ⟨home, hhome⟩ := hclosure'.fields
  obtain ⟨receiver, hreceiver⟩ := hhome.before hm₁.intact.whole (k := 8) (by decide)
  obtain ⟨parent, hparent⟩ := hhome.before hm₁.intact.whole (k := 9) (by decide)
  have hinvoke := invokeBlock_eq hclosure' hsmall (hvv.length_eq ▸ hcount) hreceiver hparent hhome
  have heq : execute (.primitiveV index first count) m =
      activate block' receiver values' parent (some home) m₁ := by
    have hregisters : Machine.registers (registerRun first count) m₁ = .ok (block' :: values') m₁ :=
      registers_of_picks hworks.registers hargs'
    change callPrimitive index (Machine.registers (registerRun first count)) m = _
    rw [callPrimitive, hprim]
    dsimp only
    rw [bind_of_eq_ok hsafe, bind_of_eq_ok hregisters]
    change ((invokeBlock block' values' >>= fun _ => pure Value.nil) >>= fun _ => pure ()) m₁ = _
    cases hend : activate block' receiver values' parent (some home) m₁ with
    | ok u m₂ => exact bind_of_eq_ok (bind_of_eq_ok (hinvoke.trans hend))
    | error e m₂ => exact bind_of_eq_error (bind_of_eq_error (hinvoke.trans hend))
  rcases h.calls hlength hp hr hm₁ (steps_of_enters (.inr ⟨_, _, rfl, hprim⟩)) heq
    (hclosure'.block.inert hm₁.kinds (by decide) (by decide)) hclosure'.embodies .nil (by simp) hvv
    hcount hsmall (hreceiver.value_sane hm₁.intact.whole) (hparent.value_sane hm₁.intact.whole)
    (fun v hv => Option.some.inj hv ▸ hhome.value_sane hm₁.intact.whole) with
    hfull | ⟨t', m', hexecute, hcalled, hmethod, ht⟩
  · exact .inl hfull
  · exact .inr ⟨t', receiver, m', hexecute, hcalled, block', ht _ _ hbb, hmethod⟩

end Calls

section Returns

variable {code' : Array UInt8} {constants' registers' : List Value} {v caller : Value} {pc : Nat}

/-- A return writes to the position of its context only. -/
theorem steps_of_returns (hi : i = .return_ ∨ i = .returnSelf) : m.Steps i := by
  have hcalls : ∀ prim values, ¬m.Calls i prim values := by
    rintro prim values ⟨index, act, hcall, -, -⟩
    rcases hi with rfl | rfl <;> cases hcall
  have hschedules : ¬m.Schedules i := by
    rintro ⟨prim, values, hc, -⟩
    exact hcalls prim values hc
  refine ⟨fun c x hx => ?_, hschedules⟩
  cases hx with
  | position => rfl
  | ended hends =>
    cases hends with
    | return_ | returnSelf => rfl
    | primitive hc hprim => exact absurd hc (hcalls _ _)
  | register hset => rcases hi with rfl | rfl <;> cases hset
  | stored hstores =>
    cases hstores with
    | primitive hc hprim => exact absurd hc (hcalls _ _)
    | _ => simp at hi
  | link hs | state hs => exact absurd hs hschedules

/-- A value is returned to an activation that waits. -/
theorem returnValue_suspended (h : m.Ready)
    (hprevious : m.image.heap.Holds ⟨m.context, Slot.Context.previous⟩ caller)
    (hs : m.image.Suspends caller code' constants' pc registers') (hlength : constants'.length ≤ 3)
    (hpc : pc < 0x1000000000000000) (hne : caller ≠ m.context) :
    ∃ heap method literals code cache epoch, returnValue v m = .ok () { m with
      image := { m.image with heap }, context := caller, accumulator := v,
      method, literals, code, cache, epoch, pc } := by
  obtain ⟨x, hx⟩ := h.contextSlots Slot.Context.pc (by decide)
  obtain ⟨h₁, hset, hr⟩ := hx.write h.intact.whole (x := .nil) (Arenas.sane_nil _) (ε := HeapError)
  have hretains := (hr.builds (w := (· = ⟨m.context, Slot.Context.pc⟩)) rfl).retains
    h.intact.whole
  have hstored : setSlot m.context Slot.Context.pc .nil m =
      .ok () { m with image := { m.image with heap := h₁ } } := setSlot_of_eq_ok hset
  have hlow : ∀ u k, k < 3 → (⟨u, k⟩ : Cell) ≠ ⟨m.context, Slot.Context.pc⟩ := by
    rintro u k hk heq
    have := congrArg Cell.index heq
    simp only [Slot.Context.pc] at this
    omega
  have hposition : h₁.Holds ⟨caller, Slot.Context.pc⟩ (.ofNat pc) :=
    hr.others (fun heq => hne (congrArg Cell.object heq)) hs.position
  obtain ⟨constants'', -, hhosts⟩ :=
    hretains.hosts ⟨rfl, hs.context.sane⟩ hlow hlength hs.hosts
  obtain ⟨method, literals, code, cache, epoch, hload⟩ := loadFrame_hosted
    (m := { m with image := { m.image with heap := h₁ }, accumulator := v, context := caller })
    hhosts hposition hpc
  refine ⟨h₁, method, literals, code, cache, epoch, ?_⟩
  have hcaller : slot m.context Slot.Context.previous
      { m with image := { m.image with heap := h₁ } } =
      .ok caller { m with image := { m.image with heap := h₁ } } :=
    query_of_eq_ok (hr.others (hlow _ _ (by decide)) hprevious).slot
  have hwaits : slot caller Slot.Context.pc
      { m with image := { m.image with heap := h₁ }, accumulator := v } =
      .ok (.ofNat pc) { m with image := { m.image with heap := h₁ }, accumulator := v } :=
    query_of_eq_ok hposition.slot
  have hwaiting : ¬(Value.ofNat pc).isNil := fun hnil =>
    Value.ne_nil_of_isInteger (by simp) (Value.eq_nil_of_isNil hnil)
  rw [returnValue, get_bind, bind_of_eq_ok hstored, bind_of_eq_ok hcaller, continueIn,
    setAccumulator, modify_bind, if_neg hposition.not_isNil, bind_of_eq_ok hwaits]
  rw [if_neg hwaiting]
  exact hload

/-- An activation that returns leads back to the one that waits for it. -/
theorem Works.returns (h : m.Works code constants w)
    (hi : i = .return_ ∧ w.accumulator = v ∨ i = .returnSelf ∧ w.registers[0]? = some v)
    (hprevious : m.image.heap.Holds ⟨m.context, Slot.Context.previous⟩ caller)
    (hs : m.image.Suspends caller code' constants' pc registers') (hlength : constants'.length ≤ 3)
    (hpc : pc < 0x1000000000000000) (hne : caller ≠ m.context) (hself : registers' ≠ []) :
    ∃ m', execute i m = .ok () m' ∧
      m.image.Retains (· = ⟨m.context, Slot.Context.pc⟩) (.still m.image.heap) m'.image ∧
      m'.context = caller ∧ m'.Works code' constants' ⟨pc, v, registers'⟩ := by
  have hkind : i = .return_ ∨ i = .returnSelf := hi.imp And.left And.left
  have hread : execute i m = returnValue v m := by
    rcases hi with ⟨rfl, hv⟩ | ⟨rfl, hv⟩
    · change (get >>= fun m => returnValue m.accumulator) m = _
      rw [get_bind, h.accumulator, hv]
    · have hregister : register 0 m = .ok v m := query_of_eq_ok (h.registers.get hv).slot
      exact bind_of_eq_ok hregister
  obtain ⟨heap, method, literals, code₁, cache, epoch, hend⟩ :=
    returnValue_suspended (v := v) h.ready hprevious hs hlength hpc hne
  have heq := hread.trans hend
  have hp : m.Pause i m := by
    refine .inr ⟨?_, rfl⟩
    rintro hpauses
    rcases hkind with rfl | rfl
    all_goals
      obtain ⟨_, _, hcall, -⟩ := hpauses
      cases hcall
  have hsteps := steps_of_returns (m := m) hkind
  have hretains := (h.ready.retains_executed hp h.ready heq).mono
    (w := (· = ⟨m.context, Slot.Context.pc⟩)) fun hx => hsteps.1 _ _ hx.choose_spec
  have hlow : ∀ (u : Value) k, k < 3 → (⟨u, k⟩ : Cell) ≠ ⟨m.context, Slot.Context.pc⟩ := by
    rintro u k hk hcell
    have := congrArg Cell.index hcell
    simp only [Slot.Context.pc] at this
    omega
  obtain ⟨constants'', registers'', hcc, hrr, hs'⟩ := hretains.suspends h.ready.intact.whole
    ⟨rfl, hs.context.sane⟩ hlow (fun k hcell => hne (congrArg Cell.object hcell)) hlength hs
  obtain rfl := Heap.eq_of_still hcc
  obtain rfl := Heap.eq_of_still hrr
  obtain ⟨x, xs, rfl⟩ := List.exists_cons_of_ne_nil hself
  refine ⟨_, heq, hretains, rfl, ?_, hs'.hosts, rfl, rfl, hs'.registers⟩
  refine h.ready.executed hp h.ready heq (fun c x hx => ?_) hsteps.2 hs'.hosts hs'.context
    ⟨_, hs'.registers.get (k := 0) rfl⟩ hpc h.ready.running h.ready.calm
  rw [hsteps.1 c x hx]

end Returns

section Windows

variable {r : Routine} {w' : Window}

structure Suits (m : Machine) (r : Routine) (constants : List Value) : Prop where
  constants : r.constants = constants
  yes : m.image.trueObject = r.setting.yes
  no : m.image.falseObject = r.setting.no
  yes_ne : r.setting.yes ≠ .nil
  no_ne : r.setting.no ≠ .nil

theorem Suits.truthy (hr : m.Suits r constants) (v : Value) :
    m.image.isTruthy v = r.setting.truthy v := by
  rw [Image.isTruthy, Setting.truthy, hr.no, Value.isNil, Value.nil]
  obtain ⟨raw⟩ := v
  simp [bne, beq_eq_decide]

/-- Registers stay but for the one that is set. -/
theorem Works.stores (h : m.Works code constants w) {reg : UInt8}
    (hreg : reg.toNat < w.registers.length) :
    ∃ heap, setRegister reg m.accumulator m = .ok () { m with image := { m.image with heap } } ∧
      heap.Row m.context Slot.Context.registers (w.registers.set reg.toNat w.accumulator) := by
  have hold := h.registers.get (List.getElem?_eq_getElem hreg)
  obtain ⟨heap, hset, hr⟩ := hold.write h.ready.intact.whole
    (x := m.accumulator) (h.ready.intact.held _ (by simp)) (ε := HeapError)
  refine ⟨heap, setSlot_of_eq_ok hset, fun k y hy => ?_⟩
  by_cases hk : reg.toNat = k
  · subst hk
    rw [List.getElem?_set_self hreg, ← h.accumulator] at hy
    exact Option.some.inj hy ▸ hr.written
  · rw [List.getElem?_set_ne hk] at hy
    refine hr.others (fun heq => hk ?_) (h.registers.get hy)
    exact (Nat.add_left_cancel (congrArg Cell.index heq)).symm

def shown (m : Machine) (heap : Heap) (w : Window) : Machine :=
  { m with image := { m.image with heap }, pc := w.pc, accumulator := w.accumulator }

/-- An instruction that needs no more than the window of its activation. -/
theorem Works.executes (h : m.Works code constants w) (hr : m.Suits r constants)
    (hi : w.execute r i = some w') : ∃ heap, execute i m = .ok () (m.shown heap w') ∧
      heap.Row m.context Slot.Context.registers w'.registers := by
  have hload : ∀ v, { m with accumulator := v } =
      m.shown m.image.heap { w with accumulator := v } := by
    intro v
    rw [shown, ← h.pc]
  have hjump : ∀ pc, { m with pc } = m.shown m.image.heap { w with pc } := by
    intro pc
    rw [shown, ← h.accumulator]
  have hstay : m = m.shown m.image.heap w := by
    rw [shown, ← h.pc, ← h.accumulator]
  have hregister : ∀ {reg : UInt8} {v : Value}, w.registers[reg.toNat]? = some v →
      register reg m = .ok v m := fun hv => query_of_eq_ok (h.registers.get hv).slot
  have hbranch : ∀ offset, execute (.jump offset) m =
      .ok () (m.shown m.image.heap { w with pc := jumped w.pc offset }) := by
    intro offset
    rw [← hjump, ← h.pc]
    rfl
  cases i
  case loadNil =>
    cases hi
    exact ⟨_, congrArg (EStateM.Result.ok ()) (hload _), h.registers⟩
  case loadTrue =>
    cases hi
    rw [← hr.yes]
    exact ⟨_, congrArg (EStateM.Result.ok ()) (hload _), h.registers⟩
  case loadFalse =>
    cases hi
    rw [← hr.no]
    exact ⟨_, congrArg (EStateM.Result.ok ()) (hload _), h.registers⟩
  case loadLiteral index =>
    obtain ⟨v, hv, hw⟩ := Option.bind_eq_some_iff.mp hi
    cases hw
    have hcell := h.literals.get (hr.constants ▸ hv)
    rw [Nat.zero_add] at hcell
    exact ⟨_, query_bind_eq_ok.mpr ⟨v, hcell.slot, congrArg (EStateM.Result.ok ()) (hload v)⟩,
      h.registers⟩
  case loadRegister reg =>
    obtain ⟨v, hv, hw⟩ := Option.bind_eq_some_iff.mp hi
    cases hw
    exact ⟨_, bind_eq_ok.mpr ⟨v, m, hregister hv, congrArg (EStateM.Result.ok ()) (hload v)⟩,
      h.registers⟩
  case storeRegister reg =>
    rw [Window.execute] at hi
    split at hi
    · rename_i hreg
      cases hi
      obtain ⟨heap, hset, hrow⟩ := h.stores hreg
      refine ⟨heap, hset.trans ?_, hrow⟩
      rw [shown, ← h.pc, ← h.accumulator]
    · cases hi
  case jump offset =>
    cases hi
    exact ⟨_, hbranch offset, h.registers⟩
  case branchIfFalse offset =>
    cases hi
    rw [execute, get_bind, hr.truthy, h.accumulator]
    cases r.setting.truthy w.accumulator with
    | true => exact ⟨_, congrArg (EStateM.Result.ok ()) hstay, h.registers⟩
    | false => exact ⟨_, hbranch offset, h.registers⟩
  case branchIfTrue offset =>
    cases hi
    rw [execute, get_bind, hr.truthy, h.accumulator]
    cases r.setting.truthy w.accumulator with
    | true => exact ⟨_, hbranch offset, h.registers⟩
    | false => exact ⟨_, congrArg (EStateM.Result.ok ()) hstay, h.registers⟩
  case binaryOp reg op =>
    obtain ⟨left, hleft, hrest⟩ := Option.bind_eq_some_iff.mp hi
    obtain ⟨v, hv, hw⟩ := Option.bind_eq_some_iff.mp hrest
    cases hw
    rw [← h.accumulator] at hv
    have hresult := runPrimitive_apply (m := m) hr.yes hr.no hv
    have hne : v.isNil = false := by
      have := BinaryOp.apply_ne_nil hr.yes_ne hr.no_ne hv
      obtain ⟨raw⟩ := v
      simpa [Value.isNil, Value.nil] using this
    refine ⟨_, bind_eq_ok.mpr ⟨left, m, hregister hleft, ?_⟩, h.registers⟩
    rw [get_bind]
    refine bind_eq_ok.mpr ⟨v, m, hresult, ?_⟩
    rw [hne]
    exact congrArg (EStateM.Result.ok ()) (hload v)
  all_goals cases hi

theorem call?_of_window (hi : w.execute r i = some w') : call? i = none := by
  cases i <;> first | rfl | cases hi

/-- What a window can do stores nothing but registers. -/
theorem writes_of_window (hi : w.execute r i = some w') {c : Cell} {x : Value}
    (hx : m.Writes i c x) : c.object = m.context ∧ 3 ≤ c.index := by
  have hcalls : ∀ prim values, ¬m.Calls i prim values := by
    rintro prim values ⟨index, act, hcall, -, -⟩
    cases hcall.symm.trans (call?_of_window hi)
  have hschedules : ¬m.Schedules i := by
    rintro ⟨prim, values, hc, -⟩
    exact hcalls prim values hc
  cases hx with
  | position => exact ⟨rfl, Nat.le_refl _⟩
  | ended hends =>
    cases hends with
    | return_ | returnSelf => cases hi
    | primitive hc hprim => exact absurd hc (hcalls _ _)
  | register hset => exact ⟨rfl, Nat.le_add_right_of_le (by decide)⟩
  | stored hstores =>
    cases hstores with
    | primitive hc hprim => exact absurd hc (hcalls _ _)
    | _ => cases hi
  | link hs | state hs => exact absurd hs hschedules

theorem Works.not_pauses (h : m.Works code constants w) (hr : m.Suits r constants)
    (hi : w.execute r i = some w') : ¬m.Pauses i := by
  intro hpauses
  cases i
  case binaryOp reg op =>
    obtain ⟨left, hleft, hrest⟩ := Option.bind_eq_some_iff.mp hi
    obtain ⟨v, hv, -⟩ := Option.bind_eq_some_iff.mp hrest
    obtain ⟨left', hleft', hundefined⟩ := hpauses
    obtain rfl := Except.ok.inj ((h.registers.get hleft).slot.symm.trans hleft')
    rw [← h.accumulator] at hv
    have hresult := runPrimitive_apply (m := m) hr.yes hr.no hv
    obtain ⟨rfl, -⟩ := EStateM.Result.ok.inj (hresult.symm.trans hundefined)
    exact BinaryOp.apply_ne_nil hr.yes_ne hr.no_ne hv rfl
  case send | sendSuper | copyBlock => cases hi
  all_goals
    obtain ⟨_, _, hcall, -⟩ := hpauses
    cases hcall.symm.trans (call?_of_window hi)

/-- The activation goes on with its window, and nothing else changes. -/
theorem Works.turns (h : m.Works code constants w) (hr : m.Suits r constants)
    (hlength : constants.length ≤ 3) (hi : w.execute r i = some w')
    (hpc : w'.pc < 0x1000000000000000) (hself : w.registers ≠ []) :
    ∃ m', execute i m = .ok () m' ∧
      m.image.Retains (fun c => c.object = m.context ∧ 3 ≤ c.index) (.still m.image.heap)
        m'.image ∧
      m'.context = m.context ∧ m'.Works code constants w' := by
  obtain ⟨heap, heq, hrow⟩ := h.executes hr hi
  have hp : m.Pause i m := .inr ⟨h.not_pauses hr hi, rfl⟩
  have hretains := (h.ready.retains_executed hp h.ready heq).mono
    (w := fun c => c.object = m.context ∧ 3 ≤ c.index)
    fun hx => writes_of_window hi hx.choose_spec
  obtain ⟨constants', hcc, hhosts⟩ := hretains.heap.hosts ⟨rfl, h.ready.inContext.sane⟩
    (fun u k hk hc => absurd hc.2 (Nat.not_le.mpr hk)) hlength h.hosts
  obtain rfl := Heap.eq_of_still hcc
  have hcontext := (hretains.instance_iff h.ready.intact.whole
    ⟨rfl, h.ready.inContext.sane⟩).mpr h.ready.inContext
  have hschedules : ¬m.Schedules i := by
    rintro ⟨prim, values, ⟨index, act, hcall, -, -⟩, -⟩
    cases hcall.symm.trans (call?_of_window hi)
  have hself' : w'.registers ≠ [] := by
    rwa [← List.length_pos_iff, Window.length_of_execute hi, List.length_pos_iff]
  obtain ⟨v, vs, hregisters⟩ := List.exists_cons_of_ne_nil hself'
  refine ⟨_, heq, hretains, rfl, ?_, hhosts, rfl, rfl, hrow⟩
  refine h.ready.executed hp h.ready heq (fun c x hx => (writes_of_window hi hx).2) hschedules
    hhosts hcontext ⟨v, hrow.get (k := 0) (by rw [hregisters]; rfl)⟩ hpc h.ready.running
    h.ready.calm

end Windows

end Machine

end ObjectMachine
