import ObjectMachine.Proofs.Machine.Framing
import ObjectMachine.Proofs.Machine.Heeding

namespace ObjectMachine

/-- A read whose step breaks no rule delivers, and what follows starts from the same state. -/
theorem Action.Unfailing.delivers {ε σ α β : Type} {act : Action ε σ α} {next : α → Action ε σ β}
    {s : σ} (hact : act.Unfailing) (hread : ∀ {a s'}, act s = .ok a s' → s' = s)
    (hfault : ∀ f s', (act >>= next) s ≠ .error (.fault f) s') :
    ∃ a, act s = .ok a s ∧ (act >>= next) s = next a s := by
  cases heq : act s with
  | ok a s' =>
    obtain rfl := hread heq
    exact ⟨a, rfl, bind_of_eq_ok heq⟩
  | error e s' =>
    cases e with
    | failure cause => exact absurd heq (hact s cause s')
    | fault f => exact absurd (bind_of_eq_error heq) (hfault f s')

namespace Machine

variable {m m' m₁ : Machine}

section Seating

def Seated (m : Machine) : Prop := m.image.heap.Holds ⟨m.context, Slot.Context.method⟩ m.method

theorem loadFrame_seated (hm : Intact m') (heq : loadFrame m = .ok () m') : m'.Seated := by
  obtain ⟨_, _, _, _, _, _, hmethod, -, rfl⟩ := loadFrame_eq_ok heq
  exact ⟨hm.held _ (by simp), hmethod⟩

theorem unspill_seated (hm : Intact m') (heq : unspill m = .ok () m') : m'.Seated := by
  obtain ⟨_, _, _, _, _, _, _, _, -, -, hmethod, -, rfl⟩ := unspill_eq_ok heq
  exact ⟨hm.held _ (by simp), hmethod⟩

theorem Pause.seated {i : Instruction} (hp : m.Pause i m₁) (hm₁ : Intact m₁) (hs : m.Seated) :
    m₁.Seated := by
  rcases hp with ⟨-, hsafe⟩ | ⟨-, rfl⟩
  · by_cases hneeds : m.image.heap.needsCollection
    · obtain ⟨_, _, _, _, -, -, hunspill⟩ := safepoint_collects hneeds hsafe
      exact unspill_seated hm₁ hunspill
    · rw [safepoint, get_bind, if_neg hneeds] at hsafe
      obtain ⟨-, rfl⟩ := pure_eq_ok.mp hsafe
      exact hs
  · exact hs

variable {W : Licence} {F : Value → Prop} {K : Array Value} {S : Schedule → Prop} {p : Value}

theorem Seated.same (hs : m.Seated) (hm' : Within W F K S p m.image.heap m')
    (hsame : SameFrame m m') (hkept : ∀ x, ¬W ⟨m.context, Slot.Context.method⟩ x) :
    m'.Seated := by
  rw [Seated, hsame.context, hsame.method]
  exact hm'.evolves.holds hs fun y hy => absurd hy (hkept y)

/-- Wherever a step of the machine ends, the method is that of the context, unless something is
stored over that of the context it starts in. -/
theorem Lands.seated (hl : m.Lands m') (hm' : Within W F K S p m.image.heap m') (hs : m.Seated)
    (hkept : ∀ x, ¬W ⟨m.context, Slot.Context.method⟩ x) : m'.Seated := by
  cases hl with
  | stays h => exact hs.same hm' (h SameFrame) hkept
  | loads _ hload => exact loadFrame_seated hm'.intact hload
  | returns h hend =>
    subst hend
    obtain ⟨hcontext, hmethod, hliterals, hcode, hcache, hepoch⟩ := h SameFrame
    exact hs.same hm' ⟨hcontext, hmethod, hliterals, hcode, hcache, hepoch⟩ hkept

end Seating

section Sending

variable {selector : UInt8} {args : ArgRegisters} {name cls sup receiver : Value}
  {values : List Value}

/-- The message that an instruction sends: a selector among the literals, and the arguments. -/
structure Says (m : Machine) (selector : UInt8) (args : ArgRegisters) (name : Value)
    (values : List Value) : Prop where
  selector : m.image.heap.slot m.literals selector.toNat = .ok name
  arguments : registers args.regs m = .ok values m

def superFrom (name receiver : Value) (values : List Value) : MachineAction Unit := do
  let cls ← slot (← get).method Slot.Code.methodClass
  let sup ← ask (·.heap.superclass cls)
  dispatch name receiver values sup

/-- A send to super looks up its message from above the class of the code that is running. -/
theorem sendSuper_dispatches (hp : m.Pause (.sendSuper selector args) m₁)
    (whole : m₁.image.heap.Whole)
    (hcls : m₁.image.heap.Holds ⟨m₁.method, Slot.Code.methodClass⟩ cls)
    (hfault : ∀ f m', execute (.sendSuper selector args) m ≠ .error (.fault f) m') :
    ∃ sup name values, m₁.image.heap.Holds ⟨cls, Slot.Class.superclass⟩ sup ∧
      m₁.Says selector args name values ∧
      execute (.sendSuper selector args) m = dispatch name m₁.accumulator values sup m₁ := by
  have hread : execute (.sendSuper selector args) m = (literal selector >>= fun name =>
      get >>= fun m => registers args.regs >>= superFrom name m.accumulator) m₁ :=
    hp.eq_of_pauses trivial
  have hliteral : (literal selector).Unfailing := .query _
  obtain ⟨name, hname, heq⟩ := hliteral.delivers (fun h => (query_eq_ok h).2)
    fun f m' h => hfault f m' (hread.trans h)
  have hread : execute (.sendSuper selector args) m =
      (registers args.regs >>= superFrom name m₁.accumulator) m₁ := hread.trans heq
  obtain ⟨values, hvalues, heq⟩ := Action.Unfailing.delivers (registers_unfailing _)
    registers_eq_ok fun f m' h => hfault f m' (hread.trans h)
  have hclass : slot m₁.method Slot.Code.methodClass m₁ = .ok cls m₁ := query_of_eq_ok hcls.slot
  have hread : execute (.sendSuper selector args) m = (ask (·.heap.superclass cls) >>=
      dispatch name m₁.accumulator values) m₁ := by
    rw [hread, heq, superFrom, get_bind, bind_of_eq_ok hclass]
  have hask : (ask (·.heap.superclass cls)).Unfailing := .query _
  obtain ⟨sup, hsup, heq⟩ := hask.delivers (fun h => (query_eq_ok h).2)
    fun f m' h => hfault f m' (hread.trans h)
  exact ⟨sup, name, values, ⟨hcls.value_sane whole, (query_eq_ok hsup).1⟩,
    ⟨(query_eq_ok hname).1, hvalues⟩, hread.trans heq⟩

def readFrame (h : Heap) (context : Value) : Except Fault (Array UInt8) := do
  let method ← h.slot context Slot.Context.method
  let _ ← h.slot method Slot.Code.literals
  let _ ← h.slot context Slot.Context.pc
  let bytes ← h.slot method Slot.Code.bytecode
  h.bytes bytes

theorem fetchCode_delivers {bytes : Value} {code : Array UInt8}
    (hbytes : m.image.heap.bytes bytes = .ok code) :
    ∃ code' m', fetchCode bytes m = .ok code' m' := by
  obtain ⟨cache, epoch, hm⟩ := m.refreshed_eq
  rw [fetchCode_eq, hm, hbytes]
  split <;> exact ⟨_, _, rfl⟩

theorem loadFrame_delivers {code : Array UInt8}
    (heq : readFrame m.image.heap m.context = .ok code) : ∃ m', loadFrame m = .ok () m' := by
  simp only [readFrame, except_bind_eq_ok] at heq
  obtain ⟨method, hmethod, literals, hliterals, pc, hpc, bytes, hbytes, hcode⟩ := heq
  obtain ⟨code', m₁, hfetch⟩ := fetchCode_delivers hcode
  refine ⟨{ m₁ with method, literals, pc := pc.toNat?.getD 0, code := code' }, ?_⟩
  refine query_bind_eq_ok.mpr ⟨method, hmethod, query_bind_eq_ok.mpr ⟨literals, hliterals, ?_⟩⟩
  refine query_bind_eq_ok.mpr ⟨pc, hpc, query_bind_eq_ok.mpr ⟨bytes, hbytes, ?_⟩⟩
  exact bind_eq_ok.mpr ⟨code', m₁, hfetch, rfl⟩

def contextFor (method receiver : Value) (args : List Value) : MachineAction Value := do
  let m ← get
  setSlot m.context Slot.Context.pc (.ofNat m.pc)
  onImage (Image.newContext method receiver args m.context .nil none)

/-- Whether a message is found, and a context can be made for the method that can be read. -/
def enters (m : Machine) (name receiver : Value) (args : List Value) (cls : Value) : Bool :=
  match m.image.heap.lookup cls name with
  | .ok (some (method, _)) =>
    match contextFor method receiver args m with
    | .ok context m₁ => (readFrame m₁.image.heap context).isOk
    | .error _ _ => false
  | _ => false

theorem dispatch_of_enters (henters : m.enters name receiver values cls) :
    ∃ m', dispatch name receiver values cls m = .ok () m' := by
  rw [enters] at henters
  split at henters
  · rename_i method holder hfound
    split at henters
    · rename_i context m₁ hmade
      obtain ⟨code, hread⟩ : ∃ code, readFrame m₁.image.heap context = .ok code := by
        cases hread : readFrame m₁.image.heap context with
        | ok code => exact ⟨code, rfl⟩
        | error f => exact nomatch hread ▸ henters
      obtain ⟨m', hload⟩ := loadFrame_delivers (m := { m₁ with context }) hread
      rw [contextFor, get_bind] at hmade
      obtain ⟨_, m₂, hset, hmade⟩ := bind_eq_ok.mp hmade
      refine ⟨m', query_bind_eq_ok.mpr ⟨_, hfound, ?_⟩⟩
      change activate method receiver values .nil none m = _
      rw [activate, get_bind]
      exact bind_eq_ok.mpr ⟨_, m₂, hset, bind_eq_ok.mpr ⟨context, m₁, hmade, hload⟩⟩
    · cases henters
  · cases henters

theorem execute_sendSuper (hp : m.Pause (.sendSuper selector args) m₁)
    (hmessage : m₁.Says selector args name values)
    (hcls : m₁.image.heap.slot m₁.method Slot.Code.methodClass = .ok cls)
    (hsup : m₁.image.heap.superclass cls = .ok sup) :
    execute (.sendSuper selector args) m = dispatch name m₁.accumulator values sup m₁ := by
  have hread : execute (.sendSuper selector args) m = (literal selector >>= fun name =>
      get >>= fun m => registers args.regs >>= superFrom name m.accumulator) m₁ :=
    hp.eq_of_pauses trivial
  have hname : literal selector m₁ = .ok name m₁ := query_of_eq_ok hmessage.selector
  have hclass : slot m₁.method Slot.Code.methodClass m₁ = .ok cls m₁ := query_of_eq_ok hcls
  rw [hread, bind_of_eq_ok hname, get_bind, bind_of_eq_ok hmessage.arguments, superFrom, get_bind,
    bind_of_eq_ok hclass]
  exact bind_of_eq_ok (query_of_eq_ok hsup)

end Sending

end Machine

end ObjectMachine
