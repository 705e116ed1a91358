import ObjectMachine.Machine.Primitive

namespace ObjectMachine.Machine

/-- Applies an operator to a register and the accumulator, or else sends its selector. -/
def binaryOp (reg : UInt8) (op : BinaryOp) : MachineAction Unit := do
  let left ← register reg
  let right := (← get).accumulator
  let result ← runPrimitive op.primitive [left, right]
  if !result.isNil then
    setAccumulator result
  else
    safepoint
    let receiver ← register reg
    let m ← get
    let arg := m.accumulator
    let selector := m.image.get (.selector op)
    let cls ← ask (·.classOf receiver)
    dispatch selector receiver [arg] cls

/-- Calls a primitive. Its arguments are read after garbage was collected. -/
def callPrimitive (index : UInt8) (args : MachineAction (List Value)) : MachineAction Unit := do
  match Primitive.ofIndex? index.toNat with
  | none =>
    let pc := (← get).start
    Action.fail (.invalidBytecode pc (.unknownPrimitive pc index) (← trace))
  | some p =>
    safepoint
    let result ← runPrimitive p (← args)
    if !p.switchesContext then
      setAccumulator result

def withAccumulator (regs : List UInt8) : MachineAction (List Value) := do
  let values ← registers regs
  return values ++ [(← get).accumulator]

def registerRun (first count : UInt8) : List UInt8 :=
  (List.range (min (first.toNat + count.toNat) 255 - first.toNat)).map fun k =>
    (first.toNat + k).toUInt8

def execute : Instruction → MachineAction Unit
  | .loadNil => setAccumulator .nil
  | .loadTrue => modify fun m => { m with accumulator := m.image.trueObject }
  | .loadFalse => modify fun m => { m with accumulator := m.image.falseObject }
  | .loadThisContext => modify fun m => { m with accumulator := m.context }
  | .loadGlobals => modify fun m => { m with accumulator := m.image.globals }
  | .loadInstVar i => do setAccumulator (← slot (← register 0) i.toNat)
  | .loadLiteral i => do setAccumulator (← literal i)
  | .loadOwn s => do setAccumulator (← slot (← heapVars Slot.Context.heapVars) s.toNat)
  | .loadParent s => do
    setAccumulator (← slot (← heapVars Slot.Context.parentHeapVars) s.toNat)
  | .loadGlobal l => do
    let key ← literal l
    setAccumulator ((← ask fun i => i.heap.dictionaryAt i.globals key).getD .nil)
  | .loadRegister r => do setAccumulator (← register r)
  | .storeInstVar i => do
    let receiver ← register 0
    setSlot receiver i.toNat (← get).accumulator
  | .storeOwn s => do
    let vars ← heapVars Slot.Context.heapVars
    setSlot vars s.toNat (← get).accumulator
  | .storeParent s => do
    let vars ← heapVars Slot.Context.parentHeapVars
    setSlot vars s.toNat (← get).accumulator
  | .storeGlobal l => do
    let key ← literal l
    let m ← get
    let linkClass := m.image.kernelClass .link
    let globals := m.image.globals
    let value := m.accumulator
    let _ ← onHeap (Heap.dictionaryPut linkClass globals key value)
  | .storeRegister r => do setRegister r (← get).accumulator
  | .promote own parent => do
    let value ← slot (← heapVars Slot.Context.parentHeapVars) parent.toNat
    let mine ← heapVars Slot.Context.heapVars
    setSlot mine own.toNat value
  | .restore parent own => do restore (← get).context own parent
  | .sync own parent reg => do
    let mine ← heapVars Slot.Context.heapVars
    let theirs ← heapVars Slot.Context.parentHeapVars
    let value ← slot mine own.toNat
    if value ≠ (← register reg) then
      setSlot theirs parent.toNat value
      setRegister reg value
    else
      let value ← slot theirs parent.toNat
      setSlot mine own.toNat value
      setRegister reg value
  | .jump offset => jump offset
  | .branchIfFalse offset => do
    let m ← get
    if !m.image.isTruthy m.accumulator then
      jump offset
  | .branchIfTrue offset => do
    let m ← get
    if m.image.isTruthy m.accumulator then
      jump offset
  | .binaryOp reg op => binaryOp reg op
  | .send selector args => send selector args false
  | .sendSuper selector args => send selector args true
  | .copyBlock l => copyBlock l
  | .primitive0 p => callPrimitive p (pure [])
  | .primitive1 p => callPrimitive p (withAccumulator [])
  | .primitive2 p reg => callPrimitive p (withAccumulator [reg])
  | .primitive3 p reg₁ reg₂ => callPrimitive p (withAccumulator [reg₁, reg₂])
  | .primitiveV p first count => callPrimitive p (registers (registerRun first count))
  | .return_ => do returnValue (← get).accumulator
  | .returnSelf => do returnValue (← register 0)

/-- Lets the timer make its request, if it is time. -/
def tick (timer : Timer) : MachineAction Unit :=
  modify fun m =>
    if timer.fires m.clock then
      { m with interrupts := m.interrupts.request, clock := m.clock + 1 }
    else { m with clock := m.clock + 1 }

/-- One turn of the machine: give way to a request, or execute an instruction. An outcome tells
that the run has ended. -/
def step (timer : Timer) : MachineAction (Option RunOutcome) := do
  tick timer
  if (← get).interrupts.pending then
    modify fun m => { m with interrupts := m.interrupts.poll.2 }
    spill
    return some .preempted
  let m ← get
  let pc := m.pc
  match Code.decodeAt m.code pc with
  | .error e => Action.fail (.invalidBytecode pc e (← trace))
  | .ok (instruction, next) =>
    modify fun m => { m with start := pc, pc := next }
    execute instruction
    match (← get).stop with
    | none => return none
    | some outcome =>
      modify fun m => { m with stop := none }
      match outcome with
      | .returned _ => return outcome
      | _ =>
        spill
        return outcome

/-- Runs until an outcome, for at most the given number of turns. -/
def run (timer : Timer) : Nat → MachineAction (Option RunOutcome)
  | 0 => return none
  | turns + 1 => do
    match ← step timer with
    | some outcome => return some outcome
    | none => run timer turns

end ObjectMachine.Machine
