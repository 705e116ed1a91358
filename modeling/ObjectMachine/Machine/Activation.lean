import ObjectMachine.Machine.Basic

namespace ObjectMachine.Machine

/-- Enters a fresh context after the position of the caller is saved. -/
def activate (code receiver : Value) (args : List Value) (parentHeapVars : Value)
    (home : Option Value) : MachineAction Unit := do
  let m ← get
  let caller := m.context
  let pc := Value.ofNat m.pc
  setSlot caller Slot.Context.pc pc
  let context ← onImage (Image.newContext code receiver args caller parentHeapVars home)
  modify fun m => { m with context }
  loadFrame

/-- Runs the method for a selector that `cls` or the nearest class above it defines. -/
def dispatch (selector receiver : Value) (args : List Value) (cls : Value) :
    MachineAction Unit := do
  match ← ask (·.heap.lookup cls selector) with
  | some (method, _) => activate method receiver args .nil none
  | none =>
    let name ← ask fun i => do i.heap.className (← i.classOf receiver)
    let text ← ask (·.heap.text selector)
    Action.fail (.messageNotUnderstood name text (← trace))

/-- Sends a message to the accumulator. A send to super starts above the class of the method. -/
def send (selector : UInt8) (args : ArgRegisters) (toSuper : Bool) : MachineAction Unit := do
  safepoint
  let selector ← literal selector
  let receiver := (← get).accumulator
  let values ← registers args.regs
  let cls ←
    if toSuper then do
      let defining ← slot (← get).method Slot.Code.methodClass
      ask (·.heap.superclass defining)
    else ask (·.classOf receiver)
  dispatch selector receiver values cls

def copyBlock (index : UInt8) : MachineAction Unit := do
  safepoint
  let template ← literal index
  let blockClass := (← get).image.kernelClass .block
  let block ← onHeap (Heap.allocatePointers blockClass Slot.Block.count)
  let fields ← ask fun i => (List.range Slot.Code.count).mapM (i.heap.slot template)
  onImage (Image.fillSlots block 0 fields)
  let context := (← get).context
  setSlot block Slot.Block.receiver (← slot context Slot.Context.registers)
  setSlot block Slot.Block.parentHeapVars (← slot context Slot.Context.heapVars)
  setSlot block Slot.Block.home (← slot context Slot.Context.home)
  setAccumulator block

/-- Goes on in a context with a value; without a context the run ends. -/
def continueIn (target value : Value) : MachineAction Unit := do
  setAccumulator value
  if target.isNil then
    request (.returned value)
  else
    if (← slot target Slot.Context.pc).isNil then
      Action.fail (.deadContext (← trace))
    modify fun m => { m with context := target }
    loadFrame

def returnValue (value : Value) : MachineAction Unit := do
  let context := (← get).context
  setSlot context Slot.Context.pc .nil
  continueIn (← slot context Slot.Context.previous) value

/-- Whether a value is an instance of exactly the given class. -/
def isInstance (v : Value) (k : KernelClass) : MachineAction Bool :=
  ask fun i => do
    if v.isReference then return decide ((← i.classOf v) = i.kernelClass k) else return false

/-- Runs a block in a context whose caller is the current one. Anything but a block that takes
these arguments answers nil. -/
def invokeBlock (block : Value) (args : List Value) : MachineAction Unit := do
  if !(← isInstance block .block) then
    setAccumulator .nil
  else if (← ask (·.heap.codeShape block)).args ≠ args.length then
    setAccumulator .nil
  else
    let receiver ← slot block Slot.Block.receiver
    let parent ← slot block Slot.Block.parentHeapVars
    let home ← slot block Slot.Block.home
    activate block receiver args parent (some home)

/-- Copies heap variable `own` of a context back to its parent. -/
def restore (context : Value) (own parent : UInt8) : MachineAction Unit := do
  let mine ← slot context Slot.Context.heapVars
  let value ← slot mine own.toNat
  let theirs ← slot context Slot.Context.parentHeapVars
  setSlot theirs parent.toNat value

/-- Restores the slots that the leading promotions of some code copied. -/
def restoreLeading (context : Value) : List (Nat × Instruction) → MachineAction Unit
  | (_, .promote own parent) :: rest => do
    restore context own parent
    restoreLeading context rest
  | _ => return

def unwind (context : Value) : MachineAction Unit := do
  let code ← slot context Slot.Context.method
  let m ← get
  let blockClass := m.image.kernelClass .block
  if (← ask (·.classOf code)) = blockClass then
    let bytecode ← slot code Slot.Code.bytecode
    let bytes ← ask (·.heap.bytes bytecode)
    restoreLeading context (Code.decodeAll bytes).1

/-- The contexts from `cursor` up to `home`, after those in `seen`, of which the latest comes
first; none if `home` is not among them. -/
def chainTo (h : Heap) (home : Value) :
    Nat → List Value → Value → Except Fault (Option (List Value))
  | 0, _, _ => .error .endless
  | fuel + 1, seen, cursor =>
    if cursor.isNil then return none
    else if cursor = home then return some (cursor :: seen).reverse
    else do chainTo h home fuel (cursor :: seen) (← h.slot cursor Slot.Context.previous)

/-- Ends contexts, innermost first. -/
def unwindAll : List Value → MachineAction Unit
  | [] => return
  | context :: rest => do
    unwind context
    setSlot context Slot.Context.pc .nil
    unwindAll rest

/-- Returns a value from the home method of the block that runs in context `source`. The contexts
in between end. A home that has returned, or is not on the current chain, is fatal. -/
def nonLocalReturn (source value : Value) : MachineAction Unit := do
  if !(← isInstance source .context) then
    setAccumulator .nil
  else
    let home ← slot source Slot.Context.home
    if home.isNil then
      Action.fail (.deadContext (← trace))
    if (← slot home Slot.Context.pc).isNil then
      Action.fail (.deadContext (← trace))
    let chain ← Action.query fun m =>
      chainTo m.image.heap home (m.image.heap.chainBound + 1) [] m.context
    match chain with
    | none => Action.fail (.deadContext (← trace))
    | some contexts =>
      unwindAll contexts
      continueIn (← slot home Slot.Context.previous) value

/-- Gives up the current chain and goes on in a context. -/
def returnInto (target value : Value) : MachineAction Unit := do
  if !(← isInstance target .context) then
    setAccumulator .nil
  else
    continueIn target value

end ObjectMachine.Machine
