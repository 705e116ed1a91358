import Std.Data.HashMap
import ObjectMachine.Scheduling.Schedule

namespace ObjectMachine

inductive RunOutcome where
  /-- The outermost activation returned. -/
  | returned (value : Value)
  | preempted
  | yielded
  | suspended
  deriving DecidableEq

/-- A machine that runs one process. Activations live in the memory as contexts; the machine
holds the registers of the innermost one, and writes them back before anything that may move
objects or hand control to another process. -/
structure Machine extends World where
  process : Value := .nil
  context : Value := .nil
  method : Value := .nil
  literals : Value := .nil
  code : Array UInt8 := #[]
  /-- Code read off the memory, by byte array, since collection number `epoch`. -/
  cache : Std.HashMap Value (Array UInt8) := {}
  epoch : Nat := 0
  pc : Nat := 0
  /-- Where the instruction that is being executed starts. -/
  start : Nat := 0
  accumulator : Value := .nil
  stop : Option RunOutcome := none
  deriving Inhabited

abbrev MachineAction := Action RuntimeError Machine

namespace Machine

def ofWorld (w : World) : Machine := { toWorld := w }

@[inline] def onImage {α : Type} (act : ImageAction α) : MachineAction α := fun m =>
  let image := m.image
  let m := { m with image := default }
  match act image with
  | .ok a image => .ok a { m with image }
  | .error e image => .error e { m with image }

@[inline] def onHeap {α : Type} (act : Action HeapError Heap α) : MachineAction α :=
  onImage (Image.onHeap act)

@[inline] def ask {α : Type} (f : Image → Except Fault α) : MachineAction α :=
  Action.query fun m => f m.image

@[inline] def slot (v : Value) (i : Nat) : MachineAction Value :=
  Action.query fun m => m.image.heap.slot v i

@[inline] def setSlot (v : Value) (i : Nat) (x : Value) : MachineAction Unit :=
  onHeap (Heap.setSlot v i x)

def onSchedule {α : Type} (act : Schedule → ImageAction (α × Schedule)) : MachineAction α := do
  let (a, schedule) ← onImage (act (← get).schedule)
  modify fun m => { m with schedule }
  return a

@[inline] def setAccumulator (v : Value) : MachineAction Unit :=
  modify fun m => { m with accumulator := v }

/-- Ends the run after the current instruction. -/
def request (outcome : RunOutcome) : MachineAction Unit :=
  modify fun m => { m with stop := some outcome }

@[inline] def register (r : UInt8) : MachineAction Value :=
  Action.query fun m => m.image.heap.slot m.context (Slot.Context.registers + r.toNat)

def registers : List UInt8 → MachineAction (List Value)
  | [] => return []
  | r :: rs => do
    let v ← register r
    return v :: (← registers rs)

@[inline] def setRegister (r : UInt8) (v : Value) : MachineAction Unit := do
  setSlot (← get).context (Slot.Context.registers + r.toNat) v

@[inline] def literal (i : UInt8) : MachineAction Value :=
  Action.query fun m => m.image.heap.slot m.literals i.toNat

/-- The heap variables of the activation, or those of its parent. -/
@[inline] def heapVars (which : Nat) : MachineAction Value :=
  Action.query fun m => m.image.heap.slot m.context which

def trace : MachineAction (List String) := Action.query fun m => m.image.trace m.context

/-- The position that a branch offset leads to. -/
def jumped (pc : Nat) (offset : Int16) : Nat := (((pc : Int) + offset.toInt) % wordModulus).toNat

@[inline] def jump (offset : Int16) : MachineAction Unit :=
  modify fun m => { m with pc := jumped m.pc offset }

/-- Writes the registers of the machine back to the context and the process. -/
def spill : MachineAction Unit := do
  let m ← get
  let context := m.context
  let process := m.process
  let accumulator := m.accumulator
  let pc := Value.ofNat m.pc
  setSlot context Slot.Context.pc pc
  setSlot process Slot.Process.context context
  setSlot process Slot.Process.accumulator accumulator

/-- The bytes of a code object, read once between collections. -/
def fetchCode (bytecode : Value) : MachineAction (Array UInt8) := do
  let collections := (← get).image.heap.stats.collections
  if collections ≠ (← get).epoch then
    modify fun m => { m with cache := {}, epoch := collections }
  match (← get).cache[bytecode]? with
  | some code => return code
  | none =>
    let code ← ask (·.heap.bytes bytecode)
    modify fun m => { m with cache := m.cache.insert bytecode code }
    return code

def loadFrame : MachineAction Unit := do
  let context := (← get).context
  let method ← slot context Slot.Context.method
  let literals ← slot method Slot.Code.literals
  let pc := (← slot context Slot.Context.pc).toNat?.getD 0
  let code ← fetchCode (← slot method Slot.Code.bytecode)
  modify fun m => { m with method, literals, pc, code }

/-- Takes up the current process where it last stopped. -/
def unspill : MachineAction Unit := do
  let process := (← get).schedule.current
  let context ← slot process Slot.Process.context
  let accumulator ← slot process Slot.Process.accumulator
  modify fun m => { m with process, context, accumulator }
  loadFrame

def collect : MachineAction Unit := fun m =>
  match m.image.collect m.schedule with
  | .error f => .error (.fault f) m
  | .ok (result, schedule, image) =>
    let m := { m with image, schedule }
    match result with
    | .ok _ => .ok () m
    | .error e => .error (.failure (.allocation e)) m

/-- Collects garbage if an arena asks for it. -/
def safepoint : MachineAction Unit := do
  if (← get).image.heap.needsCollection then
    spill
    collect
    unspill

end Machine

end ObjectMachine
