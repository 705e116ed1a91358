import ObjectMachine.Code.Template
import ObjectMachine.Image.Basic

namespace ObjectMachine.Image

/-- Writes the slots that methods and blocks share. -/
def fillCode (code bytecode literals selector methodClass : Value) (shape : CodeShape) :
    ImageAction Unit :=
  fillSlots code 0 [bytecode, literals, .ofNat shape.args, .ofNat shape.temps,
    .ofNat shape.heapVars, .ofNat shape.stack, selector, methodClass]

mutual

def loadCode (code methodClass : Value) : CodeTemplate → ImageAction Unit
  | ⟨selector, bytecode, literals, args, temps, heapVars, stack⟩ => do
    let i ← EStateM.get
    let bytes ← onHeap (Heap.allocateBytes (i.kernelClass .byteArray) bytecode)
    let i ← EStateM.get
    let table ← onHeap (Heap.allocatePointers (i.kernelClass .array) literals.length)
    loadInto table 0 methodClass literals
    let selector ← intern selector
    fillCode code bytes table selector methodClass ⟨args, temps, heapVars, stack⟩
termination_by structural t => t

def loadInto (table : Value) (k : Nat) (methodClass : Value) : List Constant → ImageAction Unit
  | [] => return
  | c :: cs => do
    let v ← loadConstant methodClass c
    onHeap (Heap.setSlot table k v)
    loadInto table (k + 1) methodClass cs
termination_by structural cs => cs

/-- A nested block becomes a template whose receiver, parent heap variables and home are nil; a
block is made by copying one. -/
def loadConstant (methodClass : Value) : Constant → ImageAction Value
  | .integer n =>
    match Value.ofInt? n with
    | some v => return v
    | none => Action.fail (.compile (.literalRange n))
  | .string s => newString s
  | .symbol s => intern s
  | .array items => do
    let values ← loadConstants methodClass items
    newArray values
  | .block t => do
    let i ← EStateM.get
    let block ← onHeap (Heap.allocatePointers (i.kernelClass .block) Slot.Block.count)
    loadCode block methodClass t
    return block
termination_by structural c => c

def loadConstants (methodClass : Value) : List Constant → ImageAction (List Value)
  | [] => return []
  | c :: cs => do
    let v ← loadConstant methodClass c
    return v :: (← loadConstants methodClass cs)
termination_by structural cs => cs

end

def load (t : CodeTemplate) (methodClass : Value) : ImageAction Value := do
  let i ← EStateM.get
  let method ← onHeap (Heap.allocatePointers (i.kernelClass .method) Slot.Code.count)
  loadCode method methodClass t
  return method

end ObjectMachine.Image
