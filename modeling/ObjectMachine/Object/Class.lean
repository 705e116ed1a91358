import ObjectMachine.Object.Dictionary

namespace ObjectMachine.Heap

def isa (h : Heap) (v : Value) : Except Fault Value := return (← h.header v).isa

def superclass (h : Heap) (c : Value) : Except Fault Value := h.slot c Slot.Class.superclass

def className (h : Heap) (c : Value) : Except Fault String := do
  let name ← h.slot c Slot.Class.name
  if name.isNil then return "<unnamed>" else h.text name

def instanceSize (h : Heap) (c : Value) : Except Fault Nat := h.count c Slot.Class.instanceSize

def slotTexts (h : Heap) (v : Value) (i : Nat) : Nat → Except Fault (List String)
  | 0 => return []
  | count + 1 => do
    let text ← h.text (← h.slot v i)
    return text :: (← h.slotTexts v (i + 1) count)

def instanceVariables (h : Heap) (c : Value) : Except Fault (List String) := do
  let names ← h.slot c Slot.Class.instanceVariables
  if names.isNil then return [] else h.slotTexts names 0 (← h.size names)

/-- The superclass that the wiring rule asks of the metaclass of a class below `sup`. -/
def metaclassSuper (h : Heap) (sup root rootMeta : Value) : Except Fault Value :=
  if sup.isNil then return root
  else if sup = root then return rootMeta
  else h.isa sup

/-- The class word of a class is its metaclass, and every metaclass is an instance of `Class`.
The superclass of a metaclass is the metaclass of the superclass, except that below the root it
is `Class`, and that the root's own metaclass is below the root. -/
def wire (cls metaclass sup root rootMeta : Value) {ε : Type} : Action ε Heap Unit := do
  setClass cls metaclass
  setClass metaclass rootMeta
  setSlot cls Slot.Class.superclass sup
  setSlot metaclass Slot.Class.superclass (← Action.query (·.metaclassSuper sup root rootMeta))

/-- Faults unless a class and its metaclass follow the wiring rule. -/
def checkWiring (h : Heap) (cls root rootMeta : Value) : Except Fault Unit := do
  let metaclass ← h.isa cls
  let name ← h.className cls
  if (← h.isa metaclass) ≠ rootMeta then throw (.metaclassNotClass name)
  let sup ← h.superclass cls
  if sup.isNil ∧ cls ≠ root then throw (.rootlessClass name)
  let expected ← h.metaclassSuper sup root rootMeta
  if (← h.superclass metaclass) ≠ expected then throw (.metaclassSuperclass name)

/-- The method for `selector` that `cls` or the nearest class above it defines, with that class,
looking at no more than the given number of classes. -/
def lookupFrom (h : Heap) (selector : Value) : Nat → Value → Except Fault (Option (Value × Value))
  | 0, _ => .error .endless
  | fuel + 1, cls =>
    if cls.isNil then return none
    else do
      let methods ← h.slot cls Slot.Class.methods
      let found ← if methods.isNil then pure none else h.dictionaryAt methods selector
      match found with
      | some method => return some (method, cls)
      | none => h.lookupFrom selector fuel (← h.superclass cls)

def lookup (h : Heap) (cls selector : Value) : Except Fault (Option (Value × Value)) :=
  h.lookupFrom selector (h.chainBound + 1) cls

def installMethod (linkClass cls selector method : Value) : Action HeapError Heap Unit := do
  let methods ← Action.query (·.slot cls Slot.Class.methods)
  let _ ← dictionaryPut linkClass methods selector method

def selectors (h : Heap) (cls : Value) : Except Fault (List Value) := do
  let methods ← h.slot cls Slot.Class.methods
  if methods.isNil then return [] else h.dictionaryKeys methods

def inheritsFrom (h : Heap) (ancestor : Value) : Nat → Value → Except Fault Bool
  | 0, _ => .error .endless
  | fuel + 1, cls =>
    if cls.isNil then return false
    else if cls = ancestor then return true
    else do h.inheritsFrom ancestor fuel (← h.superclass cls)

end ObjectMachine.Heap
