import ObjectMachine.Code.Primitive
import ObjectMachine.Machine.Activation

namespace ObjectMachine

namespace Primitive

def integers? : List Value → Option (Int × Int)
  | [a, b] => do return (← a.toInt?, ← b.toInt?)
  | _ => none

/-- The integers that a word of 64 bits holds. -/
def InWord (n : Int) : Prop := -0x8000000000000000 ≤ n ∧ n ≤ 0x7FFFFFFFFFFFFFFF

instance (n : Int) : Decidable (InWord n) := inferInstanceAs (Decidable (_ ∧ _))

/-- The result of an operation on words, refused when no word holds it. -/
def checked (n : Int) : Option Int := if InWord n then some n else none

/-- The result of an operation that nobody checks. It is not to be one that was refused. -/
def unchecked (n : Option Int) : Except Fault Int :=
  match n with
  | some n => .ok n
  | none => .error .overflow

/-- The result of an operation on integers, nil if it is undefined or has no tagged word. -/
def arithmetic (args : List Value) (op : Int → Int → Except Fault (Option Int)) :
    Except Fault Value :=
  match integers? args with
  | some (a, b) => return ((← op a b).bind Value.ofInt?).getD .nil
  | none => return .nil

def comparison (i : Image) (args : List Value) (op : Int → Int → Bool) : Value :=
  match integers? args with
  | some (a, b) => i.boolean (op a b)
  | none => .nil

/-- The quotient rounded toward zero, refused for a divisor of zero and when no word holds it. -/
def quotient? (a b : Int) : Option Int := if b = 0 then none else checked (a.tdiv b)

def remainder? (a b : Int) : Option Int := (quotient? a b).map fun _ => a.tmod b

def floorDiv (a b : Int) : Except Fault (Option Int) :=
  match quotient? a b with
  | none => return none
  | some q => do
    if (← unchecked (remainder? a b)) ≠ 0 ∧ ¬(a < 0 ↔ b < 0) then
      return some (← unchecked (checked (q - 1)))
    else return some q

def floorMod (a b : Int) : Except Fault (Option Int) :=
  match remainder? a b with
  | none => return none
  | some r => do
    if r ≠ 0 ∧ ¬(r < 0 ↔ b < 0) then return some (← unchecked (checked (r + b)))
    else return some r

end Primitive

namespace Machine

def firstArg (args : List Value) : MachineAction Value :=
  match args with
  | v :: _ => return v
  | [] => Action.fault .outOfRange

inductive Indexable where
  | array
  | bytes

def indexable? (i : Image) (v : Value) : Except Fault (Option Indexable) := do
  if !v.isReference then return none
  match (← i.heap.header v).kind with
  | .pointers =>
    if ← i.isKindOf v (i.kernelClass .array) then return some .array else return none
  | .bytes => return some .bytes
  | .pad | .forwarded => return none

def position? (size : Nat) (index : Value) : Option Nat :=
  match index.toNat? with
  | some (k + 1) => if k < size then some k else none
  | _ => none

def elementAt (i : Image) (receiver index : Value) : Except Fault Value := do
  match ← indexable? i receiver with
  | none => return .nil
  | some shape =>
    match position? (← i.heap.size receiver) index with
    | none => return .nil
    | some k =>
      match shape with
      | .array => i.heap.slot receiver k
      | .bytes => return .ofNat (← i.heap.byteAt receiver k).toNat

def elementAtPut (receiver index value : Value) : MachineAction Value := do
  match ← ask (indexable? · receiver) with
  | some .array =>
    match position? (← ask (·.heap.size receiver)) index with
    | some k =>
      setSlot receiver k value
      return value
    | none => return .nil
  | _ => return .nil

def elementCount (i : Image) (v : Value) : Except Fault Value := do
  match ← indexable? i v with
  | some _ => return .ofNat (← i.heap.size v)
  | none => return .nil

def isClassBelow (i : Image) (cls : Value) (k : KernelClass) : Except Fault Bool := do
  if ← i.isClass cls then i.inheritsFrom cls (i.kernelClass k) else return false

def arrayNew (cls size : Value) : MachineAction Value := do
  match size.toNat? with
  | none => return .nil
  | some n =>
    if !(← ask (isClassBelow · cls .array)) then
      return .nil
    if (← get).image.heap.capacity < n then
      return .nil
    onHeap (Heap.allocatePointers cls n)

def basicNew (cls : Value) : MachineAction Value := do
  if !(← ask (·.isClass cls)) then
    return .nil
  let size ← ask (·.heap.instanceSize cls)
  onHeap (Heap.allocatePointers cls size)

def texts? (i : Image) (a b : Value) : Except Fault (Option (String × String)) := do
  match ← i.text? a, ← i.text? b with
  | some s, some t => return some (s, t)
  | _, _ => return none

def stringConcat (a b : Value) : MachineAction Value := do
  match ← ask (texts? · a b) with
  | some (s, t) => onImage (Image.newString (s ++ t))
  | none => return .nil

def stringEqual (i : Image) (a b : Value) : Except Fault Value := do
  match ← texts? i a b with
  | some (s, t) => return i.boolean (s == t)
  | none => return i.boolean false

def isDictionary (i : Image) (v : Value) : Except Fault Bool := do
  if !v.isReference then return false
  if ← i.isClass v then return false
  i.isKindOf v (i.kernelClass .dictionary)

def dictionaryNew (cls : Value) : MachineAction Value := do
  if ← ask (isClassBelow · cls .dictionary) then
    onHeap (Heap.newDictionary cls Heap.methodBuckets)
  else return .nil

def dictionaryAt (i : Image) (d key : Value) : Except Fault Value := do
  if ← isDictionary i d then return (← i.heap.dictionaryAt d key).getD .nil else return .nil

def dictionaryAtPut (d key value : Value) : MachineAction Value := do
  if ← ask (isDictionary · d) then
    let linkClass := (← get).image.kernelClass .link
    let _ ← onHeap (Heap.dictionaryPut linkClass d key value)
    return value
  else return .nil

/-- A process that runs a block without parameters. -/
def fork (block name : Value) : MachineAction Value := do
  if !(← isInstance block .block) then
    return .nil
  match ← onImage (Image.blockContext? block [] .nil) with
  | none => return .nil
  | some context => onSchedule (·.spawn context name)

def suspend (target : Value) : MachineAction Value := do
  if !(← isInstance target .process) then
    return .nil
  if target = (← get).process then
    request .suspended
  else
    let _ ← onSchedule (·.suspend target)
  return target

def resume (target : Value) : MachineAction Value := do
  if !(← isInstance target .process) then
    return .nil
  let _ ← onSchedule (·.resume target)
  return target

def runPrimitive (p : Primitive) (args : List Value) : MachineAction Value := do
  match p, args with
  | .identical, [a, b] => return (← get).image.boolean (a == b)
  | .integerAdd, args =>
    ask fun _ => Primitive.arithmetic args fun a b => return Primitive.checked (a + b)
  | .integerSubtract, args =>
    ask fun _ => Primitive.arithmetic args fun a b => return Primitive.checked (a - b)
  | .integerMultiply, args =>
    ask fun _ => Primitive.arithmetic args fun a b => return Primitive.checked (a * b)
  | .integerQuotient, args => ask fun _ => Primitive.arithmetic args Primitive.floorDiv
  | .integerRemainder, args => ask fun _ => Primitive.arithmetic args Primitive.floorMod
  | .integerLess, args => return Primitive.comparison (← get).image args fun a b => a < b
  | .integerGreater, args => return Primitive.comparison (← get).image args fun a b => b < a
  | .integerLessEqual, args => return Primitive.comparison (← get).image args fun a b => a ≤ b
  | .integerGreaterEqual, args => return Primitive.comparison (← get).image args fun a b => b ≤ a
  | .integerEqual, args => return Primitive.comparison (← get).image args fun a b => a == b
  | .integerNotEqual, args => return Primitive.comparison (← get).image args fun a b => a != b
  | .classOf, args => do
    let v ← firstArg args
    ask (·.classOf v)
  | .identityHash, args => do
    let v ← firstArg args
    return .ofNat (← ask (·.heap.identityHash v))
  | .printString, args => do
    let v ← firstArg args
    onImage (Image.newString (← ask (·.printString v)))
  | .displayString, args => do
    let v ← firstArg args
    onImage (Image.newString (← ask (·.displayString v)))
  | .transcriptShow, args => do
    let v ← firstArg args
    let line ← ask (·.displayString v)
    modify fun m => { m with image := m.image.showLine line }
    return v
  | .basicNew, args => do basicNew (← firstArg args)
  | .arrayNew, [cls, size] => arrayNew cls size
  | .size, args => do
    let v ← firstArg args
    ask (elementCount · v)
  | .elementAt, [receiver, index] => ask (elementAt · receiver index)
  | .elementAtPut, [receiver, index, value] => elementAtPut receiver index value
  | .stringConcat, [a, b] => stringConcat a b
  | .stringEqual, [a, b] => ask (stringEqual · a b)
  | .asString, args => do
    let v ← firstArg args
    match ← ask (·.text? v) with
    | some text => onImage (Image.newString text)
    | none => return .nil
  | .asSymbol, args => do
    let v ← firstArg args
    match ← ask (·.text? v) with
    | some text => onImage (Image.intern text)
    | none => return .nil
  | .dictionaryNew, args => do dictionaryNew (← firstArg args)
  | .dictionaryAt, [d, key] => ask (dictionaryAt · d key)
  | .dictionaryAtPut, [d, key, value] => dictionaryAtPut d key value
  | .blockInvoke, block :: args => do
    invokeBlock block args
    return .nil
  | .blockReturn, [context, value] => do
    nonLocalReturn context value
    return .nil
  | .returnInto, [context, value] => do
    returnInto context value
    return .nil
  | .blockInvoke, _ | .blockReturn, _ | .returnInto, _ => do
    setAccumulator .nil
    return .nil
  | .processFork, [block, name] => fork block name
  | .processCurrent, _ => return (← get).process
  | .processYield, _ => do
    request .yielded
    return .nil
  | .processSuspend, args => do suspend (← firstArg args)
  | .processResume, args => do resume (← firstArg args)
  | .disableInterrupts, _ => do
    modify fun m => { m with interrupts := m.interrupts.disable }
    return .nil
  | .enableInterrupts, _ => do
    modify fun m => { m with interrupts := m.interrupts.enable }
    return .nil
  | _, _ => return .nil

end Machine

end ObjectMachine
