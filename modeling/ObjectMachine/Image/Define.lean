import ObjectMachine.Code.Compile
import ObjectMachine.Image.Load

namespace ObjectMachine.Image

def compiled (r : Except (Stop CompileError) CodeTemplate) : ImageAction CodeTemplate :=
  match r with
  | .ok t => return t
  | .error e => throw (e.map .compile)

/-- Gives a wired class its name, an empty method dictionary and its instance variables. -/
def furnish (cls : Value) (name : String) (vars : List String) (size : Nat) :
    ImageAction Unit := do
  let symbol ← intern name
  let i ← EStateM.get
  let methods ← onHeap (Heap.newDictionary (i.kernelClass .dictionary) Heap.methodBuckets)
  let names ← newArray (← internAll vars)
  onHeap (Heap.setSlot cls Slot.Class.name symbol)
  onHeap (Heap.setSlot cls Slot.Class.methods methods)
  onHeap (Heap.setSlot cls Slot.Class.instanceVariables names)
  onHeap (Heap.setSlot cls Slot.Class.instanceSize (.ofNat size))

def furnishPair (cls : Value) (name : String) (vars : List String) : ImageAction Unit := do
  let metaclass ← ask (·.isa cls)
  furnish cls name vars vars.length
  furnish metaclass (name ++ " class") KernelClass.classVariables Slot.Class.count

/-- Adds names to those inherited; none may come twice. -/
def extendVariables : List String → List String → Except CompileError (List String)
  | names, [] => .ok names
  | names, name :: rest =>
    if names.contains name then .error (.instanceVariableTwice name)
    else extendVariables (names ++ [name]) rest

def defineClass (name : String) (sup : Value) (vars : List String) : ImageAction Value := do
  let cls ← onHeap (Heap.allocatePointers .nil Slot.Class.count)
  let metaclass ← onHeap (Heap.allocatePointers .nil Slot.Class.count)
  let i ← EStateM.get
  let root := i.kernelClass .object
  let rootMeta := i.kernelClass .metaclass
  onHeap (Heap.wire cls metaclass sup root rootMeta)
  let inherited ← ask (·.instanceVariables sup)
  match extendVariables inherited vars with
  | .error e => Action.fail (.compile e)
  | .ok names =>
    furnishPair cls name names
    setGlobal name cls
    ask (·.checkWiring cls root rootMeta)
    return cls

def install (cls : Value) (selector : String) (method : Value) : ImageAction Unit := do
  let symbol ← intern selector
  let i ← EStateM.get
  onHeap (Heap.installMethod (i.kernelClass .link) cls symbol method)

/-- Compiles a method, enters it in a class and answers the method object. -/
def addMethod (cls : Value) (m : Method) : ImageAction Value := do
  let vars ← ask (·.instanceVariables cls)
  let t ← compiled (m.compile vars)
  let method ← load t cls
  install cls t.selector method
  return method

def addMethods (cls : Value) : List Method → ImageAction Unit
  | [] => return
  | m :: ms => do
    let _ ← addMethod cls m
    addMethods cls ms

def loadClass (d : ClassDefinition) : ImageAction Value := do
  match ← Action.query (·.global? d.superclass) with
  | none => Action.fail (.compile (.unknownSuperclass d.superclass))
  | some sup =>
    let cls ← defineClass d.name sup d.instanceVariables
    addMethods cls d.methods
    let metaclass ← ask (·.isa cls)
    addMethods metaclass d.classMethods
    return cls

/-- The method of a statement list that stands by itself. -/
def doItMethod (temps : List String) (body : List Expr) : Method :=
  { selector := "doIt", temps, body }

/-- Compiles a statement list that stands by itself; its receiver is nil. -/
def compileDoIt (temps : List String) (body : List Expr) : ImageAction Value := do
  let t ← compiled ((doItMethod temps body).compile [])
  load t ((← EStateM.get).kernelClass .undefinedObject)

end ObjectMachine.Image
