import ObjectMachine.Code.Decode
import ObjectMachine.Object.Class
import ObjectMachine.Object.Symbol

namespace ObjectMachine

/-- What ends a process. Traces list the activations, innermost first. -/
inductive RuntimeError where
  | messageNotUnderstood (cls selector : String) (trace : List String)
  | deadContext (trace : List String)
  | invalidBytecode (pc : Nat) (reason : DecodeError) (trace : List String)
  | allocation (reason : HeapError)
  | compile (reason : CompileError)
  | config (reason : SettingsError)
  deriving DecidableEq

namespace RuntimeError

def renderTrace (trace : List String) : String :=
  String.join (trace.map fun frame => "    " ++ frame ++ "\n")

def message : RuntimeError → String
  | .messageNotUnderstood cls selector trace =>
      s!"{cls} does not understand #{selector}\n{renderTrace trace}"
  | .deadContext trace =>
      s!"non-local return to a context that already returned\n{renderTrace trace}"
  | .invalidBytecode pc reason trace =>
      s!"invalid bytecode at pc {pc}: {reason.message}\n{renderTrace trace}"
  | .allocation reason => s!"allocation failed: {reason.message}"
  | .compile reason => reason.message
  | .config reason => s!"invalid configuration: {reason.message}"

end RuntimeError

/-- The classes that the machine knows by itself. -/
inductive KernelClass where
  | object
  | metaclass
  | undefinedObject
  | boolean
  | trueClass
  | falseClass
  | smallInteger
  | string
  | symbol
  | array
  | byteArray
  | dictionary
  | link
  | method
  | block
  | context
  | process
  deriving DecidableEq, Inhabited

namespace KernelClass

/-- Superclasses come before their subclasses. -/
def all : List KernelClass :=
  [.object, .metaclass, .undefinedObject, .boolean, .trueClass, .falseClass, .smallInteger,
    .string, .symbol, .array, .byteArray, .dictionary, .link, .method, .block, .context, .process]

def index (k : KernelClass) : Nat := k.ctorIdx

def name : KernelClass → String
  | .object => "Object"
  | .metaclass => "Class"
  | .undefinedObject => "UndefinedObject"
  | .boolean => "Boolean"
  | .trueClass => "True"
  | .falseClass => "False"
  | .smallInteger => "SmallInteger"
  | .string => "String"
  | .symbol => "Symbol"
  | .array => "Array"
  | .byteArray => "ByteArray"
  | .dictionary => "Dictionary"
  | .link => "Link"
  | .method => "Method"
  | .block => "Block"
  | .context => "Context"
  | .process => "Process"

def superclass? : KernelClass → Option KernelClass
  | .object => none
  | .trueClass | .falseClass => some .boolean
  | .symbol => some .string
  | .block => some .method
  | _ => some .object

def classVariables : List String :=
  ["name", "superclass", "methods", "instanceVariables", "instanceSize"]

def ownVariables : KernelClass → List String
  | .metaclass => classVariables
  | .dictionary => ["tally"]
  | .link => ["key", "value", "next"]
  | .method => ["bytecode", "literals", "argCount", "tempCount", "heapVarCount", "stackSize",
      "selector", "methodClass"]
  | .block => ["receiver", "parentHeapVars", "home"]
  | .context => ["previous", "receiver", "method", "pc", "heapVars", "parentHeapVars", "home"]
  | .process => ["id", "name", "link", "context", "accumulator", "state"]
  | _ => []

/-- The slots of an instance, inherited ones first. -/
def vars (k : KernelClass) : List String :=
  (k.superclass?.map ownVariables).getD [] ++ k.ownVariables

end KernelClass

/-- Objects that the machine knows by itself. -/
inductive Known where
  | kernelClass (k : KernelClass)
  | trueObject
  | falseObject
  /-- The dictionary of globals. -/
  | globals
  | blockReturn
  | selector (op : BinaryOp)

namespace Known

def index : Known → Nat
  | .kernelClass k => k.index
  | .trueObject => 17
  | .falseObject => 18
  | .globals => 19
  | .blockReturn => 20
  | .selector op => 21 + op.byte.toNat

end Known

/-- What programs share: the object memory, the symbol table, the objects that the machine knows
by itself, and the lines shown so far. -/
structure Image where
  heap : Heap
  symbols : SymbolTable
  /-- The objects of `Known`, by index. -/
  known : Array Value
  /-- Lines shown and not yet taken. -/
  transcript : Array String
  deriving Inhabited

abbrev ImageAction := Action RuntimeError Image

namespace Image

@[inline] def get (i : Image) (k : Known) : Value := i.known.getD k.index .nil

@[inline] def kernelClass (i : Image) (k : KernelClass) : Value := i.known.getD k.index .nil

@[inline] def trueObject (i : Image) : Value := i.get .trueObject

@[inline] def falseObject (i : Image) : Value := i.get .falseObject

@[inline] def globals (i : Image) : Value := i.get .globals

/-- A step of the object memory as a step of the image. -/
@[inline] def onHeap {α : Type} (act : Action HeapError Heap α) : ImageAction α :=
  fun ⟨heap, symbols, known, transcript⟩ =>
    match act heap with
    | .ok a heap => .ok a ⟨heap, symbols, known, transcript⟩
    | .error e heap => .error (e.map .allocation) ⟨heap, symbols, known, transcript⟩

/-- Reads something off the object memory. -/
@[inline] def ask {α : Type} (f : Heap → Except Fault α) : ImageAction α :=
  Action.query fun i => f i.heap

def intern (name : String) : ImageAction Value := do
  let i ← EStateM.get
  match i.symbols.lookup name with
  | some symbol => return symbol
  | none =>
    let symbol ← onHeap (Heap.allocateBytes (i.kernelClass .symbol) (Text.toBytes name))
    modify fun i => { i with symbols := i.symbols.insert name symbol }
    return symbol

def internAll : List String → ImageAction (List Value)
  | [] => return []
  | name :: names => do
    let symbol ← intern name
    return symbol :: (← internAll names)

def newString (text : String) : ImageAction Value := do
  onHeap (Heap.allocateBytes ((← EStateM.get).kernelClass .string) (Text.toBytes text))

def fillSlots (array : Value) (i : Nat) : List Value → ImageAction Unit
  | [] => return
  | v :: vs => do
    onHeap (Heap.setSlot array i v)
    fillSlots array (i + 1) vs

def newArray (items : List Value) : ImageAction Value := do
  let array ← onHeap (Heap.allocatePointers ((← EStateM.get).kernelClass .array) items.length)
  fillSlots array 0 items
  return array

@[inline] def boolean (i : Image) (b : Bool) : Value := if b then i.trueObject else i.falseObject

/-- Branches take everything but nil and false for true. -/
@[inline] def isTruthy (i : Image) (v : Value) : Bool := !v.isNil && v != i.falseObject

@[inline] def classOf (i : Image) (v : Value) : Except Fault Value :=
  if v.isInteger then .ok (i.kernelClass .smallInteger)
  else if v.isNil then .ok (i.kernelClass .undefinedObject)
  else i.heap.isa v

def inheritsFrom (i : Image) (cls ancestor : Value) : Except Fault Bool :=
  i.heap.inheritsFrom ancestor (i.heap.chainBound + 1) cls

def isKindOf (i : Image) (v cls : Value) : Except Fault Bool := do
  i.inheritsFrom (← i.classOf v) cls

def isClass (i : Image) (v : Value) : Except Fault Bool := do
  if !v.isReference then return false
  let cls ← i.classOf v
  let metaclass := i.kernelClass .metaclass
  if cls = metaclass then return true
  return decide ((← i.classOf cls) = metaclass)

def global? (i : Image) (name : String) : Except Fault (Option Value) :=
  match i.symbols.lookup name with
  | some symbol => i.heap.dictionaryAt i.globals symbol
  | none => return none

def setGlobal (name : String) (v : Value) : ImageAction Unit := do
  let symbol ← intern name
  let i ← EStateM.get
  let _ ← onHeap (Heap.dictionaryPut (i.kernelClass .link) i.globals symbol v)

def showLine (line : String) (i : Image) : Image := { i with transcript := i.transcript.push line }

/-- The lines not taken so far. -/
def takeTranscript (i : Image) : List String × Image :=
  (i.transcript.toList, { i with transcript := #[] })

/-- What the image itself keeps alive. -/
def roots (i : Image) : List Value := i.symbols.roots ++ i.known.toList

end Image

end ObjectMachine
