import ObjectMachine.Language.CompileError
import ObjectMachine.Language.Tree

namespace ObjectMachine

abbrev maxRegisters : Nat := 256

abbrev maxHeapVars : Nat := 256

/-- Where a name lives when the code runs. -/
inductive Binding where
  | register (index : UInt8)
  /-- A heap variable of the activation itself. -/
  | own (slot : UInt8)
  /-- A heap variable of the activation that made the block. -/
  | parent (slot : UInt8)
  | instanceVariable (index : UInt8)
  | global
  deriving DecidableEq, Inhabited

inductive VariableKind where
  | argument
  | local
  deriving DecidableEq, Inhabited

structure Variable where
  name : String
  kind : VariableKind
  register : UInt8
  heapSlot : Option UInt8 := none
  visible : Bool := true
  deriving DecidableEq, Inhabited

def Variable.binding (v : Variable) : Binding :=
  match v.heapSlot with
  | some slot => .own slot
  | none => .register v.register

/-- What a heap variable holds when its scope is entered. -/
inductive Origin where
  | argument (register : UInt8)
  | local
  /-- A copy of the parent's slot, written back on the way out. -/
  | chained (parentSlot : UInt8)
  deriving DecidableEq, Inhabited

inductive ScopeKind where
  | method
  | block
  deriving DecidableEq, Inhabited

/-- A method and every block that becomes code of its own has a scope. A variable that an inner
block uses is kept in a heap variable of the scope that declares it, and every scope between that
one and the user keeps a chained copy of the slot. -/
structure Scope where
  kind : ScopeKind
  parent : Option Nat
  args : Nat := 0
  vars : Array Variable := #[]
  heapVars : Array Origin := #[]
  deriving DecidableEq, Inhabited

namespace Scope

def locals (s : Scope) : Nat := s.vars.size - s.args

/-- Registers of the receiver, the arguments and the locals. -/
def fixedRegisters (s : Scope) : Nat := 1 + s.vars.size

def chainedSlot? (s : Scope) (parentSlot : UInt8) : Option UInt8 :=
  (s.heapVars.findIdx? (· = .chained parentSlot)).map Nat.toUInt8

/-- The chained slots with the parent's slots that they copy, in slot order. -/
def chained (s : Scope) : List (UInt8 × UInt8) :=
  s.heapVars.toList.zipIdx.filterMap fun
    | (.chained parentSlot, i) => some (i.toUInt8, parentSlot)
    | _ => none

/-- The last visible variable of a name among the first `n`. -/
def findBelow (s : Scope) (name : String) : Nat → Option Nat
  | 0 => none
  | n + 1 =>
    match s.vars[n]? with
    | some v => if v.visible && v.name == name then some n else s.findBelow name n
    | none => s.findBelow name n

/-- The variable that a name stands for in the scope itself. -/
def find? (s : Scope) (name : String) : Option Nat := s.findBelow name s.vars.size

end Scope

/-- The scopes of a method, outer ones first, and the instance variables of its class. -/
structure ScopeTree where
  scopes : Array Scope := #[]
  instanceVariables : List String
  deriving Inhabited

/-- A step of resolution. A refused step may have changed scopes. -/
abbrev Resolve := EStateM CompileError ScopeTree

/-- What an inner block finds for a name. -/
inductive Capture where
  | slot (slot : UInt8) (isArgument : Bool)
  | instanceVariable (index : UInt8)
  | global

namespace ScopeTree

def size (t : ScopeTree) : Nat := t.scopes.size

def scope (t : ScopeTree) (id : Nat) : Scope := t.scopes.getD id default

def modifyScope (t : ScopeTree) (id : Nat) (f : Scope → Scope) : ScopeTree :=
  { t with scopes := t.scopes.modify id f }

/-- Opens a scope and answers its number. -/
def push (kind : ScopeKind) (parent : Option Nat) : Resolve Nat :=
  modifyGet fun t => (t.scopes.size, { t with scopes := t.scopes.push { kind, parent } })

def declare (id : Nat) (name : String) (kind : VariableKind) : Resolve Nat := do
  if reservedNames.contains name then
    throw (.reservedName name)
  let register := ((← get).scope id).fixedRegisters
  if maxRegisters ≤ register then
    throw .tooManyVariables
  modify (·.modifyScope id fun s =>
    { s with
      args := if kind = .argument then s.args + 1 else s.args
      vars := s.vars.push { name, kind, register := register.toUInt8 } })
  return register - 1

/-- Declares names one after the other; `seen` are those declared with them before. -/
def declareFrom (id : Nat) (kind : VariableKind) (seen : List String) :
    List String → Resolve Unit
  | [] => return
  | name :: names => do
    if seen.contains name then
      throw (.declaredTwice name)
    let _ ← declare id name kind
    declareFrom id kind (name :: seen) names

/-- Declares distinct names and answers the index of the first. -/
def declareAll (id : Nat) (names : List String) (kind : VariableKind) : Resolve Nat := do
  let first := ((← get).scope id).vars.size
  declareFrom id kind [] names
  return first

/-- Shows or hides `count` variables from index `first` on. -/
def setVisible (t : ScopeTree) (id first count : Nat) (visible : Bool) : ScopeTree :=
  t.modifyScope id fun s =>
    { s with vars := s.vars.mapIdx fun i v =>
        if first ≤ i ∧ i < first + count then { v with visible } else v }

/-- Adds a heap variable and answers its slot. -/
def pushHeapVar (id : Nat) (origin : Origin) : Resolve UInt8 := do
  let slot := ((← get).scope id).heapVars.size
  if maxHeapVars ≤ slot then
    throw .tooManyCaptured
  modify (·.modifyScope id fun s => { s with heapVars := s.heapVars.push origin })
  return slot.toUInt8

def promote (id index : Nat) : Resolve UInt8 := do
  let v := ((← get).scope id).vars.getD index default
  match v.heapSlot with
  | some slot => return slot
  | none =>
    let slot ← pushHeapVar id <| match v.kind with
      | .argument => .argument v.register
      | .local => .local
    modify (·.modifyScope id fun s =>
      { s with vars := s.vars.modify index fun v => { v with heapSlot := some slot } })
    return slot

def classLookup (t : ScopeTree) (name : String) : Capture :=
  match t.instanceVariables.findIdx? (· == name) with
  | some i => .instanceVariable i.toUInt8
  | none => .global

/-- Looks a name up for an inner block. A variable of the scope itself is promoted; one from
further out is chained through the scope. -/
def capture (name : String) (id : Nat) : Resolve Capture := do
  let t ← get
  match (t.scope id).find? name with
  | some index =>
    let isArgument := ((t.scope id).vars.getD index default).kind = .argument
    return .slot (← promote id index) isArgument
  | none =>
    match (t.scope id).parent with
    | none => return t.classLookup name
    | some parent =>
      if parent < id then
        match ← capture name parent with
        | .slot parentSlot isArgument =>
          match ((← get).scope id).chainedSlot? parentSlot with
          | some slot => return .slot slot isArgument
          | none => return .slot (← pushHeapVar id (.chained parentSlot)) isArgument
        | other => return other
      else
        return t.classLookup name
termination_by id

/-- The binding of a name in a scope, and whether it is an argument. A scope that chains the slot
for an inner block uses its own copy. -/
def lookup (id : Nat) (name : String) : Resolve (Binding × Bool) := do
  if reservedNames.contains name then
    throw (.notVariable name)
  let t ← get
  match (t.scope id).find? name with
  | some index =>
    let v := (t.scope id).vars.getD index default
    return (v.binding, v.kind = .argument)
  | none =>
    let found ← match (t.scope id).parent with
      | some parent => capture name parent
      | none => pure (t.classLookup name)
    match found with
    | .slot slot isArgument =>
      match ((← get).scope id).chainedSlot? slot with
      | some mine => return (.own mine, isArgument)
      | none => return (.parent slot, isArgument)
    | .instanceVariable i => return (.instanceVariable i, false)
    | .global => return (.global, false)

def resolve (id : Nat) (name : String) : Resolve Binding := do
  return (← lookup id name).1

/-- The binding of a name that is assigned. Arguments are not. -/
def resolveAssignment (id : Nat) (name : String) : Resolve Binding := do
  let (binding, isArgument) ← lookup id name
  if isArgument then
    throw (.assignedArgument name)
  return binding

end ScopeTree

end ObjectMachine
