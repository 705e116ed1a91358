import ObjectMachine.Language.Scope

namespace ObjectMachine

/-- A laid-out tree. Each occurrence of a name carries a `β`. Blocks are told apart: a closure has
a scope of its own; an inlined block shares the scope around it, where its temporaries start at
variable `first`. -/
inductive Node (β : Type) where
  | literal (value : Literal)
  | pseudo (which : PseudoVariable)
  | variable (name : String) (site : β)
  | assign (name : String) (site : β) (value : Node β)
  | send (receiver : Node β) (selector : String) (args : List (Node β))
  | control (form : ControlForm) (receiver : Node β) (args : List (Node β))
  | superSend (selector : String) (args : List (Node β))
  | closure (scope : Nat) (params : List String) (temps : List (String × β))
      (body : List (Node β))
  | inlined (first : Nat) (temps : List (String × β)) (body : List (Node β))
  | ret (value : Node β)
  | primitive (name : String) (args : List (Node β))
  deriving Inhabited

/-- A resolved method. The method's own scope is the first of the tree. -/
structure ResolvedMethod where
  selector : String
  body : List (Node Binding)
  scopes : ScopeTree
  endsWithReturn : Bool
  deriving Inhabited

namespace ScopeTree

mutual

/-- Lays out an expression of a scope. `inPlace` tells that a block is evaluated where it stands. -/
def layout (id : Nat) (inPlace : Bool) : Expr → Resolve (Node Unit)
  | .literal value => return .literal value
  | .pseudo which => return .pseudo which
  | .variable name => do
    let _ ← resolve id name
    return .variable name ()
  | .assign name value => do
    let value ← layout id false value
    let _ ← resolveAssignment id name
    return .assign name () value
  | .send receiver selector args =>
    match ControlForm.recognize receiver selector args with
    | some form => do
      let receiver ← layout id true receiver
      return .control form receiver (← layoutAll id true args)
    | none => do
      let receiver ← layout id false receiver
      return .send receiver selector (← layoutAll id false args)
  | .superSend selector args => return .superSend selector (← layoutAll id false args)
  | .block params temps body => do
    if inPlace then
      let first ← declareAll id temps .local
      let body ← layoutAll id false body
      modify (·.setVisible id first temps.length false)
      return .inlined first (temps.map (·, ())) body
    else
      let scope ← push .block (some id)
      let _ ← declareAll scope params .argument
      let _ ← declareAll scope temps .local
      let body ← layoutAll scope false body
      return .closure scope params (temps.map (·, ())) body
  | .ret value => return .ret (← layout id false value)
  | .primitive name args => return .primitive name (← layoutAll id false args)
termination_by structural e => e

def layoutAll (id : Nat) (inPlace : Bool) : List Expr → Resolve (List (Node Unit))
  | [] => return []
  | e :: es => do
    let node ← layout id inPlace e
    return node :: (← layoutAll id inPlace es)
termination_by structural es => es

end

/-- The bindings of the temporaries that start at variable `first`. -/
def bindTemps (t : ScopeTree) (id first : Nat) (temps : List (String × Unit)) :
    List (String × Binding) :=
  temps.zipIdx.map fun ((name, _), i) =>
    (name, ((t.scope id).vars.getD (first + i) default).binding)

mutual

/-- Binds the names of a laid-out expression. -/
def bind (id : Nat) : Node Unit → Resolve (Node Binding)
  | .literal value => return .literal value
  | .pseudo which => return .pseudo which
  | .variable name _ => return .variable name (← resolve id name)
  | .assign name _ value => do
    let value ← bind id value
    return .assign name (← resolveAssignment id name) value
  | .send receiver selector args => do
    let receiver ← bind id receiver
    return .send receiver selector (← bindAll id args)
  | .control form receiver args => do
    let receiver ← bind id receiver
    return .control form receiver (← bindAll id args)
  | .superSend selector args => return .superSend selector (← bindAll id args)
  | .closure scope params temps body => do
    let body ← bindAll scope body
    return .closure scope params ((← get).bindTemps scope params.length temps) body
  | .inlined first temps body => do
    modify (·.setVisible id first temps.length true)
    let body ← bindAll id body
    modify (·.setVisible id first temps.length false)
    return .inlined first ((← get).bindTemps id first temps) body
  | .ret value => return .ret (← bind id value)
  | .primitive name args => return .primitive name (← bindAll id args)
termination_by structural n => n

def bindAll (id : Nat) : List (Node Unit) → Resolve (List (Node Binding))
  | [] => return []
  | n :: ns => do
    let node ← bind id n
    return node :: (← bindAll id ns)
termination_by structural ns => ns

end

def resolveBody (m : Method) : Resolve (List (Node Binding)) := do
  let scope ← push .method none
  let _ ← declareAll scope m.params .argument
  let _ ← declareAll scope m.temps .local
  bindAll scope (← layoutAll scope false m.body)

end ScopeTree

/-- Resolution in two passes over the tree. The first lays out scopes and looks every name up
once, which captures all that is going to be captured. The second repeats the look-ups, whose
answers no longer change, and writes them into the tree. -/
def Method.resolve (m : Method) (instanceVariables : List String) :
    Except CompileError ResolvedMethod :=
  match (ScopeTree.resolveBody m).run { instanceVariables } with
  | .ok body scopes => .ok ⟨m.selector, body, scopes, m.endsWithReturn⟩
  | .error e _ => .error e

end ObjectMachine
