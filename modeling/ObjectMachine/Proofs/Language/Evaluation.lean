import ObjectMachine.Code.Opcode
import ObjectMachine.Language.Tree
import ObjectMachine.Memory.Value
import ObjectMachine.Proofs.Action

namespace ObjectMachine

/-- The objects that an evaluation knows: the receiver, true and false. -/
structure Setting where
  self : Value
  yes : Value
  no : Value

namespace Setting

variable (c : Setting)

def boolean (b : Bool) : Value := if b then c.yes else c.no

/-- Everything but nil and false counts as true. -/
def truthy (v : Value) : Bool := v ≠ .nil ∧ v ≠ c.no

end Setting

/-- The result of an operator on integers, if it is defined and has a tagged word. -/
def BinaryOp.onIntegers (c : Setting) (m n : Int) : BinaryOp → Option Value
  | .add => Value.ofInt? (m + n)
  | .subtract => Value.ofInt? (m - n)
  | .multiply => Value.ofInt? (m * n)
  | .quotient => if n = 0 then none else Value.ofInt? (m.fdiv n)
  | .remainder => if n = 0 then none else Value.ofInt? (m.fmod n)
  | .less => some (c.boolean (m < n))
  | .greater => some (c.boolean (m > n))
  | .lessEqual => some (c.boolean (m ≤ n))
  | .greaterEqual => some (c.boolean (m ≥ n))
  | .equal | .identical => some (c.boolean (m = n))
  | .notEqual => some (c.boolean (m ≠ n))

/-- The result of an operator. Identity is asked of any two values, all else of integers. -/
def BinaryOp.apply (c : Setting) (x y : Value) (op : BinaryOp) : Option Value :=
  if op = .identical then some (c.boolean (x = y))
  else do op.onIntegers c (← x.toInt?) (← y.toInt?)

/-- Variables and their values, innermost first. -/
abbrev Bindings := List (String × Value)

namespace Bindings

def assign (name : String) (v : Value) : Bindings → Bindings
  | [] => []
  | (name', v') :: rest =>
    if name' = name then (name', v) :: rest else (name', v') :: assign name v rest

def enter (names : List String) (values : List Value) (b : Bindings) : Bindings :=
  (names.zip values).reverse ++ b

end Bindings

/-- Why an evaluation did not go on: a return, or an expression that has no meaning here. -/
inductive Exit where
  | returned (v : Value)
  | stuck

abbrev Evaluation := EStateM Exit Bindings

def orStuck {α : Type} : Option α → Evaluation α
  | some a => return a
  | none => throw .stuck

mutual

/-- The value of an expression. Every step takes fuel; an evaluation that runs out of it is
stuck. -/
def evaluate (c : Setting) : Nat → Expr → Evaluation Value
  | 0, _ => throw .stuck
  | fuel + 1, e =>
    match e with
    | .literal (.integer n) => orStuck (Value.ofInt? n)
    | .pseudo .self => return c.self
    | .pseudo .nil => return .nil
    | .pseudo .true => return c.yes
    | .pseudo .false => return c.no
    | .variable name => do orStuck ((← get).lookup name)
    | .assign name value => do
      let v ← evaluate c fuel value
      modify (·.assign name v)
      return v
    | .ret value => do throw (.returned (← evaluate c fuel value))
    | .send receiver selector args =>
      match ControlForm.ofSelector? selector with
      | some form => evaluateControl c fuel form receiver args
      | none =>
        match BinaryOp.ofSelector? selector, args with
        | some op, [arg] => do
          let x ← evaluate c fuel receiver
          let y ← evaluate c fuel arg
          orStuck (op.apply c x y)
        | _, _ => throw .stuck
    | _ => throw .stuck

def evaluateControl (c : Setting) :
    Nat → ControlForm → Expr → List Expr → Evaluation Value
  | 0, _, _, _ => throw .stuck
  | fuel + 1, form, receiver, args =>
    match form, args with
    | .ifTrue, [arm] => do
      if c.truthy (← evaluate c fuel receiver) then evaluateBlock c fuel arm else return .nil
    | .ifFalse, [arm] => do
      if c.truthy (← evaluate c fuel receiver) then return .nil else evaluateBlock c fuel arm
    | .ifTrueIfFalse, [yes, no] => do
      if c.truthy (← evaluate c fuel receiver) then evaluateBlock c fuel yes
      else evaluateBlock c fuel no
    | .ifFalseIfTrue, [no, yes] => do
      if c.truthy (← evaluate c fuel receiver) then evaluateBlock c fuel yes
      else evaluateBlock c fuel no
    | .and, [arm] => do
      let v ← evaluate c fuel receiver
      if c.truthy v then evaluateBlock c fuel arm else return v
    | .whileTrue, [] => do
      if c.truthy (← evaluateBlock c fuel receiver) then evaluateControl c fuel form receiver args
      else return .nil
    | .whileFalse, [] => do
      if c.truthy (← evaluateBlock c fuel receiver) then return .nil
      else evaluateControl c fuel form receiver args
    | .whileTrueDo, [body] => do
      if c.truthy (← evaluateBlock c fuel receiver) then
        let _ ← evaluateBlock c fuel body
        evaluateControl c fuel form receiver args
      else return .nil
    | .whileFalseDo, [body] => do
      if c.truthy (← evaluateBlock c fuel receiver) then return .nil
      else
        let _ ← evaluateBlock c fuel body
        evaluateControl c fuel form receiver args
    | _, _ => throw .stuck

/-- The value of a block without parameters that is evaluated where it stands. Its temporaries
are nil whenever it is entered. -/
def evaluateBlock (c : Setting) : Nat → Expr → Evaluation Value
  | 0, _ => throw .stuck
  | fuel + 1, e =>
    match e with
    | .block [] temps body => do
      modify (·.enter temps (temps.map fun _ => .nil))
      let v ← evaluateAll c fuel .nil body
      modify (·.drop temps.length)
      return v
    | _ => throw .stuck

def evaluateAll (c : Setting) : Nat → Value → List Expr → Evaluation Value
  | 0, _, _ => throw .stuck
  | fuel + 1, last, body =>
    match body with
    | [] => return last
    | e :: es => do
      let v ← evaluate c fuel e
      evaluateAll c fuel v es

end

/-- The value that a method answers: what it returns, or else the receiver. -/
def Method.evaluate (m : Method) (c : Setting) (args : List Value) (fuel : Nat) : Option Value :=
  let bindings := Bindings.enter (m.params ++ m.temps) (args ++ m.temps.map fun _ => .nil) []
  match evaluateAll c fuel .nil m.body bindings with
  | .ok _ _ => some c.self
  | .error (.returned v) _ => some v
  | .error .stuck _ => none

/-- How many blocks a control structure takes as arguments. -/
def ControlForm.blocks : ControlForm → Nat
  | .whileTrue | .whileFalse => 0
  | .and | .ifTrue | .ifFalse | .whileTrueDo | .whileFalseDo => 1
  | .ifTrueIfFalse | .ifFalseIfTrue => 2

mutual

/-- Expressions over integers, booleans, nil, the receiver and the given names, built by
assignments, operators, returns and control structures on as many blocks as they take. -/
inductive FirstOrder : List String → Expr → Prop where
  | integer {names n} : FirstOrder names (.literal (.integer n))
  | self {names} : FirstOrder names (.pseudo .self)
  | nil {names} : FirstOrder names (.pseudo .nil)
  | true {names} : FirstOrder names (.pseudo .true)
  | false {names} : FirstOrder names (.pseudo .false)
  | variable {names name} : name ∈ names → FirstOrder names (.variable name)
  | assign {names name value} : name ∈ names → FirstOrder names value →
    FirstOrder names (.assign name value)
  | ret {names value} : FirstOrder names value → FirstOrder names (.ret value)
  | operator {names op selector receiver arg} : BinaryOp.ofSelector? selector = some op →
    FirstOrder names receiver → FirstOrder names arg →
    FirstOrder names (.send receiver selector [arg])
  | conditional {names form selector receiver args} : ControlForm.ofSelector? selector = some form →
    form.isLoop = .false → args.length = form.blocks → FirstOrder names receiver →
    FirstOrderBlocks names args → FirstOrder names (.send receiver selector args)
  | loop {names form selector receiver args} : ControlForm.ofSelector? selector = some form →
    form.isLoop = .true → args.length = form.blocks → FirstOrderBlocks names (receiver :: args) →
    FirstOrder names (.send receiver selector args)

inductive FirstOrderBlocks : List String → List Expr → Prop where
  | nil {names} : FirstOrderBlocks names []
  | cons {names temps body rest} : FirstOrderAll (temps ++ names) body →
    FirstOrderBlocks names rest → FirstOrderBlocks names (.block [] temps body :: rest)

inductive FirstOrderAll : List String → List Expr → Prop where
  | nil {names} : FirstOrderAll names []
  | cons {names e es} : FirstOrder names e → FirstOrderAll names es → FirstOrderAll names (e :: es)

end

def Method.FirstOrder (m : Method) : Prop := FirstOrderAll (m.params ++ m.temps) m.body

end ObjectMachine
