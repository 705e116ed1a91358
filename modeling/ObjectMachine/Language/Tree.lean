namespace ObjectMachine

inductive Literal where
  | integer (value : Int)
  | string (text : String)
  | symbol (name : String)
  | array (items : List Literal)
  deriving Inhabited

/-- Names with a fixed meaning. -/
inductive PseudoVariable where
  | self
  | nil
  | true
  | false
  | thisContext
  | globals
  deriving DecidableEq, Inhabited

def reservedNames : List String :=
  ["self", "super", "nil", "true", "false", "thisContext", "Smalltalk"]

/-- Programs are given as trees; there is no concrete notation. The trees come as they were
written: what name resolution finds out about names and blocks is not in them, but in a tree of
its own. -/
inductive Expr where
  | literal (value : Literal)
  | pseudo (which : PseudoVariable)
  | variable (name : String)
  | assign (name : String) (value : Expr)
  | send (receiver : Expr) (selector : String) (args : List Expr)
  | superSend (selector : String) (args : List Expr)
  | block (params temps : List String) (body : List Expr)
  | ret (value : Expr)
  | primitive (name : String) (args : List Expr)
  deriving Inhabited

namespace Expr

def int (n : Int) : Expr := .literal (.integer n)

def str (text : String) : Expr := .literal (.string text)

def self : Expr := .pseudo .self

def unary (receiver : Expr) (selector : String) : Expr := .send receiver selector []

def binary (receiver : Expr) (selector : String) (arg : Expr) : Expr :=
  .send receiver selector [arg]

def thunk (body : List Expr) : Expr := .block [] [] body

def isPlainBlock : Expr → Bool
  | .block [] _ _ => true
  | _ => false

def isReturn : Expr → Bool
  | .ret _ => true
  | _ => false

end Expr

structure Method where
  selector : String
  params : List String := []
  temps : List String := []
  body : List Expr
  deriving Inhabited

def Method.endsWithReturn (m : Method) : Bool := m.body.getLast?.any Expr.isReturn

structure ClassDefinition where
  name : String
  superclass : String
  instanceVariables : List String := []
  methods : List Method := []
  classMethods : List Method := []
  deriving Inhabited

/-- The control structures that compile to branches. -/
inductive ControlForm where
  | and
  | ifTrue
  | ifFalse
  | ifTrueIfFalse
  | ifFalseIfTrue
  | whileTrue
  | whileFalse
  | whileTrueDo
  | whileFalseDo
  deriving DecidableEq, Inhabited

namespace ControlForm

def all : List ControlForm :=
  [.and, .ifTrue, .ifFalse, .ifTrueIfFalse, .ifFalseIfTrue,
    .whileTrue, .whileFalse, .whileTrueDo, .whileFalseDo]

def selector : ControlForm → String
  | .and => "and:"
  | .ifTrue => "ifTrue:"
  | .ifFalse => "ifFalse:"
  | .ifTrueIfFalse => "ifTrue:ifFalse:"
  | .ifFalseIfTrue => "ifFalse:ifTrue:"
  | .whileTrue => "whileTrue"
  | .whileFalse => "whileFalse"
  | .whileTrueDo => "whileTrue:"
  | .whileFalseDo => "whileFalse:"

def name : ControlForm → String
  | .and => "And"
  | .ifTrue => "IfTrue"
  | .ifFalse => "IfFalse"
  | .ifTrueIfFalse => "IfTrueIfFalse"
  | .ifFalseIfTrue => "IfFalseIfTrue"
  | .whileTrue => "WhileTrue"
  | .whileFalse => "WhileFalse"
  | .whileTrueDo => "WhileTrueDo"
  | .whileFalseDo => "WhileFalseDo"

def ofSelector? (selector : String) : Option ControlForm :=
  all.find? (·.selector == selector)

/-- Loops also evaluate their receiver again and again. -/
def isLoop : ControlForm → Bool
  | .whileTrue | .whileFalse | .whileTrueDo | .whileFalseDo => true
  | .and | .ifTrue | .ifFalse | .ifTrueIfFalse | .ifFalseIfTrue => false

/-- A send is a control structure when its selector names one and the blocks it needs are literal
blocks without parameters. The number of arguments is not looked at. -/
def recognize (receiver : Expr) (selector : String) (args : List Expr) : Option ControlForm := do
  let form ← ofSelector? selector
  guard (!form.isLoop || receiver.isPlainBlock)
  guard (args.all Expr.isPlainBlock)
  return form

end ControlForm

end ObjectMachine
