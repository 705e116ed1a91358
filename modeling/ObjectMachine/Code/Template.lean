import ObjectMachine.Code.Decode
import ObjectMachine.Language.Tree

namespace ObjectMachine

mutual

inductive Constant where
  | integer (value : Int)
  | string (text : String)
  | symbol (name : String)
  | array (items : List Constant)
  | block (code : CodeTemplate)

/-- Compiled code before it is loaded: bytecode, a table of constants and the shape of an
activation. A block is a constant of the code around it. -/
structure CodeTemplate where
  selector : String
  bytecode : Array UInt8
  literals : List Constant
  args : Nat
  temps : Nat
  heapVars : Nat
  stack : Nat

end

instance : Inhabited CodeTemplate := ⟨⟨"", #[], [], 0, 0, 0, 0⟩⟩

instance : Inhabited Constant := ⟨.integer 0⟩

namespace Constant

def isBlock : Constant → Bool
  | .block _ => true
  | _ => false

mutual

/-- Whether two constants are equal and hold no block. -/
def same : Constant → Constant → Bool
  | .integer m, .integer n => m == n
  | .string s, .string t => s == t
  | .symbol s, .symbol t => s == t
  | .array xs, .array ys => sameAll xs ys
  | _, _ => false
termination_by structural c => c

def sameAll : List Constant → List Constant → Bool
  | [], [] => true
  | x :: xs, y :: ys => same x y && sameAll xs ys
  | _, _ => false
termination_by structural cs => cs

end

mutual

/-- The constant of a literal. Integers that have no tagged word are refused. -/
def ofLiteral : Literal → Except CompileError Constant
  | .integer n => if Value.Fits n then .ok (.integer n) else .error (.literalRange n)
  | .string s => .ok (.string s)
  | .symbol s => .ok (.symbol s)
  | .array items => return .array (← ofLiterals items)
termination_by structural l => l

def ofLiterals : List Literal → Except CompileError (List Constant)
  | [] => .ok []
  | l :: ls => do
    let c ← ofLiteral l
    return c :: (← ofLiterals ls)
termination_by structural ls => ls

end

end Constant

end ObjectMachine
