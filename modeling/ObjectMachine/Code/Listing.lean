import ObjectMachine.Code.Template
import ObjectMachine.Text.Quoted

namespace ObjectMachine

namespace Constant

mutual

def render : Constant → String
  | .integer n => s!"Integer({n})"
  | .string s => s!"String({Text.quoted s})"
  | .symbol s => s!"Symbol({Text.quoted s})"
  | .array items => s!"Array([{renderAll items}])"
  | .block _ => "Block(..)"
termination_by structural c => c

def renderAll : List Constant → String
  | [] => ""
  | c :: cs => c.render ++ (if cs.isEmpty then "" else ", ") ++ renderAll cs
termination_by structural cs => cs

end

end Constant

namespace CodeTemplate

def headline (t : CodeTemplate) (pad : String) (depth : Nat) : String :=
  let name := if depth = 0 then t.selector else "[]"
  s!"{pad}{name} ({t.args} args, {t.temps} temps, {t.heapVars} heap vars, {t.stack} stack)\n"

mutual

/-- The listing of code that stands `depth` blocks deep. -/
def listingAt (depth : Nat) : CodeTemplate → Except DecodeError String
  | ⟨selector, bytecode, literals, args, temps, heapVars, stack⟩ => do
    let pad := String.ofList (List.replicate (2 * depth) ' ')
    let head := headline ⟨selector, bytecode, literals, args, temps, heapVars, stack⟩ pad depth
    let code ← Code.listing bytecode (2 * depth + 2)
    return head ++ code ++ (← listingLiterals depth pad 0 literals)
termination_by structural t => t

def listingLiterals (depth : Nat) (pad : String) (index : Nat) :
    List Constant → Except DecodeError String
  | [] => return ""
  | c :: cs => do
    let line ← listingLiteral depth pad index c
    return line ++ (← listingLiterals depth pad (index + 1) cs)
termination_by structural cs => cs

def listingLiteral (depth : Nat) (pad : String) (index : Nat) :
    Constant → Except DecodeError String
  | .block t => return s!"{pad}  literal {index}:\n" ++ (← listingAt (depth + 1) t)
  | .integer n => return s!"{pad}  literal {index}: {(Constant.integer n).render}\n"
  | .string s => return s!"{pad}  literal {index}: {(Constant.string s).render}\n"
  | .symbol s => return s!"{pad}  literal {index}: {(Constant.symbol s).render}\n"
  | .array items => return s!"{pad}  literal {index}: {(Constant.array items).render}\n"
termination_by structural c => c

end

def listing (t : CodeTemplate) : Except DecodeError String := t.listingAt 0

end CodeTemplate

end ObjectMachine
