import ObjectMachine.Memory.Fault

namespace ObjectMachine

/-- A send or a primitive call passes at most this many arguments. -/
abbrev maxArgs : Nat := 15

inductive CompileError where
  | reservedName (name : String)
  | tooManyVariables
  | declaredTwice (name : String)
  | tooManyCaptured
  | notVariable (name : String)
  | assignedArgument (name : String)
  | tooDeep
  | tooManyLiterals
  | tooManyArguments
  | unknownPrimitive (name : String)
  | primitiveArity (name : String) (expected got : Nat)
  | branchTooFar (delta : Int)
  /-- A block stands where its value is needed, but it was laid out as part of its method. -/
  | blockNotResolved
  /-- A control structure was given something else than a block to evaluate in place. -/
  | inlinedNotBlock
  | literalRange (value : Int)
  | instanceVariableTwice (name : String)
  | unknownSuperclass (name : String)
  /-- A listing was asked of code that does not decode. -/
  | listing (reason : String)
  deriving DecidableEq

namespace CompileError

def text : CompileError → String
  | .reservedName name => s!"cannot declare reserved name `{name}`"
  | .tooManyVariables => "too many variables for 8-bit registers"
  | .declaredTwice name => s!"`{name}` declared twice"
  | .tooManyCaptured => "too many captured variables"
  | .notVariable name => s!"`{name}` is not a variable"
  | .assignedArgument name => s!"cannot assign to argument `{name}`"
  | .tooDeep => "expression too deep for 8-bit registers"
  | .tooManyLiterals => "too many literals for 8-bit operands"
  | .tooManyArguments => s!"more than {maxArgs} arguments"
  | .unknownPrimitive name => s!"unknown primitive `{name}`"
  | .primitiveArity name expected got =>
      s!"primitive `{name}` takes {expected} arguments, got {got}"
  | .branchTooFar delta => s!"branch offset {delta} does not fit in 16 bits"
  | .blockNotResolved => "block was not resolved"
  | .inlinedNotBlock => "inlined argument is not a block"
  | .literalRange value => s!"integer literal {value} out of range"
  | .instanceVariableTwice name => s!"instance variable `{name}` already defined"
  | .unknownSuperclass name => s!"unknown superclass `{name}`"
  | .listing reason => reason

def message (e : CompileError) : String := "compile error: " ++ e.text

end CompileError

end ObjectMachine
