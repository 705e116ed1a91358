import ObjectMachine.Code.Instruction

namespace ObjectMachine

inductive DecodeError where
  | unknownOpcode (pc : Nat) (byte : UInt8)
  | unknownBinaryOp (pc : Nat) (byte : UInt8)
  | tooManyArguments (pc : Nat) (count : UInt8)
  | truncated (pc : Nat)
  | unknownPrimitive (pc : Nat) (index : UInt8)
  deriving DecidableEq

/-- A number in at least `width` characters, filled with zeros after the sign. -/
def zeroPadded (width : Nat) (n : Int) : String :=
  let digits := toString n.natAbs
  let sign := if n < 0 then "-" else ""
  sign ++ String.ofList (List.replicate (width - sign.length - digits.length) '0') ++ digits

def hexByte (b : UInt8) : String :=
  let digits := Nat.toDigits 16 b.toNat
  String.ofList (List.replicate (2 - digits.length) '0' ++ digits)

def DecodeError.message : DecodeError → String
  | .unknownOpcode pc byte => s!"unknown opcode 0x{hexByte byte} at {pc}"
  | .unknownBinaryOp pc byte => s!"unknown binary operator {byte} at {pc}"
  | .tooManyArguments pc count => s!"send at {pc} passes {count} arguments"
  | .truncated pc => s!"instruction at {pc} runs past the end of the code"
  | .unknownPrimitive pc index => s!"unknown primitive {index} at {pc}"

namespace Code

variable (code : Array UInt8) (pc : Nat)

@[inline] def operand (i : Nat) : Except DecodeError UInt8 :=
  match code[pc + i]? with
  | some b => .ok b
  | none => .error (.truncated pc)

def operandOffset : Except DecodeError Int16 := do
  return offsetOfBytes (← operand code pc 1) (← operand code pc 2)

def operandArgs : Except DecodeError ArgRegisters := do
  let count ← operand code pc 2
  if pc + 3 + count.toNat ≤ code.size then
    match ArgRegisters.ofList? (code.extract (pc + 3) (pc + 3 + count.toNat)).toList with
    | some args => return args
    | none => throw (.tooManyArguments pc count)
  else throw (.truncated pc)

def operandsOf : Opcode → Except DecodeError Instruction
  | .loadNil => return .loadNil
  | .loadTrue => return .loadTrue
  | .loadFalse => return .loadFalse
  | .loadThisContext => return .loadThisContext
  | .loadGlobals => return .loadGlobals
  | .loadInstVar => return .loadInstVar (← operand code pc 1)
  | .loadLiteral => return .loadLiteral (← operand code pc 1)
  | .loadOwn => return .loadOwn (← operand code pc 1)
  | .loadParent => return .loadParent (← operand code pc 1)
  | .loadGlobal => return .loadGlobal (← operand code pc 1)
  | .loadRegister => return .loadRegister (← operand code pc 1)
  | .storeInstVar => return .storeInstVar (← operand code pc 1)
  | .storeOwn => return .storeOwn (← operand code pc 1)
  | .storeParent => return .storeParent (← operand code pc 1)
  | .storeGlobal => return .storeGlobal (← operand code pc 1)
  | .storeRegister => return .storeRegister (← operand code pc 1)
  | .promote => return .promote (← operand code pc 1) (← operand code pc 2)
  | .restore => return .restore (← operand code pc 1) (← operand code pc 2)
  | .sync => return .sync (← operand code pc 1) (← operand code pc 2) (← operand code pc 3)
  | .jump => return .jump (← operandOffset code pc)
  | .branchIfFalse => return .branchIfFalse (← operandOffset code pc)
  | .branchIfTrue => return .branchIfTrue (← operandOffset code pc)
  | .binaryOp => do
    let byte ← operand code pc 2
    match BinaryOp.ofByte? byte with
    | some op => return .binaryOp (← operand code pc 1) op
    | none => throw (.unknownBinaryOp pc byte)
  | .send => do
    let args ← operandArgs code pc
    return .send (← operand code pc 1) args
  | .sendSuper => do
    let args ← operandArgs code pc
    return .sendSuper (← operand code pc 1) args
  | .copyBlock => return .copyBlock (← operand code pc 1)
  | .primitive0 => return .primitive0 (← operand code pc 1)
  | .primitive1 => return .primitive1 (← operand code pc 1)
  | .primitive2 => return .primitive2 (← operand code pc 1) (← operand code pc 2)
  | .primitive3 =>
    return .primitive3 (← operand code pc 1) (← operand code pc 2) (← operand code pc 3)
  | .primitiveV =>
    return .primitiveV (← operand code pc 1) (← operand code pc 2) (← operand code pc 3)
  | .return_ => return .return_
  | .returnSelf => return .returnSelf

def decodeAt : Except DecodeError (Instruction × Nat) := do
  let byte ← operand code pc 0
  match Opcode.ofByte? byte with
  | some op =>
    let i ← operandsOf code pc op
    return (i, pc + i.length)
  | none => throw (.unknownOpcode pc byte)

/-- The instructions from `pc` on with their positions, and what stopped the reading before the
end of the code, if anything did. -/
def decodeFrom (code : Array UInt8) (pc : Nat) : List (Nat × Instruction) × Option DecodeError :=
  if pc < code.size then
    match decodeAt code pc with
    | .error e => ([], some e)
    | .ok (i, _) =>
      let rest := decodeFrom code (pc + i.length)
      ((pc, i) :: rest.1, rest.2)
  else ([], none)
termination_by code.size - pc
decreasing_by simp only [Instruction.length]; omega

def decodeAll (code : Array UInt8) : List (Nat × Instruction) × Option DecodeError :=
    decodeFrom code 0

/-- One line of a listing. Branches show the position they lead to. -/
def listingLine (pad : String) (pc : Nat) (i : Instruction) : String :=
  let target := match i.offset? with
    | some offset => "  -> " ++ zeroPadded 4 (pc + 3 + offset.toInt)
    | none => ""
  pad ++ zeroPadded 4 pc ++ "  " ++ i.render ++ target ++ "\n"

def listing (code : Array UInt8) (indent : Nat) : Except DecodeError String :=
  match decodeAll code with
  | (_, some e) => .error e
  | (items, none) =>
    let pad := String.ofList (List.replicate indent ' ')
    .ok (String.join (items.map fun (pc, i) => listingLine pad pc i))

end Code

end ObjectMachine
