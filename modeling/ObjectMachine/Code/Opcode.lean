namespace ObjectMachine

inductive Opcode where
  | loadNil
  | loadTrue
  | loadFalse
  | loadThisContext
  | loadGlobals
  | loadInstVar
  | loadLiteral
  | loadOwn
  | loadParent
  | loadGlobal
  | loadRegister
  | storeInstVar
  | storeOwn
  | storeParent
  | storeGlobal
  | storeRegister
  | promote
  | restore
  | sync
  | jump
  | branchIfFalse
  | branchIfTrue
  | binaryOp
  | send
  | sendSuper
  | copyBlock
  | primitive0
  | primitive1
  | primitive2
  | primitive3
  | primitiveV
  | return_
  | returnSelf
  deriving DecidableEq, Inhabited

namespace Opcode

/-- The opcodes in the order of their numbers. -/
def all : Array Opcode := #[
  .loadNil, .loadTrue, .loadFalse, .loadThisContext, .loadGlobals, .loadInstVar, .loadLiteral,
  .loadOwn, .loadParent, .loadGlobal, .loadRegister, .storeInstVar, .storeOwn, .storeParent,
  .storeGlobal, .storeRegister, .promote, .restore, .sync, .jump, .branchIfFalse, .branchIfTrue,
  .binaryOp, .send, .sendSuper, .copyBlock, .primitive0, .primitive1, .primitive2, .primitive3,
  .primitiveV, .return_, .returnSelf]

def byte : Opcode → UInt8
  | .loadNil => 0x00
  | .loadTrue => 0x01
  | .loadFalse => 0x02
  | .loadThisContext => 0x03
  | .loadGlobals => 0x04
  | .loadInstVar => 0x05
  | .loadLiteral => 0x06
  | .loadOwn => 0x07
  | .loadParent => 0x08
  | .loadGlobal => 0x09
  | .loadRegister => 0x0a
  | .storeInstVar => 0x0b
  | .storeOwn => 0x0c
  | .storeParent => 0x0d
  | .storeGlobal => 0x0e
  | .storeRegister => 0x0f
  | .promote => 0x10
  | .restore => 0x11
  | .sync => 0x12
  | .jump => 0x13
  | .branchIfFalse => 0x14
  | .branchIfTrue => 0x15
  | .binaryOp => 0x16
  | .send => 0x17
  | .sendSuper => 0x18
  | .copyBlock => 0x19
  | .primitive0 => 0x1a
  | .primitive1 => 0x1b
  | .primitive2 => 0x1c
  | .primitive3 => 0x1d
  | .primitiveV => 0x1e
  | .return_ => 0x1f
  | .returnSelf => 0x20

def ofByte? (b : UInt8) : Option Opcode := all[b.toNat]?

def name : Opcode → String
  | .loadNil => "LoadNil"
  | .loadTrue => "LoadTrue"
  | .loadFalse => "LoadFalse"
  | .loadThisContext => "LoadThisContext"
  | .loadGlobals => "LoadSmalltalk"
  | .loadInstVar => "LoadInstVar"
  | .loadLiteral => "LoadLiteral"
  | .loadOwn => "LoadMyHeapVar"
  | .loadParent => "LoadParentHeapVar"
  | .loadGlobal => "LoadGlobal"
  | .loadRegister => "LoadRegister"
  | .storeInstVar => "StoreInstVar"
  | .storeOwn => "StoreMyHeapVar"
  | .storeParent => "StoreParentHeapVar"
  | .storeGlobal => "StoreGlobal"
  | .storeRegister => "StoreRegister"
  | .promote => "Promote"
  | .restore => "Restore"
  | .sync => "Sync"
  | .jump => "Jump"
  | .branchIfFalse => "BranchIfFalse"
  | .branchIfTrue => "BranchIfTrue"
  | .binaryOp => "BinaryOp"
  | .send => "Send"
  | .sendSuper => "SendSuper"
  | .copyBlock => "CopyBlock"
  | .primitive0 => "Primitive0"
  | .primitive1 => "Primitive1"
  | .primitive2 => "Primitive2"
  | .primitive3 => "Primitive3"
  | .primitiveV => "PrimitiveV"
  | .return_ => "Return"
  | .returnSelf => "ReturnSelf"

def ofName? (name : String) : Option Opcode := all.find? (·.name == name)

def isBranch : Opcode → Bool
  | .jump | .branchIfFalse | .branchIfTrue => true
  | _ => false

end Opcode

/-- Selectors with an instruction of their own. -/
inductive BinaryOp where
  | add
  | subtract
  | multiply
  | quotient
  | remainder
  | less
  | greater
  | lessEqual
  | greaterEqual
  | equal
  | notEqual
  | identical
  deriving DecidableEq, Inhabited

namespace BinaryOp

/-- The operators in the order of their numbers. -/
def all : Array BinaryOp := #[
  .add, .subtract, .multiply, .quotient, .remainder, .less, .greater, .lessEqual, .greaterEqual,
  .equal, .notEqual, .identical]

def byte : BinaryOp → UInt8
  | .add => 0
  | .subtract => 1
  | .multiply => 2
  | .quotient => 3
  | .remainder => 4
  | .less => 5
  | .greater => 6
  | .lessEqual => 7
  | .greaterEqual => 8
  | .equal => 9
  | .notEqual => 10
  | .identical => 11

def ofByte? (b : UInt8) : Option BinaryOp := all[b.toNat]?

def selector : BinaryOp → String
  | .add => "+"
  | .subtract => "-"
  | .multiply => "*"
  | .quotient => "//"
  | .remainder => "\\\\"
  | .less => "<"
  | .greater => ">"
  | .lessEqual => "<="
  | .greaterEqual => ">="
  | .equal => "="
  | .notEqual => "~="
  | .identical => "=="

def ofSelector? (selector : String) : Option BinaryOp := all.find? (·.selector == selector)

end BinaryOp

end ObjectMachine
