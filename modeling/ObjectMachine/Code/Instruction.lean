import ObjectMachine.Code.Opcode
import ObjectMachine.Language.CompileError

namespace ObjectMachine

structure ArgRegisters where
  regs : List UInt8
  bound : regs.length ≤ maxArgs
  deriving DecidableEq

namespace ArgRegisters

def ofList? (regs : List UInt8) : Option ArgRegisters :=
  if h : regs.length ≤ maxArgs then some ⟨regs, h⟩ else none

instance : Inhabited ArgRegisters := ⟨⟨[], by decide⟩⟩

def render (a : ArgRegisters) : String :=
  "(" ++ " ".intercalate (a.regs.map fun r => s!"r{r}") ++ ")"

end ArgRegisters

/-- Every operand is one byte, except that a branch offset is a signed 16-bit number, high byte
first, counted from the end of the instruction. -/
inductive Instruction where
  | loadNil
  | loadTrue
  | loadFalse
  | loadThisContext
  | loadGlobals
  | loadInstVar (index : UInt8)
  | loadLiteral (index : UInt8)
  | loadOwn (slot : UInt8)
  | loadParent (slot : UInt8)
  | loadGlobal (literal : UInt8)
  | loadRegister (reg : UInt8)
  | storeInstVar (index : UInt8)
  | storeOwn (slot : UInt8)
  | storeParent (slot : UInt8)
  | storeGlobal (literal : UInt8)
  | storeRegister (reg : UInt8)
  /-- Copies a heap variable of the parent into an own one. -/
  | promote (own parent : UInt8)
  /-- Copies an own heap variable back to the parent. -/
  | restore (parent own : UInt8)
  /-- Brings an own heap variable and the parent's into step: the own one wins if it differs from
  what `reg` recorded last. -/
  | sync (own parent reg : UInt8)
  | jump (offset : Int16)
  | branchIfFalse (offset : Int16)
  | branchIfTrue (offset : Int16)
  | binaryOp (reg : UInt8) (op : BinaryOp)
  | send (selector : UInt8) (args : ArgRegisters)
  | sendSuper (selector : UInt8) (args : ArgRegisters)
  | copyBlock (literal : UInt8)
  | primitive0 (index : UInt8)
  | primitive1 (index : UInt8)
  | primitive2 (index reg : UInt8)
  | primitive3 (index reg₁ reg₂ : UInt8)
  | primitiveV (index first count : UInt8)
  | return_
  | returnSelf
  deriving DecidableEq, Inhabited

def offsetBytes (offset : Int16) : List UInt8 :=
  [(offset.toUInt16 / 256).toUInt8, offset.toUInt16.toUInt8]

def offsetOfBytes (high low : UInt8) : Int16 := (high.toUInt16 * 256 + low.toUInt16).toInt16

namespace Instruction

def opcode : Instruction → Opcode
  | .loadNil => .loadNil
  | .loadTrue => .loadTrue
  | .loadFalse => .loadFalse
  | .loadThisContext => .loadThisContext
  | .loadGlobals => .loadGlobals
  | .loadInstVar _ => .loadInstVar
  | .loadLiteral _ => .loadLiteral
  | .loadOwn _ => .loadOwn
  | .loadParent _ => .loadParent
  | .loadGlobal _ => .loadGlobal
  | .loadRegister _ => .loadRegister
  | .storeInstVar _ => .storeInstVar
  | .storeOwn _ => .storeOwn
  | .storeParent _ => .storeParent
  | .storeGlobal _ => .storeGlobal
  | .storeRegister _ => .storeRegister
  | .promote .. => .promote
  | .restore .. => .restore
  | .sync .. => .sync
  | .jump _ => .jump
  | .branchIfFalse _ => .branchIfFalse
  | .branchIfTrue _ => .branchIfTrue
  | .binaryOp .. => .binaryOp
  | .send .. => .send
  | .sendSuper .. => .sendSuper
  | .copyBlock _ => .copyBlock
  | .primitive0 _ => .primitive0
  | .primitive1 _ => .primitive1
  | .primitive2 .. => .primitive2
  | .primitive3 .. => .primitive3
  | .primitiveV .. => .primitiveV
  | .return_ => .return_
  | .returnSelf => .returnSelf

def operands : Instruction → List UInt8
  | .loadNil | .loadTrue | .loadFalse | .loadThisContext | .loadGlobals | .return_
  | .returnSelf => []
  | .loadInstVar a | .loadLiteral a | .loadOwn a | .loadParent a | .loadGlobal a
  | .loadRegister a | .storeInstVar a | .storeOwn a | .storeParent a | .storeGlobal a
  | .storeRegister a | .copyBlock a | .primitive0 a | .primitive1 a => [a]
  | .promote a b | .restore a b | .primitive2 a b => [a, b]
  | .sync a b c | .primitive3 a b c | .primitiveV a b c => [a, b, c]
  | .jump offset | .branchIfFalse offset | .branchIfTrue offset => offsetBytes offset
  | .binaryOp reg op => [reg, op.byte]
  | .send selector args | .sendSuper selector args =>
      selector :: args.regs.length.toUInt8 :: args.regs

def encode (i : Instruction) : List UInt8 := i.opcode.byte :: i.operands

def length (i : Instruction) : Nat := 1 + i.operands.length

def offset? : Instruction → Option Int16
  | .jump offset | .branchIfFalse offset | .branchIfTrue offset => some offset
  | _ => none

def signed (n : Int16) : String := if n < 0 then toString n else s!"+{n}"

def render : Instruction → String
  | .loadNil => "load-nil"
  | .loadTrue => "load-true"
  | .loadFalse => "load-false"
  | .loadThisContext => "load-this-context"
  | .loadGlobals => "load-smalltalk"
  | .loadInstVar i => s!"load-instance-var {i}"
  | .loadLiteral i => s!"load-literal {i}"
  | .loadOwn slot => s!"load-my-heap-var {slot}"
  | .loadParent slot => s!"load-parent-heap-var {slot}"
  | .loadGlobal literal => s!"load-global {literal}"
  | .loadRegister reg => s!"load-register r{reg}"
  | .storeInstVar i => s!"store-instance-var {i}"
  | .storeOwn slot => s!"store-my-heap-var {slot}"
  | .storeParent slot => s!"store-parent-heap-var {slot}"
  | .storeGlobal literal => s!"store-global {literal}"
  | .storeRegister reg => s!"store-register r{reg}"
  | .promote own parent => s!"promote my{own} <- parent{parent}"
  | .restore parent own => s!"restore parent{parent} <- my{own}"
  | .sync own parent reg => s!"sync my{own} parent{parent} r{reg}"
  | .jump offset => "jump " ++ signed offset
  | .branchIfFalse offset => "branch-if-false " ++ signed offset
  | .branchIfTrue offset => "branch-if-true " ++ signed offset
  | .binaryOp reg op => s!"binary-op r{reg} {op.selector}"
  | .send selector args => s!"send {selector} {args.render}"
  | .sendSuper selector args => s!"send-super {selector} {args.render}"
  | .copyBlock literal => s!"copy-block {literal}"
  | .primitive0 i => s!"primitive0 {i}"
  | .primitive1 i => s!"primitive1 {i}"
  | .primitive2 i reg => s!"primitive2 {i} r{reg}"
  | .primitive3 i reg₁ reg₂ => s!"primitive3 {i} r{reg₁} r{reg₂}"
  | .primitiveV i first count => s!"primitiveV {i} r{first}..+{count}"
  | .return_ => "return"
  | .returnSelf => "return-self"

end Instruction

def encodeAll (code : List Instruction) : List UInt8 := code.flatMap Instruction.encode

/-- The number of bytes of instructions in a row. -/
def codeLength : List Instruction → Nat
  | [] => 0
  | i :: rest => i.length + codeLength rest

end ObjectMachine
