import ObjectMachine.Code.Opcode

namespace ObjectMachine

inductive Primitive where
  | identical
  | integerAdd
  | integerSubtract
  | integerMultiply
  | integerQuotient
  | integerRemainder
  | integerLess
  | integerGreater
  | integerLessEqual
  | integerGreaterEqual
  | integerEqual
  | integerNotEqual
  | classOf
  | identityHash
  | printString
  | displayString
  | transcriptShow
  | basicNew
  | arrayNew
  | size
  | elementAt
  | elementAtPut
  | stringConcat
  | stringEqual
  | asString
  | asSymbol
  | dictionaryNew
  | dictionaryAt
  | dictionaryAtPut
  | blockInvoke
  | blockReturn
  | returnInto
  | processFork
  | processCurrent
  | processYield
  | processSuspend
  | processResume
  | disableInterrupts
  | enableInterrupts
  deriving DecidableEq, Inhabited

inductive Arity where
  | fixed (count : Nat)
  | variadic
  deriving DecidableEq, Inhabited

namespace Primitive

/-- The primitives in the order of their numbers. -/
def all : Array Primitive := #[
  .identical, .integerAdd, .integerSubtract, .integerMultiply, .integerQuotient,
  .integerRemainder, .integerLess, .integerGreater, .integerLessEqual, .integerGreaterEqual,
  .integerEqual, .integerNotEqual, .classOf, .identityHash, .printString, .displayString,
  .transcriptShow, .basicNew, .arrayNew, .size, .elementAt, .elementAtPut, .stringConcat,
  .stringEqual, .asString, .asSymbol, .dictionaryNew, .dictionaryAt, .dictionaryAtPut,
  .blockInvoke, .blockReturn, .returnInto, .processFork, .processCurrent, .processYield,
  .processSuspend, .processResume, .disableInterrupts, .enableInterrupts]

def name : Primitive → String
  | .identical => "identical"
  | .integerAdd => "integerAdd"
  | .integerSubtract => "integerSubtract"
  | .integerMultiply => "integerMultiply"
  | .integerQuotient => "integerQuotient"
  | .integerRemainder => "integerRemainder"
  | .integerLess => "integerLess"
  | .integerGreater => "integerGreater"
  | .integerLessEqual => "integerLessEqual"
  | .integerGreaterEqual => "integerGreaterEqual"
  | .integerEqual => "integerEqual"
  | .integerNotEqual => "integerNotEqual"
  | .classOf => "classOf"
  | .identityHash => "identityHash"
  | .printString => "printString"
  | .displayString => "displayString"
  | .transcriptShow => "transcriptShow"
  | .basicNew => "basicNew"
  | .arrayNew => "arrayNew"
  | .size => "size"
  | .elementAt => "at"
  | .elementAtPut => "atPut"
  | .stringConcat => "stringConcat"
  | .stringEqual => "stringEqual"
  | .asString => "asString"
  | .asSymbol => "asSymbol"
  | .dictionaryNew => "dictionaryNew"
  | .dictionaryAt => "dictionaryAt"
  | .dictionaryAtPut => "dictionaryAtPut"
  | .blockInvoke => "blockInvoke"
  | .blockReturn => "blockReturn"
  | .returnInto => "returnInto"
  | .processFork => "processFork"
  | .processCurrent => "processCurrent"
  | .processYield => "processYield"
  | .processSuspend => "processSuspend"
  | .processResume => "processResume"
  | .disableInterrupts => "disableInterrupts"
  | .enableInterrupts => "enableInterrupts"

def arity : Primitive → Arity
  | .blockInvoke => .variadic
  | .processCurrent | .processYield | .disableInterrupts | .enableInterrupts => .fixed 0
  | .classOf | .identityHash | .printString | .displayString | .transcriptShow | .basicNew
  | .size | .asString | .asSymbol | .dictionaryNew | .processSuspend | .processResume => .fixed 1
  | .identical | .integerAdd | .integerSubtract | .integerMultiply | .integerQuotient
  | .integerRemainder | .integerLess | .integerGreater | .integerLessEqual
  | .integerGreaterEqual | .integerEqual | .integerNotEqual | .arrayNew | .elementAt
  | .stringConcat | .stringEqual | .dictionaryAt | .blockReturn | .returnInto | .processFork =>
    .fixed 2
  | .elementAtPut | .dictionaryAtPut => .fixed 3

/-- Primitives that go on in another context; they set the accumulator themselves. -/
def switchesContext : Primitive → Bool
  | .blockInvoke | .blockReturn | .returnInto => true
  | _ => false

def ofIndex? (i : Nat) : Option Primitive := all[i]?

def index (p : Primitive) : Nat := p.ctorIdx

def ofName? (name : String) : Option Primitive := all.find? (·.name == name)

end Primitive

/-- The primitive that a binary operator tries before it sends its selector. -/
def BinaryOp.primitive : BinaryOp → Primitive
  | .add => .integerAdd
  | .subtract => .integerSubtract
  | .multiply => .integerMultiply
  | .quotient => .integerQuotient
  | .remainder => .integerRemainder
  | .less => .integerLess
  | .greater => .integerGreater
  | .lessEqual => .integerLessEqual
  | .greaterEqual => .integerGreaterEqual
  | .equal => .integerEqual
  | .notEqual => .integerNotEqual
  | .identical => .identical

end ObjectMachine
