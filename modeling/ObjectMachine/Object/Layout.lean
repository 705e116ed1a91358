import ObjectMachine.Memory.Heap

namespace ObjectMachine

namespace Slot.Class

abbrev name : Nat := 0
abbrev superclass : Nat := 1
abbrev methods : Nat := 2
/-- An array of symbols, inherited names first. -/
abbrev instanceVariables : Nat := 3
abbrev instanceSize : Nat := 4
abbrev count : Nat := 5

end Slot.Class

namespace Slot.Code

abbrev bytecode : Nat := 0
abbrev literals : Nat := 1
abbrev args : Nat := 2
abbrev temps : Nat := 3
abbrev heapVars : Nat := 4
abbrev stack : Nat := 5
abbrev selector : Nat := 6
/-- The class the code was compiled in; a send to super starts above it. -/
abbrev methodClass : Nat := 7
abbrev count : Nat := 8

end Slot.Code

namespace Slot.Block

/-- A block has the slots of a method, and these after them. -/
abbrev receiver : Nat := 8
abbrev parentHeapVars : Nat := 9
abbrev home : Nat := 10
abbrev count : Nat := 11

end Slot.Block

namespace Slot.Context

abbrev previous : Nat := 0
abbrev receiver : Nat := 1
abbrev method : Nat := 2
/-- Where to go on; nil once the context has returned. -/
abbrev pc : Nat := 3
abbrev heapVars : Nat := 4
abbrev parentHeapVars : Nat := 5
/-- The method context that a block returns from; a method's context is its own home. -/
abbrev home : Nat := 6
abbrev registers : Nat := 7

end Slot.Context

namespace Slot.Process

abbrev id : Nat := 0
abbrev name : Nat := 1
abbrev link : Nat := 2
abbrev context : Nat := 3
abbrev accumulator : Nat := 4
abbrev state : Nat := 5
abbrev count : Nat := 6

end Slot.Process

namespace Slot.Dictionary

abbrev tally : Nat := 0
abbrev buckets : Nat := 1

end Slot.Dictionary

namespace Slot.Link

abbrev key : Nat := 0
abbrev value : Nat := 1
abbrev next : Nat := 2
abbrev count : Nat := 3

end Slot.Link

inductive ProcessState where
  | runnable
  | waiting
  | done
  deriving DecidableEq, Inhabited

namespace ProcessState

def name : ProcessState → String
  | .runnable => "Runnable"
  | .waiting => "Waiting"
  | .done => "Done"

def number : ProcessState → Nat
  | .runnable => 0
  | .waiting => 1
  | .done => 2

def toValue (s : ProcessState) : Value := .ofNat s.number

def ofValue? (v : Value) : Option ProcessState :=
  match v.toInt? with
  | some 0 => some .runnable
  | some 1 => some .waiting
  | some 2 => some .done
  | _ => none

end ProcessState

structure CodeShape where
  args : Nat
  temps : Nat
  heapVars : Nat
  stack : Nat
  deriving DecidableEq, Inhabited

namespace Heap

/-- A slot that holds a count; anything else counts as zero. -/
def count (h : Heap) (v : Value) (i : Nat) : Except Fault Nat :=
  return (← h.slot v i).toNat?.getD 0

def codeShape (h : Heap) (code : Value) : Except Fault CodeShape :=
  return {
    args := ← h.count code Slot.Code.args
    temps := ← h.count code Slot.Code.temps
    heapVars := ← h.count code Slot.Code.heapVars
    stack := ← h.count code Slot.Code.stack }

def chainBound (h : Heap) : Nat := h.used .pointers

end Heap

end ObjectMachine
