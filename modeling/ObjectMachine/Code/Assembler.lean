import ObjectMachine.Code.Decode

namespace ObjectMachine

/-- A forward branch that waits for its target. -/
structure Label where
  offsetAt : Nat
  deriving DecidableEq, Inhabited

/-- The position after the branch, from which its offset counts. -/
def Label.base (l : Label) : Nat := l.offsetAt + 2

def offsetOf (delta : Int) : Except CompileError Int16 :=
  if -0x8000 ≤ delta ∧ delta < 0x8000 then .ok (.ofInt delta) else .error (.branchTooFar delta)

/-- The offset that leads from one position to another. Positions are words, so the way to one of
the last of them leads back over the first. -/
def branchOffset (start target : Nat) : Except CompileError Int16 :=
  offsetOf (((target : Int) - start).bmod wordModulus)

/-- Code put together by hand. A forward branch leaves a label behind, whose offset is filled in
when its target is reached. -/
structure Assembler where
  code : Array UInt8 := #[]
  deriving Inhabited

namespace Assembler

def position (a : Assembler) : Nat := a.code.size

def emit (a : Assembler) (i : Instruction) : Assembler := ⟨a.code ++ i.encode.toArray⟩

/-- Emits a branch whose target comes later. -/
def branchForward (a : Assembler) (op : Opcode) : Label × Assembler :=
  (⟨a.code.size + 1⟩, ⟨a.code ++ #[op.byte, 0, 0]⟩)

def branchBack (a : Assembler) (op : Opcode) (target : Nat) : Except CompileError Assembler := do
  let offset ← branchOffset (a.position + 3) target
  return ⟨a.code ++ (op.byte :: offsetBytes offset).toArray⟩

/-- Lets a branch lead to the current position, and answers that position. -/
def bind (a : Assembler) (label : Label) : Except CompileError (Nat × Assembler) := do
  let target := a.position
  let offset ← branchOffset label.base target
  let code := match offsetBytes offset with
    | [high, low] =>
      (a.code.setIfInBounds label.offsetAt high).setIfInBounds (label.offsetAt + 1) low
    | _ => a.code
  return (target, ⟨code⟩)

end Assembler

end ObjectMachine
