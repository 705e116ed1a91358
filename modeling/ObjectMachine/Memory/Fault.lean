import ObjectMachine.Memory.Header

namespace ObjectMachine

/-- Broken rules of the machine. -/
inductive Fault where
  /-- An object was needed and the word is not a reference. -/
  | notReference (value : Value)
  | slotBounds (index : Nat) (kind : ObjectKind) (size : Nat)
  | byteBounds (index : Nat)
  | alreadyLinked
  | metaclassNotClass (name : String)
  | rootlessClass (name : String)
  | metaclassSuperclass (name : String)
  /-- A position outside an arena, a table or an argument list. -/
  | outOfRange
  /-- A dictionary without buckets. -/
  | noBuckets
  /-- A chain of objects that leads back into itself. -/
  | endless
  /-- The result of an operation on words that no word holds. -/
  | overflow
  deriving DecidableEq

namespace Fault

def message? : Fault → Option String
  | .notReference v => some s!"expected a heap reference, got {v.describe}"
  | .slotBounds i kind size =>
      some s!"slot {i} out of bounds for {kind.name} object of size {size}"
  | .byteBounds i => some s!"byte {i} out of bounds"
  | .alreadyLinked => some "process is already linked into a list"
  | .metaclassNotClass name => some s!"metaclass of {name} is not an instance of Class"
  | .rootlessClass name => some s!"{name} has no superclass but is not the root"
  | .metaclassSuperclass name => some s!"metaclass of {name} has the wrong superclass"
  | .outOfRange | .noBuckets | .endless | .overflow => none

end Fault

/-- Why a step did not deliver. A failure has a cause that the caller may act on, and leaves a
state to go on from; a fault breaks a rule of the machine and ends the whole run. -/
inductive Stop (ε : Type) where
  | failure (cause : ε)
  | fault (fault : Fault)

namespace Stop

@[inline] def map {ε δ : Type} (f : ε → δ) : Stop ε → Stop δ
  | .failure e => .failure (f e)
  | .fault f => .fault f

end Stop

abbrev Action (ε σ α : Type) := EStateM (Stop ε) σ α

namespace Action

variable {ε δ σ α : Type}

@[inline] def fail (cause : ε) : Action ε σ α := throw (.failure cause)

@[inline] def fault (f : Fault) : Action ε σ α := throw (.fault f)

/-- Reads something off the state. -/
@[inline] def query (f : σ → Except Fault α) : Action ε σ α := fun s =>
  match f s with
  | .ok a => .ok a s
  | .error e => .error (.fault e) s

/-- Renames the causes of failure. -/
@[inline] def mapError (f : ε → δ) (act : Action ε σ α) : Action δ σ α := fun s =>
  match act s with
  | .ok a s => .ok a s
  | .error e s => .error (e.map f) s

@[inline] def ofExcept (r : Except Fault α) : Action ε σ α := fun s =>
  match r with
  | .ok a => .ok a s
  | .error e => .error (.fault e) s

end Action

end ObjectMachine
