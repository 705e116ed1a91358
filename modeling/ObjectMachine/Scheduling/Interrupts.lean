namespace ObjectMachine

/-- A request made while interrupts are disabled is kept until they are enabled again. -/
structure Interrupts where
  pending : Bool := false
  deferred : Bool := false
  enabled : Bool := true
  deriving DecidableEq, Inhabited

namespace Interrupts

def request (i : Interrupts) : Interrupts :=
  if i.enabled then { i with pending := true } else { i with deferred := true }

def poll (i : Interrupts) : Bool × Interrupts := (i.pending, { i with pending := false })

def disable (i : Interrupts) : Interrupts :=
  { pending := false, deferred := i.deferred || i.pending, enabled := false }

def enable (i : Interrupts) : Interrupts :=
  { pending := i.pending || i.deferred, deferred := false, enabled := true }

def reset (_ : Interrupts) : Interrupts := {}

end Interrupts

/-- When the timer asks for a preemption, by the number of instructions run so far. -/
structure Timer where
  fires : Nat → Bool

namespace Timer

def never : Timer := ⟨fun _ => false⟩

def every (n : Nat) : Timer := ⟨fun i => i % n == n - 1⟩

end Timer

end ObjectMachine
