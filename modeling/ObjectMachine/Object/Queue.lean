import ObjectMachine.Object.Layout

namespace ObjectMachine

/-- A first-in first-out list of processes, threaded through the link slot of each process. -/
structure Queue where
  head : Value := .nil
  tail : Value := .nil
  deriving DecidableEq, Inhabited

namespace Queue

def isEmpty (q : Queue) : Bool := q.head.isNil

/-- Appends a process. One that is linked into a list, or last of this one, is refused. -/
def enqueue (q : Queue) (p : Value) {ε : Type} : Action ε Heap Queue := do
  if !(← Action.query (·.slot p Slot.Process.link)).isNil || p == q.tail then
    Action.fault .alreadyLinked
  if q.tail.isNil then
    return ⟨p, p⟩
  else
    Heap.setSlot q.tail Slot.Process.link p
    return ⟨q.head, p⟩

/-- Takes the first process off the list. -/
def dequeue (q : Queue) {ε : Type} : Action ε Heap (Option Value × Queue) := do
  if q.head.isNil then
    return (none, q)
  else
    let p := q.head
    let next ← Action.query (·.slot p Slot.Process.link)
    Heap.setSlot p Slot.Process.link .nil
    return (some p, ⟨next, if next.isNil then .nil else q.tail⟩)

def removeFrom (q : Queue) (p : Value) {ε : Type} :
    Nat → Value → Value → Action ε Heap (Bool × Queue)
  | 0, _, _ => Action.fault .endless
  | fuel + 1, previous, cursor => do
    if cursor.isNil then
      return (false, q)
    let next ← Action.query (·.slot cursor Slot.Process.link)
    if cursor = p then
      let head := if previous.isNil then next else q.head
      let tail := if q.tail = p then previous else q.tail
      if !previous.isNil then
        Heap.setSlot previous Slot.Process.link next
      Heap.setSlot p Slot.Process.link .nil
      return (true, ⟨head, tail⟩)
    else
      q.removeFrom p fuel cursor next

/-- Unlinks a process wherever it stands, and tells whether it was in the list. -/
def remove (q : Queue) (p : Value) {ε : Type} : Action ε Heap (Bool × Queue) := do
  q.removeFrom p ((← get).chainBound + 1) .nil q.head

def listFrom (h : Heap) : Nat → Value → Except Fault (List Value)
  | 0, _ => .error .endless
  | fuel + 1, cursor =>
    if cursor.isNil then return []
    else do return cursor :: (← listFrom h fuel (← h.slot cursor Slot.Process.link))

/-- The processes in the list, first to last. -/
def toList (q : Queue) (h : Heap) : Except Fault (List Value) :=
  listFrom h (h.chainBound + 1) q.head

/-- How many processes are in the list. -/
def length (q : Queue) (h : Heap) : Except Fault Nat := do return (← q.toList h).length

end Queue

end ObjectMachine
