import ObjectMachine.Memory.Heap

namespace ObjectMachine

namespace Arenas

def startsFrom (a : Arenas) (id : ArenaId) (i : Nat) : Except Fault (List Nat) :=
  if i < a.used id then do
    let h ← a.header ⟨id, i⟩
    return i :: (← startsFrom a id (i + h.totalWords))
  else return []
termination_by a.used id - i
decreasing_by simp only [Header.totalWords, headerWords]; omega

/-- The words at which objects start, in address order. -/
def starts (a : Arenas) (id : ArenaId) : Except Fault (List Nat) := do
  a.startsFrom id (← a.next ⟨id, 0⟩).word

/-- The part of an ordered array from `lo` up to `hi` holds `x`. -/
def foundBetween (xs : Array Nat) (x lo hi : Nat) : Bool :=
  if lo < hi then
    let mid := (lo + hi) / 2
    let y := xs.getD mid 0
    if y = x then true
    else if y < x then foundBetween xs x (mid + 1) hi
    else foundBetween xs x lo mid
  else false
termination_by hi - lo
decreasing_by
  · omega
  · omega

end Arenas

namespace Heap

def starts (h : Heap) (id : ArenaId) : Except Fault (List Nat) := h.arenas.starts id

/-- Keeps the first reference that does not name an object. -/
def noteDangling (pointers leaf : Array Nat) (holder : ArenaId) (problem : Option HeapError)
    (a : Arenas) (v : Value) : Except Fault (Option HeapError × Arenas × Value) := do
  match v.address? with
  | none => return (problem, a, v)
  | some target =>
    let starts := match target.arena with
      | .pointers => pointers
      | .leaf => leaf
    let live ←
      if Arenas.foundBetween starts target.word 0 starts.size then
        pure (← a.header target).kind.isObject
      else pure false
    if live then return (problem, a, v)
    else return (problem.or (some (.dangling holder v)), a, v)

/-- Counts the objects of both arenas, or reports the first reference that names none. Every word
that is visited is written back. -/
def inspect (h : Heap) : Except Fault (Heap × Except HeapError Nat) := do
  let pointers := (← h.starts .pointers).toArray
  let leaf := (← h.starts .leaf).toArray
  let a := h.arenas
  let (problem, a) ← a.scan (noteDangling pointers leaf .pointers) .pointers none
    Arenas.firstObject (a.used .pointers)
  let (problem, a) ← a.scan (noteDangling pointers leaf .leaf) .leaf problem
    Arenas.firstObject (a.used .leaf)
  let h := { h with arenas := a }
  match problem with
  | some e => return (h, .error e)
  | none => return (h, .ok (pointers.size + leaf.size))

def verify (h : Heap) : Except Fault (Except HeapError Nat) := return (← h.inspect).2

end Heap

end ObjectMachine
