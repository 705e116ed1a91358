import ObjectMachine.Memory.Heap

namespace ObjectMachine

namespace Arenas

/-- Moves the object at an address, unless it has moved, and answers where it is. The first
argument bounds the chain of byte objects that are each other's classes. -/
def moveObject : Nat → Arenas → Arenas → Address → Except Fault (Arenas × Arenas × Address)
  | 0, _, _, _ => .error .endless
  | fuel + 1, source, target, old => do
    match ← source.forwarding? old with
    | some new => return (source, target, new)
    | none =>
      let header ← source.header old
      let ws ← source.words old.arena old.word (old.word + header.totalWords)
      let (new, target) := target.append old.arena ws
      let source ← source.forward old new
      match old.arena with
      | .pointers => return (source, target, new)
      | .leaf =>
        match header.isa.address? with
        | none => return (source, target, new)
        | some cls =>
          let (source, target, cls) ← moveObject fuel source target cls
          let target ← target.setClass new (.ofAddress cls)
          return (source, target, new)

/-- Moves the object that a value names, and answers its new name. Any other value stays. -/
@[inline] def evacuate (fuel : Nat) (source target : Arenas) (v : Value) :
    Except Fault (Arenas × Arenas × Value) :=
  match v.address? with
  | none => return (source, target, v)
  | some old => do
    let (source, target, new) ← moveObject fuel source target old
    return (source, target, .ofAddress new)

/-- Moves what a list of values names. -/
def evacuateAll (fuel : Nat) (source target : Arenas) :
    List Value → Except Fault (Arenas × Arenas × List Value)
  | [] => return (source, target, [])
  | v :: vs => do
    let (source, target, v) ← evacuate fuel source target v
    let (source, target, vs) ← evacuateAll fuel source target vs
    return (source, target, v :: vs)

/-- Scans what was moved and moves what it names, until nothing new has moved. -/
def drain (fuel : Nat) : Nat → Arenas → Arenas → Nat → Except Fault (Arenas × Arenas)
  | 0, _, _, _ => .error .endless
  | rounds + 1, source, target, scanned => do
    let top := target.used .pointers
    if scanned = top then return (source, target)
    let (source, target) ← target.scan (evacuate fuel) .pointers source scanned top
    drain fuel rounds source target top

end Arenas

namespace Heap

/-- The first arena that holds more words than it may. -/
def overfull? (capacity : Nat) (a : Arenas) : Option HeapError :=
  (ArenaId.all.find? fun id => capacity < a.used id).map fun id =>
    .exhausted id 0 (a.used id) capacity

/-- Whatever the roots reach moves to fresh arenas, breadth first; what stays behind is gone. A
moved object leaves its new address in its old header. Byte objects are not scanned, so their
class moves along with them. Delivers the heap and the roots as they are afterwards. -/
def collect (h : Heap) (roots : List Value) :
    Except Fault (Heap × List Value × Except HeapError Collection) := do
  let source := h.arenas
  let h := { h with arenas := .empty }
  let before := source.used .pointers + source.used .leaf
  let fuel := source.used .leaf + 2
  let rounds := source.used .pointers + 2
  let (source, target, roots) ← Arenas.evacuateAll fuel source .empty roots
  let (_, target) ← Arenas.drain fuel rounds source target Arenas.firstObject
  match overfull? h.capacity target with
  | some e => return ({ h with arenas := target }, roots, .error e)
  | none =>
    let live : Collection := ⟨target.used .pointers, target.used .leaf, 0⟩
    let result := { live with freed := before - live.live }
    let stats := { h.stats with collections := h.stats.collections + 1, last := result }
    return ({ h with arenas := target, stats }, roots, .ok result)

end Heap

end ObjectMachine
