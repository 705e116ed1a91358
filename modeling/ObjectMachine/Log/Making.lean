import ObjectMachine.Log.Basic
import ObjectMachine.Program

namespace ObjectMachine.Log

def hasMethod (i : Image) (cls : Value) (selector : String) : Bool :=
  let found : Except Fault (Option Value) := do
    let methods ← i.heap.slot cls Slot.Class.methods
    match i.symbols.lookup selector with
    | none => return none
    | some symbol => if methods.isNil then return none else i.heap.dictionaryAt methods symbol
  match found with
  | .ok found => found.isSome
  | .error _ => false

def ofMethods (i : Image) (cls : Value) (className : String) (ms : List Method) :
    List LogEntry :=
  (ms.filter fun m => hasMethod i cls m.selector).map fun m =>
    ⟨.trace, .image, s!"installed {className}>>{m.selector}"⟩

def ofSides (i : Image) (cls : Value) (className : String) (methods classMethods : List Method) :
    List LogEntry :=
  ofMethods i cls className methods ++
    match i.heap.isa cls with
    | .ok metaclass => ofMethods i metaclass (className ++ " class") classMethods
    | .error _ => []

def ofKernel (i : Image) : List LogEntry :=
  Kernel.methods.flatMap fun (k, onMetaclass, ms) =>
    if onMetaclass then ofSides i (i.kernelClass k) k.name [] ms
    else ofSides i (i.kernelClass k) k.name ms []

def isGlobal (i : Image) (name : String) : Bool :=
  match i.global? name with
  | .ok v => v.isSome
  | .error _ => false

/-- The making of an image. Its classes are there once all of them are globals. -/
def ofBoot (i : Image) (complete : Bool) : List LogEntry :=
  let count := KernelClass.all.length
  let classes := if KernelClass.all.all fun k => isGlobal i k.name then
    [⟨.debug, .image, s!"bootstrapped {count} kernel classes"⟩] else []
  let methods := if complete then [⟨.debug, .kernel, "installed kernel methods"⟩] else []
  classes ++ ofKernel i ++ methods

def ofClass (i : Image) (d : ClassDefinition) : List LogEntry :=
  match i.global? d.name with
  | .ok (some cls) =>
    let count := ((i.heap.instanceVariables cls).toOption.getD []).length
    ⟨.debug, .image,
      s!"defined class {d.name} < {d.superclass} with {count} instance variables"⟩ ::
      ofSides i cls d.name d.methods d.classMethods
  | _ => []

def spawned (id : Nat) : LogEntry := ⟨.debug, .scheduler, s!"spawned process {id}"⟩

def ofLoading (p : Program) (w : World) : List LogEntry :=
  p.classes.flatMap (ofClass w.image) ++
    (List.range w.schedule.spawned).map fun k => spawned (k + 1)

def ofTotals (h : Heap) : LogEntry :=
  ⟨.debug, .commandLine,
    s!"{h.stats.objects} objects allocated, {h.stats.collections} collections"⟩

end ObjectMachine.Log
