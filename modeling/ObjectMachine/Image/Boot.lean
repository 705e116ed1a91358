import ObjectMachine.Image.Kernel

namespace ObjectMachine.Image

def allocatePairs : List KernelClass → ImageAction (List (Value × Value))
  | [] => return []
  | _ :: ks => do
    let cls ← onHeap (Heap.allocatePointers .nil Slot.Class.count)
    let metaclass ← onHeap (Heap.allocatePointers .nil Slot.Class.count)
    return (cls, metaclass) :: (← allocatePairs ks)

def wirePairs (root rootMeta : Value) : List (KernelClass × Value × Value) → ImageAction Unit
  | [] => return
  | (k, cls, metaclass) :: rest => do
    let i ← EStateM.get
    let sup := (k.superclass?.map i.kernelClass).getD .nil
    onHeap (Heap.wire cls metaclass sup root rootMeta)
    wirePairs root rootMeta rest

/-- Furnishes the kernel classes and makes them globals. -/
def furnishKernel : List KernelClass → ImageAction Unit
  | [] => return
  | k :: ks => do
    let cls := (← EStateM.get).kernelClass k
    furnishPair cls k.name k.vars
    setGlobal k.name cls
    furnishKernel ks

def checkKernel (root rootMeta : Value) : List Value → ImageAction Unit
  | [] => return
  | cls :: rest => do
    ask (·.checkWiring cls root rootMeta)
    checkKernel root rootMeta rest

def installKernel : List (KernelClass × Bool × List Method) → ImageAction Unit
  | [] => return
  | (k, onMetaclass, ms) :: rest => do
    let cls := (← EStateM.get).kernelClass k
    let target ← if onMetaclass then ask (·.isa cls) else pure cls
    addMethods target ms
    installKernel rest

/-- Makes the kernel classes on an empty memory. -/
def makeKernel : ImageAction Unit := do
  let pairs ← allocatePairs KernelClass.all
  let classes := pairs.map (·.1)
  modify fun i => { i with known := classes.toArray }
  let i ← EStateM.get
  let root := i.kernelClass .object
  let rootMeta := i.kernelClass .metaclass
  wirePairs root rootMeta (KernelClass.all.zip pairs)
  let blockReturn ← intern blockReturnSelector
  let i ← EStateM.get
  let symbols ← internAll (BinaryOp.all.toList.map (·.selector))
  let trueObject ← onHeap (Heap.allocatePointers (i.kernelClass .trueClass) 0)
  let falseObject ← onHeap (Heap.allocatePointers (i.kernelClass .falseClass) 0)
  let globals ← onHeap (Heap.newDictionary (i.kernelClass .dictionary) Heap.globalBuckets)
  modify fun i =>
    { i with known := i.known ++ ([trueObject, falseObject, globals, blockReturn] ++ symbols) }
  furnishKernel KernelClass.all
  checkKernel root rootMeta classes

def blank (settings : HeapSettings) : Except (Stop RuntimeError) Image :=
  match Heap.create settings with
  | .error e => .error (.failure (.config e))
  | .ok heap => .ok ⟨heap, {}, #[], #[]⟩

/-- Makes the kernel classes and their methods in a blank image. -/
def setUp : ImageAction Unit := do
  makeKernel
  installKernel Kernel.methods

def boot (settings : HeapSettings) : Except (Stop RuntimeError) Image := do
  match setUp (← blank settings) with
  | .ok _ i => return i
  | .error e _ => throw e

end ObjectMachine.Image
