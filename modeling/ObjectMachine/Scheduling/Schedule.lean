import ObjectMachine.Image.Context
import ObjectMachine.Image.Print
import ObjectMachine.Object.Queue
import ObjectMachine.Scheduling.Interrupts

namespace ObjectMachine

/-- A process that came to its end. -/
structure Finished where
  id : Nat
  name : String
  result : Value
  deriving Inhabited

/-- A process that is not running stands in one of two queues: those ready to run, and those that
wait to be resumed. -/
structure Schedule where
  runnable : Queue := {}
  waiting : Queue := {}
  /-- The running process, nil between runs. -/
  current : Value := .nil
  /-- The number of processes made so far. -/
  spawned : Nat := 0
  finished : Array Finished := #[]
  deriving Inhabited

namespace Schedule

def result? (s : Schedule) (id : Nat) : Option Value :=
  (s.finished.find? (·.id == id)).map (·.result)

def roots (s : Schedule) : List Value :=
  [s.runnable.head, s.runnable.tail, s.waiting.head, s.waiting.tail, s.current] ++
    s.finished.toList.map (·.result)

/-- The same schedule with its objects at their new places. -/
def withRoots (s : Schedule) : List Value → Schedule
  | rh :: rt :: wh :: wt :: current :: results =>
    { s with
      runnable := ⟨rh, rt⟩
      waiting := ⟨wh, wt⟩
      current
      finished :=
        (s.finished.toList.zipWith (fun f v => { f with result := v }) results).toArray }
  | _ => s

/-- A process with a new number, ready to run after all others. -/
def spawn (s : Schedule) (context name : Value) : ImageAction (Value × Schedule) := do
  let i ← EStateM.get
  let p ← Image.onHeap (Heap.allocatePointers (i.kernelClass .process) Slot.Process.count)
  let id := s.spawned + 1
  Image.onHeap (Heap.setSlot p Slot.Process.id (.ofNat id))
  Image.onHeap (Heap.setSlot p Slot.Process.name name)
  Image.onHeap (Heap.setSlot p Slot.Process.context context)
  Image.onHeap (Heap.setSlot p Slot.Process.state ProcessState.runnable.toValue)
  let runnable ← Image.onHeap (s.runnable.enqueue p)
  return (p, { s with runnable, spawned := id })

end Schedule

def Heap.processState? (h : Heap) (p : Value) : Except Fault (Option ProcessState) :=
  return ProcessState.ofValue? (← h.slot p Slot.Process.state)

namespace Schedule

/-- Lets a process that is ready to run wait. Any other process is left alone. -/
def suspend (s : Schedule) (p : Value) : ImageAction (Bool × Schedule) := do
  if (← Image.ask (·.processState? p)) ≠ some .runnable then
    return (false, s)
  let (found, runnable) ← Image.onHeap (s.runnable.remove p)
  if !found then
    return (false, s)
  Image.onHeap (Heap.setSlot p Slot.Process.state ProcessState.waiting.toValue)
  let waiting ← Image.onHeap (s.waiting.enqueue p)
  return (true, { s with runnable, waiting })

/-- Makes a waiting process ready to run. Any other process is left alone. -/
def resume (s : Schedule) (p : Value) : ImageAction (Bool × Schedule) := do
  if (← Image.ask (·.processState? p)) ≠ some .waiting then
    return (false, s)
  let (found, waiting) ← Image.onHeap (s.waiting.remove p)
  if !found then
    return (false, s)
  Image.onHeap (Heap.setSlot p Slot.Process.state ProcessState.runnable.toValue)
  let runnable ← Image.onHeap (s.runnable.enqueue p)
  return (true, { s with runnable, waiting })

end Schedule

def Image.describeProcess (i : Image) (p : Value) : Except Fault (Nat × String) := do
  let id ← i.heap.count p Slot.Process.id
  match ← i.text? (← i.heap.slot p Slot.Process.name) with
  | some name => return (id, name)
  | none => return (id, s!"process {id}")

/-- The number that a process bears. A program may replace it by something else. -/
def Image.processId? (i : Image) (p : Value) : Except Fault (Option Int) :=
  return (← i.heap.slot p Slot.Process.id).toInt?

/-- A process as it looks from outside: its name and accumulator printed, and the position of its
innermost activation, which is missing once that has ended. -/
structure ProcessView where
  id : Option Int
  name : String
  accumulator : String
  state : Option ProcessState
  position : Option Int
  trace : List String

def Image.viewProcess (i : Image) (p : Value) : Except Fault ProcessView := do
  let context ← i.heap.slot p Slot.Process.context
  let pc ← if context.isNil then pure .nil else i.heap.slot context Slot.Context.pc
  return {
    id := ← i.processId? p
    name := ← i.printString (← i.heap.slot p Slot.Process.name)
    accumulator := ← i.printString (← i.heap.slot p Slot.Process.accumulator)
    state := ← i.heap.processState? p
    position := pc.toInt?
    trace := ← i.trace context }

/-- An image, the processes in it, and requests to preempt them. -/
structure World where
  image : Image
  schedule : Schedule := {}
  interrupts : Interrupts := {}
  /-- The number of instructions run so far. -/
  clock : Nat := 0
  deriving Inhabited

abbrev WorldAction := Action RuntimeError World

/-- Collects what neither the image nor the schedule keeps alive. -/
def Image.collect (s : Schedule) (i : Image) :
    Except Fault (Except HeapError Collection × Schedule × Image) := do
  let roots := i.roots ++ s.roots
  let ⟨heap, symbols, known, transcript⟩ := i
  let (heap, roots, result) ← heap.collect roots
  let (symbolRoots, roots) := roots.splitAt symbols.size
  let (knownRoots, roots) := roots.splitAt known.size
  return (result, s.withRoots roots,
    ⟨heap, symbols.withRoots symbolRoots, knownRoots.toArray, transcript⟩)

namespace World

@[inline] def onImage {α : Type} (act : ImageAction α) : WorldAction α :=
  fun ⟨image, schedule, interrupts, clock⟩ =>
    match act image with
    | .ok a image => .ok a ⟨image, schedule, interrupts, clock⟩
    | .error e image => .error e ⟨image, schedule, interrupts, clock⟩

@[inline] def ask {α : Type} (f : Image → Except Fault α) : WorldAction α :=
  Action.query fun w => f w.image

def onSchedule {α : Type} (act : Schedule → ImageAction (α × Schedule)) : WorldAction α := do
  let (a, schedule) ← onImage (act (← get).schedule)
  modify fun w => { w with schedule }
  return a

def collect : WorldAction Collection := fun w =>
  match w.image.collect w.schedule with
  | .error f => .error (.fault f) w
  | .ok (result, schedule, image) =>
    let w := { w with image, schedule }
    match result with
    | .ok c => .ok c w
    | .error e => .error (.failure (.allocation e)) w

/-- The first process of a number: those ready to run come first, then those that wait, and the
one that runs comes last. -/
def process? (id : Int) : WorldAction (Option Value) := do
  let s := (← get).schedule
  let queued ← ask fun i => return (← s.runnable.toList i.heap) ++ (← s.waiting.toList i.heap)
  let running := if s.current.isNil then [] else [s.current]
  (queued ++ running).findM? fun p => return (← ask (·.processId? p)) == some id

/-- A process that sends a method without parameters to a receiver; its number is answered. -/
def spawnMethod (method receiver : Value) (name : String) : WorldAction Nat := do
  let context ← onImage (Image.newContext method receiver [] .nil .nil none)
  let name ← onImage (Image.newString name)
  let p ← onSchedule (·.spawn context name)
  return (← ask (·.describeProcess p)).1

end World

end ObjectMachine
