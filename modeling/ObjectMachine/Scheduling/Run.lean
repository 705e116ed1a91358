import ObjectMachine.Image.Define
import ObjectMachine.Machine.Run

namespace ObjectMachine.World

/-- Runs the current process, for at most the given number of turns. -/
def interpret (timer : Timer) (turns : Nat) : WorldAction (Option RunOutcome) := fun w =>
  match (do Machine.unspill; Machine.run timer turns) (Machine.ofWorld w) with
  | .ok outcome m => .ok outcome m.toWorld
  | .error e m => .error e m.toWorld

@[inline] def onHeap {α : Type} (act : Action HeapError Heap α) : WorldAction α :=
  onImage (Image.onHeap act)

/-- Takes the next process off the queue. -/
def dequeue : WorldAction (Option Value) :=
  onSchedule fun s => do
    let (p, runnable) ← Image.onHeap s.runnable.dequeue
    return (p, { s with runnable })

/-- Puts a process at the tail of the queue. -/
def enqueueRunnable (p : Value) : WorldAction Unit :=
  onSchedule fun s => do
    return ((), { s with runnable := ← Image.onHeap (s.runnable.enqueue p) })

def park (p : Value) : WorldAction Unit :=
  onSchedule fun s => do
    Image.onHeap (Heap.setSlot p Slot.Process.state ProcessState.waiting.toValue)
    return ((), { s with waiting := ← Image.onHeap (s.waiting.enqueue p) })

def finish (p result : Value) : WorldAction Unit := do
  onHeap (Heap.setSlot p Slot.Process.state ProcessState.done.toValue)
  onHeap (Heap.setSlot p Slot.Process.context .nil)
  onHeap (Heap.setSlot p Slot.Process.accumulator result)
  let (id, name) ← ask (·.describeProcess p)
  modify fun w =>
    { w with schedule :=
        { w.schedule with finished := w.schedule.finished.push ⟨id, name, result⟩ } }

def setCurrent (p : Value) : WorldAction Unit :=
  modify fun w => { w with schedule := { w.schedule with current := p } }

/-- Takes the running process out of the machine. -/
def takeCurrent : WorldAction Value := do
  let p := (← get).schedule.current
  setCurrent .nil
  return p

/-- Ends the current process after an error, and answers it. -/
def abort : WorldAction Value := do
  let p ← takeCurrent
  onHeap (Heap.setSlot p Slot.Process.state ProcessState.done.toValue)
  return p

/-- Puts the current process where it belongs after a run, and answers it. -/
def settle (outcome : RunOutcome) : WorldAction Value := do
  let p ← takeCurrent
  match outcome with
  | .returned result => finish p result
  | .preempted | .yielded => enqueueRunnable p
  | .suspended => park p
  return p

/-- Runs one process until its run ends. An error ends the process. None is answered if the turns
do not suffice. -/
def runProcess (timer : Timer) (turns : Nat) (p : Value) : WorldAction (Option Unit) := do
  setCurrent p
  let outcome ← tryCatch (interpret timer turns) fun e => do
    match e with
    | .failure _ =>
      let _ ← abort
      throw e
    | .fault _ => throw e
  match outcome with
  | none => return none
  | some outcome =>
    let _ ← settle outcome
    return some ()

/-- How many processes nothing is going to resume. -/
def countWaiting : WorldAction Nat :=
  Action.query fun w => w.schedule.waiting.length w.image.heap

/-- Runs at most the given number of processes, one after the other. When none is left, those that
wait are counted. -/
def runQueue (timer : Timer) (turns : Nat) : Nat → WorldAction (Option Unit)
  | 0 => return none
  | dispatches + 1 => do
    match ← dequeue with
    | none =>
      let _ ← countWaiting
      return some ()
    | some p =>
      match ← runProcess timer turns p with
      | none => return none
      | some _ => runQueue timer turns dispatches

/-- Runs until no process is ready. None is answered if the fuel does not suffice. -/
def run (timer : Timer) (fuel : Nat) : WorldAction (Option Unit) := runQueue timer fuel fuel

/-- Compiles a statement list, runs it along with all processes that are ready, and answers its
value. -/
def evaluate (timer : Timer) (fuel : Nat) (temps : List String) (body : List Expr) :
    WorldAction (Option Value) := do
  let method ← onImage (Image.compileDoIt temps body)
  let id ← spawnMethod method .nil "doIt"
  match ← run timer fuel with
  | none => return none
  | some _ => return some (((← get).schedule.result? id).getD .nil)

end ObjectMachine.World
