import ObjectMachine.Log.Filter
import ObjectMachine.Log.Making

namespace ObjectMachine

structure Told (σ : Type) where
  state : σ
  log : Array LogEntry := #[]

abbrev WatchedAction (σ α : Type) := Action RuntimeError (Told σ) α

namespace Watch

/-- A step that tells nothing. -/
@[inline] def silently {σ α : Type} (act : Action RuntimeError σ α) : WatchedAction σ α :=
  fun ⟨s, log⟩ =>
    match act s with
    | .ok a s => .ok a ⟨s, log⟩
    | .error e s => .error e ⟨s, log⟩

def addTo (f : LogFilter) (log : Array LogEntry) (e : LogEntry) : Array LogEntry :=
  if f.passes e then log.push e else log

def tell {σ : Type} (f : LogFilter) (entries : σ → List LogEntry) : WatchedAction σ Unit :=
  modify fun t => { t with log := (entries t.state).foldl (addTo f) t.log }

/-- A message that the next instruction may send. -/
structure Message where
  text : String
  /-- An operator is sent only if the machine cannot apply it by itself. -/
  isOperator : Bool
  /-- Whether garbage is collected before the message is sent. -/
  collects : Bool

/-- What a message is told by: the class where its method is looked for, and its selector. -/
def messageText (i : Image) (cls selector : Value) : Except Fault String := do
  let name ← i.heap.className cls
  let text ← i.heap.text selector
  return s!"{name} >> #{text}"

def textOf (m : Machine) : Instruction → Except Fault (Option (String × Bool))
  | .send selector _ => do
    let selector ← m.image.heap.slot m.literals selector.toNat
    return some (← messageText m.image (← m.image.classOf m.accumulator) selector, false)
  | .sendSuper selector _ => do
    let selector ← m.image.heap.slot m.literals selector.toNat
    let defining ← m.image.heap.slot m.method Slot.Code.methodClass
    return some (← messageText m.image (← m.image.heap.superclass defining) selector, false)
  | .binaryOp reg op => do
    let receiver ← m.image.heap.slot m.context (Slot.Context.registers + reg.toNat)
    let cls ← m.image.classOf receiver
    return some (← messageText m.image cls (m.image.get (.selector op)), true)
  | _ => return none

def message? (m : Machine) : Option Message :=
  match Code.decodeAt m.code m.pc with
  | .error _ => none
  | .ok (instruction, _) =>
    match textOf m instruction with
    | .ok (some (text, isOperator)) => some ⟨text, isOperator, m.image.heap.needsCollection⟩
    | _ => none

/-- What is kept of a machine to tell its next turn by. -/
structure Before where
  collections : Nat
  spawned : Nat
  context : Value
  message : Option Message

/-- Messages are looked at only where they can be told. -/
def Before.ofMachine (messages : Bool) (m : Machine) : Before where
  collections := m.image.heap.stats.collections
  spawned := m.schedule.spawned
  context := m.context
  message := if messages then message? m else none

/-- Whether a turn without an error sent its message: an operator that the machine applies by
itself neither collects nor enters a context. -/
def Before.sent (b : Before) (m : Machine) (message : Message) : Bool :=
  !message.isOperator || b.context != m.context ||
    b.collections != m.image.heap.stats.collections

/-- Whether a turn that ended with an error had found the method for its message: it did so if the
message is understood and a collection did not fail before. -/
def Before.sentBefore (b : Before) (m : Machine) (message : Message) :
    Stop RuntimeError → Bool
  | .failure (.messageNotUnderstood ..) => false
  | _ => !message.collects || b.collections != m.image.heap.stats.collections

def Before.collected (b : Before) (h : Heap) : List LogEntry :=
  let count := h.stats.collections
  let live := h.stats.last.live
  let freed := h.stats.last.freed
  if b.collections = count then []
  else [
    ⟨.debug, .memory, s!"collection #{count}: {live} words live, {freed} words freed"⟩,
    ⟨.debug, .machine, s!"collected at safepoint: {live} words live, {freed} freed"⟩]

/-- The processes that a turn made. -/
def Before.spawnedIn (b : Before) (s : Schedule) : List LogEntry :=
  (List.range (s.spawned - b.spawned)).map fun k => Log.spawned (b.spawned + k + 1)

def Before.changes (b : Before) (m : Machine) : List LogEntry :=
  b.collected m.image.heap ++ b.spawnedIn m.schedule

def Message.entry (m : Message) : LogEntry := ⟨.trace, .machine, m.text⟩

def preempted (m : Machine) : LogEntry :=
  let id := ((m.image.processId? m.process).toOption.bind id).getD 0
  ⟨.debug, .machine, s!"preempted process {id}"⟩

/-- What a turn without an error told. -/
def Before.news (b : Before) (m : Machine) (outcome : Option RunOutcome) : List LogEntry :=
  if outcome = some .preempted then [preempted m]
  else b.changes m ++ (b.message.filter (b.sent m)).toList.map (·.entry)

/-- What a turn told that ended with an error. -/
def Before.lastNews (b : Before) (m : Machine) (e : Stop RuntimeError) : List LogEntry :=
  b.changes m ++ (b.message.filter fun c => b.sentBefore m c e).toList.map (·.entry)

def step (f : LogFilter) (messages : Bool) (timer : Timer) :
    WatchedAction Machine (Option RunOutcome) := fun ⟨m, log⟩ =>
  let before := Before.ofMachine messages m
  match Machine.step timer m with
  | .ok outcome m => .ok outcome ⟨m, (before.news m outcome).foldl (addTo f) log⟩
  | .error e m => .error e ⟨m, (before.lastNews m e).foldl (addTo f) log⟩

/-- Runs until an outcome, for at most the given number of turns. -/
def runMachine (f : LogFilter) (messages : Bool) (timer : Timer) :
    Nat → WatchedAction Machine (Option RunOutcome)
  | 0 => return none
  | turns + 1 => do
    match ← step f messages timer with
    | some outcome => return some outcome
    | none => runMachine f messages timer turns

/-- Runs the current process, for at most the given number of turns. -/
def interpret (f : LogFilter) (timer : Timer) (turns : Nat) :
    WatchedAction World (Option RunOutcome) := fun ⟨w, log⟩ =>
  let messages := f.admits .trace .machine
  let run := do
    silently Machine.unspill
    runMachine f messages timer turns
  match run ⟨Machine.ofWorld w, log⟩ with
  | .ok outcome ⟨m, log⟩ => .ok outcome ⟨m.toWorld, log⟩
  | .error e ⟨m, log⟩ => .error e ⟨m.toWorld, log⟩

def processName (i : Image) (p : Value) : String :=
  ((i.describeProcess p).toOption.map (·.2)).getD ""

def settled (i : Image) (p : Value) : RunOutcome → List LogEntry
  | .returned result =>
    let name := processName i p
    let text := (i.printString result).toOption.getD ""
    [⟨.info, .scheduler, s!"{name} finished: {text}"⟩]
  | .suspended =>
    let name := processName i p
    [⟨.debug, .scheduler, s!"{name} suspended"⟩]
  | .preempted | .yielded => []

def aborted (i : Image) (p : Value) (cause : RuntimeError) : LogEntry :=
  let name := processName i p
  let reason := cause.message
  ⟨.error, .scheduler, s!"{name} aborted: {reason}"⟩

/-- What is told of processes that nothing is going to resume. -/
def stillWaiting (count : Nat) : List LogEntry :=
  if 0 < count then
    [⟨.warn, .scheduler, s!"runnable set empty with {count} processes still waiting"⟩]
  else []

/-- Ends the current process, and tells why. -/
def abort (f : LogFilter) : Stop RuntimeError → WatchedAction World (Option RunOutcome)
  | .failure cause => do
    let p ← silently World.abort
    tell f fun w => [aborted w.image p cause]
    throw (.failure cause)
  | .fault fault => throw (.fault fault)

def runProcess (f : LogFilter) (timer : Timer) (turns : Nat) (p : Value) :
    WatchedAction World (Option Unit) := do
  silently (World.setCurrent p)
  match ← tryCatch (interpret f timer turns) (abort f) with
  | none => return none
  | some outcome =>
    let p ← silently (World.settle outcome)
    tell f fun w => settled w.image p outcome
    return some ()

/-- Runs at most the given number of processes, one after the other. -/
def runQueue (f : LogFilter) (timer : Timer) (turns : Nat) :
    Nat → WatchedAction World (Option Unit)
  | 0 => return none
  | dispatches + 1 => do
    match ← silently World.dequeue with
    | none =>
      let count ← silently World.countWaiting
      tell f fun _ => stillWaiting count
      return some ()
    | some p =>
      match ← runProcess f timer turns p with
      | none => return none
      | some _ => runQueue f timer turns dispatches

/-- A time in seconds, with at most three decimals, or in milliseconds if it is short. -/
def durationText (milliseconds : Nat) : String :=
  if milliseconds < 1000 then s!"{milliseconds}ms"
  else
    let digits := (toString (1000 + milliseconds % 1000)).toList.drop 1
    let decimals := (digits.reverse.dropWhile (· == '0')).reverse
    let point := if decimals.isEmpty then "" else "."
    toString (milliseconds / 1000) ++ point ++ String.ofList decimals ++ "s"

/-- Does something while the timer runs. Time slices of no length stand for no timer. -/
def withTimer {α : Type} (f : LogFilter) (milliseconds : Nat) (act : WatchedAction World α) :
    WatchedAction World α :=
  if milliseconds = 0 then act
  else do
    let slice := durationText milliseconds
    let stopped : LogEntry := ⟨.debug, .timer, "timer unit stopped"⟩
    tell f fun _ => [⟨.debug, .timer, s!"timer unit started with a {slice} slice"⟩]
    let a ← tryCatch act fun e => do
      tell f fun _ => [stopped]
      throw e
    tell f fun _ => [stopped]
    return a

end Watch

end ObjectMachine
