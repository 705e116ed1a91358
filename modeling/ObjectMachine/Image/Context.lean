import ObjectMachine.Image.Basic

namespace ObjectMachine.Image

/-- Makes a context for `code` with arguments from register 1 on. Without a home, it is its own. -/
def newContext (code receiver : Value) (args : List Value) (previous parentHeapVars : Value)
    (home : Option Value) : ImageAction Value := do
  let shape ← ask (·.codeShape code)
  let i ← EStateM.get
  let contextClass := i.kernelClass .context
  let arrayClass := i.kernelClass .array
  let registers := 1 + shape.args + shape.temps + shape.stack
  let ctx ← onHeap (Heap.allocatePointers contextClass (Slot.Context.registers + registers))
  let heapVars ←
    if shape.heapVars > 0 then onHeap (Heap.allocatePointers arrayClass shape.heapVars)
    else pure .nil
  fillSlots ctx 0
    [previous, receiver, code, .ofNat 0, heapVars, parentHeapVars, home.getD ctx, receiver]
  fillSlots ctx (Slot.Context.registers + 1) (args.take shape.args)
  return ctx

/-- A context for a block, unless the number of arguments differs from what the block takes. -/
def blockContext? (block : Value) (args : List Value) (previous : Value) :
    ImageAction (Option Value) := do
  let shape ← ask (·.codeShape block)
  if shape.args ≠ args.length then
    return none
  let receiver ← ask (·.slot block Slot.Block.receiver)
  let parent ← ask (·.slot block Slot.Block.parentHeapVars)
  let home ← ask (·.slot block Slot.Block.home)
  return some (← newContext block receiver args previous parent (some home))

/-- One activation in a trace: the receiver's class and the selector. -/
def frameText (i : Image) (ctx : Value) : Except Fault String := do
  let code ← i.heap.slot ctx Slot.Context.method
  let receiver ← i.heap.slot ctx Slot.Context.receiver
  let cls ← i.heap.className (← i.classOf receiver)
  let selector ← i.heap.slot code Slot.Code.selector
  let selector ← if selector.isNil then pure "?" else i.heap.text selector
  if (← i.classOf code) = i.kernelClass .block then
    return s!"[] in {cls}>>{selector}"
  else
    return s!"{cls}>>{selector}"

/-- The activations from `ctx` on; after the given number of them the rest is left out. -/
def traceFrom (i : Image) : Nat → Value → Except Fault (List String)
  | limit, ctx =>
    if ctx.isNil then return []
    else match limit with
      | 0 => return ["..."]
      | limit + 1 => do
        let frame ← i.frameText ctx
        return frame :: (← i.traceFrom limit (← i.heap.slot ctx Slot.Context.previous))

abbrev maxTraceFrames : Nat := 256

/-- The activations from `ctx` on, innermost first. -/
def trace (i : Image) (ctx : Value) : Except Fault (List String) := i.traceFrom maxTraceFrames ctx

end ObjectMachine.Image
