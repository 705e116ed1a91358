import ObjectMachine.Code.Assembler
import ObjectMachine.Code.Primitive
import ObjectMachine.Code.Template
import ObjectMachine.Language.Resolve

namespace ObjectMachine

def blockReturnSelector : String := "blockReturn:"

abbrev maxLiterals : Nat := 256

/-- A chained slot, the parent's slot that it copies, and the register that remembers the value
on which the two last agreed. -/
structure SyncedSlot where
  own : UInt8
  parent : UInt8
  reg : UInt8
  deriving DecidableEq, Inhabited

/-- A method or block that becomes code of its own. -/
structure CodeUnit where
  scopes : ScopeTree
  scope : Scope
  selector : String
  syncs : List SyncedSlot

/-- What grows while code is compiled: the constants, and the first register never used. -/
structure Pool where
  literals : Array Constant := #[]
  high : Nat

abbrev Emit := Action CompileError Pool

namespace CodeUnit

/-- Gives each chained slot a register after the fixed ones. -/
def assignSyncs (reg : Nat) : List (UInt8 × UInt8) → Except CompileError (List SyncedSlot)
  | [] => .ok []
  | (own, parent) :: rest => do
    if maxRegisters ≤ reg then
      throw .tooManyVariables
    return ⟨own, parent, reg.toUInt8⟩ :: (← assignSyncs (reg + 1) rest)

def create (scopes : ScopeTree) (id : Nat) (selector : String) : Except CompileError CodeUnit := do
  let scope := scopes.scope id
  return ⟨scopes, scope, selector, ← assignSyncs scope.fixedRegisters scope.chained⟩

def firstTemp (u : CodeUnit) : Nat := u.scope.fixedRegisters + u.syncs.length

/-- Copies chained slots, then captured arguments, into the heap variables of the activation. -/
def prologue (u : CodeUnit) : List Instruction :=
  u.syncs.map (fun s => .promote s.own s.parent) ++
    u.scope.heapVars.toList.zipIdx.flatMap fun
      | (.argument reg, slot) => [.loadRegister reg, .storeOwn slot.toUInt8]
      | _ => []

/-- Copies chained slots back to the parent. -/
def restores (u : CodeUnit) : List Instruction := u.syncs.map fun s => .restore s.parent s.own

def sync (u : CodeUnit) : List Instruction := u.syncs.map fun s => .sync s.own s.parent s.reg

/-- An instruction that may run other code, with the chained slots in step on both sides. -/
def call (u : CodeUnit) (i : Instruction) : List Instruction := u.sync ++ [i] ++ u.sync

def template (u : CodeUnit) (code : List Instruction) (pool : Pool) : CodeTemplate where
  selector := u.selector
  bytecode := (encodeAll code).toArray
  literals := pool.literals.toList
  args := u.scope.args
  temps := u.scope.locals + u.syncs.length
  heapVars := u.scope.heapVars.size
  stack := pool.high - u.firstTemp

end CodeUnit

namespace Emit

def allocTemp (next : Nat) : Emit UInt8 := do
  if maxRegisters ≤ next then
    Action.fail .tooDeep
  modify fun p => { p with high := max p.high (next + 1) }
  return next.toUInt8

/-- The index of a constant. Blocks are never shared, all else is. -/
def literal (c : Constant) : Emit UInt8 := do
  let literals := (← get).literals
  match literals.findIdx? c.same with
  | some i => return i.toUInt8
  | none =>
    if maxLiterals ≤ literals.size then
      Action.fail .tooManyLiterals
    modify fun p => { p with literals := p.literals.push c }
    return literals.size.toUInt8

def symbol (name : String) : Emit UInt8 := literal (.symbol name)

def ofExcept {α : Type} (r : Except CompileError α) : Emit α :=
  match r with
  | .ok a => return a
  | .error e => Action.fail e

def load (b : Binding) (name : String) : Emit Instruction :=
  match b with
  | .register reg => return .loadRegister reg
  | .own slot => return .loadOwn slot
  | .parent slot => return .loadParent slot
  | .instanceVariable i => return .loadInstVar i
  | .global => return .loadGlobal (← symbol name)

def store (b : Binding) (name : String) : Emit Instruction :=
  match b with
  | .register reg => return .storeRegister reg
  | .own slot => return .storeOwn slot
  | .parent slot => return .storeParent slot
  | .instanceVariable i => return .storeInstVar i
  | .global => return .storeGlobal (← symbol name)

def pseudo : PseudoVariable → Instruction
  | .self => .loadRegister 0
  | .nil => .loadNil
  | .true => .loadTrue
  | .false => .loadFalse
  | .thisContext => .loadThisContext
  | .globals => .loadGlobals

def skip (length : Nat) : Emit Int16 := ofExcept (offsetOf length)

/-- The offset of a branch back over `length` bytes, its own included. -/
def back (length : Nat) : Emit Int16 := ofExcept (offsetOf (-length))

/-- Sets the temporaries of an inlined block to nil. -/
def clearTemps : List (String × Binding) → Emit (List Instruction)
  | [] => return []
  | (name, b) :: temps => do
    let i ← store b name
    return .loadNil :: i :: (← clearTemps temps)

/-- The registers of a send; their number was looked at before. -/
def argRegisters (regs : List UInt8) : Emit ArgRegisters :=
  match ArgRegisters.ofList? regs with
  | some args => return args
  | none => Action.fail .tooManyArguments

def findPrimitive (name : String) (count : Nat) : Emit Primitive := do
  match Primitive.ofName? name with
  | none => Action.fail (.unknownPrimitive name)
  | some p =>
    match p.arity with
    | .fixed expected =>
      if expected ≠ count then
        Action.fail (.primitiveArity name expected count)
      return p
    | .variadic => return p

/-- The call of a primitive on `count` operands, of which all but the last stand in registers. -/
def directCall (index : UInt8) (count : Nat) : List UInt8 → Instruction
  | [] => if count = 0 then .primitive0 index else .primitive1 index
  | [reg] => .primitive2 index reg
  | reg₁ :: reg₂ :: _ => .primitive3 index reg₁ reg₂

/-- The branch that leaves a conditional or a loop when its condition does not hold. -/
def leaving : ControlForm → Int16 → Instruction
  | .ifFalse | .ifFalseIfTrue | .whileFalseDo => .branchIfTrue
  | _ => .branchIfFalse

mutual

/-- The code of an expression, which leaves its value in the accumulator. Values that must wait
stand in registers from `next` on, last in first out. The code does not depend on where it
stands, since branches are relative. -/
def expr (u : CodeUnit) (next : Nat) : Node Binding → Emit (List Instruction)
  | .literal value => do
    let c ← ofExcept (Constant.ofLiteral value)
    return [.loadLiteral (← literal c)]
  | .pseudo which => return [pseudo which]
  | .variable name b => return [← load b name]
  | .assign name b value => do
    let code ← expr u next value
    return code ++ [← store b name]
  | .send receiver selector args => do
    let receiver ← expr u next receiver
    match BinaryOp.ofSelector? selector, args.length with
    | some op, 1 =>
      let reg ← allocTemp next
      let (code, _) ← operands u (next + 1) args
      return receiver ++ [.storeRegister reg] ++ code ++ u.call (.binaryOp reg op)
    | _, 0 =>
      let regs ← argRegisters []
      return receiver ++ u.call (.send (← symbol selector) regs)
    | _, count =>
      let reg ← allocTemp next
      if maxArgs < count then
        Action.fail .tooManyArguments
      let (code, regs) ← stashAll u (next + 1) args
      let regs ← argRegisters regs
      return receiver ++ [.storeRegister reg] ++ code ++ [.loadRegister reg] ++
        u.call (.send (← symbol selector) regs)
  | .superSend selector args => do
    if maxArgs < args.length then
      Action.fail .tooManyArguments
    let (code, regs) ← stashAll u next args
    let regs ← argRegisters regs
    return code ++ [.loadRegister 0] ++ u.call (.sendSuper (← symbol selector) regs)
  | .closure scope _ _ body => do
    let inner ← ofExcept (CodeUnit.create u.scopes scope u.selector)
    let outer ← get
    set { high := inner.firstTemp : Pool }
    let code ← statements inner inner.firstTemp body
    let code := inner.prologue ++ (if body.isEmpty then [.loadNil] else code) ++
      inner.restores ++ [.return_]
    let pool ← get
    set outer
    return [.copyBlock (← literal (.block (inner.template code pool)))]
  | .inlined .. => Action.fail .blockNotResolved
  | .ret value => do
    let code ← expr u next value
    match u.scope.kind with
    | .method => return code ++ [.return_]
    | .block =>
      let reg ← allocTemp next
      let selector ← symbol blockReturnSelector
      let regs ← argRegisters [reg]
      return code ++ [.storeRegister reg] ++ u.restores ++
        [.loadThisContext, .send selector regs]
  | .primitive name args => do
    let p ← findPrimitive name args.length
    let index := p.index.toUInt8
    if p.arity ≠ .variadic ∧ args.length ≤ 3 then
      let (code, regs) ← operands u next args
      return code ++ u.call (directCall index args.length regs)
    else
      if maxArgs < args.length then
        Action.fail .tooManyArguments
      let (code, regs) ← stashAll u next args
      return code ++ u.call (.primitiveV index next.toUInt8 regs.length.toUInt8)
  | .control form receiver args => do
    match form with
    | .ifTrue | .ifFalse =>
      let receiver ← expr u next receiver
      let body ← arm u next 0 args
      let past ← skip (codeLength body + 3)
      return receiver ++ [leaving form past] ++ body ++ [.jump 1, .loadNil]
    | .ifTrueIfFalse | .ifFalseIfTrue =>
      let receiver ← expr u next receiver
      let first ← arm u next 0 args
      let past ← skip (codeLength first + 3)
      let second ← arm u next 1 args
      let out ← skip (codeLength second)
      return receiver ++ [leaving form past] ++ first ++ [.jump out] ++ second
    | .and =>
      let receiver ← expr u next receiver
      let body ← arm u next 0 args
      let past ← skip (codeLength body)
      return receiver ++ [leaving form past] ++ body
    | .whileTrueDo | .whileFalseDo =>
      let condition ← inPlace u next receiver
      let body ← arm u next 0 args
      let again ← back (codeLength condition + 3 + codeLength body + 3)
      let out ← skip (codeLength body + 3)
      return condition ++ [leaving form out] ++ body ++ [.jump again, .loadNil]
    | .whileTrue =>
      let condition ← inPlace u next receiver
      let again ← back (codeLength condition + 3)
      return condition ++ [.branchIfTrue again, .loadNil]
    | .whileFalse =>
      let condition ← inPlace u next receiver
      let again ← back (codeLength condition + 3)
      return condition ++ [.branchIfFalse again, .loadNil]
termination_by structural n => n

def statements (u : CodeUnit) (next : Nat) : List (Node Binding) → Emit (List Instruction)
  | [] => return []
  | n :: ns => do
    let code ← expr u next n
    return code ++ (← statements u next ns)
termination_by structural ns => ns

def stashAll (u : CodeUnit) (next : Nat) :
    List (Node Binding) → Emit (List Instruction × List UInt8)
  | [] => return ([], [])
  | n :: ns => do
    let code ← expr u next n
    let reg ← allocTemp next
    let (rest, regs) ← stashAll u (next + 1) ns
    return (code ++ [.storeRegister reg] ++ rest, reg :: regs)
termination_by structural ns => ns

/-- Code that puts values into registers from `next` on, but for the last, which it leaves in the
accumulator. -/
def operands (u : CodeUnit) (next : Nat) :
    List (Node Binding) → Emit (List Instruction × List UInt8)
  | [] => return ([], [])
  | n :: ns => do
    let code ← expr u next n
    if ns.isEmpty then
      return (code, [])
    let reg ← allocTemp next
    let (rest, regs) ← operands u (next + 1) ns
    return (code ++ [.storeRegister reg] ++ rest, reg :: regs)
termination_by structural ns => ns

def arm (u : CodeUnit) (next : Nat) (index : Nat) : List (Node Binding) → Emit (List Instruction)
  | [] => Action.fault .outOfRange
  | n :: ns => if index = 0 then inPlace u next n else arm u next (index - 1) ns
termination_by structural ns => ns

def inPlace (u : CodeUnit) (next : Nat) : Node Binding → Emit (List Instruction)
  | .inlined _ temps body => do
    let clear ← clearTemps temps
    let code ← statements u next body
    return clear ++ (if body.isEmpty then [.loadNil] else code)
  | _ => Action.fail .inlinedNotBlock
termination_by structural n => n

end

end Emit

def ResolvedMethod.compile (m : ResolvedMethod) : Except (Stop CompileError) CodeTemplate := do
  match CodeUnit.create m.scopes 0 m.selector with
  | .error e => .error (.failure e)
  | .ok u =>
    match Emit.statements u u.firstTemp m.body { high := u.firstTemp } with
    | .error e _ => .error e
    | .ok code pool =>
      let code := u.prologue ++ code ++ (if m.endsWithReturn then [] else [.returnSelf])
      .ok (u.template code pool)

def Method.compile (m : Method) (instanceVariables : List String) :
    Except (Stop CompileError) CodeTemplate :=
  match m.resolve instanceVariables with
  | .error e => .error (.failure e)
  | .ok m => m.compile

end ObjectMachine
