import ObjectMachine.Image.Kernel
import ObjectMachine.Proofs.Code.Comparing
import ObjectMachine.Proofs.Machine.Activations
import ObjectMachine.Proofs.Scheduling.Script

namespace ObjectMachine

theorem Value.address?_wrapInt (n : Int) : (Value.wrapInt n).address? = none := by
  have := isInteger_wrapInt n
  simp only [isInteger, beq_iff_eq] at this
  simp [address?, isReference, this]

namespace Counting

def loop : Method where
  selector := "to:do:"
  params := ["stop", "body"]
  temps := ["i"]
  body := Kernel.counting .self (.variable "stop")
    (.binary (.variable "body") "value:" (.variable "i"))

def value : Method := Kernel.wrapper "value:" ["a"] "blockInvoke"

theorem loop_mem : loop ∈ Kernel.integerMethods := by simp [Kernel.integerMethods, loop]

theorem value_mem : value ∈ Kernel.blockMethods := by simp [Kernel.blockMethods, value]

def loopCode : List Instruction := [
  .loadRegister 0, .storeRegister 3,
  .loadRegister 3, .storeRegister 4, .loadRegister 1, .binaryOp 4 .lessEqual, .branchIfFalse 28,
  .loadRegister 2, .storeRegister 4, .loadRegister 3, .storeRegister 5, .loadRegister 4,
  .send 0 ⟨[5], by decide⟩,
  .loadRegister 3, .storeRegister 4, .loadLiteral 1, .binaryOp 4 .add, .storeRegister 3,
  .jump (-40), .loadNil, .returnSelf]

def valueCode : List Instruction := [
  .loadRegister 0, .storeRegister 2, .loadRegister 1, .storeRegister 3, .primitiveV 29 2 2,
  .return_]

def loopTemplate : CodeTemplate where
  selector := "to:do:"
  bytecode := (encodeAll loopCode).toArray
  literals := [.symbol "value:", .integer 1]
  args := 2
  temps := 1
  heapVars := 0
  stack := 2

def valueTemplate : CodeTemplate where
  selector := "value:"
  bytecode := (encodeAll valueCode).toArray
  literals := []
  args := 1
  temps := 0
  heapVars := 0
  stack := 2

theorem loop_compile : loop.compile KernelClass.smallInteger.vars = .ok loopTemplate :=
  compile_of_agrees (by decide +kernel)

theorem value_compile : value.compile KernelClass.block.vars = .ok valueTemplate :=
  compile_of_agrees (by decide +kernel)

section Windows

/-- The loop with its constants, in a memory with some true and false. -/
def loopRoutine (name yes no : Value) : Routine :=
  ⟨loopCode, [name, .wrapInt 1], 6, ⟨.nil, yes, no⟩⟩

def valueRoutine (yes no : Value) : Routine := ⟨valueCode, [], 4, ⟨.nil, yes, no⟩⟩

variable {name yes no a b block s u : Value} {i last : Int}

theorem at_of_index {r : Routine} {k pc : Nat} {j : Instruction} (hj : r.code[k]? = some j)
    (hpc : pc = codeLength (r.code.take k)) : r.At pc [j] := by
  obtain ⟨hk, rfl⟩ := List.getElem?_eq_some_iff.mp hj
  refine ⟨r.code.take k, r.code.drop (k + 1), ?_, hpc⟩
  rw [List.append_assoc, List.singleton_append, ← List.drop_eq_getElem_cons,
    List.take_append_drop]

theorem turn_at {r : Routine} {w w' : Window} (k : Nat) {j : Instruction}
    (hj : r.code[k]? = some j) (hpc : w.pc = codeLength (r.code.take k))
    (hexecute : { w with pc := w.pc + j.length }.execute r j = some w') : r.Path w w' :=
  (at_of_index hj hpc).turn hexecute

theorem start_path : (loopRoutine name yes no).Path ⟨0, s, [a, b, block, .nil, .nil, .nil]⟩
    ⟨4, a, [a, b, block, a, .nil, .nil]⟩ :=
  (turn_at 0 rfl rfl rfl).trans (turn_at 1 rfl rfl rfl)

theorem execute_operator {r : Routine} {w : Window} {reg : UInt8} {op : BinaryOp} {left v : Value}
    (hleft : w.registers[reg.toNat]? = some left)
    (hv : op.apply r.setting left w.accumulator = some v) :
    w.execute r (.binaryOp reg op) = some { w with accumulator := v } := by
  simp [Window.execute, hleft, hv]

theorem apply_lessEqual {c : Setting} (hi : Value.Fits i) (hlast : Value.Fits last) :
    BinaryOp.lessEqual.apply c (.wrapInt i) (.wrapInt last) = some (c.boolean (i ≤ last)) := by
  simp [BinaryOp.apply, Value.toInt?_wrapInt hi, Value.toInt?_wrapInt hlast, BinaryOp.onIntegers]

theorem apply_add {c : Setting} (hi : Value.Fits i) :
    BinaryOp.add.apply c (.wrapInt i) (.wrapInt 1) = Value.ofInt? (i + 1) := by
  simp [BinaryOp.apply, Value.toInt?_wrapInt hi, Value.toInt?_wrapInt (n := 1) (by decide),
    BinaryOp.onIntegers]

theorem compare_path (hi : Value.Fits i) (hlast : Value.Fits last) :
    (loopRoutine name yes no).Path ⟨4, b, [a, .wrapInt last, block, .wrapInt i, s, u]⟩
      ⟨13, if i ≤ last then yes else no, [a, .wrapInt last, block, .wrapInt i, .wrapInt i, u]⟩ := by
  refine (turn_at 2 rfl rfl rfl).trans <| (turn_at 3 rfl rfl rfl).trans <|
    (turn_at 4 rfl rfl rfl).trans <| turn_at 5 rfl rfl ?_
  refine (execute_operator rfl (apply_lessEqual hi hlast)).trans ?_
  simp only [Setting.boolean, loopRoutine, decide_eq_true_eq]
  rfl

/-- As long as the counter has not passed the last number, the block is about to be invoked. -/
theorem enter_path (hi : Value.Fits i) (hlast : Value.Fits last) (h : i ≤ last)
    (hyes : yes ≠ .nil) (hapart : yes ≠ no) :
    (loopRoutine name yes no).Path ⟨4, b, [a, .wrapInt last, block, .wrapInt i, s, u]⟩
      ⟨26, block, [a, .wrapInt last, block, .wrapInt i, block, .wrapInt i]⟩ := by
  have hbranch : (loopRoutine name yes no).Path
      ⟨13, if i ≤ last then yes else no, [a, .wrapInt last, block, .wrapInt i, .wrapInt i, u]⟩
      ⟨16, yes, [a, .wrapInt last, block, .wrapInt i, .wrapInt i, u]⟩ := by
    refine turn_at 6 rfl rfl ?_
    have htruthy : (Setting.mk .nil yes no).truthy yes = true := by
      simp [Setting.truthy, hyes, hapart]
    rw [if_pos h, Window.execute]
    simp only [loopRoutine, htruthy, if_true]
    rfl
  exact (compare_path hi hlast).trans <| hbranch.trans <| (turn_at 7 rfl rfl rfl).trans <|
    (turn_at 8 rfl rfl rfl).trans <| (turn_at 9 rfl rfl rfl).trans <|
    (turn_at 10 rfl rfl rfl).trans (turn_at 11 rfl rfl rfl)

/-- Once the counter has passed the last number, the loop is about to answer its receiver. -/
theorem leave_path (hi : Value.Fits i) (hlast : Value.Fits last) (h : last < i) :
    (loopRoutine name yes no).Path ⟨4, b, [a, .wrapInt last, block, .wrapInt i, s, u]⟩
      ⟨45, .nil, [a, .wrapInt last, block, .wrapInt i, .wrapInt i, u]⟩ := by
  have hbranch : (loopRoutine name yes no).Path
      ⟨13, if i ≤ last then yes else no, [a, .wrapInt last, block, .wrapInt i, .wrapInt i, u]⟩
      ⟨44, no, [a, .wrapInt last, block, .wrapInt i, .wrapInt i, u]⟩ := by
    refine turn_at 6 rfl rfl ?_
    have htruthy : (Setting.mk .nil yes no).truthy no = false := by simp [Setting.truthy]
    rw [if_neg (Int.not_le.mpr h), Window.execute]
    simp only [loopRoutine, htruthy, Bool.false_eq_true, if_false]
    rfl
  exact (compare_path hi hlast).trans <| hbranch.trans (turn_at 19 rfl rfl rfl)

theorem increase_path : (loopRoutine name yes no).Path
    ⟨30, b, [a, .wrapInt last, block, .wrapInt i, s, u]⟩
    ⟨36, .wrapInt 1, [a, .wrapInt last, block, .wrapInt i, .wrapInt i, u]⟩ :=
  (turn_at 13 rfl rfl rfl).trans <| (turn_at 14 rfl rfl rfl).trans (turn_at 15 rfl rfl rfl)

/-- The counter goes up by one, if there is a next number. -/
theorem next_path (hi : Value.Fits i) (hnext : i < Value.maxInteger) :
    (loopRoutine name yes no).Path ⟨30, b, [a, .wrapInt last, block, .wrapInt i, s, u]⟩
      ⟨4, .wrapInt (i + 1), [a, .wrapInt last, block, .wrapInt (i + 1), .wrapInt i, u]⟩ := by
  have hfits : Value.Fits (i + 1) := ⟨by have := hi.1; omega, by omega⟩
  have hadd : (loopRoutine name yes no).Path
      ⟨36, .wrapInt 1, [a, .wrapInt last, block, .wrapInt i, .wrapInt i, u]⟩
      ⟨39, .wrapInt (i + 1), [a, .wrapInt last, block, .wrapInt i, .wrapInt i, u]⟩ := by
    refine turn_at 16 rfl rfl (execute_operator rfl ?_)
    exact (apply_add hi).trans (if_pos hfits)
  exact increase_path.trans <| hadd.trans <| (turn_at 17 rfl rfl rfl).trans (turn_at 18 rfl rfl rfl)

/-- A block is about to be invoked with its argument. -/
theorem value_path : (valueRoutine yes no).Path ⟨0, b, [block, a, .nil, .nil]⟩
    ⟨8, a, [block, a, block, a]⟩ :=
  (turn_at 0 rfl rfl rfl).trans <| (turn_at 1 rfl rfl rfl).trans <|
    (turn_at 2 rfl rfl rfl).trans (turn_at 3 rfl rfl rfl)

end Windows

section Frames

variable {written : Cell → Prop} {t : Track} {h h' : Heap} {i i' : Image} {s s' : Suspension}
  {name name' block : Value} {first last n : Int}

/-- What the loop needs of an image, besides itself. -/
structure Supports (i : Image) (name : Value) : Prop where
  sane : i.heap.arenas.Sane name
  value : i.Provides .block name valueTemplate []
  yes : i.trueObject ≠ .nil
  no : i.falseObject ≠ .nil
  apart : i.trueObject ≠ i.falseObject

theorem ne_nil_of_track (hr : h.Retains written t h') {v x : Value} (hx : t v x) (hv : v ≠ .nil) :
    x ≠ .nil := by
  rintro rfl
  have hnil := hr.isNil hx
  exact hv (Value.eq_nil_of_isNil (hnil ▸ rfl))

theorem Supports.known (hs : Supports i name) (hr : i.Retains written t i') (hname : t name name')
    (hvalue : i'.Provides .block name' valueTemplate []) : Supports i' name' where
  sane := (hr.heap.sane hname).2
  value := hvalue
  yes := ne_nil_of_track hr.heap (hr.known .trueObject) hs.yes
  no := ne_nil_of_track hr.heap (hr.known .falseObject) hs.no
  apart heq := by
    have hno := hr.known .falseObject
    rw [show i'.get .falseObject = i'.get .trueObject from heq.symm] at hno
    exact hs.apart (hr.heap.injective (hr.known .trueObject) hno)

theorem Supports.moved (hs : Supports i name) (hr : i.Retains i.Transient t i')
    (whole : i.heap.Whole) (hname : t name name') : Supports i' name' := by
  obtain ⟨_, hnil, hvalue⟩ := hr.provides whole hname (Nat.zero_le _) hs.value
  cases hnil
  exact hs.known hr hname hvalue

theorem Supports.still (hs : Supports i name) (hr : i.Retains i.Transient (.still i.heap) i')
    (whole : i.heap.Whole) : Supports i' name := hs.moved hr whole ⟨rfl, hs.sane⟩

structure InLoop (s : Suspension) (name block : Value) (first last n : Int) : Prop where
  code : s.code = loopTemplate.bytecode
  constants : s.constants = [name, .wrapInt 1]
  pc : s.pc = 30
  registers : s.registers =
    [.wrapInt first, .wrapInt last, block, .wrapInt n, block, .wrapInt n]

theorem eq_wrapInt (hr : h.Retains written t h') {x : Value} (hx : t (.wrapInt n) x) :
    x = .wrapInt n := hr.eq_of_plain hx (Value.address?_wrapInt n)

theorem InLoop.moved (hs : InLoop s name block first last n) (hr : h.Retains written t h')
    (hm : s.Moves t s') : ∃ name' block', t name name' ∧ t block block' ∧
      InLoop s' name' block' first last n := by
  have hconstants := hm.constants
  have hregisters := hm.registers
  rw [hs.constants] at hconstants
  rw [hs.registers] at hregisters
  simp only [List.forall₂_cons_left_iff, List.forall₂_nil_left_iff] at hconstants hregisters
  obtain ⟨name', _, hname, ⟨one, _, hone, rfl, rfl⟩, hconstants⟩ := hconstants
  obtain ⟨a, _, ha, ⟨b, _, hb, ⟨block', _, hblock, ⟨c, _, hc, ⟨block'', _, hblock', ⟨d, _, hd, rfl,
    rfl⟩, rfl⟩, rfl⟩, rfl⟩, rfl⟩, hregisters⟩ := hregisters
  obtain rfl := eq_wrapInt hr hone
  obtain rfl := eq_wrapInt hr ha
  obtain rfl := eq_wrapInt hr hb
  obtain rfl := eq_wrapInt hr hc
  obtain rfl := eq_wrapInt hr hd
  obtain rfl := hr.unique hblock hblock'
  exact ⟨name', block', hname, hblock, hm.code.trans hs.code, hconstants, hm.pc.trans hs.pc,
    hregisters⟩

end Frames

end Counting

namespace Machine

variable {m m' e : Machine} {t t' : Track} {block block' : Value} {v : Option Value} {n : Int}
  {ns : List Int} {caller caller' : Suspension}

structure Invokes (m : Machine) (block : Value) (n : Int) (t : Track) (e : Machine) : Prop where
  turns : ∃ m₁ i, m.Quietly m₁ ∧ InvokesBlock i ∧ m₁.TakesTurn i e
  retains : m.image.Retains m.image.Transient t e.image
  start : e.pc = 0
  block : ∃ block', t block block' ∧ e.image.heap.Holds ⟨e.context, Slot.Context.method⟩ block'
  argument : e.image.heap.Holds ⟨e.context, Slot.Context.registers + 1⟩ (.wrapInt n)

/-- A machine that invokes a block with some numbers one after the other. Then, with no other block
invoked, it is back in an activation that waits, with an answer; nothing is said of that if there is
none. It may run out of room before each of these; and it invokes the block anew whenever it comes
back from there, by whatever way. -/
def Counts (v : Option Value) : List Int → Machine → Value → Suspension → Prop
  | [], m, _, caller => ∀ a ∈ v, m.Exhausts ∨ ∃ t m' caller', m.Reaches t m' ∧
      caller.Moves t caller' ∧
      m'.Stands caller'.code caller'.constants ⟨caller'.pc, a, caller'.registers⟩ []
  | n :: ns, m, block, caller => m.Exhausts ∨ ∃ t e block' caller', m.Invokes block n t e ∧
      t block block' ∧ caller.Moves t caller' ∧ ∀ t' m', e.ComesBack t' m' →
        ∃ block'' caller'', t' block' block'' ∧ caller'.Moves t' caller'' ∧
          Counts v ns m' block'' caller''

theorem Invokes.of_reaches (hr : m.Reaches t m') (hm : Intact m) (hblock : t block block')
    (h : m'.Invokes block' n t' e) : m.Invokes block n (t'.after t) e := by
  obtain ⟨m₁, i, hquietly, hi, hexecutes⟩ := h.turns
  obtain ⟨block'', hb, hmethod⟩ := h.block
  exact ⟨⟨m₁, i, hr.quietly.trans hquietly, hi, hexecutes⟩, hr.retains.trans hm.whole h.retains,
    h.start, ⟨block'', ⟨block', hblock, hb⟩, hmethod⟩, h.argument⟩

/-- Where nothing moves, the activations that wait stay where they are. -/
theorem Stands.moves_still {code : Array UInt8} {constants : List Value} {w : Window}
    {stack : List Suspension} (h : m.Stands code constants w stack) :
    List.Forall₂ (Suspension.Moves (.still m.image.heap)) stack stack := by
  have hi := h.works.ready.intact
  have hretains : m.image.Retains (fun _ => False) (.still m.image.heap) m.image :=
    .refl (intact_image hi)
  obtain ⟨stack', hmoves, -⟩ := hretains.awaits hi.whole (fun _ _ _ => id)
    ⟨rfl, h.works.ready.inContext.sane⟩ (fun _ _ _ => id) h.awaits
  obtain rfl := Suspension.eq_of_still hmoves
  exact hmoves

/-- It does not matter what goes before, if no block is invoked. -/
theorem Counts.of_reaches (hr : m.Reaches t m') (hm : Intact m) (hblock : t block block')
    (hcaller : caller.Moves t caller') (h : Counts v ns m' block' caller') :
    Counts v ns m block caller := by
  cases ns with
  | nil =>
    intro a ha
    rcases h a ha with hfull | ⟨t', m'', caller'', hreaches, hc, hend⟩
    · exact .inl (hr.exhausts hfull)
    · exact .inr ⟨_, m'', caller'', hr.trans hm hreaches, hcaller.trans hc, hend⟩
  | cons n ns =>
    rcases h with hfull | ⟨t', e, block'', caller'', hinvokes, hb, hc, hrest⟩
    · exact .inl (hr.exhausts hfull)
    · exact .inr ⟨_, e, block'', caller'', hinvokes.of_reaches hr hm hblock, ⟨block', hblock, hb⟩,
        hcaller.trans hc, hrest⟩

theorem Counts.of_exhausts (hfull : m.Exhausts) : Counts v ns m block caller := by
  cases ns with
  | nil => exact fun _ _ => .inl hfull
  | cons n ns => exact .inl hfull

end Machine

namespace Counting

open Machine

variable {m e m' : Machine} {tm : CodeTemplate} {first last n : Int}
  {name block s u accumulator : Value} {pc : Nat} {caller : Suspension} {t : Track}

structure Looping (m : Machine) (tm : CodeTemplate) (first last n : Int) (name block s u : Value)
    (pc : Nat) (accumulator : Value) (caller : Suspension) : Prop where
  stands : m.Stands loopTemplate.bytecode [name, .wrapInt 1] ⟨pc, accumulator,
    [.wrapInt first, .wrapInt last, block, .wrapInt n, s, u]⟩ [caller]
  supports : Supports m.image name
  closure : m.image.Closure block tm

structure Handing (m : Machine) (tm : CodeTemplate) (first last n : Int) (name block : Value)
    (pc : Nat) (registers : List Value) (caller : Suspension) : Prop where
  stands : ∃ accumulator l, m.Stands valueTemplate.bytecode [] ⟨pc, accumulator, registers⟩
    [l, caller] ∧ InLoop l name block first last n
  supports : Supports m.image name
  closure : m.image.Closure block tm

structure Busy (e : Machine) (tm : CodeTemplate) (first last n : Int) (name block : Value)
    (caller : Suspension) : Prop where
  stands : ∃ w v l, e.Stands tm.bytecode [] w [v, l, caller] ∧
    v.code = valueTemplate.bytecode ∧ v.pc = 12 ∧ InLoop l name block first last n
  supports : Supports e.image name
  closure : e.image.Closure block tm

theorem Supports.suits (hs : Supports m.image name) :
    m.Suits (loopRoutine name m.image.trueObject m.image.falseObject) [name, .wrapInt 1] :=
  ⟨rfl, rfl, rfl, hs.yes, hs.no⟩

theorem decodes (code : List Instruction) (k : Nat) {j : Instruction} (hj : code[k]? = some j) :
    Code.decodeAt (encodeAll code).toArray (codeLength (code.take k)) =
      .ok (j, codeLength (code.take k) + j.length) :=
  decodeAt_of_at (r := ⟨code, [], 0, ⟨.nil, .nil, .nil⟩⟩) (at_of_index hj rfl)

/-- What the loop goes through by itself. -/
theorem Looping.path {pc' : Nat} {accumulator' s' u' : Value} {n' : Int}
    (h : Looping m tm first last n name block s u pc accumulator caller)
    (hpath : (loopRoutine name m.image.trueObject m.image.falseObject).Path
      ⟨pc, accumulator, [.wrapInt first, .wrapInt last, block, .wrapInt n, s, u]⟩
      ⟨pc', accumulator', [.wrapInt first, .wrapInt last, block, .wrapInt n', s', u']⟩)
    (hpc : pc' ≤ codeLength loopCode) :
    ∃ m', m.Reaches (.still m.image.heap) m' ∧
      Looping m' tm first last n' name block s' u' pc' accumulator' caller := by
  have hready := h.stands.works.ready
  obtain ⟨m', hreaches, -, hstands⟩ := h.stands.path (r := loopRoutine name m.image.trueObject
    m.image.falseObject) h.supports.suits
    (show codeLength loopCode < _ by decide) hpath hpc
  exact ⟨m', hreaches, hstands, h.supports.still hreaches.retains hready.intact.whole,
    hreaches.retains.closure hready.intact.whole hready.kinds ⟨rfl, h.closure.block.sane⟩ h.closure⟩

theorem Looping.hands
    (h : Looping m tm first last n name block block (.wrapInt n) 26 block caller) :
    m.Exhausts ∨ ∃ t m' name' block' caller', m.Reaches t m' ∧ t block block' ∧
      caller.Moves t caller' ∧ Handing m' tm first last n name' block' 0
        [block', .wrapInt n, .nil, .nil] caller' := by
  have hready := h.stands.works.ready
  have whole := hready.intact.whole
  have hname := h.stands.works.literals.get (k := 0) rfl
  have hdecode : Code.decodeAt loopTemplate.bytecode 26 = .ok (.send 0 ⟨[5], by decide⟩, 30) :=
    decodes loopCode 12 rfl
  have hargs : Picks [.wrapInt first, .wrapInt last, block, .wrapInt n, block, .wrapInt n] [5]
      [.wrapInt n] := .cons rfl .nil
  rcases h.stands.sends hdecode (by decide) hname (.inr (by decide)) hargs
    h.closure.block.classOf h.supports.value (Nat.zero_le _) (by decide) rfl with
    hfull | ⟨t, m', stack', hreaches, hmoves, constants', values', receiver, accumulator,
      hconstants, hvalues, hreceiver, hstands⟩
  · exact .inl hfull
  cases hconstants
  obtain ⟨_, _, hn, hnil, rfl⟩ := List.forall₂_cons_left_iff.mp hvalues
  cases hnil
  obtain rfl := eq_wrapInt hreaches.retains.heap hn
  obtain ⟨l, _, hl, hrest, rfl⟩ := List.forall₂_cons_left_iff.mp hmoves
  obtain ⟨caller', _, hcaller, hnil, rfl⟩ := List.forall₂_cons_left_iff.mp hrest
  cases hnil
  have hnext : 30 < 0x1000000000000000 := by decide
  have hinLoop : InLoop (h.stands.fetched hnext).here name block first last n :=
    ⟨rfl, rfl, rfl, rfl⟩
  obtain ⟨name', block', hnn, hbb, hinLoop'⟩ := hinLoop.moved hreaches.retains.heap hl
  obtain rfl := hreaches.retains.heap.unique hreceiver hbb
  exact .inr ⟨t, m', name', receiver, caller', hreaches, hreceiver, hcaller,
    ⟨accumulator, l, hstands, hinLoop'⟩, h.supports.moved hreaches.retains whole hnn,
    hreaches.retains.closure whole hready.kinds hreceiver h.closure⟩

theorem Handing.intact {registers : List Value}
    (h : Handing m tm first last n name block pc registers caller) : Intact m := by
  obtain ⟨_, _, hstands, -⟩ := h.stands
  exact hstands.works.ready.intact

theorem Handing.still {registers : List Value}
    (h : Handing m tm first last n name block pc registers caller) :
    Track.still m.image.heap block block ∧ caller.Moves (.still m.image.heap) caller := by
  obtain ⟨_, _, hstands, -⟩ := h.stands
  obtain ⟨-, hrest⟩ := List.forall₂_cons.mp hstands.moves_still
  exact ⟨⟨rfl, h.closure.block.sane⟩, (List.forall₂_cons.mp hrest).1⟩

/-- The method of blocks gets their argument ready. -/
theorem Handing.path (h : Handing m tm first last n name block 0
      [block, .wrapInt n, .nil, .nil] caller) :
    ∃ m', m.Reaches (.still m.image.heap) m' ∧
      Handing m' tm first last n name block 8 [block, .wrapInt n, block, .wrapInt n] caller := by
  obtain ⟨accumulator, l, hstands, hinLoop⟩ := h.stands
  have hready := hstands.works.ready
  have whole := hready.intact.whole
  obtain ⟨m', hreaches, -, hstands'⟩ := hstands.path
    (r := valueRoutine m.image.trueObject m.image.falseObject)
    ⟨rfl, rfl, rfl, h.supports.yes, h.supports.no⟩ (show codeLength valueCode < _ by decide)
    value_path (show 8 ≤ codeLength valueCode by decide)
  exact ⟨m', hreaches, ⟨_, l, hstands', hinLoop⟩, h.supports.still hreaches.retains whole,
    hreaches.retains.closure whole hready.kinds ⟨rfl, h.closure.block.sane⟩ h.closure⟩

theorem Handing.invokes (h : Handing m tm first last n name block 8
      [block, .wrapInt n, block, .wrapInt n] caller) (hargs : tm.args = 1)
    (hsmall : tm.args + tm.temps + tm.heapVars + tm.stack < 0x10000000) :
    m.Exhausts ∨ ∃ t e name' block' caller', m.Invokes block n t e ∧ t block block' ∧
      caller.Moves t caller' ∧ Busy e tm first last n name' block' caller' := by
  obtain ⟨accumulator, l, hstands, hinLoop⟩ := h.stands
  have hready := hstands.works.ready
  have whole := hready.intact.whole
  have hdecode : Code.decodeAt valueTemplate.bytecode 8 = .ok (.primitiveV 29 2 2, 12) :=
    decodes valueCode 4 rfl
  have hpicks : Picks [block, .wrapInt n, block, .wrapInt n] (registerRun 2 2)
      [block, .wrapInt n] := .cons rfl (.cons rfl .nil)
  rcases hstands.invokes hdecode (by decide) (by decide) hpicks h.closure hsmall hargs.symm with
    hfull | ⟨t, e, stack', hturn, hretains, hmoves, ⟨block', hbb, hblock⟩, values', receiver,
      accumulator', hvalues, hstands'⟩
  · exact .inl hfull
  obtain ⟨_, _, hn, hnil, rfl⟩ := List.forall₂_cons_left_iff.mp hvalues
  cases hnil
  obtain rfl := eq_wrapInt hretains.heap hn
  obtain ⟨v, _, hv, hcallers, rfl⟩ := List.forall₂_cons_left_iff.mp hmoves
  obtain ⟨l', _, hl, hrest, rfl⟩ := List.forall₂_cons_left_iff.mp hcallers
  obtain ⟨caller', _, hcaller, hnil, rfl⟩ := List.forall₂_cons_left_iff.mp hrest
  cases hnil
  obtain ⟨name', block'', hnn, hbb', hinLoop'⟩ := hinLoop.moved hretains.heap hl
  obtain rfl := hretains.heap.unique hbb hbb'
  obtain ⟨i, hi, htakes⟩ := hturn
  refine .inr ⟨t, e, name', block', caller', ⟨⟨m, i, .refl, hi, htakes⟩, hretains,
    hstands'.works.pc, ⟨block', hbb, hblock⟩, hstands'.works.registers.get (k := 1) rfl⟩, hbb,
    hcaller, ⟨_, v, l', hstands', hv.code, hv.pc, hinLoop'⟩,
    h.supports.moved hretains whole hnn, hretains.closure whole hready.kinds hbb h.closure⟩

/-- Whenever it is back from the block, the loop goes on. -/
theorem Busy.resumes (h : Busy e tm first last n name block caller) (hback : e.ComesBack t m') :
    ∃ name' block' caller', t block block' ∧ caller.Moves t caller' ∧
      ∀ {v : Option Value} {ns : List Int},
      (∀ m'' accumulator, Looping m'' tm first last n name' block' block' (.wrapInt n) 30
        accumulator caller' → Counts v ns m'' block' caller') → Counts v ns m' block' caller' := by
  obtain ⟨w, v, l, hstands, hcode, hpc, hinLoop⟩ := h.stands
  obtain ⟨v', stack', hv, hmoves, hstands'⟩ := hstands.resumed hback
  obtain ⟨l', _, hl, hrest, rfl⟩ := List.forall₂_cons_left_iff.mp hmoves
  obtain ⟨caller', _, hcaller, hnil, rfl⟩ := List.forall₂_cons_left_iff.mp hrest
  cases hnil
  obtain ⟨name', block', hnn, hbb, hinLoop'⟩ := hinLoop.moved hback.retains.heap hl
  refine ⟨name', block', caller', hbb, hcaller, fun hcounts => ?_⟩
  have hdecode : Code.decodeAt v'.code v'.pc = .ok (.return_, 13) := by
    rw [hv.code, hv.pc, hcode, hpc]
    exact decodes valueCode 5 rfl
  obtain ⟨m'', hreaches, -, hlast⟩ := hstands'.returns hdecode (by decide) (.inl ⟨rfl, rfl⟩)
  obtain ⟨_, hnil, hvalue⟩ := hback.understands hnn (show [].length ≤ 3 by decide)
    h.supports.value
  cases hnil
  have whole := hback.ready.intact.whole
  have hclosure := hback.closures hbb h.closure
  have hblock : Track.still m'.image.heap block' block' := ⟨rfl, hclosure.block.sane⟩
  obtain ⟨-, hrest⟩ := List.forall₂_cons.mp hstands'.moves_still
  refine (hcounts m'' m'.accumulator ⟨?_, ?_, ?_⟩).of_reaches hreaches hback.ready.intact hblock
    (List.forall₂_cons.mp hrest).1
  · rw [hinLoop'.code, hinLoop'.constants, hinLoop'.pc, hinLoop'.registers] at hlast
    exact hlast
  · exact (h.supports.known hback.retains hnn hvalue).still hreaches.retains whole
  · exact hreaches.retains.closure whole hback.ready.kinds hblock hclosure

def numbers (n last : Int) : List Int :=
  (List.range (last + 1 - n).toNat).map fun k : Nat => n + (k : Int)

theorem numbers_of_lt (h : last < n) : numbers n last = [] := by
  rw [numbers, show (last + 1 - n).toNat = 0 by omega]
  rfl

theorem numbers_of_le (h : n ≤ last) : numbers n last = n :: numbers (n + 1) last := by
  have hcount : (last + 1 - n).toNat = (last + 1 - (n + 1)).toNat + 1 := by omega
  rw [numbers, hcount, List.range_succ_eq_map, List.map_cons, List.map_map, numbers]
  simp only [Nat.cast_zero, Int.add_zero, List.cons.injEq, true_and]
  refine List.map_congr_left fun k _ => ?_
  simp only [Function.comp_apply, Nat.cast_succ]
  omega

theorem Looping.intact (h : Looping m tm first last n name block s u pc accumulator caller) :
    Intact m := h.stands.works.ready.intact

/-- What does not move stays for the caller, too. -/
theorem Looping.still (h : Looping m tm first last n name block s u pc accumulator caller) :
    Track.still m.image.heap block block ∧ caller.Moves (.still m.image.heap) caller := by
  obtain ⟨hcaller, -⟩ := List.forall₂_cons.mp h.stands.moves_still
  exact ⟨⟨rfl, h.closure.block.sane⟩, hcaller⟩

/-- What the loop does by itself does not matter for what it counts. -/
theorem Looping.counts_of_path {v : Option Value} {s' u' accumulator' : Value} {n' : Int}
    {pc' : Nat} {ns : List Int} (h : Looping m tm first last n name block s u pc accumulator caller)
    (hpath : (loopRoutine name m.image.trueObject m.image.falseObject).Path
      ⟨pc, accumulator, [.wrapInt first, .wrapInt last, block, .wrapInt n, s, u]⟩
      ⟨pc', accumulator', [.wrapInt first, .wrapInt last, block, .wrapInt n', s', u']⟩)
    (hpc : pc' ≤ codeLength loopCode)
    (hcounts : ∀ m', Looping m' tm first last n' name block s' u' pc' accumulator' caller →
      Counts v ns m' block caller) : Counts v ns m block caller := by
  obtain ⟨m', hreaches, h'⟩ := h.path hpath hpc
  exact (hcounts m' h').of_reaches hreaches h.intact h.still.1 h.still.2

/-- A counter that has passed the last number makes the loop answer. -/
theorem Looping.leaves (h : Looping m tm first last n name block s u 4 accumulator caller)
    (hn : Value.Fits n) (hlast : Value.Fits last) (hlt : last < n) :
    Counts (some (.wrapInt first)) [] m block caller := by
  refine h.counts_of_path (leave_path hn hlast hlt) (show 45 ≤ codeLength loopCode by decide)
    fun m₁ h₁ => ?_
  have hdecode : Code.decodeAt loopTemplate.bytecode 45 = .ok (.returnSelf, 46) :=
    decodes loopCode 20 rfl
  obtain ⟨m₂, hreaches, -, hback⟩ := h₁.stands.returns hdecode (by decide) (.inr ⟨rfl, rfl⟩)
  rintro _ ⟨⟩
  exact .inr ⟨_, m₂, caller, hreaches, h₁.still.2, hback⟩

/-- One turn of the loop: the block is invoked with the counter, and after that the loop is about
to increase the counter. -/
theorem Looping.counts_next {v : Option Value} {ns : List Int}
    (h : Looping m tm first last n name block s u 4 accumulator caller) (hargs : tm.args = 1)
    (hsmall : tm.args + tm.temps + tm.heapVars + tm.stack < 0x10000000) (hn : Value.Fits n)
    (hlast : Value.Fits last) (hle : n ≤ last)
    (hcounts : ∀ {m' name' block' s' u' accumulator' caller'},
      Looping m' tm first last n name' block' s' u' 30 accumulator' caller' →
      Counts v ns m' block' caller') : Counts v (n :: ns) m block caller := by
  refine h.counts_of_path (enter_path hn hlast hle h.supports.yes h.supports.apart)
    (show 26 ≤ codeLength loopCode by decide) fun m₁ h₁ => ?_
  rcases h₁.hands with hfull | ⟨t, m₂, name₂, block₂, caller₂, hreaches, hbb, hcc, h₂⟩
  · exact .inl hfull
  refine Counts.of_reaches hreaches h₁.intact hbb hcc ?_
  obtain ⟨m₃, hreaches', h₃⟩ := h₂.path
  refine Counts.of_reaches hreaches' h₂.intact h₂.still.1 h₂.still.2 ?_
  rcases h₃.invokes hargs hsmall with
    hfull | ⟨t', e, name₄, block₄, caller₄, hinvokes, hbb, hcc, h₄⟩
  · exact .inl hfull
  refine .inr ⟨t', e, block₄, caller₄, hinvokes, hbb, hcc, fun t'' m' hback => ?_⟩
  obtain ⟨name₅, block₅, caller₅, hbb, hcc, hresumes⟩ := h₄.resumes hback
  exact ⟨block₅, caller₅, hbb, hcc, hresumes fun m₅ _ h₅ => hcounts h₅⟩

/-- The answer of the loop. There is none if the counter would have to pass the largest integer. -/
def answer (first last n : Int) : Option Value :=
  if last < Value.maxInteger ∨ last < n then some (.wrapInt first) else none

theorem Looping.counts (h : Looping m tm first last n name block s u 4 accumulator caller)
    (hargs : tm.args = 1) (hsmall : tm.args + tm.temps + tm.heapVars + tm.stack < 0x10000000)
    (hn : Value.Fits n) (hlast : Value.Fits last) :
    Counts (answer first last n) (numbers n last) m block caller := by
  induction hcount : (last + 1 - n).toNat generalizing m n name block s u accumulator caller with
  | zero =>
    have hlt : last < n := by omega
    rw [numbers_of_lt hlt, answer, if_pos (.inr hlt)]
    exact h.leaves hn hlast hlt
  | succ count ih =>
    have hle : n ≤ last := by omega
    rw [numbers_of_le hle]
    refine h.counts_next hargs hsmall hn hlast hle fun h' => ?_
    by_cases hmax : n < Value.maxInteger
    · have hnext : Value.Fits (n + 1) := ⟨by have := hn.1; omega, by omega⟩
      have hanswer : answer first last n = answer first last (n + 1) := by
        have := hlast.2
        simp only [answer]
        congr 1
        exact propext ⟨by omega, by omega⟩
      rw [hanswer]
      exact h'.counts_of_path (next_path hn hmax) (show 4 ≤ codeLength loopCode by decide)
        fun m'' h'' => ih h'' hnext (by omega)
    · -- The last number is the largest integer, and nothing is said of what comes then.
      have := hn.2
      have := hlast.2
      rw [numbers_of_lt (by omega), answer, if_neg (by omega)]
      exact nofun

/-- A machine that is about to send a message with an integer and a block to an integer, in an image
where integers and blocks understand it as in the kernel. -/
structure Asks (m : Machine) (code : Array UInt8) (constants : List Value) (w : Window)
    (next : Nat) (first last : Int) (block : Value) : Prop where
  stands : m.Stands code constants w []
  next_lt : next < 0x1000000000000000
  receiver : w.accumulator = .wrapInt first
  send : ∃ selector regs, Code.decodeAt code w.pc = .ok (.send selector regs, next) ∧
    Picks w.registers regs.regs [.wrapInt last, block] ∧ ∃ name helper,
      m.image.heap.Holds ⟨m.literals, selector.toNat⟩ name ∧
      (m.image.Inert m.literals ∨ selector.toNat < 3) ∧
      m.image.Provides .smallInteger name loopTemplate [helper, .wrapInt 1] ∧
      Supports m.image helper

/-- An integer that is asked to count up to another invokes the block with itself, the next integer
and so on to the last, however often that is and whatever the block does before it comes back. Then
it answers itself, unless the last integer is the largest, where the counter cannot go on. -/
theorem Asks.counts_up {code : Array UInt8} {constants : List Value} {w : Window} {next : Nat}
    (h : Asks m code constants w next first last block) (hclosure : m.image.Closure block tm)
    (hargs : tm.args = 1) (hsmall : tm.args + tm.temps + tm.heapVars + tm.stack < 0x10000000)
    (hfirst : Value.Fits first) (hlast : Value.Fits last) :
    (loop ∈ Kernel.integerMethods ∧
      loop.compile KernelClass.smallInteger.vars = .ok loopTemplate ∧
      value ∈ Kernel.blockMethods ∧ value.compile KernelClass.block.vars = .ok valueTemplate) ∧
    ∃ caller : Suspension, (caller.context = m.context ∧ caller.code = code ∧
        caller.constants = constants ∧ caller.pc = next ∧ caller.registers = w.registers) ∧
      Counts (if last < Value.maxInteger ∨ last < first then some (.wrapInt first) else none)
        (numbers first last) m block caller := by
  refine ⟨⟨loop_mem, loop_compile, value_mem, value_compile⟩,
    (h.stands.fetched h.next_lt).here, ⟨rfl, rfl, rfl, rfl, rfl⟩, ?_⟩
  obtain ⟨selector, regs, hdecode, hpicks, name, helper, hname, hliterals, hloop, hsupports⟩ :=
    h.send
  have hready := h.stands.works.ready
  have whole := hready.intact.whole
  have hclass : m.image.classOf w.accumulator = .ok (m.image.kernelClass .smallInteger) := by
    rw [h.receiver, Image.classOf, if_pos (by simp)]
  rcases h.stands.sends hdecode h.next_lt hname hliterals hpicks hclass hloop
    (show 2 ≤ 3 by decide) (by decide) rfl with hfull | ⟨t, m', stack', hreaches, hmoves,
      constants', values', receiver, accumulator, hconstants, hvalues, hreceiver, hstands⟩
  · exact .of_exhausts hfull
  obtain ⟨helper', _, hhelper, hones, rfl⟩ := List.forall₂_cons_left_iff.mp hconstants
  obtain ⟨one, _, hone, hnil, rfl⟩ := List.forall₂_cons_left_iff.mp hones
  cases hnil
  obtain ⟨last', _, hlast', hblocks, rfl⟩ := List.forall₂_cons_left_iff.mp hvalues
  obtain ⟨block', _, hbb, hnil, rfl⟩ := List.forall₂_cons_left_iff.mp hblocks
  cases hnil
  obtain ⟨caller', _, hcaller, hnil, rfl⟩ := List.forall₂_cons_left_iff.mp hmoves
  cases hnil
  obtain rfl := eq_wrapInt hreaches.retains.heap hone
  obtain rfl := eq_wrapInt hreaches.retains.heap hlast'
  rw [h.receiver] at hreceiver
  obtain rfl := eq_wrapInt hreaches.retains.heap hreceiver
  have hsupports' := hsupports.moved hreaches.retains whole hhelper
  have hclosure' := hreaches.retains.closure whole hready.kinds hbb hclosure
  have hready' := hstands.works.ready
  refine Counts.of_reaches hreaches hready.intact hbb hcaller ?_
  obtain ⟨m₁, hreaches', -, hstands'⟩ := hstands.path
    (r := loopRoutine helper' m'.image.trueObject m'.image.falseObject) hsupports'.suits
    (show codeLength loopCode < _ by decide) start_path (show 4 ≤ codeLength loopCode by decide)
  have hblock : Track.still m'.image.heap block' block' := ⟨rfl, hclosure'.block.sane⟩
  refine Counts.of_reaches hreaches' hready'.intact hblock
    (List.forall₂_cons.mp hstands.moves_still).1 ?_
  exact Looping.counts ⟨hstands', hsupports'.still hreaches'.retains hready'.intact.whole,
    hreaches'.retains.closure hready'.intact.whole hready'.kinds hblock hclosure'⟩ hargs hsmall
    hfirst hlast

section Asking

open Image

def newRoutine (isa : Value) (count : Nat) (t : CodeTemplate) (constants : List Value) :
    ImageAction Value := do
  let bytes ← onHeap (Heap.allocateBytes .nil t.bytecode)
  let table ← onHeap (Heap.allocatePointers .nil constants.length)
  let v ← onHeap (Heap.allocatePointers isa count)
  fillSlots table 0 constants
  fillSlots v 0 [bytes, table, .ofNat t.args, .ofNat t.temps, .ofNat t.heapVars, .ofNat t.stack]
  return v

theorem trusted_wrapInt {known : List Value} (n : Int) : Trusted known (.wrapInt n) :=
  .inr (.inl (Value.isInteger_wrapInt n))

theorem newRoutine_stable {known : List Value} {isa : Value} (hisa : Trusted known isa)
    (count : Nat) (t : CodeTemplate) {constants : List Value}
    (hconstants : ∀ v ∈ constants, Trusted known v) :
    Stable known (newRoutine isa count t constants) := by
  refine .bind (onHeap_stable (Heap.allocateBytes_stable (by simp) _)) fun bytes => ?_
  refine .bind (onHeap_stable (Heap.allocatePointers_stable (by simp) _)) fun table => ?_
  refine .bind (onHeap_stable (Heap.allocatePointers_stable (by simp [hisa]) _)) fun v => ?_
  refine .bind (fillSlots_stable (by simp) _ fun x hx => by simp [hconstants x hx]) fun _ => ?_
  refine .bind (fillSlots_stable (by simp) _ (by simp)) fun _ => ?_
  exact .pure (by simp)

def briefly (code : List Instruction) (args : Nat) : CodeTemplate where
  selector := ""
  bytecode := (encodeAll code).toArray
  literals := []
  args
  temps := 0
  heapVars := 0
  stack := 0

def askingTemplate : CodeTemplate := briefly [.send 0 ⟨[1, 2], by decide⟩, .return_] 0

def idleTemplate : CodeTemplate := briefly [.return_] 1

def askingObjects : ImageAction Value := do
  let integers ← onHeap (Heap.allocatePointers .nil Slot.Class.count)
  let blocks ← onHeap (Heap.allocatePointers .nil Slot.Class.count)
  let counting ← onHeap (Heap.allocateBytes .nil (Text.toBytes "to:do:"))
  let evaluating ← onHeap (Heap.allocateBytes .nil (Text.toBytes "value:"))
  let ofIntegers ← onHeap (Heap.newDictionary .nil 1)
  let ofBlocks ← onHeap (Heap.newDictionary .nil 1)
  let loop ← newRoutine .nil Slot.Code.count loopTemplate [evaluating, .wrapInt 1]
  let value ← newRoutine .nil Slot.Code.count valueTemplate []
  let _ ← onHeap (Heap.dictionaryPut .nil ofIntegers counting loop)
  let _ ← onHeap (Heap.dictionaryPut .nil ofBlocks evaluating value)
  fillSlots integers Slot.Class.superclass [.nil, ofIntegers]
  fillSlots blocks Slot.Class.superclass [.nil, ofBlocks]
  let block ← newRoutine blocks Slot.Block.count idleTemplate []
  let asking ← newRoutine .nil Slot.Code.count askingTemplate [counting]
  let _ ← onHeap (Heap.allocatePointers (.ofNat KernelClass.process.index) Slot.Process.count)
  let context ← onHeap (Heap.allocatePointers (.ofNat KernelClass.context.index)
    (Slot.Context.registers + 3))
  fillSlots context Slot.Context.method [asking]
  fillSlots context Slot.Context.registers [.nil, .wrapInt 2, block]
  return context

theorem askingObjects_stable : Stable [] askingObjects := by
  refine .bind (onHeap_stable (Heap.allocatePointers_stable (by simp) _)) fun integers => ?_
  refine .bind (onHeap_stable (Heap.allocatePointers_stable (by simp) _)) fun blocks => ?_
  refine .bind (onHeap_stable (Heap.allocateBytes_stable (by simp) _)) fun counting => ?_
  refine .bind (onHeap_stable (Heap.allocateBytes_stable (by simp) _)) fun evaluating => ?_
  refine .bind (onHeap_stable (Heap.newDictionary_stable (by simp) _)) fun ofIntegers => ?_
  refine .bind (onHeap_stable (Heap.newDictionary_stable (by simp) _)) fun ofBlocks => ?_
  refine .bind (newRoutine_stable (by simp) _ _ (by simp [trusted_wrapInt])) fun loop => ?_
  refine .bind (newRoutine_stable (by simp) _ _ (by simp)) fun value => ?_
  refine .bind (onHeap_stable (Heap.dictionaryPut_stable (by simp) (by simp) (by simp)
    (by simp))) fun _ => ?_
  refine .bind (onHeap_stable (Heap.dictionaryPut_stable (by simp) (by simp) (by simp)
    (by simp))) fun _ => ?_
  refine .bind (fillSlots_stable (by simp) _ (by simp)) fun _ => ?_
  refine .bind (fillSlots_stable (by simp) _ (by simp)) fun _ => ?_
  refine .bind (newRoutine_stable (by simp) _ _ (by simp)) fun block => ?_
  refine .bind (newRoutine_stable (by simp) _ _ (by simp)) fun asking => ?_
  refine .bind (onHeap_stable (Heap.allocatePointers_stable (by simp) _)) fun _ => ?_
  refine .bind (onHeap_stable (Heap.allocatePointers_stable (by simp) _)) fun context => ?_
  refine .bind (fillSlots_stable (by simp) _ (by simp)) fun _ => ?_
  refine .bind (fillSlots_stable (by simp) _ (by simp [trusted_wrapInt])) fun _ => ?_
  exact .pure (by simp)

def slotted (word : Nat) : Value := .ofAddress ⟨.pointers, word⟩

def spelt (word : Nat) : Value := .ofAddress ⟨.leaf, word⟩

/-- The image with them, in which numbers stand for all other classes. -/
def asking : Image :=
  { (Machine.blankImage.furnished askingObjects).2 with
    symbols := {}
    known := (((List.range 19).map Value.ofNat).toArray.set! KernelClass.smallInteger.index
      (slotted 2)).set! KernelClass.block.index (slotted 9) }

def askingMachine : Machine where
  image := asking
  schedule := { current := slotted 88 }
  process := slotted 88
  context := slotted 96
  method := slotted 78
  literals := slotted 75
  code := askingTemplate.bytecode
  accumulator := .wrapInt 1

/-- What some slots hold, by the object and the first of them. -/
def askingRows : List (Value × Nat × List Value) := [
  (slotted 2, Slot.Class.methods, [slotted 16]), (slotted 9, Slot.Class.methods, [slotted 20]),
  (slotted 24, 0, [spelt 5, .wrapInt 1]),
  (slotted 28, 0, [spelt 8, slotted 24, .ofNat 2, .ofNat 1, .ofNat 0, .ofNat 2]),
  (slotted 40, 0, [spelt 16, slotted 38, .ofNat 1, .ofNat 0, .ofNat 0, .ofNat 2]),
  (slotted 62, 0, [spelt 20, slotted 60, .ofNat 1, .ofNat 0, .ofNat 0, .ofNat 0]),
  (slotted 62, Slot.Block.home, [.nil]), (slotted 75, 0, [spelt 2]),
  (slotted 78, 0, [spelt 23, slotted 75]), (slotted 88, Slot.Process.state, [.nil]),
  (slotted 96, Slot.Context.method, [slotted 78]),
  (slotted 96, Slot.Context.registers, [.nil, .wrapInt 2, slotted 62])]

def askingPlaces : List Value :=
  [spelt 2, spelt 5] ++ [2, 9, 24, 28, 40, 62, 75, 78, 88, 96].map slotted

def askingHeld : List Value :=
  .nil :: asking.known.toList ++ askingMachine.schedule.roots ++ [askingMachine.process,
    askingMachine.context, askingMachine.method, askingMachine.literals, askingMachine.accumulator]

theorem asking_evaluated :
    (∀ r ∈ askingRows, r.1 ∈ askingPlaces ∧ ∀ k (hk : k < r.2.2.length),
      asking.heap.slot r.1 (r.2.1 + k) = .ok r.2.2[k]) ∧
    ((∀ v ∈ askingPlaces, asking.heap.arenas.Sane v) ∧
      ∀ v ∈ askingHeld, v.isNil ∨ v.isInteger ∨ v ∈ askingPlaces) ∧
    (asking.heap.bytes (spelt 8) = .ok loopTemplate.bytecode ∧
      asking.heap.bytes (spelt 16) = .ok valueTemplate.bytecode ∧
      asking.heap.bytes (spelt 20) = .ok idleTemplate.bytecode ∧
      asking.heap.bytes (spelt 23) = .ok askingTemplate.bytecode) ∧
    (asking.heap.dictionaryAt (slotted 16) (spelt 2) = .ok (some (slotted 28)) ∧
      asking.heap.dictionaryAt (slotted 20) (spelt 5) = .ok (some (slotted 40))) ∧
    (∀ v ∈ [slotted 16, slotted 20, slotted 28, slotted 40], v.isNil = false ∧
      asking.classOf v = .ok .nil) ∧
    (asking.classOf (slotted 62) = .ok (asking.kernelClass .block) ∧
      asking.classOf (slotted 88) = .ok (asking.kernelClass .process) ∧
      asking.classOf (slotted 96) = .ok (asking.kernelClass .context)) ∧
    (asking.kernelClass .smallInteger = slotted 2 ∧ asking.kernelClass .block = slotted 9 ∧
      asking.kernelClass .context ≠ .nil ∧ asking.kernelClass .process ≠ .nil ∧
      asking.trueObject ≠ .nil ∧ asking.falseObject ≠ .nil ∧
      asking.trueObject ≠ asking.falseObject) ∧
    ∀ k ∈ KernelClass.all, ∀ k' ∈ KernelClass.all,
      asking.kernelClass k = asking.kernelClass k' → k = k' := by
  decide +kernel

theorem asking_row {v : Value} {base : Nat} {vs : List Value} (h : (v, base, vs) ∈ askingRows) :
    asking.heap.Row v base vs := by
  obtain ⟨hrows, ⟨hsane, -⟩, -⟩ := asking_evaluated
  obtain ⟨hplace, hslots⟩ := hrows (v, base, vs) h
  intro k y hy
  obtain ⟨hk, rfl⟩ := List.getElem?_eq_some_iff.mp hy
  exact ⟨hsane v hplace, hslots k hk⟩

theorem asking_holds {v x : Value} {k : Nat} (h : (v, k, [x]) ∈ askingRows) :
    asking.heap.Holds ⟨v, k⟩ x := (asking_row h).get (k := 0) rfl

theorem asking_intact : Intact askingMachine := by
  obtain ⟨hi, -⟩ := Image.furnished_intact Machine.blankImage_intact askingObjects_stable
  obtain ⟨-, ⟨hplaces, hheld⟩, -⟩ := asking_evaluated
  have hsane : ∀ v ∈ askingHeld, asking.heap.arenas.Sane v := by
    intro v hv
    obtain hnil | hint | hplace := hheld v hv
    · exact .inl hnil
    · exact .inr (.inl hint)
    · exact hplaces v hplace
  refine intact_of_registers ⟨hi.whole, fun v hv => ?_⟩ (fun v hv => hsane v ?_) nofun
  · rcases List.mem_append.mp hv with hv | hv
    · refine hsane v (List.mem_append_left _ (List.mem_append_left _ ?_))
      simpa [values, roots, askingMachine, asking, SymbolTable.roots] using hv
    · exact hsane v (List.mem_append_left _ (List.mem_append_right _ hv))
  · exact List.mem_append_right _ hv

theorem asking_inert {v : Value} (h : v ∈ [slotted 16, slotted 20, slotted 28, slotted 40]) :
    asking.Inert v := by
  obtain ⟨-, -, -, -, hnil, -, ⟨-, -, hcontext, hprocess, -⟩, -⟩ := asking_evaluated
  exact ⟨fun hi => hcontext (Except.ok.inj (hi.classOf.symm.trans (hnil v h).2)),
    fun hi => hprocess (Except.ok.inj (hi.classOf.symm.trans (hnil v h).2))⟩

theorem asking_embodies {v : Value} (bytes table : Nat) {tm : CodeTemplate}
    {constants : List Value} (hfields : asking.heap.Row v 0 [spelt bytes, slotted table,
      .ofNat tm.args, .ofNat tm.temps, .ofNat tm.heapVars, .ofNat tm.stack])
    (hbytes : asking.heap.Spells (spelt bytes) tm.bytecode)
    (htable : asking.heap.Row (slotted table) 0 constants) :
    asking.heap.Embodies v tm constants where
  bytecode := ⟨spelt bytes, hfields.get (k := 0) rfl, hbytes⟩
  literals := ⟨slotted table, hfields.get (k := 1) rfl, htable⟩
  args := hfields.get (k := 2) rfl
  temps := hfields.get (k := 3) rfl
  heapVars := hfields.get (k := 4) rfl
  stack := hfields.get (k := 5) rfl

theorem asking_provides {cls dictionary selector method : Value} {k : KernelClass}
    {tm : CodeTemplate} {constants : List Value} (hcls : asking.kernelClass k = cls)
    (hmethods : (cls, Slot.Class.methods, [dictionary]) ∈ askingRows)
    (hd : dictionary ∈ [slotted 16, slotted 20, slotted 28, slotted 40])
    (hm : method ∈ [slotted 16, slotted 20, slotted 28, slotted 40])
    (hfound : asking.heap.dictionaryAt dictionary selector = .ok (some method))
    (he : asking.heap.Embodies method tm constants) : asking.Provides k selector tm constants := by
  obtain ⟨-, -, -, -, hnil, -⟩ := asking_evaluated
  refine ⟨method, ⟨[], cls, hcls ▸ .done, dictionary, asking_holds hmethods, ?_, asking_inert hd,
    hfound⟩, asking_inert hm, he⟩
  rw [(hnil dictionary hd).1]
  decide

theorem asking_supports : Supports asking (spelt 5) := by
  obtain ⟨-, ⟨hsane, -⟩, ⟨-, hvalue, -⟩, ⟨-, hfound⟩, -, -, hknown, -⟩ := asking_evaluated
  obtain ⟨-, hblock, -, -, hyes, hno, hapart⟩ := hknown
  refine ⟨hsane _ (by simp [askingPlaces]), ?_, hyes, hno, hapart⟩
  refine asking_provides hblock (by simp [askingRows]) (by simp) (by simp) hfound ?_
  exact asking_embodies 16 38 (asking_row (by simp [askingRows, valueTemplate]))
    ⟨⟨16, by decide⟩, hvalue⟩ Heap.row_nil

theorem asking_ready : askingMachine.Ready := by
  obtain ⟨-, -, ⟨-, -, -, hcode⟩, -, -, ⟨-, hprocess, hcontext⟩, -, hkinds⟩ := asking_evaluated
  have whole : asking.heap.Whole := asking_intact.whole
  have hrow : asking.heap.Row (slotted 96) 7 [.nil, .wrapInt 2, slotted 62] :=
    asking_row (by simp [askingRows])
  have hself := hrow.get (k := 0) rfl
  have hstate : asking.heap.Holds ⟨slotted 88, Slot.Process.state⟩ .nil :=
    asking_holds (by simp [askingRows])
  have hmethod : asking.heap.Holds ⟨slotted 96, Slot.Context.method⟩ (slotted 78) :=
    asking_holds (by simp [askingRows])
  have hasking : asking.heap.Row (slotted 78) 0 [spelt 23, slotted 75] :=
    asking_row (by simp [askingRows])
  refine ⟨⟨asking_intact, rfl, hstate.has whole (by decide), hself.has whole (by decide), by decide,
    hmethod, hasking.get (k := 1) rfl,
    ⟨spelt 23, hasking.get (k := 0) rfl, ⟨23, by decide⟩, hcode⟩, by decide, Nat.zero_le _, nofun⟩,
    recalls_of_cache rfl rfl, ?_, ⟨hself.sane, by decide, hcontext⟩,
    ⟨hstate.sane, by decide, hprocess⟩, rfl, rfl⟩
  exact fun k k' => hkinds k (by cases k <;> decide) k' (by cases k' <;> decide)

theorem asking_asks : Asks askingMachine askingTemplate.bytecode [spelt 2]
    ⟨0, .wrapInt 1, [.nil, .wrapInt 2, slotted 62]⟩ 5 1 2 (slotted 62) := by
  obtain ⟨-, -, ⟨hloop, -, -, hcode⟩, ⟨hfound, -⟩, -, -, ⟨hintegers, -⟩, -⟩ := asking_evaluated
  have hrow : asking.heap.Row (slotted 96) 7 [.nil, .wrapInt 2, slotted 62] :=
    asking_row (by simp [askingRows])
  have hmethod : asking.heap.Holds ⟨slotted 96, Slot.Context.method⟩ (slotted 78) :=
    asking_holds (by simp [askingRows])
  have hasking : asking.heap.Row (slotted 78) 0 [spelt 23, slotted 75] :=
    asking_row (by simp [askingRows])
  have htable : asking.heap.Row (slotted 75) 0 [spelt 2] := asking_row (by simp [askingRows])
  refine ⟨⟨⟨asking_ready, ⟨slotted 78, slotted 75, spelt 23, hmethod,
    hasking.get (k := 1) rfl, hasking.get (k := 0) rfl, ⟨⟨23, by decide⟩, hcode⟩, htable⟩, rfl, rfl,
    hrow⟩, by decide, by simp, .nil, by simp⟩, by decide, rfl, 0, ⟨[1, 2], by decide⟩, ?_,
    .cons rfl (.cons rfl .nil), spelt 2, spelt 5, htable.get (k := 0) rfl, .inr (by decide), ?_,
    asking_supports⟩
  · exact decodes [.send 0 ⟨[1, 2], by decide⟩, .return_] 0 rfl
  · refine asking_provides hintegers (by simp [askingRows]) (by simp) (by simp) hfound ?_
    exact asking_embodies 8 24 (asking_row (by simp [askingRows, loopTemplate]))
      ⟨⟨8, by decide⟩, hloop⟩ (asking_row (by simp [askingRows]))

theorem asking_closure : asking.Closure (slotted 62) idleTemplate := by
  obtain ⟨-, -, ⟨-, -, hidle, -⟩, -, -, ⟨hblock, -, -⟩, -⟩ := asking_evaluated
  have hhome : asking.heap.Holds ⟨slotted 62, Slot.Block.home⟩ .nil :=
    asking_holds (by simp [askingRows])
  refine ⟨⟨hhome.sane, by decide, hblock⟩, ?_, .nil, hhome⟩
  exact asking_embodies 20 60 (asking_row (by simp [askingRows, idleTemplate, briefly]))
    ⟨⟨20, by decide⟩, hidle⟩ Heap.row_nil

/-- One is asked to count to two with a block that answers at once. -/
theorem asking_counts_to_two : Asks askingMachine askingTemplate.bytecode [spelt 2]
      ⟨0, .wrapInt 1, [.nil, .wrapInt 2, slotted 62]⟩ 5 1 2 (slotted 62) ∧
    askingMachine.image.Closure (slotted 62) idleTemplate ∧ ∃ caller : Suspension,
      caller.context = slotted 96 ∧ caller.pc = 5 ∧
      Counts (some (.wrapInt 1)) [1, 2] askingMachine (slotted 62) caller := by
  obtain ⟨-, caller, ⟨hcontext, -, -, hpc, -⟩, hcounts⟩ := asking_asks.counts_up asking_closure rfl
    (by decide) (by decide) (by decide)
  rw [if_pos (.inl (by decide)), show numbers 1 2 = [1, 2] by decide] at hcounts
  exact ⟨asking_asks, asking_closure, caller, hcontext, hpc, hcounts⟩

end Asking

end Counting

end ObjectMachine
