import ObjectMachine.Proofs.Machine.Integrity
import ObjectMachine.Proofs.Machine.Window

namespace ObjectMachine

/-- An operator that has a result has one that is not nil. -/
theorem BinaryOp.apply_ne_nil {c : Setting} {x y v : Value} {op : BinaryOp} (hyes : c.yes ≠ .nil)
    (hno : c.no ≠ .nil) (h : op.apply c x y = some v) : v ≠ .nil := by
  have hboolean : ∀ b, c.boolean b ≠ .nil := by
    intro b
    cases b
    · exact hno
    · exact hyes
  have hinteger : ∀ n, Value.ofInt? n = some v → v ≠ .nil := by
    intro n hn
    rw [Value.ofInt?] at hn
    split at hn
    · cases hn
      exact Value.ne_nil_of_isInteger (by simp)
    · cases hn
  rw [apply] at h
  split at h
  · cases h
    exact hboolean _
  · obtain ⟨m, hm, h⟩ := Option.bind_eq_some_iff.mp h
    obtain ⟨n, hn, h⟩ := Option.bind_eq_some_iff.mp h
    cases op <;> rw [onIntegers] at h
    case add | subtract | multiply => exact hinteger _ h
    case quotient | remainder =>
      split at h
      · cases h
      · exact hinteger _ h
    all_goals
      cases h
      exact hboolean _

namespace Machine

theorem runPrimitive_apply {m : Machine} {c : Setting} {x y v : Value} {op : BinaryOp}
    (hyes : m.image.trueObject = c.yes) (hno : m.image.falseObject = c.no)
    (h : op.apply c x y = some v) : runPrimitive op.primitive [x, y] m = .ok v m := by
  have hboolean : ∀ b, m.image.boolean b = c.boolean b := by
    intro b
    cases b
    · exact hno
    · exact hyes
  rw [BinaryOp.apply] at h
  split at h
  · rename_i hop
    subst hop
    cases h
    have hsame : (x == y) = decide (x = y) := by simp [beq_eq_decide]
    rw [← hboolean, ← hsame]
    rfl
  · obtain ⟨a, ha, h⟩ := Option.bind_eq_some_iff.mp h
    obtain ⟨b, hb, h⟩ := Option.bind_eq_some_iff.mp h
    have hintegers := Primitive.integers?_pair ha hb
    have hanswer : ∀ {result : Option Int} {op : Int → Int → Except Fault (Option Int)},
        op a b = .ok result → result.bind Value.ofInt? = some v →
        ask (fun _ => Primitive.arithmetic [x, y] op) m = .ok v m := by
      intro result op hop hv
      refine query_of_eq_ok ?_
      rw [Primitive.arithmetic_of_integers ha hb hop, hv, Option.getD_some]
    have hchecked : ∀ {n : Int}, Value.ofInt? n = some v →
        (Primitive.checked n).bind Value.ofInt? = some v := by
      intro n hn
      rwa [Primitive.checked_bind_ofInt?]
    have hcomparison : ∀ {f : Int → Int → Bool}, c.boolean (f a b) = v →
        Primitive.comparison m.image [x, y] f = v := by
      rintro f rfl
      simp [Primitive.comparison, hintegers, hboolean]
    cases op
    case add | subtract | multiply => exact hanswer rfl (hchecked h)
    case quotient =>
      rw [BinaryOp.onIntegers] at h
      split at h
      · cases h
      · rename_i hb0
        exact hanswer (Primitive.floorDiv_of_fits (Value.fits_of_toInt? ha) hb0) h
    case remainder =>
      rw [BinaryOp.onIntegers] at h
      split at h
      · cases h
      · rename_i hb0
        exact hanswer (Primitive.floorMod_of_fits (Value.fits_of_toInt? ha)
          (Value.fits_of_toInt? hb) hb0) h
    all_goals refine congrArg (EStateM.Result.ok · m) ?_
    case less | greater | lessEqual | greaterEqual => exact hcomparison (Option.some.inj h)
    case equal | notEqual =>
      refine hcomparison ?_
      simpa [BinaryOp.onIntegers, beq_eq_decide, bne] using h
    case identical => contradiction

theorem setSlot_shows {m : Machine} {v : Value} {slots : List Value} {i : Nat}
    (sound : m.image.heap.Sound) (hs : m.image.heap.Shows v slots) (hi : i < slots.length)
    (x : Value) : ∃ heap, setSlot v i x m = .ok () { m with image := { m.image with heap } } ∧
      heap.Sound ∧ heap.Shows v (slots.set i x) ∧ Heap.Spares m.image.heap heap [v] := by
  obtain ⟨heap, hset, hrest⟩ := hs.setSlot sound hi x
  exact ⟨heap, setSlot_of_eq_ok hset, hrest⟩

/-- A machine in the middle of an activation of a routine. The fields of its context stand before
the registers. -/
structure Runs (m : Machine) (r : Routine) (fields : List Value) (w : Window) : Prop where
  sound : m.image.heap.Sound
  code : m.code = (encodeAll r.code).toArray
  pc : m.pc = w.pc
  accumulator : m.accumulator = w.accumulator
  width : fields.length = Slot.Context.registers
  context : m.image.heap.Shows m.context (fields ++ w.registers)
  literals : m.image.heap.Shows m.literals r.constants
  apart : m.literals ≠ m.context
  yes : m.image.trueObject = r.setting.yes
  no : m.image.falseObject = r.setting.no
  yes_ne : r.setting.yes ≠ .nil
  no_ne : r.setting.no ≠ .nil
  stop : m.stop = none
  calm : m.interrupts.pending = false

variable {m : Machine} {r : Routine} {fields : List Value} {w w' : Window}

namespace Runs

theorem register (h : m.Runs r fields w) {reg : UInt8} {v : Value}
    (hv : w.registers[reg.toNat]? = some v) : Machine.register reg m = .ok v m := by
  have hslot : (fields ++ w.registers)[Slot.Context.registers + reg.toNat]? = some v := by
    rw [← h.width, List.getElem?_append_right (Nat.le_add_right _ _), Nat.add_sub_cancel_left, hv]
  exact query_of_eq_ok (h.context.slot h.sound hslot)

theorem decode (h : m.Runs r fields w) {i : Instruction} (hat : r.At w.pc [i]) :
    Code.decodeAt m.code m.pc = .ok (i, m.pc + i.length) := by
  obtain ⟨pre, post, hcode, hpc⟩ := hat
  rw [h.code, h.pc, hcode, hpc, List.append_assoc, List.singleton_append, Code.decodeAt_append]

theorem literal (h : m.Runs r fields w) {index : UInt8} {v : Value}
    (hv : r.constants[index.toNat]? = some v) : Machine.literal index m = .ok v m :=
  query_of_eq_ok (h.literals.slot h.sound hv)

theorem truthy (h : m.Runs r fields w) (v : Value) : m.image.isTruthy v = r.setting.truthy v := by
  rw [Image.isTruthy, Setting.truthy, h.no, Value.isNil, Value.nil]
  obtain ⟨raw⟩ := v
  simp [bne, beq_eq_decide]

theorem load (h : m.Runs r fields w) {v x : Value} (hv : v = x) :
    Runs { m with accumulator := v } r fields { w with accumulator := x } :=
  { h with accumulator := hv }

theorem jump (h : m.Runs r fields w) (offset : Int16) :
    Runs { m with pc := jumped m.pc offset } r fields { w with pc := jumped w.pc offset } :=
  { h with pc := congrArg (jumped · offset) h.pc }

theorem store (h : m.Runs r fields w) {reg : UInt8} (hreg : reg.toNat < w.registers.length) :
    ∃ heap, Machine.setRegister reg m.accumulator m =
        .ok () { m with image := { m.image with heap } } ∧
      Runs { m with image := { m.image with heap } } r fields
        { w with registers := w.registers.set reg.toNat w.accumulator } := by
  have hin : Slot.Context.registers + reg.toNat < (fields ++ w.registers).length := by
    rw [List.length_append, h.width]
    omega
  obtain ⟨heap, hset, sound, hcontext, hspares⟩ :=
    setSlot_shows h.sound h.context hin m.accumulator
  have hslots : (fields ++ w.registers).set (Slot.Context.registers + reg.toNat) m.accumulator =
      fields ++ w.registers.set reg.toNat w.accumulator := by
    rw [← h.width, List.set_append_right _ _ (Nat.le_add_right _ _), Nat.add_sub_cancel_left,
      h.accumulator]
  rw [hslots] at hcontext
  exact ⟨heap, hset, { h with
    sound
    context := hcontext
    literals := hspares.shows (by simpa using h.apart) h.literals }⟩

end Runs

/-- An instruction that needs no more than the window does the same to machine and window. -/
theorem execute_runs (h : m.Runs r fields w) {i : Instruction} (hi : w.execute r i = some w') :
    ∃ m', execute i m = .ok () m' ∧ m'.Runs r fields w' ∧ m'.context = m.context := by
  cases i
  case loadNil =>
    cases hi
    exact ⟨_, rfl, h.load rfl, rfl⟩
  case loadTrue =>
    cases hi
    exact ⟨_, rfl, h.load h.yes, rfl⟩
  case loadFalse =>
    cases hi
    exact ⟨_, rfl, h.load h.no, rfl⟩
  case loadLiteral index =>
    obtain ⟨v, hv, hw⟩ := Option.bind_eq_some_iff.mp hi
    cases hw
    exact ⟨_, bind_eq_ok.mpr ⟨v, m, h.literal hv, rfl⟩, h.load rfl, rfl⟩
  case loadRegister reg =>
    obtain ⟨v, hv, hw⟩ := Option.bind_eq_some_iff.mp hi
    cases hw
    exact ⟨_, bind_eq_ok.mpr ⟨v, m, h.register hv, rfl⟩, h.load rfl, rfl⟩
  case storeRegister reg =>
    rw [Window.execute] at hi
    split at hi
    · rename_i hreg
      cases hi
      obtain ⟨heap, hset, hruns⟩ := h.store hreg
      exact ⟨_, hset, hruns, rfl⟩
    · cases hi
  case jump offset =>
    cases hi
    exact ⟨_, rfl, h.jump offset, rfl⟩
  case branchIfFalse offset =>
    cases hi
    rw [execute, get_bind, h.truthy, h.accumulator]
    cases r.setting.truthy w.accumulator with
    | true => exact ⟨m, rfl, h, rfl⟩
    | false => exact ⟨_, rfl, h.jump offset, rfl⟩
  case branchIfTrue offset =>
    cases hi
    rw [execute, get_bind, h.truthy, h.accumulator]
    cases r.setting.truthy w.accumulator with
    | true => exact ⟨_, rfl, h.jump offset, rfl⟩
    | false => exact ⟨m, rfl, h, rfl⟩
  case binaryOp reg op =>
    obtain ⟨left, hleft, hrest⟩ := Option.bind_eq_some_iff.mp hi
    obtain ⟨v, hv, hw⟩ := Option.bind_eq_some_iff.mp hrest
    cases hw
    rw [← h.accumulator] at hv
    have hresult := runPrimitive_apply (m := m) h.yes h.no hv
    have hne : v.isNil = false := by
      have := BinaryOp.apply_ne_nil h.yes_ne h.no_ne hv
      obtain ⟨raw⟩ := v
      simpa [Value.isNil, Value.nil] using this
    refine ⟨_, bind_eq_ok.mpr ⟨left, m, h.register hleft, ?_⟩, h.load rfl, rfl⟩
    rw [get_bind]
    refine bind_eq_ok.mpr ⟨v, m, hresult, ?_⟩
    rw [hne]
    rfl
  all_goals cases hi

/-- How a turn ends after its instruction was executed. -/
theorem step_executed {m m' : Machine} {i : Instruction} {next : Nat}
    (hcalm : m.interrupts.pending = false) (hdecode : Code.decodeAt m.code m.pc = .ok (i, next))
    (hexecute : execute i { m with clock := m.clock + 1, start := m.pc, pc := next } = .ok () m') :
    step .never m = match m'.stop with
      | none => .ok none m'
      | some (.returned v) => .ok (some (.returned v)) { m' with stop := none }
      | some outcome => (do spill; return some outcome : MachineAction (Option RunOutcome))
          { m' with stop := none } := by
  have htick : tick .never m = .ok () { m with clock := m.clock + 1 } := rfl
  rw [step, bind_of_eq_ok htick, get_bind]
  simp only [hcalm, Bool.false_eq_true, if_false]
  rw [get_bind, hdecode]
  dsimp only
  rw [modify_bind, bind_of_eq_ok hexecute, get_bind]
  cases m'.stop with
  | none => rfl
  | some outcome => cases outcome <;> rfl

theorem step_runs (h : m.Runs r fields w) (hturn : r.Turn w w') :
    ∃ m', step .never m = .ok none m' ∧ m'.Runs r fields w' ∧ m'.context = m.context := by
  obtain ⟨i, hat, hi⟩ := hturn
  have hruns : Runs { m with clock := m.clock + 1, start := m.pc, pc := m.pc + i.length } r fields
      { w with pc := w.pc + i.length } := { h with pc := congrArg (· + i.length) h.pc }
  obtain ⟨m', hexecute, hruns', hcontext⟩ := execute_runs hruns hi
  refine ⟨m', ?_, hruns', hcontext⟩
  rw [step_executed h.calm (h.decode hat) hexecute, hruns'.stop]

/-- What the window goes through, the machine goes through. -/
theorem run_runs (h : m.Runs r fields w) (hpath : r.Path w w') :
    ∃ turns m', run .never turns m = .ok none m' ∧ m'.Runs r fields w' ∧
      m'.context = m.context := by
  induction hpath using Relation.ReflTransGen.head_induction_on generalizing m with
  | refl => exact ⟨0, m, rfl, h, rfl⟩
  | head hturn _ ih =>
    obtain ⟨m₁, hstep, hruns, hcontext⟩ := step_runs h hturn
    obtain ⟨turns, m', hrun, hruns', hcontext'⟩ := ih hruns
    refine ⟨turns + 1, m', ?_, hruns', hcontext'.trans hcontext⟩
    exact bind_eq_ok.mpr ⟨none, m₁, hstep, hrun⟩

/-- Turns that did not end a run can be followed by more. -/
theorem run_add {timer : Timer} {m m' : Machine} {turns : Nat} (more : Nat)
    (h : run timer turns m = .ok none m') : run timer (turns + more) m = run timer more m' := by
  induction turns generalizing m with
  | zero =>
    cases h
    rw [Nat.zero_add]
  | succ turns ih =>
    rw [run, bind_eq_ok] at h
    obtain ⟨outcome, m₁, hstep, hrun⟩ := h
    cases outcome with
    | some outcome => cases hrun
    | none =>
      rw [Nat.succ_add, run, bind_of_eq_ok hstep]
      exact ih hrun

def Returning (m : Machine) (v : Value) : Prop :=
  ∃ next, Code.decodeAt m.code m.pc = .ok (.return_, next) ∧ m.accumulator = v ∨
    Code.decodeAt m.code m.pc = .ok (.returnSelf, next) ∧
      m.image.heap.slot m.context Slot.Context.registers = .ok v

theorem Runs.returning (h : m.Runs r fields w) {v : Value} (hanswers : r.Answers v w) :
    m.Returning v := by
  cases hanswers with
  | accumulator hat => exact ⟨_, .inl ⟨h.decode hat, h.accumulator⟩⟩
  | @self pc accumulator registers hat hself =>
    refine ⟨_, .inr ⟨h.decode hat, h.context.slot h.sound ?_⟩⟩
    rw [← h.width, List.getElem?_append_right (Nat.le_refl _), Nat.sub_self, hself]

/-- A return from the outermost activation ends the run. -/
theorem returnValue_outermost {m : Machine} {slots : List Value} (sound : m.image.heap.Sound)
    (hcontext : m.image.heap.Shows m.context slots) (hpc : Slot.Context.pc < slots.length)
    (hprevious : slots[Slot.Context.previous]? = some .nil) (v : Value) :
    ∃ m', returnValue v m = .ok () m' ∧ m'.stop = some (.returned v) := by
  obtain ⟨heap, hset, sound', hcontext', -⟩ := setSlot_shows sound hcontext hpc .nil
  have hslot : heap.slot m.context Slot.Context.previous = .ok .nil :=
    hcontext'.slot sound' (by rw [List.getElem?_set_ne (by decide), hprevious])
  have hread : slot m.context Slot.Context.previous { m with image := { m.image with heap } } =
      .ok .nil { m with image := { m.image with heap } } := query_of_eq_ok hslot
  refine ⟨{ m with
    image := { m.image with heap }, accumulator := v, stop := some (.returned v) }, ?_, rfl⟩
  rw [returnValue, get_bind, bind_of_eq_ok hset, bind_of_eq_ok hread]
  rfl

theorem Returning.step {v : Value} {slots : List Value} (h : m.Returning v)
    (hcalm : m.interrupts.pending = false) (sound : m.image.heap.Sound)
    (hcontext : m.image.heap.Shows m.context slots) (hpc : Slot.Context.pc < slots.length)
    (hprevious : slots[Slot.Context.previous]? = some .nil) :
    ∃ m', Machine.step .never m = .ok (some (.returned v)) m' := by
  obtain ⟨next, hreturn⟩ := h
  obtain ⟨m', hvalue, hstop⟩ := returnValue_outermost
    (m := { m with clock := m.clock + 1, start := m.pc, pc := next }) sound hcontext hpc hprevious v
  refine ⟨{ m' with stop := none }, ?_⟩
  rcases hreturn with ⟨hdecode, rfl⟩ | ⟨hdecode, hself⟩
  · rw [step_executed hcalm hdecode hvalue, hstop]
  · have hread : register 0 { m with clock := m.clock + 1, start := m.pc, pc := next } =
        .ok v { m with clock := m.clock + 1, start := m.pc, pc := next } := query_of_eq_ok hself
    rw [step_executed hcalm hdecode (bind_eq_ok.mpr ⟨v, _, hread, hvalue⟩), hstop]

end Machine

end ObjectMachine
