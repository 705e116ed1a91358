import Mathlib.Logic.Relation
import ObjectMachine.Machine.Basic
import ObjectMachine.Proofs.Code.Encoding
import ObjectMachine.Proofs.Language.Evaluation

namespace ObjectMachine

/-- What stands still while an activation runs. -/
structure Routine where
  code : List Instruction
  constants : List Value
  /-- How many registers there are. -/
  registers : Nat
  setting : Setting

structure Window where
  pc : Nat
  accumulator : Value
  registers : List Value

def Window.execute (r : Routine) (w : Window) : Instruction → Option Window
  | .loadNil => some { w with accumulator := .nil }
  | .loadTrue => some { w with accumulator := r.setting.yes }
  | .loadFalse => some { w with accumulator := r.setting.no }
  | .loadLiteral i => do return { w with accumulator := ← r.constants[i.toNat]? }
  | .loadRegister reg => do return { w with accumulator := ← w.registers[reg.toNat]? }
  | .storeRegister reg =>
    if reg.toNat < w.registers.length then
      some { w with registers := w.registers.set reg.toNat w.accumulator }
    else none
  | .jump offset => some { w with pc := Machine.jumped w.pc offset }
  | .branchIfFalse offset =>
    some (if r.setting.truthy w.accumulator then w
      else { w with pc := Machine.jumped w.pc offset })
  | .branchIfTrue offset =>
    some (if r.setting.truthy w.accumulator then { w with pc := Machine.jumped w.pc offset }
      else w)
  | .binaryOp reg op => do
    let left ← w.registers[reg.toNat]?
    return { w with accumulator := ← op.apply r.setting left w.accumulator }
  | _ => none

namespace Routine

def At (r : Routine) (pc : Nat) (code : List Instruction) : Prop :=
  ∃ pre post, r.code = pre ++ code ++ post ∧ pc = codeLength pre

def Turn (r : Routine) (w w' : Window) : Prop :=
  ∃ i, r.At w.pc [i] ∧ { w with pc := w.pc + i.length }.execute r i = some w'

abbrev Path (r : Routine) : Window → Window → Prop := Relation.ReflTransGen r.Turn

inductive Answers (r : Routine) (v : Value) : Window → Prop where
  | accumulator {pc registers} : r.At pc [.return_] → Answers r v ⟨pc, v, registers⟩
  | self {pc accumulator registers} : r.At pc [.returnSelf] → registers[0]? = some v →
    Answers r v ⟨pc, accumulator, registers⟩

variable {r : Routine} {w w' : Window} {pc : Nat} {code code' : List Instruction}
  {i : Instruction} {offset : Int16}

theorem at_append (h : r.At pc (code ++ code')) :
    r.At pc code ∧ r.At (pc + codeLength code) code' := by
  obtain ⟨pre, post, hcode, rfl⟩ := h
  exact ⟨⟨pre, code' ++ post, by simp [hcode], rfl⟩, pre ++ code, post, by simp [hcode], by simp⟩

theorem At.left (h : r.At pc (code ++ code')) : r.At pc code := (at_append h).1

theorem At.right (h : r.At pc (code ++ code')) : r.At (pc + codeLength code) code' :=
  (at_append h).2

theorem At.le (h : r.At pc code) : pc + codeLength code ≤ codeLength r.code := by
  obtain ⟨pre, post, hcode, rfl⟩ := h
  rw [hcode, codeLength_append, codeLength_append]
  omega

theorem At.turn (h : r.At w.pc [i])
    (hi : { w with pc := w.pc + i.length }.execute r i = some w') : r.Path w w' :=
  .single ⟨i, h, hi⟩

/-- Branches to positions that exist do not wrap around. -/
theorem jumped_eq {target : Nat} (hshort : codeLength r.code < wordModulus)
    (htarget : target ≤ codeLength r.code) (h : (pc + offset.toInt : Int) = target) :
    Machine.jumped pc offset = target := by
  rw [Machine.jumped, h, Int.emod_eq_of_lt (by omega) (by omega), Int.toNat_natCast]

end Routine

end ObjectMachine
