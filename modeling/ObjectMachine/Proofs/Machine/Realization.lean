import ObjectMachine.Proofs.Code.FirstOrder
import ObjectMachine.Proofs.Machine.Variables

namespace ObjectMachine

namespace Routine

structure Hosts (r : Routine) (u : CodeUnit) : Prop extends u.Registered where
  short : codeLength r.code < wordModulus
  room : u.firstTemp ≤ r.registers

structure Serves (r : Routine) (p : Pool) : Prop where
  high : p.high ≤ r.registers
  integers : ∀ (i : Nat) (n : Int), p.literals.toList[i]? = some (.integer n) →
    r.constants[i]? = some (.wrapInt n)

def Keeps (first next : Nat) (registers registers' : List Value) : Prop :=
  ∀ k, first ≤ k → k < next → registers'[k]? = registers[k]?

/-- What becomes of an evaluation on the way from a window to the end of some code. -/
def Realizes (r : Routine) (u : CodeUnit) (env : Env) (next : Nat) (w : Window) (stop : Nat) :
    EStateM.Result Exit Bindings Value → Prop
  | .ok v b => ∃ registers, r.Path w ⟨stop, v, registers⟩ ∧ r.Holds env b registers ∧
      Keeps u.firstTemp next w.registers registers
  | .error (.returned v) _ => ∃ w', r.Path w w' ∧ r.Answers v w'
  | .error .stuck _ => True

variable {r : Routine} {u : CodeUnit} {env : Env} {b : Bindings} {p p' : Pool}
  {next stop stop' : Nat} {w w' : Window} {registers registers' : List Value} {v : Value}

theorem Serves.of_grows (h : r.Serves p') (hg : p.Grows p') : r.Serves p :=
  ⟨Nat.le_trans hg.high h.high,
    fun i n hi => h.integers i n (CodeUnit.getElem?_of_extended hg.literals hi)⟩

theorem Keeps.refl (first next : Nat) (registers : List Value) :
    Keeps first next registers registers := fun _ _ _ => rfl

theorem Keeps.trans {first : Nat} {registers'' : List Value}
    (h : Keeps first next registers registers') (h' : Keeps first next registers' registers'') :
    Keeps first next registers registers'' :=
  fun k hk hlt => (h' k hk hlt).trans (h k hk hlt)

theorem Keeps.mono {first next' : Nat} (h : Keeps first next' registers registers')
    (hle : next ≤ next') : Keeps first next registers registers' :=
  fun k hk hlt => h k hk (Nat.lt_of_lt_of_le hlt hle)

theorem Realizes.after {res : EStateM.Result Exit Bindings Value} (hpath : r.Path w w')
    (hkeeps : Keeps u.firstTemp next w.registers w'.registers)
    (h : Realizes r u env next w' stop res) : Realizes r u env next w stop res := by
  match res, h with
  | .ok _ _, ⟨registers, hrest, hholds, hkept⟩ =>
    exact ⟨registers, hpath.trans hrest, hholds, hkeeps.trans hkept⟩
  | .error (.returned _) _, ⟨w'', hrest, hanswers⟩ => exact ⟨w'', hpath.trans hrest, hanswers⟩
  | .error .stuck _, _ => trivial

/-- Steps of an evaluation follow one another. -/
theorem Realizes.bind {x : Evaluation Value} {f : Value → Evaluation Value} {next' : Nat}
    (hle : next ≤ next') (h : Realizes r u env next' w stop (x b))
    (hf : ∀ v b' registers, r.Holds env b' registers →
      Keeps u.firstTemp next' w.registers registers →
      Realizes r u env next ⟨stop, v, registers⟩ stop' (f v b')) :
    Realizes r u env next w stop' ((x >>= f) b) := by
  change Realizes r u env next w stop' (EStateM.bind x f b)
  rw [EStateM.bind]
  match hx : x b, h with
  | .ok v b', h =>
    obtain ⟨registers, hpath, hholds, hkept⟩ := h
    exact (hf v b' registers hholds hkept).after hpath (hkept.mono hle)
  | .error (.returned v) b', h => exact h
  | .error .stuck b', _ => trivial

theorem Realizes.of_option {o : Option Value}
    (h : ∀ v, o = some v → Realizes r u env next w stop (.ok v b)) :
    Realizes r u env next w stop (orStuck o b) := by
  cases o with
  | none => trivial
  | some v => exact h v rfl

/-- One instruction that sets the accumulator. -/
theorem Realizes.load {i : Instruction} (hat : r.At w.pc [i]) (hholds : r.Holds env b w.registers)
    (hi : ∀ pc, Window.execute r { w with pc } i = some ⟨pc, v, w.registers⟩) :
    Realizes r u env next w (w.pc + codeLength [i]) (.ok v b) :=
  ⟨w.registers, hat.turn (hi _), hholds, Keeps.refl _ _ _⟩

theorem Realizes.finish {res : EStateM.Result Exit Bindings Value}
    (h : Realizes r u env next w stop res)
    (hpath : ∀ v registers, r.Path ⟨stop, v, registers⟩ ⟨stop', v, registers⟩) :
    Realizes r u env next w stop' res := by
  match res, h with
  | .ok v _, ⟨registers, hrest, hholds, hkept⟩ =>
    exact ⟨registers, hrest.trans (hpath v registers), hholds, hkept⟩
  | .error (.returned _) _, h => exact h
  | .error .stuck _, _ => trivial

section Control

def branchIf (sense : Bool) : Int16 → Instruction :=
  if sense then .branchIfTrue else .branchIfFalse

variable {target : Nat} {offset past out again : Int16} {a yes no body : List Instruction}
  {x y z : Evaluation Value} {f : Value → Evaluation Value} (sense : Bool)

theorem length_branchIf : (branchIf sense offset).length = 3 := by cases sense <;> rfl

theorem jump_path (hshort : codeLength r.code < wordModulus) (hat : r.At w.pc [.jump offset])
    (htarget : target ≤ codeLength r.code) (h : (w.pc + 3 + offset.toInt : Int) = target) :
    r.Path w { w with pc := target } := by
  refine hat.turn (congrArg some ?_)
  have hjumped := jumped_eq hshort htarget h
  exact congrArg (fun pc => { w with pc }) hjumped

theorem branch_path (hshort : codeLength r.code < wordModulus)
    (hat : r.At w.pc [branchIf sense offset]) (htarget : target ≤ codeLength r.code)
    (h : (w.pc + 3 + offset.toInt : Int) = target) :
    r.Path w { w with
      pc := if r.setting.truthy w.accumulator = sense then target else w.pc + 3 } := by
  have hjumped := jumped_eq hshort htarget h
  refine hat.turn ?_
  cases sense <;> cases htruth : r.setting.truthy w.accumulator <;>
    simp [branchIf, Window.execute, htruth, ← hjumped, Instruction.length, Instruction.operands,
      offsetBytes]

theorem Realizes.branch (hshort : codeLength r.code < wordModulus)
    (hat : r.At stop [branchIf sense offset]) (htarget : target ≤ codeLength r.code)
    (hoffset : (stop + 3 + offset.toInt : Int) = target)
    (hcond : Realizes r u env next w stop (x b))
    (hstay : ∀ w' b', w'.pc = stop + 3 → r.Holds env b' w'.registers →
      r.setting.truthy w'.accumulator ≠ sense →
      Realizes r u env next w' stop' (f w'.accumulator b'))
    (hleave : ∀ w' b', w'.pc = target → r.Holds env b' w'.registers →
      r.setting.truthy w'.accumulator = sense →
      Realizes r u env next w' stop' (f w'.accumulator b')) :
    Realizes r u env next w stop' ((x >>= f) b) := by
  refine hcond.bind (Nat.le_refl _) fun v b' registers hholds _ => ?_
  have hpath := branch_path sense hshort (w := ⟨stop, v, registers⟩) hat htarget hoffset
  refine .after hpath (Keeps.refl _ _ _) ?_
  by_cases htruth : r.setting.truthy v = sense
  · exact hleave _ b' (if_pos htruth) hholds htruth
  · exact hstay _ b' (if_neg htruth) hholds htruth

/-- A condition, and code that is left out when the branch is taken. -/
theorem Realizes.guarded (hshort : codeLength r.code < wordModulus)
    (hat : r.At w.pc (a ++ [branchIf sense past] ++ yes)) (hpast : past.toInt = codeLength yes)
    (hcond : Realizes r u env next w (w.pc + codeLength a) (x b))
    (hyes : ∀ w' b', r.Holds env b' w'.registers → r.setting.truthy w'.accumulator ≠ sense →
      r.At w'.pc yes → Realizes r u env next w' (w'.pc + codeLength yes) (f w'.accumulator b'))
    (hno : ∀ v b', r.setting.truthy v = sense → f v b' = .ok v b') :
    Realizes r u env next w (w.pc + codeLength (a ++ [branchIf sense past] ++ yes))
      ((x >>= f) b) := by
  have hafter := hat.right
  have hend := hat.le
  simp only [codeLength_append, codeLength, length_branchIf, ← Nat.add_assoc, Nat.add_zero]
    at hafter hend ⊢
  refine hcond.branch sense hshort hat.left.right hend (by omega) ?_ ?_
  · rintro ⟨pc, v, registers⟩ b' rfl hholds htruth
    exact hyes _ b' hholds htruth hafter
  · rintro ⟨pc, v, registers⟩ b' rfl hholds htruth
    rw [hno v b' htruth]
    exact ⟨registers, .refl, hholds, Keeps.refl _ _ _⟩

/-- A condition, and code for either case. -/
theorem Realizes.either (hshort : codeLength r.code < wordModulus)
    (hat : r.At w.pc (a ++ [branchIf sense past] ++ yes ++ [.jump out] ++ no))
    (hpast : past.toInt = codeLength yes + 3) (hout : out.toInt = codeLength no)
    (hcond : Realizes r u env next w (w.pc + codeLength a) (x b))
    (hyes : ∀ w' b', r.Holds env b' w'.registers → r.setting.truthy w'.accumulator ≠ sense →
      r.At w'.pc yes → Realizes r u env next w' (w'.pc + codeLength yes) (f w'.accumulator b'))
    (hno : ∀ w' b', r.Holds env b' w'.registers → r.setting.truthy w'.accumulator = sense →
      r.At w'.pc no → Realizes r u env next w' (w'.pc + codeLength no) (f w'.accumulator b')) :
    Realizes r u env next w
      (w.pc + codeLength (a ++ [branchIf sense past] ++ yes ++ [.jump out] ++ no))
      ((x >>= f) b) := by
  have hjump : (Instruction.jump out).length = 3 := rfl
  have hfirst := hat.left.left.right
  have hskip := hat.left.right
  have hlast := hat.right
  have hend := hat.le
  simp only [codeLength_append, codeLength, length_branchIf, hjump, ← Nat.add_assoc, Nat.add_zero]
    at hfirst hskip hlast hend ⊢
  refine hcond.branch sense hshort hat.left.left.left.right (Nat.le_of_add_right_le hend)
    (by omega) ?_ ?_
  · rintro ⟨pc, v, registers⟩ b' rfl hholds htruth
    refine (hyes _ b' hholds htruth hfirst).finish fun v registers => ?_
    exact jump_path (w := ⟨_, v, registers⟩) hshort hskip hend (by dsimp only; omega)
  · rintro ⟨pc, v, registers⟩ b' rfl hholds htruth
    exact hno _ b' hholds htruth hlast

theorem Realizes.loop (hshort : codeLength r.code < wordModulus)
    (hat : r.At w.pc (a ++ [branchIf sense out] ++ body ++ [.jump again] ++ [.loadNil]))
    (hagain : again.toInt = -(codeLength a + 3 + codeLength body + 3 : Nat))
    (hout : out.toInt = codeLength body + 3)
    (hcond : Realizes r u env next w (w.pc + codeLength a) (x b))
    (hbody : ∀ w' b', r.Holds env b' w'.registers → r.At w'.pc body →
      Realizes r u env next w' (w'.pc + codeLength body) (y b'))
    (hrest : ∀ w' b', w'.pc = w.pc → r.Holds env b' w'.registers → Realizes r u env next w'
      (w.pc + codeLength (a ++ [branchIf sense out] ++ body ++ [.jump again] ++ [.loadNil]))
      (z b')) :
    Realizes r u env next w
      (w.pc + codeLength (a ++ [branchIf sense out] ++ body ++ [.jump again] ++ [.loadNil]))
      ((do if r.setting.truthy (← x) = sense then return Value.nil else let _ ← y; z) b) := by
  have hjump : (Instruction.jump again).length = 3 := rfl
  have hnil : Instruction.loadNil.length = 1 := rfl
  have hfirst := hat.left.left.right
  have hback := hat.left.right
  have hlast := hat.right
  have hend := hat.le
  simp only [codeLength_append, codeLength, length_branchIf, hjump, hnil, ← Nat.add_assoc,
    Nat.add_zero] at hfirst hback hlast hend hrest ⊢
  refine hcond.branch sense hshort hat.left.left.left.right (Nat.le_of_add_right_le hend)
    (by omega) ?_ ?_
  · rintro ⟨pc, v, registers⟩ b' rfl hholds htruth
    rw [if_neg htruth]
    refine (hbody _ b' hholds hfirst).bind (Nat.le_refl _) fun v' b'' registers' hholds' _ => ?_
    have hstart : w.pc ≤ codeLength r.code := by omega
    have hpath := jump_path (w := ⟨_, v', registers'⟩) hshort hback hstart (by dsimp only; omega)
    exact .after hpath (Keeps.refl _ _ _) (hrest _ b'' rfl hholds')
  · rintro ⟨pc, v, registers⟩ b' rfl hholds htruth
    rw [if_pos htruth]
    exact .load (w := ⟨_, v, registers⟩) hlast hholds fun _ => rfl

theorem Realizes.repeated (hshort : codeLength r.code < wordModulus)
    (hat : r.At w.pc (a ++ [branchIf sense again] ++ [.loadNil]))
    (hagain : again.toInt = -(codeLength a + 3 : Nat))
    (hcond : Realizes r u env next w (w.pc + codeLength a) (x b))
    (hrest : ∀ w' b', w'.pc = w.pc → r.Holds env b' w'.registers → Realizes r u env next w'
      (w.pc + codeLength (a ++ [branchIf sense again] ++ [.loadNil])) (z b')) :
    Realizes r u env next w (w.pc + codeLength (a ++ [branchIf sense again] ++ [.loadNil]))
      ((do if r.setting.truthy (← x) = sense then z else return Value.nil) b) := by
  have hnil : Instruction.loadNil.length = 1 := rfl
  have hlast := hat.right
  have hend := hat.le
  simp only [codeLength_append, codeLength, length_branchIf, hnil, ← Nat.add_assoc, Nat.add_zero]
    at hlast hend hrest ⊢
  have hstart : w.pc ≤ codeLength r.code := by omega
  refine hcond.branch sense hshort hat.left.right hstart (by omega) ?_ ?_
  · rintro ⟨pc, v, registers⟩ b' rfl hholds htruth
    rw [if_neg htruth]
    exact .load (w := ⟨_, v, registers⟩) hlast hholds fun _ => rfl
  · rintro ⟨pc, v, registers⟩ b' hpc hholds htruth
    rw [if_pos htruth]
    exact hrest _ b' hpc hholds

end Control

end Routine

end ObjectMachine
