import ObjectMachine.Code.Compile

namespace ObjectMachine

def Constant.agrees : Constant → Constant → Bool
  | .symbol a, .symbol b => a == b
  | .integer a, .integer b => a == b
  | _, _ => false

theorem Constant.eq_of_agrees {c d : Constant} (h : c.agrees d) : c = d := by
  cases c <;> cases d <;> simp_all [agrees]

theorem Constant.eq_of_all_agree {cs ds : List Constant} (hlength : cs.length = ds.length)
    (h : (cs.zipWith agrees ds).all id) : cs = ds := by
  induction cs generalizing ds with
  | nil => exact (List.length_eq_zero_iff.mp hlength.symm).symm
  | cons c cs ih =>
    obtain ⟨d, ds, rfl⟩ := List.exists_cons_of_length_eq_add_one hlength.symm
    simp only [List.zipWith_cons_cons, List.all_cons, id, Bool.and_eq_true] at h
    rw [eq_of_agrees h.1, ih (Nat.succ.inj hlength) h.2]

namespace CodeTemplate

def agrees (t u : CodeTemplate) : Bool :=
  t.selector == u.selector && t.bytecode == u.bytecode && t.literals.length == u.literals.length &&
    (t.literals.zipWith Constant.agrees u.literals).all id &&
    [t.args, t.temps, t.heapVars, t.stack] == [u.args, u.temps, u.heapVars, u.stack]

theorem eq_of_agrees {t u : CodeTemplate} (h : t.agrees u) : t = u := by
  cases t
  cases u
  simp only [agrees, Bool.and_eq_true, beq_iff_eq, List.cons.injEq, and_true] at h
  obtain ⟨⟨⟨⟨rfl, rfl⟩, hlength⟩, hagree⟩, rfl, rfl, rfl, rfl⟩ := h
  rw [Constant.eq_of_all_agree hlength hagree]

end CodeTemplate

theorem compile_of_agrees {r : Except (Stop CompileError) CodeTemplate} {u : CodeTemplate}
    (h : r.toOption.any (·.agrees u)) : r = .ok u := by
  cases r with
  | error e => cases h
  | ok t => exact congrArg Except.ok (CodeTemplate.eq_of_agrees h)

end ObjectMachine
