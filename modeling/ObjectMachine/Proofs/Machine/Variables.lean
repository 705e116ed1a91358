import Mathlib.Data.List.Forall2
import ObjectMachine.Proofs.Language.Plain
import ObjectMachine.Proofs.Machine.Window

namespace ObjectMachine

def Resides (registers : List Value) (entry : String × Option Place) (x : String × Value) : Prop :=
  entry.1 = x.1 ∧ ∀ index, entry.2 = some ⟨0, index⟩ → registers[index + 1]? = some x.2

structure Routine.Holds (r : Routine) (env : Env) (b : Bindings) (registers : List Value) :
    Prop where
  length : registers.length = r.registers
  self : registers[0]? = some r.setting.self
  resides : List.Forall₂ (Resides registers) env b

section Registers

variable {env : Env} {b : Bindings} {registers registers' : List Value} {size index : Nat}
  {name : String} {v : Value}

theorem resides_frame (h : List.Forall₂ (Resides registers) env b)
    (hsame : ∀ index, some ⟨0, index⟩ ∈ env.map Prod.snd →
      registers'[index + 1]? = registers[index + 1]?) :
    List.Forall₂ (Resides registers') env b := by
  induction h with
  | nil => exact .nil
  | @cons entry x env b hx _ ih =>
    refine .cons ⟨hx.1, fun index hindex => ?_⟩ (ih fun index hmem => hsame index (.tail _ hmem))
    rw [hsame index (hindex ▸ .head _)]
    exact hx.2 index hindex

/-- The value of a variable is found in its register. -/
theorem resides_lookup (h : List.Forall₂ (Resides registers) env b)
    (hplace : env.innermost name = some (some ⟨0, index⟩)) (hv : b.lookup name = some v) :
    registers[index + 1]? = some v := by
  induction h with
  | nil => cases hv
  | @cons entry x env b hx _ ih =>
    obtain ⟨name', place⟩ := entry
    obtain ⟨name'', v'⟩ := x
    obtain ⟨rfl, hregister⟩ := hx
    rw [Env.innermost_cons] at hplace
    by_cases hname : name' = name
    · subst hname
      simp only [if_true, Option.some.injEq] at hplace
      simp only [List.lookup_cons, beq_self_eq_true, Option.some.injEq] at hv
      rw [← hv]
      exact hregister index hplace
    · rw [if_neg hname] at hplace
      rw [List.lookup_cons, beq_false_of_ne (Ne.symm hname)] at hv
      exact ih hplace hv

theorem resides_assign (h : List.Forall₂ (Resides registers) env b)
    (apart : (env.map Prod.snd).Nodup) (hplace : env.innermost name = some (some ⟨0, index⟩))
    (hindex : index + 1 < registers.length) :
    List.Forall₂ (Resides (registers.set (index + 1) v)) env (b.assign name v) := by
  induction h with
  | nil => cases hplace
  | @cons entry x env b hx hrest ih =>
    obtain ⟨name', place⟩ := entry
    obtain ⟨name'', v'⟩ := x
    obtain ⟨rfl, hregister⟩ := hx
    rw [List.map_cons, List.nodup_cons] at apart
    rw [Env.innermost_cons] at hplace
    rw [Bindings.assign]
    by_cases hname : name' = name
    · rw [if_pos hname] at hplace ⊢
      cases hplace
      refine .cons ⟨rfl, fun i hi => ?_⟩ (resides_frame hrest fun i hmem => ?_)
      · cases hi
        exact List.getElem?_set_self hindex
      · have hne : i ≠ index := by
          rintro rfl
          exact apart.1 hmem
        exact List.getElem?_set_ne (by omega)
    · rw [if_neg hname] at hplace ⊢
      refine .cons ⟨rfl, fun i hi => ?_⟩ (ih apart.2 hplace)
      have hne : i ≠ index := by
        rintro rfl
        exact apart.1 (hi ▸ Env.mem_of_innermost hplace)
      rw [List.getElem?_set_ne (by omega)]
      exact hregister i hi

/-- New variables have the values that are in their registers. -/
theorem resides_enter {first : Nat} {names : List String} {values : List Value}
    (h : List.Forall₂ (Resides registers) env b) (hlength : names.length = values.length)
    (hvalues : ∀ i v, values[i]? = some v → registers[first + i + 1]? = some v) :
    List.Forall₂ (Resides registers) (env.declare 0 first names) (b.enter names values) := by
  have hnew : List.Forall₂ (Resides registers)
      ((names.zipIdx first).map fun x => (x.1, some ⟨0, x.2⟩)) (names.zip values) := by
    clear h
    induction names generalizing first values with
    | nil => exact .nil
    | cons name names ih =>
      cases values with
      | nil => cases hlength
      | cons v values =>
        refine .cons ⟨rfl, fun i hi => ?_⟩ (ih (Nat.succ.inj hlength) fun i v hi => ?_)
        · cases hi
          exact hvalues 0 v rfl
        · have := hvalues (i + 1) v hi
          rwa [← Nat.add_assoc, Nat.add_right_comm first i 1] at this
  have hboth := List.rel_append (List.rel_reverse hnew) h
  simpa [Env.declare, declared, Bindings.enter, Function.comp_def] using hboth

/-- Variables that are left go, and the others stay. -/
theorem resides_leave {first : Nat} {names : List String}
    (h : List.Forall₂ (Resides registers) (env.declare 0 first names) b) :
    List.Forall₂ (Resides registers) env (b.drop names.length) := by
  have hlength : ((declared 0 first names).map fun x => (x.1, some x.2)).length =
      names.length := by
    simp [declared]
  have hdrop := List.forall₂_drop names.length h
  rwa [Env.declare, List.drop_left' hlength] at hdrop

end Registers

end ObjectMachine
