import Mathlib.Logic.Relation
import ObjectMachine.Proofs.Language.Plain

namespace ObjectMachine

namespace ControlForm

variable {form : ControlForm} {receiver : Expr} {selector : String} {args : List Expr}

/-- The selector is that of a control structure, and all that it would evaluate in place are literal
blocks without parameters. -/
structure Recognizes (form : ControlForm) (receiver : Expr) (selector : String)
    (args : List Expr) : Prop where
  selector : selector = form.selector
  receiver : form.isLoop → receiver.isPlainBlock
  blocks : ∀ arg ∈ args, arg.isPlainBlock

theorem ofSelector?_selector (form : ControlForm) : ofSelector? form.selector = some form := by
  cases form <;> decide

theorem recognize_iff :
    recognize receiver selector args = some form ↔ form.Recognizes receiver selector args := by
  constructor
  · intro h
    simp only [recognize, Option.bind_eq_bind, Option.bind_eq_some_iff, guard] at h
    obtain ⟨form', hform, _, hloop, _, hargs, hsame⟩ := h
    obtain rfl : form' = form := Option.some.inj hsame
    refine ⟨(selector_of_ofSelector? hform).symm, fun h => ?_, ?_⟩
    · split at hloop
      · rename_i hc
        simpa [h] using hc
      · cases hloop
    · split at hargs
      · rename_i hc
        exact List.all_eq_true.mp hc
      · cases hargs
  · rintro ⟨rfl, hreceiver, hargs⟩
    have hloop : (!form.isLoop || receiver.isPlainBlock) = true := by
      cases h : form.isLoop with
      | false => rfl
      | true => simp [hreceiver h]
    have hall : args.all Expr.isPlainBlock = true := List.all_eq_true.mpr hargs
    simp only [recognize, ofSelector?_selector, Option.bind_eq_bind, Option.bind_some, hloop, hall,
      guard, if_true]
    rfl

theorem recognize_eq_none_iff :
    recognize receiver selector args = none ↔
      ∀ form : ControlForm, ¬form.Recognizes receiver selector args := by
  simp only [← recognize_iff, Option.eq_none_iff_forall_ne_some, ne_eq]

end ControlForm

namespace Expr

def children : Expr → List Expr
  | .literal _ | .pseudo _ | .variable _ => []
  | .assign _ value | .ret value => [value]
  | .send receiver _ args => receiver :: args
  | .superSend _ args | .primitive _ args => args
  | .block _ _ body => body

/-- Those of them that the compiler looks at: of a control structure, no more arguments than its
selector takes. -/
def parts : Expr → List Expr
  | .send receiver selector args =>
    match ControlForm.recognize receiver selector args with
    | some form => receiver :: args.take form.blocks
    | none => receiver :: args
  | e => e.children

/-- The compiler comes from an expression to another that stands in it. -/
def Reaches : Expr → Expr → Prop := Relation.ReflTransGen fun e p => p ∈ e.parts

theorem Reaches.cases {e q : Expr} (h : e.Reaches q) : e = q ∨ ∃ p ∈ e.parts, p.Reaches q :=
  Relation.ReflTransGen.cases_head h

theorem Reaches.of_mem {e p q : Expr} (hp : p ∈ e.parts) (h : p.Reaches q) : e.Reaches q :=
  Relation.ReflTransGen.head hp h

/-- A control structure with fewer arguments than its selector takes. -/
def Starved : Expr → Prop
  | .send receiver selector args =>
    ∃ form : ControlForm, form.Recognizes receiver selector args ∧ args.length < form.blocks
  | _ => False

/-- A control structure with more arguments than its selector takes. -/
def Sated : Expr → Prop
  | .send receiver selector args =>
    ∃ form : ControlForm, form.Recognizes receiver selector args ∧ form.blocks < args.length
  | _ => False

def IsBlock : Expr → Prop
  | .block .. => True
  | _ => False

def Seated : Expr → Prop
  | .send receiver selector args => ∃ form : ControlForm,
    form.Recognizes receiver selector args ∧ form.isLoop = false ∧ receiver.IsBlock
  | _ => False

/-- The compiler comes to no conditional whose receiver is a literal block. -/
def Unseated (e : Expr) : Prop := ∀ q, e.Reaches q → ¬q.Seated

theorem unseated_of_parts {e : Expr} (hself : ¬e.Seated) (hparts : ∀ p ∈ e.parts, p.Unseated) :
    e.Unseated := by
  intro q hq
  obtain rfl | ⟨p, hp, hpart⟩ := hq.cases
  · exact hself
  · exact hparts p hp q hpart

theorem parts_of_plain {receiver : Expr} {selector : String} {args : List Expr}
    (h : ControlForm.recognize receiver selector args = none) :
    (send receiver selector args).parts = receiver :: args := by
  rw [parts, h]

theorem parts_of_control {form : ControlForm} {receiver : Expr} {selector : String}
    {args : List Expr} (h : ControlForm.recognize receiver selector args = some form) :
    (send receiver selector args).parts = receiver :: args.take form.blocks := by
  rw [parts, h]

theorem parts_eq_children {e : Expr} (h : ¬e.Sated) : e.parts = e.children := by
  cases e with
  | send receiver selector args =>
    rw [parts, children]
    cases hform : ControlForm.recognize receiver selector args with
    | none => rfl
    | some form =>
      dsimp only
      rw [List.take_of_length_le]
      by_contra hlt
      exact h ⟨form, ControlForm.recognize_iff.mp hform, Nat.not_le.mp hlt⟩
  | _ => rfl

end Expr

namespace Method

def Contains (m : Method) (e : Expr) : Prop :=
  ∃ s ∈ m.body, Relation.ReflTransGen (fun e p => p ∈ e.children) s e

/-- It stands there outside the arguments that are left out. -/
def Keeps (m : Method) (e : Expr) : Prop :=
  ∃ s ∈ m.body, s.Reaches e

/-- Nothing is left out of a method whose control structures are given no more than they take. -/
theorem keeps_of_contains {m : Method} (hm : ∀ e, m.Contains e → ¬e.Sated) {e : Expr}
    (he : m.Contains e) : m.Keeps e := by
  obtain ⟨s, hs, hpath⟩ := he
  refine ⟨s, hs, ?_⟩
  induction hpath with
  | refl => exact .refl
  | @tail e p hpath hp ih =>
    refine ih.tail ?_
    rwa [Expr.parts_eq_children (hm e ⟨s, hs, hpath⟩)]

end Method

end ObjectMachine
