import ObjectMachine.Proofs.Code.Composition
import ObjectMachine.Proofs.Code.Stopping

namespace ObjectMachine

namespace CodeUnit

variable {u : CodeUnit} {literals literals' : List Constant} {next : Nat} {code : List Instruction}

/-- The code of an expression of a unit, for its value or for evaluation in place. Registers from
`next` on are free. -/
inductive Yields (u : CodeUnit) (literals : List Constant) (next : Nat) :
    Expr → List Instruction → Prop where
  | value {id : Nat} {inPlace : Bool} {env : Env} {e : Expr} {n : Node Binding}
    {code : List Instruction} {p p' : Pool} : u.scopes.Binds id inPlace env e n →
    Emit.expr u next n p = .ok code p' → p'.literals.toList <+: literals →
    u.Yields literals next e code
  | inPlace {id : Nat} {env : Env} {e : Expr} {n : Node Binding} {code : List Instruction}
    {p p' : Pool} : u.scopes.Binds id true env e n → Emit.inPlace u next n p = .ok code p' →
    p'.literals.toList <+: literals → u.Yields literals next e code

/-- The code of expressions in a row, with nothing but branches and nil between and after them. -/
inductive Weaves (u : CodeUnit) (literals : List Constant) (next : Nat) :
    List Expr → List Instruction → Prop where
  | nil : u.Weaves literals next [] []
  | cons {e : Expr} {es : List Expr} {code glue rest : List Instruction} :
    u.Yields literals next e code → Leads glue →
    u.Weaves literals next es rest → u.Weaves literals next (e :: es) (code ++ glue ++ rest)

inductive Collects (u : CodeUnit) (literals : List Constant) :
    Nat → List Expr → List Instruction → List UInt8 → Prop where
  | nil {next : Nat} : u.Collects literals next [] [] []
  | cons {next : Nat} {e : Expr} {es : List Expr} {code rest : List Instruction}
    {regs : List UInt8} : u.Yields literals next e code → next < maxRegisters →
    u.Collects literals (next + 1) es rest regs →
    u.Collects literals next (e :: es) (code ++ [.storeRegister next.toUInt8] ++ rest)
      (next.toUInt8 :: regs)

inductive Conveys (u : CodeUnit) (literals : List Constant) (next : Nat) (receiver : Expr)
    (selector : String) (args : List Expr) : List Instruction → Prop where
  | control {form : ControlForm} {code : List Instruction} :
    form.Recognizes receiver selector args → form.blocks ≤ args.length →
    u.Weaves literals next (receiver :: args.take form.blocks) code →
    u.Conveys literals next receiver selector args code
  | operator {op : BinaryOp} {arg : Expr} {first second : List Instruction} :
    (∀ form : ControlForm, ¬form.Recognizes receiver selector args) →
    BinaryOp.ofSelector? selector = some op → args = [arg] →
    u.Yields literals next receiver first → next < maxRegisters →
    u.Yields literals (next + 1) arg second →
    u.Conveys literals next receiver selector args
      (first ++ [.storeRegister next.toUInt8] ++ second ++ u.call (.binaryOp next.toUInt8 op))
  | unary {index : UInt8} {regs : ArgRegisters} {first : List Instruction} :
    (∀ form : ControlForm, ¬form.Recognizes receiver selector args) → args = [] →
    u.Yields literals next receiver first → literals[index.toNat]? = some (.symbol selector) →
    regs.regs = [] → u.Conveys literals next receiver selector args
      (first ++ u.call (.send index regs))
  | keyword {index : UInt8} {regs : ArgRegisters} {first rest : List Instruction} :
    (∀ form : ControlForm, ¬form.Recognizes receiver selector args) →
    u.Yields literals next receiver first → next < maxRegisters →
    u.Collects literals (next + 1) args rest regs.regs →
    literals[index.toNat]? = some (.symbol selector) →
    u.Conveys literals next receiver selector args
      (first ++ [.storeRegister next.toUInt8] ++ rest ++ [.loadRegister next.toUInt8] ++
        u.call (.send index regs))

theorem Yields.mono {e : Expr} (hg : literals <+: literals') (h : u.Yields literals next e code) :
    u.Yields literals' next e code := by
  cases h with
  | value hb h hp => exact .value hb h (hp.trans hg)
  | inPlace hb h hp => exact .inPlace hb h (hp.trans hg)

theorem Weaves.mono {es : List Expr} (hg : literals <+: literals')
    (h : u.Weaves literals next es code) : u.Weaves literals' next es code := by
  induction h with
  | nil => exact .nil
  | cons hcode hglue _ ih => exact .cons (hcode.mono hg) hglue ih

theorem Collects.mono {es : List Expr} {regs : List UInt8} (hg : literals <+: literals')
    (h : u.Collects literals next es code regs) : u.Collects literals' next es code regs := by
  induction h with
  | nil => exact .nil
  | cons hcode hroom _ ih => exact .cons (hcode.mono hg) hroom ih

theorem Conveys.mono {receiver : Expr} {selector : String} {args : List Expr}
    (hg : literals <+: literals') (h : u.Conveys literals next receiver selector args code) :
    u.Conveys literals' next receiver selector args code := by
  cases h with
  | control hform hcount hcode => exact .control hform hcount (hcode.mono hg)
  | operator hnone hop hargs hfirst hroom hsecond =>
    exact .operator hnone hop hargs (hfirst.mono hg) hroom (hsecond.mono hg)
  | unary hnone hargs hfirst hindex hregs =>
    exact .unary hnone hargs (hfirst.mono hg) (getElem?_of_extended hg hindex) hregs
  | keyword hnone hfirst hroom hrest hindex =>
    exact .keyword hnone (hfirst.mono hg) hroom (hrest.mono hg) (getElem?_of_extended hg hindex)

end CodeUnit

inductive CodeTemplate.Conveys : CodeTemplate → Expr → String → List Expr → Prop where
  | here {t : CodeTemplate} {u : CodeUnit} {next : Nat} {front code rest : List Instruction}
    {receiver : Expr} {selector : String} {args : List Expr} :
    t.bytecode = (encodeAll (front ++ code ++ rest)).toArray →
    u.Conveys t.literals next receiver selector args code → t.Conveys receiver selector args
  | inside {t b : CodeTemplate} {receiver : Expr} {selector : String} {args : List Expr} :
    .block b ∈ t.literals → b.Conveys receiver selector args → t.Conveys receiver selector args

namespace CodeUnit

variable {u : CodeUnit} {literals literals' : List Constant} {code code' : List Instruction}
  {receiver : Expr} {selector : String} {args : List Expr}

def Holds (u : CodeUnit) (literals : List Constant) (code : List Instruction) (receiver : Expr)
    (selector : String) (args : List Expr) : Prop :=
  (∃ next front piece rest, code = front ++ piece ++ rest ∧
    u.Conveys literals next receiver selector args piece) ∨
  ∃ b, .block b ∈ literals ∧ b.Conveys receiver selector args

theorem Holds.mono (hg : literals <+: literals')
    (h : u.Holds literals code receiver selector args) :
    u.Holds literals' code receiver selector args := by
  rcases h with ⟨next, front, piece, rest, hcode, hpiece⟩ | ⟨b, hb, hpiece⟩
  · exact .inl ⟨next, front, piece, rest, hcode, hpiece.mono hg⟩
  · exact .inr ⟨b, hg.subset hb, hpiece⟩

theorem Holds.within (hpart : code <:+: code') (h : u.Holds literals code receiver selector args) :
    u.Holds literals code' receiver selector args := by
  obtain ⟨before, after, rfl⟩ := hpart
  rcases h with ⟨next, front, piece, rest, rfl, hpiece⟩ | h
  · exact .inl ⟨next, before ++ front, piece, rest ++ after, by simp, hpiece⟩
  · exact .inr h

theorem Conveys.holds {next : Nat} (h : u.Conveys literals next receiver selector args code) :
    u.Holds literals code receiver selector args :=
  .inl ⟨next, [], code, [], by rw [List.nil_append, List.append_nil], h⟩

theorem Holds.left {rest : List Instruction} (h : u.Holds literals code receiver selector args) :
    u.Holds literals (code ++ rest) receiver selector args :=
  h.within (List.prefix_append code rest).isInfix

theorem Holds.right {front : List Instruction} (h : u.Holds literals code receiver selector args) :
    u.Holds literals (front ++ code) receiver selector args :=
  h.within (List.suffix_append front code).isInfix

theorem Holds.template {t : CodeTemplate} (h : u.Holds literals code receiver selector args)
    (hcode : t.bytecode = (encodeAll code).toArray) (hliterals : t.literals = literals) :
    t.Conveys receiver selector args := by
  subst hliterals
  rcases h with ⟨next, front, piece, rest, rfl, hpiece⟩ | ⟨b, hb, hpiece⟩
  · exact .here hcode hpiece
  · exact .inside hb hpiece

end CodeUnit

namespace Emit

variable {u : CodeUnit} {p p' : Pool} {id next : Nat} {env : Env} {literals : List Constant}

/-- Blocks are never shared. -/
theorem literal_block {t : CodeTemplate} {index : UInt8}
    (h : literal (.block t) p = .ok index p') : .block t ∈ p'.literals.toList := by
  have hfind : p.literals.findIdx? (Constant.block t).same = none :=
    Array.findIdx?_eq_none_iff.mpr fun c _ => by cases c <;> rfl
  simp only [literal, get_bind, hfind, ite_eq_ok, bind_eq_ok, fail_eq_ok, false_and, exists_false,
    and_false, false_or, pure_eq_ok, modify_eq_ok] at h
  obtain ⟨-, -, _, rfl, -, rfl⟩ := h
  simp

/-- Values go to registers one after the other. -/
theorem stashAll_collects {es : List Expr} {ns : List (Node Binding)} {code : List Instruction}
    {regs : List UInt8} (hu : u.Covers id) (hs : u.Stocks p)
    (hb : u.scopes.BindsAll id false env es ns)
    (h : stashAll u next ns p = .ok (code, regs) p') :
    u.Collects p'.literals.toList next es code regs := by
  induction ns generalizing p next es code regs with
  | nil =>
    cases hb
    simp only [stashAll, pure_eq_ok, Prod.mk.injEq] at h
    obtain ⟨⟨rfl, rfl⟩, rfl⟩ := h
    exact .nil
  | cons n ns ih =>
    cases hb with
    | cons hn hns =>
      simp only [stashAll, bind_eq_ok, pure_eq_ok] at h
      obtain ⟨code', p₁, hfirst, reg, p₂, hreg, ⟨rest, regs'⟩, _, hrest, heq, rfl⟩ := h
      cases heq
      have hcode := expr_emits hu hs n hn hfirst
      obtain ⟨rfl, hroom, -, hs₂, hg⟩ := allocTemp_spec hcode.stocks hreg
      have hlater := (stashAll_stashes hu hs₂ ns hns hrest).1.grows
      exact .cons (.value hn hfirst (hg.literals.trans hlater.literals)) hroom (ih hs₂ hns hrest)

/-- The last of the operands stays in the accumulator, here the only one. -/
theorem operands_single {es : List Expr} {ns : List (Node Binding)} {code : List Instruction}
    {regs : List UInt8} (hb : u.scopes.BindsAll id false env es ns) (hcount : ns.length = 1)
    (h : operands u next ns p = .ok (code, regs) p') :
    ∃ e, es = [e] ∧ u.Yields p'.literals.toList next e code := by
  match ns, hb with
  | [n], .cons hn .nil =>
    simp only [operands, bind_eq_ok, List.isEmpty_nil, if_true, pure_eq_ok, Prod.mk.injEq] at h
    obtain ⟨_, _, hfirst, ⟨rfl, -⟩, rfl⟩ := h
    exact ⟨_, rfl, .value hn hfirst List.prefix_rfl⟩

/-- The block at an index of the arguments. -/
theorem arm_yields {index : Nat} {es : List Expr} {ns : List (Node Binding)}
    {code : List Instruction} (hb : u.scopes.BindsAll id true env es ns)
    (h : arm u next index ns p = .ok code p') :
    ∃ e, es[index]? = some e ∧ u.Yields p'.literals.toList next e code := by
  induction ns generalizing index es with
  | nil => simp only [arm, fault_eq_ok] at h
  | cons n ns ih =>
    cases hb with
    | cons hn hns =>
      simp only [arm, ite_eq_ok] at h
      rcases h with ⟨rfl, h⟩ | ⟨hindex, h⟩
      · exact ⟨_, rfl, .inPlace hn h List.prefix_rfl⟩
      · obtain ⟨k, rfl⟩ := Nat.exists_eq_succ_of_ne_zero hindex
        rw [List.getElem?_cons_succ]
        exact ih hns h

namespace Arms

variable {args : List (Node Binding)} {es : List Expr} {index count : Nat}
  {code : List Instruction}

/-- The arms are the arguments in a row. -/
theorem weaves (hu : u.Covers id) (hs : u.Stocks p) (hb : u.scopes.BindsAll id true env es args)
    (h : Arms u next args index count p code p') :
    count ≤ es.length - index ∧
      u.Weaves p'.literals.toList next ((es.drop index).take count) code := by
  induction h with
  | nil => exact ⟨Nat.zero_le _, .nil⟩
  | @cons index count p p₁ p' code glue rest harm hglue hrest ih =>
    have hcode := arm_emits hu hs args hb harm
    obtain ⟨hcount, hweaves⟩ := ih hcode.stocks
    obtain ⟨-, hg⟩ := hrest.grows hu hcode.stocks hb
    obtain ⟨e, he, hyields⟩ := arm_yields hb harm
    obtain ⟨hlt, -⟩ := List.getElem?_eq_some_iff.mp he
    rw [List.drop_eq_getElem_cons hlt, List.take_succ_cons, (List.getElem?_eq_some_iff.mp he).2]
    exact ⟨by omega, .cons (hyields.mono hg.literals) hglue hweaves⟩

/-- What stands in one of the arguments is in the code. -/
theorem holds {receiver : Expr} {selector : String} {sent : List Expr} {e : Expr}
    (hu : u.Covers id) (hs : u.Stocks p) (hb : u.scopes.BindsAll id true env es args)
    (harm : ∀ {index : Nat} {p p' : Pool} {code : List Instruction} {e : Expr}, u.Stocks p →
      arm u next index args p = .ok code p' → es[index]? = some e →
      e.Reaches (.send receiver selector sent) →
      u.Holds p'.literals.toList code receiver selector sent)
    (h : Arms u next args index count p code p') (he : e ∈ (es.drop index).take count)
    (hq : e.Reaches (.send receiver selector sent)) :
    u.Holds p'.literals.toList code receiver selector sent := by
  induction h with
  | nil => simp at he
  | @cons index count p p₁ p' code glue rest hcode hglue hrest ih =>
    have hemits := arm_emits hu hs args hb hcode
    obtain ⟨-, hg⟩ := hrest.grows hu hemits.stocks hb
    obtain ⟨e', he', -⟩ := arm_yields hb hcode
    obtain ⟨hlt, hat⟩ := List.getElem?_eq_some_iff.mp he'
    rw [List.drop_eq_getElem_cons hlt, List.take_succ_cons, hat] at he
    rcases List.mem_cons.mp he with rfl | he
    · exact ((harm hs hcode he' hq).mono hg.literals).left.left
    · exact (ih hemits.stocks he).right

end Arms

section Conveys

variable {place : Bool} {receiver : Expr} {selector : String} {args : List Expr}
  {receiver' : Node Binding} {args' : List (Node Binding)} {code : List Instruction}

/-- A send that is not recognized passes everything on. -/
theorem send_conveys (hu : u.Covers id) (hs : u.Stocks p)
    (hnone : ControlForm.recognize receiver selector args = none)
    (hr : u.scopes.Binds id false env receiver receiver')
    (hargs : u.scopes.BindsAll id false env args args')
    (h : expr u next (.send receiver' selector args') p = .ok code p') :
    u.Conveys p'.literals.toList next receiver selector args code := by
  have hplain := ControlForm.recognize_eq_none_iff.mp hnone
  obtain ⟨first, p₁, hfirst, ⟨op, reg, p₂, rest, regs, hop, hcount, hreg, hrest, rfl⟩ |
    ⟨regs, p₂, index, hcount, hregs, hindex, rfl⟩ |
    ⟨reg, p₂, rest, regs, p₃, regs', p₄, index, -, hreg, hrest, hregs, hindex, rfl⟩⟩ :=
      expr_send_cases h
  · have hcode := expr_emits hu hs receiver' hr hfirst
    obtain ⟨rfl, hroom, -, hs₂, hg⟩ := allocTemp_spec hcode.stocks hreg
    have hg' := hg.trans (operands_stashes hu hs₂ args' hargs hrest).1.grows
    obtain ⟨arg, rfl, hsecond⟩ := operands_single hargs hcount hrest
    exact .operator hplain hop rfl (.value hr hfirst hg'.literals) hroom hsecond
  · have hcode := expr_emits hu hs receiver' hr hfirst
    obtain ⟨hempty, rfl⟩ := argRegisters_eq_ok hregs
    obtain ⟨-, hg, -⟩ := symbol_spec hcode.stocks hindex
    obtain rfl := List.length_eq_zero_iff.mp hcount
    cases hargs
    exact .unary hplain rfl (.value hr hfirst hg.literals) (symbol_index hcode.stocks hindex) hempty
  · have hcode := expr_emits hu hs receiver' hr hfirst
    obtain ⟨rfl, hroom, -, hs₂, hg₂⟩ := allocTemp_spec hcode.stocks hreg
    have hstash := (stashAll_stashes hu hs₂ args' hargs hrest).1
    obtain ⟨rfl, rfl⟩ := argRegisters_eq_ok hregs
    obtain ⟨-, hg₃, -⟩ := symbol_spec hstash.stocks hindex
    have hg := hg₂.trans (hstash.grows.trans hg₃)
    exact .keyword hplain (.value hr hfirst hg.literals) hroom
      ((stashAll_collects hu hs₂ hargs hrest).mono hg₃.literals)
      (symbol_index hstash.stocks hindex)

theorem receiver_yields {form : ControlForm} {literals : List Constant}
    (hu : u.Covers id) (hs : u.Stocks p) (hr : u.scopes.Binds id true env receiver receiver')
    (h : (if form.isLoop then Emit.inPlace u next receiver' p
      else expr u next receiver' p) = .ok code p') (hp : p'.literals.toList <+: literals) :
    u.Stocks p' ∧ u.Yields literals next receiver code := by
  split at h
  · exact ⟨(inPlace_emits hu hs receiver' hr h).stocks, .inPlace hr h hp⟩
  · exact ⟨(expr_emits hu hs receiver' hr h).stocks, .value hr h hp⟩

theorem control_conveys {form : ControlForm} (hu : u.Covers id) (hs : u.Stocks p)
    (hform : ControlForm.recognize receiver selector args = some form)
    (hr : u.scopes.Binds id true env receiver receiver')
    (hargs : u.scopes.BindsAll id true env args args')
    (h : expr u next (.control form receiver' args') p = .ok code p') :
    u.Conveys p'.literals.toList next receiver selector args code := by
  obtain ⟨first, p₁, glue, rest, hfirst, hglue, harms, rfl⟩ := expr_control_spec h
  obtain ⟨hs₁, -⟩ := receiver_yields hu hs hr hfirst List.prefix_rfl
  obtain ⟨-, hg⟩ := harms.grows hu hs₁ hargs
  obtain ⟨hcount, hweaves⟩ := harms.weaves hu hs₁ hargs
  obtain ⟨-, hyields⟩ := receiver_yields hu hs hr hfirst hg.literals
  exact .control (ControlForm.recognize_iff.mp hform) hcount (.cons hyields hglue hweaves)

end Conveys

mutual

/-- The code of an expression holds that of every send that the compiler comes to in it. -/
theorem expr_holds {u : CodeUnit} {p p' : Pool} {id next : Nat} {place : Bool} {env : Env}
    {e receiver : Expr} {selector : String} {args : List Expr} {code : List Instruction}
    (hu : u.Covers id) (hs : u.Stocks p) (n : Node Binding) (hb : u.scopes.Binds id place env e n)
    (h : expr u next n p = .ok code p') (hq : e.Reaches (.send receiver selector args)) :
    u.Holds p'.literals.toList code receiver selector args := by
  match n, hb with
  | .literal _, .literal | .pseudo _, .pseudo | .variable .., .variable _ =>
    obtain heq | ⟨_, hmem, -⟩ := hq.cases
    · cases heq
    · cases hmem
  | .assign name b value, .assign hv ho =>
    obtain heq | ⟨_, hmem, hpart⟩ := hq.cases
    · cases heq
    obtain rfl := List.mem_singleton.mp hmem
    simp only [expr, bind_eq_ok, pure_eq_ok] at h
    obtain ⟨code', p₁, hvalue, i, _, hstore, rfl, rfl⟩ := h
    have hcode := expr_emits hu hs value hv hvalue
    have hg := (access_emits hcode.stocks (hu.reaches ho) (.inr hstore)).grows
    exact ((expr_holds hu hs value hv hvalue hpart).mono hg.literals).left
  | .send receiver' selector' args', .send hnone hr hargs =>
    obtain heq | ⟨e', hmem, hpart⟩ := hq.cases
    · cases heq
      exact (send_conveys hu hs hnone hr hargs h).holds
    rw [Expr.parts_of_plain hnone] at hmem
    obtain ⟨first, p₁, hfirst, ⟨op, reg, p₂, rest, regs, -, -, hreg, hrest, rfl⟩ |
      ⟨regs, p₂, index, hcount, hregs, hindex, rfl⟩ |
      ⟨reg, p₂, rest, regs, p₃, regs', p₄, index, -, hreg, hrest, hregs, hindex, rfl⟩⟩ :=
        expr_send_cases h
    · have hcode := expr_emits hu hs receiver' hr hfirst
      obtain ⟨-, -, -, hs₂, hg₂⟩ := allocTemp_spec hcode.stocks hreg
      have hg := hg₂.trans (operands_stashes hu hs₂ args' hargs hrest).1.grows
      rcases List.mem_cons.mp hmem with rfl | hmem
      · exact ((expr_holds hu hs receiver' hr hfirst hpart).mono hg.literals).left.left.left
      · exact (operands_holds hu hs₂ args' hargs hrest hmem hpart).right.left
    · have hcode := expr_emits hu hs receiver' hr hfirst
      obtain ⟨-, rfl⟩ := argRegisters_eq_ok hregs
      obtain ⟨-, hg, -⟩ := symbol_spec hcode.stocks hindex
      obtain rfl := List.length_eq_zero_iff.mp hcount
      cases hargs
      obtain rfl := List.mem_singleton.mp hmem
      exact ((expr_holds hu hs receiver' hr hfirst hpart).mono hg.literals).left
    · have hcode := expr_emits hu hs receiver' hr hfirst
      obtain ⟨-, -, -, hs₂, hg₂⟩ := allocTemp_spec hcode.stocks hreg
      have hstash := (stashAll_stashes hu hs₂ args' hargs hrest).1
      obtain ⟨-, rfl⟩ := argRegisters_eq_ok hregs
      obtain ⟨-, hg₃, -⟩ := symbol_spec hstash.stocks hindex
      rcases List.mem_cons.mp hmem with rfl | hmem
      · have hg := hg₂.trans (hstash.grows.trans hg₃)
        exact ((expr_holds hu hs receiver' hr hfirst hpart).mono hg.literals).left.left.left.left
      · have hrest' := stashAll_holds hu hs₂ args' hargs hrest hmem hpart
        exact (hrest'.mono hg₃.literals).right.left.left
  | .superSend selector' args', .superSend hargs =>
    obtain heq | ⟨e', hmem, hpart⟩ := hq.cases
    · cases heq
    simp only [expr, ite_eq_ok, bind_eq_ok, fail_eq_ok, false_and, exists_false, and_false,
      false_or, pure_eq_ok] at h
    obtain ⟨-, ⟨rest, regs⟩, p₁, hrest, regs', p₂, hregs, index, _, hindex, rfl, rfl⟩ := h
    have hstash := (stashAll_stashes hu hs args' hargs hrest).1
    obtain ⟨-, rfl⟩ := argRegisters_eq_ok hregs
    obtain ⟨-, hg, -⟩ := symbol_spec hstash.stocks hindex
    exact ((stashAll_holds hu hs args' hargs hrest hmem hpart).mono hg.literals).left.left
  | .closure scope params temps body, .closure ho ht hbody =>
    obtain heq | ⟨e', hmem, hpart⟩ := hq.cases
    · cases heq
    simp only [expr, bind_eq_ok, ofExcept_eq_ok, get_eq_ok, set_eq_ok, pure_eq_ok] at h
    obtain ⟨inner, _, ⟨hinner, rfl⟩, _, _, ⟨rfl, rfl⟩, -, _, rfl, code', pool, hcode', _, _,
      ⟨rfl, rfl⟩, -, _, rfl, index, p₁, hindex, rfl, rfl⟩ := h
    obtain ⟨hcovers, hscopes, hscope⟩ := CodeUnit.create_spec hu.coherent ho.found hinner
    have hheld := statements_holds hcovers inner.stocks_empty body (hscopes ▸ hbody) hcode' hmem
      hpart
    refine .inr ⟨_, literal_block hindex, ?_⟩
    cases hbody with
    | nil => cases hmem
    | cons => exact hheld.right.left.left.template rfl rfl
  | .inlined first temps body, .inlined .. =>
    simp only [expr, fail_eq_ok] at h
  | .ret value, .ret hv =>
    obtain heq | ⟨_, hmem, hpart⟩ := hq.cases
    · cases heq
    obtain rfl := List.mem_singleton.mp hmem
    simp only [expr, bind_eq_ok] at h
    obtain ⟨code', p₁, hvalue, h⟩ := h
    have hcode := expr_emits hu hs value hv hvalue
    have hheld := expr_holds hu hs value hv hvalue hpart
    cases hkind : u.scope.kind with
    | method =>
      simp only [hkind, pure_eq_ok] at h
      obtain ⟨rfl, rfl⟩ := h
      exact hheld.left
    | block =>
      simp only [hkind, bind_eq_ok, pure_eq_ok] at h
      obtain ⟨reg, p₂, hreg, index, p₃, hindex, regs, _, hregs, rfl, rfl⟩ := h
      obtain ⟨-, -, -, hs₂, hg₂⟩ := allocTemp_spec hcode.stocks hreg
      obtain ⟨-, hg₃, -⟩ := symbol_spec hs₂ hindex
      obtain ⟨-, rfl⟩ := argRegisters_eq_ok hregs
      exact (hheld.mono (hg₂.trans hg₃).literals).left.left.left
  | .primitive name args', .primitive hargs =>
    obtain heq | ⟨e', hmem, hpart⟩ := hq.cases
    · cases heq
    simp only [expr, bind_eq_ok] at h
    obtain ⟨prim, p₁, hprim, h⟩ := h
    obtain ⟨rfl, -⟩ := findPrimitive_eq_ok hprim
    simp only [ite_eq_ok, bind_eq_ok, fail_eq_ok, false_and, exists_false, and_false, false_or,
      pure_eq_ok] at h
    rcases h with ⟨-, ⟨rest, regs⟩, _, hrest, rfl, rfl⟩ | ⟨-, -, ⟨rest, regs⟩, _, hrest, rfl, rfl⟩
    · exact (operands_holds hu hs args' hargs hrest hmem hpart).left
    · exact (stashAll_holds hu hs args' hargs hrest hmem hpart).left
  | .control form receiver' args', .control hform hr hargs =>
    obtain heq | ⟨e', hmem, hpart⟩ := hq.cases
    · cases heq
      exact (control_conveys hu hs hform hr hargs h).holds
    rw [Expr.parts_of_control hform] at hmem
    obtain ⟨first, p₁, glue, rest, hfirst, hglue, harms, rfl⟩ := expr_control_spec h
    obtain ⟨hs₁, -⟩ := receiver_yields hu hs hr hfirst List.prefix_rfl
    obtain ⟨-, hg⟩ := harms.grows hu hs₁ hargs
    rcases List.mem_cons.mp hmem with rfl | hmem
    · split at hfirst
      · exact ((inPlace_holds hu hs receiver' hr hfirst hpart).mono hg.literals).left.left
      · exact ((expr_holds hu hs receiver' hr hfirst hpart).mono hg.literals).left.left
    · exact (harms.holds hu hs₁ hargs (fun hs h he hq => arm_holds hu hs args' hargs h he hq)
        hmem hpart).right
termination_by structural n

theorem statements_holds {u : CodeUnit} {p p' : Pool} {id next : Nat} {env : Env}
    {es : List Expr} {e receiver : Expr} {selector : String} {args : List Expr}
    {code : List Instruction} (hu : u.Covers id) (hs : u.Stocks p)
    (ns : List (Node Binding)) (hb : u.scopes.BindsAll id false env es ns)
    (h : statements u next ns p = .ok code p') (he : e ∈ es)
    (hq : e.Reaches (.send receiver selector args)) :
    u.Holds p'.literals.toList code receiver selector args := by
  match ns, hb with
  | [], .nil => cases he
  | n :: ns, .cons hn hns =>
    simp only [statements, bind_eq_ok, pure_eq_ok] at h
    obtain ⟨code', p₁, hfirst, code'', _, hrest, rfl, rfl⟩ := h
    have hcode := expr_emits hu hs n hn hfirst
    have hg := (statements_emits hu hcode.stocks ns hns hrest).grows
    rcases List.mem_cons.mp he with rfl | he
    · exact ((expr_holds hu hs n hn hfirst hq).mono hg.literals).left
    · exact (statements_holds hu hcode.stocks ns hns hrest he hq).right
termination_by structural ns

theorem stashAll_holds {u : CodeUnit} {p p' : Pool} {id next : Nat} {env : Env}
    {es : List Expr} {e receiver : Expr} {selector : String} {args : List Expr}
    {code : List Instruction} {regs : List UInt8} (hu : u.Covers id) (hs : u.Stocks p)
    (ns : List (Node Binding)) (hb : u.scopes.BindsAll id false env es ns)
    (h : stashAll u next ns p = .ok (code, regs) p') (he : e ∈ es)
    (hq : e.Reaches (.send receiver selector args)) :
    u.Holds p'.literals.toList code receiver selector args := by
  match ns, hb with
  | [], .nil => cases he
  | n :: ns, .cons hn hns =>
    simp only [stashAll, bind_eq_ok, pure_eq_ok] at h
    obtain ⟨code', p₁, hfirst, reg, p₂, hreg, ⟨rest, regs'⟩, _, hrest, heq, rfl⟩ := h
    cases heq
    have hcode := expr_emits hu hs n hn hfirst
    obtain ⟨-, -, -, hs₂, hg₂⟩ := allocTemp_spec hcode.stocks hreg
    have hg := hg₂.trans (stashAll_stashes hu hs₂ ns hns hrest).1.grows
    rcases List.mem_cons.mp he with rfl | he
    · exact ((expr_holds hu hs n hn hfirst hq).mono hg.literals).left.left
    · exact (stashAll_holds hu hs₂ ns hns hrest he hq).right
termination_by structural ns

theorem operands_holds {u : CodeUnit} {p p' : Pool} {id next : Nat} {env : Env}
    {es : List Expr} {e receiver : Expr} {selector : String} {args : List Expr}
    {code : List Instruction} {regs : List UInt8} (hu : u.Covers id) (hs : u.Stocks p)
    (ns : List (Node Binding)) (hb : u.scopes.BindsAll id false env es ns)
    (h : operands u next ns p = .ok (code, regs) p') (he : e ∈ es)
    (hq : e.Reaches (.send receiver selector args)) :
    u.Holds p'.literals.toList code receiver selector args := by
  match ns, hb with
  | [], .nil => cases he
  | n :: ns, .cons hn hns =>
    rw [operands] at h
    simp only [bind_eq_ok, ite_eq_ok, pure_eq_ok] at h
    obtain ⟨code', p₁, hfirst, ⟨hlast, heq, rfl⟩ |
      ⟨-, reg, p₂, hreg, ⟨rest, regs'⟩, _, hrest, heq, rfl⟩⟩ := h <;> cases heq
    · rw [List.isEmpty_iff] at hlast
      subst hlast
      cases hns
      obtain rfl := List.mem_singleton.mp he
      exact expr_holds hu hs n hn hfirst hq
    · have hcode := expr_emits hu hs n hn hfirst
      obtain ⟨-, -, -, hs₂, hg₂⟩ := allocTemp_spec hcode.stocks hreg
      have hg := hg₂.trans (operands_stashes hu hs₂ ns hns hrest).1.grows
      rcases List.mem_cons.mp he with rfl | he
      · exact ((expr_holds hu hs n hn hfirst hq).mono hg.literals).left.left
      · exact (operands_holds hu hs₂ ns hns hrest he hq).right
termination_by structural ns

theorem arm_holds {u : CodeUnit} {p p' : Pool} {id next index : Nat} {env : Env}
    {es : List Expr} {e receiver : Expr} {selector : String} {args : List Expr}
    {code : List Instruction} (hu : u.Covers id) (hs : u.Stocks p)
    (ns : List (Node Binding)) (hb : u.scopes.BindsAll id true env es ns)
    (h : arm u next index ns p = .ok code p') (he : es[index]? = some e)
    (hq : e.Reaches (.send receiver selector args)) :
    u.Holds p'.literals.toList code receiver selector args := by
  match ns, hb with
  | [], .nil => cases he
  | n :: ns, .cons hn hns =>
    simp only [arm, ite_eq_ok] at h
    rcases h with ⟨rfl, h⟩ | ⟨hindex, h⟩
    · cases he
      exact inPlace_holds hu hs n hn h hq
    · obtain ⟨k, rfl⟩ := Nat.exists_eq_succ_of_ne_zero hindex
      rw [List.getElem?_cons_succ] at he
      exact arm_holds hu hs ns hns h he hq
termination_by structural ns

theorem inPlace_holds {u : CodeUnit} {p p' : Pool} {id next : Nat} {place : Bool} {env : Env}
    {e receiver : Expr} {selector : String} {args : List Expr} {code : List Instruction}
    (hu : u.Covers id) (hs : u.Stocks p) (n : Node Binding) (hb : u.scopes.Binds id place env e n)
    (h : inPlace u next n p = .ok code p') (hq : e.Reaches (.send receiver selector args)) :
    u.Holds p'.literals.toList code receiver selector args := by
  match n, hb with
  | .inlined first temps body, .inlined hi ht hbody =>
    obtain heq | ⟨e', hmem, hpart⟩ := hq.cases
    · cases heq
    simp only [inPlace, bind_eq_ok, pure_eq_ok] at h
    obtain ⟨clear, p₁, hclear, code', _, hcode', rfl, rfl⟩ := h
    have hcleared := clearTemps_emits hs (fun temp hmem => by
      obtain ⟨i, hi⟩ := List.getElem?_of_mem hmem
      exact hu.reaches_of_denotes (ht.2 i temp.1 temp.2 hi)) hclear
    have hheld := statements_holds hu hcleared.stocks body hbody hcode' hmem hpart
    cases hbody with
    | nil => cases hmem
    | cons => exact hheld.right
  | .literal _, _ | .pseudo _, _ | .variable .., _ | .assign .., _ | .send .., _ | .control .., _
  | .superSend .., _ | .closure .., _ | .ret _, _ | .primitive .., _ =>
    simp only [inPlace, fail_eq_ok] at h
termination_by structural n

end

end Emit

namespace Method

variable {m : Method} {instanceVariables : List String}

/-- The compiler breaks only on a control structure with fewer arguments than its selector takes. -/
theorem compile_breaks {f : Fault} (h : m.compile instanceVariables = .error (.fault f)) :
    ∃ e, m.Keeps e ∧ e.Starved := by
  cases hr : m.resolve instanceVariables with
  | error e => simp [compile, hr] at h
  | ok r =>
    rw [compile_eq_of_resolve hr] at h
    have haccords := compile_accords hr
      (C := fun e => (∃ f, e = .fault f) → ∃ q, m.Keeps q ∧ q.Starved) (by rintro _ _ ⟨_, ⟨⟩⟩)
      fun q hq => ⟨fun hstarved _ _ => ⟨q, hq, hstarved⟩, by rintro _ ⟨_, ⟨⟩⟩⟩
    exact haccords.2 _ h ⟨f, rfl⟩

theorem compile_conveys {t : CodeTemplate} (h : m.compile instanceVariables = .ok t)
    {receiver : Expr} {selector : String} {args : List Expr}
    (hm : m.Keeps (.send receiver selector args)) : t.Conveys receiver selector args := by
  obtain ⟨r, hr, hcompile⟩ := resolve_of_compile h
  obtain ⟨s, hf⟩ := resolve_follows hr
  obtain ⟨e, he, hq⟩ := hm
  rw [ResolvedMethod.compile] at hcompile
  cases hu : CodeUnit.create r.scopes 0 r.selector with
  | error e => simp [hu] at hcompile
  | ok u =>
    obtain ⟨hcovers, hscopes, hscope⟩ := CodeUnit.create_spec hf.coherent hf.found hu
    have hbody := hf.body
    rw [← hscopes] at hbody
    cases hcode : Emit.statements u u.firstTemp r.body { high := u.firstTemp } with
    | error e p => simp [hu, hcode] at hcompile
    | ok code p =>
      simp only [hu, hcode, Except.ok.injEq] at hcompile
      subst hcompile
      have hheld := Emit.statements_holds hcovers u.stocks_empty r.body hbody hcode he hq
      exact hheld.right.left.template rfl rfl

/-- A method compiles, or does not with a cause, unless the compiler comes to a control structure
with fewer arguments than its selector takes. In the code of a method is that of every send that
the compiler comes to: of a control structure, the receiver and as many arguments as the selector
takes, in place; of every other send the receiver and all arguments, passed on. If no control
structure has more arguments than its selector takes, the compiler comes to every send. -/
theorem compile_sends (m : Method) (instanceVariables : List String) :
    (∀ f, m.compile instanceVariables = .error (.fault f) → ∃ e, m.Keeps e ∧ e.Starved) ∧
    (∀ t, m.compile instanceVariables = .ok t → ∀ receiver selector args,
      m.Keeps (.send receiver selector args) → t.Conveys receiver selector args) ∧
    ((∀ e, m.Contains e → ¬e.Sated) → ∀ e, m.Contains e → m.Keeps e) :=
  ⟨fun _ => compile_breaks, fun _ h _ _ _ => compile_conveys h, fun hm _ => keeps_of_contains hm⟩

def armless : Method where
  selector := "m"
  body := [.send (.variable "x") "ifTrue:" []]

theorem armless_breaks : ∃ f, armless.compile [] = .error (.fault f) := by
  have hbreaks : (match armless.compile [] with
    | .error (.fault _) => true
    | _ => false) = true := by decide +kernel
  cases hc : armless.compile [] with
  | ok t => simp [hc] at hbreaks
  | error e =>
    cases e with
    | failure e => simp [hc] at hbreaks
    | fault f => exact ⟨f, rfl⟩

theorem compile_sends_armless :
    (∃ f, armless.compile [] = .error (.fault f) ∧ ∃ e, armless.Keeps e ∧ e.Starved) ∧
    ∃ t, nested.compile ["x"] = .ok t ∧ t.Conveys (.variable "x") "ifTrue:"
      [.block [] ["t"] [.assign "t" (.variable "x")]] := by
  obtain ⟨f, hf⟩ := armless_breaks
  obtain ⟨t, ht⟩ := nested_compile
  exact ⟨⟨f, hf, (compile_sends armless []).1 f hf⟩, t, ht,
    (compile_sends nested ["x"]).2.1 t ht _ _ _ ⟨_, .tail _ (.head _), .refl⟩⟩

end Method

end ObjectMachine
