import ObjectMachine.Code.Compile
import ObjectMachine.Proofs.Action
import ObjectMachine.Proofs.Code.Reaching
import ObjectMachine.Proofs.Language.Resolution

namespace ObjectMachine

/-- The causes that tell that the two passes do not agree. -/
def CompileError.Internal : CompileError → Prop
  | .blockNotResolved | .inlinedNotBlock => True
  | _ => False

mutual

theorem Constant.not_internal_of_ofLiteral {e : CompileError} (l : Literal)
    (h : Constant.ofLiteral l = .error e) : ¬e.Internal := by
  match l with
  | .integer n =>
    rw [Constant.ofLiteral] at h
    split at h
    · cases h
    · obtain rfl := Except.error.inj h
      exact id
  | .string _ | .symbol _ => cases h
  | .array items =>
    simp only [Constant.ofLiteral] at h
    cases hitems : Constant.ofLiterals items with
    | ok cs => simp [hitems, Functor.map, Except.map] at h
    | error e' =>
      simp only [hitems] at h
      obtain rfl := Except.error.inj h
      exact Constant.not_internal_of_ofLiterals items hitems

theorem Constant.not_internal_of_ofLiterals {e : CompileError} (ls : List Literal)
    (h : Constant.ofLiterals ls = .error e) : ¬e.Internal := by
  match ls with
  | [] => cases h
  | l :: ls =>
    simp only [Constant.ofLiterals] at h
    cases hl : Constant.ofLiteral l with
    | error e' =>
      simp only [hl] at h
      obtain rfl := Except.error.inj h
      exact Constant.not_internal_of_ofLiteral l hl
    | ok c =>
      cases hls : Constant.ofLiterals ls with
      | ok cs =>
        simp only [hl, hls] at h
        cases h
      | error e' =>
        simp only [hl, hls] at h
        obtain rfl := Except.error.inj h
        exact Constant.not_internal_of_ofLiterals ls hls

end

theorem CodeUnit.not_internal_of_assignSyncs {e : CompileError} {reg : Nat}
    {chained : List (UInt8 × UInt8)} (h : CodeUnit.assignSyncs reg chained = .error e) :
    ¬e.Internal := by
  induction chained generalizing reg with
  | nil => cases h
  | cons pair chained ih =>
    rw [CodeUnit.assignSyncs] at h
    split at h
    · obtain rfl := Except.error.inj h
      exact id
    · cases hrest : CodeUnit.assignSyncs (reg + 1) chained with
      | ok rest =>
        simp only [hrest] at h
        cases h
      | error e' =>
        simp only [hrest] at h
        obtain rfl := Except.error.inj h
        exact ih hrest

theorem CodeUnit.not_internal_of_create {e : CompileError} {scopes : ScopeTree} {id : Nat}
    {selector : String} (h : CodeUnit.create scopes id selector = .error e) : ¬e.Internal := by
  rw [CodeUnit.create] at h
  cases hsyncs : CodeUnit.assignSyncs (scopes.scope id).fixedRegisters
    (scopes.scope id).chained with
  | ok syncs =>
    simp only [hsyncs] at h
    cases h
  | error e' =>
    simp only [hsyncs] at h
    obtain rfl := Except.error.inj h
    exact CodeUnit.not_internal_of_assignSyncs hsyncs

theorem not_internal_of_offsetOf {e : CompileError} {delta : Int} (h : offsetOf delta = .error e) :
    ¬e.Internal := by
  rw [offsetOf] at h
  split at h
  · cases h
  · obtain rfl := Except.error.inj h
    exact id

structure Expr.Explains (C : Stop CompileError → Prop) (e : Expr) : Prop where
  starved : e.Starved → ∀ f, C (.fault f)
  seated : e.Seated → C (.failure .blockNotResolved)

/-- What is asked of an expression whose value is needed. `inPlace` tells that a literal block would
have been laid out in place. -/
def Expr.Settled (inPlace : Bool) (e : Expr) : Prop := e.Unseated ∧ ¬(inPlace = true ∧ e.IsBlock)

theorem Expr.settled_of_parts {inPlace : Bool} {e : Expr} (hself : ¬e.Seated) (hblock : ¬e.IsBlock)
    (hparts : ∀ p ∈ e.parts, p.Unseated) : e.Settled inPlace :=
  ⟨unseated_of_parts hself hparts, fun h => hblock h.2⟩

namespace Emit

variable {u : CodeUnit} {next : Nat}

section Steps

variable {C : Stop CompileError → Prop}
  (hcause : ∀ cause : CompileError, ¬cause.Internal → C (.failure cause))

include hcause

theorem ofExcept_accords {α : Type} {r : Except CompileError α}
    (hr : ∀ cause, r = .error cause → ¬cause.Internal) : (ofExcept r).Accords C True := by
  cases r with
  | ok a => exact .pure a trivial
  | error cause => exact .fail (hcause cause (hr cause rfl))

theorem allocTemp_accords : (allocTemp next).Accords C True :=
  .check (.fail (hcause _ id)) (.bind (.modify _) fun _ _ => .pure _ trivial)

theorem literal_accords (c : Constant) : (literal c).Accords C True := by
  unfold literal
  refine .bind .get fun p _ => ?_
  dsimp only
  split
  · exact .pure _ trivial
  · exact .check (.fail (hcause _ id)) (.bind (.modify _) fun _ _ => .pure _ trivial)

theorem load_accords (b : Binding) (name : String) : (load b name).Accords C True := by
  cases b with
  | global => exact .bind (literal_accords hcause _) fun _ _ => .pure _ trivial
  | register | own | parent | instanceVariable => exact .pure _ trivial

theorem store_accords (b : Binding) (name : String) : (store b name).Accords C True := by
  cases b with
  | global => exact .bind (literal_accords hcause _) fun _ _ => .pure _ trivial
  | register | own | parent | instanceVariable => exact .pure _ trivial

theorem clearTemps_accords (temps : List (String × Binding)) :
    (clearTemps temps).Accords C True := by
  induction temps with
  | nil => exact .pure _ trivial
  | cons temp temps ih =>
    exact .bind (store_accords hcause _ _) fun _ _ => .bind ih fun _ _ => .pure _ trivial

theorem argRegisters_accords (regs : List UInt8) : (argRegisters regs).Accords C True := by
  unfold argRegisters
  split
  · exact .pure _ trivial
  · exact .fail (hcause _ id)

theorem findPrimitive_accords (name : String) (count : Nat) :
    (findPrimitive name count).Accords C True := by
  unfold findPrimitive
  split
  · exact .fail (hcause _ id)
  · split
    · exact .check (.fail (hcause _ id)) (.pure _ trivial)
    · exact .pure _ trivial

theorem skip_accords (length : Nat) : (skip length).Accords C True :=
  ofExcept_accords hcause fun _ h => not_internal_of_offsetOf h

theorem back_accords (length : Nat) : (back length).Accords C True :=
  ofExcept_accords hcause fun _ h => not_internal_of_offsetOf h

/-- A control structure stops where a part of it does, and delivers what all of them do. -/
theorem control_accords {form : ControlForm} {receiver : Node Binding} {args : List (Node Binding)}
    {value place : Prop} {body : Nat → Prop}
    (hvalue : form.isLoop = false → (expr u next receiver).Accords C value)
    (hplace : form.isLoop = true → (inPlace u next receiver).Accords C place)
    (harm : ∀ index < form.blocks, (arm u next index args).Accords C (body index)) :
    (expr u next (.control form receiver args)).Accords C
      ((form.isLoop = false → value) ∧ (form.isLoop = true → place) ∧
        ∀ index < form.blocks, body index) := by
  cases form with
  | ifTrue | ifFalse | and =>
    refine .bind (hvalue rfl) fun _ hv => .bind (harm 0 (by decide)) fun _ h₀ =>
      .bind (skip_accords hcause _) fun _ _ => .pure _ ⟨fun _ => hv, nofun, fun index hindex => ?_⟩
    obtain rfl : index = 0 := Nat.lt_one_iff.mp hindex
    exact h₀
  | ifTrueIfFalse | ifFalseIfTrue =>
    refine .bind (hvalue rfl) fun _ hv => .bind (harm 0 (by decide)) fun _ h₀ =>
      .bind (skip_accords hcause _) fun _ _ => .bind (harm 1 (by decide)) fun _ h₁ =>
        .bind (skip_accords hcause _) fun _ _ =>
          .pure _ ⟨fun _ => hv, nofun, fun index hindex => ?_⟩
    rcases Nat.le_one_iff_eq_zero_or_eq_one.mp (Nat.le_of_lt_succ hindex) with rfl | rfl
    · exact h₀
    · exact h₁
  | whileTrueDo | whileFalseDo =>
    refine .bind (hplace rfl) fun _ hp => .bind (harm 0 (by decide)) fun _ h₀ =>
      .bind (back_accords hcause _) fun _ _ => .bind (skip_accords hcause _) fun _ _ =>
        .pure _ ⟨nofun, fun _ => hp, fun index hindex => ?_⟩
    obtain rfl : index = 0 := Nat.lt_one_iff.mp hindex
    exact h₀
  | whileTrue | whileFalse =>
    exact .bind (hplace rfl) fun _ hp => .bind (back_accords hcause _) fun _ _ =>
      .pure _ ⟨nofun, fun _ => hp, fun _ hindex => absurd hindex (Nat.not_lt_zero _)⟩

end Steps

section Trees

variable {C : Stop CompileError → Prop} {t : ScopeTree}
  {occurs : Nat → Env → String → Binding → Prop} {declares : Nat → Place → Binding → Prop}

mutual

/-- The emission of an expression stops as it is explained by what the compiler comes to, and does
not deliver where it comes to a conditional with a literal block for its receiver. -/
theorem expr_accords {u : CodeUnit} {id next : Nat} {place : Bool} {env : Env} {e : Expr}
    (hcause : ∀ cause : CompileError, ¬cause.Internal → C (.failure cause))
    (n : Node Binding) (hb : Lexical t occurs declares id place env e n)
    (hplace : place = true → e.IsBlock → C (.failure .blockNotResolved))
    (hC : ∀ q, e.Reaches q → q.Explains C) : (expr u next n).Accords C (e.Settled place) := by
  match n, hb with
  | .literal value, .literal =>
    exact .bind (ofExcept_accords hcause fun _ => Constant.not_internal_of_ofLiteral value)
      fun _ _ => .bind (literal_accords hcause _) fun _ _ =>
        .pure _ (Expr.settled_of_parts not_false not_false nofun)
  | .pseudo which, .pseudo => exact .pure _ (Expr.settled_of_parts not_false not_false nofun)
  | .variable name b, .variable _ =>
    exact .bind (load_accords hcause b name) fun _ _ =>
      .pure _ (Expr.settled_of_parts not_false not_false nofun)
  | .assign name b value, .assign hv _ =>
    refine .bind (expr_accords hcause value hv nofun fun q hq => hC q (.of_mem (.head _) hq))
      fun _ hvalue => .bind (store_accords hcause b name) fun _ _ => .pure _ ?_
    exact Expr.settled_of_parts not_false not_false (List.forall_mem_singleton.mpr hvalue.1)
  | .send receiver selector args, .send hnone hr hargs =>
    have hparts := Expr.parts_of_plain hnone
    have hself : ¬(Expr.send _ selector _).Seated := fun ⟨form, hform, _⟩ =>
      ControlForm.recognize_eq_none_iff.mp hnone form hform
    have hrest := fun e' hmem q hq => hC q (.of_mem (p := e') (hparts ▸ .tail _ hmem) hq)
    have hdone := fun hreceiver hrest => show Expr.Settled place _ from
      Expr.settled_of_parts hself not_false (hparts ▸ List.forall_mem_cons.mpr ⟨hreceiver, hrest⟩)
    refine .bind (expr_accords hcause receiver hr nofun fun q hq =>
      hC q (.of_mem (by rw [hparts]; exact .head _) hq)) fun _ hreceiver => ?_
    split
    · exact .bind (allocTemp_accords hcause) fun _ _ =>
        .bind (operands_accords hcause args hargs hrest) fun _ hargs =>
          .pure _ (hdone hreceiver.1 hargs)
    · rename_i hnil
      obtain rfl : args = [] := List.length_eq_zero_iff.mp hnil
      cases hargs
      exact .bind (argRegisters_accords hcause _) fun _ _ => .bind (literal_accords hcause _)
        fun _ _ => .pure _ (hdone hreceiver.1 nofun)
    · exact .bind (allocTemp_accords hcause) fun _ _ => .check (.fail (hcause _ not_false))
        (.bind (stashAll_accords hcause args hargs hrest) fun _ hargs =>
          .bind (argRegisters_accords hcause _) fun _ _ =>
          .bind (literal_accords hcause _) fun _ _ =>
            .pure _ (hdone hreceiver.1 hargs))
  | .superSend selector args, .superSend hargs =>
    exact .check (.fail (hcause _ not_false)) (.bind (stashAll_accords hcause args hargs
      fun e' hmem q hq => hC q (.of_mem hmem hq)) fun _ hrest =>
        .bind (argRegisters_accords hcause _) fun _ _ => .bind (literal_accords hcause _) fun _ _ =>
          .pure _ (Expr.settled_of_parts not_false not_false hrest))
  | .closure scope params temps body, .closure _ _ hbody =>
    exact .bind (ofExcept_accords hcause fun _ => CodeUnit.not_internal_of_create) fun _ _ =>
      .bind .get fun _ _ => .bind (.set _) fun _ _ =>
        .bind (statements_accords hcause body hbody fun e' hmem q hq => hC q (.of_mem hmem hq))
          fun _ hrest => .bind .get fun _ _ => .bind (.set _) fun _ _ =>
            .bind (literal_accords hcause _) fun _ _ =>
              .pure _ ⟨Expr.unseated_of_parts not_false hrest, fun h => nomatch h.1⟩
  | .inlined first temps body, .inlined .. => exact .fail (hplace rfl trivial)
  | .ret value, .ret hv =>
    refine .bind (expr_accords hcause value hv nofun fun q hq => hC q (.of_mem (.head _) hq))
      fun _ hvalue => ?_
    have hdone : (Expr.ret _).Settled place :=
      Expr.settled_of_parts not_false not_false (List.forall_mem_singleton.mpr hvalue.1)
    split
    · exact .pure _ hdone
    · exact .bind (allocTemp_accords hcause) fun _ _ => .bind (literal_accords hcause _) fun _ _ =>
        .bind (argRegisters_accords hcause _) fun _ _ => .pure _ hdone
  | .primitive name args, .primitive hargs =>
    have hparts := fun e' hmem q hq => hC q (.of_mem (p := e') hmem hq)
    refine .bind (findPrimitive_accords hcause name _) fun _ _ => ?_
    dsimp only
    split
    · exact .bind (operands_accords hcause args hargs hparts) fun _ hrest =>
        .pure _ (Expr.settled_of_parts not_false not_false hrest)
    · exact .check (.fail (hcause _ not_false)) (.bind (stashAll_accords hcause args hargs hparts)
        fun _ hrest => .pure _ (Expr.settled_of_parts not_false not_false hrest))
  | .control form receiver args, .control hform hr hargs =>
    have hparts := Expr.parts_of_control hform
    have hrecognized := ControlForm.recognize_iff.mp hform
    have hreceiver := fun q hq => hC q (.of_mem (by rw [hparts]; exact .head _) hq)
    have harm : ∀ index < form.blocks, (arm u next index args).Accords C _ := fun index hindex => by
      refine arm_accords hcause args hargs hrecognized.blocks
        (fun hshort => (hC _ .refl).starved ⟨form, hrecognized, by omega⟩)
        fun e' he q hq => hC q (.of_mem ?_ hq)
      rw [hparts]
      exact .tail _ (List.mem_of_getElem? (by rw [List.getElem?_take_of_lt hindex, he]))
    have hwhole : (expr u next (.control form receiver args)).Accords C _ := control_accords hcause
      (fun hvalue => expr_accords hcause receiver hr
        (fun _ hblock => (hC _ .refl).seated ⟨form, hrecognized, hvalue, hblock⟩) hreceiver)
      (fun hloop => inPlace_accords hcause receiver hr (hrecognized.receiver hloop) hreceiver) harm
    refine ⟨fun heq => ?_, hwhole.error⟩
    obtain ⟨hvalue, hloop, hbodies⟩ := hwhole.ok heq
    refine Expr.settled_of_parts (fun ⟨form', hform', hother, hblock⟩ => ?_) not_false ?_
    · obtain rfl : form = form' :=
        Option.some.inj (hform.symm.trans (ControlForm.recognize_iff.mpr hform'))
      exact (hvalue hother).2 ⟨rfl, hblock⟩
    · rw [hparts]
      refine List.forall_mem_cons.mpr ⟨?_, fun e' hmem => ?_⟩
      · cases hloops : form.isLoop with
        | true => exact hloop hloops
        | false => exact (hvalue hloops).1
      · obtain ⟨index, hindex⟩ := List.getElem?_of_mem hmem
        have hlt : index < form.blocks := by
          have := (List.getElem?_eq_some_iff.mp hindex).1
          simp only [List.length_take] at this
          omega
        exact hbodies index hlt e' (by rwa [List.getElem?_take_of_lt hlt] at hindex)
termination_by structural n

theorem statements_accords {u : CodeUnit} {id next : Nat} {env : Env} {es : List Expr}
    (hcause : ∀ cause : CompileError, ¬cause.Internal → C (.failure cause))
    (ns : List (Node Binding)) (hb : LexicalAll t occurs declares id false env es ns)
    (hC : ∀ e ∈ es, ∀ q, e.Reaches q → q.Explains C) :
    (statements u next ns).Accords C (∀ e ∈ es, e.Unseated) := by
  match ns, hb with
  | [], .nil => exact .pure _ nofun
  | n :: ns, .cons hn hns =>
    exact .bind (expr_accords hcause n hn nofun (hC _ (.head _))) fun _ hone =>
      .bind (statements_accords hcause ns hns fun e he => hC e (.tail _ he)) fun _ hrest =>
        .pure _ (List.forall_mem_cons.mpr ⟨hone.1, hrest⟩)
termination_by structural ns

theorem stashAll_accords {u : CodeUnit} {id next : Nat} {env : Env} {es : List Expr}
    (hcause : ∀ cause : CompileError, ¬cause.Internal → C (.failure cause))
    (ns : List (Node Binding)) (hb : LexicalAll t occurs declares id false env es ns)
    (hC : ∀ e ∈ es, ∀ q, e.Reaches q → q.Explains C) :
    (stashAll u next ns).Accords C (∀ e ∈ es, e.Unseated) := by
  match ns, hb with
  | [], .nil => exact .pure _ nofun
  | n :: ns, .cons hn hns =>
    exact .bind (expr_accords hcause n hn nofun (hC _ (.head _))) fun _ hone =>
      .bind (allocTemp_accords hcause) fun _ _ =>
        .bind (stashAll_accords hcause ns hns fun e he => hC e (.tail _ he)) fun _ hrest =>
          .pure _ (List.forall_mem_cons.mpr ⟨hone.1, hrest⟩)
termination_by structural ns

theorem operands_accords {u : CodeUnit} {id next : Nat} {env : Env} {es : List Expr}
    (hcause : ∀ cause : CompileError, ¬cause.Internal → C (.failure cause))
    (ns : List (Node Binding)) (hb : LexicalAll t occurs declares id false env es ns)
    (hC : ∀ e ∈ es, ∀ q, e.Reaches q → q.Explains C) :
    (operands u next ns).Accords C (∀ e ∈ es, e.Unseated) := by
  match ns, hb with
  | [], .nil => exact .pure _ nofun
  | n :: ns, .cons hn hns =>
    refine .bind (expr_accords hcause n hn nofun (hC _ (.head _))) fun _ hone => ?_
    dsimp only
    split
    · rename_i hnil
      obtain rfl : ns = [] := List.isEmpty_iff.mp hnil
      cases hns
      exact .pure _ (List.forall_mem_singleton.mpr hone.1)
    · exact .bind (allocTemp_accords hcause) fun _ _ =>
        .bind (operands_accords hcause ns hns fun e he => hC e (.tail _ he)) fun _ hrest =>
          .pure _ (List.forall_mem_cons.mpr ⟨hone.1, hrest⟩)
termination_by structural ns

theorem arm_accords {u : CodeUnit} {id next index : Nat} {env : Env} {es : List Expr}
    (hcause : ∀ cause : CompileError, ¬cause.Internal → C (.failure cause))
    (ns : List (Node Binding)) (hb : LexicalAll t occurs declares id true env es ns)
    (hplain : ∀ e ∈ es, e.isPlainBlock) (hshort : es.length ≤ index → ∀ f, C (.fault f))
    (hC : ∀ e, es[index]? = some e → ∀ q, e.Reaches q → q.Explains C) :
    (arm u next index ns).Accords C (∀ e, es[index]? = some e → e.Unseated) := by
  match ns, hb with
  | [], .nil => exact .fault (hshort (Nat.zero_le _) _)
  | n :: ns, .cons hn hns =>
    obtain ⟨hplain₁, hplain₂⟩ := List.forall_mem_cons.mp hplain
    unfold arm
    split
    · rename_i hzero
      subst hzero
      have hfirst : (Emit.inPlace u next n).Accords C _ :=
        inPlace_accords hcause n hn hplain₁ (hC _ rfl)
      refine ⟨fun heq e he => ?_, hfirst.error⟩
      obtain rfl := Option.some.inj he
      exact hfirst.ok heq
    · rename_i hindex
      obtain ⟨k, rfl⟩ := Nat.exists_eq_succ_of_ne_zero hindex
      exact arm_accords hcause ns hns hplain₂ (fun hle => hshort (Nat.succ_le_succ hle)) hC
termination_by structural ns

theorem inPlace_accords {u : CodeUnit} {id next : Nat} {env : Env} {e : Expr}
    (hcause : ∀ cause : CompileError, ¬cause.Internal → C (.failure cause))
    (n : Node Binding) (hb : Lexical t occurs declares id true env e n) (hplain : e.isPlainBlock)
    (hC : ∀ q, e.Reaches q → q.Explains C) : (Emit.inPlace u next n).Accords C e.Unseated := by
  match n, hb with
  | .inlined first temps body, .inlined _ _ hbody =>
    exact .bind (clearTemps_accords hcause temps) fun _ _ =>
      .bind (statements_accords hcause body hbody fun e' hmem q hq => hC q (.of_mem hmem hq))
        fun _ hrest => .pure _ (Expr.unseated_of_parts not_false hrest)
  | .literal _, .literal | .pseudo _, .pseudo | .variable .., .variable _ | .assign .., .assign _ _
  | .send .., .send _ _ _ | .control .., .control _ _ _ | .superSend .., .superSend _
  | .ret _, .ret _
  | .primitive .., .primitive _ => cases hplain
termination_by structural n

end

end Trees

end Emit

namespace Method

variable {m : Method} {instanceVariables : List String} {r : ResolvedMethod}
  {C : Stop CompileError → Prop}

theorem compile_eq_of_resolve (hr : m.resolve instanceVariables = .ok r) :
    m.compile instanceVariables = r.compile := by
  rw [compile, hr]

/-- The compilation of a resolved method stops as it is explained by what the compiler comes to. -/
theorem compile_accords (hr : m.resolve instanceVariables = .ok r)
    (hcause : ∀ cause : CompileError, ¬cause.Internal → C (.failure cause))
    (hC : ∀ q, m.Keeps q → q.Explains C) :
    (∀ t, r.compile = .ok t → ∀ q, m.Keeps q → ¬q.Seated) ∧
      ∀ e, r.compile = .error e → C e := by
  obtain ⟨s, hf⟩ := resolve_follows hr
  rw [ResolvedMethod.compile]
  cases hu : CodeUnit.create r.scopes 0 r.selector with
  | error cause =>
    refine ⟨nofun, fun e heq => ?_⟩
    obtain rfl := Except.error.inj heq
    exact hcause cause (CodeUnit.not_internal_of_create hu)
  | ok u =>
    have hbody : (Emit.statements u u.firstTemp r.body).Accords C _ :=
      Emit.statements_accords hcause r.body hf.body fun s hs q hq => hC q ⟨s, hs, hq⟩
    cases hcode : Emit.statements u u.firstTemp r.body { high := u.firstTemp } with
    | ok code p =>
      simp only [hcode]
      exact ⟨fun _ _ q ⟨s, hs, hq⟩ => hbody.ok hcode s hs q hq, nofun⟩
    | error e p =>
      simp only [hcode]
      refine ⟨nofun, fun e' heq => ?_⟩
      obtain rfl := Except.error.inj heq
      exact hbody.error hcode

/-- Once names are resolved, compilation never finds something else than a block where it evaluates
one in place. It finds a block without a scope only where a conditional has a literal block for its
receiver, and a method with such a conditional never compiles. -/
theorem compile_seats (hr : m.resolve instanceVariables = .ok r) :
    m.compile instanceVariables ≠ .error (.failure .inlinedNotBlock) ∧
    (m.compile instanceVariables = .error (.failure .blockNotResolved) →
      ∃ e, m.Keeps e ∧ e.Seated) ∧
    ((∃ e, m.Keeps e ∧ e.Seated) → ∀ t, m.compile instanceVariables ≠ .ok t) := by
  rw [compile_eq_of_resolve hr]
  have haccords := compile_accords hr
    (C := fun e => e ≠ .failure .inlinedNotBlock ∧
      (e = .failure .blockNotResolved → ∃ e, m.Keeps e ∧ e.Seated))
    (fun cause hcause => ⟨fun h => ?_, fun h => ?_⟩)
    fun q hq => ⟨fun _ _ => ⟨nofun, nofun⟩, fun hseated => ⟨nofun, fun _ => ⟨q, hq, hseated⟩⟩⟩
  · refine ⟨fun heq => (haccords.2 _ heq).1 rfl, fun heq => (haccords.2 _ heq).2 rfl, ?_⟩
    rintro ⟨e, he, hseated⟩ t heq
    exact haccords.1 t heq e he hseated
  · obtain rfl := Stop.failure.inj h
    exact hcause trivial
  · obtain rfl := Stop.failure.inj h
    exact absurd trivial hcause

def seating : Method where
  selector := "m"
  body := [.send (.block [] [] [.int 1]) "ifTrue:" [.block [] [] [.int 2]]]

theorem compile_seats_seating :
    seating.compile [] = .error (.failure .blockNotResolved) ∧ ∃ e, seating.Keeps e ∧ e.Seated := by
  have hstops : (match seating.resolve [], seating.compile [] with
    | .ok _, .error (.failure .blockNotResolved) => true
    | _, _ => false) = true := by decide +kernel
  cases hr : seating.resolve [] with
  | error e => simp [hr] at hstops
  | ok r =>
    have hfails : seating.compile [] = .error (.failure .blockNotResolved) := by
      split at hstops
      · assumption
      · cases hstops
    exact ⟨hfails, (compile_seats hr).2.1 hfails⟩

end Method

end ObjectMachine
