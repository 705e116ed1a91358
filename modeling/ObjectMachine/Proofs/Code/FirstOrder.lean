import ObjectMachine.Proofs.Code.Compilation
import ObjectMachine.Proofs.Language.Plain

namespace ObjectMachine

namespace CodeUnit

structure Registered (u : CodeUnit) : Prop where
  covers : u.Covers 0
  plain : u.scopes.Plain
  kind : u.scope.kind = .method
  syncs : u.syncs = []

variable {u : CodeUnit} {env : Env} {names : List String} {name : String}

theorem Registered.firstTemp (hu : u.Registered) : u.firstTemp = u.scope.vars.size + 1 := by
  rw [CodeUnit.firstTemp, Scope.fixedRegisters, hu.syncs, List.length_nil]
  omega

theorem Registered.call (hu : u.Registered) (i : Instruction) : u.call i = [i] := by
  rw [CodeUnit.call, CodeUnit.sync, hu.syncs]
  rfl

/-- A known name is bound to a register. -/
theorem Registered.register (hu : u.Registered) {site : Binding}
    (henv : env.Knows names u.scope.vars.size) (hname : name ∈ names)
    (ho : u.scopes.Occurs 0 env name site) :
    ∃ index reg, env.innermost name = some (some ⟨0, index⟩) ∧ site = .register reg ∧
      reg.toNat = index + 1 ∧ index < u.scope.vars.size := by
  obtain ⟨index, hplace, hlt⟩ := henv.innermost (henv.names name hname)
  obtain ⟨reg, rfl, -, hreg, -⟩ := hu.plain.denotes hu.covers.coherent (ho.lexical _ hplace)
  exact ⟨index, reg, hplace, rfl, hreg, hlt⟩

/-- The last variable has a register, whose number is a byte. -/
theorem Registered.firstTemp_le (hu : u.Registered) : u.firstTemp ≤ maxRegisters := by
  rw [hu.firstTemp]
  cases hsize : u.scope.vars.size with
  | zero => decide
  | succ n =>
    have hlast : u.scope.vars[n]? = some u.scope.vars[n] := Array.getElem?_eq_getElem (by omega)
    have hreg := (hu.covers.coherent hu.covers.found).register hlast
    have hbyte := (u.scope.vars[n]).register.toNat_lt
    simp only [maxRegisters]
    omega

end CodeUnit

/-- All constants are integers with tagged words, and all registers have numbers. -/
structure Pool.Modest (p : Pool) : Prop where
  high : p.high ≤ maxRegisters
  literals : p.literals.size ≤ maxLiterals
  integers : ∀ c ∈ p.literals.toList, ∃ n, c = .integer n ∧ Value.Fits n

namespace Emit

variable {u : CodeUnit} {p p' : Pool}

theorem literal_modest {n : Int} {index : UInt8} (hp : p.Modest) (hn : Value.Fits n)
    (h : literal (.integer n) p = .ok index p') : p'.Modest := by
  simp only [literal, get_bind] at h
  cases hfind : p.literals.findIdx? (Constant.integer n).same with
  | some i =>
    simp only [hfind, pure_eq_ok] at h
    obtain ⟨-, rfl⟩ := h
    exact hp
  | none =>
    simp only [hfind, ite_eq_ok, bind_eq_ok, fail_eq_ok, false_and, exists_false, and_false,
      false_or, pure_eq_ok, modify_eq_ok] at h
    obtain ⟨hroom, -, _, rfl, -, rfl⟩ := h
    refine ⟨hp.high, ?_, fun c hc => ?_⟩
    · rw [Array.size_push]
      omega
    · simp only [Array.toList_push, List.mem_append, List.mem_singleton] at hc
      rcases hc with hc | rfl
      · exact hp.integers c hc
      · exact ⟨n, rfl, hn⟩

theorem allocTemp_modest {next : Nat} {reg : UInt8} (hp : p.Modest)
    (h : allocTemp next p = .ok reg p') : p'.Modest := by
  simp only [allocTemp, ite_eq_ok, bind_eq_ok, fail_eq_ok, false_and, exists_false, and_false,
    false_or, pure_eq_ok, modify_eq_ok] at h
  obtain ⟨hroom, -, _, rfl, -, rfl⟩ := h
  exact ⟨Nat.max_le.mpr ⟨hp.high, Nat.not_le.mp hroom⟩, hp.literals, hp.integers⟩

/-- Temporaries in registers need no constants. -/
theorem clearTemps_pool {temps : List (String × Binding)} {names : List String} {first : Nat}
    {code : List Instruction} (hu : u.Registered)
    (htemps : Temps u.scopes.Denotes 0 first names temps)
    (h : clearTemps temps p = .ok code p') : p = p' := by
  obtain ⟨-, htemps⟩ := htemps
  induction temps generalizing first code with
  | nil => exact (pure_eq_ok.mp h).2
  | cons temp rest ih =>
    obtain ⟨name, site⟩ := temp
    obtain ⟨reg, rfl, -⟩ := hu.plain.denotes hu.covers.coherent (htemps 0 name site rfl)
    simp only [clearTemps, store, bind_eq_ok, pure_eq_ok] at h
    obtain ⟨_, _, ⟨-, rfl⟩, code', _, hrest, -, rfl⟩ := h
    have htemps' : ∀ i name site, rest[i]? = some (name, site) →
        u.scopes.Denotes 0 ⟨0, first + 1 + i⟩ site := by
      intro i name site hi
      have := htemps (i + 1) name site hi
      rwa [← Nat.add_assoc, Nat.add_right_comm] at this
    exact ih hrest htemps'

/-- The code of a control structure is made of those of the receiver and the arms. -/
theorem control_keeps {P : Pool → Prop} {form : ControlForm} {receiver : Node Binding}
    {args : List (Node Binding)} {next : Nat} {code : List Instruction}
    (hreceiver : ∀ {code p'}, (if form.isLoop then Emit.inPlace u next receiver p
      else expr u next receiver p) = .ok code p' → P p')
    (harm : ∀ {index p p' code}, P p → arm u next index args p = .ok code p' → P p')
    (h : expr u next (.control form receiver args) p = .ok code p') : P p' := by
  cases form with
  | ifTrue | ifFalse | and =>
    simp only [expr, bind_eq_ok, pure_eq_ok] at h
    obtain ⟨first, p₁, hfirst, body, p₂, hbody, past, _, hpast, rfl, rfl⟩ := h
    obtain ⟨-, rfl⟩ := skip_eq_ok hpast
    exact harm (hreceiver hfirst) hbody
  | ifTrueIfFalse | ifFalseIfTrue =>
    simp only [expr, bind_eq_ok, pure_eq_ok] at h
    obtain ⟨first, p₁, hfirst, yes, p₂, hyes, past, _, hpast, no, p₃, hno, out, _, hout, rfl,
      rfl⟩ := h
    obtain ⟨-, rfl⟩ := skip_eq_ok hpast
    obtain ⟨-, rfl⟩ := skip_eq_ok hout
    exact harm (harm (hreceiver hfirst) hyes) hno
  | whileTrueDo | whileFalseDo =>
    simp only [expr, bind_eq_ok, pure_eq_ok] at h
    obtain ⟨first, p₁, hfirst, body, p₂, hbody, again, _, hagain, out, _, hout, rfl, rfl⟩ := h
    obtain ⟨-, rfl⟩ := back_eq_ok hagain
    obtain ⟨-, rfl⟩ := skip_eq_ok hout
    exact harm (hreceiver hfirst) hbody
  | whileTrue | whileFalse =>
    simp only [expr, bind_eq_ok, pure_eq_ok] at h
    obtain ⟨first, p₁, hfirst, again, _, hagain, rfl, rfl⟩ := h
    obtain ⟨-, rfl⟩ := back_eq_ok hagain
    exact hreceiver hfirst

mutual

theorem expr_modest {u : CodeUnit} {p p' : Pool} {env : Env} {names : List String} {e : Expr}
    {inPlace : Bool} {next : Nat} {code : List Instruction} (hu : u.Registered)
    (henv : env.Knows names u.scope.vars.size) (hp : p.Modest) (n : Node Binding)
    (hb : u.scopes.Binds 0 inPlace env e n) (he : FirstOrder names e)
    (h : expr u next n p = .ok code p') : p'.Modest := by
  match n, hb with
  | .literal _, .literal =>
    cases he with
    | integer =>
      simp only [expr, bind_eq_ok, pure_eq_ok, ofExcept_eq_ok, Constant.ofLiteral] at h
      obtain ⟨c, _, ⟨hc, rfl⟩, index, _, hindex, -, rfl⟩ := h
      split at hc <;> cases hc
      rename_i hfits
      exact literal_modest hp hfits hindex
  | .pseudo _, .pseudo =>
    simp only [expr, pure_eq_ok] at h
    exact h.2 ▸ hp
  | .variable _ _, .variable ho =>
    cases he with
    | «variable» hname =>
      obtain ⟨index, reg, -, rfl, -⟩ := hu.register henv hname ho
      simp only [expr, load, bind_eq_ok, pure_eq_ok] at h
      obtain ⟨_, _, ⟨-, rfl⟩, -, rfl⟩ := h
      exact hp
  | .assign _ _ value, .assign hb ho =>
    cases he with
    | assign hname hv =>
      obtain ⟨index, reg, -, rfl, -⟩ := hu.register henv hname ho
      simp only [expr, store, bind_eq_ok, pure_eq_ok] at h
      obtain ⟨code', _, hcode', _, _, ⟨-, rfl⟩, -, rfl⟩ := h
      exact expr_modest hu henv hp value hb hv hcode'
  | .ret value, .ret hb =>
    cases he with
    | ret hv =>
      simp only [expr, bind_eq_ok, hu.kind, pure_eq_ok] at h
      obtain ⟨code', _, hcode', -, rfl⟩ := h
      exact expr_modest hu henv hp value hb hv hcode'
  | .send receiver _ args, .send hnone hr' hargs =>
    cases he with
    | operator hop hr ha =>
      match args, hargs with
      | [arg], .cons ha' .nil =>
        obtain ⟨first, p₁, hfirst, ⟨op', reg, p₂, rest, regs, -, -, hreg, hrest, -⟩ |
          ⟨_, _, _, hzero, _⟩ | ⟨_, _, _, _, _, _, _, _, hsome, _⟩⟩ := expr_send_cases h
        · simp only [operands, bind_eq_ok, List.isEmpty_nil, if_true, pure_eq_ok] at hrest
          obtain ⟨_, _, hrest, -, rfl⟩ := hrest
          have hp₂ := allocTemp_modest (expr_modest hu henv hp receiver hr' hr hfirst) hreg
          exact expr_modest hu henv hp₂ arg ha' ha hrest
        · cases hzero
        · simp [hop] at hsome
    | conditional hform hloop _ _ hblocks =>
      rw [ControlForm.recognize_conditional hform hloop hblocks] at hnone
      cases hnone
    | loop hform _ _ hblocks =>
      rw [ControlForm.recognize_loop hform hblocks] at hnone
      cases hnone
  | .control form receiver args, .control hsome hr' hargs' =>
    cases he with
    | operator hop =>
      rw [ControlForm.recognize_operator hop] at hsome
      cases hsome
    | conditional hform hloop _ hr hargs =>
      rw [ControlForm.recognize_conditional hform hloop hargs] at hsome
      cases hsome
      refine control_keeps (fun hfirst => ?_) (fun hp' harm => ?_) h
      · simp only [hloop, Bool.false_eq_true, if_false] at hfirst
        exact expr_modest hu henv hp receiver hr' hr hfirst
      · exact arm_modest hu henv hp' args hargs' hargs harm
    | loop hform hloop _ hblocks =>
      rw [ControlForm.recognize_loop hform hblocks] at hsome
      cases hsome
      refine control_keeps (fun hfirst => ?_) (fun hp' harm => ?_) h
      · simp only [hloop, if_true] at hfirst
        exact inPlace_modest hu henv hp receiver hr' hblocks hfirst
      · cases hblocks with
        | cons _ hargs => exact arm_modest hu henv hp' args hargs' hargs harm
  | .superSend .., hb' | .closure .., hb' | .inlined .., hb' | .primitive .., hb' =>
    cases hb'
    cases he
termination_by structural n

theorem arm_modest {u : CodeUnit} {p p' : Pool} {env : Env} {names : List String}
    {es : List Expr} {next index : Nat} {code : List Instruction} (hu : u.Registered)
    (henv : env.Knows names u.scope.vars.size) (hp : p.Modest) (ns : List (Node Binding))
    (hb : u.scopes.BindsAll 0 true env es ns) (he : FirstOrderBlocks names es)
    (h : arm u next index ns p = .ok code p') : p'.Modest := by
  match ns, hb with
  | [], _ => simp only [arm, fault_eq_ok] at h
  | n :: ns, .cons hn hns =>
    simp only [arm, ite_eq_ok] at h
    rcases h with ⟨-, h⟩ | ⟨-, h⟩
    · exact inPlace_modest hu henv hp n hn he h
    · cases he with
      | cons _ hrest => exact arm_modest hu henv hp ns hns hrest h
termination_by structural ns

theorem inPlace_modest {u : CodeUnit} {p p' : Pool} {env : Env} {names : List String} {e : Expr}
    {rest : List Expr} {next : Nat} {code : List Instruction} (hu : u.Registered)
    (henv : env.Knows names u.scope.vars.size) (hp : p.Modest) (n : Node Binding)
    (hb : u.scopes.Binds 0 true env e n) (he : FirstOrderBlocks names (e :: rest))
    (h : inPlace u next n p = .ok code p') : p'.Modest := by
  match n, hb with
  | .inlined first temps' body', .inlined hi htemps hbinds =>
    cases he with
    | cons hbody _ =>
      simp only [inPlace, bind_eq_ok, pure_eq_ok] at h
      obtain ⟨clear, p₁, hclear, code', _, hcode', -, rfl⟩ := h
      obtain rfl := Option.some.inj (hu.covers.found.symm.trans hi.found)
      obtain rfl := clearTemps_pool hu htemps hclear
      exact statements_modest hu (henv.declare hi.size hi.above) hp body' hbinds hbody hcode'
  | .literal _, _ | .pseudo _, _ | .variable .., _ | .assign .., _ | .send .., _ | .control .., _
  | .superSend .., _ | .closure .., _ | .ret _, _ | .primitive .., _ =>
    simp only [inPlace, fail_eq_ok] at h
termination_by structural n

theorem statements_modest {u : CodeUnit} {p p' : Pool} {env : Env} {names : List String}
    {es : List Expr} {next : Nat} {code : List Instruction} (hu : u.Registered)
    (henv : env.Knows names u.scope.vars.size) (hp : p.Modest) (ns : List (Node Binding))
    (hb : u.scopes.BindsAll 0 false env es ns) (he : FirstOrderAll names es)
    (h : statements u next ns p = .ok code p') : p'.Modest := by
  match ns, hb with
  | [], _ =>
    simp only [statements, pure_eq_ok] at h
    exact h.2 ▸ hp
  | n :: ns, .cons hn hns =>
    cases he with
    | cons he hes =>
      simp only [statements, bind_eq_ok, pure_eq_ok] at h
      obtain ⟨first, p₁, hfirst, rest, _, hrest, -, rfl⟩ := h
      exact statements_modest hu henv (expr_modest hu henv hp n hn he hfirst) ns hns hes hrest
termination_by structural ns

end

end Emit

theorem CodeUnit.create_registered {scopes : ScopeTree} {selector : String} {u : CodeUnit}
    {s : Scope} (coherent : scopes.Coherent) (hplain : scopes.Plain)
    (hs : scopes.scopes[0]? = some s) (hkind : s.kind = .method)
    (h : create scopes 0 selector = .ok u) : u.Registered := by
  obtain ⟨hcovers, hscopes, hscope⟩ := create_spec coherent hs h
  have ⟨s', hs', _, hempty⟩ := hplain
  obtain rfl := Option.some.inj (hs.symm.trans hs')
  have hnone : (scopes.scope 0).chained = [] := by
    rw [ScopeTree.scope_eq hs, Scope.chained, hempty]
    rfl
  simp only [create, hnone, assignSyncs, bind, Except.bind, pure, Except.pure] at h
  cases h
  exact ⟨hcovers, hplain, hscope ▸ hkind, rfl⟩

theorem CodeUnit.Registered.prologue {u : CodeUnit} (hu : u.Registered) : u.prologue = [] := by
  obtain ⟨s, hs, -, hempty⟩ := hu.plain
  obtain rfl := Option.some.inj (hu.covers.found.symm.trans hs)
  rw [CodeUnit.prologue, hu.syncs, hempty]
  rfl

structure CodeUnit.Renders (u : CodeUnit) (m : Method) (ns : List (Node Binding))
    (code : List Instruction) (p : Pool) : Prop extends u.Registered where
  args : u.scope.args = m.params.length
  size : m.params.length + m.temps.length ≤ u.scope.vars.size
  binds : u.scopes.BindsAll 0 false (Env.declare [] 0 0 (m.params ++ m.temps)) m.body ns
  emitted : Emit.statements u u.firstTemp ns { high := u.firstTemp } = .ok code p

theorem CodeUnit.Renders.knows {u : CodeUnit} {m : Method} {ns : List (Node Binding)}
    {code : List Instruction} {p : Pool} (h : u.Renders m ns code p) :
    (Env.declare [] 0 0 (m.params ++ m.temps)).Knows (m.params ++ m.temps) u.scope.vars.size := by
  have hempty : Env.Knows [] [] u.scope.vars.size :=
    ⟨⟨fun _ hmem => (List.not_mem_nil hmem).elim, List.nodup_nil⟩,
      fun _ hmem => (List.not_mem_nil hmem).elim⟩
  have hsize : 0 + (m.params ++ m.temps).length ≤ u.scope.vars.size := by
    simpa using h.size
  have hknows := hempty.declare hsize fun _ _ hmem => (List.not_mem_nil hmem).elim
  rwa [List.append_nil] at hknows

theorem CodeUnit.Renders.modest {u : CodeUnit} {m : Method} {ns : List (Node Binding)}
    {code : List Instruction} {p : Pool} (hm : m.FirstOrder) (h : u.Renders m ns code p) :
    p.Modest := by
  have hstart : Pool.Modest { high := u.firstTemp } :=
    ⟨h.firstTemp_le, Nat.zero_le _, fun _ hmem => nomatch hmem⟩
  exact Emit.statements_modest h.toRegistered h.knows hstart ns h.binds hm h.emitted

theorem Method.compile_renders {m : Method} {instanceVariables : List String} {t : CodeTemplate}
    (hm : m.FirstOrder) (h : m.compile instanceVariables = .ok t) :
    ∃ u ns code p, CodeUnit.Renders u m ns code p ∧
      t = u.template (code ++ if m.endsWithReturn then [] else [.returnSelf]) p := by
  obtain ⟨r, hr, hcompile⟩ := resolve_of_compile h
  obtain ⟨s, hf⟩ := resolve_follows hr
  have hplain := resolve_plain hm hr
  rw [ResolvedMethod.compile] at hcompile
  cases hu : CodeUnit.create r.scopes 0 r.selector with
  | error e => simp [hu] at hcompile
  | ok u =>
    have hregistered := CodeUnit.create_registered hf.coherent hplain hf.found hf.kind hu
    obtain ⟨-, hscopes, hscope⟩ := CodeUnit.create_spec hf.coherent hf.found hu
    cases hcode : Emit.statements u u.firstTemp r.body { high := u.firstTemp } with
    | error e p => simp [hu, hcode] at hcompile
    | ok code p =>
      simp only [hu, hcode, hregistered.prologue, List.nil_append, hf.endsWithReturn,
        Except.ok.injEq] at hcompile
      exact ⟨u, r.body, code, p, ⟨hregistered, hscope ▸ hf.args, hscope ▸ hf.size,
        hscopes ▸ hf.body, hcode⟩, hcompile.symm⟩

end ObjectMachine
