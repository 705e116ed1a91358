import ObjectMachine.Proofs.Code.Emission

namespace ObjectMachine

namespace CodeUnit

variable {u : CodeUnit} {p p₁ p₂ p₃ : Pool} {a b c : List Instruction} {i : Instruction}
  {past out : Int16}

theorem Stocks.branch_fills (hs : u.Stocks p) (hi : i.offset? = some past) :
    u.Fills p [i] p := by
  refine hs.fills_singleton ?_
  cases i with
  | jump | branchIfFalse | branchIfTrue => trivial
  | _ => cases hi

theorem Emits.guarded (ha : u.Emits p a p₁) (hb : u.Emits p₁ b p₂) (hi : i.offset? = some past)
    (hpast : past.toInt = codeLength b) : u.Emits p (a ++ [i] ++ b) p₂ :=
  ⟨(ha.toFills.append (ha.stocks.branch_fills hi)).append hb.toFills,
    branches_guarded ha.branches hb.branches hi hpast⟩

theorem Emits.either (ha : u.Emits p a p₁) (hb : u.Emits p₁ b p₂) (hc : u.Emits p₂ c p₃)
    (hi : i.offset? = some past) (hpast : past.toInt = codeLength b + 3)
    (hout : out.toInt = codeLength c) : u.Emits p (a ++ [i] ++ b ++ [.jump out] ++ c) p₃ := by
  have hjump : u.Fills p₂ [.jump out] p₂ := hb.stocks.branch_fills rfl
  exact ⟨(((ha.toFills.append (ha.stocks.branch_fills hi)).append hb.toFills).append hjump).append
    hc.toFills, branches_either ha.branches hb.branches hc.branches hi hpast hout⟩

theorem Emits.loop (ha : u.Emits p a p₁) (hb : u.Emits p₁ b p₂) (hi : i.offset? = some past)
    (hpast : past.toInt = codeLength b + 3)
    (hout : out.toInt = -(codeLength a + 3 + codeLength b + 3)) :
    u.Emits p (a ++ [i] ++ b ++ [.jump out] ++ [.loadNil]) p₂ := by
  have hjump : u.Fills p₂ [.jump out] p₂ := hb.stocks.branch_fills rfl
  have hnil : u.Fills p₂ [.loadNil] p₂ := hb.stocks.fills_singleton trivial
  exact ⟨(((ha.toFills.append (ha.stocks.branch_fills hi)).append hb.toFills).append hjump).append
    hnil, branches_loop ha.branches hb.branches hi hpast hout⟩

theorem Emits.repeated (ha : u.Emits p a p₁) (hi : i.offset? = some past)
    (hpast : past.toInt = -(codeLength a + 3)) : u.Emits p (a ++ [i] ++ [.loadNil]) p₁ := by
  have hnil : u.Fills p₁ [.loadNil] p₁ := ha.stocks.fills_singleton trivial
  exact ⟨(ha.toFills.append (ha.stocks.branch_fills hi)).append hnil,
    branches_until ha.branches hi hpast⟩

end CodeUnit

namespace Emit

/-- How a send is compiled: as an operator, as a message without arguments, or with the receiver
and the arguments in registers. -/
theorem expr_send_cases {u : CodeUnit} {next : Nat} {receiver : Node Binding} {selector : String}
    {args : List (Node Binding)} {code : List Instruction} {p p' : Pool}
    (h : expr u next (.send receiver selector args) p = .ok code p') :
    ∃ first p₁, expr u next receiver p = .ok first p₁ ∧
      ((∃ op reg p₂ rest regs, BinaryOp.ofSelector? selector = some op ∧ args.length = 1 ∧
        allocTemp next p₁ = .ok reg p₂ ∧ operands u (next + 1) args p₂ = .ok (rest, regs) p' ∧
        code = first ++ [.storeRegister reg] ++ rest ++ u.call (.binaryOp reg op)) ∨
      (∃ regs p₂ index, args.length = 0 ∧ argRegisters [] p₁ = .ok regs p₂ ∧
        symbol selector p₂ = .ok index p' ∧ code = first ++ u.call (.send index regs)) ∨
      (∃ reg p₂ rest regs p₃ args' p₄ index, ¬(args.length = 1 ∧
        (BinaryOp.ofSelector? selector).isSome) ∧
        allocTemp next p₁ = .ok reg p₂ ∧
        stashAll u (next + 1) args p₂ = .ok (rest, regs) p₃ ∧ argRegisters regs p₃ = .ok args' p₄ ∧
        symbol selector p₄ = .ok index p' ∧
        code = first ++ [.storeRegister reg] ++ rest ++ [.loadRegister reg] ++
          u.call (.send index args'))) := by
  simp only [expr, bind_eq_ok] at h
  obtain ⟨first, p₁, hreceiver, h⟩ := h
  refine ⟨first, p₁, hreceiver, ?_⟩
  cases hop : BinaryOp.ofSelector? selector <;> rcases hlength : args.length with _ | _ | count
  case some.succ.zero op =>
    simp only [hop, hlength, bind_eq_ok, pure_eq_ok] at h
    obtain ⟨reg, p₂, hreg, ⟨rest, regs⟩, _, hrest, rfl, rfl⟩ := h
    exact .inl ⟨op, reg, p₂, rest, regs, rfl, rfl, hreg, hrest, rfl⟩
  case none.zero | some.zero =>
    · simp only [hop, hlength, bind_eq_ok, pure_eq_ok] at h
      obtain ⟨regs, p₂, hregs, index, _, hindex, rfl, rfl⟩ := h
      exact .inr (.inl ⟨regs, p₂, index, rfl, hregs, hindex, rfl⟩)
  case none.succ.zero =>
    simp only [hop, hlength, bind_eq_ok, ite_eq_ok, fail_eq_ok, false_and, exists_false,
      and_false, false_or, pure_eq_ok] at h
    obtain ⟨reg, p₂, hreg, -, ⟨rest, regs⟩, p₃, hrest, args', p₄, hargs, index, _, hindex, rfl,
      rfl⟩ := h
    exact .inr (.inr ⟨reg, p₂, rest, regs, p₃, args', p₄, index, by simp, hreg, hrest, hargs,
      hindex, rfl⟩)
  case none.succ.succ | some.succ.succ =>
    · simp only [hop, hlength, bind_eq_ok, ite_eq_ok, fail_eq_ok, false_and, exists_false,
        and_false, false_or, pure_eq_ok] at h
      obtain ⟨reg, p₂, hreg, -, ⟨rest, regs⟩, p₃, hrest, args', p₄, hargs, index, _, hindex, rfl,
        rfl⟩ := h
      exact .inr (.inr ⟨reg, p₂, rest, regs, p₃, args', p₄, index, by simp, hreg, hrest, hargs,
        hindex, rfl⟩)

structure Stashes (u : CodeUnit) (p : Pool) (code : List Instruction) (regs : List UInt8)
    (p' : Pool) : Prop extends u.Emits p code p' where
  bound : ∀ reg ∈ regs, reg.toNat < (u.frame p').registers

theorem Stashes.nil {u : CodeUnit} {p : Pool} (hs : u.Stocks p) : Stashes u p [] [] p :=
  ⟨hs.emits_nil, fun _ hmem => nomatch hmem⟩

/-- A value that is put into the next register, and those after it. -/
theorem Stashes.cons {u : CodeUnit} {p p₁ p₂ p' : Pool} {next : Nat}
    {code rest : List Instruction} {reg : UInt8} {regs : List UInt8} (h : u.Emits p code p₁)
    (hreg : allocTemp next p₁ = .ok reg p₂) (hrest : Stashes u p₂ rest regs p') :
    Stashes u p (code ++ [.storeRegister reg] ++ rest) (reg :: regs) p' := by
  obtain ⟨-, -, -, hs₂, hg⟩ := allocTemp_spec h.stocks hreg
  have hlt := allocTemp_lt h.stocks hreg
  have hstore : u.Emits p₂ [.storeRegister reg] p₂ := hs₂.emits_singleton hlt rfl
  refine ⟨(h.append (.after hg hstore)).append hrest.toEmits, fun reg' hmem => ?_⟩
  rcases List.mem_cons.mp hmem with rfl | hmem
  · exact Nat.lt_of_lt_of_le hlt hrest.grows.high
  · exact hrest.bound reg' hmem

theorem loadSelf_emits {u : CodeUnit} {p : Pool} (hs : u.Stocks p) :
    u.Emits p [.loadRegister 0] p := by
  have hzero : (0 : UInt8).toNat < u.firstTemp := by
    rw [CodeUnit.firstTemp, Scope.fixedRegisters, UInt8.toNat_zero]
    omega
  exact hs.emits_singleton (hs.register_lt hzero) rfl

theorem primitiveV_fits {f : Frame} {prim : Primitive} {next count : Nat}
    (harity : prim.arity = .variadic)
    (h : 0 < count → next + count ≤ maxRegisters ∧ next + count ≤ f.registers) :
    (Instruction.primitiveV prim.index.toUInt8 next.toUInt8 count.toUInt8).Fits f := by
  refine ⟨⟨prim, prim.ofIndex?_index, harity⟩, fun k hk => ?_⟩
  have hcount : count.toUInt8.toNat ≤ count := Nat.mod_le ..
  obtain ⟨hroom, hhigh⟩ := h (by omega)
  have hnext : next.toUInt8.toNat = next :=
    ScopeTree.toNat_size_toUInt8 (Nat.lt_of_lt_of_le (by omega) hroom)
  omega

theorem emits_or_nil {u : CodeUnit} {p p' : Pool} {code : List Instruction}
    (body : List (Node Binding)) (h : u.Emits p code p') :
    u.Emits p (if body.isEmpty then [.loadNil] else code) p' := by
  split
  · exact .after h.grows (h.stocks.emits_singleton trivial rfl)
  · exact h

mutual

theorem expr_emits {u : CodeUnit} {p p' : Pool} {id next : Nat} {inPlace : Bool} {env : Env}
    {e : Expr} {code : List Instruction} (hu : u.Covers id) (hs : u.Stocks p) (n : Node Binding)
    (hb : u.scopes.Binds id inPlace env e n) (h : expr u next n p = .ok code p') :
    u.Emits p code p' := by
  match n, hb with
  | .literal value, _ =>
    simp only [expr, bind_eq_ok, pure_eq_ok, ofExcept_eq_ok] at h
    obtain ⟨c, _, ⟨hc, rfl⟩, index, _, hindex, rfl, rfl⟩ := h
    have hkind := Constant.isBlock_ofLiteral hc
    obtain ⟨hs', hg, c', hc', hsame⟩ :=
      literal_spec hs (fun t ht => by rw [ht] at hkind; cases hkind) hindex
    have hkind' : c'.isBlock = false := by
      rcases hsame with rfl | hsame
      · exact hkind
      · exact Constant.isBlock_of_same hsame
    have hfits : (Instruction.loadLiteral index).Fits (u.frame _) := ⟨c', hc', hkind'⟩
    exact .after hg (hs'.emits_singleton hfits rfl)
  | .pseudo which, _ =>
    simp only [expr, pure_eq_ok] at h
    obtain ⟨rfl, rfl⟩ := h
    cases which with
    | self => exact loadSelf_emits hs
    | nil | true | false | thisContext | globals => exact hs.emits_singleton trivial rfl
  | .variable name b, .variable ho =>
    simp only [expr, bind_eq_ok, pure_eq_ok] at h
    obtain ⟨i, _, hload, rfl, rfl⟩ := h
    exact access_emits hs (hu.reaches ho) (.inl hload)
  | .assign name b value, .assign hv ho =>
    simp only [expr, bind_eq_ok, pure_eq_ok] at h
    obtain ⟨code', p₁, hvalue, i, _, hstore, rfl, rfl⟩ := h
    have hcode := expr_emits hu hs value hv hvalue
    exact hcode.append (access_emits hcode.stocks (hu.reaches ho) (.inr hstore))
  | .send receiver selector args, .send _ hr hargs =>
    obtain ⟨first, p₁, hfirst, ⟨op, reg, p₂, rest, regs, -, -, hreg, hrest, rfl⟩ |
      ⟨regs, p₂, index, -, hregs, hindex, rfl⟩ |
      ⟨reg, p₂, rest, regs, p₃, args', p₄, index, -, hreg, hrest, hregs, hindex, rfl⟩⟩ :=
        expr_send_cases h
    · have hcode := expr_emits hu hs receiver hr hfirst
      obtain ⟨-, -, -, hs₂, -⟩ := allocTemp_spec hcode.stocks hreg
      have hops := Stashes.cons hcode hreg (operands_stashes hu hs₂ args hargs hrest).1
      have hlt := hops.bound reg (.head _)
      exact hops.toEmits.append (hu.call_emits hops.stocks hlt rfl)
    · have hcode := expr_emits hu hs receiver hr hfirst
      obtain ⟨hnone, rfl⟩ := argRegisters_eq_ok hregs
      obtain ⟨hs', hg, hnames⟩ := symbol_spec hcode.stocks hindex
      have hfits : (Instruction.send index regs).Fits (u.frame p') :=
        ⟨hnames, fun reg hmem => by rw [hnone] at hmem; cases hmem⟩
      exact hcode.append (.after hg (hu.call_emits hs' hfits rfl))
    · have hcode := expr_emits hu hs receiver hr hfirst
      obtain ⟨-, -, -, hs₂, -⟩ := allocTemp_spec hcode.stocks hreg
      have hops := Stashes.cons hcode hreg (stashAll_stashes hu hs₂ args hargs hrest).1
      obtain ⟨hsome, rfl⟩ := argRegisters_eq_ok hregs
      obtain ⟨hs', hg, hnames⟩ := symbol_spec hops.stocks hindex
      have hlt : ∀ r ∈ reg :: regs, r.toNat < (u.frame p').registers :=
        fun r hmem => Nat.lt_of_lt_of_le (hops.bound r hmem) hg.high
      have hload : u.Emits p₃ [.loadRegister reg] p₃ :=
        hops.stocks.emits_singleton (hops.bound reg (.head _)) rfl
      have hfits : (Instruction.send index args').Fits (u.frame p') :=
        ⟨hnames, fun r hmem => hlt r (.tail _ (hsome ▸ hmem))⟩
      exact (hops.toEmits.append hload).append (.after hg (hu.call_emits hs' hfits rfl))
  | .superSend selector args, .superSend hargs =>
    simp only [expr, ite_eq_ok, bind_eq_ok, fail_eq_ok, false_and, exists_false, and_false,
      false_or, pure_eq_ok] at h
    obtain ⟨-, ⟨rest, regs⟩, p₁, hrest, args', p₂, hregs, index, _, hindex, rfl, rfl⟩ := h
    have hops := (stashAll_stashes hu hs args hargs hrest).1
    obtain ⟨hsome, rfl⟩ : args'.regs = regs ∧ p₁ = p₂ := argRegisters_eq_ok hregs
    obtain ⟨hs', hg, hnames⟩ := symbol_spec hops.stocks hindex
    have hfits : (Instruction.sendSuper index args').Fits (u.frame _) :=
      ⟨hnames, fun r hmem => Nat.lt_of_lt_of_le (hops.bound r (hsome ▸ hmem)) hg.high⟩
    exact (hops.toEmits.append (loadSelf_emits hops.stocks)).append
      (.after hg (hu.call_emits hs' hfits rfl))
  | .closure scope params temps body, .closure ho ht hbody =>
    simp only [expr, bind_eq_ok, ofExcept_eq_ok, get_eq_ok, set_eq_ok, pure_eq_ok] at h
    obtain ⟨inner, _, ⟨hinner, rfl⟩, _, _, ⟨rfl, rfl⟩, -, _, rfl, code', pool, hcode', _, _,
      ⟨rfl, rfl⟩, -, _, rfl, index, p₁, hindex, rfl, rfl⟩ := h
    obtain ⟨hcovers, hscopes, hscope⟩ := CodeUnit.create_spec hu.coherent ho.found hinner
    have hbody' := statements_emits hcovers inner.stocks_empty body (hscopes ▸ hbody) hcode'
    have houter : inner.outer = u.scope.heapVars.size := by
      simp only [CodeUnit.outer, hscope, ho.parent, hscopes, ScopeTree.scope_eq hu.found]
    have hwhole := ((hcovers.prologue_emits inner.stocks_empty).append
      (emits_or_nil body hbody')).append (hcovers.restores_emits hbody'.stocks)
    have hwell := hcovers.template_wellFormed (.inl rfl) hwhole
    rw [houter] at hwell
    obtain ⟨hs', hg, c, hc, hsame⟩ := literal_spec hs
      (fun t ht => Constant.block.inj ht ▸ hwell) hindex
    have hfits : (Instruction.copyBlock index).Fits (u.frame p₁) := by
      rcases hsame with rfl | hsame
      · exact ⟨_, hc⟩
      · simp [Constant.same] at hsame
    exact .after hg (hs'.emits_singleton hfits rfl)
  | .inlined first temps body, .inlined .. =>
    simp only [expr, fail_eq_ok] at h
  | .ret value, .ret hv =>
    simp only [expr, bind_eq_ok] at h
    obtain ⟨code', p₁, hvalue, h⟩ := h
    have hcode := expr_emits hu hs value hv hvalue
    cases hkind : u.scope.kind with
    | method =>
      simp only [hkind, pure_eq_ok] at h
      obtain ⟨rfl, rfl⟩ := h
      exact hcode.append (hcode.stocks.emits_singleton trivial rfl)
    | block =>
      simp only [hkind, bind_eq_ok, pure_eq_ok] at h
      obtain ⟨reg, p₂, hreg, index, p₃, hindex, regs, _, hregs, rfl, rfl⟩ := h
      obtain ⟨-, -, -, hs₂, -⟩ := allocTemp_spec hcode.stocks hreg
      have hstash := Stashes.cons hcode hreg (.nil hs₂)
      obtain ⟨hs', hg, hnames⟩ := symbol_spec hs₂ hindex
      obtain ⟨hsome, rfl⟩ := argRegisters_eq_ok hregs
      have hfits : (Instruction.send index regs).Fits (u.frame p₃) :=
        ⟨hnames, fun r hmem => Nat.lt_of_lt_of_le (hstash.bound r (hsome ▸ hmem)) hg.high⟩
      have hcontext : u.Emits p₃ [.loadThisContext] p₃ := hs'.emits_singleton trivial rfl
      rw [List.append_nil] at hstash
      exact (hstash.toEmits.append (hu.restores_emits hs₂)).append
        (.after hg (hcontext.append (hs'.emits_singleton hfits rfl)))
  | .primitive name args, .primitive hargs =>
    simp only [expr, bind_eq_ok] at h
    obtain ⟨prim, p₁, hprim, h⟩ := h
    obtain ⟨rfl, harity⟩ := findPrimitive_eq_ok hprim
    simp only [ite_eq_ok, bind_eq_ok, fail_eq_ok, false_and, exists_false, and_false, false_or,
      pure_eq_ok] at h
    rcases h with ⟨⟨hfixed, -⟩, ⟨rest, regs⟩, _, hrest, rfl, rfl⟩ |
      ⟨hmany, -, ⟨rest, regs⟩, _, hrest, rfl, rfl⟩
    · obtain ⟨hstash, hlength⟩ := operands_stashes hu hs args hargs hrest
      have hcount := harity.resolve_right hfixed
      exact hstash.toEmits.append (hu.call_emits hstash.stocks
        (directCall_fits hcount hlength hstash.bound) (offset?_directCall ..))
    · obtain ⟨hstash, hlength, hlast⟩ := stashAll_stashes hu hs args hargs hrest
      have hvariadic : prim.arity = .variadic := by
        rcases harity with hfixed | hvariadic
        · have hsmall := Primitive.arity_le_three hfixed
          simp only [hfixed, ne_eq, reduceCtorEq, not_false_eq_true, true_and] at hmany
          exact absurd hsmall hmany
        · exact hvariadic
      exact hstash.toEmits.append (hu.call_emits hstash.stocks
        (primitiveV_fits hvariadic hlast) rfl)
  | .control form receiver args, .control _ hr hargs =>
    cases form with
    | ifTrue | ifFalse =>
      simp only [expr, bind_eq_ok, pure_eq_ok] at h
      obtain ⟨first, p₁, hfirst, body, p₂, hbody, past, _, hpast, rfl, rfl⟩ := h
      obtain ⟨hpast, rfl⟩ := skip_eq_ok hpast
      have hcode := expr_emits hu hs receiver hr hfirst
      have harm := arm_emits hu hcode.stocks args hargs hbody
      have hnil : u.Emits p₂ [.loadNil] p₂ := harm.stocks.emits_singleton trivial rfl
      rw [List.append_cons]
      exact hcode.either harm hnil (offset?_leaving ..) (by omega) rfl
    | ifTrueIfFalse | ifFalseIfTrue =>
      simp only [expr, bind_eq_ok, pure_eq_ok] at h
      obtain ⟨first, p₁, hfirst, yes, p₂, hyes, past, _, hpast, no, p₃, hno, out, _, hout, rfl,
        rfl⟩ := h
      obtain ⟨hpast, rfl⟩ := skip_eq_ok hpast
      obtain ⟨hout, rfl⟩ := skip_eq_ok hout
      have hcode := expr_emits hu hs receiver hr hfirst
      have harm := arm_emits hu hcode.stocks args hargs hyes
      exact hcode.either harm (arm_emits hu harm.stocks args hargs hno) (offset?_leaving ..)
        (by omega) (by omega)
    | and =>
      simp only [expr, bind_eq_ok, pure_eq_ok] at h
      obtain ⟨first, p₁, hfirst, body, p₂, hbody, past, _, hpast, rfl, rfl⟩ := h
      obtain ⟨hpast, rfl⟩ := skip_eq_ok hpast
      have hcode := expr_emits hu hs receiver hr hfirst
      exact hcode.guarded (arm_emits hu hcode.stocks args hargs hbody) (offset?_leaving ..)
        (by omega)
    | whileTrueDo | whileFalseDo =>
      simp only [expr, bind_eq_ok, pure_eq_ok] at h
      obtain ⟨first, p₁, hfirst, body, p₂, hbody, again, _, hagain, out, _, hout, rfl, rfl⟩ := h
      obtain ⟨hagain, rfl⟩ := back_eq_ok hagain
      obtain ⟨hout, rfl⟩ := skip_eq_ok hout
      have hcode := inPlace_emits hu hs receiver hr hfirst
      rw [List.append_cons]
      exact hcode.loop (arm_emits hu hcode.stocks args hargs hbody) (offset?_leaving ..)
        (by omega) (by omega)
    | whileTrue | whileFalse =>
      simp only [expr, bind_eq_ok, pure_eq_ok] at h
      obtain ⟨first, p₁, hfirst, again, _, hagain, rfl, rfl⟩ := h
      obtain ⟨hagain, rfl⟩ := back_eq_ok hagain
      rw [List.append_cons]
      exact (inPlace_emits hu hs receiver hr hfirst).repeated rfl (by omega)
termination_by structural n

theorem statements_emits {u : CodeUnit} {p p' : Pool} {id next : Nat} {env : Env}
    {es : List Expr} {code : List Instruction} (hu : u.Covers id) (hs : u.Stocks p)
    (ns : List (Node Binding)) (hb : u.scopes.BindsAll id false env es ns)
    (h : statements u next ns p = .ok code p') : u.Emits p code p' := by
  match ns, hb with
  | [], _ =>
    simp only [statements, pure_eq_ok] at h
    obtain ⟨rfl, rfl⟩ := h
    exact hs.emits_nil
  | n :: ns, .cons hn hns =>
    simp only [statements, bind_eq_ok, pure_eq_ok] at h
    obtain ⟨code', p₁, hfirst, code'', _, hrest, rfl, rfl⟩ := h
    have hcode := expr_emits hu hs n hn hfirst
    exact hcode.append (statements_emits hu hcode.stocks ns hns hrest)
termination_by structural ns

theorem stashAll_stashes {u : CodeUnit} {p p' : Pool} {id next : Nat} {env : Env}
    {es : List Expr} {code : List Instruction} {regs : List UInt8} (hu : u.Covers id)
    (hs : u.Stocks p) (ns : List (Node Binding)) (hb : u.scopes.BindsAll id false env es ns)
    (h : stashAll u next ns p = .ok (code, regs) p') : Stashes u p code regs p' ∧
      regs.length = ns.length ∧
      (0 < regs.length → next + regs.length ≤ maxRegisters ∧ next + regs.length ≤ p'.high) := by
  match ns, hb with
  | [], _ =>
    simp only [stashAll, pure_eq_ok, Prod.mk.injEq] at h
    obtain ⟨⟨rfl, rfl⟩, rfl⟩ := h
    exact ⟨.nil hs, rfl, fun h => absurd h (Nat.lt_irrefl 0)⟩
  | n :: ns, .cons hn hns =>
    simp only [stashAll, bind_eq_ok, pure_eq_ok] at h
    obtain ⟨code', p₁, hfirst, reg, p₂, hreg, ⟨rest, regs'⟩, _, hrest, heq, rfl⟩ := h
    cases heq
    have hcode := expr_emits hu hs n hn hfirst
    obtain ⟨-, hroom, hhigh, hs₂, -⟩ := allocTemp_spec hcode.stocks hreg
    obtain ⟨hstash, hlength, hlast⟩ := stashAll_stashes hu hs₂ ns hns hrest
    refine ⟨.cons hcode hreg hstash, congrArg (· + 1) hlength, fun _ => ?_⟩
    have hgrows := hstash.grows.high
    rw [List.length_cons]
    cases regs' with
    | nil => exact ⟨hroom, Nat.le_trans hhigh hgrows⟩
    | cons reg' regs' =>
      have := hlast (Nat.succ_pos _)
      dsimp only at this ⊢
      omega
termination_by structural ns

theorem operands_stashes {u : CodeUnit} {p p' : Pool} {id next : Nat} {env : Env}
    {es : List Expr} {code : List Instruction} {regs : List UInt8} (hu : u.Covers id)
    (hs : u.Stocks p) (ns : List (Node Binding)) (hb : u.scopes.BindsAll id false env es ns)
    (h : operands u next ns p = .ok (code, regs) p') :
    Stashes u p code regs p' ∧ regs.length = ns.length - 1 := by
  match ns, hb with
  | [], _ =>
    simp only [operands, pure_eq_ok, Prod.mk.injEq] at h
    obtain ⟨⟨rfl, rfl⟩, rfl⟩ := h
    exact ⟨.nil hs, rfl⟩
  | [n], .cons hn _ =>
    simp only [operands, bind_eq_ok, List.isEmpty_nil, if_true, pure_eq_ok, Prod.mk.injEq] at h
    obtain ⟨code', _, hfirst, ⟨rfl, rfl⟩, rfl⟩ := h
    exact ⟨⟨expr_emits hu hs n hn hfirst, fun _ hmem => nomatch hmem⟩, rfl⟩
  | n :: n' :: ns, .cons hn hns =>
    rw [operands] at h
    simp only [bind_eq_ok, List.isEmpty_cons, Bool.false_eq_true, if_false, pure_eq_ok] at h
    obtain ⟨code', p₁, hfirst, reg, p₂, hreg, ⟨rest, regs'⟩, _, hrest, heq, rfl⟩ := h
    cases heq
    have hcode := expr_emits hu hs n hn hfirst
    obtain ⟨-, -, -, hs₂, -⟩ := allocTemp_spec hcode.stocks hreg
    obtain ⟨hstash, hlength⟩ := operands_stashes hu hs₂ (n' :: ns) hns hrest
    exact ⟨.cons hcode hreg hstash, by rw [List.length_cons, hlength]; rfl⟩
termination_by structural ns

theorem arm_emits {u : CodeUnit} {p p' : Pool} {id next index : Nat} {inPlace : Bool} {env : Env}
    {es : List Expr} {code : List Instruction} (hu : u.Covers id) (hs : u.Stocks p)
    (ns : List (Node Binding)) (hb : u.scopes.BindsAll id inPlace env es ns)
    (h : arm u next index ns p = .ok code p') : u.Emits p code p' := by
  match ns, hb with
  | [], _ => simp only [arm, fault_eq_ok] at h
  | n :: ns, .cons hn hns =>
    simp only [arm, ite_eq_ok] at h
    rcases h with ⟨-, h⟩ | ⟨-, h⟩
    · exact inPlace_emits hu hs n hn h
    · exact arm_emits hu hs ns hns h
termination_by structural ns

theorem inPlace_emits {u : CodeUnit} {p p' : Pool} {id next : Nat} {place : Bool} {env : Env}
    {e : Expr} {code : List Instruction} (hu : u.Covers id) (hs : u.Stocks p) (n : Node Binding)
    (hb : u.scopes.Binds id place env e n) (h : inPlace u next n p = .ok code p') :
    u.Emits p code p' := by
  match n, hb with
  | .inlined first temps body, .inlined hi ht hbody =>
    simp only [inPlace, bind_eq_ok, pure_eq_ok] at h
    obtain ⟨clear, p₁, hclear, code', _, hcode', rfl, rfl⟩ := h
    have hcleared := clearTemps_emits hs (fun temp hmem => by
      obtain ⟨i, hi⟩ := List.getElem?_of_mem hmem
      exact hu.reaches_of_denotes (ht.2 i temp.1 temp.2 hi)) hclear
    have hcode := statements_emits hu hcleared.stocks body hbody hcode'
    exact hcleared.append (emits_or_nil body hcode)
  | .literal _, _ | .pseudo _, _ | .variable .., _ | .assign .., _ | .send .., _ | .control .., _
  | .superSend .., _ | .closure .., _ | .ret _, _ | .primitive .., _ =>
    simp only [inPlace, fail_eq_ok] at h
termination_by structural n

end

theorem statements_returns {u : CodeUnit} {p p' : Pool} {id next : Nat} {env : Env}
    {es : List Expr} {ns : List (Node Binding)} {code : List Instruction} (hu : u.Covers id)
    (hs : u.Stocks p) (hkind : u.scope.kind = .method)
    (hret : es.getLast?.any Expr.isReturn = true) (hb : u.scopes.BindsAll id false env es ns)
    (h : statements u next ns p = .ok code p') :
    ∃ front, code = front ++ [.return_] ∧ u.Emits p front p' := by
  induction ns generalizing p code es with
  | nil =>
    cases hb
    cases hret
  | cons n ns ih =>
    cases hb with
    | cons hn hns =>
      simp only [statements, bind_eq_ok, pure_eq_ok] at h
      obtain ⟨code', p₁, hfirst, code'', _, hrest, rfl, rfl⟩ := h
      cases hns with
      | nil =>
        simp only [statements, pure_eq_ok] at hrest
        obtain ⟨rfl, rfl⟩ := hrest
        cases hn with
        | ret hv =>
          simp only [expr, bind_eq_ok, hkind, pure_eq_ok] at hfirst
          obtain ⟨front, _, hvalue, rfl, rfl⟩ := hfirst
          exact ⟨front, List.append_nil _, expr_emits hu hs _ hv hvalue⟩
        | _ => simp [Expr.isReturn] at hret
      | cons hn' hns' =>
        have hcode := expr_emits hu hs n hn hfirst
        rw [List.getLast?_cons_cons] at hret
        obtain ⟨front, rfl, hfront⟩ := ih hcode.stocks hret (.cons hn' hns') hrest
        exact ⟨code' ++ front, (List.append_assoc ..).symm, hcode.append hfront⟩

end Emit

/-- Compiled code is well-formed. -/
theorem Method.compile_wellFormed {m : Method} {instanceVariables : List String}
    {t : CodeTemplate} (h : m.compile instanceVariables = .ok t) : t.WellFormed 0 := by
  obtain ⟨r, hr, hcompile⟩ := resolve_of_compile h
  obtain ⟨s, hf⟩ := resolve_follows hr
  rw [ResolvedMethod.compile] at hcompile
  cases hu : CodeUnit.create r.scopes 0 r.selector with
  | error e => simp [hu] at hcompile
  | ok u =>
    obtain ⟨hcovers, hscopes, hscope⟩ := CodeUnit.create_spec hf.coherent hf.found hu
    have houter : u.outer = 0 := by simp only [CodeUnit.outer, hscope, hf.parent]
    have hbody := hf.body
    rw [← hscopes] at hbody
    have hprologue := hcovers.prologue_emits u.stocks_empty
    cases hcode : Emit.statements u u.firstTemp r.body { high := u.firstTemp } with
    | error e p => simp [hu, hcode] at hcompile
    | ok code p =>
      simp only [hu, hcode, Except.ok.injEq] at hcompile
      subst hcompile
      rw [← houter]
      cases hret : r.endsWithReturn with
      | true =>
        rw [hf.endsWithReturn, endsWithReturn] at hret
        obtain ⟨front, rfl, hfront⟩ := Emit.statements_returns hcovers u.stocks_empty
          (hscope ▸ hf.kind) hret hbody hcode
        simp only [if_true, List.append_nil, ← List.append_assoc]
        exact hcovers.template_wellFormed (.inl rfl) (hprologue.append hfront)
      | false =>
        have hemits := Emit.statements_emits hcovers u.stocks_empty r.body hbody hcode
        exact hcovers.template_wellFormed (.inr rfl) (hprologue.append hemits)

theorem nested_compile_wellFormed :
    ∃ t, nested.compile ["x"] = .ok t ∧ t.WellFormed 0 := by
  obtain ⟨t, ht⟩ := nested_compile
  exact ⟨t, ht, Method.compile_wellFormed ht⟩

end ObjectMachine
