import ObjectMachine.Proofs.Code.Compilation
import ObjectMachine.Proofs.Language.Evaluation

namespace ObjectMachine

namespace Instruction

def isCall : Instruction → Bool
  | .binaryOp .. | .send .. | .sendSuper .. | .primitive0 _ | .primitive1 _ | .primitive2 ..
  | .primitive3 .. | .primitiveV .. => true
  | _ => false

/-- Whether an instruction moves a value or branches, and does nothing else. -/
def isStep : Instruction → Bool
  | .promote .. | .restore .. | .sync .. | .copyBlock _ | .return_ | .returnSelf => false
  | i => !i.isCall

/-- The registers that hold what an instruction works on. That which a sync keeps for itself is none
of them. -/
def registers : Instruction → List Nat
  | .loadRegister reg | .storeRegister reg | .binaryOp reg _ | .primitive2 _ reg => [reg.toNat]
  | .primitive3 _ reg₁ reg₂ => [reg₁.toNat, reg₂.toNat]
  | .send _ args | .sendSuper _ args => args.regs.map UInt8.toNat
  | .primitiveV _ first count => List.range' first.toNat count.toNat
  | _ => []

end Instruction

section Marks

variable {β : Type}

mutual

/-- The returns in an expression and the blocks with code of their own, in the order of their code.
What stands in such a block is left out, and so are the arguments of a control structure that its
selector does not take. -/
def Node.marks : Node β → List (Node β)
  | .literal _ | .pseudo _ | .variable .. => []
  | .assign _ _ value => value.marks
  | .send receiver _ args => receiver.marks ++ marksAll args
  | .control form receiver args => receiver.marks ++ marksFirst form.blocks args
  | .superSend _ args => marksAll args
  | .closure scope params temps body => [.closure scope params temps body]
  | .inlined _ _ body => marksAll body
  | .ret value => value.marks ++ [.ret value]
  | .primitive _ args => marksAll args
termination_by structural n => n

def Node.marksAll : List (Node β) → List (Node β)
  | [] => []
  | n :: ns => n.marks ++ marksAll ns
termination_by structural ns => ns

def Node.marksFirst (count : Nat) : List (Node β) → List (Node β)
  | [] => []
  | n :: ns => if count = 0 then [] else n.marks ++ marksFirst (count - 1) ns
termination_by structural ns => ns

end

theorem Node.marksFirst_zero (ns : List (Node β)) : marksFirst 0 ns = [] := by
  cases ns <;> rfl

theorem Node.marksFirst_succ (count : Nat) (n : Node β) (ns : List (Node β)) :
    marksFirst (count + 1) (n :: ns) = n.marks ++ marksFirst count ns := rfl

end Marks

namespace CodeUnit

/-- A register that keeps no copy in step: that of the receiver, an argument or a local variable, or
one for values that wait. -/
def Spares (u : CodeUnit) (reg : Nat) : Prop := reg < u.scope.fixedRegisters ∨ u.firstTemp ≤ reg

inductive Composes : CodeUnit → Nat → Pool → List (Node Binding) → List Instruction → Pool →
    Prop where
  | nil {u id p} : Composes u id p [] [] p
  | append {u id p p' p'' ns ns' code code'} : Composes u id p ns code p' →
    Composes u id p' ns' code' p'' → Composes u id p (ns ++ ns') (code ++ code') p''
  /-- Constants come to the pool that are no blocks. -/
  | stock {u id p p'} : p.Grows p' →
    (∀ t, .block t ∈ p'.literals.toList → .block t ∈ p.literals.toList) → Composes u id p [] [] p'
  | step {u id p i} : i.isStep = true → (∀ reg ∈ i.registers, u.Spares reg) →
    Composes u id p [] [i] p
  | call {u id p i} : i.isCall = true → (∀ index args, i = .send index args → args.regs = []) →
    (∀ reg ∈ i.registers, u.Spares reg) → Composes u id p [] (u.call i) p
  /-- A message with arguments: its receiver is loaded right before. -/
  | pass {u id p reg index args} : u.Spares reg.toNat →
    (∀ reg ∈ (Instruction.send index args).registers, u.Spares reg) →
    Composes u id p [] (.loadRegister reg :: u.call (.send index args)) p
  /-- A return from a method. -/
  | answer {u id p value} : u.scope.kind = .method → Composes u id p [.ret value] [.return_] p
  /-- A return from a block to the caller of its method. -/
  | leave {u id p value reg index args} : u.Spares reg.toNat → args.regs = [reg] →
    p.literals.toList[index.toNat]? = some (.symbol blockReturnSelector) →
    Composes u id p [.ret value] (u.restores ++ [.loadThisContext, .send index args]) p
  | closure {u inner id scope p p' pool params temps body code index s} :
    u.scopes.Opens scope id params (temps.map Prod.fst) s →
    create u.scopes scope u.selector = .ok inner →
    Composes inner scope { high := inner.firstTemp } (Node.marksAll body) code pool →
    p.Grows p' → (∀ t, .block t ∈ p'.literals.toList → .block t ∈ p.literals.toList ∨
      t = inner.template (inner.prologue ++ code ++ inner.restores ++ [.return_]) pool) →
    Composes u id p [.closure scope params temps body] [.copyBlock index] p'

variable {u : CodeUnit} {id : Nat} {p p' p'' : Pool} {ns : List (Node Binding)}
  {code : List Instruction}

/-- Constants that come first. -/
theorem Composes.after (hg : u.Composes id p [] [] p') (h : u.Composes id p' ns code p'') :
    u.Composes id p ns code p'' := hg.append h

theorem Composes.then (h : u.Composes id p ns code p') {code' : List Instruction}
    (h' : u.Composes id p' [] code' p'') : u.Composes id p ns (code ++ code') p'' := by
  simpa only [List.append_nil] using h.append h'

theorem Composes.grows (h : u.Composes id p ns code p') : p.Grows p' := by
  induction h with
  | nil | step | call | pass | answer | leave => exact .refl _
  | append _ _ ih ih' => exact ih.trans ih'
  | stock hg => exact hg
  | closure _ _ _ hg => exact hg

/-- Registers of variables are those that a unit has from the start. -/
theorem Covers.spares_of_denotes {place : Place} {reg : UInt8} (hu : u.Covers id)
    (h : u.scopes.Denotes id place (.register reg)) : u.Spares reg.toNat := by
  obtain ⟨-, s, v, hs, hv, -, rfl⟩ := h
  obtain rfl := Option.some.inj (hu.found.symm.trans hs)
  have hreg := (hu.coherent hs).register hv
  have hlt := (Array.getElem?_eq_some_iff.mp hv).1
  rw [hreg]
  exact .inl (by rw [Scope.fixedRegisters]; omega)

theorem Covers.spares {env : Env} {name : String} {reg : UInt8} (hu : u.Covers id)
    (h : u.scopes.Occurs id env name (.register reg)) : u.Spares reg.toNat := by
  rcases h.valid with ⟨place, hd⟩ | heq
  · exact hu.spares_of_denotes hd
  · rw [ScopeTree.classBinding] at heq
    cases hfind : u.scopes.instanceVariables.findIdx? (· == name) <;> simp [hfind] at heq

def Leads (glue : List Instruction) : Prop := ∀ i ∈ glue, i = .loadNil ∨ i.offset?.isSome

end CodeUnit

namespace Emit

variable {u : CodeUnit} {p p' : Pool} {id next : Nat} {env : Env}

/-- The only block that may come with a constant is the constant itself. -/
theorem literal_adds {c : Constant} {index : UInt8} (h : literal c p = .ok index p') :
    p.Grows p' ∧ ∀ t, .block t ∈ p'.literals.toList →
      .block t ∈ p.literals.toList ∨ c = .block t := by
  simp only [literal, get_bind] at h
  cases hfind : p.literals.findIdx? c.same with
  | some i =>
    simp only [hfind, pure_eq_ok] at h
    obtain ⟨-, rfl⟩ := h
    exact ⟨.refl p, fun _ => .inl⟩
  | none =>
    simp only [hfind, ite_eq_ok, bind_eq_ok, fail_eq_ok, false_and, exists_false, and_false,
      false_or, pure_eq_ok, modify_eq_ok] at h
    obtain ⟨-, -, _, rfl, -, rfl⟩ := h
    refine ⟨⟨?_, Nat.le_refl _⟩, fun t ht => ?_⟩
    · rw [Array.toList_push]
      exact List.prefix_append ..
    · simp only [Array.toList_push, List.mem_append, List.mem_singleton] at ht
      exact ht.imp_right Eq.symm

theorem literal_composes {c : Constant} {index : UInt8} (hc : c.isBlock = false)
    (h : literal c p = .ok index p') : u.Composes id p [] [] p' := by
  obtain ⟨hg, hadds⟩ := literal_adds h
  refine .stock hg fun t ht => (hadds t ht).resolve_right fun heq => ?_
  subst heq
  cases hc

theorem symbol_composes {name : String} {index : UInt8} (h : symbol name p = .ok index p') :
    u.Composes id p [] [] p' := literal_composes rfl h

theorem allocTemp_composes {reg : UInt8} (hnext : u.firstTemp ≤ next)
    (h : allocTemp next p = .ok reg p') :
    u.Spares reg.toNat ∧ u.Composes id p [] [.storeRegister reg] p' := by
  simp only [allocTemp, ite_eq_ok, bind_eq_ok, fail_eq_ok, false_and, exists_false, and_false,
    false_or, pure_eq_ok, modify_eq_ok] at h
  obtain ⟨hroom, -, _, rfl, rfl, rfl⟩ := h
  have hspares : u.Spares next.toUInt8.toNat :=
    .inr (by rwa [ScopeTree.toNat_size_toUInt8 (Nat.not_le.mp hroom)])
  have hstore : ∀ reg ∈ (Instruction.storeRegister next.toUInt8).registers, u.Spares reg :=
    List.forall_mem_singleton.mpr hspares
  have hhigh : p.Grows { p with high := max p.high (next + 1) } :=
    ⟨List.prefix_rfl, Nat.le_max_left ..⟩
  exact ⟨hspares, .after (.stock hhigh fun _ ht => ht) (.step rfl hstore)⟩

/-- The instruction that reads or writes a variable. -/
theorem access_composes {b : Binding} {name : String} {i : Instruction}
    (hb : ∀ reg, b = .register reg → u.Spares reg.toNat)
    (h : load b name p = .ok i p' ∨ store b name p = .ok i p') : u.Composes id p [] [i] p' := by
  cases b with
  | global =>
    simp only [load, store, bind_eq_ok, pure_eq_ok] at h
    obtain ⟨index, _, hsymbol, rfl, rfl⟩ | ⟨index, _, hsymbol, rfl, rfl⟩ := h <;>
      exact .after (symbol_composes hsymbol) (.step rfl (List.forall_mem_nil _))
  | register reg =>
    have hreg : ∀ r ∈ [reg.toNat], u.Spares r := List.forall_mem_singleton.mpr (hb reg rfl)
    simp only [load, store, pure_eq_ok] at h
    obtain ⟨rfl, rfl⟩ | ⟨rfl, rfl⟩ := h <;> exact .step rfl hreg
  | own slot | parent slot | instanceVariable i =>
    simp only [load, store, pure_eq_ok] at h
    obtain ⟨rfl, rfl⟩ | ⟨rfl, rfl⟩ := h <;> exact .step rfl (List.forall_mem_nil _)

theorem clearTemps_composes {temps : List (String × Binding)} {code : List Instruction}
    (htemps : ∀ temp ∈ temps, ∀ reg, temp.2 = .register reg → u.Spares reg.toNat)
    (h : clearTemps temps p = .ok code p') : u.Composes id p [] code p' := by
  induction temps generalizing p code with
  | nil =>
    obtain ⟨rfl, rfl⟩ := pure_eq_ok.mp h
    exact .nil
  | cons temp rest ih =>
    obtain ⟨name, b⟩ := temp
    simp only [clearTemps, bind_eq_ok, pure_eq_ok] at h
    obtain ⟨i, p₁, hstore, code', p₂, hrest, rfl, rfl⟩ := h
    have hnil : u.Composes id p [] [.loadNil] p := .step rfl (List.forall_mem_nil _)
    exact (hnil.append (access_composes (htemps _ (.head _)) (.inr hstore))).append
      (ih (fun temp hmem => htemps temp (.tail _ hmem)) hrest)

theorem loadSelf_composes : u.Composes id p [] [.loadRegister 0] p := by
  refine .step rfl (List.forall_mem_singleton.mpr (.inl ?_))
  rw [UInt8.toNat_zero, Scope.fixedRegisters]
  omega

/-- Nothing but branches and nil leads from one part of a control structure to another. -/
theorem glue_composes {glue : List Instruction} (h : CodeUnit.Leads glue) :
    u.Composes id p [] glue p := by
  induction glue with
  | nil => exact .nil
  | cons i rest ih =>
    have hi : u.Composes id p [] [i] p := by
      rcases h i (.head _) with rfl | hoffset
      · exact .step rfl nofun
      · cases i with
        | jump | branchIfFalse | branchIfTrue => exact .step rfl nofun
        | _ => cases hoffset
    exact hi.append (ih fun i hmem => h i (.tail _ hmem))

theorem isCall_directCall (index : UInt8) (count : Nat) (regs : List UInt8) :
    (directCall index count regs).isCall = true := by
  unfold directCall
  split
  · split <;> rfl
  · rfl
  · rfl

theorem directCall_ne_send (index : UInt8) (count : Nat) (regs : List UInt8) (index' : UInt8)
    (args : ArgRegisters) : directCall index count regs ≠ .send index' args := by
  unfold directCall
  split
  · split <;> exact nofun
  · exact nofun
  · exact nofun

theorem registers_directCall {index : UInt8} {count : Nat} {regs : List UInt8}
    (h : ∀ reg ∈ regs, u.Spares reg.toNat) :
    ∀ reg ∈ (directCall index count regs).registers, u.Spares reg := by
  unfold directCall
  split
  · split <;> exact nofun
  · exact List.forall_mem_singleton.mpr (h _ (.head _))
  · rename_i reg₁ reg₂ rest
    refine List.forall_mem_cons.mpr ⟨h reg₁ (.head _), List.forall_mem_singleton.mpr ?_⟩
    exact h reg₂ (.tail _ (.head _))

theorem registers_primitiveV {index : UInt8} {count : Nat} (hnext : u.firstTemp ≤ next)
    (hroom : 0 < count → next + count ≤ maxRegisters) :
    ∀ reg ∈ (Instruction.primitiveV index next.toUInt8 count.toUInt8).registers,
      u.Spares reg := by
  intro reg hreg
  rw [Instruction.registers, List.mem_range'_1] at hreg
  have hcount : count.toUInt8.toNat ≤ count := Nat.mod_le ..
  have hlast := hroom (by omega)
  have hfirst : next.toUInt8.toNat = next :=
    ScopeTree.toNat_size_toUInt8 (Nat.lt_of_lt_of_le (by omega) hlast)
  exact .inr (by omega)

theorem composes_or_nil {code : List Instruction} {body : List (Node Binding)}
    (h : statements u next body p = .ok code p')
    (hcode : u.Composes id p (Node.marksAll body) code p') :
    u.Composes id p (Node.marksAll body) (if body.isEmpty then [.loadNil] else code) p' := by
  cases body with
  | nil =>
    simp only [statements, pure_eq_ok] at h
    obtain ⟨-, rfl⟩ := h
    exact .step rfl (List.forall_mem_nil _)
  | cons => exact hcode

/-- Arms of a control structure in a row, from an index of its arguments on. -/
inductive Arms (u : CodeUnit) (next : Nat) (args : List (Node Binding)) :
    Nat → Nat → Pool → List Instruction → Pool → Prop where
  | nil {index : Nat} {p : Pool} : Arms u next args index 0 p [] p
  | cons {index count : Nat} {p p₁ p' : Pool} {code glue rest : List Instruction} :
    arm u next index args p = .ok code p₁ → CodeUnit.Leads glue →
    Arms u next args (index + 1) count p₁ rest p' →
    Arms u next args index (count + 1) p (code ++ glue ++ rest) p'

theorem leads_leaving (form : ControlForm) (offset : Int16) :
    CodeUnit.Leads [leaving form offset] := by
  intro i hi
  rw [List.mem_singleton.mp hi, offset?_leaving]
  exact .inr rfl

/-- A control structure is compiled to its receiver and as many arms as its selector takes. -/
theorem expr_control_spec {form : ControlForm} {receiver : Node Binding}
    {args : List (Node Binding)} {code : List Instruction}
    (h : expr u next (.control form receiver args) p = .ok code p') :
    ∃ first p₁ glue rest, (if form.isLoop then Emit.inPlace u next receiver p
        else expr u next receiver p) = .ok first p₁ ∧
      CodeUnit.Leads glue ∧ Arms u next args 0 form.blocks p₁ rest p' ∧
      code = first ++ glue ++ rest := by
  have hleave := leads_leaving form
  have hjump : ∀ offset : Int16, CodeUnit.Leads [.jump offset] := by
    simp [CodeUnit.Leads, Instruction.offset?]
  have hend : ∀ offset : Int16, CodeUnit.Leads [.jump offset, .loadNil] := by
    simp [CodeUnit.Leads, Instruction.offset?]
  have hnone : CodeUnit.Leads [] := by simp [CodeUnit.Leads]
  cases form with
  | ifTrue | ifFalse =>
    simp only [expr, bind_eq_ok, pure_eq_ok] at h
    obtain ⟨first, p₁, hfirst, body, p₂, hbody, past, _, hpast, rfl, rfl⟩ := h
    obtain ⟨-, rfl⟩ := skip_eq_ok hpast
    exact ⟨first, p₁, _, _, hfirst, hleave past, .cons hbody (hend 1) .nil, by simp⟩
  | ifTrueIfFalse | ifFalseIfTrue =>
    simp only [expr, bind_eq_ok, pure_eq_ok] at h
    obtain ⟨first, p₁, hfirst, yes, p₂, hyes, past, _, hpast, no, p₃, hno, out, _, hout, rfl,
      rfl⟩ := h
    obtain ⟨-, rfl⟩ := skip_eq_ok hpast
    obtain ⟨-, rfl⟩ := skip_eq_ok hout
    exact ⟨first, p₁, _, _, hfirst, hleave past,
      .cons hyes (hjump out) (.cons hno hnone .nil), by simp⟩
  | and =>
    simp only [expr, bind_eq_ok, pure_eq_ok] at h
    obtain ⟨first, p₁, hfirst, body, p₂, hbody, past, _, hpast, rfl, rfl⟩ := h
    obtain ⟨-, rfl⟩ := skip_eq_ok hpast
    exact ⟨first, p₁, _, _, hfirst, hleave past, .cons hbody hnone .nil, by simp⟩
  | whileTrueDo | whileFalseDo =>
    simp only [expr, bind_eq_ok, pure_eq_ok] at h
    obtain ⟨first, p₁, hfirst, body, p₂, hbody, again, _, hagain, out, _, hout, rfl, rfl⟩ := h
    obtain ⟨-, rfl⟩ := back_eq_ok hagain
    obtain ⟨-, rfl⟩ := skip_eq_ok hout
    exact ⟨first, p₁, _, _, hfirst, hleave out, .cons hbody (hend again) .nil, by simp⟩
  | whileTrue | whileFalse =>
    simp only [expr, bind_eq_ok, pure_eq_ok] at h
    obtain ⟨first, p₁, hfirst, again, _, hagain, rfl, rfl⟩ := h
    obtain ⟨-, rfl⟩ := back_eq_ok hagain
    refine ⟨first, p₁, _, [], hfirst, ?_, .nil, (List.append_nil _).symm⟩
    simp [CodeUnit.Leads, Instruction.offset?]

theorem Arms.grows {args : List (Node Binding)} {es : List Expr} {index count : Nat}
    {code : List Instruction} (hu : u.Covers id) (hs : u.Stocks p)
    (hb : u.scopes.BindsAll id true env es args)
    (h : Arms u next args index count p code p') : u.Stocks p' ∧ p.Grows p' := by
  induction h with
  | nil => exact ⟨hs, .refl _⟩
  | cons harm _ _ ih =>
    have hcode := arm_emits hu hs args hb harm
    obtain ⟨hs', hg⟩ := ih hcode.stocks
    exact ⟨hs', hcode.grows.trans hg⟩

theorem Arms.composes {args : List (Node Binding)} {es : List Expr} {index count : Nat}
    {code : List Instruction} (hu : u.Covers id) (hs : u.Stocks p)
    (hb : u.scopes.BindsAll id true env es args)
    (harm : ∀ {index : Nat} {p p' : Pool} {code : List Instruction}, u.Stocks p →
      arm u next index args p = .ok code p' →
      ∃ n, args[index]? = some n ∧ u.Composes id p n.marks code p')
    (h : Arms u next args index count p code p') :
    u.Composes id p (Node.marksFirst count (args.drop index)) code p' := by
  induction h with
  | nil =>
    rw [Node.marksFirst_zero]
    exact .nil
  | @cons index count p p₁ p' code glue rest hcode hglue _ ih =>
    obtain ⟨n, hn, hfirst⟩ := harm hs hcode
    obtain ⟨hlt, rfl⟩ := List.getElem?_eq_some_iff.mp hn
    rw [List.drop_eq_getElem_cons hlt, Node.marksFirst_succ]
    exact (hfirst.then (glue_composes hglue)).append (ih (arm_emits hu hs args hb hcode).stocks)

/-- Code that leaves values in registers that are free. -/
structure Gathers (u : CodeUnit) (id : Nat) (p : Pool) (ns : List (Node Binding))
    (code : List Instruction) (regs : List UInt8) (p' : Pool) : Prop where
  composes : u.Composes id p ns code p'
  spares : ∀ reg ∈ regs, u.Spares reg.toNat

/-- A value that is put into the next register, and those after it. -/
theorem Gathers.cons {n : Node Binding} {ns : List (Node Binding)} {p₁ p₂ : Pool}
    {code rest : List Instruction} {reg : UInt8} {regs : List UInt8}
    (h : u.Composes id p n.marks code p₁) (hnext : u.firstTemp ≤ next)
    (hreg : allocTemp next p₁ = .ok reg p₂)
    (hrest : Gathers u id p₂ (Node.marksAll ns) rest regs p') :
    Gathers u id p (Node.marksAll (n :: ns)) (code ++ [.storeRegister reg] ++ rest) (reg :: regs)
      p' := by
  obtain ⟨hspares, htemp⟩ := allocTemp_composes hnext hreg
  exact ⟨(h.then htemp).append hrest.composes, List.forall_mem_cons.mpr ⟨hspares, hrest.spares⟩⟩

mutual

/-- The code of an expression is made of pieces. -/
theorem expr_composes {u : CodeUnit} {p p' : Pool} {id next : Nat} {inPlace : Bool} {env : Env}
    {e : Expr} {code : List Instruction} (hu : u.Covers id) (hs : u.Stocks p)
    (hnext : u.firstTemp ≤ next) (n : Node Binding) (hb : u.scopes.Binds id inPlace env e n)
    (h : expr u next n p = .ok code p') : u.Composes id p n.marks code p' := by
  match n, hb with
  | .literal value, _ =>
    simp only [expr, bind_eq_ok, pure_eq_ok, ofExcept_eq_ok] at h
    obtain ⟨c, _, ⟨hc, rfl⟩, index, _, hindex, rfl, rfl⟩ := h
    exact .after (literal_composes (Constant.isBlock_ofLiteral hc) hindex) (.step rfl nofun)
  | .pseudo which, _ =>
    simp only [expr, pure_eq_ok] at h
    obtain ⟨rfl, rfl⟩ := h
    cases which with
    | self => exact loadSelf_composes
    | nil | true | false | thisContext | globals => exact .step rfl nofun
  | .variable name b, .variable ho =>
    simp only [expr, bind_eq_ok, pure_eq_ok] at h
    obtain ⟨i, _, hload, rfl, rfl⟩ := h
    exact access_composes (fun reg heq => hu.spares (heq ▸ ho)) (.inl hload)
  | .assign name b value, .assign hv ho =>
    simp only [expr, bind_eq_ok, pure_eq_ok] at h
    obtain ⟨code', p₁, hvalue, i, _, hstore, rfl, rfl⟩ := h
    exact (expr_composes hu hs hnext value hv hvalue).then
      (access_composes (fun reg heq => hu.spares (heq ▸ ho)) (.inr hstore))
  | .send receiver selector args, .send _ hr hargs =>
    obtain ⟨first, p₁, hfirst, ⟨op, reg, p₂, rest, regs, -, -, hreg, hrest, rfl⟩ |
      ⟨regs, p₂, index, hlength, hregs, hindex, rfl⟩ |
      ⟨reg, p₂, rest, regs, p₃, args', p₄, index, -, hreg, hrest, hregs, hindex, rfl⟩⟩ :=
        expr_send_cases h
    all_goals
      have hcode := expr_composes hu hs hnext receiver hr hfirst
      have hs₁ := (expr_emits hu hs receiver hr hfirst).stocks
    · obtain ⟨-, -, -, hs₂, -⟩ := allocTemp_spec hs₁ hreg
      obtain ⟨hspares, htemp⟩ := allocTemp_composes hnext hreg
      have hops := operands_gathers hu hs₂ (Nat.le_succ_of_le hnext) args hargs hrest
      exact ((hcode.then htemp).append hops.composes).then
        (.call rfl nofun (List.forall_mem_singleton.mpr hspares))
    · obtain ⟨hnone, rfl⟩ := argRegisters_eq_ok hregs
      obtain rfl := List.length_eq_zero_iff.mp hlength
      have hsend : ∀ index' args', Instruction.send index regs = .send index' args' →
          args'.regs = [] := fun _ _ heq => (Instruction.send.inj heq).2 ▸ hnone
      have hregisters : ∀ reg ∈ (Instruction.send index regs).registers, u.Spares reg := by
        simp [Instruction.registers, hnone]
      exact hcode.append (.after (symbol_composes hindex) (.call rfl hsend hregisters))
    · obtain ⟨-, -, -, hs₂, -⟩ := allocTemp_spec hs₁ hreg
      obtain ⟨hspares, htemp⟩ := allocTemp_composes hnext hreg
      have hops := stashAll_gathers hu hs₂ (Nat.le_succ_of_le hnext) args hargs hrest
      obtain ⟨hsome, rfl⟩ := argRegisters_eq_ok hregs
      have hregisters : ∀ reg ∈ (Instruction.send index args').registers, u.Spares reg := by
        rw [Instruction.registers, hsome]
        exact List.forall_mem_map.mpr hops.spares
      rw [List.append_assoc (first ++ _ ++ _)]
      exact ((hcode.then htemp).append hops.composes).then
        (.after (symbol_composes hindex) (.pass hspares hregisters))
  | .superSend selector args, .superSend hargs =>
    simp only [expr, ite_eq_ok, bind_eq_ok, fail_eq_ok, false_and, exists_false, and_false,
      false_or, pure_eq_ok] at h
    obtain ⟨-, ⟨rest, regs⟩, p₁, hrest, args', p₂, hregs, index, _, hindex, rfl, rfl⟩ := h
    have hops := stashAll_gathers hu hs hnext args hargs hrest
    obtain ⟨hsome, rfl⟩ : args'.regs = regs ∧ p₁ = p₂ := argRegisters_eq_ok hregs
    have hregisters : ∀ reg ∈ (Instruction.sendSuper index args').registers, u.Spares reg := by
      rw [Instruction.registers, hsome]
      exact List.forall_mem_map.mpr hops.spares
    exact (hops.composes.then loadSelf_composes).then
      (.after (symbol_composes hindex) (.call rfl nofun hregisters))
  | .closure scope params temps body, .closure ho ht hbody =>
    simp only [expr, bind_eq_ok, ofExcept_eq_ok, get_eq_ok, set_eq_ok, pure_eq_ok] at h
    obtain ⟨inner, _, ⟨hinner, rfl⟩, _, _, ⟨rfl, rfl⟩, -, _, rfl, code', pool, hcode', _, _,
      ⟨rfl, rfl⟩, -, _, rfl, index, p₁, hindex, rfl, rfl⟩ := h
    obtain ⟨hcovers, hscopes, hscope⟩ := CodeUnit.create_spec hu.coherent ho.found hinner
    have hbody' := statements_composes hcovers inner.stocks_empty (Nat.le_refl _) body
      (hscopes ▸ hbody) hcode'
    obtain ⟨hg, hadds⟩ := literal_adds hindex
    exact .closure (ht.1 ▸ ho) hinner (composes_or_nil hcode' hbody') hg
      fun t htmem => (hadds t htmem).imp_right fun heq => (Constant.block.inj heq).symm
  | .inlined first temps body, .inlined .. =>
    simp only [expr, fail_eq_ok] at h
  | .ret value, .ret hv =>
    simp only [expr, bind_eq_ok] at h
    obtain ⟨code', p₁, hvalue, h⟩ := h
    have hcode := expr_composes hu hs hnext value hv hvalue
    cases hkind : u.scope.kind with
    | method =>
      simp only [hkind, pure_eq_ok] at h
      obtain ⟨rfl, rfl⟩ := h
      exact hcode.append (.answer hkind)
    | block =>
      simp only [hkind, bind_eq_ok, pure_eq_ok] at h
      obtain ⟨reg, p₂, hreg, index, p₃, hindex, regs, _, hregs, rfl, rfl⟩ := h
      obtain ⟨-, -, -, hs₂, -⟩ :=
        allocTemp_spec (expr_emits hu hs value hv hvalue).stocks hreg
      obtain ⟨hspares, htemp⟩ := allocTemp_composes hnext hreg
      obtain ⟨hsome, rfl⟩ := argRegisters_eq_ok hregs
      rw [List.append_assoc _ u.restores]
      exact (hcode.then htemp).append
        (.after (symbol_composes hindex) (.leave hspares hsome (symbol_index hs₂ hindex)))
  | .primitive name args, .primitive hargs =>
    simp only [expr, bind_eq_ok] at h
    obtain ⟨prim, p₁, hprim, h⟩ := h
    obtain ⟨rfl, -⟩ := findPrimitive_eq_ok hprim
    simp only [ite_eq_ok, bind_eq_ok, fail_eq_ok, false_and, exists_false, and_false, false_or,
      pure_eq_ok] at h
    rcases h with ⟨-, ⟨rest, regs⟩, _, hrest, rfl, rfl⟩ | ⟨-, -, ⟨rest, regs⟩, _, hrest, rfl, rfl⟩
    · have hops := operands_gathers hu hs hnext args hargs hrest
      exact hops.composes.then (.call (isCall_directCall ..)
        (fun _ _ heq => (directCall_ne_send _ _ _ _ _ heq).elim) (registers_directCall hops.spares))
    · have hops := stashAll_gathers hu hs hnext args hargs hrest
      obtain ⟨-, -, hlast⟩ := stashAll_stashes hu hs args hargs hrest
      exact hops.composes.then (.call rfl nofun (registers_primitiveV hnext fun h => (hlast h).1))
  | .control form receiver args, .control _ hr hargs =>
    obtain ⟨first, p₁, glue, rest, hfirst, hglue, harms, rfl⟩ := expr_control_spec h
    have harms' := fun hs₁ => harms.composes hu hs₁ hargs (arm_composes hu hnext args hargs)
    split at hfirst
    · have hcode := inPlace_composes hu hs hnext receiver hr hfirst
      exact (hcode.then (glue_composes hglue)).append
        (harms' (inPlace_emits hu hs receiver hr hfirst).stocks)
    · have hcode := expr_composes hu hs hnext receiver hr hfirst
      exact (hcode.then (glue_composes hglue)).append
        (harms' (expr_emits hu hs receiver hr hfirst).stocks)
termination_by structural n

theorem statements_composes {u : CodeUnit} {p p' : Pool} {id next : Nat} {env : Env}
    {es : List Expr} {code : List Instruction} (hu : u.Covers id) (hs : u.Stocks p)
    (hnext : u.firstTemp ≤ next) (ns : List (Node Binding))
    (hb : u.scopes.BindsAll id false env es ns) (h : statements u next ns p = .ok code p') :
    u.Composes id p (Node.marksAll ns) code p' := by
  match ns, hb with
  | [], _ =>
    simp only [statements, pure_eq_ok] at h
    obtain ⟨rfl, rfl⟩ := h
    exact .nil
  | n :: ns, .cons hn hns =>
    simp only [statements, bind_eq_ok, pure_eq_ok] at h
    obtain ⟨code', p₁, hfirst, code'', _, hrest, rfl, rfl⟩ := h
    exact (expr_composes hu hs hnext n hn hfirst).append
      (statements_composes hu (expr_emits hu hs n hn hfirst).stocks hnext ns hns hrest)
termination_by structural ns

theorem stashAll_gathers {u : CodeUnit} {p p' : Pool} {id next : Nat} {env : Env}
    {es : List Expr} {code : List Instruction} {regs : List UInt8} (hu : u.Covers id)
    (hs : u.Stocks p) (hnext : u.firstTemp ≤ next) (ns : List (Node Binding))
    (hb : u.scopes.BindsAll id false env es ns)
    (h : stashAll u next ns p = .ok (code, regs) p') :
    Gathers u id p (Node.marksAll ns) code regs p' := by
  match ns, hb with
  | [], _ =>
    simp only [stashAll, pure_eq_ok, Prod.mk.injEq] at h
    obtain ⟨⟨rfl, rfl⟩, rfl⟩ := h
    exact ⟨.nil, nofun⟩
  | n :: ns, .cons hn hns =>
    simp only [stashAll, bind_eq_ok, pure_eq_ok] at h
    obtain ⟨code', p₁, hfirst, reg, p₂, hreg, ⟨rest, regs'⟩, _, hrest, heq, rfl⟩ := h
    cases heq
    obtain ⟨-, -, -, hs₂, -⟩ := allocTemp_spec (expr_emits hu hs n hn hfirst).stocks hreg
    exact .cons (expr_composes hu hs hnext n hn hfirst) hnext hreg
      (stashAll_gathers hu hs₂ (Nat.le_succ_of_le hnext) ns hns hrest)
termination_by structural ns

theorem operands_gathers {u : CodeUnit} {p p' : Pool} {id next : Nat} {env : Env}
    {es : List Expr} {code : List Instruction} {regs : List UInt8} (hu : u.Covers id)
    (hs : u.Stocks p) (hnext : u.firstTemp ≤ next) (ns : List (Node Binding))
    (hb : u.scopes.BindsAll id false env es ns)
    (h : operands u next ns p = .ok (code, regs) p') :
    Gathers u id p (Node.marksAll ns) code regs p' := by
  match ns, hb with
  | [], _ =>
    simp only [operands, pure_eq_ok, Prod.mk.injEq] at h
    obtain ⟨⟨rfl, rfl⟩, rfl⟩ := h
    exact ⟨.nil, nofun⟩
  | [n], .cons hn _ =>
    simp only [operands, bind_eq_ok, List.isEmpty_nil, if_true, pure_eq_ok, Prod.mk.injEq] at h
    obtain ⟨code', _, hfirst, ⟨rfl, rfl⟩, rfl⟩ := h
    refine ⟨?_, nofun⟩
    simpa only [Node.marksAll, List.append_nil] using expr_composes hu hs hnext n hn hfirst
  | n :: n' :: ns, .cons hn hns =>
    rw [operands] at h
    simp only [bind_eq_ok, List.isEmpty_cons, Bool.false_eq_true, if_false, pure_eq_ok] at h
    obtain ⟨code', p₁, hfirst, reg, p₂, hreg, ⟨rest, regs'⟩, _, hrest, heq, rfl⟩ := h
    cases heq
    obtain ⟨-, -, -, hs₂, -⟩ := allocTemp_spec (expr_emits hu hs n hn hfirst).stocks hreg
    exact .cons (expr_composes hu hs hnext n hn hfirst) hnext hreg
      (operands_gathers hu hs₂ (Nat.le_succ_of_le hnext) (n' :: ns) hns hrest)
termination_by structural ns

theorem arm_composes {u : CodeUnit} {p p' : Pool} {id next index : Nat} {inPlace : Bool}
    {env : Env} {es : List Expr} {code : List Instruction} (hu : u.Covers id)
    (hnext : u.firstTemp ≤ next) (ns : List (Node Binding))
    (hb : u.scopes.BindsAll id inPlace env es ns) (hs : u.Stocks p)
    (h : arm u next index ns p = .ok code p') :
    ∃ n, ns[index]? = some n ∧ u.Composes id p n.marks code p' := by
  match ns, hb with
  | [], _ => simp only [arm, fault_eq_ok] at h
  | n :: ns, .cons hn hns =>
    simp only [arm, ite_eq_ok] at h
    rcases h with ⟨rfl, h⟩ | ⟨hindex, h⟩
    · exact ⟨n, rfl, inPlace_composes hu hs hnext n hn h⟩
    · obtain ⟨k, rfl⟩ := Nat.exists_eq_succ_of_ne_zero hindex
      exact arm_composes hu hnext ns hns hs h
termination_by structural ns

theorem inPlace_composes {u : CodeUnit} {p p' : Pool} {id next : Nat} {place : Bool} {env : Env}
    {e : Expr} {code : List Instruction} (hu : u.Covers id) (hs : u.Stocks p)
    (hnext : u.firstTemp ≤ next) (n : Node Binding) (hb : u.scopes.Binds id place env e n)
    (h : Emit.inPlace u next n p = .ok code p') : u.Composes id p n.marks code p' := by
  match n, hb with
  | .inlined first temps body, .inlined hi ht hbody =>
    simp only [Emit.inPlace, bind_eq_ok, pure_eq_ok] at h
    obtain ⟨clear, p₁, hclear, code', _, hcode', rfl, rfl⟩ := h
    have hcleared : u.Composes id p [] clear p₁ := clearTemps_composes (fun temp hmem reg heq => by
      obtain ⟨i, hi⟩ := List.getElem?_of_mem hmem
      exact hu.spares_of_denotes (heq ▸ ht.2 i temp.1 temp.2 hi)) hclear
    have hs₁ := (clearTemps_emits hs (fun temp hmem => by
      obtain ⟨i, hi⟩ := List.getElem?_of_mem hmem
      exact hu.reaches_of_denotes (ht.2 i temp.1 temp.2 hi)) hclear).stocks
    exact hcleared.append
      (composes_or_nil hcode' (statements_composes hu hs₁ hnext body hbody hcode'))
  | .literal _, _ | .pseudo _, _ | .variable .., _ | .assign .., _ | .send .., _ | .control .., _
  | .superSend .., _ | .closure .., _ | .ret _, _ | .primitive .., _ =>
    simp only [Emit.inPlace, fail_eq_ok] at h
termination_by structural n

end

end Emit

end ObjectMachine
