import Mathlib.Data.List.Basic
import ObjectMachine.Proofs.Code.Composition

namespace ObjectMachine

namespace Instruction

variable {literals : List Constant}

def leaves (literals : List Constant) : Instruction → Bool
  | .send selector args => args.regs.length == 1 &&
    match literals[selector.toNat]? with
    | some (.symbol name) => name == blockReturnSelector
    | _ => false
  | _ => false

theorem isCall_of_leaves {i : Instruction} (h : i.leaves literals = true) : i.isCall = true := by
  cases i with
  | send => rfl
  | _ => cases h

theorem leaves_eq_false {i : Instruction} (h : i.isCall = false) : i.leaves literals = false := by
  rw [← Bool.not_eq_true]
  intro hleaves
  rw [isCall_of_leaves hleaves] at h
  cases h

theorem leaves_send {selector : UInt8} {args : ArgRegisters} {reg : UInt8}
    (hargs : args.regs = [reg])
    (h : literals[selector.toNat]? = some (.symbol blockReturnSelector)) :
    (send selector args).leaves literals = true := by
  simp [leaves, hargs, h]

theorem leaves_eq_false_of_args {i : Instruction}
    (h : ∀ selector args, i = send selector args → args.regs = []) : i.leaves literals = false := by
  cases i with
  | send selector args => simp [leaves, h selector args rfl]
  | _ => rfl

/-- Whether an instruction may stand between the start and the end of a block's code. -/
def isInner : Instruction → Bool
  | .promote .. | .return_ | .returnSelf => false
  | _ => true

theorem isInner_of_isStep {i : Instruction} (h : i.isStep = true) : i.isInner = true := by
  cases i with
  | promote | return_ | returnSelf => cases h
  | _ => rfl

theorem isInner_of_isCall {i : Instruction} (h : i.isCall = true) : i.isInner = true := by
  cases i with
  | promote | return_ | returnSelf => cases h
  | _ => rfl

theorem isCall_of_isStep {i : Instruction} (h : i.isStep = true) : i.isCall = false := by
  cases i with
  | binaryOp | send | sendSuper | primitive0 | primitive1 | primitive2 | primitive3
  | primitiveV => cases h
  | _ => rfl

end Instruction

/-- How many returns from a block there are in some code: the context is loaded, and the value is
passed on to it right away. -/
def leavings (literals : List Constant) : List Instruction → Nat
  | [] => 0
  | i :: rest =>
    (if i = .loadThisContext ∧ rest.head?.any (·.leaves literals) then 1 else 0) +
      leavings literals rest

theorem leavings_append {literals : List Constant} {a b : List Instruction}
    (hb : b.head?.any (·.leaves literals) = false) :
    leavings literals (a ++ b) = leavings literals a + leavings literals b := by
  induction a with
  | nil => exact (Nat.zero_add _).symm
  | cons i rest ih =>
    rw [List.cons_append, leavings, leavings, ih, ← Nat.add_assoc]
    cases rest with
    | nil => simp [hb]
    | cons => rfl

theorem leavings_eq_zero {literals : List Constant} {code : List Instruction}
    (h : .loadThisContext ∉ code) : leavings literals code = 0 := by
  induction code with
  | nil => rfl
  | cons i rest ih =>
    rw [List.mem_cons, not_or] at h
    rw [leavings, if_neg (fun hc => h.1 hc.1.symm), ih h.2]

/-- An element of two lists in a row is in the first or in the second. -/
theorem append_eq_split {α : Type} {a b before after : List α} {x : α}
    (h : a ++ b = before ++ x :: after) :
    (∃ mid, a = before ++ x :: mid ∧ after = mid ++ b) ∨
      ∃ mid, before = a ++ mid ∧ b = mid ++ x :: after := by
  rcases List.append_eq_append_iff.mp h with ⟨mid, hbefore, hb⟩ | ⟨mid, ha, hafter⟩
  · exact .inr ⟨mid, hbefore, hb⟩
  · cases mid with
    | nil => exact .inr ⟨[], by simp [ha], hafter.symm⟩
    | cons y mid =>
      obtain ⟨rfl, rfl⟩ := List.cons.inj hafter
      exact .inl ⟨mid, ha, rfl⟩

/-- The code of a block, for a scope whose chained slots are kept in step as `syncs` tells. Nothing
but what a sync itself records is ever in its register. -/
structure Bracketed (s : Scope) (syncs : List SyncedSlot) (literals : List Constant) (exits : Nat)
    (code : List Instruction) : Prop where
  pairs : syncs.map (fun x => (x.own, x.parent)) = s.chained
  distinct : (syncs.map SyncedSlot.reg).Nodup
  apart : ∀ x ∈ syncs, x.reg ≠ 0 ∧ (∀ v ∈ s.vars.toList, v.register ≠ x.reg) ∧
    ∀ i ∈ code, x.reg.toNat ∉ i.registers
  promotes : ∃ rest, code = syncs.map (fun x => .promote x.own x.parent) ++ rest ∧
    ∀ own parent, .promote own parent ∉ rest
  calls : ∀ before i after, code = before ++ i :: after → i.isCall = true →
    (i.leaves literals = true ∧ [.loadThisContext] <:+ before) ∨
      syncs.map (fun x => .sync x.own x.parent x.reg) <:+ before ∧
        syncs.map (fun x => .sync x.own x.parent x.reg) <+: after
  returns : ∀ before after, code = before ++ .return_ :: after →
    syncs.map (fun x => .restore x.parent x.own) <:+ before
  leaves : ∀ before i after, code = before ++ .loadThisContext :: i :: after →
    i.leaves literals = true → syncs.map (fun x => .restore x.parent x.own) <:+ before
  count : leavings literals code = exits
  returnSelf : .returnSelf ∉ code

def Node.isRet {β : Type} : Node β → Bool
  | .ret _ => true
  | _ => false

inductive CodeTemplate.Houses : CodeTemplate → CodeTemplate → Prop where
  | here {t b : CodeTemplate} : .block b ∈ t.literals → t.Houses b
  | inside {t b c : CodeTemplate} : .block b ∈ t.literals → b.Houses c → t.Houses c

/-- A block with code of its own stands among the marks of statements, or somewhere in such a block:
its scope and its statements. -/
inductive Node.Houses : List (Node Binding) → Nat → List (Node Binding) → Prop where
  | here {ns body : List (Node Binding)} {scope : Nat} {params : List String}
    {temps : List (String × Binding)} : .closure scope params temps body ∈ ns → Houses ns scope body
  | inside {ns body body' : List (Node Binding)} {scope id : Nat} {params : List String}
    {temps : List (String × Binding)} : .closure scope params temps body ∈ ns →
    Houses (marksAll body) id body' → Houses ns id body'

theorem Node.Houses.mono {ns ns' body : List (Node Binding)} {id : Nat} (h : Houses ns id body)
    (hsub : ns ⊆ ns') : Houses ns' id body := by
  cases h with
  | here hmem => exact .here (hsub hmem)
  | inside hmem h => exact .inside (hsub hmem) h

def ScopeTree.Brackets (t : ScopeTree) (ns : List (Node Binding)) (b : CodeTemplate) : Prop :=
  ∃ id s body syncs code, Node.Houses ns id body ∧ t.scopes[id]? = some s ∧ s.kind = .block ∧
    b.bytecode = (encodeAll code).toArray ∧
    Bracketed s syncs b.literals ((Node.marksAll body).countP Node.isRet) code

theorem ScopeTree.Brackets.mono {t : ScopeTree} {ns ns' : List (Node Binding)} {b : CodeTemplate}
    (h : t.Brackets ns b) (hsub : ∀ id body, Node.Houses ns id body → Node.Houses ns' id body) :
    t.Brackets ns' b := by
  obtain ⟨id, s, body, syncs, code, hhouses, hrest⟩ := h
  exact ⟨id, s, body, syncs, code, hsub id body hhouses, hrest⟩

namespace CodeUnit

variable {u : CodeUnit} {id : Nat} {p p' : Pool} {ns : List (Node Binding)}
  {literals : List Constant} {m n : Nat} {a b code : List Instruction} {i : Instruction}

/-- Code in which every call has the copies in step on both sides, but for returns from a block, of
which there are `returns`, each with the copies written back before. -/
structure Guards (u : CodeUnit) (literals : List Constant) (exits : Nat)
    (code : List Instruction) : Prop where
  calls : ∀ before i after, code = before ++ i :: after → i.isCall = true →
    (i.leaves literals = true ∧ [.loadThisContext] <:+ before) ∨
      u.sync <:+ before ∧ u.sync <+: after
  leaves : ∀ before i after, code = before ++ .loadThisContext :: i :: after →
    i.leaves literals = true → u.restores <:+ before
  head : code.head?.any (·.leaves literals) = false
  count : leavings literals code = exits
  registers : ∀ i ∈ code, ∀ reg ∈ i.registers, u.Spares reg

namespace Guards

theorem append (ha : u.Guards literals m a) (hb : u.Guards literals n b) :
    u.Guards literals (m + n) (a ++ b) where
  calls before i after heq hi := by
    rcases append_eq_split heq with ⟨mid, ha', rfl⟩ | ⟨mid, rfl, hb'⟩
    · exact (ha.calls _ _ _ ha' hi).imp_right fun ⟨hbefore, hafter⟩ =>
        ⟨hbefore, hafter.trans (List.prefix_append ..)⟩
    · have hmid := List.suffix_append a mid
      exact (hb.calls _ _ _ hb' hi).imp (fun ⟨hi, hcontext⟩ => ⟨hi, hcontext.trans hmid⟩)
        fun ⟨hbefore, hafter⟩ => ⟨hbefore.trans hmid, hafter⟩
  leaves before i after heq hi := by
    rcases append_eq_split heq with ⟨mid, ha', hmid⟩ | ⟨mid, rfl, hb'⟩
    · cases mid with
      | nil =>
        -- the context would be loaded at the end of the first part
        have hhead := hb.head
        rw [← List.nil_append b, ← hmid] at hhead
        simp [hi] at hhead
      | cons j mid =>
        obtain ⟨rfl, -⟩ := List.cons.inj hmid
        exact ha.leaves _ _ _ ha' hi
    · exact (hb.leaves _ _ _ hb' hi).trans (List.suffix_append ..)
  head := by
    cases a with
    | nil => exact hb.head
    | cons => exact ha.head
  count := by rw [leavings_append hb.head, ha.count, hb.count]
  registers i hi := (List.mem_append.mp hi).elim (ha.registers i) (hb.registers i)

theorem nil : u.Guards literals 0 [] where
  calls before i after heq := by simp at heq
  leaves before i after heq := by simp at heq
  head := rfl
  count := rfl
  registers := nofun

theorem of_steps (h : ∀ i ∈ code, i.isCall = false ∧ ∀ reg ∈ i.registers, u.Spares reg) :
    u.Guards literals 0 code := by
  induction code with
  | nil => exact .nil
  | cons i rest ih =>
    obtain ⟨⟨hcall, hregisters⟩, hrest⟩ := List.forall_mem_cons.mp h
    have hi : u.Guards literals 0 [i] := by
      refine ⟨fun before j after heq hj => ?_, fun before j after heq hj => ?_, ?_, ?_, ?_⟩
      · have hmem : j ∈ [i] := heq ▸ by simp
        rw [List.mem_singleton.mp hmem, hcall] at hj
        cases hj
      · have hlength := congrArg List.length heq
        simp only [List.length_append, List.length_cons, List.length_nil] at hlength
        omega
      · simp [Instruction.leaves_eq_false hcall]
      · simp [leavings]
      · exact List.forall_mem_singleton.mpr hregisters
    exact hi.append (ih hrest)

/-- A call, behind code that runs no other code. -/
theorem of_call (hi : i.isCall = true) (ha : ∀ j ∈ a, j.isCall = false ∧ j ≠ .loadThisContext)
    (hhead : (a ++ u.call i).head?.any (·.leaves literals) = false)
    (hregisters : ∀ j ∈ a ++ [i], ∀ reg ∈ j.registers, u.Spares reg) :
    u.Guards literals 0 (a ++ u.call i) := by
  have hsync : ∀ j ∈ u.sync, j.isCall = false ∧ j ≠ .loadThisContext ∧ j.registers = [] := by
    intro j hj
    obtain ⟨x, -, rfl⟩ := List.mem_map.mp hj
    exact ⟨rfl, nofun, rfl⟩
  have hsplit : a ++ u.call i = (a ++ u.sync) ++ i :: u.sync := by simp [call]
  have hcontext : .loadThisContext ∉ a ++ u.call i := by
    intro hmem
    rw [hsplit, List.mem_append, List.mem_append, List.mem_cons] at hmem
    rcases hmem with (hmem | hmem) | rfl | hmem
    · exact (ha _ hmem).2 rfl
    · exact (hsync _ hmem).2.1 rfl
    · cases hi
    · exact (hsync _ hmem).2.1 rfl
  refine ⟨fun before j after heq hj => ?_, fun before j after heq => ?_, hhead,
    leavings_eq_zero hcontext, fun j hj => ?_⟩
  · have hnot : ∀ l : List Instruction, (∀ k ∈ l, k.isCall = false) → j ∉ l := by
      intro l hl hmem
      rw [hl j hmem] at hj
      cases hj
    rw [hsplit, List.append_cons_inj_of_notMem (hnot _ ?_)
      (hnot _ fun k hk => (hsync k hk).1)] at heq
    · obtain ⟨rfl, rfl, rfl⟩ := heq
      exact .inr ⟨List.suffix_append .., List.prefix_rfl⟩
    · exact List.forall_mem_append.mpr ⟨fun k hk => (ha k hk).1, fun k hk => (hsync k hk).1⟩
  · exact absurd (heq ▸ by simp) hcontext
  · rw [hsplit, List.append_cons, List.mem_append, List.append_assoc, List.mem_append,
      List.mem_append] at hj
    rcases hj with (hj | hj | hj) | hj
    · exact hregisters j (List.mem_append_left _ hj)
    · rw [(hsync j hj).2.2]
      exact nofun
    · exact hregisters j (List.mem_append_right _ hj)
    · rw [(hsync j hj).2.2]
      exact nofun

theorem head_call (hi : i.leaves literals = false) :
    (u.call i).head?.any (·.leaves literals) = false := by
  cases hsyncs : u.syncs with
  | nil => simp [call, sync, hsyncs, hi]
  | cons x rest => simp [call, sync, hsyncs, Instruction.leaves]

theorem of_leave {reg index : UInt8} {args : ArgRegisters} (hreg : u.Spares reg.toNat)
    (hargs : args.regs = [reg])
    (hindex : literals[index.toNat]? = some (.symbol blockReturnSelector)) :
    u.Guards literals 1 (u.restores ++ [.loadThisContext, .send index args]) := by
  have hrestores : ∀ j ∈ u.restores,
      j.isCall = false ∧ j ≠ .loadThisContext ∧ j.registers = [] := by
    intro j hj
    obtain ⟨x, -, rfl⟩ := List.mem_map.mp hj
    exact ⟨rfl, nofun, rfl⟩
  have hleaves := Instruction.leaves_send hargs hindex
  have hcontext : .loadThisContext ∉ u.restores := fun hmem => (hrestores _ hmem).2.1 rfl
  have hhead : [Instruction.loadThisContext, .send index args].head?.any
      (·.leaves literals) = false := rfl
  refine ⟨fun before j after heq hj => ?_, fun before j after heq _ => ?_, ?_, ?_, fun j hj => ?_⟩
  · rw [List.append_cons] at heq
    have hnot : j ∉ u.restores ++ [.loadThisContext] := by
      intro hmem
      rcases List.mem_append.mp hmem with hmem | hmem
      · rw [(hrestores j hmem).1] at hj
        cases hj
      · rw [List.mem_singleton.mp hmem] at hj
        cases hj
    rw [List.append_cons_inj_of_notMem hnot List.not_mem_nil] at heq
    obtain ⟨rfl, rfl, -⟩ := heq
    exact .inl ⟨hleaves, List.suffix_append ..⟩
  · rw [List.append_cons_inj_of_notMem hcontext (by simp)] at heq
    exact heq.1 ▸ List.suffix_rfl
  · cases hcode : u.restores with
    | nil => exact hhead
    | cons j rest => simp [Instruction.leaves_eq_false (hrestores j (hcode ▸ .head _)).1]
  · rw [leavings_append hhead, leavings_eq_zero hcontext]
    simp [leavings, hleaves]
  · simp only [List.mem_append, List.mem_cons, List.not_mem_nil, or_false] at hj
    rcases hj with hj | rfl | rfl
    · rw [(hrestores j hj).2.2]
      exact nofun
    · exact nofun
    · rw [Instruction.registers, hargs]
      exact List.forall_mem_singleton.mpr hreg

end Guards

/-- The code of a block has as many returns as the block. -/
theorem Composes.guards (h : u.Composes id p ns code p') (hkind : u.scope.kind = .block)
    (hliterals : p'.literals.toList <+: literals) :
    u.Guards literals (ns.countP Node.isRet) code := by
  induction h with
  | nil | stock => exact .nil
  | append _ h' ih ih' =>
    rw [List.countP_append]
    exact (ih hkind (h'.grows.literals.trans hliterals)).append (ih' hkind hliterals)
  | step hi hregisters =>
    exact .of_steps (List.forall_mem_singleton.mpr ⟨Instruction.isCall_of_isStep hi, hregisters⟩)
  | call hi hargs hregisters =>
    exact Guards.of_call (a := []) hi nofun
      (Guards.head_call (Instruction.leaves_eq_false_of_args hargs))
      (List.forall_mem_singleton.mpr hregisters)
  | @pass u id p reg index args hreg hregisters =>
    have hload : ∀ r ∈ (Instruction.loadRegister reg).registers, u.Spares r :=
      List.forall_mem_singleton.mpr hreg
    exact Guards.of_call (a := [.loadRegister reg]) rfl
      (List.forall_mem_singleton.mpr ⟨rfl, nofun⟩) rfl
      (List.forall_mem_cons.mpr ⟨hload, List.forall_mem_singleton.mpr hregisters⟩)
  | answer hmethod =>
    rw [hmethod] at hkind
    cases hkind
  | leave hreg hargs hindex =>
    have hfinal := getElem?_of_extended hliterals hindex
    exact .of_leave hreg hargs hfinal
  | closure => exact .of_steps (List.forall_mem_singleton.mpr ⟨rfl, nofun⟩)

theorem isInner_of_mem_call (hi : i.isInner = true) : ∀ j ∈ u.call i, j.isInner = true := by
  intro j hj
  simp only [call, sync, List.mem_append, List.mem_map, List.mem_singleton] at hj
  rcases hj with (⟨x, -, rfl⟩ | rfl) | ⟨x, -, rfl⟩
  · rfl
  · exact hi
  · rfl

theorem isInner_of_mem_restores : ∀ i ∈ u.restores, i.isInner = true := by
  intro i hi
  obtain ⟨x, -, rfl⟩ := List.mem_map.mp hi
  rfl

theorem Composes.inner (h : u.Composes id p ns code p') (hkind : u.scope.kind = .block) :
    ∀ i ∈ code, i.isInner = true := by
  induction h with
  | nil | stock => exact nofun
  | append _ _ ih ih' => exact List.forall_mem_append.mpr ⟨ih hkind, ih' hkind⟩
  | step hi => exact List.forall_mem_singleton.mpr (Instruction.isInner_of_isStep hi)
  | call hi => exact isInner_of_mem_call (Instruction.isInner_of_isCall hi)
  | pass => exact List.forall_mem_cons.mpr ⟨rfl, isInner_of_mem_call rfl⟩
  | answer hmethod =>
    rw [hmethod] at hkind
    cases hkind
  | leave =>
    exact List.forall_mem_append.mpr ⟨isInner_of_mem_restores,
      List.forall_mem_cons.mpr ⟨rfl, List.forall_mem_singleton.mpr rfl⟩⟩
  | closure => exact List.forall_mem_singleton.mpr rfl

/-- Each chained slot has a register, in slot order and right behind the fixed ones. -/
theorem assignSyncs_registers {reg : Nat} {pairs : List (UInt8 × UInt8)} {syncs : List SyncedSlot}
    (h : assignSyncs reg pairs = .ok syncs) :
    syncs.map (fun x => (x.own, x.parent)) = pairs ∧
      syncs.map (·.reg.toNat) = List.range' reg syncs.length := by
  induction pairs generalizing reg syncs with
  | nil =>
    cases h
    exact ⟨rfl, rfl⟩
  | cons pair rest ih =>
    simp only [assignSyncs, bind, Except.bind, pure, Except.pure] at h
    split at h
    · cases h
    · rename_i hroom
      split at h <;> rename_i hrest <;> cases h
      obtain ⟨hpairs, hregs⟩ := ih hrest
      have hreg := ScopeTree.toNat_size_toUInt8 (Nat.not_le.mp hroom)
      exact ⟨by rw [List.map_cons, hpairs], by rw [List.map_cons, hregs, hreg]; rfl⟩

theorem create_syncs {scopes : ScopeTree} {selector : String} {s : Scope}
    (hs : scopes.scopes[id]? = some s) (h : create scopes id selector = .ok u) :
    assignSyncs s.fixedRegisters s.chained = .ok u.syncs := by
  rw [create, ScopeTree.scope_eq hs] at h
  cases hsyncs : assignSyncs s.fixedRegisters s.chained with
  | error e =>
    rw [hsyncs] at h
    cases h
  | ok syncs =>
    rw [hsyncs] at h
    cases h
    rfl

/-- The start of a block copies what its scope chains, and then stores what it captures of its
arguments. -/
theorem Covers.prologue_eq (hu : u.Covers id) : ∃ stores,
    u.prologue = u.syncs.map (fun x => .promote x.own x.parent) ++ stores ∧
      ∀ i ∈ stores, i.isInner = true ∧ i.isCall = false ∧ ∀ reg ∈ i.registers, u.Spares reg := by
  refine ⟨_, rfl, fun i hi => ?_⟩
  obtain ⟨⟨origin, slot⟩, hmem, hi⟩ := List.mem_flatMap.mp hi
  have hslot : u.scope.heapVars[slot]? = some origin := by
    rw [← Array.getElem?_toList]
    exact List.mem_zipIdx_iff_getElem?.mp hmem
  cases origin with
  | argument reg =>
    have hreg := (hu.coherent hu.found).argument hslot
    simp only [List.mem_cons, List.not_mem_nil, or_false] at hi
    rcases hi with rfl | rfl
    · refine ⟨rfl, rfl, List.forall_mem_singleton.mpr (.inl ?_)⟩
      rw [Scope.fixedRegisters]
      omega
    · exact ⟨rfl, rfl, List.forall_mem_nil _⟩
  | «local» | chained => cases hi

section Template

variable {inner : CodeUnit} {s : Scope} {scopes : ScopeTree} {selector : String} {pool : Pool}

/-- The code of a block: what stands between its start and its end is made of pieces. -/
theorem Composes.bracketed (h : inner.Composes id { high := inner.firstTemp } ns code pool)
    (coherent : scopes.Coherent) (hs : scopes.scopes[id]? = some s) (hkind : s.kind = .block)
    (hinner : create scopes id selector = .ok inner) :
    Bracketed s inner.syncs pool.literals.toList (ns.countP Node.isRet)
      (inner.prologue ++ code ++ inner.restores ++ [.return_]) := by
  obtain ⟨hcovers, -, hscope⟩ := create_spec coherent hs hinner
  obtain ⟨hpairs, hregs⟩ := assignSyncs_registers (create_syncs hs hinner)
  obtain ⟨stores, hprologue, hstores⟩ := hcovers.prologue_eq
  have hkind' : inner.scope.kind = .block := hscope ▸ hkind
  have hguards : inner.Guards pool.literals.toList (ns.countP Node.isRet)
      (inner.prologue ++ code ++ inner.restores ++ [.return_]) := by
    have hbefore : inner.Guards pool.literals.toList 0 inner.prologue := by
      rw [hprologue]
      refine .of_steps (List.forall_mem_append.mpr ⟨?_, fun i hi => (hstores i hi).2⟩)
      exact List.forall_mem_map.mpr fun x _ => ⟨rfl, List.forall_mem_nil _⟩
    have hafter : inner.Guards pool.literals.toList 0 (inner.restores ++ [.return_]) := by
      refine .of_steps (List.forall_mem_append.mpr ⟨?_, List.forall_mem_singleton.mpr
        ⟨rfl, List.forall_mem_nil _⟩⟩)
      exact List.forall_mem_map.mpr fun x _ => ⟨rfl, List.forall_mem_nil _⟩
    have hwhole := (hbefore.append (h.guards hkind' List.prefix_rfl)).append hafter
    rwa [Nat.zero_add, Nat.add_zero, ← List.append_assoc] at hwhole
  -- the registers of syncs come between the fixed ones and those for values that wait
  have hbounds : ∀ x ∈ inner.syncs,
      inner.scope.fixedRegisters ≤ x.reg.toNat ∧ x.reg.toNat < inner.firstTemp := by
    intro x hx
    have hmem : x.reg.toNat ∈ List.range' s.fixedRegisters inner.syncs.length :=
      hregs ▸ List.mem_map_of_mem hx
    rw [List.mem_range'_1, ← hscope] at hmem
    exact hmem
  have hreg : ∀ x ∈ inner.syncs, ¬inner.Spares x.reg.toNat := fun x hx hspares => by
    have hbound := hbounds x hx
    rcases hspares with hlow | hhigh <;> omega
  have hfixed : inner.Spares 0 := .inl (by rw [Scope.fixedRegisters]; omega)
  have hvariable : ∀ v ∈ s.vars.toList, inner.Spares v.register.toNat := by
    intro v hv
    obtain ⟨k, hk⟩ := List.getElem?_of_mem hv
    rw [Array.getElem?_toList] at hk
    have hlt := (Array.getElem?_eq_some_iff.mp hk).1
    rw [(coherent hs).register hk]
    exact .inl (by rw [Scope.fixedRegisters, hscope]; omega)
  have hinside : ∀ i ∈ stores ++ code ++ inner.restores, i.isInner = true :=
    List.forall_mem_append.mpr ⟨List.forall_mem_append.mpr
      ⟨fun i hi => (hstores i hi).1, h.inner hkind'⟩, isInner_of_mem_restores⟩
  have hend : ∀ i : Instruction, i.isInner = false → (∀ own parent, i ≠ .promote own parent) →
      i ∉ inner.prologue ++ code ++ inner.restores := by
    intro i hi hpromote hmem
    rw [hprologue, List.append_assoc, List.append_assoc, List.mem_append,
      ← List.append_assoc] at hmem
    rcases hmem with hmem | hmem
    · obtain ⟨x, -, rfl⟩ := List.mem_map.mp hmem
      exact hpromote _ _ rfl
    · rw [hinside i hmem] at hi
      cases hi
  refine ⟨hpairs, ?_, fun x hx => ⟨?_, fun v hv heq => ?_, fun i hi hmem => ?_⟩, ?_, hguards.calls,
    fun before after heq => ?_, hguards.leaves, hguards.count, fun hmem => ?_⟩
  · refine List.Nodup.of_map UInt8.toNat ?_
    rw [List.map_map]
    exact hregs ▸ List.nodup_range'
  · rintro heq
    exact hreg x hx (heq ▸ hfixed)
  · exact hreg x hx (heq ▸ hvariable v hv)
  · exact hreg x hx (hguards.registers i hi _ hmem)
  · refine ⟨stores ++ code ++ inner.restores ++ [.return_], by simp [hprologue], ?_⟩
    intro own parent hmem
    rcases List.mem_append.mp hmem with hmem | hmem
    · cases hinside _ hmem
    · cases List.mem_singleton.mp hmem
  · rw [List.append_cons_inj_of_notMem (hend .return_ rfl (by simp)) List.not_mem_nil] at heq
    exact heq.1 ▸ List.suffix_append ..
  · rcases List.mem_append.mp hmem with hmem | hmem
    · exact hend .returnSelf rfl (by simp) hmem
    · cases List.mem_singleton.mp hmem

end Template

/-- All blocks that come to the constants with some code, and all blocks in them, are bracketed. -/
theorem Composes.brackets (h : u.Composes id p ns code p') (hu : u.Covers id) :
    ∀ b, .block b ∈ p'.literals.toList → .block b ∈ p.literals.toList ∨
      ∀ c, c = b ∨ b.Houses c → u.scopes.Brackets ns c := by
  induction h with
  | nil | step | call | pass | answer | leave => exact fun b hb => .inl hb
  | stock _ hblocks => exact fun b hb => .inl (hblocks b hb)
  | append _ _ ih ih' =>
    intro b hb
    rcases ih' hu b hb with hb | hnew
    · exact (ih hu b hb).imp_right fun hnew c hc => (hnew c hc).mono fun _ _ hhouses =>
        hhouses.mono (List.subset_append_left ..)
    · exact .inr fun c hc => (hnew c hc).mono fun _ _ hhouses =>
        hhouses.mono (List.subset_append_right ..)
  | @closure u inner id scope p p' pool params temps body code index s ho hinner hbody _
      hblocks ih =>
    obtain ⟨hcovers, hscopes, -⟩ := create_spec hu.coherent ho.found hinner
    intro b hb
    refine (hblocks b hb).imp_right fun heq c hc => ?_
    subst heq
    have hinside : ∀ d, .block d ∈ pool.literals.toList → ∀ c, c = d ∨ d.Houses c →
        u.scopes.Brackets [.closure scope params temps body] c := by
      intro d hd c hc
      have hbrackets := (ih hcovers d hd).resolve_left (by simp) c hc
      rw [hscopes] at hbrackets
      exact hbrackets.mono fun _ _ hhouses => .inside (.head _) hhouses
    rcases hc with rfl | hc
    · exact ⟨scope, s, body, inner.syncs, _, .here (.head _), ho.found, ho.kind, rfl,
        hbody.bracketed hu.coherent ho.found ho.kind hinner⟩
    · cases hc with
      | here hd => exact hinside c hd c (.inl rfl)
      | inside hd hc => exact hinside _ hd c (.inr hc)

end CodeUnit

/-- Every block of a compiled method is the code of a block of the method that has a scope of its
own, and brackets its exits and its calls with the copies that the scope chains. -/
theorem Method.compile_brackets {m : Method} {instanceVariables : List String} {t : CodeTemplate}
    (h : m.compile instanceVariables = .ok t) : ∃ r, m.resolve instanceVariables = .ok r ∧
      ∀ b, t.Houses b → r.scopes.Brackets (Node.marksAll r.body) b := by
  obtain ⟨r, hr, hcompile⟩ := resolve_of_compile h
  obtain ⟨s, hf⟩ := resolve_follows hr
  refine ⟨r, hr, ?_⟩
  rw [ResolvedMethod.compile] at hcompile
  cases hu : CodeUnit.create r.scopes 0 r.selector with
  | error e => simp [hu] at hcompile
  | ok u =>
    obtain ⟨hcovers, hscopes, -⟩ := CodeUnit.create_spec hf.coherent hf.found hu
    have hbody := hf.body
    rw [← hscopes] at hbody ⊢
    cases hcode : Emit.statements u u.firstTemp r.body { high := u.firstTemp } with
    | error e p => simp [hu, hcode] at hcompile
    | ok code p =>
      simp only [hu, hcode, Except.ok.injEq] at hcompile
      subst hcompile
      have hcomposes :=
        Emit.statements_composes hcovers u.stocks_empty (Nat.le_refl _) r.body hbody hcode
      have hblocks : ∀ b, .block b ∈ p.literals.toList → ∀ c, c = b ∨ b.Houses c →
          u.scopes.Brackets (Node.marksAll r.body) c :=
        fun b hb => (hcomposes.brackets hcovers b hb).resolve_left (by simp)
      intro b hb
      cases hb with
      | here hb => exact hblocks b hb b (.inl rfl)
      | inside hb hc => exact hblocks _ hb b (.inr hc)

def tally : Method where
  selector := "tally:"
  params := ["n"]
  temps := ["sum"]
  body := [.send (.block [] [] [
    .send (.block [] [] [.assign "sum" (.variable "n")]) "value" [],
    .ret (.variable "sum")]) "value" []]

/-- Whether the first constant is the code of a block that starts by copying a variable in. -/
def promotesFirst (t : CodeTemplate) : Bool :=
  match t.literals with
  | .block b :: _ => b.bytecode[0]? == some Opcode.promote.byte
  | _ => false

theorem tally_compile_brackets : ∃ t r b, tally.compile [] = .ok t ∧ tally.resolve [] = .ok r ∧
    t.Houses b ∧ b.bytecode[0]? = some Opcode.promote.byte ∧
    r.scopes.Brackets (Node.marksAll r.body) b := by
  have hok : (tally.compile []).toOption.any promotesFirst = true := by decide +kernel
  cases ht : tally.compile [] with
  | error e => simp [ht, Except.toOption] at hok
  | ok t =>
    obtain ⟨r, hr, hbrackets⟩ := Method.compile_brackets ht
    simp only [ht, Except.toOption, Option.any_some, promotesFirst] at hok
    split at hok
    case h_1 b rest heq =>
      have hb : t.Houses b := .here (heq ▸ .head _)
      exact ⟨t, r, b, rfl, hr, hb, beq_iff_eq.mp hok, hbrackets b hb⟩
    case h_2 => cases hok

end ObjectMachine
