import ObjectMachine.Proofs.Code.Composition
import ObjectMachine.Proofs.Code.Decoding
import ObjectMachine.Proofs.Language.Capturing

namespace ObjectMachine

def Instruction.Tends (s : Scope) : Instruction → Prop
  | .promote own parent => (own, parent) ∈ s.chained
  | .restore parent own => (own, parent) ∈ s.chained
  | .sync own parent _ => (own, parent) ∈ s.chained
  | _ => True

theorem Instruction.tends_of_isStep {s : Scope} {i : Instruction} (h : i.isStep = true) :
    i.Tends s := by
  cases i with
  | promote | restore | sync => cases h
  | _ => trivial

theorem Instruction.tends_of_isCall {s : Scope} {i : Instruction} (h : i.isCall = true) :
    i.Tends s := by
  cases i with
  | promote | restore | sync => cases h
  | _ => trivial

/-- A template is the code of a scope, and the blocks among its constants are the code of scopes
right inside. -/
inductive ScopeTree.Codes (t : ScopeTree) : Nat → CodeTemplate → Prop where
  | intro {id : Nat} {s : Scope} {code : List Instruction} {template : CodeTemplate}
    (inner : CodeTemplate → Nat) : t.scopes[id]? = some s →
    template.bytecode = (encodeAll code).toArray → template.heapVars = s.heapVars.size →
    (∀ i ∈ code, i.Tends s) →
    (∀ b, .block b ∈ template.literals → ∃ s', t.scopes[inner b]? = some s' ∧
      s'.parent = some id) →
    (∀ b, .block b ∈ template.literals → t.Codes (inner b) b) → t.Codes id template

namespace CodeUnit

def Encloses (u : CodeUnit) (id : Nat) (t : CodeTemplate) : Prop :=
  ∃ scope s, u.scopes.scopes[scope]? = some s ∧ s.parent = some id ∧ u.scopes.Codes scope t

/-- Code that was emitted between two states of the pool tends to what its scope chains, and its
blocks are right inside. -/
structure Tends (u : CodeUnit) (id : Nat) (p : Pool) (code : List Instruction) (p' : Pool) :
    Prop where
  code : ∀ i ∈ code, i.Tends u.scope
  blocks : ∀ t, .block t ∈ p'.literals.toList → .block t ∈ p.literals.toList ∨ u.Encloses id t

def Syncs (u : CodeUnit) : Prop := ∀ s ∈ u.syncs, (s.own, s.parent) ∈ u.scope.chained

variable {u : CodeUnit} {id : Nat} {p p' p'' : Pool} {ns : List (Node Binding)}
  {code code' : List Instruction} {i : Instruction}

theorem Tends.append (h : u.Tends id p code p') (h' : u.Tends id p' code' p'') :
    u.Tends id p (code ++ code') p'' where
  code i hi := (List.mem_append.mp hi).elim (h.code i) (h'.code i)
  blocks t ht := (h'.blocks t ht).elim (h.blocks t) .inr

theorem Tends.of_code (hcode : ∀ i ∈ code, i.Tends u.scope) : u.Tends id p code p :=
  ⟨hcode, fun _ => .inl⟩

theorem Tends.singleton (hi : i.Tends u.scope) : u.Tends id p [i] p :=
  .of_code fun _ hmem => List.mem_singleton.mp hmem ▸ hi

theorem Syncs.sync_tends (hu : u.Syncs) : ∀ i ∈ u.sync, i.Tends u.scope := by
  intro i hi
  obtain ⟨s, hs, rfl⟩ := List.mem_map.mp hi
  exact hu s hs

theorem Syncs.restores_tends (hu : u.Syncs) : ∀ i ∈ u.restores, i.Tends u.scope := by
  intro i hi
  obtain ⟨s, hs, rfl⟩ := List.mem_map.mp hi
  exact hu s hs

theorem Syncs.call_tends (hu : u.Syncs) (hi : i.Tends u.scope) : u.Tends id p (u.call i) p :=
  ((Tends.of_code hu.sync_tends).append (.singleton hi)).append (.of_code hu.sync_tends)

theorem Syncs.prologue_tends (hu : u.Syncs) : u.Tends id p u.prologue p := by
  refine .of_code fun i hi => ?_
  rcases List.mem_append.mp hi with hi | hi
  · obtain ⟨s, hs, rfl⟩ := List.mem_map.mp hi
    exact hu s hs
  · obtain ⟨⟨origin, slot⟩, -, hi⟩ := List.mem_flatMap.mp hi
    cases origin with
    | argument reg =>
      simp only [List.mem_cons, List.not_mem_nil, or_false] at hi
      rcases hi with rfl | rfl <;> trivial
    | «local» | chained => cases hi

theorem syncs_of_create {scopes : ScopeTree} {selector : String} {s : Scope}
    (hs : scopes.scopes[id]? = some s) (h : create scopes id selector = .ok u) : u.Syncs := by
  rw [create, ScopeTree.scope_eq hs] at h
  cases hsyncs : assignSyncs s.fixedRegisters s.chained with
  | error e =>
    rw [hsyncs] at h
    cases h
  | ok syncs =>
    rw [hsyncs] at h
    cases h
    exact fun s hs => (assignSyncs_spec hsyncs s hs).1

/-- The code of a unit, with a return after it. -/
theorem template_codes {s : Scope} {code : List Instruction} {p : Pool}
    (hs : u.scopes.scopes[id]? = some s) (hscope : u.scope = s)
    (h : u.Tends id { high := u.firstTemp } code p) : u.scopes.Codes id (u.template code p) := by
  classical
  have hblocks : ∀ b, .block b ∈ (u.template code p).literals → u.Encloses id b :=
    fun b hb => (h.blocks b hb).resolve_left fun hb => by simp at hb
  refine .intro (fun b => if hb : u.Encloses id b then hb.choose else 0) hs rfl
    (congrArg (·.heapVars.size) hscope) (hscope ▸ h.code) (fun b hb => ?_) fun b hb => ?_
  · rw [dif_pos (hblocks b hb)]
    obtain ⟨s', hs', hparent, -⟩ := (hblocks b hb).choose_spec
    exact ⟨s', hs', hparent⟩
  · rw [dif_pos (hblocks b hb)]
    obtain ⟨_, -, -, hcodes⟩ := (hblocks b hb).choose_spec
    exact hcodes

/-- The code of a unit tends to what its scope chains. -/
theorem Composes.tends (h : u.Composes id p ns code p') (hu : u.Covers id) (hsyncs : u.Syncs) :
    u.Tends id p code p' := by
  induction h with
  | nil => exact .of_code nofun
  | append _ _ ih ih' => exact (ih hu hsyncs).append (ih' hu hsyncs)
  | stock _ hblocks => exact ⟨nofun, fun t ht => .inl (hblocks t ht)⟩
  | step hi => exact .singleton (Instruction.tends_of_isStep hi)
  | call hi => exact hsyncs.call_tends (Instruction.tends_of_isCall hi)
  | @pass u id p reg index args =>
    have hload : u.Tends id p [.loadRegister reg] p := .singleton trivial
    exact hload.append (hsyncs.call_tends trivial)
  | answer => exact .singleton trivial
  | @leave u id p _ _ index args =>
    have hcontext : u.Tends id p [.loadThisContext] p := .singleton trivial
    have hsend : u.Tends id p [.send index args] p := .singleton trivial
    exact (Tends.of_code hsyncs.restores_tends).append (hcontext.append hsend)
  | @closure u inner id scope p p' pool params temps body code index s ho hinner _ _ hblocks ih =>
    obtain ⟨hcovers, hscopes, hscope⟩ := create_spec hu.coherent ho.found hinner
    have hsyncs' := syncs_of_create ho.found hinner
    have hlast : inner.Tends scope pool (inner.restores ++ [.return_]) pool :=
      (Tends.of_code hsyncs'.restores_tends).append (.singleton trivial)
    have hwhole := (hsyncs'.prologue_tends.append (ih hcovers hsyncs')).append hlast
    rw [← List.append_assoc] at hwhole
    have hcodes := template_codes hcovers.found rfl hwhole
    rw [hscopes] at hcodes
    refine ⟨fun i hi => List.mem_singleton.mp hi ▸ trivial, fun t ht => ?_⟩
    refine (hblocks t ht).imp_right fun heq => ?_
    subst heq
    exact ⟨scope, s, ho.found, ho.parent, hcodes⟩

end CodeUnit

/-- A compiled method and all blocks in it are the code of their scopes. -/
theorem Method.compile_codes {m : Method} {instanceVariables : List String} {r : ResolvedMethod}
    {t : CodeTemplate} (hr : m.resolve instanceVariables = .ok r)
    (h : m.compile instanceVariables = .ok t) : r.scopes.Codes 0 t := by
  obtain ⟨r', hr', hcompile⟩ := resolve_of_compile h
  obtain rfl := Except.ok.inj (hr.symm.trans hr')
  obtain ⟨s, hf⟩ := resolve_follows hr
  rw [ResolvedMethod.compile] at hcompile
  cases hu : CodeUnit.create r.scopes 0 r.selector with
  | error e => simp [hu] at hcompile
  | ok u =>
    obtain ⟨hcovers, hscopes, hscope⟩ := CodeUnit.create_spec hf.coherent hf.found hu
    have hsyncs := CodeUnit.syncs_of_create hf.found hu
    have hbody := hf.body
    rw [← hscopes] at hbody
    cases hcode : Emit.statements u u.firstTemp r.body { high := u.firstTemp } with
    | error e p => simp [hu, hcode] at hcompile
    | ok code p =>
      simp only [hu, hcode, Except.ok.injEq] at hcompile
      subst hcompile
      rw [← hscopes]
      have hlast : u.Tends 0 p (if r.endsWithReturn then [] else [.returnSelf]) p := by
        refine .of_code fun i hi => ?_
        split at hi
        · cases hi
        · exact List.mem_singleton.mp hi ▸ trivial
      have hbody' := (Emit.statements_composes hcovers u.stocks_empty (Nat.le_refl _) r.body hbody
        hcode).tends hcovers hsyncs
      exact CodeUnit.template_codes hcovers.found rfl
        ((hsyncs.prologue_tends.append hbody').append hlast)

def Instruction.ownSlot? : Instruction → Option UInt8
  | .storeOwn slot => some slot
  | .promote own _ => some own
  | .sync own _ _ => some own
  | _ => none

def Instruction.parentSlot? : Instruction → Option UInt8
  | .storeParent slot => some slot
  | .restore parent _ => some parent
  | .sync _ parent _ => some parent
  | _ => none

namespace ScopeTree

variable {t : ScopeTree} {id : Nat} {place : Place} {slot : UInt8} {template : CodeTemplate}
  {i : Instruction}

/-- An instruction of some code does about copies what its scope has it do. -/
theorem Codes.tends (h : t.Codes id template) {pc : Nat}
    (hi : (pc, i) ∈ (Code.decodeAll template.bytecode).1) :
    ∃ s, t.scopes[id]? = some s ∧ i.Tends s := by
  cases h with
  | @intro id s code template inner hs hbytecode _ htends _ _ =>
    rw [hbytecode, decode_encode_inverse.1, List.mem_mapIdx] at hi
    obtain ⟨k, hk, heq⟩ := hi
    cases heq
    exact ⟨s, hs, htends _ (List.getElem_mem hk)⟩

/-- The code of a variable's scope writes to its slot only to assign to it. -/
theorem Codes.eq_storeOwn (h : t.Codes place.owner template) (coherent : t.Coherent)
    (hkeeps : t.Keeps place slot) {pc : Nat}
    (hi : (pc, i) ∈ (Code.decodeAll template.bytecode).1) (hslot : i.ownSlot? = some slot) :
    i = .storeOwn slot := by
  obtain ⟨s, hs, htends⟩ := h.tends hi
  obtain ⟨s', v, hs', hv, hkept⟩ := hkeeps
  obtain rfl := Option.some.inj (hs.symm.trans hs')
  have hpromoted := (coherent hs).promoted hv hkept
  have hnot : ∀ parent, (slot, parent) ∉ s.chained := by
    intro parent hmem
    rw [Scope.getElem?_of_mem_chained (coherent hs).slots hmem, Option.some.injEq] at hpromoted
    exact Variable.origin_ne_chained v parent hpromoted.symm
  cases i with
  | storeOwn k => exact congrArg Instruction.storeOwn (Option.some.inj hslot)
  | promote own parent =>
    obtain rfl := Option.some.inj hslot
    exact absurd htends (hnot parent)
  | sync own parent reg =>
    obtain rfl := Option.some.inj hslot
    exact absurd htends (hnot parent)
  | _ => cases hslot

/-- The code of a block right inside writes to the variable's slot only to assign to it, if no scope
copies the slot. -/
theorem Codes.eq_storeParent {s : Scope} (h : t.Codes id template) (coherent : t.Coherent)
    (hunchained : t.Unchained place) (hkeeps : t.Keeps place slot) (hs : t.scopes[id]? = some s)
    (hparent : s.parent = some place.owner) {pc : Nat}
    (hi : (pc, i) ∈ (Code.decodeAll template.bytecode).1) (hslot : i.parentSlot? = some slot) :
    i = .storeParent slot := by
  obtain ⟨s', hs', htends⟩ := h.tends hi
  obtain rfl := Option.some.inj (hs.symm.trans hs')
  have hnot : ∀ own, (own, slot) ∉ s.chained := fun own hmem => hunchained id _ s slot hs hparent
    (Scope.getElem?_of_mem_chained (coherent hs).slots hmem) hkeeps
  cases i with
  | storeParent k => exact congrArg Instruction.storeParent (Option.some.inj hslot)
  | restore parent own =>
    obtain rfl := Option.some.inj hslot
    exact absurd htends (hnot own)
  | sync own parent reg =>
    obtain rfl := Option.some.inj hslot
    exact absurd htends (hnot own)
  | _ => cases hslot

end ScopeTree

end ObjectMachine
