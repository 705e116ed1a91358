import ObjectMachine.Proofs.Language.Declaration

namespace ObjectMachine

structure Scope.Alike (s s' : Scope) : Prop where
  kind : s'.kind = s.kind
  parent : s'.parent = s.parent
  args : s'.args = s.args
  heapVars : s'.heapVars = s.heapVars
  size : s'.vars.size = s.vars.size
  vars : ∀ {i : Nat} {v : Variable}, s.vars[i]? = some v → ∃ v', s'.vars[i]? = some v' ∧
    v'.name = v.name ∧ v'.kind = v.kind ∧ v'.register = v.register ∧ v'.heapSlot = v.heapSlot

theorem Scope.alike_of_bare {s s' : Scope} (h : s.bare = s'.bare) : s.Alike s' where
  kind := (congrArg Scope.kind h).symm
  parent := (congrArg Scope.parent h).symm
  args := (congrArg Scope.args h).symm
  heapVars := (congrArg Scope.heapVars h).symm
  size := by simpa [bare] using (congrArg (fun s => s.vars.size) h).symm
  vars hv := by
    obtain ⟨v', hv', heq⟩ := vars_of_bare_eq h hv
    obtain ⟨hname, hkind, hreg, hslot, -⟩ := Variable.mk.injEq .. ▸ heq
    exact ⟨v', hv', hname, hkind, hreg, hslot⟩

namespace ScopeTree

/-- The trees differ in what is visible in the scopes up to `k`, and in nothing else. -/
structure Veiled (k : Nat) (t t' : ScopeTree) : Prop where
  instanceVariables : t'.instanceVariables = t.instanceVariables
  bare : ∀ j : Nat, (t'.scopes[j]?).map Scope.bare = (t.scopes[j]?).map Scope.bare
  above : ∀ j : Nat, k < j → t'.scopes[j]? = t.scopes[j]?

variable {t t' : ScopeTree} {id k : Nat} {place : Place}

theorem Veiled.symm (h : Veiled k t t') : Veiled k t' t :=
  ⟨h.instanceVariables.symm, fun j => (h.bare j).symm, fun j hj => (h.above j hj).symm⟩

theorem Veiled.alike (h : Veiled k t t') {s : Scope} (hs : t.scopes[id]? = some s) :
    ∃ s', t'.scopes[id]? = some s' ∧ s.Alike s' := by
  have hbare := h.bare id
  rw [hs, Option.map_some] at hbare
  obtain ⟨s', hs', heq⟩ := Option.map_eq_some_iff.mp hbare
  exact ⟨s', hs', Scope.alike_of_bare heq.symm⟩

theorem veiled_setVisible (t : ScopeTree) (id first count : Nat) (visible : Bool) :
    Veiled id t (t.setVisible id first count visible) := by
  have hset : t.setVisible id first count visible =
      t.modifyScope id (Scope.veil first count visible) := rfl
  refine ⟨rfl, fun j => ?_, fun j hj => ?_⟩
  · rw [hset, getElem?_modifyScope]
    split
    case isTrue hj =>
      subst hj
      cases t.scopes[j]? with
      | none => rfl
      | some s => simp only [Option.map_some, Scope.bare_veil]
    case isFalse => rfl
  · rw [hset, getElem?_modifyScope, if_neg (Nat.ne_of_gt hj)]

theorem Holds.veiled {slot : UInt8} (h : t.Holds id slot place) (hv : Veiled k t t') :
    t'.Holds id slot place := by
  induction h with
  | promoted hs hvar hslot =>
    obtain ⟨s', hs', ha⟩ := hv.alike hs
    obtain ⟨v', hv', -, -, -, hslot'⟩ := ha.vars hvar
    exact .promoted hs' hv' (hslot'.trans hslot)
  | chained hs hparent hslot _ ih =>
    obtain ⟨s', hs', ha⟩ := hv.alike hs
    exact .chained hs' (ha.parent.trans hparent) (ha.heapVars ▸ hslot) ih

theorem Captured.veiled (h : t.Captured id place) (hv : Veiled k t t') : t'.Captured id place := by
  rcases h with howner | ⟨s, parent, slot, hs, hparent, hholds⟩
  · exact .inl howner
  · obtain ⟨s', hs', ha⟩ := hv.alike hs
    exact .inr ⟨s', parent, slot, hs', ha.parent.trans hparent, hholds.veiled hv⟩

theorem Denotes.veiled {b : Binding} (h : t.Denotes id place b) (hv : Veiled k t t') :
    t'.Denotes id place b := by
  cases b with
  | register reg =>
    obtain ⟨howner, s, v, hs, hvar, hnone, hreg⟩ := h
    obtain ⟨s', hs', ha⟩ := hv.alike hs
    obtain ⟨v', hv', -, -, hreg', hslot'⟩ := ha.vars hvar
    exact ⟨howner, s', v', hs', hv', hslot'.trans hnone, hreg'.trans hreg⟩
  | own slot => exact Holds.veiled h hv
  | parent slot =>
    obtain ⟨s, parent, hs, hparent, hnone, hholds⟩ := h
    obtain ⟨s', hs', ha⟩ := hv.alike hs
    refine ⟨s', parent, hs', ha.parent.trans hparent, ?_, hholds.veiled hv⟩
    rw [Scope.chainedSlot?, ha.heapVars]
    exact hnone
  | instanceVariable i => exact h
  | global => exact h

theorem Coherent.veiled (h : t.Coherent) (hv : Veiled k t t') : t'.Coherent := by
  intro id s' hs'
  obtain ⟨s, hs, ha⟩ := hv.symm.alike hs'
  have hat := h hs
  constructor
  case parent => exact ha.parent ▸ hat.parent
  case args => exact ha.args ▸ ha.size ▸ hat.args
  case register =>
    intro i v hvar
    obtain ⟨v', hv', -, -, hreg, -⟩ := ha.vars hvar
    exact hreg ▸ hat.register hv'
  case promoted =>
    intro i v slot hvar hslot
    obtain ⟨v', hv', -, hkind, hreg, hslot'⟩ := ha.vars hvar
    rw [← ha.heapVars, hat.promoted hv' (hslot'.trans hslot), Variable.origin, Variable.origin,
      hkind, hreg]
  case apart =>
    intro i j v w slot hvar hvar' hslot hslot'
    obtain ⟨v', hv', -, -, -, heq⟩ := ha.vars hvar
    obtain ⟨w', hw', -, -, -, heq'⟩ := ha.vars hvar'
    exact hat.apart hv' hw' (heq.trans hslot) (heq'.trans hslot')
  case argument => exact fun ho => ha.size ▸ hat.argument (ha.heapVars ▸ ho)
  case chained =>
    intro i slot ho
    obtain ⟨p, s₁, hp, hs₁, hlt⟩ := hat.chained (ha.heapVars ▸ ho)
    obtain ⟨s₂, hs₂, ha₂⟩ := hv.alike hs₁
    exact ⟨p, s₂, ha.parent ▸ hp, hs₂, ha₂.heapVars ▸ hlt⟩
  case once => exact fun ho ho' => hat.once (ha.heapVars ▸ ho) (ha.heapVars ▸ ho')
  case slots => exact ha.heapVars ▸ hat.slots

theorem Has.veiled (h : t.Has place) (hv : Veiled k t t') : t'.Has place := by
  obtain ⟨s, hs, hlt⟩ := h
  obtain ⟨s', hs', ha⟩ := hv.alike hs
  exact ⟨s', hs', ha.size ▸ hlt⟩

theorem Inlines.veiled {first : Nat} {env : Env} {temps : List String} {s : Scope}
    (h : t.Inlines id first env temps s) (hv : Veiled k t t') :
    ∃ s', t'.Inlines id first env temps s' := by
  obtain ⟨s', hs', ha⟩ := hv.alike h.found
  refine ⟨s', hs', fun i name hname => ?_, ha.size ▸ h.size, h.above⟩
  obtain ⟨v, hvar, hname'⟩ := h.names i name hname
  obtain ⟨v', hv', heq, -⟩ := ha.vars hvar
  exact ⟨v', hv', heq.trans hname'⟩

theorem Opens.veiled {scope : Nat} {params temps : List String} {s : Scope}
    (h : t.Opens scope id params temps s) (hv : Veiled k t t') (hk : k ≤ id) :
    ∃ s', t'.Opens scope id params temps s' :=
  ⟨s, (hv.above scope (Nat.lt_of_le_of_lt hk h.lt)).trans h.found, h.kind, h.parent, h.lt, h.args,
    h.size, h.shown⟩

end ScopeTree

end ObjectMachine
