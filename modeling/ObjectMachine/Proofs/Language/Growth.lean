import ObjectMachine.Proofs.Language.Storage

namespace ObjectMachine

/-- The visible variables among the first `n` of scope `id`, the last of them first. -/
def Scope.shownBelow (s : Scope) (id : Nat) : Nat → List (String × Place)
  | 0 => []
  | n + 1 =>
    match s.vars[n]? with
    | some v => if v.visible then (v.name, ⟨id, n⟩) :: s.shownBelow id n else s.shownBelow id n
    | none => s.shownBelow id n

/-- The visible variables of scope `id`, the last of them first. -/
def Scope.shown (s : Scope) (id : Nat) : List (String × Place) := s.shownBelow id s.vars.size

theorem Scope.findBelow_eq (s : Scope) (id : Nat) (name : String) (n : Nat) :
    s.findBelow name n = ((s.shownBelow id n).find? (·.1 == name)).map (·.2.index) := by
  induction n with
  | zero => rfl
  | succ n ih =>
    rw [findBelow, shownBelow]
    cases s.vars[n]? with
    | none => exact ih
    | some v =>
      cases hv : v.visible with
      | false => simpa [hv] using ih
      | true =>
        cases hn : v.name == name with
        | false => simpa [hv, hn] using ih
        | true => simp [hv, hn]

/-- An entry of the visible variables says what it stands for. -/
theorem Scope.of_mem_shownBelow {s : Scope} {id n : Nat} {name : String} {place : Place}
    (h : (name, place) ∈ s.shownBelow id n) :
    place.owner = id ∧ place.index < n ∧
      ∃ v, s.vars[place.index]? = some v ∧ v.name = name ∧ v.visible = true := by
  induction n with
  | zero => cases h
  | succ n ih =>
    have weaken : place.owner = id ∧ place.index < n ∧
        (∃ v, s.vars[place.index]? = some v ∧ v.name = name ∧ v.visible = true) →
        place.owner = id ∧ place.index < n + 1 ∧
        ∃ v, s.vars[place.index]? = some v ∧ v.name = name ∧ v.visible = true :=
      fun ⟨howner, hlt, hv⟩ => ⟨howner, Nat.lt_succ_of_lt hlt, hv⟩
    rw [shownBelow] at h
    cases hv : s.vars[n]? with
    | none => exact weaken (ih (by simpa [hv] using h))
    | some v =>
      cases hvis : v.visible with
      | false => exact weaken (ih (by simpa [hv, hvis] using h))
      | true =>
        simp only [hv, hvis, if_true, List.mem_cons, Prod.mk.injEq] at h
        rcases h with ⟨rfl, rfl⟩ | h
        · exact ⟨rfl, Nat.lt_succ_self n, v, hv, rfl, hvis⟩
        · exact weaken (ih h)

theorem Scope.mem_shownBelow {s : Scope} {id n i : Nat} {v : Variable} (hv : s.vars[i]? = some v)
    (hvisible : v.visible = true) (hi : i < n) : (v.name, ⟨id, i⟩) ∈ s.shownBelow id n := by
  induction n with
  | zero => cases hi
  | succ n ih =>
    rw [shownBelow]
    by_cases heq : i = n
    · subst heq
      simp [hv, hvisible]
    · have hrest := ih (by omega)
      split
      · split
        · exact List.mem_cons_of_mem _ hrest
        · exact hrest
      · exact hrest

/-- What is visible depends on names and visibility alone. -/
theorem Scope.shownBelow_congr {s s' : Scope} (id : Nat) {n : Nat}
    (h : ∀ i < n, (s'.vars[i]?).map (fun v => (v.name, v.visible)) =
      (s.vars[i]?).map fun v => (v.name, v.visible)) :
    s'.shownBelow id n = s.shownBelow id n := by
  induction n with
  | zero => rfl
  | succ n ih =>
    have hn := h n (Nat.lt_succ_self n)
    rw [shownBelow, shownBelow, ih fun i hi => h i (Nat.lt_succ_of_lt hi)]
    cases hv : s.vars[n]? with
    | none =>
      rw [hv] at hn
      rw [Option.map_eq_none_iff.mp hn]
    | some v =>
      rw [hv] at hn
      obtain ⟨v', hv', heq⟩ := Option.map_eq_some_iff.mp hn
      obtain ⟨hname, hvisible⟩ := Prod.mk.inj heq
      simp only [hv', hname, hvisible]

theorem Scope.shownBelow_hidden {s : Scope} (id : Nat) {m : Nat}
    (h : ∀ {i : Nat} {v : Variable}, m ≤ i → s.vars[i]? = some v → v.visible = false) (k : Nat) :
    s.shownBelow id (m + k) = s.shownBelow id m := by
  induction k with
  | zero => rfl
  | succ k ih =>
    rw [← Nat.add_assoc, shownBelow]
    cases hv : s.vars[m + k]? with
    | none => exact ih
    | some v => simpa [h (Nat.le_add_right _ _) hv] using ih

/-- Hidden variables at the end do not count. -/
theorem Scope.shown_eq_shownBelow {s : Scope} (id : Nat) {m : Nat} (hm : m ≤ s.vars.size)
    (h : ∀ {i : Nat} {v : Variable}, m ≤ i → s.vars[i]? = some v → v.visible = false) :
    s.shown id = s.shownBelow id m := by
  rw [shown, ← Nat.add_sub_cancel' hm, shownBelow_hidden id h]

namespace ScopeTree

/-- The variables that can be seen from scope `id`, innermost first. -/
def inView (t : ScopeTree) (id : Nat) : List (String × Place) :=
  (t.scope id).shown id ++
    match (t.scope id).parent with
    | some parent => if parent < id then t.inView parent else []
    | none => []
termination_by id

def seen (view : List (String × Place)) (name : String) : Option Place :=
  (view.find? (·.1 == name)).map (·.2)

theorem scope_eq {t : ScopeTree} {id : Nat} {s : Scope} (hs : t.scopes[id]? = some s) :
    t.scope id = s := by
  simp [scope, hs]

theorem inView_eq {t : ScopeTree} {id : Nat} {s : Scope} (hs : t.scopes[id]? = some s) :
    t.inView id = s.shown id ++
      match s.parent with
      | some parent => if parent < id then t.inView parent else []
      | none => [] := by
  rw [inView, scope_eq hs]

end ScopeTree

/-- A variable may have been given a slot, and nothing else has changed. -/
structure Variable.Grown (v v' : Variable) : Prop where
  name : v'.name = v.name
  kind : v'.kind = v.kind
  register : v'.register = v.register
  visible : v'.visible = v.visible
  heapSlot : ∀ slot, v.heapSlot = some slot → v'.heapSlot = some slot

structure Scope.Grown (s s' : Scope) : Prop where
  kind : s'.kind = s.kind
  parent : s'.parent = s.parent
  args : s'.args = s.args
  size : s.vars.size ≤ s'.vars.size
  vars : ∀ {i : Nat} {v : Variable}, s.vars[i]? = some v →
    ∃ v', s'.vars[i]? = some v' ∧ v.Grown v'
  hidden : ∀ {i : Nat} {v' : Variable}, s.vars.size ≤ i → s'.vars[i]? = some v' →
    v'.visible = false
  heapVars : ∀ {i : Nat} {o : Origin}, s.heapVars[i]? = some o → s'.heapVars[i]? = some o

structure ScopeTree.Grown (t t' : ScopeTree) : Prop where
  instanceVariables : t'.instanceVariables = t.instanceVariables
  scopes : ∀ {id : Nat} {s : Scope}, t.scopes[id]? = some s →
    ∃ s', t'.scopes[id]? = some s' ∧ s.Grown s'

theorem Variable.Grown.refl (v : Variable) : v.Grown v := ⟨rfl, rfl, rfl, rfl, fun _ h => h⟩

theorem Variable.Grown.trans {v₁ v₂ v₃ : Variable} (h₁ : v₁.Grown v₂) (h₂ : v₂.Grown v₃) :
    v₁.Grown v₃ :=
  ⟨h₂.name.trans h₁.name, h₂.kind.trans h₁.kind, h₂.register.trans h₁.register,
    h₂.visible.trans h₁.visible, fun slot h => h₂.heapSlot slot (h₁.heapSlot slot h)⟩

namespace Scope.Grown

theorem refl (s : Scope) : s.Grown s where
  kind := rfl
  parent := rfl
  args := rfl
  size := Nat.le_refl _
  vars h := ⟨_, h, .refl _⟩
  hidden hle h := absurd (Array.getElem?_eq_some_iff.mp h).1 (Nat.not_lt.mpr hle)
  heapVars h := h

theorem trans {s₁ s₂ s₃ : Scope} (h₁ : s₁.Grown s₂) (h₂ : s₂.Grown s₃) : s₁.Grown s₃ where
  kind := h₂.kind.trans h₁.kind
  parent := h₂.parent.trans h₁.parent
  args := h₂.args.trans h₁.args
  size := Nat.le_trans h₁.size h₂.size
  vars h := by
    obtain ⟨v', hv', hg⟩ := h₁.vars h
    obtain ⟨v'', hv'', hg'⟩ := h₂.vars hv'
    exact ⟨v'', hv'', hg.trans hg'⟩
  hidden {i v'} hle h := by
    by_cases hlt : i < s₂.vars.size
    · obtain ⟨v, hv⟩ : ∃ v, s₂.vars[i]? = some v := ⟨_, Array.getElem?_eq_getElem hlt⟩
      obtain ⟨v'', hv'', hg⟩ := h₂.vars hv
      obtain rfl := Option.some.inj (hv''.symm.trans h)
      rw [hg.visible]
      exact h₁.hidden hle hv
    · exact h₂.hidden (Nat.le_of_not_lt hlt) h
  heapVars h := h₂.heapVars (h₁.heapVars h)

theorem shown_eq {s s' : Scope} (h : s.Grown s') (id : Nat) : s'.shown id = s.shown id := by
  rw [shown_eq_shownBelow id h.size fun hle hv => h.hidden hle hv]
  apply shownBelow_congr
  intro i hi
  obtain ⟨v, hv⟩ : ∃ v, s.vars[i]? = some v := ⟨_, Array.getElem?_eq_getElem hi⟩
  obtain ⟨v', hv', hg⟩ := h.vars hv
  rw [hv, hv', Option.map_some, Option.map_some, hg.name, hg.visible]

end Scope.Grown

namespace ScopeTree

theorem Grown.refl (t : ScopeTree) : t.Grown t := ⟨rfl, fun h => ⟨_, h, .refl _⟩⟩

theorem Grown.trans {t₁ t₂ t₃ : ScopeTree} (h₁ : t₁.Grown t₂) (h₂ : t₂.Grown t₃) :
    t₁.Grown t₃ := by
  refine ⟨h₂.instanceVariables.trans h₁.instanceVariables, fun hs => ?_⟩
  obtain ⟨s', hs', hg⟩ := h₁.scopes hs
  obtain ⟨s'', hs'', hg'⟩ := h₂.scopes hs'
  exact ⟨s'', hs'', hg.trans hg'⟩

variable {t t' : ScopeTree} {id : Nat} {place : Place}

theorem Grown.inView_eq (h : t.Grown t') (hid : id < t.scopes.size) (coherent : t.Coherent) :
    t'.inView id = t.inView id := by
  induction id using Nat.strongRecOn with
  | ind id ih =>
    obtain ⟨s, hs⟩ : ∃ s, t.scopes[id]? = some s := ⟨_, Array.getElem?_eq_getElem hid⟩
    obtain ⟨s', hs', hg⟩ := h.scopes hs
    rw [ScopeTree.inView_eq hs, ScopeTree.inView_eq hs', hg.shown_eq, hg.parent]
    cases hp : s.parent with
    | none => rfl
    | some parent =>
      have hlt := (coherent hs).parent parent hp
      simp only [if_pos hlt]
      rw [ih parent hlt (Nat.lt_trans hlt hid)]

theorem Holds.mono {slot : UInt8} (h : t.Holds id slot place) (hg : t.Grown t') :
    t'.Holds id slot place := by
  induction h with
  | promoted hs hv hslot =>
    obtain ⟨s', hs', hg'⟩ := hg.scopes hs
    obtain ⟨v', hv', hgv⟩ := hg'.vars hv
    exact .promoted hs' hv' (hgv.heapSlot _ hslot)
  | chained hs hparent hslot _ ih =>
    obtain ⟨s', hs', hg'⟩ := hg.scopes hs
    exact .chained hs' (hg'.parent.trans hparent) (hg'.heapVars hslot) ih

def Captured (t : ScopeTree) (id : Nat) (place : Place) : Prop :=
  place.owner = id ∨ ∃ s parent slot, t.scopes[id]? = some s ∧ s.parent = some parent ∧
    t.Holds parent slot place

theorem Captured.mono (h : t.Captured id place) (hg : t.Grown t') : t'.Captured id place := by
  rcases h with howner | ⟨s, parent, slot, hs, hparent, hholds⟩
  · exact .inl howner
  · obtain ⟨s', hs', hg'⟩ := hg.scopes hs
    exact .inr ⟨s', parent, slot, hs', hg'.parent.trans hparent, hholds.mono hg⟩

end ScopeTree

end ObjectMachine
