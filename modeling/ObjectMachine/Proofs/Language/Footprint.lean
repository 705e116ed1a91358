import ObjectMachine.Proofs.Language.FirstPass

namespace ObjectMachine

/-- At most one slot has come to a scope, and nothing else but that a variable knows its slot. -/
structure Scope.Extended (s s' : Scope) : Prop extends s.Grown s' where
  sameSize : s'.vars.size = s.vars.size
  appended : s'.heapVars = s.heapVars ∨ ∃ o, s'.heapVars = s.heapVars.push o

theorem Scope.Extended.refl (s : Scope) : s.Extended s := ⟨.refl s, rfl, .inl rfl⟩

/-- How an inner scope uses a slot of the scope around it: through its own copy, if it has one. -/
def Scope.upward (s : Scope) (slot : UInt8) : Binding :=
  match s.chainedSlot? slot with
  | some mine => .own mine
  | none => .parent slot

namespace ScopeTree

variable {t t' : ScopeTree} {id : Nat} {name : String} {path : List Nat} {place : Place}

inductive Nearest (t : ScopeTree) (name : String) : Nat → List Nat → Place → Prop where
  | here {id index : Nat} {s : Scope} : t.scopes[id]? = some s → s.find? name = some index →
    t.Nearest name id [] ⟨id, index⟩
  | above {id parent : Nat} {path : List Nat} {place : Place} {s : Scope} :
    t.scopes[id]? = some s → s.find? name = none → s.parent = some parent →
    t.Nearest name parent path place → t.Nearest name id (parent :: path) place

def isArgument (t : ScopeTree) (place : Place) : Bool :=
  ((t.scope place.owner).vars.getD place.index default).kind = .argument

/-- Some scopes have got at most one slot each, and all others are as they were. -/
structure Extended (t t' : ScopeTree) (ids : List Nat) : Prop where
  instanceVariables : t'.instanceVariables = t.instanceVariables
  size : t'.scopes.size = t.scopes.size
  others : ∀ j, j ∉ ids → t'.scopes[j]? = t.scopes[j]?
  extended : ∀ {j : Nat} {s s' : Scope}, t.scopes[j]? = some s → t'.scopes[j]? = some s' →
    s.Extended s'

namespace Extended

theorem refl (t : ScopeTree) (ids : List Nat) : t.Extended t ids :=
  ⟨rfl, rfl, fun _ _ => rfl, fun hs hs' => Option.some.inj (hs.symm.trans hs') ▸ .refl _⟩

theorem mono {ids ids' : List Nat} (h : t.Extended t' ids) (hsub : ids ⊆ ids') :
    t.Extended t' ids' :=
  ⟨h.instanceVariables, h.size, fun j hj => h.others j fun hmem => hj (hsub hmem), h.extended⟩

theorem modify {ids : List Nat} {s : Scope} {f : Scope → Scope} (h : t.Extended t' ids)
    (hid : id ∉ ids) (hs : t.scopes[id]? = some s) (hf : s.Extended (f s)) :
    t.Extended (t'.modifyScope id f) (id :: ids) := by
  have hs' : t'.scopes[id]? = some s := (h.others id hid).trans hs
  refine ⟨h.instanceVariables, (by simp [modifyScope, h.size]), fun j hj => ?_,
    fun {j r r'} hr hr' => ?_⟩
  · rw [getElem?_modifyScope, if_neg (List.ne_of_not_mem_cons hj)]
    exact h.others j (List.not_mem_of_not_mem_cons hj)
  · rw [getElem?_modifyScope] at hr'
    split at hr'
    case isTrue heq =>
      subst heq
      obtain rfl := Option.some.inj (hs.symm.trans hr)
      rw [hs'] at hr'
      obtain rfl := Option.some.inj hr'
      exact hf
    case isFalse => exact h.extended hr hr'

end Extended

section Nearest

theorem Nearest.lt_size (hn : t.Nearest name id path place) : id < t.scopes.size := by
  cases hn with
  | here hs _ => exact (Array.getElem?_eq_some_iff.mp hs).1
  | above hs _ _ _ => exact (Array.getElem?_eq_some_iff.mp hs).1

theorem Nearest.lt (coherent : t.Coherent) (hn : t.Nearest name id path place) :
    ∀ p ∈ path, p < id := by
  induction hn with
  | here => exact nofun
  | above hs _ hparent _ ih =>
    have hlt := (coherent hs).parent _ hparent
    exact List.forall_mem_cons.mpr ⟨hlt, fun p hp => Nat.lt_trans (ih p hp) hlt⟩

theorem Nearest.unique {path' : List Nat} {place' : Place} (hn : t.Nearest name id path place)
    (hn' : t.Nearest name id path' place') : path = path' ∧ place = place' := by
  induction hn generalizing path' place' with
  | here hs hfind =>
    cases hn' with
    | here hs' hfind' =>
      obtain rfl := Option.some.inj (hs.symm.trans hs')
      obtain rfl := Option.some.inj (hfind.symm.trans hfind')
      exact ⟨rfl, rfl⟩
    | above hs' hfind' _ _ =>
      obtain rfl := Option.some.inj (hs.symm.trans hs')
      cases hfind.symm.trans hfind'
  | above hs hfind hparent _ ih =>
    cases hn' with
    | here hs' hfind' =>
      obtain rfl := Option.some.inj (hs.symm.trans hs')
      cases hfind.symm.trans hfind'
    | above hs' _ hparent' hrest =>
      obtain rfl := Option.some.inj (hs.symm.trans hs')
      obtain rfl := Option.some.inj (hparent.symm.trans hparent')
      obtain ⟨rfl, rfl⟩ := ih hrest
      exact ⟨rfl, rfl⟩

theorem exists_variable {s : Scope} {index : Nat} (hfind : s.find? name = some index) :
    ∃ v, s.vars[index]? = some v ∧ v.name = name := by
  rw [find?_eq s 0, Option.map_eq_some_iff] at hfind
  obtain ⟨place, hseen, rfl⟩ := hfind
  exact (seen_shown hseen).2

theorem Nearest.variable (hn : t.Nearest name id path place) :
    ∃ s v, t.scopes[place.owner]? = some s ∧ s.vars[place.index]? = some v := by
  induction hn with
  | here hs hfind =>
    obtain ⟨v, hv, -⟩ := exists_variable hfind
    exact ⟨_, v, hs, hv⟩
  | above _ _ _ _ ih => exact ih

theorem find?_grown {s s' : Scope} (hg : s.Grown s') : s'.find? name = s.find? name := by
  rw [find?_eq s' 0, find?_eq s 0, hg.shown_eq]

theorem Nearest.grown (hn : t.Nearest name id path place) (hg : t.Grown t') :
    t'.Nearest name id path place := by
  induction hn with
  | here hs hfind =>
    obtain ⟨s', hs', hgs⟩ := hg.scopes hs
    exact .here hs' ((find?_grown hgs).trans hfind)
  | above hs hfind hparent _ ih =>
    obtain ⟨s', hs', hgs⟩ := hg.scopes hs
    exact .above hs' ((find?_grown hgs).trans hfind) (hgs.parent.trans hparent) ih

theorem isArgument_eq {s : Scope} {v : Variable} (hs : t.scopes[place.owner]? = some s)
    (hv : s.vars[place.index]? = some v) : t.isArgument place = decide (v.kind = .argument) := by
  simp [isArgument, scope_eq hs, hv]

theorem Nearest.isArgument_grown (hn : t.Nearest name id path place) (hg : t.Grown t') :
    t'.isArgument place = t.isArgument place := by
  obtain ⟨s, v, hs, hv⟩ := hn.variable
  obtain ⟨s', hs', hgs⟩ := hg.scopes hs
  obtain ⟨v', hv', hgv⟩ := hgs.vars hv
  rw [isArgument_eq hs hv, isArgument_eq hs' hv', hgv.kind]

/-- What is in view of a scope is the nearest variable of a name. -/
theorem Nearest.seen_eq (coherent : t.Coherent) (hn : t.Nearest name id path place) :
    seen (t.inView id) name = some place := by
  induction hn with
  | @here id index s hs hfind =>
    rw [find?_eq s id, Option.map_eq_some_iff] at hfind
    obtain ⟨⟨owner, index⟩, hseen, rfl⟩ := hfind
    obtain rfl : owner = id := (seen_shown hseen).1
    rw [inView_eq hs, seen_append, hseen]
    rfl
  | @above id parent path place s hs hfind hparent _ ih =>
    rw [find?_eq s id, Option.map_eq_none_iff] at hfind
    rw [inView_eq hs, seen_append, hfind, hparent, Option.none_or]
    simpa only [if_pos ((coherent hs).parent _ hparent)] using ih

theorem exists_nearest (coherent : t.Coherent) (hid : id < t.scopes.size)
    (h : seen (t.inView id) name = some place) : ∃ path, t.Nearest name id path place := by
  induction id using Nat.strongRecOn with
  | ind id ih =>
    obtain ⟨s, hs⟩ : ∃ s, t.scopes[id]? = some s := ⟨_, Array.getElem?_eq_getElem hid⟩
    rcases seen_inView_cases coherent hs name with
      ⟨place', hown, hview⟩ | ⟨-, -, hview⟩ | ⟨parent, hown, hparent, hlt, hview⟩
    · obtain rfl := Option.some.inj (h.symm.trans hview)
      obtain ⟨rfl, -⟩ := seen_shown hown
      exact ⟨[], .here hs (by rw [find?_eq, hown]; rfl)⟩
    · rw [h] at hview
      cases hview
    · obtain ⟨path, hn⟩ := ih parent hlt (Nat.lt_trans hlt hid) (hview.symm.trans h)
      exact ⟨_, .above hs (by rw [find?_eq s id, hown]; rfl) hparent hn⟩

end Nearest

/-- The slots that a look-up adds for an inner scope, and what it says of the variable. -/
theorem capture_extends {c : Capture} (coherent : t.Coherent) (hn : t.Nearest name id path place)
    (h : capture name id t = .ok c t') :
    t.Extended t' (id :: path) ∧ ∃ slot, c = .slot slot (t.isArgument place) := by
  induction hn generalizing c t' with
  | @here id index s hs hfind =>
    obtain ⟨v, hv, -⟩ := exists_variable hfind
    rw [capture, get_bind, scope_eq hs] at h
    simp only [hfind, bind_eq_ok, pure_eq_ok] at h
    obtain ⟨slot, t₁, hpromote, rfl, rfl⟩ := h
    refine ⟨?_, slot, by simp [isArgument, scope_eq hs]⟩
    cases hslot : v.heapSlot with
    | some slot' =>
      rw [promote_eq_some hs hv hslot] at hpromote
      cases hpromote
      exact .refl t _
    | none =>
      have hgrown := (promote_spec coherent hs hv hpromote).1
      obtain ⟨-, -, rfl⟩ := promote_eq_none hs hv hslot hpromote
      obtain ⟨s', hs', hg⟩ := hgrown.scopes hs
      obtain rfl := Option.some.inj ((scopes_modifyScope_self hs).symm.trans hs')
      exact (Extended.refl t []).modify List.not_mem_nil hs ⟨hg, by simp, .inr ⟨_, rfl⟩⟩
  | @above id parent path place s hs hfind hparent hrest ih =>
    have hlt := (coherent hs).parent _ hparent
    rw [capture, get_bind, scope_eq hs] at h
    simp only [hfind, hparent, if_pos hlt, bind_eq_ok] at h
    obtain ⟨c₁, t₁, hcapture, h⟩ := h
    obtain ⟨hextended, parentSlot, rfl⟩ := ih hcapture
    have hid : id ∉ parent :: path := fun hmem =>
      Nat.lt_irrefl id ((Nearest.above hs hfind hparent hrest).lt coherent id hmem)
    have hs₁ : t₁.scopes[id]? = some s := (hextended.others id hid).trans hs
    simp only [get_bind, scope_eq hs₁] at h
    cases hchained : s.chainedSlot? parentSlot with
    | some slot =>
      simp only [hchained, pure_eq_ok] at h
      obtain ⟨rfl, rfl⟩ := h
      exact ⟨hextended.mono (List.subset_cons_self _ _), slot, rfl⟩
    | none =>
      simp only [hchained, bind_eq_ok, pure_eq_ok] at h
      obtain ⟨slot, t₂, hpush, rfl, rfl⟩ := h
      obtain ⟨-, -, rfl⟩ := pushHeapVar_eq_ok hs₁ hpush
      refine ⟨hextended.modify hid hs ⟨?_, rfl, .inr ⟨_, rfl⟩⟩, slot, rfl⟩
      exact { Scope.Grown.refl s with heapVars := fun ho => getElem?_push_of_some ho }

/-- A look-up for an inner scope that finds no declaration leads to the class. -/
theorem capture_nowhere (coherent : t.Coherent) (hid : id < t.scopes.size)
    (h : seen (t.inView id) name = none) : capture name id t = .ok (t.classLookup name) t := by
  induction id using Nat.strongRecOn with
  | ind id ih =>
    obtain ⟨s, hs⟩ : ∃ s, t.scopes[id]? = some s := ⟨_, Array.getElem?_eq_getElem hid⟩
    rw [capture, get_bind, scope_eq hs, find?_eq s id]
    rcases seen_inView_cases coherent hs name with
      ⟨place, -, hview⟩ | ⟨hown, hparent, -⟩ | ⟨parent, hown, hparent, hlt, hview⟩
    · rw [h] at hview
      cases hview
    · simp only [hown, hparent, Option.map_none]
      rfl
    · simp only [hown, hparent, Option.map_none, if_pos hlt]
      refine bind_eq_ok.mpr ⟨_, t, ih parent hlt (Nat.lt_trans hlt hid) (hview.symm.trans h), ?_⟩
      have hclass : ∀ slot isArgument, t.classLookup name ≠ .slot slot isArgument := by
        intro slot isArgument
        rw [classLookup]
        split <;> simp
      cases hc : t.classLookup name with
      | slot slot isArgument => exact absurd hc (hclass slot isArgument)
      | instanceVariable | global => rfl

section Refused

variable {e : CompileError}

theorem pushHeapVar_eq_error {o : Origin} (h : pushHeapVar id o t = .error e t') : t' = t := by
  rw [pushHeapVar, get_bind] at h
  split at h
  · cases h
    rfl
  · cases h

theorem promote_eq_error {index : Nat} (h : promote id index t = .error e t') : t' = t := by
  rw [promote, get_bind] at h
  cases hslot : ((t.scope id).vars.getD index default).heapSlot with
  | some slot =>
    simp only [hslot] at h
    cases h
  | none =>
    simp only [hslot] at h
    rcases bind_eq_error h with h | ⟨slot, t₁, -, h⟩
    · exact pushHeapVar_eq_error h
    · cases h

/-- A refused look-up leaves the tree coherent, with slots that it may have added. -/
theorem capture_refused (coherent : t.Coherent) (hid : id < t.scopes.size)
    (h : capture name id t = .error e t') : t.Grown t' ∧ t'.Coherent := by
  induction id using Nat.strongRecOn generalizing t' with
  | ind id ih =>
    obtain ⟨s, hs⟩ : ∃ s, t.scopes[id]? = some s := ⟨_, Array.getElem?_eq_getElem hid⟩
    rw [capture, get_bind, scope_eq hs, find?_eq s id] at h
    rcases seen_inView_cases coherent hs name with
      ⟨place, hown, -⟩ | ⟨hown, hparent, -⟩ | ⟨parent, hown, hparent, hlt, -⟩
    · simp only [hown, Option.map_some] at h
      rcases bind_eq_error h with h | ⟨slot, t₁, -, h⟩
      · obtain rfl := promote_eq_error h
        exact ⟨.refl _, coherent⟩
      · cases h
    · simp only [hown, hparent, Option.map_none] at h
      cases h
    · simp only [hown, hparent, Option.map_none, if_pos hlt] at h
      have hparent_lt := Nat.lt_trans hlt hid
      rcases bind_eq_error h with h | ⟨c, t₁, hcapture, h⟩
      · exact ih parent hlt hparent_lt h
      -- only a new copy of the parent's slot may be refused now
      have hspec := capture_spec coherent hparent_lt hcapture
      cases c with
      | instanceVariable | global => cases h
      | slot parentSlot isArgument =>
        cases hseen : seen (t.inView parent) name with
        | none =>
          rw [hseen] at hspec
          have hclass := hspec.1
          rw [classLookup] at hclass
          split at hclass <;> cases hclass
        | some place =>
          rw [hseen] at hspec
          simp only [get_bind] at h
          cases hchained : (t₁.scope id).chainedSlot? parentSlot with
          | some slot =>
            simp only [hchained] at h
            cases h
          | none =>
            simp only [hchained] at h
            rcases bind_eq_error h with h | ⟨slot, t₂, -, h⟩
            · obtain rfl := pushHeapVar_eq_error h
              exact ⟨hspec.1, hspec.2.1⟩
            · cases h

end Refused

section Lookup

variable {s : Scope}

theorem lookup_here {v : Variable} {index : Nat} (hname : name ∉ reservedNames)
    (hs : t.scopes[id]? = some s) (hfind : s.find? name = some index)
    (hv : s.vars[index]? = some v) :
    lookup id name t = .ok (v.binding, decide (v.kind = .argument)) t := by
  have hvar : s.vars.getD index default = v := by simp [hv]
  rw [lookup, if_neg (by simpa using hname)]
  simp only [get_bind, scope_eq hs, hfind, hvar]
  rfl

theorem lookup_nowhere (coherent : t.Coherent) (hname : name ∉ reservedNames)
    (hid : id < t.scopes.size) (h : seen (t.inView id) name = none) :
    lookup id name t = .ok (t.classBinding name, false) t := by
  obtain ⟨s, hs⟩ : ∃ s, t.scopes[id]? = some s := ⟨_, Array.getElem?_eq_getElem hid⟩
  have hfind : s.find? name = none := by
    rw [find?_eq s id, Option.map_eq_none_iff]
    rw [inView_eq hs, seen_append] at h
    exact (Option.or_eq_none_iff.mp h).1
  rw [lookup, if_neg (by simpa using hname)]
  simp only [get_bind, scope_eq hs, hfind]
  rcases seen_inView_cases coherent hs name with
    ⟨place, -, hview⟩ | ⟨-, hparent, -⟩ | ⟨parent, -, hparent, hlt, hview⟩
  · rw [h] at hview
    cases hview
  · simp only [hparent, classLookup, classBinding]
    cases t.instanceVariables.findIdx? (· == name) <;> rfl
  · have hcapture := capture_nowhere coherent (Nat.lt_trans hlt hid) (hview.symm.trans h)
    simp only [hparent]
    refine bind_eq_ok.mpr ⟨_, t, hcapture, ?_⟩
    rw [classLookup, classBinding]
    cases t.instanceVariables.findIdx? (· == name) <;> rfl

theorem lookup_above {parent : Nat} {slot : UInt8} {isArgument : Bool}
    (hname : name ∉ reservedNames)
    (hs : t.scopes[id]? = some s) (hfind : s.find? name = none) (hparent : s.parent = some parent)
    (h : capture name parent t = .ok (.slot slot isArgument) t') :
    lookup id name t = .ok ((t'.scope id).upward slot, isArgument) t' := by
  rw [lookup, if_neg (by simpa using hname)]
  simp only [get_bind, scope_eq hs, hfind, hparent]
  refine bind_eq_ok.mpr ⟨_, t', h, ?_⟩
  rw [Scope.upward]
  simp only [get_bind]
  cases (t'.scope id).chainedSlot? slot <;> rfl

theorem not_reserved_of_lookup {r : Binding × Bool} (h : lookup id name t = .ok r t') :
    name ∉ reservedNames := by
  rw [lookup] at h
  split at h
  case isTrue => simp only [bind_eq_ok, throw_eq_ok, false_and, exists_false] at h
  case isFalse hname => simpa using hname

/-- A look-up of what is declared further out is one for the scope around, whose slot is then used
from the scope itself. -/
theorem lookup_of_nearest {parent : Nat} {r : Binding × Bool} (coherent : t.Coherent)
    (hn : t.Nearest name id (parent :: path) place) (h : lookup id name t = .ok r t') :
    ∃ slot, capture name parent t = .ok (.slot slot (t.isArgument place)) t' ∧
      r = ((t'.scope id).upward slot, t.isArgument place) := by
  have hname := not_reserved_of_lookup h
  cases hn with
  | above hs hfind hparent hrest =>
    have hcapture : ∃ c, capture name parent t = .ok c t' := by
      rw [lookup, if_neg (by simpa using hname)] at h
      simp only [get_bind, scope_eq hs, hfind, hparent, bind_eq_ok] at h
      obtain ⟨c, t₁, hcapture, hlast⟩ := h
      obtain ⟨-, slot, rfl⟩ := capture_extends coherent hrest hcapture
      simp only [get_bind] at hlast
      cases hchained : (t₁.scope id).chainedSlot? slot with
      | some mine =>
        simp only [hchained, pure_eq_ok] at hlast
        exact ⟨_, hlast.2 ▸ hcapture⟩
      | none =>
        simp only [hchained, pure_eq_ok] at hlast
        exact ⟨_, hlast.2 ▸ hcapture⟩
    obtain ⟨c, hcapture⟩ := hcapture
    obtain ⟨-, slot, rfl⟩ := capture_extends coherent hrest hcapture
    have hlookup := lookup_above hname hs hfind hparent hcapture
    rw [h] at hlookup
    obtain ⟨rfl, -⟩ := EStateM.Result.ok.inj hlookup
    exact ⟨slot, hcapture, rfl⟩

/-- A look-up that is repeated answers the same and changes nothing. -/
theorem lookup_again {r : Binding × Bool} (coherent : t.Coherent) (hid : id < t.scopes.size)
    (h : lookup id name t = .ok r t') : lookup id name t' = .ok r t' := by
  have hname := not_reserved_of_lookup h
  obtain ⟨hg, coherent', -⟩ := lookup_spec coherent hid h
  cases hseen : seen (t.inView id) name with
  | none =>
    have hagain := lookup_nowhere coherent hname hid hseen
    rw [hagain] at h
    obtain ⟨rfl, rfl⟩ := EStateM.Result.ok.inj h
    exact hagain
  | some place =>
    obtain ⟨path, hn⟩ := exists_nearest coherent hid hseen
    cases hn with
    | here hs hfind =>
      obtain ⟨v, hv, -⟩ := exists_variable hfind
      have hagain := lookup_here hname hs hfind hv
      rw [hagain] at h
      obtain ⟨rfl, rfl⟩ := EStateM.Result.ok.inj h
      exact hagain
    | above hs hfind hparent hrest =>
      obtain ⟨slot, hcapture, rfl⟩ := lookup_of_nearest coherent (.above hs hfind hparent hrest) h
      have hspec := capture_spec coherent hrest.lt_size hcapture
      rw [hrest.seen_eq coherent] at hspec
      obtain ⟨-, -, slot', _, heq, hholds⟩ := hspec
      obtain ⟨rfl, -⟩ := Capture.slot.inj heq
      have hrest' := hrest.grown hg
      obtain ⟨isArgument, hheld⟩ :=
        capture_held coherent' hrest'.lt_size (hrest'.seen_eq coherent') hholds
      obtain ⟨-, _, hsame⟩ := capture_extends coherent' hrest' hheld
      obtain ⟨-, rfl⟩ := Capture.slot.inj hsame
      rw [hrest.isArgument_grown hg] at hheld
      obtain ⟨s', hs', hgs⟩ := hg.scopes hs
      exact lookup_above hname hs' ((find?_grown hgs).trans hfind) (hgs.parent.trans hparent) hheld

end Lookup

/-- The tree that a step leaves behind, refused or not. -/
def left {α : Type} : EStateM.Result CompileError ScopeTree α → ScopeTree
  | .ok _ t | .error _ t => t

theorem left_resolve (t : ScopeTree) (id : Nat) (name : String) :
    left (resolve id name t) = left (lookup id name t) := by
  cases h : lookup id name t with
  | ok r t' => rw [resolve, bind_of_eq_ok h]; rfl
  | error e t' => rw [resolve, bind_of_eq_error h]; rfl

theorem left_resolveAssignment (t : ScopeTree) (id : Nat) (name : String) :
    left (resolveAssignment id name t) = left (lookup id name t) := by
  cases h : lookup id name t with
  | ok r t' =>
    obtain ⟨b, isArgument⟩ := r
    rw [resolveAssignment, bind_of_eq_ok h]
    cases isArgument <;> rfl
  | error e t' => rw [resolveAssignment, bind_of_eq_error h]; rfl

/-- The trees that come about by opening scopes, outer ones first, declaring names and resolving
names in any order. -/
inductive Built (instanceVariables : List String) : ScopeTree → Prop where
  | empty : Built instanceVariables { instanceVariables }
  | opens {t : ScopeTree} (kind : ScopeKind) {parent : Option Nat} : Built instanceVariables t →
    (∀ p, parent = some p → p < t.scopes.size) → Built instanceVariables (left (push kind parent t))
  | declares {t : ScopeTree} {id : Nat} (name : String) (kind : VariableKind) :
    Built instanceVariables t → id < t.scopes.size →
    Built instanceVariables (left (declare id name kind t))
  | resolves {t : ScopeTree} {id : Nat} (name : String) : Built instanceVariables t →
    id < t.scopes.size → Built instanceVariables (left (resolve id name t))
  | assigns {t : ScopeTree} {id : Nat} (name : String) : Built instanceVariables t →
    id < t.scopes.size → Built instanceVariables (left (resolveAssignment id name t))

theorem left_declare {s : Scope} (name : String) (kind : VariableKind)
    (hs : t.scopes[id]? = some s) :
    left (declare id name kind t) = t ∨ s.vars.size + 1 < maxRegisters ∧
      left (declare id name kind t) = t.modifyScope id (·.withVar kind name) := by
  cases h : declare id name kind t with
  | ok index t' => exact .inr (declare_eq_ok hs h)
  | error e t' =>
    rw [declare] at h
    split at h
    · cases h
      exact .inl rfl
    · simp only [get_bind] at h
      split at h
      · cases h
        exact .inl rfl
      · cases h

theorem lookup_coherent (coherent : t.Coherent) (hid : id < t.scopes.size) :
    (left (lookup id name t)).Coherent := by
  cases h : lookup id name t with
  | ok r t' => exact (lookup_spec coherent hid h).2.1
  | error e t' =>
    by_cases hname : name ∈ reservedNames
    · rw [lookup, if_pos (by simpa using hname)] at h
      cases h
      exact coherent
    cases hseen : seen (t.inView id) name with
    | none =>
      rw [lookup_nowhere coherent hname hid hseen] at h
      cases h
    | some place =>
      obtain ⟨path, hn⟩ := exists_nearest coherent hid hseen
      cases hn with
      | here hs hfind =>
        obtain ⟨v, hv, -⟩ := exists_variable hfind
        rw [lookup_here hname hs hfind hv] at h
        cases h
      | @above _ parent _ _ _ hs hfind hparent hrest =>
        cases hcapture : capture name parent t with
        | ok c t₁ =>
          obtain ⟨-, slot, rfl⟩ := capture_extends coherent hrest hcapture
          rw [lookup_above hname hs hfind hparent hcapture] at h
          cases h
        | error e₁ t₁ =>
          have hrefused : lookup id name t = .error e₁ t₁ := by
            rw [lookup, if_neg (by simpa using hname)]
            simp only [get_bind, scope_eq hs, hfind, hparent]
            exact bind_of_eq_error hcapture
          rw [hrefused] at h
          cases h
          exact (capture_refused coherent hrest.lt_size hcapture).2

theorem Built.coherent {instanceVariables : List String} (h : Built instanceVariables t) :
    t.Coherent := by
  induction h with
  | empty => exact fun hs => by simp at hs
  | opens kind _ hparent ih => exact coherent_opened ih hparent
  | @declares t id name kind _ hid ih =>
    obtain ⟨s, hs⟩ : ∃ s, t.scopes[id]? = some s := ⟨_, Array.getElem?_eq_getElem hid⟩
    rcases left_declare name kind hs with hsame | ⟨hroom, hleft⟩
    · rw [hsame]
      exact ih
    · have hat : Coherent.At t id (s.withVars kind [name]) := (ih hs).widened (.inr hroom)
      rw [hleft]
      intro k s' hs'
      exact coherent_modifyScope ih hs hat (Nat.le_refl _) hs'
  | resolves name _ hid ih => exact left_resolve .. ▸ lookup_coherent ih hid
  | assigns name _ hid ih => exact left_resolveAssignment .. ▸ lookup_coherent ih hid

/-- How a scope uses a slot of the scope around it, as its own slots tell. -/
theorem upward_cases {s : Scope} {slot : UInt8} (hat : Coherent.At t id s) :
    (∃ mine, s.upward slot = .own mine ∧ s.heapVars[mine.toNat]? = some (Origin.chained slot)) ∨
      s.upward slot = .parent slot ∧ ∀ i : Nat, s.heapVars[i]? ≠ some (Origin.chained slot) := by
  rw [Scope.upward]
  cases hchained : s.chainedSlot? slot with
  | some mine => exact .inl ⟨mine, rfl, chainedSlot?_eq_some hat.slots hchained⟩
  | none => exact .inr ⟨rfl, fun _ => chainedSlot?_eq_none hchained⟩

theorem resolve_eq_ok_iff {b : Binding} :
    resolve id name t = .ok b t' ↔ ∃ isArgument, lookup id name t = .ok (b, isArgument) t' := by
  refine ⟨resolve_eq_ok, fun ⟨isArgument, h⟩ => ?_⟩
  rw [resolve, bind_of_eq_ok h]
  rfl

theorem resolveAssignment_eq_ok_iff {b : Binding} :
    resolveAssignment id name t = .ok b t' ↔ lookup id name t = .ok (b, false) t' := by
  refine ⟨resolveAssignment_eq_ok, fun h => ?_⟩
  rw [resolveAssignment, bind_of_eq_ok h]
  rfl

/-- A look-up tells whether the nearest variable of a name is an argument. -/
theorem lookup_isArgument {b : Binding} {isArgument : Bool} (coherent : t.Coherent)
    (hid : id < t.scopes.size) (h : lookup id name t = .ok (b, isArgument) t') :
    isArgument = false ↔
      ∀ path place, t.Nearest name id path place → t.isArgument place = false := by
  have hname := not_reserved_of_lookup h
  cases hseen : seen (t.inView id) name with
  | none =>
    rw [lookup_nowhere coherent hname hid hseen] at h
    obtain ⟨heq, -⟩ := EStateM.Result.ok.inj h
    obtain ⟨-, rfl⟩ := Prod.mk.inj heq
    refine ⟨fun _ path place hn => ?_, fun _ => rfl⟩
    rw [hn.seen_eq coherent] at hseen
    cases hseen
  | some place =>
    obtain ⟨path, hn⟩ := exists_nearest coherent hid hseen
    have hsame : isArgument = t.isArgument place := by
      cases hn with
      | here hs hfind =>
        obtain ⟨v, hv, -⟩ := exists_variable hfind
        rw [lookup_here hname hs hfind hv] at h
        obtain ⟨heq, -⟩ := EStateM.Result.ok.inj h
        exact (Prod.mk.inj heq).2.symm.trans (isArgument_eq hs hv).symm
      | above hs hfind hparent hrest =>
        obtain ⟨slot, -, heq⟩ := lookup_of_nearest coherent (.above hs hfind hparent hrest) h
        exact (Prod.mk.inj heq).2
    rw [hsame]
    refine ⟨fun hno path' place' hn' => ?_, fun hno => hno path place hn⟩
    obtain ⟨-, rfl⟩ := hn.unique hn'
    exact hno

/-- The footprint of resolution. A name that is declared further out gets at most one slot in each
scope from there to the one around the user, and the user reaches the last of them through its own
copy, if it has one. A name that the scope itself or no scope declares gets none. Resolving a name
again answers the same and changes nothing. An assignment has the effect of a read, and is bound in
the same way unless the variable is an argument. -/
theorem Built.resolve_footprint {instanceVariables : List String} (h : Built instanceVariables t)
    (hid : id < t.scopes.size) (hname : name ∉ reservedNames) :
    (∀ parent path place b t', t.Nearest name id (parent :: path) place →
      resolve id name t = .ok b t' → t.Extended t' (parent :: path) ∧
      ∃ s slot, t.scopes[id]? = some s ∧ t'.Holds parent slot place ∧
        ((∃ mine, b = .own mine ∧ s.heapVars[mine.toNat]? = some (Origin.chained slot)) ∨
          b = .parent slot ∧ ∀ i : Nat, s.heapVars[i]? ≠ some (Origin.chained slot))) ∧
    (∀ place, t.Nearest name id [] place → ∃ s v, t.scopes[id]? = some s ∧
      s.vars[place.index]? = some v ∧ resolve id name t = .ok v.binding t) ∧
    ((∀ path place, ¬t.Nearest name id path place) →
      resolve id name t = .ok (t.classBinding name) t) ∧
    (∀ b t', resolve id name t = .ok b t' → resolve id name t' = .ok b t') ∧
    left (resolveAssignment id name t) = left (resolve id name t) ∧
    ∀ b t', resolveAssignment id name t = .ok b t' ↔ resolve id name t = .ok b t' ∧
      ∀ path place, t.Nearest name id path place → t.isArgument place = false := by
  have coherent : t.Coherent := h.coherent
  refine ⟨fun parent path place b t' hn hresolve => ?_, fun place hn => ?_, fun hno => ?_,
    fun b t' hresolve => ?_, (left_resolveAssignment ..).trans (left_resolve ..).symm,
      fun b t' => ?_⟩
  · obtain ⟨isArgument, hlookup⟩ := resolve_eq_ok hresolve
    obtain ⟨slot, hcapture, heq⟩ := lookup_of_nearest coherent hn hlookup
    obtain ⟨rfl, -⟩ := Prod.mk.inj heq
    have hlt := hn.lt coherent
    cases hn with
    | @above _ _ _ _ s hs hfind hparent hrest =>
      obtain ⟨hextended, -⟩ := capture_extends coherent hrest hcapture
      have hspec := capture_spec coherent hrest.lt_size hcapture
      rw [hrest.seen_eq coherent] at hspec
      obtain ⟨-, coherent', slot', _, heq, hholds⟩ := hspec
      obtain ⟨rfl, -⟩ := Capture.slot.inj heq
      have hs' : t'.scopes[id]? = some s :=
        (hextended.others id fun hmem => Nat.lt_irrefl id (hlt id hmem)).trans hs
      rw [scope_eq hs']
      exact ⟨hextended, s, slot, hs, hholds, upward_cases (coherent' hs')⟩
  · cases hn with
    | here hs hfind =>
      obtain ⟨v, hv, -⟩ := exists_variable hfind
      exact ⟨_, v, hs, hv, resolve_eq_ok_iff.mpr ⟨_, lookup_here hname hs hfind hv⟩⟩
  · have hseen : seen (t.inView id) name = none := by
      cases hseen : seen (t.inView id) name with
      | none => rfl
      | some place =>
        obtain ⟨path, hn⟩ := exists_nearest coherent hid hseen
        exact absurd hn (hno path place)
    exact resolve_eq_ok_iff.mpr ⟨_, lookup_nowhere coherent hname hid hseen⟩
  · obtain ⟨isArgument, hlookup⟩ := resolve_eq_ok hresolve
    exact resolve_eq_ok_iff.mpr ⟨isArgument, lookup_again coherent hid hlookup⟩
  · rw [resolveAssignment_eq_ok_iff, resolve_eq_ok_iff]
    refine ⟨fun hlookup => ⟨⟨false, hlookup⟩, (lookup_isArgument coherent hid hlookup).mp rfl⟩, ?_⟩
    rintro ⟨⟨isArgument, hlookup⟩, hno⟩
    rwa [(lookup_isArgument coherent hid hlookup).mpr hno] at hlookup

def threeDeep : ScopeTree :=
  left (push .block (some 1) (left (push .block (some 0)
    (left (declare 0 "x" .local (left (push .method none { instanceVariables := [] })))))))

theorem threeDeep_built : Built [] threeDeep :=
  .opens .block
    (.opens .block (.declares "x" .local (.opens .method .empty nofun) (by decide +kernel))
      (by rintro p ⟨⟩; decide +kernel))
    (by rintro p ⟨⟩; decide +kernel)

theorem threeDeep_nearest : threeDeep.Nearest "x" 2 [1, 0] ⟨0, 0⟩ :=
  .above rfl rfl rfl (.above rfl rfl rfl (.here rfl rfl))

theorem threeDeep_resolve_footprint : ∃ b t', resolve 2 "x" threeDeep = .ok b t' ∧
    threeDeep.Extended t' [1, 0] ∧ t'.Holds 1 0 ⟨0, 0⟩ ∧ b = .parent 0 ∧
    resolve 2 "x" t' = .ok b t' ∧ resolveAssignment 2 "x" threeDeep = .ok b t' := by
  have hok : (match resolve 2 "x" threeDeep with
      | .ok b _ => decide (b = .parent 0)
      | .error .. => false) = true := by decide +kernel
  have hreserved : "x" ∉ reservedNames := by decide
  obtain ⟨hsteps, -, -, hagain, -, hassign⟩ :=
    threeDeep_built.resolve_footprint (by decide +kernel : 2 < threeDeep.scopes.size) hreserved
  cases hr : resolve 2 "x" threeDeep with
  | error e t' => simp [hr] at hok
  | ok b t' =>
    rw [hr, decide_eq_true_eq] at hok
    subst hok
    obtain ⟨hextended, s, slot, -, hholds, hbinding⟩ :=
      hsteps 1 [0] ⟨0, 0⟩ _ t' threeDeep_nearest hr
    have hslot : slot = 0 := by
      rcases hbinding with ⟨mine, heq, -⟩ | ⟨heq, -⟩ <;> cases heq
      rfl
    refine ⟨_, t', rfl, hextended, hslot ▸ hholds, rfl, hagain _ t' hr,
      (hassign _ t').mpr ⟨hr, fun path place hn => ?_⟩⟩
    obtain ⟨-, rfl⟩ := hn.unique threeDeep_nearest
    rfl

end ScopeTree

end ObjectMachine
