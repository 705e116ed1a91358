import ObjectMachine.Proofs.Action
import ObjectMachine.Proofs.Language.Growth

namespace ObjectMachine.ScopeTree

variable {t t' : ScopeTree} {id : Nat} {place : Place}

theorem getElem?_modifyScope (t : ScopeTree) (id k : Nat) (f : Scope → Scope) :
    (t.modifyScope id f).scopes[k]? = if k = id then (t.scopes[id]?).map f else t.scopes[k]? := by
  rw [modifyScope, Array.getElem?_modify]
  by_cases h : id = k
  · subst h
    simp
  · rw [if_neg h, if_neg (Ne.symm h)]

theorem Coherent.At.mono {s : Scope} (h : Coherent.At t id s)
    (later : ∀ {p : Nat} {s' : Scope}, t.scopes[p]? = some s' →
      ∃ s'', t'.scopes[p]? = some s'' ∧ s'.heapVars.size ≤ s''.heapVars.size) :
    Coherent.At t' id s :=
  { h with
    chained := fun hslot => by
      obtain ⟨p, s', hp, hs', hlt⟩ := h.chained hslot
      obtain ⟨s'', hs'', hle⟩ := later hs'
      exact ⟨p, s'', hp, hs'', Nat.lt_of_lt_of_le hlt hle⟩ }

section Modify

variable {s : Scope} {f : Scope → Scope}

theorem scopes_modifyScope_self (hs : t.scopes[id]? = some s) :
    (t.modifyScope id f).scopes[id]? = some (f s) := by
  rw [getElem?_modifyScope, if_pos rfl, hs]
  rfl

theorem modifyScope_congr {g : Scope → Scope} (hs : t.scopes[id]? = some s) (h : f s = g s) :
    t.modifyScope id f = t.modifyScope id g := by
  rw [modifyScope, modifyScope]
  congr 1
  apply Array.ext_getElem?
  intro k
  rw [Array.getElem?_modify, Array.getElem?_modify]
  split
  case isTrue hk =>
    subst hk
    rw [hs, Option.map_some, Option.map_some, h]
  case isFalse => rfl

theorem modifyScope_self (hs : t.scopes[id]? = some s) (h : f s = s) : t.modifyScope id f = t := by
  have hscopes : t.scopes.modify id f = t.scopes := by
    apply Array.ext_getElem?
    intro k
    rw [Array.getElem?_modify]
    split
    case isTrue hk =>
      subst hk
      rw [hs, Option.map_some, h]
    case isFalse => rfl
  rw [modifyScope, hscopes]

theorem modifyScope_modifyScope (t : ScopeTree) (id : Nat) (f g : Scope → Scope) :
    (t.modifyScope id f).modifyScope id g = t.modifyScope id (g ∘ f) := by
  have hscopes : (t.scopes.modify id f).modify id g = t.scopes.modify id (g ∘ f) := by
    apply Array.ext_getElem?
    intro k
    simp only [Array.getElem?_modify]
    split <;> simp
  rw [modifyScope, modifyScope, modifyScope, hscopes]

theorem grown_modifyScope (hs : t.scopes[id]? = some s) (hg : s.Grown (f s)) :
    t.Grown (t.modifyScope id f) := by
  refine ⟨rfl, fun {k s'} hs' => ?_⟩
  by_cases hk : k = id
  · subst hk
    obtain rfl := Option.some.inj (hs.symm.trans hs')
    exact ⟨f s, scopes_modifyScope_self hs, hg⟩
  · exact ⟨s', by rw [getElem?_modifyScope, if_neg hk, hs'], .refl s'⟩

/-- A change to one scope keeps the tree coherent if the scope is so afterwards and keeps its
slots. -/
theorem coherent_modifyScope (coherent : t.Coherent) (hs : t.scopes[id]? = some s)
    (hat : Coherent.At t id (f s)) (hsize : s.heapVars.size ≤ (f s).heapVars.size) :
    (t.modifyScope id f).Coherent := by
  have later : ∀ {p : Nat} {s' : Scope}, t.scopes[p]? = some s' →
      ∃ s'', (t.modifyScope id f).scopes[p]? = some s'' ∧
        s'.heapVars.size ≤ s''.heapVars.size := by
    intro p s' hs'
    by_cases hp : p = id
    · subst hp
      obtain rfl := Option.some.inj (hs.symm.trans hs')
      exact ⟨f s, scopes_modifyScope_self hs, hsize⟩
    · exact ⟨s', by rw [getElem?_modifyScope, if_neg hp, hs'], Nat.le_refl _⟩
  intro k s' hs'
  rw [getElem?_modifyScope] at hs'
  split at hs'
  case isTrue hk =>
    subst hk
    rw [hs] at hs'
    cases hs'
    exact hat.mono later
  case isFalse => exact (coherent hs').mono later

end Modify

theorem pushHeapVar_eq_ok {s : Scope} {o : Origin} {slot : UInt8} (hs : t.scopes[id]? = some s)
    (h : pushHeapVar id o t = .ok slot t') :
    s.heapVars.size < maxHeapVars ∧ slot = s.heapVars.size.toUInt8 ∧
      t' = t.modifyScope id fun s => { s with heapVars := s.heapVars.push o } := by
  rw [pushHeapVar, get_bind, scope_eq hs] at h
  split at h
  case isTrue => simp only [bind_eq_ok, throw_eq_ok, false_and, exists_false] at h
  case isFalse hroom =>
    simp only [bind_eq_ok, modify_eq_ok, pure_eq_ok] at h
    obtain ⟨-, t₁, rfl, rfl, rfl⟩ := h
    exact ⟨Nat.lt_of_not_le hroom, rfl, rfl⟩

theorem promote_eq_some {s : Scope} {v : Variable} {index : Nat} {slot : UInt8}
    (hs : t.scopes[id]? = some s) (hv : s.vars[index]? = some v) (hslot : v.heapSlot = some slot) :
    promote id index t = .ok slot t := by
  have hvar : (t.scope id).vars.getD index default = v := by
    rw [scope_eq hs]
    simp [hv]
  rw [promote, get_bind, hvar, hslot]
  rfl

theorem promote_eq_none {s : Scope} {v : Variable} {index : Nat} {slot : UInt8}
    (hs : t.scopes[id]? = some s) (hv : s.vars[index]? = some v) (hslot : v.heapSlot = none)
    (h : promote id index t = .ok slot t') :
    s.heapVars.size < maxHeapVars ∧ slot = s.heapVars.size.toUInt8 ∧
      t' = t.modifyScope id fun s => { s with
        heapVars := s.heapVars.push v.origin
        vars := s.vars.modify index fun v => { v with heapSlot := some slot } } := by
  have hvar : (t.scope id).vars.getD index default = v := by
    rw [scope_eq hs]
    simp [hv]
  rw [promote, get_bind, hvar, hslot] at h
  simp only [bind_eq_ok, modify_eq_ok, pure_eq_ok] at h
  obtain ⟨slot', t₁, hpush, -, t₂, rfl, rfl, rfl⟩ := h
  obtain ⟨hroom, rfl, rfl⟩ := pushHeapVar_eq_ok hs hpush
  exact ⟨hroom, rfl, modifyScope_modifyScope ..⟩

theorem toNat_size_toUInt8 {n : Nat} (h : n < maxHeapVars) : n.toUInt8.toNat = n := by
  simp only [maxHeapVars] at h
  simp [Nat.toUInt8]
  omega

theorem getElem?_push_of_some {α : Type} {xs : Array α} {x y : α} {i : Nat}
    (h : xs[i]? = some x) : (xs.push y)[i]? = some x := by
  have hlt := (Array.getElem?_eq_some_iff.mp h).1
  rw [Array.getElem?_push, if_neg (Nat.ne_of_lt hlt), h]

theorem promote_spec {s : Scope} {v : Variable} {index : Nat} {slot : UInt8}
    (coherent : t.Coherent) (hs : t.scopes[id]? = some s) (hv : s.vars[index]? = some v)
    (h : promote id index t = .ok slot t') :
    t.Grown t' ∧ t'.Coherent ∧ t'.Holds id slot ⟨id, index⟩ := by
  cases hslot : v.heapSlot with
  | some slot' =>
    rw [promote_eq_some hs hv hslot] at h
    cases h
    exact ⟨.refl t, coherent, .promoted hs hv hslot⟩
  | none =>
    obtain ⟨hroom, hnew, rfl⟩ := promote_eq_none hs hv hslot h
    have hslot' : slot.toNat = s.heapVars.size := by rw [hnew, toNat_size_toUInt8 hroom]
    have hat := coherent hs
    -- what the variables of the scope are afterwards
    have hvars : ∀ {i : Nat} {w : Variable},
        (s.vars.modify index fun v => { v with heapSlot := some slot })[i]? = some w →
        ∃ w₀, s.vars[i]? = some w₀ ∧ w.kind = w₀.kind ∧ w.register = w₀.register ∧
          (i = index ∧ w.heapSlot = some slot ∨ i ≠ index ∧ w = w₀) := by
      intro i w hw
      rw [Array.getElem?_modify] at hw
      split at hw
      case isTrue heq =>
        subst heq
        rw [hv] at hw
        cases hw
        exact ⟨v, hv, rfl, rfl, .inl ⟨rfl, rfl⟩⟩
      case isFalse hne => exact ⟨w, hw, rfl, rfl, .inr ⟨Ne.symm hne, rfl⟩⟩
    have below : ∀ {i : Nat} {w : Variable} {slot' : UInt8}, s.vars[i]? = some w →
        w.heapSlot = some slot' → slot'.toNat < s.heapVars.size :=
      fun hw hslot => (Array.getElem?_eq_some_iff.mp (hat.promoted hw hslot)).1
    refine ⟨grown_modifyScope hs ?_, coherent_modifyScope coherent hs ?_ (by simp), ?_⟩
    · refine { Scope.Grown.refl s with size := by simp, vars := ?_, hidden := ?_, heapVars := ?_ }
      · intro i w hw
        by_cases hi : index = i
        · subst hi
          obtain rfl := Option.some.inj (hv.symm.trans hw)
          refine ⟨{ v with heapSlot := some slot }, by simp [Array.getElem?_modify, hv], ?_⟩
          exact ⟨rfl, rfl, rfl, rfl, fun slot' hw' => by rw [hslot] at hw'; cases hw'⟩
        · exact ⟨w, by rw [Array.getElem?_modify, if_neg hi, hw], .refl w⟩
      · intro i w hle hw
        have := (Array.getElem?_eq_some_iff.mp hw).1
        simp only [Array.size_modify] at this
        omega
      · exact fun ho => getElem?_push_of_some ho
    · constructor
      case parent => exact hat.parent
      case args => simpa using hat.args
      case register =>
        intro i w hw
        obtain ⟨w₀, hw₀, -, hreg, -⟩ := hvars hw
        rw [hreg]
        exact hat.register hw₀
      case promoted =>
        intro i w slot₁ hw hw₁
        obtain ⟨w₀, hw₀, hkind, hreg, ⟨rfl, hnew'⟩ | ⟨-, rfl⟩⟩ := hvars hw
        · obtain rfl := Option.some.inj (hw₁.symm.trans hnew')
          obtain rfl := Option.some.inj (hv.symm.trans hw₀)
          rw [hslot', Array.getElem?_push, if_pos rfl, Variable.origin, Variable.origin, hkind,
            hreg]
        · exact getElem?_push_of_some (hat.promoted hw₀ hw₁)
      case apart =>
        intro i j w w' slot₁ hw hw' hw₁ hw₁'
        obtain ⟨w₀, hw₀, -, -, ⟨rfl, hnew₁⟩ | ⟨hne, rfl⟩⟩ := hvars hw <;>
          obtain ⟨w₀', hw₀', -, -, ⟨rfl, hnew₂⟩ | ⟨hne', rfl⟩⟩ := hvars hw'
        · rfl
        · obtain rfl := Option.some.inj (hw₁.symm.trans hnew₁)
          have := below hw₀' hw₁'
          omega
        · obtain rfl := Option.some.inj (hw₁'.symm.trans hnew₂)
          have := below hw₀ hw₁
          omega
        · exact hat.apart hw₀ hw₀' hw₁ hw₁'
      case argument =>
        intro i reg ho
        rw [Array.getElem?_push] at ho
        simp only [Array.size_modify]
        split at ho
        case isTrue =>
          have hreg := hat.register hv
          have hlt := (Array.getElem?_eq_some_iff.mp hv).1
          rw [Option.some.injEq, Variable.origin] at ho
          cases hkind : v.kind with
          | argument =>
            simp only [hkind, Origin.argument.injEq] at ho
            subst ho
            omega
          | «local» => simp [hkind] at ho
        case isFalse => exact hat.argument ho
      case chained =>
        intro i parentSlot ho
        rw [Array.getElem?_push] at ho
        split at ho
        case isTrue => exact absurd (Option.some.inj ho) (Variable.origin_ne_chained v _)
        case isFalse => exact hat.chained ho
      case once =>
        intro i j parentSlot ho ho'
        rw [Array.getElem?_push] at ho ho'
        split at ho
        case isTrue => exact absurd (Option.some.inj ho) (Variable.origin_ne_chained v _)
        case isFalse =>
          split at ho'
          case isTrue => exact absurd (Option.some.inj ho') (Variable.origin_ne_chained v _)
          case isFalse => exact hat.once ho ho'
      case slots =>
        simp only [Array.size_push]
        omega
    · refine .promoted (scopes_modifyScope_self hs) ?_ rfl (v := { v with heapSlot := some slot })
      simp [Array.getElem?_modify, hv]

/-- A new copy of a slot of the parent. -/
theorem pushChained_spec {s : Scope} {parent : Nat} {parentSlot slot : UInt8}
    (coherent : t.Coherent) (hs : t.scopes[id]? = some s) (hparent : s.parent = some parent)
    (hholds : t.Holds parent parentSlot place) (hnone : s.chainedSlot? parentSlot = none)
    (h : pushHeapVar id (.chained parentSlot) t = .ok slot t') :
    t.Grown t' ∧ t'.Coherent ∧ t'.Holds id slot place := by
  obtain ⟨hroom, hnew, rfl⟩ := pushHeapVar_eq_ok hs h
  have hslot : slot.toNat = s.heapVars.size := by rw [hnew, toNat_size_toUInt8 hroom]
  have hat := coherent hs
  have hg : t.Grown (t.modifyScope id fun s =>
      { s with heapVars := s.heapVars.push (.chained parentSlot) }) :=
    grown_modifyScope hs { Scope.Grown.refl s with heapVars := fun ho => getElem?_push_of_some ho }
  refine ⟨hg, coherent_modifyScope coherent hs ?_ (by simp), ?_⟩
  · refine { hat with
      promoted := fun hv hw => getElem?_push_of_some (hat.promoted hv hw)
      argument := fun {i reg} ho => ?_
      chained := fun {i slot'} ho => ?_
      once := fun {i j slot'} ho ho' => ?_
      slots := by simp only [Array.size_push]; omega }
    · rw [Array.getElem?_push] at ho
      split at ho
      case isTrue => cases ho
      case isFalse => exact hat.argument ho
    · rw [Array.getElem?_push] at ho
      split at ho
      case isTrue =>
        cases ho
        obtain ⟨s', hs', hlt⟩ := hholds.lt_size coherent
        exact ⟨parent, s', hparent, hs', hlt⟩
      case isFalse => exact hat.chained ho
    · rw [Array.getElem?_push] at ho ho'
      split at ho
      case isTrue hi =>
        cases ho
        split at ho'
        case isTrue hj => rw [hi, hj]
        case isFalse => exact absurd ho' (chainedSlot?_eq_none hnone)
      case isFalse =>
        split at ho'
        case isTrue =>
          cases ho'
          exact absurd ho (chainedSlot?_eq_none hnone)
        case isFalse => exact hat.once ho ho'
  · refine .chained (scopes_modifyScope_self hs) hparent ?_ (hholds.mono hg)
    rw [hslot, Array.getElem?_push, if_pos rfl]

theorem chainedSlot?_eq_some {s : Scope} {parentSlot slot : UInt8}
    (hslots : s.heapVars.size ≤ maxHeapVars) (h : s.chainedSlot? parentSlot = some slot) :
    s.heapVars[slot.toNat]? = some (.chained parentSlot) := by
  rw [Scope.chainedSlot?, Option.map_eq_some_iff] at h
  obtain ⟨i, hi, rfl⟩ := h
  obtain ⟨hlt, heq, -⟩ := Array.findIdx?_eq_some_iff_getElem.mp hi
  rw [toNat_size_toUInt8 (Nat.lt_of_lt_of_le hlt hslots), Array.getElem?_eq_getElem hlt]
  simpa using heq

theorem chainedSlot?_of_held {s : Scope} {parentSlot slot : UInt8} (hat : Coherent.At t id s)
    (h : s.heapVars[slot.toNat]? = some (.chained parentSlot)) :
    s.chainedSlot? parentSlot = some slot := by
  cases hfound : s.chainedSlot? parentSlot with
  | none => exact absurd h (chainedSlot?_eq_none hfound)
  | some slot' =>
    have hslot' := chainedSlot?_eq_some hat.slots hfound
    rw [UInt8.toNat_inj.mp (hat.once h hslot')]

theorem find?_eq (s : Scope) (id : Nat) (name : String) :
    s.find? name = (seen (s.shown id) name).map Place.index := by
  rw [Scope.find?, s.findBelow_eq id, seen, Option.map_map]
  rfl

theorem seen_append (l r : List (String × Place)) (name : String) :
    seen (l ++ r) name = (seen l name).or (seen r name) := by
  rw [seen, List.find?_append, seen, seen]
  cases l.find? (·.1 == name) <;> rfl

theorem seen_shown {s : Scope} {name : String} (h : seen (s.shown id) name = some place) :
    place.owner = id ∧ ∃ v, s.vars[place.index]? = some v ∧ v.name = name := by
  rw [seen, Option.map_eq_some_iff] at h
  obtain ⟨⟨name', place'⟩, hfind, rfl⟩ := h
  have hname : name' = name := by simpa using List.find?_some hfind
  obtain ⟨howner, -, v, hv, hname', -⟩ := Scope.of_mem_shownBelow (List.mem_of_find?_eq_some hfind)
  exact ⟨howner, v, hv, hname'.trans hname⟩

/-- The variable that a name stands for is found in the scope itself or from its parent. -/
theorem seen_inView_cases {s : Scope} (coherent : t.Coherent) (hs : t.scopes[id]? = some s)
    (name : String) :
    (∃ place, seen (s.shown id) name = some place ∧ seen (t.inView id) name = some place) ∨
    (seen (s.shown id) name = none ∧ s.parent = none ∧ seen (t.inView id) name = none) ∨
    (∃ parent, seen (s.shown id) name = none ∧ s.parent = some parent ∧ parent < id ∧
      seen (t.inView id) name = seen (t.inView parent) name) := by
  rw [inView_eq hs, seen_append]
  cases hown : seen (s.shown id) name with
  | some place => exact .inl ⟨place, rfl, rfl⟩
  | none =>
    cases hparent : s.parent with
    | none => exact .inr (.inl ⟨rfl, rfl, rfl⟩)
    | some parent =>
      have hlt := (coherent hs).parent parent hparent
      refine .inr (.inr ⟨parent, rfl, rfl, hlt, ?_⟩)
      simp only [if_pos hlt, Option.none_or]

theorem owner_le_of_seen {name : String} (coherent : t.Coherent) (hid : id < t.scopes.size)
    (h : seen (t.inView id) name = some place) : place.owner ≤ id := by
  induction id using Nat.strongRecOn with
  | ind id ih =>
    obtain ⟨s, hs⟩ : ∃ s, t.scopes[id]? = some s := ⟨_, Array.getElem?_eq_getElem hid⟩
    rcases seen_inView_cases coherent hs name with
      ⟨place', hown, hview⟩ | ⟨-, -, hview⟩ | ⟨parent, -, -, hlt, hview⟩
    · obtain rfl := Option.some.inj (h.symm.trans hview)
      exact Nat.le_of_eq (seen_shown hown).1
    · rw [h] at hview
      cases hview
    · exact Nat.le_trans (ih parent hlt (Nat.lt_trans hlt hid) (hview.symm.trans h))
        (Nat.le_of_lt hlt)

/-- A variable that an inner block asks for ends up in a slot of the scope. -/
theorem capture_spec {name : String} {c : Capture} (coherent : t.Coherent)
    (hid : id < t.scopes.size) (h : capture name id t = .ok c t') :
    match seen (t.inView id) name with
    | none => c = t.classLookup name ∧ t' = t
    | some place => t.Grown t' ∧ t'.Coherent ∧
        ∃ slot isArgument, c = .slot slot isArgument ∧ t'.Holds id slot place := by
  induction id using Nat.strongRecOn generalizing c t' with
  | ind id ih =>
    obtain ⟨s, hs⟩ : ∃ s, t.scopes[id]? = some s := ⟨_, Array.getElem?_eq_getElem hid⟩
    rw [capture, get_bind, scope_eq hs, find?_eq s id] at h
    rcases seen_inView_cases coherent hs name with
      ⟨place, hown, hview⟩ | ⟨hown, hparent, hview⟩ | ⟨parent, hown, hparent, hlt, hview⟩
    · obtain ⟨rfl, v, hv, -⟩ := seen_shown hown
      rw [hview]
      simp only [hown, Option.map_some, bind_eq_ok, pure_eq_ok] at h
      obtain ⟨slot, t₁, hpromote, rfl, rfl⟩ := h
      obtain ⟨hg, hc, hholds⟩ := promote_spec coherent hs hv hpromote
      exact ⟨hg, hc, slot, _, rfl, hholds⟩
    · rw [hview]
      simp only [hown, Option.map_none, hparent, pure_eq_ok] at h
      exact ⟨h.1.symm, h.2.symm⟩
    · rw [hview]
      simp only [hown, Option.map_none, hparent, if_pos hlt, bind_eq_ok] at h
      obtain ⟨c₁, t₁, hcapture, hrest⟩ := h
      have hinner := ih parent hlt (Nat.lt_trans hlt hid) hcapture
      cases hseen : seen (t.inView parent) name with
      | none =>
        rw [hseen] at hinner
        obtain ⟨rfl, rfl⟩ := hinner
        have hclass : ∀ slot isArgument, t₁.classLookup name ≠ .slot slot isArgument := by
          intro slot isArgument
          rw [classLookup]
          split <;> simp
        cases hc : t₁.classLookup name with
        | slot slot isArgument => exact absurd hc (hclass slot isArgument)
        | instanceVariable i =>
          simp only [hc, pure_eq_ok] at hrest
          exact ⟨hrest.1.symm, hrest.2.symm⟩
        | global =>
          simp only [hc, pure_eq_ok] at hrest
          exact ⟨hrest.1.symm, hrest.2.symm⟩
      | some place =>
        rw [hseen] at hinner
        obtain ⟨hg, hc, parentSlot, isArgument, rfl, hholds⟩ := hinner
        obtain ⟨s₁, hs₁, hgs⟩ := hg.scopes hs
        rw [← hgs.parent] at hparent
        simp only [get_bind, scope_eq hs₁] at hrest
        cases hchained : s₁.chainedSlot? parentSlot with
        | some slot =>
          simp only [hchained, pure_eq_ok] at hrest
          obtain ⟨rfl, rfl⟩ := hrest
          have hslot := chainedSlot?_eq_some (hc hs₁).slots hchained
          exact ⟨hg, hc, slot, isArgument, rfl, .chained hs₁ hparent hslot hholds⟩
        | none =>
          simp only [hchained, bind_eq_ok, pure_eq_ok] at hrest
          obtain ⟨slot, t₂, hpush, rfl, rfl⟩ := hrest
          obtain ⟨hg₂, hc₂, hholds₂⟩ :=
            pushChained_spec hc hs₁ hparent hholds hchained hpush
          exact ⟨hg.trans hg₂, hc₂, slot, isArgument, rfl, hholds₂⟩

/-- A variable that has its slot is found there, and nothing changes. -/
theorem capture_held {name : String} {slot : UInt8} (coherent : t.Coherent)
    (hid : id < t.scopes.size) (hseen : seen (t.inView id) name = some place)
    (hholds : t.Holds id slot place) :
    ∃ isArgument, capture name id t = .ok (.slot slot isArgument) t := by
  induction id using Nat.strongRecOn generalizing slot with
  | ind id ih =>
    obtain ⟨s, hs⟩ : ∃ s, t.scopes[id]? = some s := ⟨_, Array.getElem?_eq_getElem hid⟩
    rw [capture, get_bind, scope_eq hs, find?_eq s id]
    rcases seen_inView_cases coherent hs name with
      ⟨place', hown, hview⟩ | ⟨hown, hparent, hview⟩ | ⟨parent, hown, hparent, hlt, hview⟩
    · obtain rfl := Option.some.inj (hseen.symm.trans hview)
      obtain ⟨howner, v, hv, -⟩ := seen_shown hown
      cases hholds with
      | promoted hs' hv' hslot' =>
        simp only [hown, Option.map_some]
        refine ⟨_, bind_eq_ok.mpr ⟨slot, t, promote_eq_some hs' hv' hslot', rfl⟩⟩
      | chained hs' hparent' _ hrest =>
        have hle := hrest.owner_le coherent
        have hlt := (coherent hs').parent _ hparent'
        omega
    · rw [hseen] at hview
      cases hview
    · rw [hseen] at hview
      have hparent_lt := Nat.lt_trans hlt hid
      cases hholds with
      | promoted =>
        have hle := owner_le_of_seen coherent hparent_lt hview.symm
        exact absurd hle (Nat.not_le.mpr hlt)
      | chained hs' hparent' hslot hrest =>
        obtain rfl := Option.some.inj (hs.symm.trans hs')
        obtain rfl := Option.some.inj (hparent.symm.trans hparent')
        obtain ⟨isArgument, hcapture⟩ := ih parent hlt hparent_lt hview.symm hrest
        refine ⟨isArgument, ?_⟩
        simp only [hown, Option.map_none, hparent, if_pos hlt, bind_eq_ok]
        refine ⟨_, t, hcapture, ?_⟩
        simp only [get_bind, scope_eq hs, chainedSlot?_of_held (coherent hs) hslot]
        rfl

def classBinding (t : ScopeTree) (name : String) : Binding :=
  match t.instanceVariables.findIdx? (· == name) with
  | some i => .instanceVariable i.toUInt8
  | none => .global

/-- How a name is looked up: in the scope itself, else through the parent, else in the class. -/
theorem lookup_cases {s : Scope} {name : String} {r : Binding × Bool} (coherent : t.Coherent)
    (hs : t.scopes[id]? = some s) (h : lookup id name t = .ok r t') :
    (∃ index v, seen (t.inView id) name = some ⟨id, index⟩ ∧ s.vars[index]? = some v ∧
      r.1 = v.binding ∧ t' = t) ∨
    (seen (t.inView id) name = none ∧ r.1 = t.classBinding name ∧ t' = t) ∨
    (∃ parent place slot isArgument, s.parent = some parent ∧ parent < id ∧
      seen (t.inView id) name = some place ∧ seen (t.inView parent) name = some place ∧
      capture name parent t = .ok (.slot slot isArgument) t' ∧
      r.1 = match (t'.scope id).chainedSlot? slot with
        | some mine => .own mine
        | none => .parent slot) := by
  have hid : id < t.scopes.size := (Array.getElem?_eq_some_iff.mp hs).1
  rw [lookup] at h
  split at h
  case isTrue => simp only [bind_eq_ok, throw_eq_ok, false_and, exists_false] at h
  case isFalse =>
    simp only [get_bind, scope_eq hs, find?_eq s id] at h
    rcases seen_inView_cases coherent hs name with
      ⟨place, hown, hview⟩ | ⟨hown, hparent, hview⟩ | ⟨parent, hown, hparent, hlt, hview⟩
    · obtain ⟨howner, v, hv, -⟩ := seen_shown hown
      obtain ⟨owner, index⟩ := place
      obtain rfl : owner = id := howner
      have hvar : s.vars.getD index default = v := by simp [hv]
      simp only [hown, Option.map_some, hvar, pure_eq_ok] at h
      obtain ⟨rfl, rfl⟩ := h
      exact .inl ⟨index, v, hview, hv, rfl, rfl⟩
    · simp only [hown, Option.map_none, hparent, bind_eq_ok, pure_eq_ok] at h
      obtain ⟨c, t₁, ⟨rfl, rfl⟩, hrest⟩ := h
      refine .inr (.inl ⟨hview, ?_⟩)
      rw [classBinding]
      cases hfind : t.instanceVariables.findIdx? (· == name) with
      | none =>
        simp only [classLookup, hfind, pure_eq_ok] at hrest
        exact ⟨congrArg Prod.fst hrest.1.symm, hrest.2.symm⟩
      | some i =>
        simp only [classLookup, hfind, pure_eq_ok] at hrest
        exact ⟨congrArg Prod.fst hrest.1.symm, hrest.2.symm⟩
    · simp only [hown, Option.map_none, hparent, bind_eq_ok] at h
      obtain ⟨c, t₁, hcapture, hrest⟩ := h
      have hspec := capture_spec coherent (Nat.lt_trans hlt hid) hcapture
      cases hseen : seen (t.inView parent) name with
      | none =>
        rw [hseen] at hspec
        obtain ⟨rfl, rfl⟩ := hspec
        refine .inr (.inl ⟨hview.trans hseen, ?_⟩)
        rw [classBinding]
        cases hfind : t₁.instanceVariables.findIdx? (· == name) with
        | none =>
          simp only [classLookup, hfind, pure_eq_ok] at hrest
          exact ⟨congrArg Prod.fst hrest.1.symm, hrest.2.symm⟩
        | some i =>
          simp only [classLookup, hfind, pure_eq_ok] at hrest
          exact ⟨congrArg Prod.fst hrest.1.symm, hrest.2.symm⟩
      | some place =>
        rw [hseen] at hspec
        obtain ⟨-, -, slot, isArgument, rfl, -⟩ := hspec
        simp only [get_bind] at hrest
        cases hchained : (t₁.scope id).chainedSlot? slot with
        | none =>
          simp only [hchained, pure_eq_ok] at hrest
          obtain ⟨rfl, rfl⟩ := hrest
          exact .inr (.inr ⟨parent, place, slot, isArgument, hparent, hlt, hview.trans hseen, hseen,
            hcapture, by rw [hchained]⟩)
        | some mine =>
          simp only [hchained, pure_eq_ok] at hrest
          obtain ⟨rfl, rfl⟩ := hrest
          exact .inr (.inr ⟨parent, place, slot, isArgument, hparent, hlt, hview.trans hseen, hseen,
            hcapture, by rw [hchained]⟩)

/-- Everything that a scope needs for a name is in place after the name was looked up. -/
theorem lookup_spec {name : String} {r : Binding × Bool} (coherent : t.Coherent)
    (hid : id < t.scopes.size) (h : lookup id name t = .ok r t') :
    t.Grown t' ∧ t'.Coherent ∧
      ∀ place, seen (t.inView id) name = some place → t'.Captured id place := by
  obtain ⟨s, hs⟩ : ∃ s, t.scopes[id]? = some s := ⟨_, Array.getElem?_eq_getElem hid⟩
  rcases lookup_cases coherent hs h with
    ⟨index, v, hview, -, -, rfl⟩ | ⟨hview, -, rfl⟩ |
      ⟨parent, place, slot, isArgument, hparent, hlt, hview, hseen, hcapture, -⟩
  · refine ⟨.refl _, coherent, fun place hplace => ?_⟩
    obtain rfl := Option.some.inj (hview.symm.trans hplace)
    exact .inl rfl
  · refine ⟨.refl _, coherent, fun place hplace => ?_⟩
    rw [hview] at hplace
    cases hplace
  · have hspec := capture_spec coherent (Nat.lt_trans hlt hid) hcapture
    rw [hseen] at hspec
    obtain ⟨hg, hc, slot', _, heq, hholds⟩ := hspec
    obtain ⟨s', hs', hgs⟩ := hg.scopes hs
    refine ⟨hg, hc, fun place' hplace => ?_⟩
    obtain rfl := Option.some.inj (hview.symm.trans hplace)
    exact .inr ⟨s', parent, slot', hs', hgs.parent.trans hparent, hholds⟩

/-- Once everything is in place, looking a name up changes nothing and leads to its variable. -/
theorem lookup_captured {name : String} {r : Binding × Bool} (coherent : t.Coherent)
    (hid : id < t.scopes.size) (h : lookup id name t = .ok r t')
    (captured : ∀ place, seen (t.inView id) name = some place → t.Captured id place) :
    t' = t ∧ match seen (t.inView id) name with
      | some place => t.Denotes id place r.1
      | none => r.1 = t.classBinding name := by
  obtain ⟨s, hs⟩ : ∃ s, t.scopes[id]? = some s := ⟨_, Array.getElem?_eq_getElem hid⟩
  rcases lookup_cases coherent hs h with
    ⟨index, v, hview, hv, hr, rfl⟩ | ⟨hview, hr, rfl⟩ |
      ⟨parent, place, slot, isArgument, hparent, hlt, hview, hseen, hcapture, hr⟩
  · rw [hview, hr]
    refine ⟨rfl, ?_⟩
    rw [Variable.binding]
    cases hslot : v.heapSlot with
    | none => exact ⟨rfl, s, v, hs, hv, hslot, rfl⟩
    | some slot => exact .promoted hs hv hslot
  · rw [hview]
    exact ⟨rfl, hr⟩
  · rw [hview]
    have hparent_lt := Nat.lt_trans hlt hid
    have howner := owner_le_of_seen coherent hparent_lt hseen
    obtain ⟨s', parent', slot', hs', hparent', hholds⟩ :=
      (captured place hview).resolve_left (by omega)
    obtain rfl := Option.some.inj (hs.symm.trans hs')
    obtain rfl := Option.some.inj (hparent.symm.trans hparent')
    obtain ⟨isArgument', hheld⟩ := capture_held coherent hparent_lt hseen hholds
    rw [hheld] at hcapture
    cases hcapture
    refine ⟨rfl, ?_⟩
    rw [hr, scope_eq hs]
    cases hchained : s.chainedSlot? slot with
    | none => exact ⟨s, parent, hs, hparent, hchained, hholds⟩
    | some mine =>
      exact .chained hs hparent (chainedSlot?_eq_some (coherent hs).slots hchained) hholds

end ObjectMachine.ScopeTree
