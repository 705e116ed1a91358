import Mathlib.Data.List.Induction
import ObjectMachine.Proofs.Language.Lexical

namespace ObjectMachine

namespace Scope

def withVar (kind : VariableKind) (s : Scope) (name : String) : Scope :=
  { s with
    args := if kind = .argument then s.args + 1 else s.args
    vars := s.vars.push { name, kind, register := s.fixedRegisters.toUInt8 } }

def withVars (kind : VariableKind) (s : Scope) (names : List String) : Scope :=
  names.foldl (withVar kind) s

variable {kind : VariableKind} {s : Scope}

theorem shown_withVar (id : Nat) (name : String) :
    (s.withVar kind name).shown id = (name, ⟨id, s.vars.size⟩) :: s.shown id := by
  have hsize : (s.withVar kind name).vars.size = s.vars.size + 1 := by simp [withVar]
  have hold : (s.withVar kind name).shownBelow id s.vars.size = s.shownBelow id s.vars.size := by
    apply shownBelow_congr
    intro i hi
    simp only [withVar, Array.getElem?_push, if_neg (Nat.ne_of_lt hi)]
  rw [shown, hsize, shownBelow, hold]
  simp [withVar, shown]

structure Widened (which : VariableKind) (names : List String) (s s' : Scope) : Prop where
  kind : s'.kind = s.kind
  parent : s'.parent = s.parent
  heapVars : s'.heapVars = s.heapVars
  args : s'.args = if which = .argument then s.args + names.length else s.args
  size : s'.vars.size = s.vars.size + names.length
  old : ∀ i < s.vars.size, s'.vars[i]? = s.vars[i]?
  new : ∀ (i : Nat) (name : String), names[i]? = some name → ∃ v,
    s'.vars[s.vars.size + i]? = some v ∧ v.name = name ∧ v.heapSlot = none ∧
      v.register = (s.vars.size + i + 1).toUInt8
  shown : ∀ id, s'.shown id = declared id s.vars.size names ++ s.shown id

theorem widened (kind : VariableKind) (s : Scope) (names : List String) :
    Widened kind names s (s.withVars kind names) := by
  induction names using List.reverseRecOn with
  | nil =>
    refine ⟨rfl, rfl, rfl, ?_, rfl, fun _ _ => rfl, ?_, fun id => rfl⟩
    · split <;> rfl
    · intro i name h
      cases h
  | append_singleton names name ih =>
    have hlast : s.withVars kind (names ++ [name]) = (s.withVars kind names).withVar kind name := by
      simp [withVars]
    rw [hlast]
    have hsize : ((s.withVars kind names).withVar kind name).vars.size =
        s.vars.size + (names ++ [name]).length := by
      simp [withVar, ih.size, Nat.add_assoc]
    refine ⟨ih.kind, ih.parent, ih.heapVars, ?_, hsize, ?_, ?_, ?_⟩
    · have hargs := ih.args
      simp only [withVar, List.length_append, List.length_singleton]
      split
      case isTrue hk => rw [hargs, if_pos hk]; omega
      case isFalse hk => rw [hargs, if_neg hk]
    · intro i hi
      have hlt : i < (s.withVars kind names).vars.size := by rw [ih.size]; omega
      rw [← ih.old i hi]
      simp only [withVar, Array.getElem?_push, if_neg (Nat.ne_of_lt hlt)]
    · intro i name' hname
      by_cases hi : i < names.length
      · rw [List.getElem?_append_left hi] at hname
        obtain ⟨v, hv, hrest⟩ := ih.new i name' hname
        have hlt := (Array.getElem?_eq_some_iff.mp hv).1
        exact ⟨v, by simp only [withVar, Array.getElem?_push, if_neg (Nat.ne_of_lt hlt), hv], hrest⟩
      · have hi' : i = names.length := by
          have := (List.getElem?_eq_some_iff.mp hname).1
          simp only [List.length_append, List.length_singleton] at this
          omega
        subst hi'
        simp only [List.getElem?_concat_length, Option.some.injEq] at hname
        subst hname
        rw [← ih.size, withVar]
        refine ⟨_, by rw [Array.getElem?_push, if_pos rfl], rfl, rfl, ?_⟩
        rw [fixedRegisters, Nat.add_comm]
    · intro id
      rw [shown_withVar, ih.size, ih.shown, declared_snoc, List.cons_append]

end Scope

namespace ScopeTree

variable {t t' : ScopeTree} {id : Nat}

theorem declare_eq_ok {s : Scope} {name : String} {kind : VariableKind} {index : Nat}
    (hs : t.scopes[id]? = some s) (h : declare id name kind t = .ok index t') :
    s.vars.size + 1 < maxRegisters ∧ t' = t.modifyScope id (·.withVar kind name) := by
  rw [declare] at h
  split at h
  case isTrue => simp only [bind_eq_ok, throw_eq_ok, false_and, exists_false] at h
  case isFalse =>
    simp only [get_bind, scope_eq hs] at h
    split at h
    case isTrue => simp only [bind_eq_ok, throw_eq_ok, false_and, exists_false] at h
    case isFalse hroom =>
      simp only [bind_eq_ok, modify_eq_ok, pure_eq_ok] at h
      obtain ⟨-, t₁, rfl, -, rfl⟩ := h
      rw [Scope.fixedRegisters] at hroom
      exact ⟨by omega, modifyScope_congr hs rfl⟩

theorem declareFrom_eq_ok {s : Scope} {names seen : List String} {kind : VariableKind} {u : Unit}
    (hs : t.scopes[id]? = some s) (h : declareFrom id kind seen names t = .ok u t') :
    (names = [] ∨ s.vars.size + names.length < maxRegisters) ∧
      t' = t.modifyScope id (·.withVars kind names) := by
  induction names generalizing t s seen with
  | nil =>
    simp only [declareFrom, pure_eq_ok] at h
    exact ⟨.inl rfl, h.2.symm.trans (modifyScope_self hs rfl).symm⟩
  | cons name names ih =>
    rw [declareFrom] at h
    split at h
    case isTrue => simp only [bind_eq_ok, throw_eq_ok, false_and, exists_false] at h
    case isFalse =>
      simp only [bind_eq_ok] at h
      obtain ⟨index, t₁, hdeclare, hrest⟩ := h
      obtain ⟨hroom, rfl⟩ := declare_eq_ok hs hdeclare
      obtain ⟨hroom', rfl⟩ := ih (scopes_modifyScope_self hs) hrest
      refine ⟨.inr ?_, ?_⟩
      · rcases hroom' with rfl | hroom'
        · simpa using hroom
        · simp [Scope.withVar] at hroom' ⊢
          omega
      · rw [modifyScope_modifyScope]
        rfl

section View

variable {s : Scope} {f : Scope → Scope}

theorem inView_congr (h : ∀ k ≤ id, t'.scopes[k]? = t.scopes[k]?) : t'.inView id = t.inView id := by
  induction id using Nat.strongRecOn with
  | ind id ih =>
    have hscope : t'.scope id = t.scope id := by simp [scope, h id (Nat.le_refl _)]
    rw [inView, inView, hscope]
    congr 1
    cases (t.scope id).parent with
    | none => rfl
    | some parent =>
      by_cases hlt : parent < id
      · simp only [if_pos hlt]
        exact ih parent hlt fun k hk => h k (Nat.le_trans hk (Nat.le_of_lt hlt))
      · simp only [if_neg hlt]

theorem inView_modifyScope (hs : t.scopes[id]? = some s) (hparent : (f s).parent = s.parent)
    {more : List (String × Place)} (hshown : (f s).shown id = more ++ s.shown id) :
    (t.modifyScope id f).inView id = more ++ t.inView id := by
  rw [inView_eq hs, inView_eq (scopes_modifyScope_self hs), hparent, hshown, List.append_assoc]
  congr 2
  cases s.parent with
  | none => rfl
  | some parent =>
    by_cases hlt : parent < id
    · simp only [if_pos hlt]
      apply inView_congr
      intro k hk
      rw [getElem?_modifyScope, if_neg (by omega)]
    · simp only [if_neg hlt]

def Has (t : ScopeTree) (place : Place) : Prop :=
  ∃ s, t.scopes[place.owner]? = some s ∧ place.index < s.vars.size

theorem Has.mono {place : Place} (h : t.Has place) (hg : t.Grown t') : t'.Has place := by
  obtain ⟨s, hs, hlt⟩ := h
  obtain ⟨s', hs', hgs⟩ := hg.scopes hs
  exact ⟨s', hs', Nat.lt_of_lt_of_le hlt hgs.size⟩

theorem has_of_mem_inView {name : String} {place : Place} (coherent : t.Coherent)
    (hid : id < t.scopes.size) (h : (name, place) ∈ t.inView id) : t.Has place := by
  induction id using Nat.strongRecOn with
  | ind id ih =>
    obtain ⟨s, hs⟩ : ∃ s, t.scopes[id]? = some s := ⟨_, Array.getElem?_eq_getElem hid⟩
    rw [inView_eq hs, List.mem_append] at h
    rcases h with h | h
    · obtain ⟨rfl, hlt, -⟩ := Scope.of_mem_shownBelow h
      exact ⟨s, hs, hlt⟩
    · cases hp : s.parent with
      | none => simp [hp] at h
      | some parent =>
        have hlt := (coherent hs).parent parent hp
        simp only [hp, if_pos hlt] at h
        exact ih parent hlt (Nat.lt_trans hlt hid) h

end View

section Declarations

variable {s : Scope} {kind : VariableKind} {names : List String}

theorem Coherent.At.widened (hat : Coherent.At t id s)
    (hroom : names = [] ∨ s.vars.size + names.length < maxRegisters) :
    Coherent.At t id (s.withVars kind names) := by
  have w := s.widened kind names
  -- a variable was there before, or it is new and has no slot
  have cases_var : ∀ {i : Nat} {v : Variable}, (s.withVars kind names).vars[i]? = some v →
      s.vars[i]? = some v ∨ v.heapSlot = none ∧ v.register.toNat = i + 1 := by
    intro i v hv
    have hlt := (Array.getElem?_eq_some_iff.mp hv).1
    rw [w.size] at hlt
    by_cases hi : i < s.vars.size
    · exact .inl ((w.old i hi).symm.trans hv)
    · obtain ⟨name, hname⟩ : ∃ name, names[i - s.vars.size]? = some name :=
        ⟨_, List.getElem?_eq_getElem (by omega)⟩
      obtain ⟨v', hv', -, hslot, hreg⟩ := w.new _ name hname
      rw [Nat.add_sub_cancel' (Nat.le_of_not_lt hi)] at hv' hreg
      obtain rfl := Option.some.inj (hv'.symm.trans hv)
      refine .inr ⟨hslot, ?_⟩
      have hbound : i + 1 < maxRegisters := by
        rcases hroom with rfl | hroom
        · simp at hname
        · omega
      rw [hreg]
      exact toNat_size_toUInt8 hbound
  constructor
  case parent => exact w.parent ▸ hat.parent
  case args =>
    have := hat.args
    rw [w.args, w.size]
    split <;> omega
  case register =>
    intro i v hv
    rcases cases_var hv with hv | ⟨-, hreg⟩
    · exact hat.register hv
    · exact hreg
  case promoted =>
    intro i v slot hv hslot
    rcases cases_var hv with hv | ⟨hnone, -⟩
    · rw [w.heapVars]
      exact hat.promoted hv hslot
    · rw [hnone] at hslot
      cases hslot
  case apart =>
    intro i j v v' slot hv hv' hslot hslot'
    rcases cases_var hv with hv | ⟨hnone, -⟩
    · rcases cases_var hv' with hv' | ⟨hnone, -⟩
      · exact hat.apart hv hv' hslot hslot'
      · rw [hnone] at hslot'
        cases hslot'
    · rw [hnone] at hslot
      cases hslot
  case argument =>
    intro i reg ho
    rw [w.heapVars] at ho
    rw [w.size]
    exact Nat.le_trans (hat.argument ho) (Nat.le_add_right _ _)
  case chained =>
    intro i slot ho
    rw [w.heapVars] at ho
    rw [w.parent]
    exact hat.chained ho
  case once =>
    intro i j slot ho ho'
    rw [w.heapVars] at ho ho'
    exact hat.once ho ho'
  case slots =>
    rw [w.heapVars]
    exact hat.slots

/-- Declared names come into view, the last of them innermost. -/
theorem declareAll_spec {first : Nat} (coherent : t.Coherent) (hs : t.scopes[id]? = some s)
    (h : declareAll id names kind t = .ok first t') :
    first = s.vars.size ∧ t' = t.modifyScope id (·.withVars kind names) ∧ t'.Coherent ∧
      t'.scopes[id]? = some (s.withVars kind names) ∧
      t'.inView id = declared id first names ++ t.inView id := by
  rw [declareAll, get_bind, scope_eq hs] at h
  simp only [bind_eq_ok, pure_eq_ok] at h
  obtain ⟨u, t₁, hfrom, rfl, rfl⟩ := h
  obtain ⟨hroom, rfl⟩ := declareFrom_eq_ok hs hfrom
  have w := s.widened kind names
  refine ⟨rfl, rfl, ?_, scopes_modifyScope_self hs, inView_modifyScope hs w.parent (w.shown id)⟩
  exact coherent_modifyScope coherent hs ((coherent hs).widened hroom)
    (Nat.le_of_eq (congrArg Array.size w.heapVars).symm)

end Declarations

end ScopeTree

namespace Scope

/-- Shows or hides the variables of a range. -/
def veil (first count : Nat) (visible : Bool) (s : Scope) : Scope :=
  { s with vars := s.vars.mapIdx fun i v =>
      if first ≤ i ∧ i < first + count then { v with visible } else v }

def bare (s : Scope) : Scope := { s with vars := s.vars.map fun v => { v with visible := true } }

variable {s s' : Scope} {first count : Nat} {visible : Bool}

theorem getElem?_veil (i : Nat) : (s.veil first count visible).vars[i]? =
    (s.vars[i]?).map fun v =>
      if first ≤ i ∧ i < first + count then { v with visible } else v := by
  simp [veil]

theorem bare_veil : (s.veil first count visible).bare = s.bare := by
  rw [bare, bare]
  congr 1
  apply Array.ext_getElem?
  intro i
  rw [Array.getElem?_map, Array.getElem?_map, getElem?_veil]
  cases s.vars[i]? with
  | none => rfl
  | some v => by_cases h : first ≤ i ∧ i < first + count <;> simp [h]

theorem vars_of_bare_eq (h : s.bare = s'.bare) {i : Nat} {v : Variable}
    (hv : s.vars[i]? = some v) :
    ∃ v', s'.vars[i]? = some v' ∧ ({ v' with visible := true } : Variable) =
      { v with visible := true } := by
  have hvars := congrArg (fun s => s.vars[i]?) h
  simp only [bare, Array.getElem?_map, hv, Option.map_some] at hvars
  obtain ⟨v', hv', heq⟩ := Option.map_eq_some_iff.mp hvars.symm
  exact ⟨v', hv', heq⟩

theorem hidden_of_above {id : Nat}
    (above : ∀ name place, (name, place) ∈ s.shown id → place.index < first) {i : Nat}
    {v : Variable} (hle : first ≤ i) (hv : s.vars[i]? = some v) : v.visible = false := by
  by_contra hvisible
  have hi := (Array.getElem?_eq_some_iff.mp hv).1
  have hmem : (v.name, ⟨id, i⟩) ∈ s.shown id :=
    mem_shownBelow hv (Bool.not_eq_false _ ▸ hvisible) hi
  exact absurd (above _ _ hmem) (Nat.not_lt.mpr hle)

/-- Showing variables that come after all visible ones puts them in front. -/
theorem shown_veil {id : Nat} {names : List String}
    (hnames : ∀ (i : Nat) (name : String), names[i]? = some name →
      ∃ v, s.vars[first + i]? = some v ∧ v.name = name)
    (hsize : first + names.length ≤ s.vars.size)
    (above : ∀ name place, (name, place) ∈ s.shown id → place.index < first) :
    (s.veil first names.length true).shown id = declared id first names ++ s.shown id := by
  have hidden : ∀ {i : Nat} {v : Variable}, first ≤ i → s.vars[i]? = some v →
      v.visible = false := fun hle hv => hidden_of_above above hle hv
  have hsize' : (s.veil first names.length true).vars.size = s.vars.size := by simp [veil]
  have hidden' : ∀ {i : Nat} {v : Variable}, first + names.length ≤ i →
      (s.veil first names.length true).vars[i]? = some v → v.visible = false := by
    intro i v hle hv
    rw [getElem?_veil] at hv
    obtain ⟨v₀, hv₀, rfl⟩ := Option.map_eq_some_iff.mp hv
    rw [if_neg (by omega)]
    exact hidden (by omega) hv₀
  have between : ∀ j ≤ names.length, (s.veil first names.length true).shownBelow id (first + j) =
      declared id first (names.take j) ++ s.shownBelow id first := by
    intro j hj
    induction j with
    | zero =>
      apply shownBelow_congr
      intro i hi
      rw [getElem?_veil]
      simp only [if_neg (show ¬(first ≤ i ∧ i < first + names.length) by omega), Option.map_map]
      rfl
    | succ j ih =>
      obtain ⟨name, hname⟩ : ∃ name, names[j]? = some name := ⟨_, List.getElem?_eq_getElem hj⟩
      obtain ⟨v, hv, rfl⟩ := hnames j name hname
      rw [← Nat.add_assoc, shownBelow, ih (Nat.le_of_succ_le hj), getElem?_veil, hv]
      simp only [Option.map_some, if_pos
        (show first ≤ first + j ∧ first + j < first + names.length by
        omega), if_true]
      rw [List.take_add_one, hname, Option.toList_some, declared_snoc, List.length_take,
        Nat.min_eq_left (Nat.le_of_succ_le hj)]
      rfl
  rw [shown_eq_shownBelow id (hsize'.symm ▸ hsize) hidden', between _ (Nat.le_refl _),
    List.take_length, shown_eq_shownBelow id (by omega) hidden]

end Scope

end ObjectMachine
