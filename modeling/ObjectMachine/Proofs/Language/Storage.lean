import Mathlib.Tactic.Common
import ObjectMachine.Language.Scope

namespace ObjectMachine

/-- A declared variable: the scope that declares it, and its index there. -/
structure Place where
  owner : Nat
  index : Nat
  deriving DecidableEq

/-- What a promoted variable finds in its slot on entry. -/
def Variable.origin (v : Variable) : Origin :=
  match v.kind with
  | .argument => .argument v.register
  | .local => .local

namespace ScopeTree

inductive Holds (t : ScopeTree) : Nat → UInt8 → Place → Prop where
  | promoted {id index : Nat} {slot : UInt8} {s : Scope} {v : Variable} :
    t.scopes[id]? = some s → s.vars[index]? = some v → v.heapSlot = some slot →
    t.Holds id slot ⟨id, index⟩
  | chained {id parent : Nat} {slot parentSlot : UInt8} {s : Scope} {place : Place} :
    t.scopes[id]? = some s → s.parent = some parent →
    s.heapVars[slot.toNat]? = some (.chained parentSlot) → t.Holds parent parentSlot place →
    t.Holds id slot place

/-- A binding, used in scope `id`, leads to a variable. A register does so only while the variable
has no slot, and a slot of the parent only while the scope has no copy of it. -/
def Denotes (t : ScopeTree) (id : Nat) (place : Place) : Binding → Prop
  | .register reg => place.owner = id ∧ ∃ s v, t.scopes[id]? = some s ∧
      s.vars[place.index]? = some v ∧ v.heapSlot = none ∧ v.register = reg
  | .own slot => t.Holds id slot place
  | .parent slot => ∃ s parent, t.scopes[id]? = some s ∧ s.parent = some parent ∧
      s.chainedSlot? slot = none ∧ t.Holds parent slot place
  | .instanceVariable _ | .global => False

structure Coherent.At (t : ScopeTree) (id : Nat) (s : Scope) : Prop where
  parent : ∀ p, s.parent = some p → p < id
  args : s.args ≤ s.vars.size
  register : ∀ {i : Nat} {v : Variable}, s.vars[i]? = some v → v.register.toNat = i + 1
  promoted : ∀ {i : Nat} {v : Variable} {slot : UInt8}, s.vars[i]? = some v →
    v.heapSlot = some slot → s.heapVars[slot.toNat]? = some v.origin
  apart : ∀ {i j : Nat} {v w : Variable} {slot : UInt8}, s.vars[i]? = some v →
    s.vars[j]? = some w → v.heapSlot = some slot → w.heapSlot = some slot → i = j
  argument : ∀ {i : Nat} {reg : UInt8}, s.heapVars[i]? = some (.argument reg) →
    reg.toNat ≤ s.vars.size
  chained : ∀ {i : Nat} {slot : UInt8}, s.heapVars[i]? = some (.chained slot) →
    ∃ p s', s.parent = some p ∧ t.scopes[p]? = some s' ∧ slot.toNat < s'.heapVars.size
  once : ∀ {i j : Nat} {slot : UInt8}, s.heapVars[i]? = some (.chained slot) →
    s.heapVars[j]? = some (.chained slot) → i = j
  slots : s.heapVars.size ≤ maxHeapVars

def Coherent (t : ScopeTree) : Prop :=
  ∀ {id : Nat} {s : Scope}, t.scopes[id]? = some s → Coherent.At t id s

variable {t : ScopeTree} {id : Nat} {place place' : Place}

theorem Holds.lt_size {slot : UInt8} (coherent : t.Coherent) (h : t.Holds id slot place) :
    ∃ s, t.scopes[id]? = some s ∧ slot.toNat < s.heapVars.size := by
  cases h with
  | promoted hs hv hslot =>
    exact ⟨_, hs, (Array.getElem?_eq_some_iff.mp ((coherent hs).promoted hv hslot)).1⟩
  | chained hs _ hslot _ => exact ⟨_, hs, (Array.getElem?_eq_some_iff.mp hslot).1⟩

theorem Holds.owner_le {slot : UInt8} (coherent : t.Coherent) (h : t.Holds id slot place) :
    place.owner ≤ id := by
  induction h with
  | promoted => exact Nat.le_refl _
  | chained hs hparent _ _ ih =>
    exact Nat.le_trans ih (Nat.le_of_lt ((coherent hs).parent _ hparent))

theorem Variable.origin_ne_chained (v : Variable) (slot : UInt8) : v.origin ≠ .chained slot := by
  rw [Variable.origin]
  cases v.kind <;> simp

theorem Holds.place_unique {slot : UInt8} (coherent : t.Coherent) (h : t.Holds id slot place)
    (h' : t.Holds id slot place') : place = place' := by
  induction h generalizing place' with
  | promoted hs hv hslot =>
    cases h' with
    | promoted hs' hv' hslot' =>
      obtain rfl := Option.some.inj (hs.symm.trans hs')
      rw [(coherent hs).apart hv hv' hslot hslot']
    | chained hs' _ hslot' _ =>
      obtain rfl := Option.some.inj (hs.symm.trans hs')
      have := Option.some.inj (((coherent hs).promoted hv hslot).symm.trans hslot')
      exact absurd this (Variable.origin_ne_chained _ _)
  | chained hs hparent hslot _ ih =>
    cases h' with
    | promoted hs' hv' hslot' =>
      obtain rfl := Option.some.inj (hs.symm.trans hs')
      have := Option.some.inj (((coherent hs').promoted hv' hslot').symm.trans hslot)
      exact absurd this (Variable.origin_ne_chained _ _)
    | chained hs' hparent' hslot' hrest' =>
      obtain rfl := Option.some.inj (hs.symm.trans hs')
      obtain rfl := Option.some.inj (hparent.symm.trans hparent')
      obtain rfl := Origin.chained.inj (Option.some.inj (hslot.symm.trans hslot'))
      exact ih hrest'

/-- A scope holds a variable in at most one slot. -/
theorem Holds.slot_unique {slot slot' : UInt8} (coherent : t.Coherent) (h : t.Holds id slot place)
    (h' : t.Holds id slot' place) : slot = slot' := by
  induction h generalizing slot' with
  | promoted hs hv hslot =>
    cases h' with
    | promoted hs' hv' hslot' =>
      obtain rfl := Option.some.inj (hs.symm.trans hs')
      obtain rfl := Option.some.inj (hv.symm.trans hv')
      exact Option.some.inj (hslot.symm.trans hslot')
    | chained hs' hparent' _ hrest' =>
      have hle := hrest'.owner_le coherent
      have hlt := (coherent hs').parent _ hparent'
      exact absurd hle (Nat.not_le.mpr hlt)
  | chained hs hparent hslot hrest ih =>
    cases h' with
    | promoted hs' _ _ =>
      have hle := hrest.owner_le coherent
      have hlt := (coherent hs).parent _ hparent
      exact absurd hle (Nat.not_le.mpr hlt)
    | chained hs' hparent' hslot' hrest' =>
      obtain rfl := Option.some.inj (hs.symm.trans hs')
      obtain rfl := Option.some.inj (hparent.symm.trans hparent')
      obtain rfl := ih hrest'
      exact UInt8.toNat_inj.mp ((coherent hs).once hslot hslot')

theorem chainedSlot?_eq_none {s : Scope} {parentSlot : UInt8} {i : Nat}
    (h : s.chainedSlot? parentSlot = none) : s.heapVars[i]? ≠ some (.chained parentSlot) := by
  intro hi
  rw [Scope.chainedSlot?, Option.map_eq_none_iff, Array.findIdx?_eq_none_iff] at h
  exact absurd (Array.mem_of_getElem? hi) (fun hmem => by simpa using h _ hmem)

theorem Denotes.unique {b b' : Binding} (coherent : t.Coherent) (h : t.Denotes id place b)
    (h' : t.Denotes id place b') : b = b' := by
  -- what a copy in the scope itself rules out
  have notHeld : ∀ {reg slot}, t.Denotes id place (.register reg) → ¬t.Holds id slot place := by
    rintro reg slot ⟨howner, s, v, hs, hv, hnone, -⟩ hholds
    cases hholds with
    | promoted hs' hv' hslot =>
      obtain rfl := Option.some.inj (hs.symm.trans hs')
      obtain rfl := Option.some.inj (hv.symm.trans hv')
      rw [hnone] at hslot
      cases hslot
    | chained hs' hparent _ hrest =>
      have := hrest.owner_le coherent
      have := (coherent hs').parent _ hparent
      omega
  have notInner : ∀ {slot}, t.Denotes id place (.parent slot) → place.owner ≠ id := by
    rintro slot ⟨s, parent, hs, hparent, -, hholds⟩ howner
    have := hholds.owner_le coherent
    have := (coherent hs).parent _ hparent
    omega
  have notBoth : ∀ {slot slot'}, t.Denotes id place (.parent slot) → ¬t.Holds id slot' place := by
    intro slot slot' hd hholds
    have ⟨s, parent, hs, hparent, hnone, hrest⟩ := hd
    cases hholds with
    | promoted => exact notInner hd rfl
    | chained hs' hparent' hslot' hrest' =>
      obtain rfl := Option.some.inj (hs.symm.trans hs')
      obtain rfl := Option.some.inj (hparent.symm.trans hparent')
      obtain rfl := hrest.slot_unique coherent hrest'
      exact chainedSlot?_eq_none hnone hslot'
  cases b with
  | instanceVariable i => exact h.elim
  | global => exact h.elim
  | register reg =>
    cases b' with
    | instanceVariable i => exact h'.elim
    | global => exact h'.elim
    | register reg' =>
      obtain ⟨-, s, v, hs, hv, -, rfl⟩ := h
      obtain ⟨-, s', v', hs', hv', -, rfl⟩ := h'
      obtain rfl := Option.some.inj (hs.symm.trans hs')
      obtain rfl := Option.some.inj (hv.symm.trans hv')
      rfl
    | own slot' => exact absurd h' (notHeld h)
    | parent slot' => exact absurd h.1 (notInner h')
  | own slot =>
    cases b' with
    | instanceVariable i => exact h'.elim
    | global => exact h'.elim
    | register reg' => exact absurd h (notHeld h')
    | own slot' => rw [Holds.slot_unique coherent h h']
    | parent slot' => exact absurd h (notBoth h')
  | parent slot =>
    cases b' with
    | instanceVariable i => exact h'.elim
    | global => exact h'.elim
    | register reg' => exact absurd h'.1 (notInner h)
    | own slot' => exact absurd h' (notBoth h)
    | parent slot' =>
      obtain ⟨s, parent, hs, hparent, -, hrest⟩ := h
      obtain ⟨s', parent', hs', hparent', -, hrest'⟩ := h'
      obtain rfl := Option.some.inj (hs.symm.trans hs')
      obtain rfl := Option.some.inj (hparent.symm.trans hparent')
      rw [hrest.slot_unique coherent hrest']

end ScopeTree

end ObjectMachine
