import ObjectMachine.Code.Template
import ObjectMachine.Machine.Run
import ObjectMachine.Proofs.Memory.Integrity

namespace ObjectMachine

class Holder (α : Type) where
  held : α → List Value

export Holder (held)

attribute [simp] Holder.held

section Holders

variable {α β : Type}

instance : Holder Value := ⟨fun v => [v]⟩
instance : Holder PUnit := ⟨fun _ => []⟩
instance : Holder Bool := ⟨fun _ => []⟩
instance : Holder Nat := ⟨fun _ => []⟩
instance : Holder String := ⟨fun _ => []⟩
instance : Holder (Array UInt8) := ⟨fun _ => []⟩
instance : Holder CodeShape := ⟨fun _ => []⟩
instance : Holder CodeTemplate := ⟨fun _ => []⟩
instance : Holder ProcessState := ⟨fun _ => []⟩
instance : Holder Machine.Indexable := ⟨fun _ => []⟩

instance [Holder α] : Holder (List α) := ⟨fun l => l.flatMap held⟩
instance [Holder α] : Holder (Option α) := ⟨fun o => o.toList.flatMap held⟩
instance [Holder α] [Holder β] : Holder (α × β) := ⟨fun p => held p.1 ++ held p.2⟩

instance : Holder Queue := ⟨fun q => [q.head, q.tail]⟩

instance : Holder Schedule := ⟨Schedule.roots⟩

def RunOutcome.values : RunOutcome → List Value
  | .returned v => [v]
  | .preempted | .yielded | .suspended => []

instance : Holder RunOutcome := ⟨RunOutcome.values⟩

end Holders

/-- The values of an image. Nil stands for the objects that it does not know yet. -/
def Image.values (i : Image) : List Value := .nil :: i.roots

/-- States with a memory, and values beside it. -/
class Store (σ : Type) extends Holder σ where
  heap : σ → Heap

attribute [simp] Store.heap

instance : Store Heap where
  heap h := h
  held _ := []

instance : Store Image where
  heap := Image.heap
  held := Image.values

instance : Store World where
  heap w := w.image.heap
  held w := w.image.values ++ w.schedule.roots

instance : Store Machine where
  heap m := m.image.heap
  held m := m.image.values ++ m.schedule.roots ++
    [m.process, m.context, m.method, m.literals, m.accumulator] ++ held m.stop

section Stability

variable {σ : Type} [Store σ]

def Sane (s : σ) (v : Value) : Prop := (Store.heap s).arenas.Sane v

structure Intact (s : σ) : Prop where
  whole : (Store.heap s).Whole
  held : ∀ v ∈ held s, Sane s v

def Trusted (known : List Value) (v : Value) : Prop := v.isNil ∨ v.isInteger ∨ v ∈ known

section Trusted

variable {known known' : List Value} {v x : Value}

@[simp] theorem trusted_nil : Trusted known .nil := .inl rfl

@[simp] theorem trusted_ofNat (n : Nat) : Trusted known (.ofNat n) := .inr (.inl (by simp))

@[simp] theorem trusted_cons : Trusted (x :: known) v ↔ v = x ∨ Trusted known v := by
  simp only [Trusted, List.mem_cons]
  tauto

@[simp] theorem trusted_append : Trusted (known' ++ known) v ↔ v ∈ known' ∨ Trusted known v := by
  simp only [Trusted, List.mem_append]
  tauto

theorem trusted_of_mem (hv : v ∈ known) : Trusted known v := .inr (.inr hv)

theorem Trusted.sane {s : σ} (hv : Trusted known v) (hknown : ∀ v ∈ known, Sane s v) :
    Sane s v := by
  rcases hv with hnil | hint | hmem
  · exact .inl hnil
  · exact .inr (.inl hint)
  · exact hknown v hmem

end Trusted

def Grows (s s' : σ) : Prop := (Store.heap s).Grows (Store.heap s')

theorem Grows.sane {s s' : σ} (hg : Grows s s') {v : Value} (hv : Sane s v) : Sane s' v := hg v hv

variable {ε α β : Type} [Holder α] [Holder β] {known : List Value}

/-- How a stable step may end. -/
def Settled (s : σ) : EStateM.Result (Stop ε) σ α → Prop
  | .ok a s' => Intact s' ∧ Grows s s' ∧ ∀ v ∈ held a, Sane s' v
  | .error (.failure _) s' => Intact s' ∧ Grows s s'
  | .error (.fault _) _ => True

/-- A step that leaves no stale reference behind if the values it is given are not stale. -/
def Stable (known : List Value) (act : Action ε σ α) : Prop :=
  ∀ s, Intact s → (∀ v ∈ known, Sane s v) → Settled s (act s)

namespace Stable

theorem pure {a : α} (ha : ∀ v ∈ held a, Trusted known v) :
    Stable known (Pure.pure a : Action ε σ α) :=
  fun _ hs hknown => ⟨hs, fun _ hv => hv, fun v hv => (ha v hv).sane hknown⟩

theorem fail (cause : ε) : Stable known (Action.fail cause : Action ε σ α) :=
  fun _ hs _ => ⟨hs, fun _ hv => hv⟩

theorem fault (f : Fault) : Stable known (Action.fault f : Action ε σ α) := fun _ _ _ => trivial

theorem throw (e : Stop ε) : Stable known (throwThe (Stop ε) e : Action ε σ α) := by
  cases e with
  | failure cause => exact fail cause
  | fault f => exact fault f

theorem bind {act : Action ε σ α} {next : α → Action ε σ β} (hact : Stable known act)
    (hnext : ∀ a, Stable (held a ++ known) (next a)) : Stable known (act >>= next) := by
  intro s hs hknown
  have hfirst := hact s hs hknown
  change Settled s (EStateM.bind act next s)
  rw [EStateM.bind]
  cases heq : act s with
  | ok a s₁ =>
    rw [heq] at hfirst
    obtain ⟨hs₁, hgrows, ha⟩ := hfirst
    have hlater := hnext a s₁ hs₁ fun v hv => (List.mem_append.mp hv).elim (ha v)
      fun hv => hgrows.sane (hknown v hv)
    dsimp only
    cases hend : next a s₁ with
    | ok b s₂ =>
      rw [hend] at hlater
      exact ⟨hlater.1, hgrows.trans hlater.2.1, hlater.2.2⟩
    | error e s₂ =>
      rw [hend] at hlater
      cases e with
      | failure cause => exact ⟨hlater.1, hgrows.trans hlater.2⟩
      | fault f => trivial
  | error e s₁ =>
    rw [heq] at hfirst
    cases e with
    | failure cause => exact hfirst
    | fault f => trivial

theorem mono {act : Action ε σ α} {known' : List Value} (hact : Stable known act)
    (hknown : ∀ v ∈ known, Trusted known' v) : Stable known' act :=
  fun s hs hsane => hact s hs fun v hv => (hknown v hv).sane hsane

theorem get : Stable known (get : Action ε σ σ) := fun _ hs _ => ⟨hs, fun _ hv => hv, hs.held⟩

/-- A change to values beside the memory. -/
theorem modify {f : σ → σ} (hheap : ∀ s, Store.heap (f s) = Store.heap s)
    (hheld : ∀ s, ∀ v ∈ held (f s), v ∈ held s ∨ Trusted known v) :
    Stable known (modify f : Action ε σ PUnit) := by
  intro s hs hknown
  have hsame : ∀ v, Sane s v → Sane (f s) v := by
    intro v hv
    rw [Sane, hheap]
    exact hv
  refine ⟨⟨(hheap s) ▸ hs.whole, fun v hv => hsame v ?_⟩, hsame, fun v hv => nomatch hv⟩
  exact (hheld s v hv).elim (hs.held v) (·.sane hknown)

/-- A step of a part of the state, as a step of the whole. -/
theorem within {τ δ : Type} [Store τ] {act : Action δ τ α} {whole : Action ε σ α}
    (hact : Stable known act) (part : σ → τ) (put : σ → τ → σ) (f : δ → ε)
    (heq : ∀ s, whole s = match act (part s) with
      | .ok a t => .ok a (put s t)
      | .error e t => .error (e.map f) (put s t))
    (heap_part : ∀ s, Store.heap (part s) = Store.heap s)
    (heap_put : ∀ s t, Store.heap (put s t) = Store.heap t)
    (held_part : ∀ s, ∀ v ∈ held (part s), v ∈ held s)
    (held_put : ∀ s t, ∀ v ∈ held (put s t), v ∈ held t ∨ v ∈ held s) : Stable known whole := by
  intro s hs hknown
  have hpart : ∀ v, Sane (part s) v ↔ Sane s v := fun v => by rw [Sane, Sane, heap_part]
  have hput : ∀ t v, Sane (put s t) v ↔ Sane t v := fun t v => by rw [Sane, Sane, heap_put]
  have hend := hact (part s) ⟨heap_part s ▸ hs.whole, fun v hv =>
    (hpart v).mpr (hs.held v (held_part s v hv))⟩ fun v hv => (hpart v).mpr (hknown v hv)
  have hintact : ∀ t, Intact t → Grows (part s) t → Intact (put s t) ∧ Grows s (put s t) := by
    intro t ht hgrows
    have hkept : ∀ v, Sane s v → Sane (put s t) v :=
      fun v hv => (hput t v).mpr (hgrows.sane ((hpart v).mpr hv))
    refine ⟨⟨heap_put s t ▸ ht.whole, fun v hv => ?_⟩, hkept⟩
    exact (held_put s t v hv).elim (fun h => (hput t v).mpr (ht.held v h)) fun h =>
      hkept v (hs.held v h)
  rw [heq]
  cases hact : act (part s) with
  | ok a t =>
    rw [hact] at hend
    obtain ⟨ht, hgrows, ha⟩ := hend
    obtain ⟨hintact, hgrows⟩ := hintact t ht hgrows
    exact ⟨hintact, hgrows, fun v hv => (hput t v).mpr (ha v hv)⟩
  | error e t =>
    rw [hact] at hend
    cases e with
    | fault f => trivial
    | failure cause => exact hintact t hend.1 hend.2

end Stable

/-- A read that delivers nothing stale. -/
def Yields (h : Heap) (r : Except Fault α) : Prop :=
  ∀ a, r = .ok a → ∀ v ∈ held a, h.arenas.Sane v

namespace Yields

variable {h : Heap}

theorem pure {a : α} (ha : ∀ v ∈ held a, h.arenas.Sane v) :
    Yields h (Pure.pure a : Except Fault α) := by
  intro a' heq
  cases heq
  exact ha

theorem error (f : Fault) : Yields h (.error f : Except Fault α) := fun _ heq => nomatch heq

theorem bind {r : Except Fault α} {f : α → Except Fault β} (hr : Yields h r)
    (hf : ∀ a, (∀ v ∈ held a, h.arenas.Sane v) → Yields h (f a)) : Yields h (r >>= f) := by
  intro b heq
  cases hcase : r with
  | error e => rw [hcase] at heq; cases heq
  | ok a => rw [hcase] at heq; exact hf a (hr a hcase) b heq

/-- What the first read delivered does not matter. -/
theorem bind_any {γ : Type} {r : Except Fault γ} {f : γ → Except Fault β}
    (hf : ∀ a, Yields h (f a)) : Yields h (r >>= f) := by
  intro b heq
  cases hcase : r with
  | error e => rw [hcase] at heq; cases heq
  | ok a => rw [hcase] at heq; exact hf a b heq

end Yields

theorem Stable.query {f : σ → Except Fault α}
    (hf : ∀ s, Intact s → (∀ v ∈ known, Sane s v) → Yields (Store.heap s) (f s)) :
    Stable known (Action.query f : Action ε σ α) := by
  intro s hs hknown
  rw [Action.query]
  cases heq : f s with
  | ok a => exact ⟨hs, fun _ hv => hv, hf s hs hknown a heq⟩
  | error e => trivial

/-- A read that delivers no values at all. -/
theorem Stable.inspect {f : σ → Except Fault α} (hα : ∀ a : α, held a = []) :
    Stable known (Action.query f : Action ε σ α) :=
  .query fun _ _ _ a _ v hv => by
    rw [hα a] at hv
    cases hv

end Stability

end ObjectMachine
