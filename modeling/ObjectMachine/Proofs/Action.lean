import Mathlib.Logic.Basic
import ObjectMachine.Memory.Fault

namespace ObjectMachine

section Delivered

variable {ε σ α β : Type} {s s' : σ}

theorem bind_eq_ok {x : EStateM ε σ α} {f : α → EStateM ε σ β} {b : β} :
    (x >>= f) s = .ok b s' ↔ ∃ a s₁, x s = .ok a s₁ ∧ f a s₁ = .ok b s' := by
  change EStateM.bind x f s = _ ↔ _
  rw [EStateM.bind]
  cases x s with
  | ok a s₁ =>
    refine ⟨fun h => ⟨a, s₁, rfl, h⟩, ?_⟩
    rintro ⟨a', s₁', heq, h⟩
    cases heq
    exact h
  | error e s₁ => simp

theorem bind_of_eq_ok {x : EStateM ε σ α} {f : α → EStateM ε σ β} {a : α} (h : x s = .ok a s') :
    (x >>= f) s = f a s' := by
  change EStateM.bind x f s = _
  rw [EStateM.bind, h]

theorem bind_of_eq_error {x : EStateM ε σ α} {f : α → EStateM ε σ β} {e : ε}
    (h : x s = .error e s') : (x >>= f) s = .error e s' := by
  change EStateM.bind x f s = _
  rw [EStateM.bind, h]

/-- A step that was refused, was so in its first part or in the rest. -/
theorem bind_eq_error {x : EStateM ε σ α} {f : α → EStateM ε σ β} {e : ε}
    (h : (x >>= f) s = .error e s') :
    x s = .error e s' ∨ ∃ a s₁, x s = .ok a s₁ ∧ f a s₁ = .error e s' := by
  cases heq : x s with
  | ok a s₁ =>
    rw [bind_of_eq_ok heq] at h
    exact .inr ⟨a, s₁, rfl, h⟩
  | error e₁ s₁ =>
    rw [bind_of_eq_error heq] at h
    cases h
    exact .inl rfl

theorem pure_eq_ok {a b : α} : (pure a : EStateM ε σ α) s = .ok b s' ↔ a = b ∧ s = s' := by
  change EStateM.Result.ok a s = _ ↔ _
  simp

theorem get_eq_ok {a : σ} : (get : EStateM ε σ σ) s = .ok a s' ↔ s = a ∧ s = s' := by
  change EStateM.Result.ok s s = _ ↔ _
  simp

theorem get_bind {f : σ → EStateM ε σ α} : ((get : EStateM ε σ σ) >>= f) s = f s s := rfl

theorem modify_bind {f : σ → σ} {g : PUnit → EStateM ε σ α} :
    ((modify f : EStateM ε σ PUnit) >>= g) s = g ⟨⟩ (f s) := rfl

theorem set_eq_ok {a : σ} {u : PUnit} :
    (set a : EStateM ε σ PUnit) s = .ok u s' ↔ a = s' := by
  change EStateM.Result.ok PUnit.unit a = _ ↔ _
  simp

theorem modify_eq_ok {f : σ → σ} {u : PUnit} :
    (modify f : EStateM ε σ PUnit) s = .ok u s' ↔ f s = s' := by
  change EStateM.Result.ok PUnit.unit (f s) = _ ↔ _
  simp

theorem throw_eq_ok {e : ε} {a : α} : (throw e : EStateM ε σ α) s = .ok a s' ↔ False := by
  change EStateM.Result.error e s = _ ↔ _
  simp

theorem fail_eq_ok {cause : ε} {a : α} :
    (Action.fail cause : Action ε σ α) s = .ok a s' ↔ False := throw_eq_ok

theorem fault_eq_ok {f : Fault} {a : α} :
    (Action.fault f : Action ε σ α) s = .ok a s' ↔ False := throw_eq_ok

theorem query_eq_ok {f : σ → Except Fault α} {a : α}
    (heq : (Action.query f : Action ε σ α) s = .ok a s') : f s = .ok a ∧ s' = s := by
  rw [Action.query] at heq
  split at heq
  · rename_i hf
    cases heq
    exact ⟨hf, rfl⟩
  · cases heq

theorem query_of_eq_ok {f : σ → Except Fault α} {a : α} (h : f s = .ok a) :
    (Action.query f : Action ε σ α) s = .ok a s := by
  rw [Action.query, h]

/-- A read delivers what is read, and what follows starts from the same state. -/
theorem query_bind_eq_ok {f : σ → Except Fault α} {next : α → Action ε σ β} {b : β} :
    (Action.query f >>= next) s = .ok b s' ↔ ∃ a, f s = .ok a ∧ next a s = .ok b s' := by
  refine ⟨fun h => ?_, fun ⟨a, hread, h⟩ => bind_eq_ok.mpr ⟨a, s, query_of_eq_ok hread, h⟩⟩
  obtain ⟨a, s₁, hquery, hnext⟩ := bind_eq_ok.mp h
  obtain ⟨hread, rfl⟩ := query_eq_ok hquery
  exact ⟨a, hread, hnext⟩

theorem except_bind_eq_ok {x : Except ε α} {f : α → Except ε β} {b : β} :
    (x >>= f) = .ok b ↔ ∃ a, x = .ok a ∧ f a = .ok b := by
  cases x with
  | ok a => exact ⟨fun h => ⟨a, rfl, h⟩, fun ⟨_, hx, h⟩ => by cases hx; exact h⟩
  | error e => exact ⟨fun h => (nomatch h), fun ⟨_, hx, _⟩ => (nomatch hx)⟩

def Action.answer? : EStateM.Result ε σ α → Option α
  | .ok a _ => some a
  | .error .. => none

theorem Action.exists_eq_ok {r : EStateM.Result ε σ α} (h : (answer? r).isSome = true) :
    ∃ a s, r = .ok a s ∧ answer? r = some a := by
  cases r with
  | ok a s => exact ⟨a, s, rfl, rfl⟩
  | error e s => cases h

theorem ite_eq_ok {c : Prop} [Decidable c] {x y : EStateM ε σ α} {a : α} :
    (if c then x else y) s = .ok a s' ↔ c ∧ x s = .ok a s' ∨ ¬c ∧ y s = .ok a s' := by
  by_cases hc : c <;> simp [hc]

end Delivered

namespace Action

variable {ε σ α β : Type} {P : σ → Prop}

/-- Whether the step delivers, fails or breaks a rule, it leaves a state with the property if it
was given one. -/
def Keeps (act : Action ε σ α) (P : σ → Prop) : Prop :=
  ∀ s, P s → match act s with
    | .ok _ s' => P s'
    | .error _ s' => P s'

namespace Keeps

theorem ok {act : Action ε σ α} (h : act.Keeps P) {s s' : σ} {v : α} (hs : P s)
    (heq : act s = .ok v s') : P s' := by
  have := h s hs
  rwa [heq] at this

theorem error {act : Action ε σ α} (h : act.Keeps P) {s s' : σ} {e : Stop ε} (hs : P s)
    (heq : act s = .error e s') : P s' := by
  have := h s hs
  rwa [heq] at this

theorem pure (v : α) : Keeps (Pure.pure v : Action ε σ α) P := fun _ hs => hs

theorem fault (f : Fault) : Keeps (Action.fault f : Action ε σ α) P := fun _ hs => hs

theorem get : Keeps (get : Action ε σ σ) P := fun _ hs => hs

theorem modify {f : σ → σ} (hf : ∀ s, P s → P (f s)) : Keeps (modify f : Action ε σ PUnit) P := hf

theorem query (f : σ → Except Fault α) : Keeps (Action.query f : Action ε σ α) P := by
  intro s hs
  rw [Action.query]
  cases f s <;> exact hs

theorem bind {act : Action ε σ α} {next : α → Action ε σ β} (h : act.Keeps P)
    (hnext : ∀ v, (next v).Keeps P) : (act >>= next).Keeps P := by
  intro s hs
  have hact := h s hs
  change match (EStateM.bind act next) s with
    | .ok _ s' => P s'
    | .error _ s' => P s'
  rw [EStateM.bind]
  cases heq : act s with
  | ok v s' =>
    rw [heq] at hact
    exact hnext v s' hact
  | error e s' =>
    rw [heq] at hact
    exact hact

end Keeps

/-- The step delivers or breaks a rule, but gives its caller nothing to act on. -/
def Unfailing (act : Action ε σ α) : Prop := ∀ s e s', act s ≠ .error (.failure e) s'

namespace Unfailing

theorem pure (v : α) : Unfailing (Pure.pure v : Action ε σ α) := fun _ _ _ => nofun

theorem fault (f : Fault) : Unfailing (Action.fault f : Action ε σ α) := fun _ _ _ => nofun

theorem get : Unfailing (get : Action ε σ σ) := fun _ _ _ => nofun

theorem modify (f : σ → σ) : Unfailing (modify f : Action ε σ PUnit) := fun _ _ _ => nofun

theorem query (f : σ → Except Fault α) : Unfailing (query f : Action ε σ α) := by
  intro s e s' heq
  rw [Action.query] at heq
  split at heq <;> cases heq

theorem bind {act : Action ε σ α} {next : α → Action ε σ β} (h : act.Unfailing)
    (hnext : ∀ v, (next v).Unfailing) : (act >>= next).Unfailing := by
  intro s e s' heq
  change EStateM.bind act next s = _ at heq
  rw [EStateM.bind] at heq
  cases hact : act s with
  | ok v s₁ => exact hnext v s₁ e s' (by simpa [hact] using heq)
  | error e₁ s₁ =>
    rw [hact] at heq
    cases heq
    exact h s e s' hact

end Unfailing

/-- The step stops only with what satisfies `C`, and delivers only where `D` holds. -/
structure Accords (act : Action ε σ α) (C : Stop ε → Prop) (D : Prop) : Prop where
  ok : ∀ {s v s'}, act s = .ok v s' → D
  error : ∀ {s e s'}, act s = .error e s' → C e

namespace Accords

variable {C : Stop ε → Prop} {D D' : Prop}

theorem pure (v : α) (h : D) : Accords (Pure.pure v : Action ε σ α) C D := ⟨fun _ => h, nofun⟩

theorem fault {f : Fault} (h : C (.fault f)) : Accords (Action.fault f : Action ε σ α) C D := by
  refine ⟨nofun, fun heq => ?_⟩
  cases heq
  exact h

theorem fail {cause : ε} (h : C (.failure cause)) :
    Accords (Action.fail cause : Action ε σ α) C D := by
  refine ⟨nofun, fun heq => ?_⟩
  cases heq
  exact h

theorem get : Accords (get : Action ε σ σ) C True := ⟨fun _ => trivial, nofun⟩

theorem set (s : σ) : Accords (set s : Action ε σ PUnit) C True := ⟨fun _ => trivial, nofun⟩

theorem modify (f : σ → σ) : Accords (modify f : Action ε σ PUnit) C True :=
  ⟨fun _ => trivial, nofun⟩

/-- What holds where the first part delivers is known where the second begins. -/
theorem bind {act : Action ε σ α} {next : α → Action ε σ β} (h : act.Accords C D)
    (hnext : ∀ v, D → (next v).Accords C D') : (act >>= next).Accords C D' := by
  refine ⟨fun heq => ?_, fun heq => ?_⟩
  · obtain ⟨v, s₁, hact, heq⟩ := bind_eq_ok.mp heq
    exact (hnext v (h.ok hact)).ok heq
  · rcases bind_eq_error heq with heq | ⟨v, s₁, hact, heq⟩
    · exact h.error heq
    · exact (hnext v (h.ok hact)).error heq

/-- What follows a check that fails or goes on. -/
theorem check {c : Prop} [Decidable c] {act : Action ε σ α} {next : Action ε σ β}
    (hact : act.Accords C True) (hnext : next.Accords C D) :
    Accords (if c then act >>= fun _ => next else next) C D := by
  split
  · exact .bind hact fun _ _ => hnext
  · exact hnext

end Accords

/-- Short of a broken rule, a step ends in a state with a property. -/
def Ends (P : σ → Prop) : EStateM.Result (Stop ε) σ α → Prop
  | .ok _ s' => P s'
  | .error (.failure _) s' => P s'
  | .error (.fault _) _ => True

namespace Ends

variable {s : σ}

theorem mono {Q : σ → Prop} {r : EStateM.Result (Stop ε) σ α} (h : Ends P r)
    (himp : ∀ s', P s' → Q s') : Ends Q r := by
  match r, h with
  | .ok _ s', h => exact himp s' h
  | .error (.failure _) s', h => exact himp s' h
  | .error (.fault _) _, _ => trivial

theorem and {Q : σ → Prop} {r : EStateM.Result (Stop ε) σ α} (h : Ends P r) (h' : Ends Q r) :
    Ends (fun s' => P s' ∧ Q s') r := by
  match r, h, h' with
  | .ok _ _, h, h' => exact ⟨h, h'⟩
  | .error (.failure _) _, h, h' => exact ⟨h, h'⟩
  | .error (.fault _) _, _, _ => trivial

theorem intro {act : Action ε σ α} (hok : ∀ a s', act s = .ok a s' → P s')
    (hfails : ∀ cause s', act s = .error (.failure cause) s' → P s') : Ends P (act s) := by
  cases heq : act s with
  | ok a s' => exact hok a s' heq
  | error e s' =>
    cases e with
    | failure cause => exact hfails cause s' heq
    | fault f => trivial

theorem of_unfailing {act : Action ε σ α} (hact : act.Unfailing)
    (hok : ∀ a s', act s = .ok a s' → P s') : Ends P (act s) :=
  intro hok fun cause s' heq => absurd heq (hact s cause s')

theorem bind {act : Action ε σ α} {next : α → Action ε σ β}
    (hfails : ∀ cause s', act s = .error (.failure cause) s' → P s')
    (hnext : ∀ a s', act s = .ok a s' → Ends P (next a s')) : Ends P ((act >>= next) s) := by
  cases heq : act s with
  | ok a s' =>
    rw [bind_of_eq_ok heq]
    exact hnext a s' heq
  | error e s' =>
    rw [bind_of_eq_error heq]
    cases e with
    | failure cause => exact hfails cause s' heq
    | fault f => trivial

theorem andThen {act : Action ε σ α} {next : α → Action ε σ β} (hact : Ends P (act s))
    (hnext : ∀ a s', P s' → Ends P (next a s')) : Ends P ((act >>= next) s) := by
  refine bind (fun cause s' heq => ?_) fun a s' heq => ?_
  · rw [heq] at hact
    exact hact
  · rw [heq] at hact
    exact hnext a s' hact

theorem query {f : σ → Except Fault α} {next : α → Action ε σ β}
    (hnext : ∀ a, f s = .ok a → Ends P (next a s)) : Ends P ((Action.query f >>= next) s) := by
  refine bind (fun cause s' heq => absurd heq (Unfailing.query f s cause s')) fun a s' heq => ?_
  obtain ⟨hread, rfl⟩ := query_eq_ok heq
  exact hnext a hread

end Ends

/-- Short of a broken rule, a step delivers as it should or ends in a state with a property. -/
def Meets (Q : α → σ → Prop) (P : σ → Prop) : EStateM.Result (Stop ε) σ α → Prop
  | .ok a s' => Q a s'
  | .error (.failure _) s' => P s'
  | .error (.fault _) _ => True

namespace Meets

variable {s : σ} {Q Q' : α → σ → Prop} {R : β → σ → Prop} {P' : σ → Prop}

theorem ok {r : EStateM.Result (Stop ε) σ α} (h : Meets Q P r) {a : α} {s' : σ}
    (heq : r = .ok a s') : Q a s' := by
  rw [heq] at h
  exact h

theorem failure {r : EStateM.Result (Stop ε) σ α} (h : Meets Q P r) {cause : ε} {s' : σ}
    (heq : r = .error (.failure cause) s') : P s' := by
  rw [heq] at h
  exact h

theorem mono {r : EStateM.Result (Stop ε) σ α} (h : Meets Q P r) (hQ : ∀ a s', Q a s' → Q' a s')
    (hP : ∀ s', P s' → P' s') : Meets Q' P' r := by
  match r, h with
  | .ok a s', h => exact hQ a s' h
  | .error (.failure _) s', h => exact hP s' h
  | .error (.fault _) _, _ => trivial

theorem intro {act : Action ε σ α} (hok : ∀ a s', act s = .ok a s' → Q a s')
    (hfails : ∀ cause s', act s = .error (.failure cause) s' → P s') : Meets Q P (act s) := by
  cases heq : act s with
  | ok a s' => exact hok a s' heq
  | error e s' =>
    cases e with
    | failure cause => exact hfails cause s' heq
    | fault f => trivial

theorem of_unfailing {act : Action ε σ α} (hact : act.Unfailing)
    (hok : ∀ a s', act s = .ok a s' → Q a s') : Meets Q P (act s) :=
  intro hok fun cause s' heq => absurd heq (hact s cause s')

theorem bind {act : Action ε σ α} {next : α → Action ε σ β} (hact : Meets Q P (act s))
    (hnext : ∀ a s', Q a s' → Meets R P (next a s')) : Meets R P ((act >>= next) s) := by
  cases heq : act s with
  | ok a s' =>
    rw [bind_of_eq_ok heq]
    exact hnext a s' (hact.ok heq)
  | error e s' =>
    rw [bind_of_eq_error heq]
    cases e with
    | failure cause => exact hact.failure heq
    | fault f => trivial

theorem query {f : σ → Except Fault α} {next : α → Action ε σ β}
    (hnext : ∀ a, f s = .ok a → Meets R P (next a s)) :
    Meets R P ((Action.query f >>= next) s) := by
  have hread : Meets (fun a s' => f s = .ok a ∧ s' = s) P ((Action.query f : Action ε σ α) s) :=
    of_unfailing (.query f) fun _ _ heq => query_eq_ok heq
  exact hread.bind fun a s' ⟨hf, hs⟩ => hs ▸ hnext a hf

end Meets

end Action

end ObjectMachine
