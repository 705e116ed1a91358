import ObjectMachine.Log.Watch

namespace ObjectMachine

/-- What a step comes to, whatever it told. -/
def Told.outcome {σ α : Type} :
    EStateM.Result (Stop RuntimeError) (Told σ) α → EStateM.Result (Stop RuntimeError) σ α
  | .ok a t => .ok a t.state
  | .error e t => .error e t.state

namespace Watch

variable {σ α β : Type}

def Follows (watched : WatchedAction σ α) (act : Action RuntimeError σ α) : Prop :=
  ∀ t, Told.outcome (watched t) = act t.state

theorem follows_pure (a : α) : Follows (pure a : WatchedAction σ α) (pure a) := fun _ => rfl

theorem follows_throw (e : Stop RuntimeError) :
    Follows (throw e : WatchedAction σ α) (throw e) := fun _ => rfl

theorem follows_silently (act : Action RuntimeError σ α) : Follows (silently act) act := by
  intro t
  rw [silently]
  split <;> simp_all [Told.outcome]

theorem follows_tell (f : LogFilter) (entries : σ → List LogEntry) :
    Follows (tell f entries) (pure ()) := fun _ => rfl

theorem Follows.bind {w : WatchedAction σ α} {a : Action RuntimeError σ α}
    {g : α → WatchedAction σ β} {h : α → Action RuntimeError σ β} (hw : Follows w a)
    (hg : ∀ x, Follows (g x) (h x)) : Follows (w >>= g) (a >>= h) := by
  intro t
  have ht := hw t
  simp only [Bind.bind, EStateM.bind]
  rw [← ht]
  cases w t with
  | error e t => rfl
  | ok x t => exact hg x t

theorem Follows.tryCatch {w : WatchedAction σ α} {a : Action RuntimeError σ α}
    {g : Stop RuntimeError → WatchedAction σ α} {h : Stop RuntimeError → Action RuntimeError σ α}
    (hw : Follows w a) (hg : ∀ e, Follows (g e) (h e)) :
    Follows (tryCatch w g) (tryCatch a h) := by
  intro t
  have ht := hw t
  simp only [MonadExcept.tryCatch, tryCatchThe, MonadExceptOf.tryCatch]
  delta EStateM.tryCatch
  rw [← ht]
  cases w t with
  | error e t => exact hg e t
  | ok x t => rfl

theorem follows_step (f : LogFilter) (messages : Bool) (timer : Timer) :
    Follows (step f messages timer) (Machine.step timer) := by
  intro t
  rw [step]
  split <;> simp_all [Told.outcome]

theorem follows_runMachine (f : LogFilter) (messages : Bool) (timer : Timer) (turns : Nat) :
    Follows (runMachine f messages timer turns) (Machine.run timer turns) := by
  induction turns with
  | zero => exact follows_pure none
  | succ turns ih =>
    apply (follows_step f messages timer).bind
    intro outcome
    cases outcome with
    | some outcome => exact follows_pure (some outcome)
    | none => exact ih

theorem follows_interpret (f : LogFilter) (timer : Timer) (turns : Nat) :
    Follows (interpret f timer turns) (World.interpret timer turns) := by
  intro t
  have h := ((follows_silently Machine.unspill).bind fun _ =>
    follows_runMachine f (f.admits .trace .machine) timer turns) ⟨Machine.ofWorld t.state, t.log⟩
  delta interpret World.interpret
  dsimp only
  rw [← h]
  cases (silently Machine.unspill >>= fun _ =>
      runMachine f (f.admits .trace .machine) timer turns) ⟨Machine.ofWorld t.state, t.log⟩ with
  | ok outcome t => rfl
  | error e t => rfl

theorem follows_runProcess (f : LogFilter) (timer : Timer) (turns : Nat) (p : Value) :
    Follows (runProcess f timer turns p) (World.runProcess timer turns p) := by
  apply (follows_silently (World.setCurrent p)).bind
  intro _
  apply ((follows_interpret f timer turns).tryCatch fun e => ?_).bind
  · intro outcome
    cases outcome with
    | none => exact follows_pure none
    | some outcome =>
      apply (follows_silently (World.settle outcome)).bind
      intro q
      exact (follows_tell f _).bind fun _ => follows_pure (some ())
  · cases e with
    | fault fault => exact follows_throw _
    | failure cause =>
      apply (follows_silently World.abort).bind
      intro q
      exact (follows_tell f _).bind fun _ => follows_throw _

theorem follows_runQueue (f : LogFilter) (timer : Timer) (turns dispatches : Nat) :
    Follows (runQueue f timer turns dispatches) (World.runQueue timer turns dispatches) := by
  induction dispatches with
  | zero => exact follows_pure none
  | succ dispatches ih =>
    apply (follows_silently World.dequeue).bind
    intro next
    cases next with
    | none =>
      apply (follows_silently World.countWaiting).bind
      intro count
      exact (follows_tell f _).bind fun _ => follows_pure (some ())
    | some p =>
      apply (follows_runProcess f timer turns p).bind
      intro done
      cases done with
      | none => exact follows_pure none
      | some _ => exact ih

end Watch

end ObjectMachine
