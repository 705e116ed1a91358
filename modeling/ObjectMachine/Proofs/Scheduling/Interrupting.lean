import ObjectMachine.Proofs.Machine.Entering

namespace ObjectMachine

namespace Interrupts

inductive Signal where
  | request
  | poll
  | disable
  | enable
  | reset
  deriving DecidableEq

/-- Serves a signal, and tells whether a request was taken. -/
def serve (i : Interrupts) : Signal → Interrupts × Bool
  | .request => (i.request, false)
  | .poll => (i.poll.2, i.poll.1)
  | .disable => (i.disable, false)
  | .enable => (i.enable, false)
  | .reset => (i.reset, false)

structure Event where
  signal : Signal
  taken : Bool
  deriving DecidableEq

/-- Serves one signal after the other, with what became of them in order. -/
def serveAll (i : Interrupts) : List Signal → Interrupts × List Event
  | [] => (i, [])
  | s :: rest => (((i.serve s).1.serveAll rest).1,
      ⟨s, (i.serve s).2⟩ :: ((i.serve s).1.serveAll rest).2)

def Enabled (past : List Event) : Prop :=
  ∀ before e after, past = before ++ e :: after → e.signal = .disable →
    ∃ e' ∈ after, e'.signal = .enable ∨ e'.signal = .reset

def Awaited (past : List Event) : Prop :=
  ∃ before e after, past = before ++ e :: after ∧ e.signal = .request ∧
    ∀ e' ∈ after, e'.taken = false ∧ e'.signal ≠ .reset

structure Reflects (i : Interrupts) (past : List Event) : Prop where
  enabled : i.enabled = true ↔ Enabled past
  pending : i.pending = true ↔ Enabled past ∧ Awaited past
  deferred : i.deferred = true ↔ ¬Enabled past ∧ Awaited past

section Past

variable {past : List Event} {e : Event}

/-- What stands in a list that was made longer by one is the last, or stood there before. -/
theorem concat_eq_iff {before after : List Event} {e' : Event} :
    past ++ [e] = before ++ e' :: after ↔
      past = before ∧ e = e' ∧ after = [] ∨
        ∃ rest, after = rest ++ [e] ∧ past = before ++ e' :: rest := by
  constructor
  · intro heq
    rcases after.eq_nil_or_concat with rfl | ⟨rest, last, rfl⟩
    · obtain ⟨rfl, hlast⟩ := List.append_inj' heq rfl
      exact .inl ⟨rfl, List.singleton_inj.mp hlast, rfl⟩
    · rw [List.concat_eq_append, ← List.cons_append, ← List.append_assoc] at heq
      obtain ⟨rfl, hlast⟩ := List.append_inj' heq rfl
      obtain rfl := List.singleton_inj.mp hlast
      exact .inr ⟨rest, List.concat_eq_append, rfl⟩
  · rintro (⟨rfl, rfl, rfl⟩ | ⟨rest, rfl, rfl⟩)
    · rfl
    · simp

theorem enabled_nil : Enabled [] := by
  intro before e after heq
  simp at heq

theorem not_awaited_nil : ¬Awaited [] := by
  rintro ⟨before, e, after, heq, -⟩
  simp at heq

theorem enabled_concat : Enabled (past ++ [e]) ↔
    (e.signal = .enable ∨ e.signal = .reset) ∨ e.signal ≠ .disable ∧ Enabled past := by
  constructor
  · intro h
    by_cases hfrees : e.signal = .enable ∨ e.signal = .reset
    · exact .inl hfrees
    · refine .inr ⟨fun hdisables => ?_, fun before e' after heq hdisables => ?_⟩
      · obtain ⟨_, hmem, -⟩ := h past e [] rfl hdisables
        cases hmem
      · obtain ⟨e'', hmem, hsignal⟩ := h before e' (after ++ [e]) (by simp [heq]) hdisables
        rcases List.mem_append.mp hmem with hmem | hmem
        · exact ⟨e'', hmem, hsignal⟩
        · exact absurd (List.mem_singleton.mp hmem ▸ hsignal) hfrees
  · intro h before e' after heq hdisables
    rcases concat_eq_iff.mp heq with ⟨rfl, rfl, rfl⟩ | ⟨rest, rfl, hpast⟩
    · rcases h with (hsignal | hsignal) | ⟨hne, -⟩
      · cases hsignal.symm.trans hdisables
      · cases hsignal.symm.trans hdisables
      · exact absurd hdisables hne
    · rcases h with hfrees | ⟨-, henabled⟩
      · exact ⟨e, by simp, hfrees⟩
      · obtain ⟨e'', hmem, hsignal⟩ := henabled before e' rest hpast hdisables
        exact ⟨e'', by simp [hmem], hsignal⟩

theorem awaited_concat : Awaited (past ++ [e]) ↔
    e.signal = .request ∨ e.taken = false ∧ e.signal ≠ .reset ∧ Awaited past := by
  constructor
  · rintro ⟨before, e', after, heq, hrequest, hafter⟩
    rcases concat_eq_iff.mp heq with ⟨rfl, rfl, rfl⟩ | ⟨rest, rfl, rfl⟩
    · exact .inl hrequest
    · obtain ⟨hbefore, hlast⟩ := List.forall_mem_append.mp hafter
      obtain ⟨htaken, hreset⟩ := hlast e (List.mem_singleton_self e)
      exact .inr ⟨htaken, hreset, before, e', rest, rfl, hrequest, hbefore⟩
  · rintro (hrequest | ⟨htaken, hreset, before, e', after, rfl, hrequest, hafter⟩)
    · exact ⟨past, e, [], rfl, hrequest, List.forall_mem_nil _⟩
    · exact ⟨before, e', after ++ [e], by simp, hrequest,
        List.forall_mem_append.mpr ⟨hafter, List.forall_mem_singleton.mpr ⟨htaken, hreset⟩⟩⟩

/-- At first nothing was asked for. -/
theorem reflects_nil : Reflects {} [] := by
  refine ⟨by simp [enabled_nil], ?_, ?_⟩ <;> simp [not_awaited_nil]

/-- Whatever the signal, the flags tell what is to be known afterwards. -/
theorem Reflects.serve {i : Interrupts} (h : Reflects i past) (s : Signal) :
    Reflects (i.serve s).1 (past ++ [⟨s, (i.serve s).2⟩]) := by
  obtain ⟨henabled, hpending, hdeferred⟩ := h
  cases s with
  | request =>
    simp only [Interrupts.serve, request]
    refine ⟨?_, ?_, ?_⟩ <;> simp only [enabled_concat, awaited_concat] <;> grind
  | poll =>
    simp only [Interrupts.serve, poll]
    refine ⟨?_, ?_, ?_⟩ <;> simp only [enabled_concat, awaited_concat] <;> grind
  | disable | enable | reset =>
    simp only [Interrupts.serve, disable, enable, reset]
    refine ⟨?_, ?_, ?_⟩ <;> simp only [enabled_concat, awaited_concat] <;> grind

theorem Reflects.serveAll {i : Interrupts} (h : Reflects i past) (signals : List Signal) :
    Reflects (i.serveAll signals).1 (past ++ (i.serveAll signals).2) := by
  induction signals generalizing i past with
  | nil => simpa [Interrupts.serveAll] using h
  | cons s rest ih => simpa [Interrupts.serveAll] using ih (h.serve s)

/-- A request is taken by a poll that finds interrupts enabled and a request to take. -/
theorem Reflects.taken_iff {i : Interrupts} (h : Reflects i past) {signals : List Signal}
    {before after : List Event} (hsplit : (i.serveAll signals).2 = before ++ e :: after) :
    e.taken = true ↔ e.signal = .poll ∧ Enabled (past ++ before) ∧ Awaited (past ++ before) := by
  induction signals generalizing i past before with
  | nil => simp [Interrupts.serveAll] at hsplit
  | cons s rest ih =>
    cases before with
    | nil =>
      obtain ⟨rfl, -⟩ := List.cons.inj hsplit
      rw [List.append_nil, ← h.pending]
      cases s <;> simp [Interrupts.serve, poll]
    | cons first before =>
      obtain ⟨rfl, hrest⟩ := List.cons.inj hsplit
      simpa using ih (h.serve s) hrest

theorem serveAll_append (i : Interrupts) (first rest : List Signal) :
    i.serveAll (first ++ rest) = (((i.serveAll first).1.serveAll rest).1,
      (i.serveAll first).2 ++ ((i.serveAll first).1.serveAll rest).2) := by
  induction first generalizing i with
  | nil => rfl
  | cons s first ih => simp [Interrupts.serveAll, ih]

/-- What was disabled is enabled by an enabling or a reset that comes later. -/
theorem exists_frees {more : List Event} (h : ¬Enabled past) (h' : Enabled (past ++ more)) :
    ∃ e ∈ more, e.signal = .enable ∨ e.signal = .reset := by
  rw [Enabled] at h
  push Not at h
  obtain ⟨before, e, after, rfl, hdisables, hafter⟩ := h
  obtain ⟨e', hmem, hfrees⟩ := h' before e (after ++ more) (by simp) hdisables
  rcases List.mem_append.mp hmem with hmem | hmem
  · rcases hfrees with hsignal | hsignal
    · exact absurd hsignal (hafter e' hmem).1
    · exact absurd hsignal (hafter e' hmem).2
  · exact ⟨e', hmem, hfrees⟩

theorem map_signal_serveAll (i : Interrupts) (signals : List Signal) :
    (i.serveAll signals).2.map Event.signal = signals := by
  induction signals generalizing i with
  | nil => rfl
  | cons s rest ih => simp [Interrupts.serveAll, ih]

theorem signal_mem {i : Interrupts} {signals : List Signal} (hmem : e ∈ (i.serveAll signals).2) :
    e.signal ∈ signals := by
  rw [← map_signal_serveAll i signals]
  exact List.mem_map_of_mem hmem

end Past

end Interrupts

namespace Machine

open Interrupts (Signal Reflects Enabled Awaited)

variable {m m' : Machine} {i : Instruction}

/-- The interrupts are as they were, and no run has ended for a request. -/
structure Unaware (m m' : Machine) : Prop where
  interrupts : m'.interrupts = m.interrupts
  preempted : m'.stop = some .preempted → m.stop = some .preempted

instance : Undisturbed Unaware where
  refl _ := ⟨rfl, id⟩
  trans h h' := ⟨h'.interrupts.trans h.interrupts, fun heq => h.preempted (h'.preempted heq)⟩
  image _ _ := ⟨rfl, id⟩
  schedule _ _ := ⟨rfl, id⟩
  accumulator _ _ := ⟨rfl, id⟩
  stop _ _ houtcome := ⟨rfl, fun heq => by rcases houtcome with rfl | rfl <;> cases heq⟩

section Unaware

variable {α : Type}

theorem Stays.refuse {cause : List String → RuntimeError} {next : α → MachineAction Unit} :
    Stays Unaware (do let u ← Action.fail (cause (← trace)); next u : MachineAction Unit) := by
  intro m u m' heq
  obtain ⟨_, _, -, heq⟩ := bind_eq_ok.mp heq
  obtain ⟨_, _, heq, -⟩ := bind_eq_ok.mp heq
  cases fail_eq_ok.mp heq

theorem loadFrame_unaware : Stays Unaware loadFrame := by
  intro m u m' heq
  obtain ⟨_, _, _, _, _, _, -, -, rfl⟩ := loadFrame_eq_ok heq
  exact ⟨rfl, id⟩

theorem spill_unaware : Stays Unaware spill :=
  .bind .get fun _ => .bind (setSlot_stays _ _ _) fun _ => .bind (setSlot_stays _ _ _) fun _ =>
    setSlot_stays _ _ _

theorem collect_unaware : Stays Unaware collect := by
  intro m u m' heq
  rw [collect] at heq
  split at heq
  · cases heq
  · split at heq
    · cases heq
      exact ⟨rfl, id⟩
    · cases heq

theorem unspill_unaware : Stays Unaware unspill :=
  .bind .get fun _ => .bind (.query _) fun _ => .bind (.query _) fun _ =>
    .bind (.modify fun _ => ⟨rfl, id⟩) fun _ => loadFrame_unaware

theorem safepoint_unaware : Stays Unaware safepoint :=
  .bind .get fun _ => .ite (.bind spill_unaware fun _ => .bind collect_unaware fun _ =>
    unspill_unaware) (.pure _)

theorem Pause.unaware {m₁ : Machine} (hp : m.Pause i m₁) : Unaware m m₁ := by
  rcases hp with ⟨-, hsafe⟩ | ⟨-, rfl⟩
  · exact safepoint_unaware _ _ _ hsafe
  · exact Undisturbed.refl _

theorem activate_unaware (code receiver : Value) (args : List Value) (parent : Value)
    (home : Option Value) : Stays Unaware (activate code receiver args parent home) :=
  .bind .get fun _ => .bind (setSlot_stays _ _ _) fun _ => .bind (.onImage _) fun _ =>
    .bind (.modify fun _ => ⟨rfl, id⟩) fun _ => loadFrame_unaware

theorem dispatch_unaware (selector receiver : Value) (args : List Value) (cls : Value) :
    Stays Unaware (dispatch selector receiver args cls) := by
  refine .bind (.query _) fun found => ?_
  cases found with
  | none =>
    intro m u m' heq
    obtain ⟨_, _, -, heq⟩ := bind_eq_ok.mp heq
    obtain ⟨_, _, -, heq⟩ := bind_eq_ok.mp heq
    obtain ⟨_, _, -, heq⟩ := bind_eq_ok.mp heq
    cases fail_eq_ok.mp heq
  | some found => exact activate_unaware _ _ _ _ _

theorem continueIn_unaware (target value : Value) : Stays Unaware (continueIn target value) := by
  have henter : Stays Unaware (do modify fun m => { m with context := target }; loadFrame) :=
    .bind (.modify fun _ => ⟨rfl, id⟩) fun _ => loadFrame_unaware
  refine .bind (setAccumulator_stays _) fun _ => .ite ?_ ?_
  · exact .modify fun _ => ⟨rfl, by simp⟩
  · exact .bind (.query _) fun _ => .ite .refuse henter

theorem returnValue_unaware (value : Value) : Stays Unaware (returnValue value) :=
  .bind .get fun _ => .bind (setSlot_stays _ _ _) fun _ => .bind (.query _) fun _ =>
    continueIn_unaware _ _

theorem invokeBlock_unaware (block : Value) (args : List Value) :
    Stays Unaware (invokeBlock block args) := by
  refine .bind (.query _) fun _ => .ite (setAccumulator_stays _) ?_
  refine .bind (.query _) fun _ => .ite (setAccumulator_stays _) ?_
  exact .bind (.query _) fun _ => .bind (.query _) fun _ => .bind (.query _) fun _ =>
    activate_unaware _ _ _ _ _

theorem returnInto_unaware (target value : Value) : Stays Unaware (returnInto target value) :=
  .bind (.query _) fun _ => .ite (setAccumulator_stays _) (continueIn_unaware _ _)

theorem nonLocalReturn_unaware (source value : Value) :
    Stays Unaware (nonLocalReturn source value) := by
  intro m u m' heq
  obtain ⟨isContext, -, hgo⟩ := query_bind_eq_ok.mp heq
  rcases ite_eq_ok.mp hgo with ⟨-, hgo⟩ | ⟨-, hgo⟩
  · exact setAccumulator_stays _ _ _ _ hgo
  obtain ⟨home, -, hgo⟩ := query_bind_eq_ok.mp hgo
  obtain ⟨-, hgo⟩ := check_eq_ok hgo
  obtain ⟨pc, -, hgo⟩ := query_bind_eq_ok.mp hgo
  obtain ⟨-, hgo⟩ := check_eq_ok hgo
  obtain ⟨chain, -, hgo⟩ := query_bind_eq_ok.mp hgo
  cases chain with
  | none =>
    obtain ⟨_, _, -, hgo⟩ := bind_eq_ok.mp hgo
    cases fail_eq_ok.mp hgo
  | some contexts =>
    obtain ⟨_, m₁, hunwind, hgo⟩ := bind_eq_ok.mp hgo
    obtain ⟨previous, -, hgo⟩ := query_bind_eq_ok.mp hgo
    exact Undisturbed.trans (unwindAll_stays contexts _ _ _ hunwind)
      (continueIn_unaware _ _ _ _ _ hgo)

theorem runPrimitive_unaware {prim : Primitive} (hlatch : latches prim = false)
    (args : List Value) : Stays Unaware (runPrimitive prim args) := by
  cases hprim : prim.switchesContext with
  | false => exact runPrimitive_undisturbed hprim hlatch args
  | true =>
    have hfirst : ∀ {act : MachineAction Unit}, Stays Unaware act →
        Stays Unaware (act >>= fun _ => pure Value.nil) := fun hact => .bind hact fun _ => .pure _
    unfold runPrimitive
    split
    case h_30 => exact hfirst (invokeBlock_unaware _ _)
    case h_31 => exact hfirst (nonLocalReturn_unaware _ _)
    case h_32 => exact hfirst (returnInto_unaware _ _)
    case h_33 | h_34 | h_35 => exact hfirst (setAccumulator_stays _)
    case h_43 => exact .pure _
    all_goals cases hprim

end Unaware

section Heeding

def ofPrimitive : Primitive → List Signal
  | .disableInterrupts => [.disable]
  | .enableInterrupts => [.enable]
  | _ => []

def ofInstruction (i : Instruction) : List Signal :=
  ((call? i).bind fun call => Primitive.ofIndex? call.1.toNat).elim [] ofPrimitive

theorem runPrimitive_asks {prim : Primitive} {args : List Value} {v : Value}
    (heq : runPrimitive prim args m = .ok v m') :
    m'.interrupts = (m.interrupts.serveAll (ofPrimitive prim)).1 ∧
      (m'.stop = some .preempted → m.stop = some .preempted) := by
  cases hlatch : latches prim with
  | false =>
    obtain ⟨hinterrupts, hpreempted⟩ := runPrimitive_unaware hlatch args _ _ _ heq
    have hnone : ofPrimitive prim = [] := by
      unfold ofPrimitive
      split
      · cases hlatch
      · cases hlatch
      · rfl
    rw [hnone]
    exact ⟨hinterrupts, hpreempted⟩
  | true =>
    cases prim with
    | disableInterrupts | enableInterrupts =>
      obtain ⟨_, m₁, hset, hend⟩ := bind_eq_ok.mp heq
      obtain rfl := modify_eq_ok.mp hset
      obtain ⟨-, rfl⟩ := pure_eq_ok.mp hend
      exact ⟨rfl, id⟩
    | _ => cases hlatch

theorem Calls.ofInstruction_eq {prim : Primitive} {args : List Value}
    (hcalls : m.Calls i prim args) : ofInstruction i = ofPrimitive prim := by
  obtain ⟨index, act, hcall, hprim, -⟩ := hcalls
  simp [ofInstruction, hcall, hprim]

theorem execute_asks (heq : execute i m = .ok () m') :
    m'.interrupts = (m.interrupts.serveAll (ofInstruction i)).1 ∧
      (m'.stop = some .preempted → m.stop = some .preempted) := by
  obtain ⟨m₁, hp⟩ := exists_pause heq
  have hpause := hp.unaware
  -- An instruction that calls nothing asks for nothing.
  have hunaware : call? i = none → Unaware m₁ m' →
      m'.interrupts = (m.interrupts.serveAll (ofInstruction i)).1 ∧
        (m'.stop = some .preempted → m.stop = some .preempted) := by
    intro hnone h
    obtain ⟨hinterrupts, hpreempted⟩ := Undisturbed.trans hpause h
    simpa [ofInstruction, hnone, Interrupts.serveAll] using ⟨hinterrupts, hpreempted⟩
  cases execute_acts hp heq with
  | stays hnone h => exact hunaware hnone (h Unaware)
  | @jumps offset hoffset h =>
    refine hunaware ?_ ?_
    · cases i <;> first | rfl | cases hoffset
    · rcases h with rfl | rfl
      · exact Undisturbed.refl _
      · exact ⟨rfl, id⟩
  | return_ hi hreturn => exact hunaware (hi ▸ rfl) (returnValue_unaware _ _ _ _ hreturn)
  | returnSelf hi _ hreturn => exact hunaware (hi ▸ rfl) (returnValue_unaware _ _ _ _ hreturn)
  | sends hnone _ hdispatch => exact hunaware hnone (dispatch_unaware _ _ _ _ _ _ _ hdispatch)
  | @calls prim args result m₂ hcalls hrun hend =>
    obtain ⟨hinterrupts, hpreempted⟩ := runPrimitive_asks hrun
    rw [hcalls.ofInstruction_eq, ← hpause.interrupts]
    split at hend
    · subst hend
      exact ⟨hinterrupts, fun h => hpause.preempted (hpreempted h)⟩
    · subst hend
      exact ⟨hinterrupts, fun h => hpause.preempted (hpreempted h)⟩

def asked (timer : Timer) (m : Machine) : List Signal :=
  if timer.fires m.clock then [.request, .poll] else [.poll]

def told (m : Machine) : List Signal :=
  match Code.decodeAt m.code m.pc with
  | .ok (i, _) => ofInstruction i
  | .error _ => []

def signals (timer : Timer) : Nat → Machine → List Signal
  | 0, _ => []
  | turns + 1, m =>
    m.asked timer ++
      match step timer m with
      | .ok none m' => m.told ++ signals timer turns m'
      | .ok (some .preempted) _ => []
      | .ok (some _) _ => m.told
      | .error _ _ => []

theorem told_eq {n : Nat} (h : Code.decodeAt m.code m.pc = .ok (i, n)) :
    m.told = ofInstruction i := by
  rw [told, h]

/-- What a turn comes to: a request is taken, or an instruction is executed. -/
theorem step_eq_ok {timer : Timer} {outcome : Option RunOutcome}
    (heq : step timer m = .ok outcome m') :
    ∃ m₁, tick timer m = .ok () m₁ ∧
      (m₁.interrupts.pending = true ∧ outcome = some .preempted ∧
          m'.interrupts = m₁.interrupts.poll.2 ∨
        m₁.interrupts.pending = false ∧ ∃ i next m₂, Code.decodeAt m₁.code m₁.pc = .ok (i, next) ∧
          execute i { m₁ with start := m₁.pc, pc := next } = .ok () m₂ ∧ outcome = m₂.stop ∧
          Unaware { m₂ with stop := none } m') := by
  obtain ⟨_, m₁, htick, heq⟩ := bind_eq_ok.mp heq
  refine ⟨m₁, htick, ?_⟩
  rw [get_bind, ite_eq_ok] at heq
  rcases heq with ⟨hpending, heq⟩ | ⟨hquiet, heq⟩
  · rw [modify_bind] at heq
    obtain ⟨_, m₂, hspill, heq⟩ := bind_eq_ok.mp heq
    obtain ⟨rfl, rfl⟩ := pure_eq_ok.mp heq
    exact .inl ⟨hpending, rfl, (spill_unaware _ _ _ hspill).interrupts⟩
  rw [get_bind] at heq
  cases hdecode : Code.decodeAt m₁.code m₁.pc with
  | error e =>
    rw [hdecode] at heq
    obtain ⟨_, m₂, -, heq⟩ := bind_eq_ok.mp heq
    cases fail_eq_ok.mp heq
  | ok decoded =>
    obtain ⟨i, next⟩ := decoded
    simp only [hdecode] at heq
    rw [modify_bind] at heq
    obtain ⟨_, m₂, hexecute, heq⟩ := bind_eq_ok.mp heq
    rw [get_bind] at heq
    refine .inr ⟨by simpa using hquiet, i, next, m₂, rfl, hexecute, ?_⟩
    cases hstop : m₂.stop with
    | none =>
      rw [hstop] at heq
      obtain ⟨rfl, rfl⟩ := pure_eq_ok.mp heq
      exact ⟨rfl, rfl, by simp [hstop]⟩
    | some reason =>
      simp only [hstop, modify_bind] at heq
      cases reason with
      | returned v =>
        obtain ⟨rfl, rfl⟩ := pure_eq_ok.mp heq
        exact ⟨rfl, Undisturbed.refl _⟩
      | preempted | yielded | suspended =>
        obtain ⟨_, m₃, hspill, heq⟩ := bind_eq_ok.mp heq
        obtain ⟨rfl, rfl⟩ := pure_eq_ok.mp heq
        exact ⟨rfl, spill_unaware _ _ _ hspill⟩

theorem serveAll_asked {timer : Timer} {m₁ : Machine} (htick : tick timer m = .ok () m₁) :
    (m.interrupts.serveAll (m.asked timer)).1 = m₁.interrupts.poll.2 ∧
      (m.interrupts.serveAll (m.asked timer)).2.getLast? = some ⟨.poll, m₁.interrupts.pending⟩ := by
  obtain rfl := modify_eq_ok.mp htick
  by_cases hfires : timer.fires m.clock <;>
    simp [asked, hfires, Interrupts.serveAll, Interrupts.serve, Interrupts.poll]

/-- A turn polls, and is preempted exactly if the poll takes a request. -/
theorem step_asks {timer : Timer} {outcome : Option RunOutcome}
    (hstop : m.stop ≠ some .preempted) (heq : step timer m = .ok outcome m') :
    outcome = some .preempted ∧ m'.interrupts = (m.interrupts.serveAll (m.asked timer)).1 ∧
        (m.interrupts.serveAll (m.asked timer)).2.getLast? = some ⟨.poll, true⟩ ∨
      outcome ≠ some .preempted ∧ m'.stop ≠ some .preempted ∧
        m'.interrupts = (m.interrupts.serveAll (m.asked timer ++ m.told)).1 ∧
        (m.interrupts.serveAll (m.asked timer)).2.getLast? = some ⟨.poll, false⟩ := by
  obtain ⟨m₁, htick, ⟨hpending, rfl, hpolled⟩ |
    ⟨hquiet, i, next, m₂, hdecode, hexecute, rfl, hleft⟩⟩ := step_eq_ok heq
  · obtain ⟨hasked, hlast⟩ := serveAll_asked htick
    exact .inl ⟨rfl, hpolled.trans hasked.symm, hpending ▸ hlast⟩
  · obtain ⟨hasked, hlast⟩ := serveAll_asked htick
    obtain ⟨hserved, hpreempted⟩ := execute_asks hexecute
    have htold : m.told = ofInstruction i := by
      obtain rfl := modify_eq_ok.mp htick
      refine told_eq (n := next) ?_
      split at hdecode <;> exact hdecode
    have hstop₁ : m₁.stop ≠ some .preempted := stop_tick htick ▸ hstop
    -- A poll that finds no request leaves everything as it is.
    have hidle : m₁.interrupts.poll.2 = m₁.interrupts := by
      simp [Interrupts.poll, ← hquiet]
    refine .inr ⟨fun h => hstop₁ (hpreempted h), fun h => ?_, ?_, hquiet ▸ hlast⟩
    · cases hleft.preempted h
    · rw [hleft.interrupts, Interrupts.serveAll_append, hasked, hidle, htold]
      exact hserved

theorem ofInstruction_eq {s : Signal} (hmem : s ∈ ofInstruction i) :
    ofInstruction i = [s] ∧ (s = .disable ∨ s = .enable) := by
  have hprim : ∀ {prim}, s ∈ ofPrimitive prim →
      ofPrimitive prim = [s] ∧ (s = .disable ∨ s = .enable) := by
    intro prim hmem
    cases prim with
    | disableInterrupts =>
      obtain rfl := List.mem_singleton.mp hmem
      exact ⟨rfl, .inl rfl⟩
    | enableInterrupts =>
      obtain rfl := List.mem_singleton.mp hmem
      exact ⟨rfl, .inr rfl⟩
    | _ => cases hmem
  rw [ofInstruction] at hmem ⊢
  cases h : (call? i).bind fun call => Primitive.ofIndex? call.1.toNat with
  | none => simp [h] at hmem
  | some prim =>
    rw [h] at hmem
    exact hprim hmem

theorem exists_of_mem_told {s : Signal} (hmem : s ∈ m.told) :
    ∃ i next, Code.decodeAt m.code m.pc = .ok (i, next) ∧ s ∈ ofInstruction i := by
  rw [told] at hmem
  split at hmem
  · rename_i i next hdecode
    exact ⟨i, next, hdecode, hmem⟩
  · cases hmem

def Executes (timer : Timer) (turns : Nat) (m : Machine) (i : Instruction) : Prop :=
  ∃ k < turns, ∃ m₁ next outcome m₂, run timer k m = .ok none m₁ ∧
    Code.decodeAt m₁.code m₁.pc = .ok (i, next) ∧ step timer m₁ = .ok outcome m₂ ∧
    outcome ≠ some .preempted

theorem mem_signals {timer : Timer} {turns : Nat} {s : Signal}
    (hmem : s ∈ m.signals timer turns) :
    s = .request ∨ s = .poll ∨ ∃ i, m.Executes timer turns i ∧ s ∈ ofInstruction i := by
  induction turns generalizing m with
  | zero => cases hmem
  | succ turns ih =>
    have htold : ∀ {outcome m'}, step timer m = .ok outcome m' → outcome ≠ some .preempted →
        s ∈ m.told → ∃ i, m.Executes timer (turns + 1) i ∧ s ∈ ofInstruction i := by
      intro outcome m' hstep hne hmem
      obtain ⟨i, next, hdecode, hmem⟩ := exists_of_mem_told hmem
      exact ⟨i, ⟨0, Nat.succ_pos _, m, next, outcome, m', rfl, hdecode, hstep, hne⟩, hmem⟩
    rw [signals] at hmem
    rcases List.mem_append.mp hmem with hmem | hmem
    · rw [asked] at hmem
      split at hmem
      · rcases List.mem_cons.mp hmem with rfl | hmem
        · exact .inl rfl
        · exact .inr (.inl (List.mem_singleton.mp hmem))
      · exact .inr (.inl (List.mem_singleton.mp hmem))
    · split at hmem
      · rename_i m₁ hstep
        rcases List.mem_append.mp hmem with hmem | hmem
        · exact .inr (.inr (htold hstep (by simp) hmem))
        · refine (ih hmem).imp_right (.imp_right ?_)
          rintro ⟨i, ⟨k, hk, m₂, next, outcome, m₃, hrun, hrest⟩, hmem⟩
          refine ⟨i, ⟨k + 1, Nat.succ_lt_succ hk, m₂, next, outcome, m₃, ?_, hrest⟩, hmem⟩
          rw [run, bind_of_eq_ok hstep]
          exact hrun
      · cases hmem
      · rename_i hne hstep
        exact .inr (.inr (htold hstep (fun h => hne (Option.some.inj h)) hmem))
      · cases hmem

/-- A turn that is not preempted ends with no request taken. -/
theorem getLast?_told_ne {timer : Timer}
    (hlast : (m.interrupts.serveAll (m.asked timer)).2.getLast? = some ⟨.poll, false⟩) :
    (m.interrupts.serveAll (m.asked timer ++ m.told)).2.getLast? ≠ some ⟨.poll, true⟩ := by
  rw [Interrupts.serveAll_append, List.getLast?_append, hlast]
  intro h
  cases htold : ((m.interrupts.serveAll (m.asked timer)).1.serveAll m.told).2.getLast? with
  | none => simp [htold] at h
  | some e =>
    obtain rfl : e = ⟨.poll, true⟩ := by simpa [htold] using h
    obtain ⟨i, -, -, hmem⟩ :=
      exists_of_mem_told (Interrupts.signal_mem (List.mem_of_getLast? htold))
    rcases (ofInstruction_eq hmem).2 with h | h <;> cases h

/-- A run serves its signals, and is preempted exactly if the last of them takes a request. -/
theorem run_asks {timer : Timer} {turns : Nat} {outcome : Option RunOutcome}
    (hstop : m.stop ≠ some .preempted) (heq : run timer turns m = .ok outcome m') :
    m'.interrupts = (m.interrupts.serveAll (m.signals timer turns)).1 ∧
      (outcome = some .preempted ↔
        (m.interrupts.serveAll (m.signals timer turns)).2.getLast? = some ⟨.poll, true⟩) := by
  induction turns generalizing m with
  | zero =>
    obtain ⟨rfl, rfl⟩ := pure_eq_ok.mp heq
    exact ⟨rfl, by simp [signals, Interrupts.serveAll]⟩
  | succ turns ih =>
    obtain ⟨first, m₁, hstep, hrest⟩ := bind_eq_ok.mp heq
    rw [signals, hstep]
    rcases step_asks hstop hstep with ⟨rfl, hserved, hlast⟩ | ⟨hne, hstop₁, hserved, hlast⟩
    · obtain ⟨rfl, rfl⟩ := pure_eq_ok.mp hrest
      simpa using ⟨hserved, hlast⟩
    · have hquiet := getLast?_told_ne hlast
      cases first with
      | none =>
        obtain ⟨hinterrupts, houtcome⟩ := ih hstop₁ hrest
        dsimp only
        rw [← List.append_assoc, Interrupts.serveAll_append, ← hserved, List.getLast?_append]
        refine ⟨hinterrupts, houtcome.trans ?_⟩
        cases hend : (m₁.interrupts.serveAll (m₁.signals timer turns)).2.getLast? with
        | none => simpa using hquiet
        | some e => simp
      | some reason =>
        obtain ⟨rfl, rfl⟩ := pure_eq_ok.mp hrest
        cases reason with
        | preempted => exact absurd rfl hne
        | returned | yielded | suspended => exact ⟨hserved, by simpa using hquiet⟩

end Heeding

/-- Whatever is asked for and in whatever order, a request waits until a poll takes it or a reset
drops it, and a poll takes it exactly if interrupts are then enabled. What a run asks for continues
what was asked for before. The run is preempted exactly if its last poll takes a request, so one
that begins with interrupts disabled has then executed an instruction that enables them. -/
theorem requests_wait_until_enabled :
    (∀ signals : List Signal,
      (Interrupts.serveAll {} signals).2.map (·.signal) = signals ∧
      Reflects (Interrupts.serveAll {} signals).1 (Interrupts.serveAll {} signals).2 ∧
      ∀ before e after, (Interrupts.serveAll {} signals).2 = before ++ e :: after →
        (e.taken = true ↔ e.signal = .poll ∧ Enabled before ∧ Awaited before)) ∧
    ∀ (past : List Signal) (timer : Timer) (turns : Nat) (m m' : Machine)
      (outcome : Option RunOutcome), m.interrupts = (Interrupts.serveAll {} past).1 →
      m.stop ≠ some .preempted → run timer turns m = .ok outcome m' →
      m'.interrupts = (Interrupts.serveAll {} (past ++ m.signals timer turns)).1 ∧
      (outcome = some .preempted ↔ ∃ before,
        (m.interrupts.serveAll (m.signals timer turns)).2 = before ++ [⟨.poll, true⟩] ∧
        Enabled ((Interrupts.serveAll {} past).2 ++ before) ∧
        Awaited ((Interrupts.serveAll {} past).2 ++ before)) ∧
      (outcome = some .preempted → ¬Enabled (Interrupts.serveAll {} past).2 →
        ∃ i, m.Executes timer turns i ∧ ofInstruction i = [.enable]) := by
  have hreflects : ∀ signals,
      Reflects (Interrupts.serveAll {} signals).1 (Interrupts.serveAll {} signals).2 :=
    fun signals => by simpa using Interrupts.reflects_nil.serveAll signals
  refine ⟨fun signals => ⟨Interrupts.map_signal_serveAll _ _, hreflects signals,
    fun before e after hsplit => ?_⟩, ?_⟩
  · simpa using Interrupts.reflects_nil.taken_iff hsplit
  intro past timer turns m m' outcome hinterrupts hstop heq
  obtain ⟨hserved, houtcome⟩ := run_asks hstop heq
  have hsplit : outcome = some .preempted ↔ ∃ before,
      (m.interrupts.serveAll (m.signals timer turns)).2 = before ++ [⟨.poll, true⟩] ∧
      Enabled ((Interrupts.serveAll {} past).2 ++ before) ∧
      Awaited ((Interrupts.serveAll {} past).2 ++ before) := by
    rw [houtcome, List.getLast?_eq_some_iff]
    refine exists_congr fun before => ⟨fun hlog => ⟨hlog, ?_⟩, fun hlog => hlog.1⟩
    rw [hinterrupts] at hlog
    exact (((hreflects past).taken_iff hlog).mp rfl).2
  refine ⟨?_, hsplit, fun hpreempted hdisabled => ?_⟩
  · rw [Interrupts.serveAll_append, ← hinterrupts]
    exact hserved
  · obtain ⟨before, hlog, henabled, -⟩ := hsplit.mp hpreempted
    obtain ⟨e, hmem, hfrees⟩ := Interrupts.exists_frees hdisabled henabled
    have hsignal : e.signal ∈ m.signals timer turns :=
      Interrupts.signal_mem (hlog ▸ List.mem_append_left _ hmem)
    rcases mem_signals hsignal with h | h | ⟨i, hexecutes, hasks⟩
    · rcases hfrees with hfrees | hfrees <;> cases h.symm.trans hfrees
    · rcases hfrees with hfrees | hfrees <;> cases h.symm.trans hfrees
    · obtain ⟨honly, hkind⟩ := ofInstruction_eq hasks
      rcases hfrees with hfrees | hfrees
      · exact ⟨i, hexecutes, hfrees ▸ honly⟩
      · rcases hkind with h | h <;> cases h.symm.trans hfrees

/-- A context and a process, and interrupts that were disabled. The code enables them. -/
def maskedMachine : Machine :=
  let objects : ImageAction Value := do
    let context ← Image.onHeap (Heap.allocatePointers .nil 9)
    let _ ← Image.onHeap (Heap.allocatePointers .nil 6)
    return context
  { poised blankImage objects [.loadTrue, .primitive0 38, .loadFalse] 0 with
    process := .ofAddress ⟨.pointers, 13⟩
    interrupts := (Interrupts.serveAll {} [.disable]).1 }

/-- A timer that fires all the time has to wait for the third turn. -/
theorem masked_until_enabled : ∃ m' i,
    run ⟨fun _ => true⟩ 9 maskedMachine = .ok (some .preempted) m' ∧
    maskedMachine.Executes ⟨fun _ => true⟩ 9 i ∧ ofInstruction i = [.enable] := by
  have hanswer : Action.answer? (run ⟨fun _ => true⟩ 9 maskedMachine) =
      some (some .preempted) := by decide +kernel
  obtain ⟨outcome, m', heq, houtcome⟩ := Action.exists_eq_ok (by rw [hanswer]; rfl)
  obtain rfl := Option.some.inj (houtcome.symm.trans hanswer)
  have hdisabled : ¬Enabled (Interrupts.serveAll {} [.disable]).2 := fun h => by
    obtain ⟨e, hmem, -⟩ := h [] ⟨.disable, false⟩ [] rfl rfl
    cases hmem
  obtain ⟨-, -, henables⟩ :=
    requests_wait_until_enabled.2 [.disable] ⟨fun _ => true⟩ 9 maskedMachine
    m' (some .preempted) rfl (by decide +kernel) heq
  obtain ⟨i, hexecutes, henabling⟩ := henables rfl hdisabled
  exact ⟨m', i, heq, hexecutes, henabling⟩

end Machine

end ObjectMachine
