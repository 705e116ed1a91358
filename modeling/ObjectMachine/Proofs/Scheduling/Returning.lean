import ObjectMachine.Proofs.Machine.Entering
import ObjectMachine.Proofs.Scheduling.History

namespace ObjectMachine

namespace Machine

variable {m m' m₁ : Machine} {i : Instruction} {v : Value}

inductive Resumes (m : Machine) : Instruction → Value → Prop where
  | return_ {v : Value} : m.image.heap.slot m.context Slot.Context.previous = .ok v →
    m.Resumes .return_ v
  | returnSelf {v : Value} : m.image.heap.slot m.context Slot.Context.previous = .ok v →
    m.Resumes .returnSelf v
  | into {i : Instruction} {v value : Value} : m.Calls i .returnInto [v, value] →
    isInstance v .context m = .ok true m → m.Resumes i v
  | home {i : Instruction} {source value v : Value} : m.Calls i .blockReturn [source, value] →
    isInstance source .context m = .ok true m →
    m.image.heap.slot source Slot.Context.home = .ok v → m.Resumes i v
  /-- The caller of the home of a block, when all that is in between has been unwound. -/
  | caller {i : Instruction} {source value home v : Value} {contexts : List Value} {m' : Machine} :
    m.Calls i .blockReturn [source, value] → isInstance source .context m = .ok true m →
    m.image.heap.slot source Slot.Context.home = .ok home →
    chainTo m.image.heap home (m.image.heap.chainBound + 1) [] m.context = .ok (some contexts) →
    unwindAll contexts m = .ok () m' →
    m'.image.heap.slot home Slot.Context.previous = .ok v → m.Resumes i v

def Barred {α : Type} : EStateM.Result (Stop RuntimeError) Machine α → Prop
  | .error (.failure (.deadContext _)) _ => True
  | .error (.fault _) _ => True
  | _ => False

namespace Barred

variable {α β : Type} {next : α → MachineAction β}

theorem bind {act : MachineAction α} (hact : act.Unfailing)
    (hnext : ∀ a m', act m = .ok a m' → Barred (next a m')) : Barred ((act >>= next) m) := by
  cases heq : act m with
  | ok a m' =>
    rw [bind_of_eq_ok heq]
    exact hnext a m' heq
  | error e m' =>
    rw [bind_of_eq_error heq]
    cases e with
    | failure cause => exact absurd heq (hact m cause m')
    | fault f => trivial

theorem query {f : Machine → Except Fault α} (hnext : ∀ a, f m = .ok a → Barred (next a m)) :
    Barred ((Action.query f >>= next) m) := by
  refine bind (.query f) fun a m' heq => ?_
  obtain ⟨hread, rfl⟩ := query_eq_ok heq
  exact hnext a hread

theorem before {act : MachineAction α} (hact : Barred (act m)) : Barred ((act >>= next) m) := by
  cases heq : act m with
  | ok a m' =>
    rw [heq] at hact
    exact hact.elim
  | error e m' =>
    rw [heq] at hact
    rw [bind_of_eq_error heq]
    match e with
    | .failure (.deadContext _) => trivial
    | .fault _ => trivial

theorem check {c : Prop} [Decidable c] {rest : PUnit → MachineAction PUnit} (hc : c) :
    Barred ((if c then do
        let frames ← trace
        let u ← Action.fail (.deadContext frames)
        rest u
      else rest ⟨⟩) m) := by
  rw [if_pos hc]
  exact query fun frames _ => trivial

/-- What comes after a check that may bar the way. -/
theorem after_check {c : Prop} [Decidable c] {rest : PUnit → MachineAction PUnit}
    (hrest : Barred (rest ⟨⟩ m)) :
    Barred ((if c then do
        let frames ← trace
        let u ← Action.fail (.deadContext frames)
        rest u
      else rest ⟨⟩) m) := by
  by_cases hc : c
  · exact check hc
  · rwa [if_neg hc]

end Barred

theorem continueIn_barred {value : Value} (hdead : m.image.heap.Holds ⟨v, Slot.Context.pc⟩ .nil) :
    Barred (continueIn v value m) := by
  obtain ⟨loc, hloc, -, -⟩ := hdead.refers
  have hsome : ¬v.isNil := by
    intro hnil
    obtain rfl : v = .nil := congrArg Value.mk (beq_iff_eq.mp hnil)
    cases hloc
  rw [continueIn, setAccumulator, modify_bind, if_neg hsome]
  refine Barred.query fun pc hpc => ?_
  obtain rfl := Except.ok.inj (hdead.slot.symm.trans hpc)
  exact Barred.check rfl

theorem returnValue_barred {value : Value} (hm : Intact m)
    (hcaller : m.image.heap.slot m.context Slot.Context.previous = .ok v)
    (hdead : m.image.heap.Holds ⟨v, Slot.Context.pc⟩ .nil) :
    Barred (returnValue value m) := by
  have hcontext : Sane m m.context := hm.held m.context (by simp)
  rw [returnValue, get_bind]
  refine Barred.bind (setSlot_unfailing _ _ _) fun _ m' hend => Barred.query fun caller hread => ?_
  obtain ⟨heap, hset, rfl⟩ := setSlot_eq_ok hend
  have hrewrites := Heap.Whole.rewrites hm.whole hcontext (Arenas.sane_nil _) hset
  have hkept : heap.Holds ⟨m.context, Slot.Context.previous⟩ v :=
    hrewrites.others (by simp) ⟨hcontext, hcaller⟩
  obtain rfl := Except.ok.inj (hkept.slot.symm.trans hread)
  refine continueIn_barred ?_
  -- The context that returns may be the one that it was called from.
  by_cases hsame : (⟨v, Slot.Context.pc⟩ : Cell) = ⟨m.context, Slot.Context.pc⟩
  · exact hsame ▸ hrewrites.written
  · exact hrewrites.others hsame hdead

theorem returnInto_barred {value : Value} (hcontext : isInstance v .context m = .ok true m)
    (hdead : m.image.heap.Holds ⟨v, Slot.Context.pc⟩ .nil) : Barred (returnInto v value m) := by
  rw [returnInto, bind_of_eq_ok hcontext]
  exact continueIn_barred hdead

theorem nonLocalReturn_barred_of_home {source value : Value}
    (hsource : isInstance source .context m = .ok true m)
    (hhome : m.image.heap.slot source Slot.Context.home = .ok v)
    (hdead : m.image.heap.Holds ⟨v, Slot.Context.pc⟩ .nil) :
    Barred (nonLocalReturn source value m) := by
  rw [nonLocalReturn, bind_of_eq_ok hsource]
  refine Barred.query fun home hread => Barred.after_check (Barred.query fun pc hpc => ?_)
  obtain rfl := Except.ok.inj (hhome.symm.trans hread)
  obtain rfl := Except.ok.inj (hdead.slot.symm.trans hpc)
  exact Barred.check rfl

theorem nonLocalReturn_barred_of_caller {source value home : Value} {contexts : List Value}
    (hm : Intact m) (hsource : isInstance source .context m = .ok true m)
    (hhome : m.image.heap.slot source Slot.Context.home = .ok home)
    (hchain : chainTo m.image.heap home (m.image.heap.chainBound + 1) [] m.context =
      .ok (some contexts)) (hunwind : unwindAll contexts m = .ok () m')
    (hcaller : m'.image.heap.slot home Slot.Context.previous = .ok v)
    (hdead : m.image.heap.Holds ⟨v, Slot.Context.pc⟩ .nil)
    (hstores : ¬Unwinds ⟨v, Slot.Context.pc⟩ contexts m) :
    Barred (nonLocalReturn source value m) := by
  rw [nonLocalReturn, bind_of_eq_ok hsource]
  refine Barred.query fun home' hread => Barred.after_check (Barred.query fun pc _ => ?_)
  obtain rfl := Except.ok.inj (hhome.symm.trans hread)
  refine Barred.after_check (Barred.query fun chain hread => ?_)
  obtain rfl := Except.ok.inj (hchain.symm.trans hread)
  simp only
  rw [bind_of_eq_ok hunwind]
  refine Barred.query fun caller hread => ?_
  obtain rfl := Except.ok.inj (hcaller.symm.trans hread)
  refine continueIn_barred ?_
  -- Unwinding ends contexts, and starts none.
  let W : Licence := fun c x => x = .nil ∨ Unwinds c contexts m
  have hcontexts : ∀ u ∈ contexts, Sane m u := by
    intro u hu
    exact yields_chainTo hm.whole home (m.image.heap.chainBound + 1) (by simp)
      (hm.held m.context (by simp)) _ hchain u (by simpa using hu)
  have hleaves : Leaves (Within W (fun _ => False) m.image.known (fun _ => True) m.process
      m.image.heap) m (unwindAll contexts m) :=
    unwindAll_leaves contexts ⟨hm.grown, trivial, rfl, rfl⟩ hcontexts (fun _ _ _ => .inl rfl)
      fun c x _ hc => .inr hc
  exact (hleaves.ok hunwind).evolves.holds hdead fun x hx => hx.resolve_right hstores

theorem execute_of_call {index : UInt8} {act : MachineAction (List Value)}
    (hcall : call? i = some (index, act)) : execute i m = Machine.callPrimitive index act m := by
  unfold call? at hcall
  split at hcall <;> cases hcall <;> rfl

theorem pauses_of_call {index : UInt8} {act : MachineAction (List Value)}
    (hcall : call? i = some (index, act)) (hprim : (Primitive.ofIndex? index.toNat).isSome) :
    m.Pauses i := by
  have hcall' := hcall
  unfold call? at hcall'
  split at hcall' <;> cases hcall' <;> exact ⟨_, _, hcall, hprim⟩

theorem Pause.execute_call {prim : Primitive} {args : List Value} (hp : m.Pause i m₁)
    (hcalls : m₁.Calls i prim args) :
    execute i m = (runPrimitive prim args >>= fun result =>
      if !prim.switchesContext then setAccumulator result else pure ()) m₁ := by
  obtain ⟨index, act, hcall, hprim, hargs⟩ := hcalls
  rcases hp with ⟨-, hsafe⟩ | ⟨hn, -⟩
  · rw [execute_of_call hcall, Machine.callPrimitive, hprim]
    simp only
    rw [bind_of_eq_ok hsafe, bind_of_eq_ok hargs]
  · exact absurd (pauses_of_call hcall (by rw [hprim]; rfl)) hn

theorem execute_barred (hm : Intact m₁) (hp : m.Pause i m₁) (hresumes : m₁.Resumes i v)
    (hdead : m₁.image.heap.Holds ⟨v, Slot.Context.pc⟩ .nil)
    (hstores : ¬m₁.Stores i ⟨v, Slot.Context.pc⟩) : Barred (execute i m) := by
  cases hresumes with
  | return_ hcaller =>
    obtain rfl := hp.of_not_pauses (by simp [Pauses, call?])
    exact returnValue_barred hm hcaller hdead
  | returnSelf hcaller =>
    obtain rfl := hp.of_not_pauses (by simp [Pauses, call?])
    exact Barred.query fun value _ => returnValue_barred hm hcaller hdead
  | into hcalls hcontext =>
    rw [hp.execute_call hcalls]
    exact .before (.before (returnInto_barred hcontext hdead))
  | home hcalls hsource hhome =>
    rw [hp.execute_call hcalls]
    exact .before (.before (nonLocalReturn_barred_of_home hsource hhome hdead))
  | @caller _ _ _ _ _ contexts _ hcalls hsource hhome hchain hunwind hcaller =>
    rw [hp.execute_call hcalls]
    refine .before (.before (nonLocalReturn_barred_of_caller hm hsource hhome hchain hunwind hcaller
      hdead fun hunwinds => hstores (.primitive hcalls ?_)))
    exact ⟨contexts, ⟨_, hhome, hchain⟩, hunwinds⟩

theorem loadFrame_pc {u : Unit} (heq : loadFrame m = .ok u m') :
    ∃ x, m'.image.heap.slot m'.context Slot.Context.pc = .ok x ∧ m'.pc = x.toNat?.getD 0 := by
  rw [loadFrame, get_bind] at heq
  obtain ⟨method, -, heq⟩ := query_bind_eq_ok.mp heq
  obtain ⟨literals, -, heq⟩ := query_bind_eq_ok.mp heq
  obtain ⟨x, hx, heq⟩ := query_bind_eq_ok.mp heq
  obtain ⟨bytecode, -, heq⟩ := query_bind_eq_ok.mp heq
  obtain ⟨code, m₂, hfetch, heq⟩ := bind_eq_ok.mp heq
  obtain ⟨cache, epoch, rfl⟩ := fetchCode_eq_ok hfetch
  obtain rfl := modify_eq_ok.mp heq
  exact ⟨x, hx, rfl⟩

theorem unspill_pc {u : Unit} (heq : unspill m = .ok u m') :
    ∃ x, m'.image.heap.slot m'.context Slot.Context.pc = .ok x ∧ m'.pc = x.toNat?.getD 0 := by
  rw [unspill, get_bind] at heq
  obtain ⟨context, -, heq⟩ := query_bind_eq_ok.mp heq
  obtain ⟨accumulator, -, heq⟩ := query_bind_eq_ok.mp heq
  rw [modify_bind] at heq
  exact loadFrame_pc heq

end Machine

def Deed.Stores : Deed → Cell → Prop
  | .outside stores => stores
  | .execute i m => m.Stores i
  | _ => fun _ => False

namespace Stage

def Returned (s : Stage) (v : Value) : Prop := s.heap.Holds ⟨v, Slot.Context.pc⟩ .nil

def Runs : Stage → Value → Prop
  | .running m, v => m.context = v
  | _, _ => False

def RunsFor : Stage → Value → Prop
  | .running m, p => m.process = p
  | _, _ => False

def FailsDead : Stage → Instruction → Stage → Prop
  | .running m, i, s' => ∃ m₀ m' frames, m.Fetches i m₀ ∧
    Machine.execute i m₀ = .error (.failure (.deadContext frames)) m' ∧ s' = .failed m'.toWorld
  | _, _, _ => False

/-- The machine is about to run a context from its first instruction on. -/
def Restarts : Stage → Value → Prop
  | .running m, v => m.context = v ∧ m.pc = 0
  | _, _ => False

def TakesUp : Stage → Deed → Value → Prop
  | .idle w, .dispatch, v =>
    w.image.heap.slot w.schedule.runnable.head Slot.Process.context = .ok v
  | _, _, _ => False

variable {s s' : Stage} {d : Deed} {t : Track} {v v' : Value}

theorem Step.carried {m m₁ : Machine} {i : Instruction} (hs : (running m).Sound)
    (hstep : (running m).Step (.execute i m₁) t s') : ∃ m₀, m.Fetches i m₀ ∧ m₀.Carried t m₁ := by
  cases hstep with
  | execute _ hf hp _ => exact ⟨_, hf, carried_of_fetches hs.1 hs.2 hf hp⟩
  | fail _ hf hp _ => exact ⟨_, hf, carried_of_fetches hs.1 hs.2 hf hp⟩

theorem Step.context_moved {m m₁ : Machine} {i : Instruction} (hs : (running m).Sound)
    (hstep : (running m).Step (.execute i m₁) t s') : t m.context m₁.context := by
  obtain ⟨m₀, hf, hcarried⟩ := hstep.carried hs
  obtain ⟨_, _, _, _, rfl⟩ := hf.eq
  exact hcarried.context

theorem Step.process_moved {m m₁ : Machine} {i : Instruction} (hs : (running m).Sound)
    (hstep : (running m).Step (.execute i m₁) t s') : t m.process m₁.process := by
  obtain ⟨m₀, hf, hcarried⟩ := hstep.carried hs
  obtain ⟨_, _, _, _, rfl⟩ := hf.eq
  rw [hs.2, hcarried.process]
  exact hcarried.schedule.current

/-- The registers are not written back to a context that is neither running nor taken for a
process. -/
theorem Step.spared {m m₁ : Machine} {i : Instruction} {z : Value} (hs : (running m).Sound)
    (hstep : (running m).Step (.execute i m₁) t s') (hv : t v v')
    (hsane : (running m).heap.arenas.Sane v) (hidle : ¬(running m).Runs v)
    (hprocess : ¬(running m).RunsFor v) : ¬m₁.Spilled ⟨v', Slot.Context.pc⟩ z := by
  have hfollows := (hstep.sound_follows hs).2
  have hcontext := hstep.context_moved hs
  have hmoved := hstep.process_moved hs
  intro hspilled
  generalize hcell : (⟨v', Slot.Context.pc⟩ : Cell) = c at hspilled
  cases hspilled with
  | position =>
    have hsame : v' = m₁.context := congrArg Cell.object hcell
    exact hidle (hfollows.injective (hs.1.held m.context (by simp)) hsane (hsame ▸ hcontext) hv)
  | context =>
    have hsame : v' = m₁.process := congrArg Cell.object hcell
    exact hprocess (hfollows.injective (hs.1.held m.process (by simp)) hsane (hsame ▸ hmoved) hv)
  | accumulator => simp at hcell

/-- Nothing but nil is written to the position of a context that is not running, unless the program
does so or the context is taken for a process. -/
theorem Step.eq_nil_of_writes (hs : s.Sound) (hstep : s.Step d t s') (hv : t v v')
    (hsane : s.heap.arenas.Sane v) (hidle : ¬s.Runs v) (hstores : ¬d.Stores ⟨v', Slot.Context.pc⟩)
    (hprocess : ¬s.RunsFor v) {z : Value} (hz : s.Writes d ⟨v', Slot.Context.pc⟩ z) :
    z = .nil := by
  generalize hcell : (⟨v', Slot.Context.pc⟩ : Cell) = c at hz
  cases hz with
  | outside h => exact absurd (hcell ▸ h) hstores
  | spawn | dispatch | abort => simp at hcell
  | @pause m m₁ i c x h =>
    exact absurd (hcell ▸ h) (hstep.spared hs hv hsane hidle hprocess)
  | @instruction m m₁ i c x h =>
    cases h with
    | position =>
      have hspilled : m₁.Spilled ⟨v', Slot.Context.pc⟩ (.ofNat m₁.pc) := hcell ▸ .position
      exact absurd hspilled (hstep.spared hs hv hsane hidle hprocess)
    | ended _ => rfl
    | @register r x _ =>
      have : Slot.Context.pc = Slot.Context.registers + r.toNat := congrArg Cell.index hcell
      simp only [Slot.Context.pc, Slot.Context.registers] at this
      omega
    | stored h => exact absurd (hcell ▸ h) hstores
    | link | state => simp at hcell
  | @spill m outcome c x h =>
    cases hstep
    obtain rfl := hv
    cases h with
    | position => exact absurd (congrArg Cell.object hcell).symm hidle
    | context => exact absurd (congrArg Cell.object hcell).symm hprocess
    | accumulator => simp at hcell
  | @settle m outcome c x h =>
    cases hstep
    obtain rfl := hv
    cases h with
    | own _ => exact absurd (hs.2.trans (congrArg Cell.object hcell).symm) hprocess
    | runnable | waiting => simp at hcell

/-- A context that has returned and is not running stays so. It runs after a step exactly if a
process is taken up that stopped in it. -/
theorem Step.returned (hs : s.Sound) (hstep : s.Step d t s') (hv : t v v') (hdead : s.Returned v)
    (hidle : ¬s.Runs v) (hstores : ¬d.Stores ⟨v', Slot.Context.pc⟩) (hprocess : ¬s.RunsFor v) :
    s'.Returned v' ∧ (s'.Runs v' ↔ s.TakesUp d v) := by
  obtain ⟨hs', hfollows⟩ := hstep.sound_follows hs
  have hdead' : s'.Returned v' := by
    obtain ⟨z, hz, hnil | hwritten⟩ := hfollows.holds hv hdead
    · rwa [hfollows.eq_of_plain rfl hnil] at hz
    · rwa [hstep.eq_nil_of_writes hs hv hdead.sane hidle hstores hprocess hwritten] at hz
  refine ⟨hdead', ?_⟩
  cases hstep with
  | outside | interrupts | collect | spawn | fail | reject | leave | abort => exact .rfl
  | @dispatch w w₁ p m hdequeue hunspill =>
    obtain rfl := hv
    obtain ⟨context, _, _, _, _, _, _, _, hcontext, -, -, -, rfl⟩ :=
      Machine.unspill_eq_ok hunspill
    -- Taking the process off the queue does not change where it stopped.
    have hsaved :
        w.image.heap.slot w.schedule.runnable.head Slot.Process.context = .ok context := by
      obtain ⟨rfl, hrewrites⟩ := World.dequeue_rewrites hs hdequeue
      have hafter : w₁.image.heap.Holds ⟨w.schedule.runnable.head, Slot.Process.context⟩ context :=
        ⟨hrewrites.written.sane, hcontext⟩
      obtain ⟨x, hx⟩ := hrewrites.cells hafter
      have hkept := hrewrites.others (by simp) hx
      rw [hx.slot, hkept.unique hafter]
    change context = v ↔ w.image.heap.slot w.schedule.runnable.head Slot.Process.context = .ok v
    rw [hsaved]
    exact ⟨congrArg Except.ok, Except.ok.inj⟩
  | @execute m m₀ m₁ m' i t hstop hf hp heq =>
    refine iff_of_false (fun hruns => ?_) id
    obtain ⟨hm, hcurrent⟩ := hs
    have hcarried := carried_of_fetches hm hcurrent hf hp
    have hstop₀ : m₀.stop = none := by
      obtain ⟨_, _, _, _, rfl⟩ := hf.eq
      exact hstop
    have hm₁ := (hp.pause.leaves (hf.intact hm) hstop₀ (by simp [heq])).1
    have hsane : Sane m₁ v' := by
      obtain ⟨_, _, _, _, rfl⟩ := hf.eq
      exact hcarried.follows.sane hdead.sane hv
    change m'.context = v' at hruns
    rcases Machine.execute_proceeds hm₁ hp.pause heq with hsame | hfresh | hlive
    · -- The context it was in is none that has returned.
      have hcontext := Step.context_moved ⟨hm, hcurrent⟩ (.execute hstop hf hp heq)
      rw [← hsame, hruns] at hcontext
      exact hidle (hfollows.injective (hm.held m.context (by simp)) hdead.sane hcontext hv)
    · exact hfresh (hruns ▸ hsane)
    · exact hlive (hruns ▸ hdead')

theorem Step.returned_paused {m m₁ : Machine} {i : Instruction} (hs : (running m).Sound)
    (hstep : (running m).Step (.execute i m₁) t s') (hv : t v v') (hdead : (running m).Returned v)
    (hidle : ¬(running m).Runs v) (hprocess : ¬(running m).RunsFor v) :
    m₁.image.heap.Holds ⟨v', Slot.Context.pc⟩ .nil := by
  obtain ⟨m₀, hf, hcarried⟩ := hstep.carried hs
  have hdead₀ : m₀.image.heap.Holds ⟨v, Slot.Context.pc⟩ .nil := by
    obtain ⟨_, _, _, _, rfl⟩ := hf.eq
    exact hdead
  obtain ⟨z, hz, hnil | hwritten⟩ := hcarried.follows.holds hv hdead₀
  · rwa [hcarried.follows.eq_of_plain rfl hnil] at hz
  · exact absurd hwritten (hstep.spared hs hv hdead.sane hidle hprocess)

theorem Step.failsDead {m₁ : Machine} {i : Instruction} (hs : s.Sound)
    (hstep : s.Step (.execute i m₁) t s') (hv : t v v') (hdead : s.Returned v)
    (hidle : ¬s.Runs v) (hstores : ¬m₁.Stores i ⟨v', Slot.Context.pc⟩) (hprocess : ¬s.RunsFor v)
    (hresumes : m₁.Resumes i v') : s.FailsDead i s' := by
  have hbarred : ∀ {m m₀}, s = .running m → m.stop = none → m.Fetches i m₀ → m₀.Pause i m₁ →
      (∀ f m', Machine.execute i m₀ ≠ .error (.fault f) m') →
      Machine.Barred (Machine.execute i m₀) := by
    rintro m m₀ rfl hstop hf hp hfault
    have hstop₀ : m₀.stop = none := by
      obtain ⟨_, _, _, _, rfl⟩ := hf.eq
      exact hstop
    have hpaused := hstep.returned_paused hs hv hdead hidle hprocess
    exact Machine.execute_barred (hp.leaves (hf.intact hs.1) hstop₀ hfault).1 hp hresumes hpaused
      hstores
  cases hstep with
  | execute hstop hf hp heq =>
    have hend := hbarred rfl hstop hf hp.pause (by simp [heq])
    rw [heq] at hend
    exact hend.elim
  | @fail _ _ _ _ _ _ cause hstop hf hp heq =>
    have hend := hbarred rfl hstop hf hp.pause (by simp [heq])
    rw [heq] at hend
    cases cause with
    | deadContext frames => exact ⟨_, _, frames, hf, heq, rfl⟩
    | _ => exact hend.elim

/-- A context that has returned runs from its first instruction on when its process is taken up. -/
theorem Step.restarts (hstep : s.Step d t s') (htaken : s.TakesUp d v) (hdead : s'.Returned v')
    (hruns : s'.Runs v') : s'.Restarts v' := by
  cases hstep with
  | outside | interrupts | collect | spawn | fail | reject | leave | abort | execute =>
    exact htaken.elim
  | dispatch hdequeue hunspill =>
    obtain rfl := hruns
    obtain ⟨x, hx, hpc⟩ := Machine.unspill_pc hunspill
    obtain rfl := Except.ok.inj (hdead.slot.symm.trans hx)
    exact ⟨rfl, hpc⟩

end Stage

section Histories

variable {stage : Nat → Stage} {deed : Nat → Deed} {track : Nat → Track} {n : Nat}

/-- A context is followed wherever it moves, while the program neither writes to its position nor
takes it for a process. -/
structure Followed (stage : Nat → Stage) (deed : Nat → Deed) (track : Nat → Track) (n : Nat)
    (v : Nat → Value) : Prop where
  moved : ∀ k < n, track k (v k) (v (k + 1))
  stores : ∀ k < n, ¬(deed k).Stores ⟨v (k + 1), Slot.Context.pc⟩
  process : ∀ k < n, ¬(stage k).RunsFor (v k)

variable {v : Nat → Value}

/-- Until a process is taken up that stopped in it, a context that has returned does not run. -/
theorem History.returned_at (history : History stage deed track n)
    (followed : Followed stage deed track n v) (hdead : (stage 0).Returned (v 0))
    (hidle : ¬(stage 0).Runs (v 0)) {k : Nat} (hk : k ≤ n)
    (hquiet : ∀ j < k, ¬(stage j).TakesUp (deed j) (v j)) :
    (stage k).Returned (v k) ∧ ¬(stage k).Runs (v k) := by
  induction k with
  | zero => exact ⟨hdead, hidle⟩
  | succ k ih =>
    obtain ⟨hdead', hidle'⟩ := ih (Nat.le_of_succ_le hk) fun j hj => hquiet j (by omega)
    obtain ⟨hnext, hruns⟩ := (history.step k hk).returned (history.sound_at (Nat.le_of_succ_le hk))
      (followed.moved k hk) hdead' hidle' (followed.stores k hk) (followed.process k hk)
    exact ⟨hnext, fun h => hquiet k (Nat.lt_succ_self k) (hruns.mp h)⟩

/-- A context that has returned runs again exactly if a process is taken up that stopped in it. It
then runs from its first instruction on. Until then each attempt to go on in it fails. -/
theorem History.returned_runs_iff (history : History stage deed track n)
    (followed : Followed stage deed track n v) (hdead : (stage 0).Returned (v 0))
    (hidle : ¬(stage 0).Runs (v 0)) :
    ((∃ k ≤ n, (stage k).Runs (v k)) ↔ ∃ k < n, (stage k).TakesUp (deed k) (v k)) ∧
      ∀ k < n, (∀ j < k, ¬(stage j).TakesUp (deed j) (v j)) →
        ((stage k).TakesUp (deed k) (v k) → (stage (k + 1)).Restarts (v (k + 1))) ∧
        ∀ i m, deed k = .execute i m → m.Resumes i (v (k + 1)) →
          (stage k).FailsDead i (stage (k + 1)) := by
  have hstep : ∀ k < n, (∀ j < k, ¬(stage j).TakesUp (deed j) (v j)) →
      (stage (k + 1)).Returned (v (k + 1)) ∧
        ((stage (k + 1)).Runs (v (k + 1)) ↔ (stage k).TakesUp (deed k) (v k)) := by
    intro k hk hquiet
    obtain ⟨hdead', hidle'⟩ := history.returned_at followed hdead hidle hk.le hquiet
    exact (history.step k hk).returned (history.sound_at hk.le) (followed.moved k hk) hdead' hidle'
      (followed.stores k hk) (followed.process k hk)
  refine ⟨⟨?_, ?_⟩, fun k hk hquiet => ⟨fun htaken => ?_, ?_⟩⟩
  · rintro ⟨k, hk, hruns⟩
    by_contra hnone
    simp only [not_exists, not_and] at hnone
    exact (history.returned_at followed hdead hidle hk fun j hj => hnone j (hj.trans_le hk)).2 hruns
  · -- The first time that such a process is taken up.
    intro hsome
    classical
    obtain ⟨hk, htaken⟩ := Nat.find_spec hsome
    refine ⟨Nat.find hsome + 1, hk, ((hstep _ hk fun j hj hj' => ?_).2).mpr htaken⟩
    exact Nat.find_min hsome hj ⟨hj.trans hk, hj'⟩
  · obtain ⟨hdead', hruns⟩ := hstep k hk hquiet
    exact (history.step k hk).restarts htaken hdead' (hruns.mpr htaken)
  · intro i m hdeed hresumes
    obtain ⟨hdead', hidle'⟩ := history.returned_at followed hdead hidle hk.le hquiet
    have hk' := history.step k hk
    have hstores := followed.stores k hk
    rw [hdeed] at hk' hstores
    exact hk'.failsDead (history.sound_at hk.le) (followed.moved k hk) hdead' hidle' hstores
      (followed.process k hk) hresumes

end Histories

def strandedObjects : ImageAction Value := do
  let bytecode ← Image.onHeap (Heap.allocateBytes .nil (encodeAll [.loadNil]).toArray)
  let code ← Image.onHeap (Heap.allocatePointers .nil Slot.Code.count)
  let context ← Image.onHeap (Heap.allocatePointers .nil Slot.Context.registers)
  let process ← Image.onHeap (Heap.allocatePointers .nil Slot.Process.count)
  Image.fillSlots code 0 [bytecode]
  Image.fillSlots context Slot.Context.method [code]
  Image.fillSlots process Slot.Process.context [context]
  return process

theorem strandedObjects_stable : Stable [] strandedObjects := by
  refine .bind (Image.onHeap_stable (Heap.allocateBytes_stable (by simp) _)) fun bytecode => ?_
  refine .bind (Image.onHeap_stable (Heap.allocatePointers_stable (by simp) _)) fun code => ?_
  refine .bind (Image.onHeap_stable (Heap.allocatePointers_stable (by simp) _)) fun context => ?_
  refine .bind (Image.onHeap_stable (Heap.allocatePointers_stable (by simp) _)) fun process => ?_
  refine .bind (Image.fillSlots_stable (by simp) _ (by simp)) fun _ => ?_
  refine .bind (Image.fillSlots_stable (by simp) _ (by simp)) fun _ => ?_
  refine .bind (Image.fillSlots_stable (by simp) _ (by simp)) fun _ => ?_
  exact .pure (by simp)

@[irreducible]
def World.queued (start : Image) (make : ImageAction Value) : World :=
  match make start with
  | .ok p image => { image, schedule := { runnable := ⟨p, p⟩ } }
  | .error _ _ => { image := start }

theorem World.queued_intact {start : Image} {make : ImageAction Value} (hstart : Intact start)
    (hmake : Stable [] make) : Intact (queued start make) := by
  have hmade := hmake start hstart (by simp)
  rw [queued]
  split
  · rename_i p image heq
    rw [heq] at hmade
    obtain ⟨himage, -, hp⟩ := hmade
    refine ⟨himage.whole, fun v hv => ?_⟩
    rcases List.mem_append.mp hv with hv | hv
    · exact himage.held v hv
    · obtain rfl | rfl : v = p ∨ v = .nil := by simpa [Schedule.roots] using hv
      · exact hp v (by simp)
      · exact Arenas.sane_nil _
  · exact World.intact_fresh hstart

def strandedWorld : World := .queued Machine.blankImage strandedObjects

theorem strandedWorld_intact : Intact strandedWorld :=
  World.queued_intact Machine.blankImage_intact strandedObjects_stable

theorem stranded_dispatched :
    ∃ m, (Stage.idle strandedWorld).Step .dispatch Eq (.running m) := by
  have hdequeues : (Action.answer? (World.dequeue strandedWorld)).isSome = true := by decide +kernel
  have hsome : ((Action.answer? (World.dequeue strandedWorld)).bind id).isSome = true := by
    decide +kernel
  have hw := strandedWorld_intact
  obtain ⟨next, w, hdequeue, hanswer⟩ := Action.exists_eq_ok hdequeues
  rw [hanswer] at hsome
  cases next with
  | none => cases hsome
  | some p =>
    obtain ⟨hp, hrewrites⟩ := World.dequeue_rewrites hw hdequeue
    obtain rfl : Value.ofAddress ⟨.pointers, 21⟩ = p := by
      rw [hp]
      decide +kernel
    have hprocess : strandedWorld.image.heap.arenas.Sane (.ofAddress ⟨.pointers, 21⟩) := by
      rw [hp]
      exact World.schedule_sane hw _ (by simp [Schedule.roots])
    have whole : strandedWorld.image.heap.Whole := hw.whole
    have hcontext : strandedWorld.image.heap.Holds ⟨.ofAddress ⟨.pointers, 21⟩,
        Slot.Process.context⟩ (.ofAddress ⟨.pointers, 12⟩) := ⟨hprocess, by decide +kernel⟩
    have hmethod : strandedWorld.image.heap.Holds ⟨.ofAddress ⟨.pointers, 12⟩,
        Slot.Context.method⟩ (.ofAddress ⟨.pointers, 2⟩) :=
      ⟨hcontext.value_sane whole, by decide +kernel⟩
    have haccumulator : strandedWorld.image.heap.Holds ⟨.ofAddress ⟨.pointers, 21⟩,
        Slot.Process.accumulator⟩ .nil := ⟨hprocess, by decide +kernel⟩
    have hpc : strandedWorld.image.heap.Holds ⟨.ofAddress ⟨.pointers, 12⟩, Slot.Context.pc⟩ .nil :=
      ⟨hcontext.value_sane whole, by decide +kernel⟩
    have hliterals : strandedWorld.image.heap.Holds ⟨.ofAddress ⟨.pointers, 2⟩,
        Slot.Code.literals⟩ .nil := ⟨hmethod.value_sane whole, by decide +kernel⟩
    have hbytecode : strandedWorld.image.heap.Holds ⟨.ofAddress ⟨.pointers, 2⟩,
        Slot.Code.bytecode⟩ (.ofAddress ⟨.leaf, 2⟩) :=
      ⟨hmethod.value_sane whole, by decide +kernel⟩
    have hbytes : strandedWorld.image.heap.Spells (.ofAddress ⟨.leaf, 2⟩)
        (encodeAll [.loadNil]).toArray := ⟨⟨2, by decide +kernel⟩, by decide +kernel⟩
    have hkept : ∀ {c x}, c ≠ ⟨.ofAddress ⟨.pointers, 21⟩, Slot.Process.link⟩ →
        strandedWorld.image.heap.Holds c x → w.image.heap.slot c.object c.index = .ok x :=
      fun hne hc => (hrewrites.others hne hc).slot
    have hcontext' := hkept (by decide) hcontext
    have haccumulator' := hkept (by decide) haccumulator
    have hmethod' := hkept (by decide) hmethod
    have hliterals' := hkept (by decide) hliterals
    have hpc' := hkept (by decide) hpc
    have hbytecode' := hkept (by decide) hbytecode
    obtain ⟨cache, hunspill⟩ := Machine.unspill_of_slots (m := .ofWorld { w with
        schedule := { w.schedule with current := .ofAddress ⟨.pointers, 21⟩ } })
      (Machine.refreshed_of_cache rfl) hcontext' haccumulator' hmethod' hliterals' hpc'
      hbytecode' (hrewrites.spells hbytes).2
    exact ⟨_, .dispatch hdequeue hunspill⟩

/-- Its context runs again. -/
theorem stranded_runs : ∃ stage deed track v, History stage deed track 1 ∧
    Followed stage deed track 1 v ∧ (stage 0).Returned (v 0) ∧ ¬(stage 0).Runs (v 0) ∧
    ∃ k ≤ 1, (stage k).Runs (v k) := by
  obtain ⟨m, hstep⟩ := stranded_dispatched
  let stage : Nat → Stage := fun k => if k = 0 then .idle strandedWorld else .running m
  let v : Nat → Value := fun _ => .ofAddress ⟨.pointers, 12⟩
  have history : History stage (fun _ => .dispatch) (fun _ => Eq) 1 :=
    ⟨strandedWorld_intact, fun k hk => by
      obtain rfl := Nat.lt_one_iff.mp hk
      exact hstep⟩
  have followed : Followed stage (fun _ => .dispatch) (fun _ => Eq) 1 v :=
    ⟨fun _ _ => rfl, fun _ _ => id, fun k hk => by
      obtain rfl := Nat.lt_one_iff.mp hk
      exact id⟩
  have htaken : (stage 0).TakesUp .dispatch (v 0) := by
    change strandedWorld.image.heap.slot strandedWorld.schedule.runnable.head
      Slot.Process.context = .ok (.ofAddress ⟨.pointers, 12⟩)
    decide +kernel
  have hdead : (stage 0).Returned (v 0) := by
    have hw := strandedWorld_intact
    have whole : strandedWorld.image.heap.Whole := hw.whole
    exact ⟨whole.slot (World.schedule_sane hw _ (by simp [Schedule.roots])) htaken,
      show strandedWorld.image.heap.slot _ _ = _ by decide +kernel⟩
  exact ⟨stage, _, _, v, history, followed, hdead, id,
    (history.returned_runs_iff followed hdead id).1.mpr ⟨0, Nat.one_pos, htaken⟩⟩

end ObjectMachine
