import Mathlib.Logic.Relation
import ObjectMachine.Proofs.Scheduling.Footprint

namespace ObjectMachine

namespace Machine

variable {m m' m₀ m₁ m₂ : Machine} {i : Instruction} {t : Track}

/-- A machine that gives way to no request, with the instruction that it is about to execute. -/
def Fetches (m : Machine) (i : Instruction) (m₀ : Machine) : Prop :=
  ∃ timer m₁ next, tick timer m = .ok () m₁ ∧ ¬m₁.interrupts.pending ∧
    Code.decodeAt m₁.code m₁.pc = .ok (i, next) ∧ m₀ = { m₁ with start := m₁.pc, pc := next }

def Rejects (m m' : Machine) : Prop :=
  ∃ timer e, tick timer m = .ok () m' ∧ ¬m'.interrupts.pending ∧
    Code.decodeAt m'.code m'.pc = .error e

/-- A machine at the end of its run: an instruction asked for it, or there is a request. -/
inductive Quits (m : Machine) : RunOutcome → Machine → Prop where
  | returned {v : Value} : m.stop = some (.returned v) → m.Quits (.returned v) m
  | asked {outcome : RunOutcome} {m' : Machine} : m.stop = some outcome →
    (∀ v, outcome ≠ .returned v) → spill { m with stop := none } = .ok () m' → m.Quits outcome m'
  | preempted {timer : Timer} {m₁ m' : Machine} : m.stop = none → tick timer m = .ok () m₁ →
    m₁.interrupts.pending →
    spill { m₁ with interrupts := m₁.interrupts.poll.2 } = .ok () m' → m.Quits .preempted m'

theorem tick_eq_ok {timer : Timer} {u : PUnit} (heq : tick timer m = .ok u m') :
    ∃ interrupts clock, m' = { m with interrupts, clock } := by
  obtain rfl := modify_eq_ok.mp heq
  split
  · exact ⟨_, _, rfl⟩
  · exact ⟨_, _, rfl⟩

theorem Fetches.eq (hf : m.Fetches i m₀) :
    ∃ interrupts clock start pc, m₀ = { m with interrupts, clock, start, pc } := by
  obtain ⟨timer, m₁, next, htick, -, -, rfl⟩ := hf
  obtain ⟨interrupts, clock, rfl⟩ := tick_eq_ok htick
  exact ⟨_, _, _, _, rfl⟩

theorem Fetches.intact (hf : m.Fetches i m₀) (hm : Intact m) : Intact m₀ := by
  obtain ⟨_, _, _, _, rfl⟩ := hf.eq
  exact ⟨hm.whole, hm.held⟩

inductive Paused (m : Machine) (i : Instruction) : Track → Machine → Prop where
  | straight : ¬m.Pauses i → m.Paused i Eq m
  | pausing {t : Track} {m₁ : Machine} : m.Pauses i → safepoint m = .ok () m₁ → m.Carries t m₁ →
    m.Paused i t m₁

theorem Paused.pause (hp : m.Paused i t m₁) : m.Pause i m₁ := by
  cases hp with
  | straight hn => exact .inr ⟨hn, rfl⟩
  | pausing hpauses hsafe _ => exact .inl ⟨hpauses, hsafe⟩

theorem Paused.carries (hp : m.Paused i t m₁) : m.Carries t m₁ := by
  cases hp with
  | straight _ => exact .still
  | pausing _ _ hc => exact hc

theorem Pause.exists_paused (hm : Intact m) (hp : m.Pause i m₁) : ∃ t, m.Paused i t m₁ := by
  rcases hp with ⟨hpauses, hsafe⟩ | ⟨hn, rfl⟩
  · obtain ⟨t, hc⟩ := Machine.exists_carries hm hsafe
    exact ⟨t, .pausing hpauses hsafe hc⟩
  · exact ⟨Eq, .straight hn⟩

/-- What an instruction leaves, seen from the machine that paused for it. -/
theorem Pause.leaves (hm : Intact m) (hstop : m.stop = none) (hp : m.Pause i m₁)
    (hfault : ∀ f m', execute i m ≠ .error (.fault f) m') :
    Intact m₁ ∧ Leaves (m₁.Continues i) m₁ (execute i m) := by
  rcases execute_performs hm hstop i with ⟨f, m', hfaulty⟩ | ⟨m₂, hp₂, hm₂, hleaves⟩
  · exact absurd hfaulty (hfault f m')
  · obtain rfl := hp.unique hp₂
    exact ⟨hm₂, hleaves⟩

theorem Quits.spills {outcome : RunOutcome} (hm : Intact m) (hq : m.Quits outcome m') :
    Within m.Spilled (fun _ => False) m.image.known (· = m.schedule) m.process m.image.heap m' ∧
      ∀ v ∈ held outcome, Sane m' v := by
  cases hq with
  | returned hstop =>
    refine ⟨⟨hm.grown, rfl, rfl, rfl⟩, fun v hv => hm.held v ?_⟩
    exact List.mem_append_right _ (by rw [hstop]; simpa using hv)
  | asked hstop hreturned hspill =>
    have hm₁ : Intact { m with stop := none } := by
      refine ⟨hm.whole, fun v hv => hm.held v ?_⟩
      simp only [Holder.held, Option.toList_none, List.flatMap_nil, List.append_nil] at hv
      exact List.mem_append_left _ hv
    have hspills := spills_of_eq_ok hm₁ hspill
    refine ⟨⟨⟨⟨hspills.intact, hspills.grows, hspills.evolves.mono ?_⟩, hspills.preserves,
      hspills.instantiates⟩, hspills.schedule, hspills.process, hspills.known⟩, fun v hv => ?_⟩
    · rintro c x - (_ | _ | _)
      exacts [.position, .context, .accumulator]
    cases outcome with
    | returned v => exact absurd rfl (hreturned v)
    | preempted | yielded | suspended => cases hv
  | preempted hstop htick hpending hspill =>
    obtain ⟨interrupts, clock, rfl⟩ := tick_eq_ok htick
    have hm₁ : Intact { m with clock, interrupts := interrupts.poll.2 } := ⟨hm.whole, hm.held⟩
    have hspills := spills_of_eq_ok hm₁ hspill
    refine ⟨⟨⟨⟨hspills.intact, hspills.grows, hspills.evolves.mono ?_⟩, hspills.preserves,
      hspills.instantiates⟩, hspills.schedule, hspills.process, hspills.known⟩, nofun⟩
    rintro c x - (_ | _ | _)
    exacts [.position, .context, .accumulator]

end Machine

inductive Stage where
  | idle (w : World)
  | running (m : Machine)
  /-- The process whose run failed has not been taken out yet. -/
  | failed (w : World)

inductive Deed where
  /-- The image is changed from outside, in cells of which nothing is known but where they are. -/
  | outside (stores : Cell → Prop)
  /-- Interrupts are requested, enabled or disabled from outside. -/
  | interrupts
  | collect
  | spawn
  | dispatch
  /-- An instruction, with the machine in the state that it works on. -/
  | execute (i : Instruction) (m : Machine)
  /-- No instruction is found. -/
  | reject
  | leave (outcome : RunOutcome)
  | abort

namespace Stage

def world : Stage → World
  | .idle w => w
  | .running m => m.toWorld
  | .failed w => w

def heap (s : Stage) : Heap := s.world.image.heap

def schedule (s : Stage) : Schedule := s.world.schedule

/-- No reference is stale, and the process that runs is the one that the schedule calls current. -/
def Sound : Stage → Prop
  | .idle w => Intact w
  | .running m => Intact m ∧ m.process = m.schedule.current
  | .failed w => Intact w

/-- How a world comes from one stage to the next, and what becomes of its objects. -/
inductive Step : Stage → Deed → Track → Stage → Prop where
  | outside {w w' : World} {stores : Cell → Prop} :
    Since (fun c _ => stores c) w.image.heap w' → w'.schedule = w.schedule →
    Step (.idle w) (.outside stores) Eq (.idle w')
  | interrupts {w : World} (interrupts : Interrupts) (clock : Nat) :
    Step (.idle w) .interrupts Eq (.idle { w with interrupts, clock })
  | collect {w w' : World} {live : Collection} {t : Track} : w.collect = .ok live w' →
    w.image.Collects w.schedule t w'.image w'.schedule → Step (.idle w) .collect t (.idle w')
  | spawn {w w' : World} {context name p : Value} : Sane w context → Sane w name →
    World.onSchedule (·.spawn context name) w = .ok p w' → Step (.idle w) .spawn Eq (.idle w')
  | dispatch {w w₁ : World} {p : Value} {m : Machine} : World.dequeue w = .ok (some p) w₁ →
    Machine.unspill (.ofWorld { w₁ with schedule := { w₁.schedule with current := p } }) =
      .ok () m → Step (.idle w) .dispatch Eq (.running m)
  | execute {m m₀ m₁ m' : Machine} {i : Instruction} {t : Track} : m.stop = none →
    m.Fetches i m₀ → m₀.Paused i t m₁ → Machine.execute i m₀ = .ok () m' →
    Step (.running m) (.execute i m₁) t (.running m')
  | fail {m m₀ m₁ m' : Machine} {i : Instruction} {t : Track} {cause : RuntimeError} :
    m.stop = none → m.Fetches i m₀ → m₀.Paused i t m₁ →
    Machine.execute i m₀ = .error (.failure cause) m' →
    Step (.running m) (.execute i m₁) t (.failed m'.toWorld)
  | reject {m m' : Machine} : m.stop = none → m.Rejects m' →
    Step (.running m) .reject Eq (.failed m'.toWorld)
  | leave {m m' : Machine} {outcome : RunOutcome} {p : Value} {w : World} : m.Quits outcome m' →
    World.settle outcome m'.toWorld = .ok p w → Step (.running m) (.leave outcome) Eq (.idle w)
  | abort {w w' : World} {p : Value} : World.abort w = .ok p w' →
    Step (.failed w) .abort Eq (.idle w')

/-- All that a step may write to, apart from new objects. -/
inductive Writes : Stage → Deed → Licence where
  | outside {w : World} {stores : Cell → Prop} {c : Cell} {x : Value} : stores c →
    Writes (.idle w) (.outside stores) c x
  | spawn {w : World} {x : Value} :
    Writes (.idle w) .spawn ⟨w.schedule.runnable.tail, Slot.Process.link⟩ x
  | dispatch {w : World} {x : Value} :
    Writes (.idle w) .dispatch ⟨w.schedule.runnable.head, Slot.Process.link⟩ x
  | pause {m m₁ : Machine} {i : Instruction} {c : Cell} {x : Value} : m₁.Spilled c x →
    Writes (.running m) (.execute i m₁) c x
  | instruction {m m₁ : Machine} {i : Instruction} {c : Cell} {x : Value} : m₁.Writes i c x →
    Writes (.running m) (.execute i m₁) c x
  | spill {m : Machine} {outcome : RunOutcome} {c : Cell} {x : Value} : m.Spilled c x →
    Writes (.running m) (.leave outcome) c x
  | settle {m : Machine} {outcome : RunOutcome} {c : Cell} {x : Value} :
    World.Settles m.schedule c x → Writes (.running m) (.leave outcome) c x
  | abort {w : World} {x : Value} :
    Writes (.failed w) .abort ⟨w.schedule.current, Slot.Process.state⟩ x

variable {s s' : Stage} {d : Deed} {t : Track}

section Executing

variable {m m₀ m₁ : Machine} {i : Instruction} (hm : Intact m)
  (hcurrent : m.process = m.schedule.current) (hf : m.Fetches i m₀) (hp : m₀.Paused i t m₁)
include hm hcurrent hf hp

theorem carried_of_fetches : m₀.Carried t m₁ := by
  refine hp.carries.carried (hf.intact hm) ?_
  obtain ⟨_, _, _, _, rfl⟩ := hf.eq
  exact hcurrent

theorem follows_continues {m' : Machine} (hleaves : m₁.Continues i m') :
    m.image.heap.Follows (Writes (.running m) (.execute i m₁)) t m'.image.heap ∧
      m'.process = m'.schedule.current ∧ ∀ {v x content}, Sane m v → t v x →
        m.image.heap.Spells v content → m'.image.heap.Spells x content := by
  have hcarried := carried_of_fetches hm hcurrent hf hp
  refine ⟨?_, ?_, fun hv hx hs => ?_⟩
  · have hpause : m₀.image.heap.Follows (Writes (.running m) (.execute i m₁)) t m₁.image.heap :=
      hcarried.follows.mono fun c x h => .pause h
    obtain ⟨_, _, _, _, rfl⟩ := hf.eq
    exact hpause.evolves (hleaves.evolves.mono fun c x _ h => .instruction h) hleaves.grows
  · rw [hleaves.process, hcarried.process, hleaves.schedule.1.current]
  · obtain ⟨_, _, _, _, rfl⟩ := hf.eq
    exact hleaves.preserves.spells (hcarried.spells hv hx hs)

omit hcurrent in
/-- What an instruction leaves, if it does not break a rule. -/
theorem leaves_of_fetches (hstop : m.stop = none)
    (hfault : ∀ f m', Machine.execute i m₀ ≠ .error (.fault f) m') :
    Leaves (m₁.Continues i) m₁ (Machine.execute i m₀) := by
  have hstop₀ : m₀.stop = none := by
    obtain ⟨_, _, _, _, rfl⟩ := hf.eq
    exact hstop
  exact (hp.pause.leaves (hf.intact hm) hstop₀ hfault).2

end Executing

theorem spawn_grown {w w' : World} {context name p : Value} (hw : Intact w)
    (hcontext : Sane w context) (hname : Sane w name)
    (hspawn : World.onSchedule (·.spawn context name) w = .ok p w') :
    Grown (Writes (.idle w) .spawn) (· = w.image.kernelClass .process) w.image.heap w' := by
  have hknown : ∀ v ∈ context :: name :: held w.schedule, Sane w.image v := by
    simp only [List.mem_cons]
    rintro v (rfl | rfl | hv)
    · exact hcontext
    · exact hname
    · exact World.schedule_sane hw v hv
  have hgrown : Grown (Writes (.idle w) .spawn) (· = w.image.kernelClass .process) w.image.heap w :=
    hw.grown
  have hleaves : Leaves (Grown (Writes (.idle w) .spawn) (· = w.image.kernelClass .process)
      w.image.heap) w (World.onSchedule (·.spawn context name) w) := World.onSchedule_leaves hgrown
    (Schedule.spawn_leaves (World.grown_image hgrown) (Schedule.vouched_iff.mpr fun v hv =>
      trusted_of_mem (.tail _ (.tail _ hv))) hknown (by simp) (by simp) rfl fun x _ => .spawn)
  exact hleaves.ok hspawn

theorem dispatch_grown {w w₁ : World} {p : Value} {m : Machine} (hw : Intact w)
    (hdequeue : World.dequeue w = .ok (some p) w₁)
    (hunspill : Machine.unspill
      (.ofWorld { w₁ with schedule := { w₁.schedule with current := p } }) = .ok () m) :
    (running m).Sound ∧ Grown (Writes (.idle w) .dispatch) (fun _ => False) w.image.heap m := by
  have hgrown : Grown (Writes (.idle w) .dispatch) (fun _ => False) w.image.heap w := hw.grown
  have hleaves := World.dequeue_leaves hgrown .dispatch
  rw [hdequeue] at hleaves
  obtain ⟨hdone, -, hp⟩ := hleaves
  have hcurrent : Grown (Writes (.idle w) .dispatch) (fun _ => False) w.image.heap
      { w₁ with schedule := { w₁.schedule with current := p } } := by
    refine World.grown_of_schedule hdone fun v hv => ?_
    simp only [Holder.held, Schedule.roots, List.mem_append, List.mem_cons, List.not_mem_nil,
      or_false] at hv
    rcases hv with (rfl | rfl | rfl | rfl | rfl) | hv
    case inl.inr.inr.inr.inr => exact hp _ (by simp)
    all_goals exact hdone.intact.held _ (by
      simp only [Holder.held, Schedule.roots, List.mem_append, List.mem_cons]; tauto)
  have hkept := Machine.unspill_kept (m := .ofWorld _) hcurrent.intact rfl
  rw [hunspill] at hkept
  obtain ⟨_, _, _, _, _, _, _, _, -, -, -, -, rfl⟩ := Machine.unspill_eq_ok hunspill
  exact ⟨⟨hkept.1, rfl⟩, ⟨hkept.1, hcurrent.grows, hcurrent.evolves⟩, hcurrent.preserves,
    hcurrent.instantiates⟩

theorem leave_grown {m m' : Machine} {outcome : RunOutcome} {p : Value} {w : World}
    (hm : Intact m) (hquits : m.Quits outcome m')
    (hsettle : World.settle outcome m'.toWorld = .ok p w) :
    Grown (Writes (.running m) (.leave outcome)) (fun _ => False) m.image.heap w := by
  obtain ⟨hspills, houtcome⟩ := hquits.spills hm
  have hgrown : Grown (Writes (.running m) (.leave outcome)) (fun _ => False) m.image.heap
      m'.toWorld :=
    ⟨⟨Machine.intact_world hspills.intact, hspills.grows,
      hspills.evolves.mono fun c x _ h => .spill h⟩, hspills.preserves, hspills.instantiates⟩
  have hleaves := World.settle_leaves hgrown houtcome fun c x h => .settle (by
    rwa [← hspills.schedule])
  exact hleaves.ok hsettle

theorem abort_grown {w w' : World} {p : Value} (hw : Intact w)
    (habort : World.abort w = .ok p w') :
    Grown (Writes (.failed w) .abort) (fun _ => False) w.image.heap w' :=
  (World.abort_leaves hw.grown fun _ => .abort).ok habort

/-- A step leaves a sound stage, and has written to no more than it may. -/
theorem Step.sound_follows (hs : s.Sound) (hstep : s.Step d t s') :
    s'.Sound ∧ s.heap.Follows (s.Writes d) t s'.heap := by
  cases hstep with
  | outside hsince hschedule =>
    exact ⟨hsince.intact, (hsince.evolves.mono fun c x _ h => .outside h).follows hsince.grows⟩
  | interrupts interrupts clock =>
    exact ⟨⟨hs.whole, hs.held⟩, (Heap.Evolves.refl _).follows (.refl _)⟩
  | collect hcollect hcollects =>
    have hkept := World.collect_kept hs
    rw [hcollect] at hkept
    exact ⟨hkept.1, hcollects.follows hkept.1.whole⟩
  | spawn hcontext hname hspawn =>
    have hdone := spawn_grown hs hcontext hname hspawn
    exact ⟨hdone.intact, hdone.evolves.follows hdone.grows⟩
  | dispatch hdequeue hunspill =>
    obtain ⟨hsound, hdone⟩ := dispatch_grown hs hdequeue hunspill
    exact ⟨hsound, hdone.evolves.follows hdone.grows⟩
  | @execute m m₀ m₁ m' i t hstop hf hp heq =>
    have hleaves := (leaves_of_fetches hs.1 hf hp hstop (by simp [heq])).ok heq
    obtain ⟨hfollows, hprocess, -⟩ := follows_continues hs.1 hs.2 hf hp hleaves
    exact ⟨⟨hleaves.intact, hprocess⟩, hfollows⟩
  | @fail m m₀ m₁ m' i t cause hstop hf hp heq =>
    have hleaves := (leaves_of_fetches hs.1 hf hp hstop (by simp [heq])).failure heq
    exact ⟨Machine.intact_world hleaves.intact, (follows_continues hs.1 hs.2 hf hp hleaves).1⟩
  | reject hstop hrejects =>
    obtain ⟨timer, e, htick, -, -⟩ := hrejects
    obtain ⟨_, _, rfl⟩ := Machine.tick_eq_ok htick
    exact ⟨Machine.intact_world ⟨hs.1.whole, hs.1.held⟩, (Heap.Evolves.refl _).follows (.refl _)⟩
  | leave hquits hsettle =>
    have hdone := leave_grown hs.1 hquits hsettle
    exact ⟨hdone.intact, hdone.evolves.follows hdone.grows⟩
  | abort habort =>
    have hdone := abort_grown hs habort
    exact ⟨hdone.intact, hdone.evolves.follows hdone.grows⟩

/-- If anything is done from outside, it leaves bytes as they are. -/
def Legible (s : Stage) : Deed → Stage → Prop
  | .outside _, s' => s.heap.Preserves s'.heap
  | _, _ => True

/-- Nothing else changes bytes. -/
theorem Step.spells {v x : Value} {content : Array UInt8} (hs : s.Sound) (hstep : s.Step d t s')
    (hlegible : s.Legible d s') (hv : s.heap.arenas.Sane v) (hx : t v x)
    (hspells : s.heap.Spells v content) : s'.heap.Spells x content := by
  cases hstep with
  | outside => exact hx ▸ hlegible.spells hspells
  | interrupts => exact hx ▸ hspells
  | reject hstop hrejects =>
    obtain ⟨timer, e, htick, -, -⟩ := hrejects
    obtain ⟨_, _, rfl⟩ := Machine.tick_eq_ok htick
    exact hx ▸ hspells
  | collect hcollect hcollects =>
    have hkept := World.collect_kept hs
    rw [hcollect] at hkept
    exact hcollects.spells hkept.1.whole hv hx hspells
  | spawn hcontext hname hspawn =>
    exact hx ▸ (spawn_grown hs hcontext hname hspawn).preserves.spells hspells
  | dispatch hdequeue hunspill =>
    exact hx ▸ (dispatch_grown hs hdequeue hunspill).2.preserves.spells hspells
  | execute hstop hf hp heq =>
    have hleaves := (leaves_of_fetches hs.1 hf hp hstop (by simp [heq])).ok heq
    exact (follows_continues hs.1 hs.2 hf hp hleaves).2.2 hv hx hspells
  | fail hstop hf hp heq =>
    have hleaves := (leaves_of_fetches hs.1 hf hp hstop (by simp [heq])).failure heq
    exact (follows_continues hs.1 hs.2 hf hp hleaves).2.2 hv hx hspells
  | leave hquits hsettle =>
    exact hx ▸ (leave_grown hs.1 hquits hsettle).preserves.spells hspells
  | abort habort =>
    exact hx ▸ (abort_grown hs habort).preserves.spells hspells

end Stage

structure History (stage : Nat → Stage) (deed : Nat → Deed) (track : Nat → Track) (n : Nat) :
    Prop where
  sound : (stage 0).Sound
  step : ∀ k < n, (stage k).Step (deed k) (track k) (stage (k + 1))

section Histories

variable {stage : Nat → Stage} {deed : Nat → Deed} {track : Nat → Track} {n k : Nat}

theorem History.sound_at (history : History stage deed track n) (hk : k ≤ n) :
    (stage k).Sound := by
  induction k with
  | zero => exact history.sound
  | succ k ih => exact ((history.step k hk).sound_follows (ih (Nat.le_of_succ_le hk))).1

theorem History.follows_at (history : History stage deed track n) (hk : k < n) :
    (stage k).heap.Follows ((stage k).Writes (deed k)) (track k) (stage (k + 1)).heap :=
  ((history.step k hk).sound_follows (history.sound_at hk.le)).2

end Histories

section Runs

def Stage.Leads : Stage → Stage → Prop :=
  Relation.ReflTransGen fun s s' => ∃ d t, s.Step d t s'

variable {w : World} {m : Machine}

theorem Stage.Leads.sound {s s' : Stage} (hl : s.Leads s') (hs : s.Sound) : s'.Sound := by
  induction hl with
  | refl => exact hs
  | tail _ hstep ih =>
    obtain ⟨d, t, hstep⟩ := hstep
    exact (hstep.sound_follows ih).1

/-- Whatever comes after a sound stage belongs to a history. -/
theorem Stage.Leads.exists_history {s s' : Stage} (hs : s.Sound) (hl : s.Leads s') :
    ∃ stage deed track n, History stage deed track n ∧ stage 0 = s ∧ stage n = s' := by
  induction hl with
  | refl => exact ⟨fun _ => s, fun _ => .interrupts, fun _ => Eq, 0, ⟨hs, nofun⟩, rfl, rfl⟩
  | @tail s₁ s₂ _ hstep ih =>
    obtain ⟨stage, deed, track, n, history, hstart, hend⟩ := ih
    obtain ⟨d, t, hstep⟩ := hstep
    refine ⟨fun k => if k ≤ n then stage k else s₂, fun k => if k < n then deed k else d,
      fun k => if k < n then track k else t, n + 1, ⟨by simpa using history.sound, fun k hk => ?_⟩,
      by simpa using hstart, by simp⟩
    by_cases hkn : k < n
    · simpa [hkn, hkn.le, Nat.succ_le_of_lt hkn] using history.step k hkn
    · obtain rfl : k = n := by omega
      simpa [hend] using hstep

def Stage.Turned (s : Stage) : EStateM.Result (Stop RuntimeError) Machine (Option RunOutcome) → Prop
  | .ok none m => s.Leads (.running m) ∧ m.stop = none
  | .ok (some outcome) m => ∃ m₁ m₂, s.Leads (.running m₁) ∧ m₁.Quits outcome m₂ ∧
    m₂.toWorld = m.toWorld
  | .error (.failure _) m => s.Leads (.failed m.toWorld)
  | .error (.fault _) _ => True

theorem Stage.Turned.after {s s' : Stage}
    {r : EStateM.Result (Stop RuntimeError) Machine (Option RunOutcome)} (hl : s.Leads s')
    (h : s'.Turned r) : s.Turned r := by
  match r, h with
  | .ok none _, ⟨h, hstop⟩ => exact ⟨hl.trans h, hstop⟩
  | .ok (some _) _, ⟨m₁, m₂, h, hquits, heq⟩ => exact ⟨m₁, m₂, hl.trans h, hquits, heq⟩
  | .error (.failure _) _, h => exact hl.trans h
  | .error (.fault _) _, _ => trivial

namespace Machine

theorem turned_of_stop {m₁ : Machine} {s : Stage} (hl : s.Leads (.running m₁)) :
    s.Turned ((do
      match (← get).stop with
      | none => return none
      | some outcome =>
        modify fun m => { m with stop := none }
        match outcome with
        | .returned _ => return some outcome
        | _ =>
          spill
          return some outcome : MachineAction (Option RunOutcome)) m₁) := by
  rw [get_bind]
  cases hstop : m₁.stop with
  | none => exact ⟨hl, hstop⟩
  | some outcome =>
    -- A value that was returned needs no registers to go on from.
    have hspill : (∀ v, outcome ≠ .returned v) → s.Turned ((spill >>= fun _ => return some outcome :
        MachineAction (Option RunOutcome)) { m₁ with stop := none }) := by
      intro hreturned
      cases heq : spill { m₁ with stop := none } with
      | ok u m₂ =>
        rw [bind_of_eq_ok heq]
        exact ⟨m₁, m₂, hl, .asked hstop hreturned heq, rfl⟩
      | error e m₂ =>
        rw [bind_of_eq_error heq]
        cases e with
        | failure cause => exact absurd heq (spill_unfailing _ cause m₂)
        | fault f => trivial
    cases outcome with
    | returned v => exact ⟨m₁, m₁, hl, .returned hstop, rfl⟩
    | preempted | yielded | suspended => exact hspill nofun

/-- Where one turn of the machine leads. -/
theorem step_turned (hm : (Stage.running m).Sound) (hstop : m.stop = none) (timer : Timer) :
    (Stage.running m).Turned (step timer m) := by
  cases htick : tick timer m with
  | error e m₁ => cases htick
  | ok u m₁ =>
  have hdo : step timer m = _ := bind_of_eq_ok htick
  rw [hdo, get_bind]
  by_cases hpending : m₁.interrupts.pending
  · rw [if_pos hpending, modify_bind]
    cases hspill : spill { m₁ with interrupts := m₁.interrupts.poll.2 } with
    | ok u m₂ =>
      rw [bind_of_eq_ok hspill]
      exact ⟨m, m₂, .refl, .preempted hstop htick hpending hspill, rfl⟩
    | error e m₂ =>
      rw [bind_of_eq_error hspill]
      cases e with
      | failure cause => exact absurd hspill (spill_unfailing _ cause m₂)
      | fault f => trivial
  rw [if_neg hpending, get_bind]
  cases hdecode : Code.decodeAt m₁.code m₁.pc with
  | error e =>
    simp only
    cases htrace : trace m₁ with
    | ok frames m₂ =>
      obtain ⟨-, rfl⟩ := query_eq_ok htrace
      rw [bind_of_eq_ok htrace]
      exact .single ⟨_, _, .reject hstop ⟨timer, e, htick, hpending, hdecode⟩⟩
    | error stop m₂ =>
      rw [bind_of_eq_error htrace]
      cases stop with
      | failure cause => exact absurd htrace (Action.Unfailing.query _ m₁ cause m₂)
      | fault f => trivial
  | ok decoded =>
    obtain ⟨i, next⟩ := decoded
    simp only
    rw [modify_bind]
    have hf : m.Fetches i { m₁ with start := m₁.pc, pc := next } :=
      ⟨timer, m₁, next, htick, hpending, hdecode, rfl⟩
    have hstop₀ : m₁.stop = none := (stop_tick htick).trans hstop
    have hm₀ := hf.intact hm.1
    cases hexecute : execute i { m₁ with start := m₁.pc, pc := next } with
    | ok u m₂ =>
      rw [bind_of_eq_ok hexecute]
      refine turned_of_stop (.single ?_)
      rcases execute_performs hm₀ hstop₀ i with ⟨_, _, hfault⟩ | ⟨m₃, hp, -⟩
      · exact nomatch hfault.symm.trans hexecute
      · obtain ⟨t, hp⟩ := hp.exists_paused hm₀
        exact ⟨_, t, .execute hstop hf hp hexecute⟩
    | error e m₂ =>
      rw [bind_of_eq_error hexecute]
      cases e with
      | fault f => trivial
      | failure cause =>
        refine .single ?_
        rcases execute_performs hm₀ hstop₀ i with ⟨_, _, hfault⟩ | ⟨m₃, hp, -⟩
        · exact nomatch hfault.symm.trans hexecute
        · obtain ⟨t, hp⟩ := hp.exists_paused hm₀
          exact ⟨_, t, .fail hstop hf hp hexecute⟩

/-- Where a run of the machine leads. -/
theorem run_turned (hm : (Stage.running m).Sound) (hstop : m.stop = none) (timer : Timer)
    (turns : Nat) : (Stage.running m).Turned (run timer turns m) := by
  induction turns generalizing m with
  | zero => exact ⟨.refl, hstop⟩
  | succ turns ih =>
    have hfirst := step_turned hm hstop timer
    rw [run]
    cases heq : step timer m with
    | error e m₁ =>
      rw [bind_of_eq_error heq]
      rw [heq] at hfirst
      cases e with
      | failure cause => exact hfirst
      | fault f => trivial
    | ok outcome m₁ =>
      rw [bind_of_eq_ok heq]
      rw [heq] at hfirst
      cases outcome with
      | some outcome => exact hfirst
      | none => exact (ih (hfirst.1.sound hm) hfirst.2).after hfirst.1

end Machine

/-- Where a run of processes leads, unless its turns run out. A run that fails ends with the process
that failed being taken out. -/
def Stage.Ran (s : Stage) : EStateM.Result (Stop RuntimeError) World (Option Unit) → Prop
  | .ok (some _) w => s.Leads (.idle w)
  | .ok none _ => True
  | .error (.failure _) w =>
    ∃ w₁, s.Leads (.failed w₁) ∧ (Stage.failed w₁).Step .abort Eq (.idle w)
  | .error (.fault _) _ => True

theorem Stage.Ran.after {s s' : Stage} {r : EStateM.Result (Stop RuntimeError) World (Option Unit)}
    (hl : s.Leads s') (h : s'.Ran r) : s.Ran r := by
  match r, h with
  | .ok (some _) _, h => exact hl.trans h
  | .ok none _, _ => trivial
  | .error (.failure _) _, ⟨w₁, h, habort⟩ => exact ⟨w₁, hl.trans h, habort⟩
  | .error (.fault _) _, _ => trivial

namespace World

/-- The process that runs is put where it belongs. -/
theorem ran_of_settle {s : Stage} {m₁ m₂ : Machine} {outcome : RunOutcome}
    (hl : s.Leads (.running m₁)) (hquits : m₁.Quits outcome m₂) (heq : m₂.toWorld = w) :
    s.Ran ((do let _ ← settle outcome; return some () : WorldAction (Option Unit)) w) := by
  subst heq
  cases hsettle : settle outcome m₂.toWorld with
  | ok p w' =>
    rw [bind_of_eq_ok hsettle]
    exact hl.tail ⟨_, _, .leave hquits hsettle⟩
  | error e w' =>
    rw [bind_of_eq_error hsettle]
    cases e with
    | fault f => trivial
    | failure cause => exact absurd hsettle (settle_unfailing outcome _ cause w')

/-- What is made of the outcome of a run: an error ends the process, whatever else settles it. -/
theorem ran_of_turned {s : Stage} {w₂ : World} {timer : Timer} {turns : Nat}
    {handle : Stop RuntimeError → WorldAction (Option RunOutcome)}
    {next : Option RunOutcome → WorldAction (Option Unit)}
    (hrun : s.Turned ((do Machine.unspill; Machine.run timer turns) (.ofWorld w₂)))
    (hfault : ∀ f w', handle (.fault f) w' = .error (.fault f) w')
    (hfailure : ∀ cause w', handle (.failure cause) w' =
      (do let _ ← abort; throw (.failure cause) : WorldAction (Option RunOutcome)) w')
    (hnone : next none = return none)
    (hsome : ∀ outcome, next (some outcome) = do let _ ← settle outcome; return some ()) :
    s.Ran ((tryCatch (interpret timer turns) handle >>= next) w₂) := by
  cases heq : (do Machine.unspill; Machine.run timer turns) (Machine.ofWorld w₂) with
  | ok outcome m =>
    have htry : (tryCatch (interpret timer turns) handle : WorldAction _) w₂ =
      .ok outcome m.toWorld := tryCatch_of_eq_ok (interpret_of_eq_ok heq)
    rw [heq] at hrun
    rw [bind_of_eq_ok htry]
    cases outcome with
    | none =>
      rw [hnone]
      trivial
    | some outcome =>
      obtain ⟨m₁, m₂, hl, hquits, hworld⟩ := hrun
      rw [hsome]
      exact ran_of_settle hl hquits hworld
  | error e m =>
    have htry : (tryCatch (interpret timer turns) handle : WorldAction _) w₂ =
      handle e m.toWorld := tryCatch_of_eq_error (interpret_of_eq_error heq)
    rw [heq] at hrun
    cases e with
    | fault f =>
      rw [bind_of_eq_error (htry.trans (hfault f _))]
      trivial
    | failure cause =>
      rw [hfailure] at htry
      cases habort : abort m.toWorld with
      | ok p w₃ =>
        have hend : (do let _ ← abort; throw (.failure cause) : WorldAction (Option RunOutcome))
            m.toWorld = .error (.failure cause) w₃ := bind_of_eq_ok habort
        rw [bind_of_eq_error (htry.trans hend)]
        exact ⟨_, hrun, .abort habort⟩
      | error e w₃ =>
        rw [bind_of_eq_error (htry.trans (bind_of_eq_error habort))]
        cases e with
        | fault f => trivial
        | failure cause => exact absurd habort (abort_unfailing _ cause w₃)

theorem runProcess_ran {w₁ : World} {p : Value} (hw : Intact w) (timer : Timer) (turns : Nat)
    (hdequeue : dequeue w = .ok (some p) w₁) :
    (Stage.idle w).Ran (runProcess timer turns p w₁) := by
  let w₂ : World := { w₁ with schedule := { w₁.schedule with current := p } }
  -- Taking the process up breaks a rule, or the machine runs it.
  have hrun : (Stage.idle w).Turned
      ((do Machine.unspill; Machine.run timer turns) (.ofWorld w₂)) := by
    cases hunspill : Machine.unspill (.ofWorld w₂) with
    | error e m =>
      rw [bind_of_eq_error hunspill]
      cases e with
      | failure cause => exact absurd hunspill (Machine.unspill_unfailing _ cause m)
      | fault f => trivial
    | ok u m =>
      rw [bind_of_eq_ok hunspill]
      have hl : (Stage.idle w).Leads (.running m) := .single ⟨_, _, .dispatch hdequeue hunspill⟩
      refine (Machine.run_turned (hl.sound hw) ?_ timer turns).after hl
      obtain ⟨_, _, _, _, _, _, _, _, -, -, -, -, rfl⟩ := Machine.unspill_eq_ok hunspill
      rfl
  rw [runProcess, setCurrent, modify_bind]
  exact ran_of_turned hrun (fun _ _ => rfl) (fun _ _ => rfl) rfl fun _ => rfl

/-- Counting the processes that wait leaves the world as it is. -/
theorem ran_of_countWaiting : (Stage.idle w).Ran
    ((do let _ ← countWaiting; return some () : WorldAction (Option Unit)) w) := by
  cases hcount : countWaiting w with
  | ok count w₁ =>
    obtain ⟨-, rfl⟩ := query_eq_ok hcount
    rw [bind_of_eq_ok hcount]
    exact .refl
  | error e w₁ =>
    rw [bind_of_eq_error hcount]
    cases e with
    | fault f => trivial
    | failure cause =>
      have hunfailing : countWaiting.Unfailing := .query _
      exact absurd hcount (hunfailing _ cause w₁)

/-- Every run of a world is part of a history. -/
theorem run_ran (hw : Intact w) (timer : Timer) (fuel : Nat) :
    (Stage.idle w).Ran (run timer fuel w) := by
  have hqueue : ∀ dispatches {w}, Intact w →
      (Stage.idle w).Ran (runQueue timer fuel dispatches w) := by
    intro dispatches
    induction dispatches with
    | zero => exact fun _ => trivial
    | succ dispatches ih =>
      intro w hw
      rw [runQueue]
      cases hdequeue : dequeue w with
      | error e w₁ =>
        rw [bind_of_eq_error hdequeue]
        cases e with
        | fault f => trivial
        | failure cause => exact absurd hdequeue (dequeue_unfailing _ cause w₁)
      | ok taken w₁ =>
        rw [bind_of_eq_ok hdequeue]
        cases taken with
        | none =>
          obtain ⟨heap, runnable, hempty, rfl⟩ := dequeue_eq_ok hdequeue
          obtain ⟨rfl, rfl⟩ := Queue.dequeue_eq_none hempty
          exact ran_of_countWaiting
        | some p =>
          have hfirst := runProcess_ran hw timer fuel hdequeue
          dsimp only
          cases heq : runProcess timer fuel p w₁ with
          | error e w₂ =>
            rw [bind_of_eq_error heq]
            rw [heq] at hfirst
            cases e with
            | fault f => trivial
            | failure cause => exact hfirst
          | ok done w₂ =>
            rw [bind_of_eq_ok heq]
            rw [heq] at hfirst
            cases done with
            | none => trivial
            | some _ => exact (ih (hfirst.sound hw)).after hfirst
  exact hqueue fuel hw

end World

end Runs

end ObjectMachine
