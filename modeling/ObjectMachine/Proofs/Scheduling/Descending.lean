import ObjectMachine.Proofs.Machine.Heeding
import ObjectMachine.Proofs.Scheduling.Preemption

namespace ObjectMachine

open ObjectMachine.Action

namespace Machine

variable {m m' m₁ : Machine} {i : Instruction} {outcome : RunOutcome}

/-- A process is taken up in a context whose chain ends. -/
theorem unspill_minds {u : Unit} (hgrounded : m.image.Grounded)
    (henlisted : m.schedule.Enlisted m.image) (heq : unspill m = .ok u m') : m'.Minds := by
  obtain ⟨context, _, _, _, _, _, _, _, hcontext, -, -, -, rfl⟩ := unspill_eq_ok heq
  have hheld : m.image.heap.Holds ⟨m.schedule.current, Slot.Process.context⟩ context :=
    ⟨henlisted.current.sane, hcontext⟩
  have hprocess := Image.Enlists.process (c := ⟨_, _⟩) henlisted.current hheld
  exact ⟨hgrounded, henlisted, hgrounded.rooted_of_process hprocess hheld⟩

section Pausing

variable (hm : Intact m) (hminds : m.Minds) (hcurrent : m.process = m.schedule.current)
include hm hminds hcurrent

/-- Registers are written to the context and to the process that runs. -/
theorem spill_heeds {u : Unit} (heq : spill m = .ok u m') : m.Heeds m' := by
  have hspills := spills_of_eq_ok hm heq
  have hprocess : m.image.Enlists m.process := hcurrent ▸ hminds.enlisted.current
  refine hminds.heeds_of_image (hminds.grounded.heeds (intact_image hm)
    hspills.toWithin.image hspills.known (fun c x hc hheld => ?_) ⟨id, id⟩) hspills.schedule
  cases hc with
  | position => exact hminds.grounded.spares_of_rooted (c := ⟨_, _⟩) hminds.rooted (by simp)
  | context =>
    obtain rfl := hheld.unique hspills.context
    exact hminds.grounded.spares_of_process (c := ⟨_, _⟩) hprocess (fun _ => hminds.rooted)
      fun h => absurd h (by simp)
  | accumulator =>
    exact hminds.grounded.spares_of_process (c := ⟨_, _⟩) hprocess (fun h => absurd h (by simp))
      fun h => absurd h (by simp)

/-- A collection in the middle of a run. -/
theorem safepoint_minds {u : Unit} (heq : safepoint m = .ok u m') : m'.Minds := by
  by_cases hneeds : m.image.heap.needsCollection
  · obtain ⟨m₀, live, schedule, image, hspill, hcollect, hunspill⟩ :=
      safepoint_collects hneeds heq
    have hheeds := spill_heeds hm hminds hcurrent hspill
    have hm₀ := (spills_of_eq_ok hm hspill).intact
    obtain ⟨hgrounded, henlisted⟩ := Schedule.collect_grounded (intact_image hm₀)
      hheeds.image.grounded (schedule_roots_sane hm₀) hheeds.schedule hcollect
    exact unspill_minds hgrounded henlisted hunspill
  · rw [safepoint, get_bind, if_neg hneeds] at heq
    obtain ⟨-, rfl⟩ := pure_eq_ok.mp heq
    exact hminds

omit hminds hcurrent in
theorem Pause.intact (hstop : m.stop = none) (hp : m.Pause i m₁) : Intact m₁ := by
  rcases hp with ⟨-, hsafe⟩ | ⟨-, rfl⟩
  · have hkept := safepoint_kept hm hstop
    rw [hsafe] at hkept
    exact hkept.1
  · exact hm

theorem Pause.minds (hp : m.Pause i m₁) : m₁.Minds := by
  rcases hp with ⟨-, hsafe⟩ | ⟨-, rfl⟩
  · exact safepoint_minds hm hminds hcurrent hsafe
  · exact hminds

/-- The end of a run. -/
theorem Quits.heeds (hq : m.Quits outcome m') : m.Heeds m' := by
  cases hq with
  | returned => exact hminds.refl hm
  | asked hstop hreturned hspill =>
    have hm₁ : Intact { m with stop := none } := by
      refine ⟨hm.whole, fun v hv => hm.held v ?_⟩
      simp only [Holder.held, Option.toList_none, List.flatMap_nil, List.append_nil] at hv
      exact List.mem_append_left _ hv
    have h := spill_heeds hm₁ ⟨hminds.grounded, hminds.enlisted, hminds.rooted⟩ hcurrent hspill
    exact ⟨h.image, h.schedule⟩
  | preempted hstop htick hpending hspill =>
    obtain ⟨interrupts, clock, rfl⟩ := tick_eq_ok htick
    have hm₁ : Intact { m with clock, interrupts := interrupts.poll.2 } := ⟨hm.whole, hm.held⟩
    have h := spill_heeds hm₁ ⟨hminds.grounded, hminds.enlisted, hminds.rooted⟩ hcurrent hspill
    exact ⟨h.image, h.schedule⟩

end Pausing

end Machine

/-- Whoever follows the callers comes to nil. So the search for a context ends, and a trace has a
line for each context, up to a number. -/
def Image.Descends (i : Image) (v : Value) : Prop :=
  ∃ vs, ObjectMachine.Walks i.Previous v vs .nil ∧
    (∀ home, ∃ found, Machine.chainTo i.heap home (i.heap.chainBound + 1) [] v = .ok found) ∧
    ∀ lines, i.trace v = .ok lines → lines.length = min vs.length (Image.maxTraceFrames + 1)

theorem Image.Rooted.descends {i : Image} {v : Value} (hv : i.Rooted v) (whole : i.heap.Whole) :
    i.Descends v := by
  obtain ⟨vs, hwalks⟩ := hv
  exact ⟨vs, hwalks, Rooted.exists_chainTo ⟨vs, hwalks⟩ whole,
    fun lines heq => traceFrom_length hwalks heq⟩

namespace World

variable {w w' : World} {p : Value} {outcome : RunOutcome}

variable (hw : Intact w) (hg : w.image.Grounded) (hs : w.schedule.Enlisted w.image)
include hw hg hs

theorem dequeue_grounded (heq : dequeue w = .ok (some p) w') :
    w'.image.Grounded ∧ w'.schedule.Enlisted w'.image ∧ w'.image.Enlists p := by
  obtain ⟨heap, runnable, htaken, rfl⟩ := dequeue_eq_ok heq
  obtain ⟨hheeds, hrunnable, hp⟩ :=
    Queue.dequeue_heeds (image_intact hw) hg hs.runnable htaken
  exact ⟨hheeds.grounded, ⟨hrunnable, hheeds.queue hs.waiting, hheeds.enlists hs.current⟩, hp⟩

/-- The process that ran is put where it belongs. -/
theorem settle_grounded (houtcome : ∀ v ∈ held outcome, Sane w v)
    (heq : settle outcome w = .ok p w') :
    w'.image.Grounded ∧ w'.schedule.Enlisted w'.image := by
  have hi := image_intact hw
  obtain ⟨_, w₁, htake, heq⟩ := bind_eq_ok.mp heq
  obtain ⟨rfl, rfl⟩ := takeCurrent_eq_ok htake
  have hrequeue : ∀ {w₂ : World}, enqueueRunnable w.schedule.current
      { w with schedule := { w.schedule with current := .nil } } = .ok () w₂ →
      w₂.image.Grounded ∧ w₂.schedule.Enlisted w₂.image := by
    intro w₂ hput
    obtain ⟨heap, runnable, henqueue, rfl⟩ := enqueueRunnable_eq_ok hput
    obtain ⟨hheeds, hrunnable⟩ := Queue.enqueue_heeds hi hg hs.runnable hs.current henqueue
    exact ⟨hheeds.grounded, hrunnable, hheeds.queue hs.waiting, .inl rfl⟩
  cases outcome with
  | preempted =>
    obtain ⟨_, w₂, hput, hdone⟩ := bind_eq_ok.mp heq
    obtain ⟨-, rfl⟩ := pure_eq_ok.mp hdone
    exact hrequeue hput
  | yielded =>
    obtain ⟨_, w₂, hput, hdone⟩ := bind_eq_ok.mp heq
    obtain ⟨-, rfl⟩ := pure_eq_ok.mp hdone
    exact hrequeue hput
  | suspended =>
    obtain ⟨_, w₂, hpark, hdone⟩ := bind_eq_ok.mp heq
    obtain ⟨-, rfl⟩ := pure_eq_ok.mp hdone
    obtain ⟨h₁, heap, waiting, hset, hput, rfl⟩ := park_eq_ok hpark
    have hheeds := setSlot_process_heeds hi hg hs.current (state_sane .waiting)
      (fun h => absurd h (by decide)) (fun h => absurd h (by decide)) hset
    obtain ⟨hheeds', hwaiting⟩ := Queue.enqueue_heeds hheeds.intact hheeds.grounded
      (hheeds.queue hs.waiting) (hheeds.enlists hs.current) hput
    exact ⟨hheeds'.grounded, (hheeds.trans hheeds').queue hs.runnable, hwaiting, .inl rfl⟩
  | returned v =>
    obtain ⟨_, w₂, hfinish, hdone⟩ := bind_eq_ok.mp heq
    obtain ⟨-, rfl⟩ := pure_eq_ok.mp hdone
    obtain ⟨h₁, h₂, heap, id, name, hset₁, hset₂, hset₃, -, rfl⟩ := finish_eq_ok hfinish
    have hheeds₁ := setSlot_process_heeds hi hg hs.current (state_sane .done)
      (fun h => absurd h (by decide)) (fun h => absurd h (by decide)) hset₁
    have hheeds₂ := setSlot_process_heeds hheeds₁.intact hheeds₁.grounded
      (hheeds₁.enlists hs.current) (Arenas.sane_nil _) (fun _ => Image.rooted_nil)
      (fun h => absurd h (by decide)) hset₂
    have hdone := hheeds₁.trans hheeds₂
    have hheeds₃ := setSlot_process_heeds hdone.intact hdone.grounded
      (hdone.enlists hs.current) (hdone.grows _ (houtcome v (by simp [RunOutcome.values])))
      (fun h => absurd h (by decide)) (fun h => absurd h (by decide)) hset₃
    have hall := hdone.trans hheeds₃
    exact ⟨hall.grounded, hall.queue hs.runnable, hall.queue hs.waiting, .inl rfl⟩

theorem abort_grounded (heq : abort w = .ok p w') :
    w'.image.Grounded ∧ w'.schedule.Enlisted w'.image := by
  obtain ⟨_, w₁, htake, heq⟩ := bind_eq_ok.mp heq
  obtain ⟨rfl, rfl⟩ := takeCurrent_eq_ok htake
  obtain ⟨_, w₂, hstate, hdone⟩ := bind_eq_ok.mp heq
  obtain ⟨-, rfl⟩ := pure_eq_ok.mp hdone
  obtain ⟨heap, hset, rfl⟩ := onHeap_eq_ok hstate
  have hheeds := setSlot_process_heeds (image_intact hw) hg hs.current (state_sane .done)
    (fun h => absurd h (by decide)) (fun h => absurd h (by decide)) hset
  exact ⟨hheeds.grounded, hheeds.queue hs.runnable, hheeds.queue hs.waiting, .inl rfl⟩

theorem collect_grounded {live : Collection} (heq : collect w = .ok live w') :
    w'.image.Grounded ∧ w'.schedule.Enlisted w'.image := by
  rw [collect] at heq
  split at heq
  · cases heq
  rename_i result schedule image hcollect
  dsimp only at heq
  split at heq
  · cases heq
    exact Schedule.collect_grounded (image_intact hw) hg
      (fun v hv => hw.held v (List.mem_append_right _ hv)) hs hcollect
  · cases heq

omit hg in
/-- A new process is the last of those that are ready, and stops in the context that it is given. -/
theorem spawn_makes {context name : Value} (hcontext : Sane w context) (hname : Sane w name)
    (heq : onSchedule (·.spawn context name) w = .ok p w') :
    w'.image.heap.Holds ⟨w'.schedule.runnable.tail, Slot.Process.context⟩ context := by
  have hgrown := Stage.spawn_grown hw hcontext hname heq
  obtain ⟨image, schedule, hspawn, rfl⟩ := onSchedule_eq_ok heq
  have whole : w.image.heap.Whole := hw.whole
  obtain ⟨heap, runnable, heap', -, henqueue, -, rfl⟩ :=
    Schedule.spawn_eq_ok (image_intact hw) hcontext hname hspawn
  have htail : runnable.tail = p := by
    obtain ⟨-, -, ⟨-, rfl, -⟩ | ⟨-, rfl, -⟩⟩ := Queue.enqueue_eq_ok henqueue <;> rfl
  obtain ⟨-, -, -, hshows⟩ := Schedule.spawn_shows whole.sound hs.runnable.tail.sane hspawn
  exact htail ▸ hshows.holds hgrown.intact.whole rfl

end World

/-- What is done from outside stores into no context and no process. New contexts have no caller,
and new processes are in no context and no queue. -/
structure Image.Admits (i : Image) (stores : Cell → Prop) (i' : Image) : Prop where
  known : i'.known = i.known
  preserves : i.heap.Preserves i'.heap
  inert : ∀ {c}, stores c → i.Inert c.object
  outermost : ∀ {v w}, ¬Sane i v → i'.Previous v w → w = .nil
  idle : ∀ {p k x}, ¬Sane i p → i'.Instance .process p →
    k = Slot.Process.context ∨ k = Slot.Process.link → i'.heap.Holds ⟨p, k⟩ x → x = .nil

namespace Stage

/-- All chains end: those of contexts, that of the machine and those of processes. -/
structure Grounded (s : Stage) : Prop where
  image : s.world.image.Grounded
  enlisted : s.schedule.Enlisted s.world.image
  active : ∀ m, s = .running m → m.image.Rooted m.context

/-- A step in which nothing is stored into a context or a process, and processes are made to run in
contexts that have a position. -/
def Ordinary (s : Stage) : Deed → Stage → Prop
  | .outside stores, s' => s.world.image.Admits stores s'.world.image
  | .spawn, s' => ∀ v, s'.heap.Holds ⟨s'.schedule.runnable.tail, Slot.Process.context⟩ v →
    s'.world.image.Instance .context v ∧ ∃ x, s'.heap.Holds ⟨v, Slot.Context.pc⟩ x ∧ x ≠ .nil
  | .execute i m, _ => ∀ c, m.Stores i c → m.image.Inert c.object
  | _, _ => True

variable {s s' : Stage} {d : Deed} {t : Track}

theorem grounded_idle {w : World} (hi : w.image.Grounded) (he : w.schedule.Enlisted w.image) :
    (idle w).Grounded := ⟨hi, he, by rintro _ ⟨⟩⟩

theorem grounded_failed {w : World} (hi : w.image.Grounded)
    (he : w.schedule.Enlisted w.image) : (failed w).Grounded := ⟨hi, he, by rintro _ ⟨⟩⟩

/-- Where chains end they do so again once something was done from outside. -/
theorem outside_grounded {w w' : World} {stores : Cell → Prop} (hw : Intact w)
    (hg : (idle w).Grounded) (hsince : Since (fun c _ => stores c) w.image.heap w')
    (hschedule : w'.schedule = w.schedule) (hadmits : w.image.Admits stores w'.image) :
    (idle w').Grounded := by
  have himage : Since (fun c _ => stores c) w.image.heap w'.image :=
    ⟨World.image_intact hsince.intact, hsince.grows, hsince.evolves⟩
  have hheeds : w.image.Heeds w'.image := by
    refine hg.image.heeds_of_since (World.image_intact hw) himage hadmits.preserves hadmits.known
      (fun c x hc _ => Image.spares_of_inert (hadmits.inert hc)) fun c x hc hfresh hr => ?_
    obtain ⟨v, k⟩ := c
    refine ⟨fun h hindex => .inl ?_, fun h hindex => ?_, fun h hindex => .inl ?_⟩
    rotate_left
    · exact hadmits.idle hfresh h (.inl hindex) hc ▸ Image.rooted_nil
    · exact hadmits.idle hfresh h (.inr hindex) hc
    have hprevious : w'.image.Previous v x := ⟨h, hindex ▸ hc⟩
    obtain rfl := hadmits.outermost hfresh hprevious
    exact Image.rooted_nil.call hprevious
  exact grounded_idle hheeds.grounded (hschedule ▸ hheeds.schedule hg.enlisted)

/-- A process is made in a context that has a position, so the context has a chain. -/
theorem spawn_grounded {w w' : World} {context name p : Value} (hw : Intact w)
    (hg : (idle w).Grounded) (hcontext : Sane w context) (hname : Sane w name)
    (hspawn : World.onSchedule (·.spawn context name) w = .ok p w')
    (hordinary : (idle w).Ordinary .spawn (idle w')) : (idle w').Grounded := by
  have hi := World.image_intact hw
  have whole : w.image.heap.Whole := hw.whole
  have hgrown := spawn_grown hw hcontext hname hspawn
  obtain ⟨hinstance', x, hx, hlive⟩ :=
    hordinary context (World.spawn_makes hw hg.enlisted hcontext hname hspawn)
  obtain ⟨image, schedule, hmade, rfl⟩ := World.onSchedule_eq_ok hspawn
  have hknown : image.known = w.image.known := (Schedule.spawn_knows _ _ _ _).ok rfl hmade
  have hinstance : w.image.Instance .context context :=
    (Image.instance_congr hknown hcontext hinstance'.sane
      (hgrown.preserves.header hcontext)).mp hinstance'
  -- The position is the one that the context had.
  obtain ⟨y, hy⟩ := hgrown.preserves.holds whole hx hcontext
  obtain ⟨z, hz, hsame⟩ := hgrown.evolves _ _ hy
  obtain rfl := hz.unique hx
  have hposition : w.image.heap.Holds ⟨context, Slot.Context.pc⟩ z := by
    rcases hsame with rfl | hwritten
    · exact hy
    · exact nomatch hwritten
  obtain ⟨slots, hshows, hslot⟩ := hposition.shows whole
  obtain ⟨v, hv⟩ : ∃ v, slots[0]? = some v :=
    ⟨_, List.getElem?_eq_getElem (Nat.zero_lt_of_lt (List.getElem?_eq_some_iff.mp hslot).1)⟩
  have hrooted : w.image.Rooted context :=
    (hg.image.rooted_or_blank ⟨hinstance, hshows.holds whole hv⟩).resolve_right fun hblank =>
      hlive (hposition.unique hblank.position)
  have hheeds := (Schedule.spawn_heeds hi hg.image hg.enlisted hrooted hname).ok hmade
  exact grounded_idle hheeds.1.grounded hheeds.2

section Running

variable {m m₀ m₁ : Machine} {i : Instruction}

theorem Grounded.minds (hg : (running m).Grounded) : m.Minds :=
  ⟨hg.image, hg.enlisted, hg.active m rfl⟩

/-- The machine with which an instruction does its work. -/
theorem Grounded.paused (hs : (running m).Sound) (hg : (running m).Grounded) (hstop : m.stop = none)
    (hf : m.Fetches i m₀) (hp : m₀.Paused i t m₁) : Intact m₁ ∧ m₁.Minds := by
  have hm₀ := hf.intact hs.1
  have hminds := hg.minds
  obtain ⟨_, _, _, _, rfl⟩ := hf.eq
  exact ⟨Machine.Pause.intact hm₀ hstop hp.pause, Machine.Pause.minds hm₀
    ⟨hminds.grounded, hminds.enlisted, hminds.rooted⟩ hs.2 hp.pause⟩

/-- What an instruction leaves, however it ends. -/
theorem Grounded.execute (hs : (running m).Sound) (hg : (running m).Grounded)
    (hstop : m.stop = none)
    (hf : m.Fetches i m₀) (hp : m₀.Paused i t m₁)
    (hstores : ∀ c, m₁.Stores i c → m₁.image.Inert c.object) :
    Meets (fun _ m' => m₁.Heeds m' ∧ m'.image.Rooted m'.context) m₁.Heeds
      (Machine.execute i m₀) := by
  obtain ⟨hm₁, hminds⟩ := hg.paused hs hstop hf hp
  have hm₀ := hf.intact hs.1
  have hstop₀ : m₀.stop = none := by
    obtain ⟨_, _, _, _, rfl⟩ := hf.eq
    exact hstop
  have hheeds := Machine.execute_heeds hm₁ hminds hm₀ hstop₀ hp.pause hstores
  exact .intro (fun _ _ heq => ⟨hheeds.ok heq, Machine.execute_rooted hm₁ hminds hp.pause
    (hheeds.ok heq) heq⟩) fun _ _ heq => hheeds.failure heq

/-- Whether the instruction fails or not. -/
theorem Step.working (hs : s.Sound) (hg : s.Grounded) (hstep : s.Step (.execute i m) t s') :
    Intact m ∧ m.Minds := by
  cases hstep with
  | execute hstop hf hp _ => exact hg.paused hs hstop hf hp
  | fail hstop hf hp _ => exact hg.paused hs hstop hf hp

end Running

/-- A step in which nothing is stored into a context or a process leaves all chains with an end. -/
theorem Step.grounded (hs : s.Sound) (hg : s.Grounded) (hstep : s.Step d t s')
    (hordinary : s.Ordinary d s') : s'.Grounded := by
  cases hstep with
  | outside hsince hschedule => exact outside_grounded hs hg hsince hschedule hordinary
  | interrupts interrupts clock => exact grounded_idle hg.image hg.enlisted
  | collect hcollect _ =>
    have h := World.collect_grounded hs hg.image hg.enlisted hcollect
    exact grounded_idle h.1 h.2
  | spawn hcontext hname hspawn => exact spawn_grounded hs hg hcontext hname hspawn hordinary
  | @dispatch w w₁ p m hdequeue hunspill =>
    obtain ⟨himage, hschedule, hp⟩ := World.dequeue_grounded hs hg.image hg.enlisted hdequeue
    have hminds := Machine.unspill_minds
      (m := .ofWorld { w₁ with schedule := { w₁.schedule with current := p } }) himage
      ⟨hschedule.runnable, hschedule.waiting, hp⟩ hunspill
    exact ⟨hminds.grounded, hminds.enlisted, by rintro _ ⟨⟩; exact hminds.rooted⟩
  | execute hstop hf hp heq =>
    obtain ⟨hheeds, hrooted⟩ := (hg.execute hs hstop hf hp hordinary).ok heq
    exact ⟨hheeds.image.grounded, hheeds.schedule, by rintro _ ⟨⟩; exact hrooted⟩
  | fail hstop hf hp heq =>
    have hheeds := (hg.execute hs hstop hf hp hordinary).failure heq
    exact grounded_failed hheeds.image.grounded hheeds.schedule
  | reject hstop hrejects =>
    obtain ⟨timer, e, htick, -, -⟩ := hrejects
    obtain ⟨_, _, rfl⟩ := Machine.tick_eq_ok htick
    exact grounded_failed hg.image hg.enlisted
  | leave hquits hsettle =>
    have hheeds := hquits.heeds hs.1 hg.minds hs.2
    obtain ⟨hspills, houtcome⟩ := hquits.spills hs.1
    have h := World.settle_grounded (Machine.intact_world hspills.intact) hheeds.image.grounded
      hheeds.schedule houtcome hsettle
    exact grounded_idle h.1 h.2
  | abort habort =>
    have h := World.abort_grounded hs hg.image hg.enlisted habort
    exact grounded_idle h.1 h.2

end Stage

/-- A world in which there is neither a context nor a process yet. -/
structure World.Unstarted (w : World) : Prop where
  schedule : w.schedule = {}
  kinds : Function.Injective w.image.kernelClass
  inert : ∀ {c x}, w.image.heap.Holds c x → w.image.Inert c.object

theorem World.Unstarted.grounded {w : World} (hw : w.Unstarted) : (Stage.idle w).Grounded := by
  refine Stage.grounded_idle ⟨hw.kinds, fun c x hc => ?_⟩ ?_
  · have hinert := hw.inert hc
    exact ⟨fun h => absurd h hinert.context, fun h => absurd h hinert.process,
      fun h => absurd h hinert.process⟩
  · rw [hw.schedule]
    exact ⟨⟨.inl rfl, .inl rfl⟩, ⟨.inl rfl, .inl rfl⟩, .inl rfl⟩

section Histories

variable {stage : Nat → Stage} {deed : Nat → Deed} {track : Nat → Track} {n k : Nat} {w : World}

theorem History.grounded_at (history : History stage deed track n) (hstart : (stage 0).Grounded)
    (hordinary : ∀ k < n, (stage k).Ordinary (deed k) (stage (k + 1))) (hk : k ≤ n) :
    (stage k).Grounded := by
  induction k with
  | zero => exact hstart
  | succ k ih =>
    have hle := Nat.le_of_succ_le hk
    exact (history.step k hk).grounded (history.sound_at hle) (ih hle) (hordinary k hk)

/-- As long as nothing is stored into contexts and processes, the chain of callers ends at every
stage: for the context that runs, also in the middle of an instruction, for those in which processes
stopped, and for all others but blank ones, whose caller is a number. -/
theorem History.chains_end (history : History stage deed track n) (hstart : stage 0 = .idle w)
    (hunstarted : w.Unstarted)
    (hordinary : ∀ k < n, (stage k).Ordinary (deed k) (stage (k + 1))) (hk : k ≤ n) :
    (∀ m, stage k = .running m → m.image.Descends m.context) ∧
      (∀ i m, k < n → deed k = .execute i m → m.image.Descends m.context) ∧
      (∀ p v, (stage k).world.image.Instance .process p →
        (stage k).heap.Holds ⟨p, Slot.Process.context⟩ v → (stage k).world.image.Descends v) ∧
      ∀ v w, (stage k).world.image.Previous v w → w.isInteger = false →
        (stage k).world.image.Descends v := by
  have hgrounded := history.grounded_at (hstart ▸ hunstarted.grounded) hordinary hk
  have hsound := history.sound_at hk
  have whole : (stage k).heap.Whole := hsound.whole
  refine ⟨fun m heq => ?_, fun i m hlt heq => ?_, fun p v hp hv => ?_, fun v w hprevious hne => ?_⟩
  · rw [heq] at whole hgrounded
    exact (hgrounded.active m rfl).descends whole
  · have hstep := history.step k hlt
    rw [heq] at hstep
    obtain ⟨hm, hminds⟩ := hstep.working hsound hgrounded
    exact hminds.rooted.descends hm.whole
  · exact (hgrounded.image.rooted_of_process hp hv).descends whole
  · refine ((hgrounded.image.rooted_or_blank hprevious).resolve_right
      fun hblank => ?_).descends whole
    rw [hprevious.2.unique hblank.tally] at hne
    simp at hne

end Histories

/-- What is outside has its context made without a caller. -/
theorem Image.newContext_admits {i i' : Image} {code receiver parent context : Value}
    {args : List Value} {home : Option Value} (hi : Intact i)
    (hkinds : Function.Injective i.kernelClass) (hcode : Sane i code) (hreceiver : Sane i receiver)
    (hargs : ∀ v ∈ args, Sane i v) (hparent : Sane i parent) (hhome : ∀ v ∈ held home, Sane i v)
    (heq : newContext code receiver args .nil parent home i = .ok context i') :
    i.Admits (fun _ => False) i' ∧ Grown (fun _ _ => False) (fun _ => True) i.heap i' ∧
      Sane i' context := by
  have hnil : Sane i .nil := Arenas.sane_nil _
  have hknown := (newContext_knows _ _ _ _ _ _ _).ok rfl heq
  have hgrown := (newContext_grown hi hcode hreceiver hargs hnil hparent hhome).ok heq
  obtain ⟨hintroduces, hheld, hcontext⟩ :=
    (newContext_introduces hi hcode hreceiver hargs hnil hparent hhome).ok heq
  refine ⟨⟨hknown, hgrown.preserves, False.elim, fun hfresh hprevious => ?_,
    fun hfresh hprocess _ hx => ?_⟩, hgrown, hheld.sane⟩
  · rcases hintroduces.introduced hprevious.2 hfresh with rfl | hw
    · exact hprevious.2.unique hheld
    · exact hw
  · rcases hintroduces.introduced hx hfresh with rfl | hnil
    · refine absurd rfl (hcontext.ne (fun k k' h => hkinds ?_) hprocess (by decide))
      rwa [kernelClass, kernelClass, hknown] at h
    · exact hnil

def forkingObjects : ImageAction Value := do
  let template ← Image.newCode .nil Slot.Code.count 0 [.loadNil] []
  Image.newCode .nil Slot.Code.count 1
    [.copyBlock 0, .storeRegister 1, .primitive2 Primitive.processFork.index.toUInt8 1] [template]

theorem forkingObjects_stable : Stable [] forkingObjects := by
  refine .bind (Image.newCode_stable (by simp) _ _ _ (by simp)) fun template => ?_
  exact Image.newCode_stable (by simp) _ _ _ (by simp)

def forkingWorld : World := .furnished forkingObjects

def forkingMethod : Value := (Machine.blankImage.furnished forkingObjects).1

def forkingContext : Value × Image :=
  forkingWorld.image.furnished (Image.newContext forkingMethod .nil [] .nil .nil none)

def forkingStage : Stage := .idle { image := forkingContext.2 }

def forkingScript : List (Deed × Stage) :=
  (forkingStage.scripted [.spawn forkingContext.1, .dispatch, .execute, .execute, .execute]).getD []

def forking : List (Deed × Stage) := (.outside fun _ => False, forkingStage) :: forkingScript

theorem forking_evaluated :
    (∀ k ∈ KernelClass.all, (forkingWorld.image.kernelClass k).toNat? = some k.index) ∧
    (∀ id ∈ [ArenaId.pointers, .leaf],
      ∀ word ∈ (forkingWorld.image.heap.arenas.starts id).toOption.getD [],
      ∀ k ∈ [KernelClass.context, .process],
        forkingWorld.image.classOf (.ofAddress ⟨id, word⟩) ≠
          .ok (forkingWorld.image.kernelClass k)) ∧
    (match Image.newContext forkingMethod .nil [] .nil .nil none forkingWorld.image with
      | .ok _ _ => true | .error _ _ => false) = true ∧
    forkingScript.length = 5 ∧
    (forkingScript.all fun row => row.1.avoids .context && row.1.avoids .process) = true ∧
    (∀ k < 5, (Deed.nth forkingScript k).move = .spawn → k = 0) ∧
    (match (Stage.idle forkingWorld).nth forking 6 with | .running _ => true | _ => false) = true ∧
    let s := (Stage.idle forkingWorld).nth forking 2
    s.heap.slot s.schedule.runnable.tail Slot.Process.context = .ok forkingContext.1 ∧
    forkingContext.1.isReference = true ∧
    s.world.image.classOf forkingContext.1 = .ok (s.world.image.kernelClass .context) ∧
    s.heap.slot forkingContext.1 Slot.Context.pc = .ok (.ofNat 0) := by
  decide +kernel

theorem forkingWorld_unstarted : forkingWorld.Unstarted := by
  obtain ⟨hindices, hstarts, -⟩ := forking_evaluated
  exact ⟨rfl, Image.kinds_of_indices hindices, Image.inert_of_starts hstarts⟩

theorem forkingContext_made :
    Image.newContext forkingMethod .nil [] .nil .nil none forkingWorld.image =
      .ok forkingContext.1 forkingContext.2 := by
  obtain ⟨-, -, hmade, -⟩ := forking_evaluated
  rw [forkingContext, Image.furnished]
  split at hmade
  · rename_i heq
    rw [heq]
  · cases hmade

theorem forkingContext_admits :
    forkingWorld.image.Admits (fun _ => False) forkingContext.2 ∧
      Grown (fun _ _ => False) (fun _ => True) forkingWorld.image.heap forkingContext.2 ∧
      Sane forkingContext.2 forkingContext.1 := by
  obtain ⟨hw, hmethod⟩ := World.furnished_intact forkingObjects_stable
  have hnil : Sane forkingWorld.image .nil := Arenas.sane_nil _
  exact Image.newContext_admits (World.image_intact hw) forkingWorld_unstarted.kinds hmethod hnil
    (by simp) hnil (by simp) forkingContext_made

theorem forking_history :
    History ((Stage.idle forkingWorld).nth forking) (Deed.nth forking) (fun _ => Eq) 6 := by
  obtain ⟨hw, -⟩ := World.furnished_intact forkingObjects_stable
  obtain ⟨-, hgrown, hcontext⟩ := forkingContext_admits
  have hnext : Intact ({ image := forkingContext.2 } : World) := World.intact_fresh hgrown.intact
  refine Stage.history_cons hw (.outside ⟨hnext, hgrown.grows, hgrown.evolves⟩ rfl) ?_
  obtain ⟨-, -, -, hlength, -⟩ := forking_evaluated
  refine Stage.history_of_script (s := forkingStage) hnext hlength fun context hmem => ?_
  obtain rfl : context = _ := by simpa using hmem
  exact hcontext

theorem forking_ordinary (k : Nat) (hk : k < 6) : ((Stage.idle forkingWorld).nth forking k).Ordinary
    (Deed.nth forking k) ((Stage.idle forkingWorld).nth forking (k + 1)) := by
  obtain ⟨-, -, -, hlength, havoids, hfirst, -, hmade, hreference, hclass, hposition⟩ :=
    forking_evaluated
  rcases k with - | k
  · exact forkingContext_admits.1
  have hdeed : (Deed.nth forkingScript k).avoids .context ∧
      (Deed.nth forkingScript k).avoids .process := by
    have hmem := List.all_eq_true.mp havoids _
      (List.getElem_mem (by omega : k < forkingScript.length))
    rwa [Stage.getElem_nth (s := forkingStage), Bool.and_eq_true] at hmem
  change Stage.Ordinary _ (Deed.nth forkingScript k) _
  cases heq : Deed.nth forkingScript k with
  | outside stores =>
    rw [heq] at hdeed
    exact nomatch hdeed.1
  | execute i m =>
    exact fun c hstores => ⟨Deed.not_instance_of_avoids hdeed.1 heq hstores,
      Deed.not_instance_of_avoids hdeed.2 heq hstores⟩
  | spawn =>
    obtain rfl := hfirst k (by omega) (by rw [heq]; rfl)
    have hsound := forking_history.sound_at (k := 2) (by decide)
    intro v hv
    obtain rfl := Except.ok.inj (hmade.symm.trans hv.slot)
    have hsane := hv.value_sane hsound.whole
    exact ⟨⟨hsane, hreference, hclass⟩, _, ⟨hsane, hposition⟩, by decide⟩
  | _ => trivial

theorem forking_chains_end :
    forkingWorld.Unstarted ∧ (∀ k < 6, ((Stage.idle forkingWorld).nth forking k).Ordinary
      (Deed.nth forking k) ((Stage.idle forkingWorld).nth forking (k + 1))) ∧
    ∃ m, (Stage.idle forkingWorld).nth forking 6 = .running m ∧ m.image.Descends m.context := by
  obtain ⟨-, -, -, -, -, -, hends, -⟩ := forking_evaluated
  have hruns := Stage.eq_running hends
  refine ⟨forkingWorld_unstarted, forking_ordinary, _, hruns, ?_⟩
  exact (forking_history.chains_end rfl forkingWorld_unstarted forking_ordinary le_rfl).1 _ hruns

/-- A program makes a process go on in an array that is its own first element. Its block is run by
another process, whose receiver is the first one. -/
def hijackingObjects : ImageAction Value := do
  let array ← Image.onHeap (Heap.allocatePointers (.ofNat KernelClass.array.index) 1)
  Image.fillSlots array 0 [array]
  let block ← Image.newCode (.ofNat KernelClass.block.index) Slot.Block.count 0
    [.loadLiteral 0, .storeInstVar Slot.Process.context.toUInt8] [array]
  let method ← Image.newCode .nil Slot.Code.count 0
    [.primitive0 Primitive.processCurrent.index.toUInt8, .storeInstVar Slot.Block.receiver.toUInt8,
      .primitive2 Primitive.processFork.index.toUInt8 0] []
  Image.newContext method block [] .nil .nil none

theorem hijackingObjects_stable : Stable [] hijackingObjects := by
  refine .bind (Image.onHeap_stable (Heap.allocatePointers_stable (by simp) _)) fun array => ?_
  refine .bind (Image.fillSlots_stable (by simp) _ (by simp)) fun _ => ?_
  refine .bind (Image.newCode_stable (by simp) _ _ _ (by simp)) fun block => ?_
  refine .bind (Image.newCode_stable (by simp) _ _ _ (by simp)) fun method => ?_
  exact Image.newContext_stable (by simp) (by simp) (by simp) (by simp) (by simp) (by simp)

def hijackedStage : Stage := .idle (.furnished hijackingObjects)

def hijacking : List (Deed × Stage) :=
  (hijackedStage.scripted [.spawn (Machine.blankImage.furnished hijackingObjects).1, .dispatch,
    .execute, .execute, .execute, .leave, .dispatch, .execute, .execute]).getD []

theorem hijacking_evaluated :
    hijacking.length = 9 ∧
    hijacking.all (·.1.avoids .context) = true ∧
    (hijackedStage.nth hijacking 9).schedule.runnable.head.isReference = true ∧
    (hijackedStage.nth hijacking 9).world.image.classOf
      (hijackedStage.nth hijacking 9).schedule.runnable.head =
      .ok ((hijackedStage.nth hijacking 9).world.image.kernelClass .process) ∧
    (hijackedStage.nth hijacking 9).heap.slot
      (hijackedStage.nth hijacking 9).schedule.runnable.head Slot.Process.context =
      .ok (.ofAddress ⟨.pointers, 2⟩) ∧
    (hijackedStage.nth hijacking 9).heap.slot (.ofAddress ⟨.pointers, 2⟩) Slot.Context.previous =
      .ok (.ofAddress ⟨.pointers, 2⟩) := by
  decide +kernel

theorem hijacking_history : History (hijackedStage.nth hijacking) (Deed.nth hijacking)
    (fun _ => Eq) 9 := by
  obtain ⟨hw, hcontext⟩ := World.furnished_intact hijackingObjects_stable
  have hs : hijackedStage.Sound := hw
  obtain ⟨hlength, -⟩ := hijacking_evaluated
  refine Stage.history_of_script hs hlength fun context hmem => ?_
  obtain rfl : context = _ := by simpa using hmem
  exact hcontext

/-- A chain need not end though nothing is stored into contexts. -/
theorem hijacked_chain_endless :
    ∃ stage deed, History stage deed (fun _ => Eq) 9 ∧ stage 0 = hijackedStage ∧
      (∀ k < 9, (∀ stores, deed k ≠ .outside stores) ∧ ∀ i m c, deed k = .execute i m →
        m.Stores i c → ¬m.image.Instance .context c.object) ∧
      ∃ p v, p = (stage 9).schedule.runnable.head ∧ (stage 9).world.image.Instance .process p ∧
        (stage 9).heap.Holds ⟨p, Slot.Process.context⟩ v ∧
        ¬∃ vs, Walks (fun v w => (stage 9).heap.Holds ⟨v, Slot.Context.previous⟩ w) v vs .nil := by
  have history := hijacking_history
  obtain ⟨hlength, havoids, hreference, hclass, hcontext, hprevious⟩ := hijacking_evaluated
  have hsound := history.sound_at le_rfl
  have hp := hsound.roots_sane _ (List.mem_cons_self)
  have hheld : Heap.Holds _ ⟨_, Slot.Process.context⟩ _ := ⟨hp, hcontext⟩
  have hself : Heap.Holds _ ⟨_, Slot.Context.previous⟩ _ :=
    ⟨hheld.value_sane hsound.whole, hprevious⟩
  refine ⟨_, _, history, rfl, fun k hk => ?_, _, _, rfl, ⟨hp, hreference, hclass⟩, hheld, ?_⟩
  · have hdeed : (Deed.nth hijacking k).avoids .context := by
      have hmem := List.all_eq_true.mp havoids _ (List.getElem_mem (hlength ▸ hk))
      rwa [Stage.getElem_nth (s := hijackedStage)] at hmem
    refine ⟨fun stores heq => ?_, fun i m c heq => Deed.not_instance_of_avoids hdeed heq⟩
    rw [heq] at hdeed
    cases hdeed
  · rintro ⟨vs, hwalks⟩
    exact Walks.not_of_cycle (fun w h => h.unique hself) (by decide) hwalks

end ObjectMachine
