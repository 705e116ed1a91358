import ObjectMachine.Proofs.Image.Retention
import ObjectMachine.Proofs.Machine.Framing
import ObjectMachine.Proofs.Machine.Window

namespace ObjectMachine

/-- An object that has a slot has as many slots as that. -/
theorem Heap.Holds.has {h : Heap} {v x : Value} {k count : Nat} (hc : h.Holds ⟨v, k⟩ x)
    (whole : h.Whole) (hcount : count ≤ k + 1) : h.Has v count := fun _ hj =>
  hc.before whole (Nat.le_of_lt_succ (hj.trans_le hcount))

theorem Schedule.current_withRoots (s : Schedule) (g : Value → Value) :
    (s.withRoots (s.roots.map g)).current = g s.current := rfl

theorem Image.Relocates.collections {f : Address → Address} {s : Schedule} {i i' : Image}
    (hrel : Image.Relocates f s i i') :
    i'.heap.stats.collections = i.heap.stats.collections + 1 := by
  obtain ⟨live, hcollect⟩ := hrel.collected
  rw [Image.collect] at hcollect
  obtain ⟨⟨heap, roots', result⟩, hheap, heq⟩ := except_bind_eq_ok.mp hcollect
  have hpair := Except.ok.inj heq
  have hlive : result = .ok live := congrArg Prod.fst hpair
  have himage : heap = i'.heap := congrArg (fun p => p.2.2.heap) hpair
  subst hlive himage
  exact Heap.collections_of_collect hheap

theorem Image.Retains.refl {i : Image} {written : Cell → Prop} (hi : Intact i) :
    i.Retains written (.still i.heap) i :=
  ⟨(Heap.Builds.refl hi.whole).retains hi.whole, fun k => ⟨rfl, hi.held _ (i.get_mem_values k)⟩⟩

namespace Machine

variable {m m' m₁ : Machine} {W : Licence} {F : Value → Prop} {K : Array Value}
  {S : Schedule → Prop} {p : Value} {code : Array UInt8} {constants : List Value} {w : Window}
  {i : Instruction}

/-- Nothing moves but for what is written to. -/
theorem Within.retains (hm' : Within W F m.image.known S p m.image.heap m') (hm : Intact m) :
    m.image.Retains (fun c => ∃ x, W c x) (.still m.image.heap) m'.image where
  heap := Heap.Builds.retains
    ⟨⟨hm'.intact.whole, hm'.grows,
      fun hfree hold => hm'.evolves.holds hold fun x hx => absurd ⟨x, hx⟩ hfree,
      hm'.preserves.header⟩, hm'.preserves.spells⟩ hm.whole
  known k := by
    refine ⟨?_, (intact_image hm).held _ (m.image.get_mem_values k)⟩
    rw [Image.get, Image.get, hm'.known]

structure Ready (m : Machine) : Prop extends Consistent m where
  recalls : m.Recalls
  kinds : Function.Injective m.image.kernelClass
  inContext : m.image.Instance .context m.context
  inProcess : m.image.Instance .process m.process
  running : m.stop = none
  calm : m.interrupts.pending = false

structure Works (m : Machine) (code : Array UInt8) (constants : List Value) (w : Window) :
    Prop where
  ready : m.Ready
  hosts : m.image.heap.Hosts m.context code constants
  pc : m.pc = w.pc
  accumulator : m.accumulator = w.accumulator
  registers : m.image.heap.Row m.context Slot.Context.registers w.registers

/-- The code that a context runs is the code in the registers. -/
theorem Consistent.hosted (hm : m.Consistent) (hh : m.image.heap.Hosts m.context code constants) :
    m.code = code ∧ m.image.heap.Row m.literals 0 constants := by
  obtain ⟨method, table, bytes, hmethod, htable, hbytes, hspells, hrow⟩ := hh.frame
  obtain rfl := hmethod.unique hm.method
  obtain rfl := htable.unique hm.literals
  obtain ⟨bytes', hbytes', hspells'⟩ := hm.code
  obtain rfl := hbytes.unique hbytes'
  exact ⟨Except.ok.inj (hspells'.2.symm.trans hspells.2), hrow⟩

theorem Works.code_eq (h : m.Works code constants w) : m.code = code :=
  (h.ready.toConsistent.hosted h.hosts).1

theorem Works.literals (h : m.Works code constants w) : m.image.heap.Row m.literals 0 constants :=
  (h.ready.toConsistent.hosted h.hosts).2

/-- A machine that wrote its registers back and took them up again, with the track of what became
of its objects. -/
structure Rejoins (m : Machine) (t : Track) (m₁ : Machine) : Prop where
  retains : m.image.Retains (fun c => ∃ x, m.Spilled c x) t m₁.image
  context : t m.context m₁.context
  process : t m.process m₁.process
  accumulator : t m.accumulator m₁.accumulator
  pc : m₁.pc = m.pc

theorem Spilled.index {c : Cell} {x : Value} (hc : m.Spilled c x) :
    c.index = 3 ∨ c.object = m.process ∧ c.index = 4 := by
  cases hc with
  | position | context => exact .inl rfl
  | accumulator => exact .inr ⟨rfl, rfl⟩

theorem Spilled.object {c : Cell} {x : Value} (hc : m.Spilled c x) :
    c.object = m.context ∨ c.object = m.process := by
  cases hc with
  | position => exact .inl rfl
  | context | accumulator => exact .inr rfl

theorem Spilled.low (v : Value) {k : Nat} (hk : k < 3) : ¬∃ x, m.Spilled ⟨v, k⟩ x := by
  rintro ⟨x, hx⟩
  have := hx.index
  simp only at this
  omega

/-- The registers of the activation are not among the cells that are written to. -/
theorem Spilled.high (k : Nat) :
    ¬∃ x, m.Spilled ⟨m.context, Slot.Context.registers + k⟩ x := by
  rintro ⟨x, hx⟩
  rcases hx.index with hindex | ⟨-, hindex⟩
  all_goals
    simp only [Slot.Context.registers] at hindex
    omega

/-- The registers are written to a context and a process. -/
theorem Ready.transient (h : m.Ready) {c : Cell} (hc : ∃ x, m.Spilled c x) :
    m.image.Transient c := by
  obtain ⟨x, hx⟩ := hc
  cases hx with
  | position => exact ⟨Nat.le_refl _, fun hinert => hinert.context h.inContext⟩
  | context => exact ⟨Nat.le_refl _, fun hinert => hinert.process h.inProcess⟩
  | accumulator => exact ⟨Nat.le_succ 3, fun hinert => hinert.process h.inProcess⟩

theorem Ready.rejoins_self (h : m.Ready) : m.Rejoins (.still m.image.heap) m := by
  have hsane : ∀ {v}, v ∈ [m.process, m.context, m.method, m.literals, m.accumulator] →
      m.image.heap.arenas.Sane v := fun hv =>
    h.intact.held _ (List.mem_append_left _ (List.mem_append_right _ hv))
  exact ⟨.refl (intact_image h.intact), ⟨rfl, hsane (by simp)⟩, ⟨rfl, hsane (by simp)⟩,
    ⟨rfl, hsane (by simp)⟩, rfl⟩

/-- A pause leaves a machine as ready as it was. -/
theorem Ready.safepoint (h : m.Ready) : ∃ t m₁, safepoint m = .ok () m₁ ∧ m.Rejoins t m₁ ∧
    m₁.Ready := by
  by_cases hneeds : m.image.heap.needsCollection
  swap
  · refine ⟨_, m, ?_, h.rejoins_self, h⟩
    rw [Machine.safepoint, get_bind, if_neg hneeds]
    rfl
  obtain ⟨heap, hspill, whole, hgrows, hparked, hprocess, hcontext, hcollections⟩ :=
    h.toConsistent.spills
  have hspills := spills_of_eq_ok h.intact hspill
  have hroots := schedule_roots_sane hspills.intact
  obtain ⟨f, image, hrel⟩ := Image.exists_relocates (intact_image hspills.intact) hroots
  obtain ⟨live, hcollect⟩ := hrel.collected
  have hintact := hrel.intact (intact_image hspills.intact) hroots
  have hschedule : ∀ v ∈ (m.schedule.withRoots (m.schedule.roots.map (Value.relocate f))).roots,
      Sane image v := by
    obtain ⟨_, _, _, hcollect', -, hsane⟩ :=
      Image.collect_intact (intact_image hspills.intact) hroots
    obtain ⟨-, rfl, rfl⟩ : _ ∧ _ = _ ∧ image = _ := by
      simpa using hcollect.symm.trans hcollect'
    exact hsane
  have hcurrent : (m.schedule.withRoots (m.schedule.roots.map (Value.relocate f))).current =
      m.process.relocate f := by
    rw [Schedule.current_withRoots, h.process]
  have htaken : heap.Taken (m.image.roots ++ m.schedule.roots) m.process := by
    refine ⟨hprocess.sane (by decide), fun loc hloc => .root ?_ hloc⟩
    rw [h.process]
    exact List.mem_append_right _ (by simp [Schedule.roots])
  have hreached := hparked.reached h.toConsistent whole htaken
  have hepoch : m.epoch < image.heap.stats.collections := by
    rw [hrel.collections, hcollections]
    exact Nat.lt_succ_of_le h.epoch
  obtain ⟨cache, hunspill⟩ :=
    hparked.resumes h.toConsistent hreached hrel.moved hintact.whole.sound hcurrent hepoch
  have hcollected : collect { m with image := { m.image with heap } } = .ok () { m with
      image, schedule := m.schedule.withRoots (m.schedule.roots.map (Value.relocate f)) } := by
    rw [collect, hcollect]
  have heq : Machine.safepoint m = .ok () (m.relocated f image
      (m.schedule.withRoots (m.schedule.roots.map (Value.relocate f))) cache) := by
    rw [Machine.safepoint, get_bind, if_pos hneeds]
    exact bind_eq_ok.mpr ⟨(), _, hspill, bind_eq_ok.mpr ⟨(), _, hcollected, hunspill⟩⟩
  have hconsistent := hparked.consistent h.toConsistent hreached hrel.moved hprocess hcontext
    hintact hschedule hcurrent cache
  -- The registers are written back where they are, and then everything moves.
  have hmoved : Image.Retains (fun _ => False) (.taken heap (m.image.roots ++ m.schedule.roots) f)
      { m.image with heap } image :=
    ⟨hrel.moved.retains whole hintact.whole, fun k => ⟨hrel.get k,
      Image.taken_of_values (intact_image hspills.intact) (Image.get_mem_values _ k)⟩⟩
  have hretains := (hspills.toWithin.retains h.intact).after hmoved fun _ hnot => hnot.elim
  have htrack : ∀ {v}, v ∈ [m.process, m.context, m.method, m.literals, m.accumulator] →
      heap.Taken (m.image.roots ++ m.schedule.roots) v →
      Track.after (.taken heap (m.image.roots ++ m.schedule.roots) f) (.still m.image.heap) v
        (v.relocate f) := fun hv hmoved =>
    ⟨_, ⟨rfl, h.intact.held _ (List.mem_append_left _ (List.mem_append_right _ hv))⟩, rfl, hmoved⟩
  have hresumes : m.Rejoins _ (m.relocated f image
      (m.schedule.withRoots (m.schedule.roots.map (Value.relocate f))) cache) :=
    ⟨hretains, htrack (by simp) hreached.context, htrack (by simp) hreached.process,
      htrack (by simp) hreached.accumulator, rfl⟩
  have hrecalls := (safepoint_reloads h.intact hconsistent.intact h.recalls heq).1
  exact ⟨_, _, heq, hresumes, hconsistent, hrecalls, hretains.kinds h.kinds,
    (hretains.instance_iff h.intact.whole hresumes.context).mpr h.inContext,
    (hretains.instance_iff h.intact.whole hresumes.process).mpr h.inProcess, h.running, h.calm⟩

/-- An activation goes on after a pause where it paused. -/
theorem Works.resume (h : m.Works code constants w) (hlength : constants.length ≤ 3) {t : Track}
    (hr : m.Rejoins t m₁) (hm₁ : m₁.Ready) : ∃ constants' w', m₁.Works code constants' w' ∧
      w'.pc = w.pc ∧ t w.accumulator w'.accumulator ∧ List.Forall₂ t constants constants' ∧
      List.Forall₂ t w.registers w'.registers := by
  obtain ⟨constants', hcc, hhosts⟩ :=
    hr.retains.heap.hosts hr.context (fun u _ hk => Spilled.low u hk) hlength h.hosts
  obtain ⟨registers', hrr, hrow⟩ :=
    hr.retains.heap.row hr.context (fun k _ => Spilled.high k) h.registers
  exact ⟨constants', ⟨w.pc, m₁.accumulator, registers'⟩, ⟨hm₁, hhosts, hr.pc.trans h.pc, rfl, hrow⟩,
    rfl, h.accumulator ▸ hr.accumulator, hcc, hrr⟩

/-- A constant is read after a pause as before. -/
theorem Rejoins.literal (h : m.Ready) {t : Track} (hr : m.Rejoins t m₁) (hm₁ : m₁.Ready)
    {k : Nat} {x : Value} (hk : m.image.Inert m.literals ∨ k < 3)
    (hx : m.image.heap.Holds ⟨m.literals, k⟩ x) :
    ∃ y, m₁.image.heap.Holds ⟨m₁.literals, k⟩ y ∧ t x y := by
  obtain ⟨method, hmethod, hmm⟩ :=
    hr.retains.heap.kept hr.context h.method (Spilled.low _ (by decide))
  obtain rfl := hmethod.unique hm₁.method
  obtain ⟨literals, hliterals, hll⟩ :=
    hr.retains.heap.kept hmm h.literals (Spilled.low _ (by decide))
  obtain rfl := hliterals.unique hm₁.literals
  refine hr.retains.heap.kept hll hx fun hc => ?_
  rcases hk with hinert | hk
  · exact Image.Transient.inert hinert (h.transient hc)
  · exact Image.Transient.low hk (h.transient hc)

section Executing

variable (hm : m.Ready) (hp : m.Pause i m₁) (hm₁ : m₁.Ready) (heq : execute i m = .ok () m')
include hm hp hm₁ heq

omit hm₁ in
/-- What an instruction that delivers has done since its pause. -/
theorem Ready.continues : m₁.Continues i m' := by
  rcases execute_performs hm.intact hm.running i with ⟨f, m₂, hfault⟩ | ⟨m₂, hp₂, -, hleaves⟩
  · cases heq.symm.trans hfault
  · obtain rfl := hp.unique hp₂
    rw [heq] at hleaves
    exact hleaves.1

theorem Ready.retains_executed :
    m₁.image.Retains (fun c => ∃ x, m₁.Writes i c x) (.still m₁.image.heap) m'.image :=
  Within.retains (hm.continues hp heq) hm₁.intact

/-- The machine is ready again if it is in a context that runs code, and no code was replaced. -/
theorem Ready.executed (hwrites : ∀ c x, m₁.Writes i c x → 3 ≤ c.index)
    (hschedule : ¬m₁.Schedules i) (hhosts : m'.image.heap.Hosts m'.context code constants)
    (hcontext : m'.image.Instance .context m'.context)
    (hself : ∃ x, m'.image.heap.Holds ⟨m'.context, Slot.Context.registers⟩ x)
    (hpc : m'.pc < 0x1000000000000000) (hstop : m'.stop = none)
    (hcalm : m'.interrupts.pending = false) : m'.Ready := by
  have hcontinues := hm.continues hp heq
  have hretains := hm.retains_executed hp hm₁ heq
  obtain ⟨hrecalls, hframe⟩ := (execute_lands hp heq).reloads hcontinues hm₁.recalls
  have hframed : m'.Framed := by
    rcases hframe with hkept | hloaded
    · have hframed₁ : m₁.Framed :=
        ⟨hm₁.method, hm₁.literals, hm₁.code.imp fun _ h => ⟨h.1, fun _ => h.2⟩⟩
      refine hkept.framed hframed₁ fun c x hc hx => ?_
      have hindex := hwrites c x hx
      cases hc with
      | method | literals | bytecode =>
        simp only [Slot.Context.method, Slot.Code.literals, Slot.Code.bytecode] at hindex
        omega
    · exact hloaded.framed
  have hcode : ∃ bytes, m'.image.heap.Holds ⟨m'.method, Slot.Code.bytecode⟩ bytes ∧
      m'.image.heap.Spells bytes m'.code := by
    obtain ⟨method, table, bytes, hmethod, -, hbytes, hspells, -⟩ := hhosts.frame
    obtain rfl := hmethod.unique hframed.method
    obtain ⟨bytes', hbytes', hleaf⟩ := hframed.code
    obtain rfl := hbytes.unique hbytes'
    exact ⟨bytes, hbytes', hleaf hspells.1⟩
  have hsame : m'.schedule = m₁.schedule := hcontinues.schedule.2.resolve_left hschedule
  have hprocess : m'.process = m₁.process := hcontinues.process
  have hinProcess : m'.image.Instance .process m'.process :=
    (hretains.instance_iff hm₁.intact.whole ⟨hprocess, hm₁.inProcess.sane⟩).mpr hm₁.inProcess
  have hkinds := hretains.kinds hm₁.kinds
  obtain ⟨x, hx⟩ := hself
  refine ⟨⟨hcontinues.intact, by rw [hprocess, hsame, hm₁.process], fun k hk => ?_,
    hx.has hcontinues.intact.whole (by decide), hcontext.ne hkinds hinProcess (by decide),
    hframed.method, hframed.literals, hcode, hpc, hrecalls.epoch, by simp [hstop]⟩,
    hrecalls, hkinds, hcontext, hinProcess, hstop, hcalm⟩
  obtain ⟨y, hy⟩ := hm₁.processSlots k hk
  obtain ⟨z, hz, -⟩ := hcontinues.evolves _ y hy
  exact ⟨z, hprocess ▸ hz⟩

end Executing

end Machine

end ObjectMachine
