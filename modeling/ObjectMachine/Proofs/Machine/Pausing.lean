import ObjectMachine.Proofs.Machine.Performance
import ObjectMachine.Proofs.Memory.Tracking

namespace ObjectMachine

section Carrying

variable {W : Licence} {t : Track}

/-- A record of a process that came to its end, with a result that moved. -/
structure Finished.Carried (t : Track) (f f' : Finished) : Prop where
  id : f'.id = f.id
  name : f'.name = f.name
  result : t f.result f'.result

structure Queue.Carried (t : Track) (q q' : Queue) : Prop where
  head : t q.head q'.head
  tail : t q.tail q'.tail

structure Schedule.Carried (t : Track) (s s' : Schedule) : Prop where
  runnable : s.runnable.Carried t s'.runnable
  waiting : s.waiting.Carried t s'.waiting
  current : t s.current s'.current
  spawned : s'.spawned = s.spawned
  finished : List.Forall₂ (Finished.Carried t) s.finished.toList s'.finished.toList

theorem Schedule.Carried.refl (s : Schedule) : s.Carried Eq s :=
  ⟨⟨rfl, rfl⟩, ⟨rfl, rfl⟩, rfl, rfl, List.forall₂_same.mpr fun _ _ => ⟨rfl, rfl, rfl⟩⟩

/-- Records are carried by carrying their results. -/
theorem Finished.carried_zipWith {records : List Finished} {results : List Value}
    (h : List.Forall₂ t (records.map (·.result)) results) :
    List.Forall₂ (Finished.Carried t) records
      (records.zipWith (fun f v => { f with result := v }) results) := by
  induction records generalizing results with
  | nil => exact .nil
  | cons f records ih =>
    cases h with
    | cons hresult hrest => exact .cons ⟨rfl, rfl, hresult⟩ (ih hrest)

theorem Schedule.withRoots_carried {s : Schedule} {values : List Value}
    (h : List.Forall₂ t s.roots values) : s.Carried t (s.withRoots values) := by
  simp only [roots, List.cons_append, List.nil_append] at h
  cases h with
  | cons hrunnable h =>
  cases h with
  | cons hlastRunnable h =>
  cases h with
  | cons hwaiting h =>
  cases h with
  | cons hlastWaiting h =>
  cases h with
  | cons hcurrent h =>
    exact ⟨⟨hrunnable, hlastRunnable⟩, ⟨hwaiting, hlastWaiting⟩, hcurrent, rfl,
      Finished.carried_zipWith h⟩

structure Image.Collects (i : Image) (s : Schedule) (t : Track) (i' : Image) (s' : Schedule) :
    Prop where
  moved : ∃ f, i.heap.Moved i'.heap (i.roots ++ s.roots) f ∧
    t = .collected i.heap.arenas (i.roots ++ s.roots) f
  schedule : s.Carried t s'

theorem Image.Collects.follows {i i' : Image} {s s' : Schedule} (hc : i.Collects s t i' s')
    (whole : i'.heap.Whole) : i.heap.Follows W t i'.heap := by
  obtain ⟨f, moved, rfl⟩ := hc.moved
  exact moved.follows whole.sound

theorem Image.Collects.spells {i i' : Image} {s s' : Schedule} {v x : Value}
    {content : Array UInt8} (hc : i.Collects s t i' s') (whole : i'.heap.Whole)
    (hv : i.heap.arenas.Sane v) (hx : t v x) (hs : i.heap.Spells v content) :
    i'.heap.Spells x content := by
  obtain ⟨f, moved, rfl⟩ := hc.moved
  obtain ⟨rfl, hreach⟩ := hx
  exact moved.spells whole.sound ⟨hv, hreach⟩ hs

theorem Image.exists_collects {i i' : Image} {s s' : Schedule} {live : Collection} (hi : Intact i)
    (hs : ∀ v ∈ s.roots, Sane i v) (heq : i.collect s = .ok (.ok live, s', i')) :
    ∃ t, i.Collects s t i' s' := by
  have hroots : ∀ v ∈ i.roots ++ s.roots, i.heap.arenas.Sane v := by
    intro v hv
    rcases List.mem_append.mp hv with hv | hv
    · exact hi.held v (List.mem_cons_of_mem _ hv)
    · exact hs v hv
  obtain ⟨heap, roots', live', f, hcollect, moved, rfl⟩ :=
    Heap.collect_isomorphic hi.whole.sound hi.whole.closed hroots
  have hcollect' : i.heap.collect (i.roots ++ s.roots) = .ok (heap, _, .ok live') := hcollect
  simp only [collect, bind, Except.bind, hcollect', List.splitAt_eq] at heq
  cases heq
  refine ⟨_, ⟨f, moved, rfl⟩, Schedule.withRoots_carried ?_⟩
  -- The roots of the schedule come after those of the image.
  have hsplit : ((i.roots ++ s.roots).drop i.symbols.size).drop i.known.size = s.roots := by
    have hsymbols : i.symbols.roots.length = i.symbols.size := by
      simp [SymbolTable.roots, SymbolTable.size]
    rw [roots, List.append_assoc, ← hsymbols, List.drop_left, ← Array.length_toList, List.drop_left]
  rw [← List.map_drop, ← List.map_drop, hsplit, List.forall₂_map_right_iff, List.forall₂_same]
  intro v hv
  exact Heap.collected_of_mem (List.mem_append_right _ hv)

end Carrying

namespace Machine

variable {m m' : Machine} {t : Track}

/-- The cells that hold the registers while objects move. -/
inductive Spilled (m : Machine) : Licence where
  | position {x : Value} : m.Spilled ⟨m.context, Slot.Context.pc⟩ x
  | context {x : Value} : m.Spilled ⟨m.process, Slot.Process.context⟩ x
  | accumulator {x : Value} : m.Spilled ⟨m.process, Slot.Process.accumulator⟩ x

structure Spills (m m' : Machine) : Prop extends
    Within m.Spilled (fun _ => False) m.image.known (· = m.schedule) m.process m.image.heap m' where
  context : m'.image.heap.Holds ⟨m.process, Slot.Process.context⟩ m.context
  accumulator : m'.image.heap.Holds ⟨m.process, Slot.Process.accumulator⟩ m.accumulator
  /-- Unless the context is taken for the process. -/
  position : m.context ≠ m.process →
    m'.image.heap.Holds ⟨m.context, Slot.Context.pc⟩ (.ofNat m.pc)
  registers : m' = { m with image := m'.image }

theorem spills_of_eq_ok {u : Unit} (hm : Intact m) (heq : spill m = .ok u m') : m.Spills m' := by
  obtain ⟨_, _, hget, heq⟩ := bind_eq_ok.mp heq
  obtain ⟨rfl, rfl⟩ := get_eq_ok.mp hget
  obtain ⟨_, m₁, h₁, heq⟩ := bind_eq_ok.mp heq
  obtain ⟨_, m₂, h₂, h₃⟩ := bind_eq_ok.mp heq
  have hsane : ∀ v ∈ [m.context, m.process, m.accumulator], Sane m v := by
    intro v hv
    simp only [List.mem_cons, List.not_mem_nil, or_false] at hv
    rcases hv with rfl | rfl | rfl <;> exact hm.held _ (by simp)
  have hstart : Within m.Spilled (fun _ => False) m.image.known (· = m.schedule) m.process
      m.image.heap m := ⟨hm.grown, rfl, rfl, rfl⟩
  have hstore : ∀ {v x : Value} {k : Nat}, v ∈ [m.context, m.process, m.accumulator] →
      (x ∈ [m.context, m.process, m.accumulator] ∨ x = .ofNat m.pc) → m.Spilled ⟨v, k⟩ x →
      Upholds (Within m.Spilled (fun _ => False) m.image.known (· = m.schedule) m.process
        m.image.heap) [m.context, m.process, m.accumulator] (setSlot v k x) := by
    intro v x k hv hx hW
    refine setSlot_upholds (trusted_of_mem hv) _ ?_ fun _ => hW
    rcases hx with hx | rfl
    · exact trusted_of_mem hx
    · exact trusted_ofNat _
  have hw₁ := hstore (by simp) (.inr rfl) .position m hstart hsane
  rw [h₁] at hw₁
  have hsane₁ : ∀ v ∈ [m.context, m.process, m.accumulator], Sane m₁ v :=
    fun v hv => hw₁.2.1.sane (hsane v hv)
  have hw₂ := hstore (x := m.context) (by simp) (.inl (by simp)) .context m₁ hw₁.1 hsane₁
  rw [h₂] at hw₂
  have hsane₂ : ∀ v ∈ [m.context, m.process, m.accumulator], Sane m₂ v :=
    fun v hv => hw₂.2.1.sane (hsane₁ v hv)
  have hw₃ := hstore (x := m.accumulator) (by simp) (.inl (by simp)) .accumulator m₂ hw₂.1 hsane₂
  rw [h₃] at hw₃
  obtain ⟨heap₁, hset₁, rfl⟩ := setSlot_eq_ok h₁
  obtain ⟨heap₂, hset₂, rfl⟩ := setSlot_eq_ok h₂
  obtain ⟨heap₃, hset₃, rfl⟩ := setSlot_eq_ok h₃
  have hwrites₁ : Heap.Rewrites m.image.heap heap₁ _ _ := hm.whole.rewrites
    (hsane m.context (by simp)) (.inr (.inl (by simp))) hset₁
  have hwrites₂ : Heap.Rewrites heap₁ heap₂ _ _ := hw₁.1.intact.whole.rewrites
    (hsane₁ m.process (by simp)) (hsane₁ m.context (by simp)) hset₂
  have hwrites₃ : Heap.Rewrites heap₂ heap₃ _ _ := hw₂.1.intact.whole.rewrites
    (hsane₂ m.process (by simp)) (hsane₂ m.accumulator (by simp)) hset₃
  exact ⟨hw₃.1, hwrites₃.others (by simp) hwrites₂.written, hwrites₃.written,
    fun hapart => hwrites₃.others (by simp) (hwrites₂.others (by simp [hapart]) hwrites₁.written),
    rfl⟩

inductive Carries (m : Machine) : Track → Machine → Prop where
  | still : m.Carries Eq m
  | collected {t : Track} {m₀ m₁ : Machine} : m.image.heap.needsCollection →
    spill m = .ok () m₀ → safepoint m = .ok () m₁ →
    m₀.image.Collects m₀.schedule t m₁.image m₁.schedule → m.Carries t m₁

structure Carried (m : Machine) (t : Track) (m' : Machine) : Prop where
  follows : m.image.heap.Follows m'.Spilled t m'.image.heap
  schedule : m.schedule.Carried t m'.schedule
  process : m'.process = m'.schedule.current
  context : t m.context m'.context
  accumulator : t m.accumulator m'.accumulator
  spells : ∀ {v x content}, Sane m v → t v x → m.image.heap.Spells v content →
    m'.image.heap.Spells x content

/-- A pause at which garbage is collected. -/
theorem safepoint_collects (hneeds : m.image.heap.needsCollection)
    (heq : safepoint m = .ok () m') : ∃ m₀ live schedule image, spill m = .ok () m₀ ∧
      m₀.image.collect m₀.schedule = .ok (.ok live, schedule, image) ∧
      unspill { m₀ with image, schedule } = .ok () m' := by
  rw [safepoint, get_bind, if_pos hneeds] at heq
  obtain ⟨_, m₀, hspill, heq⟩ := bind_eq_ok.mp heq
  obtain ⟨_, m₁, hcollect, hunspill⟩ := bind_eq_ok.mp heq
  rw [collect] at hcollect
  split at hcollect
  · cases hcollect
  · rename_i result schedule image hends
    dsimp only at hcollect
    split at hcollect
    · cases hcollect
      exact ⟨m₀, _, schedule, image, hspill, hends, hunspill⟩
    · cases hcollect

theorem schedule_roots_sane (hm : Intact m) : ∀ v ∈ m.schedule.roots, Sane m.image v := fun v hv =>
  (intact_world hm).held v (List.mem_append_right _ hv)

theorem exists_carries (hm : Intact m) (heq : safepoint m = .ok () m') :
    ∃ t, m.Carries t m' := by
  by_cases hneeds : m.image.heap.needsCollection
  · obtain ⟨m₀, live, schedule, image, hspill, hcollect, hunspill⟩ :=
      safepoint_collects hneeds heq
    have hm₀ := (spills_of_eq_ok hm hspill).intact
    obtain ⟨t, hcollects⟩ := Image.exists_collects (intact_image hm₀)
      (schedule_roots_sane hm₀) hcollect
    obtain ⟨_, _, _, _, _, _, _, _, -, -, -, -, rfl⟩ := unspill_eq_ok hunspill
    exact ⟨t, .collected hneeds hspill heq hcollects⟩
  · rw [safepoint, get_bind, if_neg hneeds] at heq
    obtain ⟨-, rfl⟩ := pure_eq_ok.mp heq
    exact ⟨Eq, .still⟩

theorem Carries.carried (hm : Intact m) (hcurrent : m.process = m.schedule.current)
    (hc : m.Carries t m') : m.Carried t m' := by
  cases hc with
  | still =>
    exact ⟨(Heap.Evolves.refl _).follows (.refl _), .refl _, hcurrent, rfl, rfl,
      fun _ hx hs => hx ▸ hs⟩
  | @collected t m₀ m' hneeds hspill heq hcollects =>
    obtain ⟨m₀', live, schedule, image, hspill', hcollect, hunspill⟩ :=
      safepoint_collects hneeds heq
    obtain rfl : m₀ = m₀' := (EStateM.Result.ok.inj (hspill.symm.trans hspill')).2
    have hspills := spills_of_eq_ok hm hspill
    obtain ⟨context, accumulator, _, _, _, _, _, _, hcontext, haccumulator, -, -, rfl⟩ :=
      unspill_eq_ok hunspill
    have whole : image.heap.Whole := by
      obtain ⟨_, _, image', hcollect', hintact, -⟩ :=
        Image.collect_intact (intact_image hspills.intact) (schedule_roots_sane hspills.intact)
      obtain ⟨-, -, rfl⟩ : _ ∧ _ ∧ image = image' := by simpa using hcollect.symm.trans hcollect'
      exact hintact.whole
    have hfollows : m₀.image.heap.Follows (fun _ _ => False) t image.heap :=
      hcollects.follows whole
    have hcurrent' : t m.process schedule.current := by
      rw [hcurrent, ← hspills.schedule]
      exact hcollects.schedule.current
    -- The registers are where they were left.
    have hregister : ∀ {k x y}, m₀.image.heap.Holds ⟨m.process, k⟩ x →
        image.heap.slot schedule.current k = .ok y → t x y := by
      intro k x y hx hy
      obtain ⟨z, hz, hmoved⟩ := hfollows.kept hcurrent' hx (fun _ h => h)
      rwa [← Except.ok.inj (hz.slot.symm.trans hy)]
    have hcontext' := hregister hspills.context hcontext
    have haccumulator' := hregister hspills.accumulator haccumulator
    refine ⟨?_, hspills.schedule ▸ hcollects.schedule, rfl, hcontext', haccumulator',
      fun hv hx hs => hcollects.spells whole (hspills.grows _ hv) hx (hspills.preserves.spells hs)⟩
    refine hspills.evolves.follows_of hspills.grows (hfollows.mono fun _ _ h => h.elim) ?_
    intro v x y z i hwritten hx hz
    cases hwritten with
    | position =>
      obtain rfl := hfollows.unique hx hcontext'
      exact .position
    | context =>
      obtain rfl := hfollows.unique hx hcurrent'
      exact .context
    | accumulator =>
      obtain rfl := hfollows.unique hx hcurrent'
      exact .accumulator

end Machine

end ObjectMachine
