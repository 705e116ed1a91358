import ObjectMachine.Proofs.Machine.Pausing

namespace ObjectMachine

namespace Heap

variable {h h' : Heap} {roots : List Value} {f : Address → Address} {v : Value}

/-- An object has at least some number of slots. -/
def Has (h : Heap) (v : Value) (count : Nat) : Prop := ∀ i < count, ∃ x, h.Holds ⟨v, i⟩ x

theorem Has.sane {count : Nat} (hv : h.Has v count) (hcount : 0 < count) : h.arenas.Sane v := by
  obtain ⟨x, hx⟩ := hv 0 hcount
  exact hx.sane

theorem Rewrites.has {c : Cell} {x : Value} {count : Nat} (hr : Rewrites h h' c x)
    (hv : h.Has v count) : h'.Has v count := by
  intro i hi
  obtain ⟨y, hy⟩ := hv i hi
  by_cases hc : (⟨v, i⟩ : Cell) = c
  · exact ⟨x, hc ▸ hr.written⟩
  · exact ⟨y, hr.others hc hy⟩

theorem Moved.has (moved : Moved h h' roots f) (sound : h'.Sound) {count : Nat}
    (hv : h.Taken roots v) (hhas : h.Has v count) : h'.Has (v.relocate f) count := by
  intro i hi
  obtain ⟨x, hx⟩ := hhas i hi
  exact ⟨_, moved.holds_of_taken sound hv hx⟩

theorem collections_of_collect {roots' : List Value} {live : Collection}
    (heq : h.collect roots = .ok (h', roots', .ok live)) :
    h'.stats.collections = h.stats.collections + 1 := by
  rw [collect] at heq
  obtain ⟨⟨source, target, roots₁⟩, -, heq⟩ := except_bind_eq_ok.mp heq
  obtain ⟨⟨source₁, target₁⟩, -, heq⟩ := except_bind_eq_ok.mp heq
  dsimp only at heq
  split at heq
  · cases heq
  · cases heq
    rfl

end Heap

/-- A collection makes of an image and a schedule what it makes of their values. -/
theorem Image.exists_moved {i : Image} {s : Schedule} (hi : Intact i)
    (hs : ∀ v ∈ s.roots, Sane i v) : ∃ live s' i' f, i.collect s = .ok (.ok live, s', i') ∧
      i.heap.Moved i'.heap (i.roots ++ s.roots) f ∧ Intact i' ∧ (∀ v ∈ s'.roots, Sane i' v) ∧
      s'.current = s.current.relocate f ∧
      i'.heap.stats.collections = i.heap.stats.collections + 1 := by
  obtain ⟨live, s', i', heq, hintact, hsane⟩ := Image.collect_intact hi hs
  obtain ⟨t, ⟨f, moved, rfl⟩, hcarried⟩ := Image.exists_collects hi hs heq
  refine ⟨live, s', i', f, heq, moved, hintact, hsane, hcarried.current.1, ?_⟩
  rw [collect] at heq
  obtain ⟨⟨heap, roots', result⟩, hcollect, heq⟩ := except_bind_eq_ok.mp heq
  cases heq
  exact Heap.collections_of_collect hcollect

namespace Machine

variable {m m' : Machine}

/-- A machine that runs the current process. Its method, literals and code are those of its context,
none of its references is stale, and what it remembers of code is not from a later time. -/
structure Consistent (m : Machine) : Prop where
  intact : Intact m
  process : m.process = m.schedule.current
  /-- The process and the context have the slots of a process and of a context. -/
  processSlots : m.image.heap.Has m.process Slot.Process.count
  contextSlots : m.image.heap.Has m.context Slot.Context.registers
  apart : m.context ≠ m.process
  method : m.image.heap.Holds ⟨m.context, Slot.Context.method⟩ m.method
  literals : m.image.heap.Holds ⟨m.method, Slot.Code.literals⟩ m.literals
  code : ∃ bytes, m.image.heap.Holds ⟨m.method, Slot.Code.bytecode⟩ bytes ∧
    m.image.heap.Spells bytes m.code
  position : m.pc < 0x1000000000000000
  epoch : m.epoch ≤ m.image.heap.stats.collections
  /-- The run goes on, or ends without an answer. -/
  unanswered : ∀ v, m.stop ≠ some (.returned v)

/-- The memory of a machine with the registers written to three cells, all else as it was. -/
structure Parked (m : Machine) (h : Heap) : Prop where
  position : h.Holds ⟨m.context, Slot.Context.pc⟩ (.ofNat m.pc)
  context : h.Holds ⟨m.process, Slot.Process.context⟩ m.context
  accumulator : h.Holds ⟨m.process, Slot.Process.accumulator⟩ m.accumulator
  others : ∀ c, c ≠ ⟨m.context, Slot.Context.pc⟩ → c ≠ ⟨m.process, Slot.Process.context⟩ →
    c ≠ ⟨m.process, Slot.Process.accumulator⟩ → ∀ x, h.Holds c x ↔ m.image.heap.Holds c x
  header : ∀ v, m.image.heap.arenas.Sane v → h.header v = m.image.heap.header v
  spells : ∀ v content, m.image.heap.Spells v content → h.Spells v content

/-- Writing the registers back. -/
theorem Consistent.spills (hm : m.Consistent) : ∃ heap,
    spill m = .ok () { m with image := { m.image with heap } } ∧ heap.Whole ∧
      m.image.heap.Grows heap ∧ m.Parked heap ∧ heap.Has m.process Slot.Process.count ∧
      heap.Has m.context Slot.Context.registers ∧
      heap.stats.collections = m.image.heap.stats.collections := by
  have hsane : ∀ {v}, v ∈ [m.process, m.context, m.method, m.literals, m.accumulator] →
      m.image.heap.arenas.Sane v := fun hv =>
    hm.intact.held _ (List.mem_append_left _ (List.mem_append_right _ hv))
  obtain ⟨x, hx⟩ := hm.contextSlots Slot.Context.pc (by decide)
  obtain ⟨h₁, hset₁, hr₁⟩ := hx.write hm.intact.whole (x := .ofNat m.pc) (.inr (.inl (by simp)))
    (ε := HeapError)
  obtain ⟨y, hy⟩ := hr₁.has hm.processSlots Slot.Process.context (by decide)
  obtain ⟨h₂, hset₂, hr₂⟩ := hy.write hr₁.whole (hr₁.grows _ (hsane (v := m.context) (by simp)))
    (ε := HeapError)
  have hgrows := hr₁.grows.trans hr₂.grows
  obtain ⟨z, hz⟩ := hr₂.has (hr₁.has hm.processSlots) Slot.Process.accumulator (by decide)
  obtain ⟨h₃, hset₃, hr₃⟩ := hz.write hr₂.whole (hgrows _ (hsane (v := m.accumulator) (by simp)))
    (ε := HeapError)
  have hspill : spill m = .ok () { m with image := { m.image with heap := h₃ } } := by
    rw [spill, get_bind]
    refine bind_eq_ok.mpr ⟨(), _, setSlot_of_eq_ok hset₁, ?_⟩
    refine bind_eq_ok.mpr ⟨(), _, setSlot_of_eq_ok hset₂, ?_⟩
    exact setSlot_of_eq_ok hset₃
  have hcollections : h₃.stats = m.image.heap.stats :=
    ((Heap.setSlot_eq_ok hset₃).1.trans (Heap.setSlot_eq_ok hset₂).1).trans
      (Heap.setSlot_eq_ok hset₁).1
  refine ⟨h₃, hspill, hr₃.whole, hgrows.trans hr₃.grows, ?_,
    hr₃.has (hr₂.has (hr₁.has hm.processSlots)), hr₃.has (hr₂.has (hr₁.has hm.contextSlots)),
    congrArg _ hcollections⟩
  refine ⟨?_, hr₃.others (by simp) hr₂.written, hr₃.written, fun c hc₁ hc₂ hc₃ x => ?_, ?_, ?_⟩
  · -- The process is not the context, so it is not the position that is overwritten.
    exact hr₃.others (by simp) (hr₂.others (by simp [hm.apart]) hr₁.written)
  · have hlater : ∀ {y}, m.image.heap.Holds c y → h₃.Holds c y :=
      fun hc => hr₃.others hc₃ (hr₂.others hc₂ (hr₁.others hc₁ hc))
    refine ⟨fun hc => ?_, hlater⟩
    obtain ⟨y₂, hy₂⟩ := hr₃.cells hc
    obtain ⟨y₁, hy₁⟩ := hr₂.cells hy₂
    obtain ⟨y, hy⟩ := hr₁.cells hy₁
    rwa [hc.unique (hlater hy)]
  · intro v hv
    exact (hr₃.header (hgrows _ hv)).trans ((hr₂.header (hr₁.grows _ hv)).trans (hr₁.header hv))
  · exact fun v content hs => hr₃.spells (hr₂.spells (hr₁.spells hs))

/-- The machine after its objects moved, with nothing remembered from before. -/
def relocated (m : Machine) (f : Address → Address) (image : Image) (schedule : Schedule)
    (cache : Std.HashMap Value (Array UInt8)) : Machine :=
  { m with
    image, schedule, cache
    process := m.process.relocate f
    context := m.context.relocate f
    method := m.method.relocate f
    literals := m.literals.relocate f
    accumulator := m.accumulator.relocate f
    epoch := image.heap.stats.collections }

section Resuming

variable {heap : Heap} {image : Image} {schedule : Schedule} {roots : List Value}
variable {f : Address → Address}

structure Reached (m : Machine) (heap : Heap) (roots : List Value) : Prop where
  process : heap.Taken roots m.process
  context : heap.Taken roots m.context
  accumulator : heap.Taken roots m.accumulator
  method : heap.Taken roots m.method
  literals : heap.Taken roots m.literals
  code : ∃ bytes, heap.Holds ⟨m.method, Slot.Code.bytecode⟩ bytes ∧ heap.Taken roots bytes ∧
    heap.Spells bytes m.code

/-- Where registers were written, method, literals and code are found as before. -/
theorem Parked.kept (hparked : m.Parked heap) {v x : Value} {i : Nat} (hi : i < Slot.Context.pc)
    (hc : m.image.heap.Holds ⟨v, i⟩ x) : heap.Holds ⟨v, i⟩ x := by
  refine (hparked.others _ ?_ ?_ ?_ x).mpr hc
  all_goals
    intro heq
    have hindex := congrArg Cell.index heq
    simp only [Slot.Context.pc, Slot.Process.context, Slot.Process.accumulator] at hi hindex
    omega

theorem Parked.reached (hparked : m.Parked heap) (hm : m.Consistent) (whole : heap.Whole)
    (hprocess : heap.Taken roots m.process) : m.Reached heap roots := by
  have hcontext := hprocess.value whole hparked.context
  have hmethod := hcontext.value whole (hparked.kept (by decide) hm.method)
  obtain ⟨bytes, hbytes, hspells⟩ := hm.code
  have hbytes' := hparked.kept (by decide) hbytes
  exact ⟨hprocess, hcontext, hprocess.value whole hparked.accumulator, hmethod,
    hmethod.value whole (hparked.kept (by decide) hm.literals), bytes, hbytes',
    hmethod.value whole hbytes', hparked.spells _ _ hspells⟩

/-- The registers are taken up where they moved to. -/
theorem Parked.resumes (hparked : m.Parked heap) (hm : m.Consistent)
    (hreached : m.Reached heap roots) (moved : heap.Moved image.heap roots f)
    (sound : image.heap.Sound) (hcurrent : schedule.current = m.process.relocate f)
    (hepoch : m.epoch < image.heap.stats.collections) :
    ∃ cache, unspill { m with image, schedule } = .ok () (m.relocated f image schedule cache) := by
  obtain ⟨bytes, hbytes, htaken, hspells⟩ := hreached.code
  have hread : ∀ {v x : Value} {i : Nat}, heap.Taken roots v → heap.Holds ⟨v, i⟩ x →
      image.heap.slot (v.relocate f) i = .ok (x.relocate f) :=
    fun hv hc => (moved.holds_of_taken sound hv hc).slot
  have hprocess : ∀ {x : Value} {i : Nat}, heap.Holds ⟨m.process, i⟩ x →
      image.heap.slot schedule.current i = .ok (x.relocate f) := fun hc => by
    rw [hcurrent]
    exact hread hreached.process hc
  obtain ⟨cache, hunspill⟩ := unspill_of_slots (m := { m with image, schedule })
    (refreshed_of_epoch hepoch) (hprocess hparked.context) (hprocess hparked.accumulator)
    (hread hreached.context (hparked.kept (by decide) hm.method))
    (hread hreached.method (hparked.kept (by decide) hm.literals))
    (hread hreached.context hparked.position) (hread hreached.method hbytes)
    (moved.spells sound htaken hspells).2
  refine ⟨cache, hunspill.trans ?_⟩
  rw [relocated, Value.relocate_ofNat, Value.toNat?_ofNat hm.position]
  simp only [hcurrent, Option.getD_some]

/-- What the machine takes up is consistent again. -/
theorem Parked.consistent (hparked : m.Parked heap) (hm : m.Consistent)
    (hreached : m.Reached heap roots) (moved : heap.Moved image.heap roots f)
    (hprocess : heap.Has m.process Slot.Process.count)
    (hcontext : heap.Has m.context Slot.Context.registers) (hintact : Intact image)
    (hschedule : ∀ v ∈ schedule.roots, Sane image v)
    (hcurrent : schedule.current = m.process.relocate f)
    (cache : Std.HashMap Value (Array UInt8)) :
    (m.relocated f image schedule cache).Consistent := by
  have sound := hintact.whole.sound
  obtain ⟨bytes, hbytes, htaken, hspells⟩ := hreached.code
  have hsane : ∀ {v : Value}, heap.Taken roots v → image.heap.arenas.Sane (v.relocate f) :=
    fun hv => (moved.follows sound (W := fun _ _ => False)).sane hv.1 ⟨rfl, hv.2⟩
  refine ⟨intact_of_registers ⟨hintact.whole, ?_⟩ ?_ ?_, hcurrent.symm,
    moved.has sound hreached.process hprocess, moved.has sound hreached.context hcontext, ?_,
    moved.holds_of_taken sound hreached.context (hparked.kept (by decide) hm.method),
    moved.holds_of_taken sound hreached.method (hparked.kept (by decide) hm.literals),
    ⟨_, moved.holds_of_taken sound hreached.method hbytes, moved.spells sound htaken hspells⟩,
    hm.position, le_refl _, hm.unanswered⟩
  · intro v hv
    rcases List.mem_append.mp hv with hv | hv
    · exact hintact.held v hv
    · exact hschedule v hv
  · intro v hv
    simp only [relocated, List.mem_cons, List.not_mem_nil, or_false] at hv
    rcases hv with rfl | rfl | rfl | rfl | rfl
    · exact hsane hreached.process
    · exact hsane hreached.context
    · exact hsane hreached.method
    · exact hsane hreached.literals
    · exact hsane hreached.accumulator
  · intro v hv
    change v ∈ held m.stop at hv
    rcases hstop : m.stop with - | outcome
    · simp [hstop, Holder.held] at hv
    · cases outcome with
      | returned x => exact absurd hstop (hm.unanswered x)
      | preempted | yielded | suspended => simp [hstop, Holder.held, RunOutcome.values] at hv
  · intro heq
    exact hm.apart (moved.injective sound hreached.context hreached.process heq)

end Resuming

/-- A pause at which garbage is collected. The registers are written to three cells, the objects in
use move, and the machine goes on with the same registers in their new places. -/
theorem safepoint_transparent (hm : m.Consistent) (hneeds : m.image.heap.needsCollection) :
    ∃ m₀ m' f, spill m = .ok () m₀ ∧ m.Parked m₀.image.heap ∧ safepoint m = .ok () m' ∧
      m₀.image.heap.Moved m'.image.heap (m.image.roots ++ m.schedule.roots) f ∧
      m'.process = m.process.relocate f ∧ m'.context = m.context.relocate f ∧
      m'.method = m.method.relocate f ∧ m'.literals = m.literals.relocate f ∧
      m'.accumulator = m.accumulator.relocate f ∧ m'.pc = m.pc ∧ m'.code = m.code ∧
      m'.Consistent := by
  obtain ⟨heap, hspill, whole, hgrows, hparked, hprocess, hcontext, hcollections⟩ := hm.spills
  have hm₀ : Intact { m with image := { m.image with heap } } :=
    ⟨whole, fun v hv => hgrows v (hm.intact.held v hv)⟩
  obtain ⟨live, schedule, image, f, hcollect, moved, hintact, hschedule, hcurrent, hcount⟩ :=
    Image.exists_moved (intact_image hm₀) (schedule_roots_sane hm₀)
  have hcurrent' : schedule.current = m.process.relocate f := by
    rw [hcurrent, hm.process]
  have htaken : heap.Taken (m.image.roots ++ m.schedule.roots) m.process := by
    refine ⟨hprocess.sane (by decide), fun loc hloc => .root ?_ hloc⟩
    rw [hm.process]
    exact List.mem_append_right _ (by simp [Schedule.roots])
  have hreached := hparked.reached hm whole htaken
  have hepoch : m.epoch < image.heap.stats.collections := by
    rw [hcount, hcollections]
    exact Nat.lt_succ_of_le hm.epoch
  obtain ⟨cache, hunspill⟩ :=
    hparked.resumes hm hreached moved hintact.whole.sound hcurrent' hepoch
  refine ⟨_, m.relocated f image schedule cache, f, hspill, hparked, ?_, moved, rfl, rfl, rfl, rfl,
    rfl, rfl, rfl,
    hparked.consistent hm hreached moved hprocess hcontext hintact hschedule hcurrent' cache⟩
  have hcollected : collect { m with image := { m.image with heap } } =
      .ok () { m with image, schedule } := by
    rw [collect, hcollect]
  rw [safepoint, get_bind, if_pos hneeds]
  exact bind_eq_ok.mpr ⟨(), _, hspill, bind_eq_ok.mpr ⟨(), _, hcollected, hunspill⟩⟩

/-- An image that asks for a collection as soon as there are objects. -/
def crowdedImage : Image :=
  { blankImage with heap := { blankImage.heap with limit := 8 } }

theorem crowdedImage_intact : Intact crowdedImage :=
  ⟨⟨⟨blankImage_intact.whole.sound.laid, blankImage_intact.whole.sound.fits,
    blankImage_intact.whole.sound.small⟩, blankImage_intact.whole.closed⟩, blankImage_intact.held⟩

/-- A process in the middle of some code, behind an object that nobody needs. -/
def pausingObjects : ImageAction Value := do
  let _ ← Image.onHeap (Heap.allocatePointers .nil 1)
  let bytecode ← Image.onHeap (Heap.allocateBytes .nil (encodeAll [.loadNil, .return_]).toArray)
  let literals ← Image.onHeap (Heap.allocatePointers .nil 1)
  let code ← Image.onHeap (Heap.allocatePointers .nil Slot.Code.count)
  let context ← Image.onHeap (Heap.allocatePointers .nil Slot.Context.registers)
  let process ← Image.onHeap (Heap.allocatePointers .nil Slot.Process.count)
  Image.fillSlots code 0 [bytecode, literals]
  Image.fillSlots context Slot.Context.method [code]
  Image.fillSlots process Slot.Process.context [context]
  return process

theorem pausingObjects_stable : Stable [] pausingObjects := by
  refine .bind (Image.onHeap_stable (Heap.allocatePointers_stable (by simp) _)) fun _ => ?_
  refine .bind (Image.onHeap_stable (Heap.allocateBytes_stable (by simp) _)) fun bytecode => ?_
  refine .bind (Image.onHeap_stable (Heap.allocatePointers_stable (by simp) _)) fun literals => ?_
  refine .bind (Image.onHeap_stable (Heap.allocatePointers_stable (by simp) _)) fun code => ?_
  refine .bind (Image.onHeap_stable (Heap.allocatePointers_stable (by simp) _)) fun context => ?_
  refine .bind (Image.onHeap_stable (Heap.allocatePointers_stable (by simp) _)) fun process => ?_
  refine .bind (Image.fillSlots_stable (by simp) _ (by simp)) fun _ => ?_
  refine .bind (Image.fillSlots_stable (by simp) _ (by simp)) fun _ => ?_
  refine .bind (Image.fillSlots_stable (by simp) _ (by simp)) fun _ => ?_
  exact .pure (by simp)

@[irreducible]
def engaged (start : Image) (make : ImageAction Value) (registers : Machine) : Machine :=
  match make start with
  | .ok process image => { registers with image, schedule := { current := process }, process }
  | .error _ _ => { registers with image := start, schedule := {}, process := .nil }

theorem engaged_made {start : Image} {make : ImageAction Value} {registers : Machine}
    (hstart : Intact start) (hmake : Stable [] make) :
    Intact (engaged start make registers).image ∧
      Sane (engaged start make registers).image (engaged start make registers).process ∧
      (engaged start make registers).schedule =
        { current := (engaged start make registers).process } ∧
      (engaged start make registers).epoch = registers.epoch ∧
      (engaged start make registers).stop = registers.stop := by
  have hmade := hmake start hstart (by simp)
  rw [engaged]
  split
  · rename_i p image heq
    rw [heq] at hmade
    exact ⟨hmade.1, hmade.2.2 p (by simp), rfl, rfl, rfl⟩
  · exact ⟨hstart, Arenas.sane_nil _, rfl, rfl, rfl⟩

def pausingMachine : Machine :=
  engaged crowdedImage pausingObjects
    { image := crowdedImage
      context := .ofAddress ⟨.pointers, 18⟩
      method := .ofAddress ⟨.pointers, 8⟩
      literals := .ofAddress ⟨.pointers, 5⟩
      code := (encodeAll [.loadNil, .return_]).toArray
      pc := 1
      accumulator := .ofAddress ⟨.pointers, 8⟩ }

theorem pausingMachine_slots : (∀ i < Slot.Process.count,
      (pausingMachine.image.heap.slot pausingMachine.process i).isOk = true) ∧
    ∀ i < Slot.Context.registers,
      (pausingMachine.image.heap.slot pausingMachine.context i).isOk = true := by
  decide +kernel

theorem pausingMachine_reads :
    pausingMachine.image.heap.slot pausingMachine.process Slot.Process.context =
      .ok pausingMachine.context ∧
    pausingMachine.image.heap.slot pausingMachine.context Slot.Context.method =
      .ok pausingMachine.method ∧
    pausingMachine.image.heap.slot pausingMachine.method Slot.Code.literals =
      .ok pausingMachine.literals ∧
    pausingMachine.image.heap.slot pausingMachine.method Slot.Code.bytecode =
      .ok (.ofAddress ⟨.leaf, 2⟩) ∧
    pausingMachine.image.heap.bytes (.ofAddress ⟨.leaf, 2⟩) = .ok pausingMachine.code ∧
    pausingMachine.accumulator = pausingMachine.method ∧ pausingMachine.pc = 1 ∧
    pausingMachine.context ≠ pausingMachine.process := by
  decide +kernel

theorem pausingMachine_consistent : pausingMachine.Consistent := by
  obtain ⟨himage, hprocess, hschedule, hepoch, hstop⟩ :
      Intact pausingMachine.image ∧ Sane pausingMachine.image pausingMachine.process ∧
        pausingMachine.schedule = { current := pausingMachine.process } ∧
        pausingMachine.epoch = 0 ∧ pausingMachine.stop = none :=
    engaged_made crowdedImage_intact pausingObjects_stable
  obtain ⟨hcontext, hmethod, hliterals, hbytecode, hbytes, haccumulator, hpc, hapart⟩ :=
    pausingMachine_reads
  have hread : ∀ {v x : Value} {i : Nat}, pausingMachine.image.heap.arenas.Sane v →
      pausingMachine.image.heap.slot v i = .ok x → pausingMachine.image.heap.Holds ⟨v, i⟩ x :=
    fun hv hx => ⟨hv, hx⟩
  have hhas : ∀ {v : Value} {count : Nat}, pausingMachine.image.heap.arenas.Sane v →
      (∀ i < count, (pausingMachine.image.heap.slot v i).isOk = true) →
      pausingMachine.image.heap.Has v count := by
    intro v count hv hslots i hi
    have := hslots i hi
    cases hx : pausingMachine.image.heap.slot v i with
    | ok x => exact ⟨x, hv, hx⟩
    | error f => simp [hx, Except.isOk, Except.toBool] at this
  have hsane := himage.whole.slot hprocess hcontext
  have hsane_method := himage.whole.slot hsane hmethod
  refine ⟨intact_of_registers ⟨himage.whole, ?_⟩ ?_ (by simp [hstop, Holder.held]),
    by rw [hschedule], hhas hprocess pausingMachine_slots.1, hhas hsane pausingMachine_slots.2,
    hapart, hread hsane hmethod, hread hsane_method hliterals,
    ⟨_, hread hsane_method hbytecode, ⟨2, by decide⟩, hbytes⟩, by omega, by omega, by simp [hstop]⟩
  · intro v hv
    rcases List.mem_append.mp hv with hv | hv
    · exact himage.held v hv
    · rw [hschedule] at hv
      obtain rfl | rfl : v = .nil ∨ v = pausingMachine.process := by
        simpa [Schedule.roots, or_comm] using hv
      · exact Arenas.sane_nil _
      · exact hprocess
  · intro v hv
    rw [haccumulator] at hv
    simp only [List.mem_cons, List.not_mem_nil, or_false] at hv
    rcases hv with rfl | rfl | rfl | rfl | rfl
    · exact hprocess
    · exact hsane
    · exact hsane_method
    · exact himage.whole.slot hsane_method hliterals
    · exact hsane_method

theorem safepoint_transparent_pausing :
    pausingMachine.Consistent ∧ pausingMachine.image.heap.needsCollection ∧
    ∃ m₀ m' f, spill pausingMachine = .ok () m₀ ∧ pausingMachine.Parked m₀.image.heap ∧
      safepoint pausingMachine = .ok () m' ∧
      m₀.image.heap.Moved m'.image.heap
        (pausingMachine.image.roots ++ pausingMachine.schedule.roots) f ∧
      m'.context = pausingMachine.context.relocate f ∧ m'.pc = 1 ∧
      m'.code = pausingMachine.code ∧ m'.Consistent := by
  have hneeds : pausingMachine.image.heap.needsCollection := by decide +kernel
  obtain ⟨m₀, m', f, hspill, hparked, heq, moved, -, hcontext, -, -, -, hpc, hcode, hm⟩ :=
    safepoint_transparent pausingMachine_consistent hneeds
  exact ⟨pausingMachine_consistent, hneeds, m₀, m', f, hspill, hparked, heq, moved, hcontext,
    hpc.trans (by decide +kernel), hcode, hm⟩

end Machine

end ObjectMachine
