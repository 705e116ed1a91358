import ObjectMachine.Proofs.Machine.Pausing
import ObjectMachine.Proofs.Scheduling.Answering
import ObjectMachine.Proofs.Scheduling.Session

namespace ObjectMachine.World

variable {W : Licence} {F : Value → Prop} {base : Heap} {known : List Value} {w w' : World}
  {p : Value}

section Steps

variable {α : Type} [Holder α]

theorem grown_of_image {image : Image} (hw : Grown W F base w) (hi : Grown W F base image)
    (hgrows : Grows w { w with image }) : Grown W F base { w with image } := by
  refine ⟨⟨⟨hi.intact.whole, fun v hv => ?_⟩, hi.grows, hi.evolves⟩, hi.preserves,
    hi.instantiates⟩
  rcases List.mem_append.mp hv with hv | hv
  · exact hi.intact.held v hv
  · exact hgrows.sane (hw.intact.held v (List.mem_append_right _ hv))

theorem grown_image (hw : Grown W F base w) : Grown W F base w.image :=
  ⟨⟨World.image_intact hw.intact, hw.grows, hw.evolves⟩, hw.preserves, hw.instantiates⟩

theorem grown_of_schedule {schedule : Schedule} (hw : Grown W F base w)
    (hs : ∀ v ∈ held schedule, Sane w v) : Grown W F base { w with schedule } := by
  refine ⟨⟨⟨hw.intact.whole, fun v hv => ?_⟩, hw.grows, hw.evolves⟩, hw.preserves,
    hw.instantiates⟩
  rcases List.mem_append.mp hv with hv | hv
  · exact hw.intact.held v (List.mem_append_left _ hv)
  · exact hs v hv

theorem schedule_sane (hw : Intact w) : ∀ v ∈ held w.schedule, Sane w.image v :=
  fun v hv => hw.held v (List.mem_append_right _ hv)

theorem onImage_leaves {act : ImageAction α} (hw : Grown W F base w)
    (hact : Leaves (Grown W F base) w.image (act w.image)) :
    Leaves (Grown W F base) w (onImage act w) := by
  refine .within World.image (fun w image => { w with image }) id hact ?_ rfl (fun _ => rfl)
    fun image hi hgrows => grown_of_image hw hi hgrows
  rw [onImage]
  cases act w.image with
  | ok a i => rfl
  | error e i => cases e <;> rfl

omit [Holder α] in
theorem onHeap_eq_ok {act : Action HeapError Heap α} {a : α} (heq : onHeap act w = .ok a w') :
    ∃ heap, act w.image.heap = .ok a heap ∧ w' = { w with image := { w.image with heap } } := by
  obtain ⟨image, himage, rfl⟩ := onImage_eq_ok.mp heq
  obtain ⟨heap, hact, rfl⟩ := Image.onHeap_eq_ok.mp himage
  exact ⟨heap, hact, rfl⟩

omit [Holder α] in
theorem onSchedule_eq_ok {act : Schedule → ImageAction (α × Schedule)} {a : α}
    (heq : onSchedule act w = .ok a w') : ∃ image schedule,
      act w.schedule w.image = .ok (a, schedule) image ∧ w' = { w with image, schedule } := by
  rw [onSchedule, get_bind] at heq
  obtain ⟨⟨_, schedule⟩, w₁, hact, heq⟩ := bind_eq_ok.mp heq
  obtain ⟨_, w₂, hset, heq⟩ := bind_eq_ok.mp heq
  obtain rfl := modify_eq_ok.mp hset
  obtain ⟨rfl, rfl⟩ := pure_eq_ok.mp heq
  obtain ⟨image, hmade, rfl⟩ := onImage_eq_ok.mp hact
  exact ⟨image, schedule, hmade, rfl⟩

theorem onHeap_upholds {act : Action HeapError Heap α} (hact : Upholds (Grown W F base) known act) :
    Upholds (Grown W F base) known (onHeap act) :=
  fun w hw hknown => onImage_leaves hw (Image.onHeap_upholds hact w.image (grown_image hw) hknown)

theorem onSchedule_leaves {act : Schedule → ImageAction (α × Schedule)} (hw : Grown W F base w)
    (hact : Leaves (Grown W F base) w.image (act w.schedule w.image)) :
    Leaves (Grown W F base) w (onSchedule act w) := by
  rw [onSchedule, get_bind]
  refine .bind (onImage_leaves hw hact) fun delivered w' _ hw' _ hsane => ?_
  obtain ⟨a, schedule⟩ := delivered
  exact ⟨grown_of_schedule hw' fun v hv => hsane v (List.mem_append_right _ hv), fun _ hv => hv,
    fun v hv => hsane v (List.mem_append_left _ hv)⟩

end Steps

theorem dequeue_eq_ok {taken : Option Value} (heq : dequeue w = .ok taken w') :
    ∃ heap runnable, w.schedule.runnable.dequeue (ε := HeapError) w.image.heap =
      .ok (taken, runnable) heap ∧ w' = { w with
        image := { w.image with heap }, schedule := { w.schedule with runnable } } := by
  obtain ⟨image, schedule, hact, rfl⟩ := onSchedule_eq_ok heq
  obtain ⟨⟨p, runnable⟩, i, hqueue, heq⟩ := bind_eq_ok.mp hact
  obtain ⟨hpair, rfl⟩ := pure_eq_ok.mp heq
  obtain ⟨rfl, rfl⟩ := Prod.mk.inj hpair
  obtain ⟨heap, hdequeue, rfl⟩ := Image.onHeap_eq_ok.mp hqueue
  exact ⟨heap, runnable, hdequeue, rfl⟩

/-- Taking the first process off the queue unlinks it, and no more. -/
theorem dequeue_rewrites (hw : Intact w) (heq : dequeue w = .ok (some p) w') :
    p = w.schedule.runnable.head ∧
      Heap.Rewrites w.image.heap w'.image.heap ⟨p, Slot.Process.link⟩ .nil := by
  obtain ⟨heap, runnable, htaken, rfl⟩ := dequeue_eq_ok heq
  obtain ⟨rfl, -, next, -, hset, -⟩ := Queue.dequeue_eq_some htaken
  have whole : w.image.heap.Whole := hw.whole
  have hhead : w.image.heap.arenas.Sane w.schedule.runnable.head :=
    hw.held _ (by simp [Schedule.roots])
  exact ⟨rfl, whole.rewrites hhead (Arenas.sane_nil _) hset⟩

section Unfailing

variable {α : Type}

theorem onImage_unfailing {act : ImageAction α} (hact : act.Unfailing) :
    (onImage act).Unfailing := by
  intro w cause w' heq
  rw [onImage] at heq
  split at heq
  · cases heq
  · rename_i hstop
    cases heq
    exact hact _ cause _ hstop

theorem onHeap_unfailing {act : Action HeapError Heap α} (hact : act.Unfailing) :
    (onHeap act).Unfailing := onImage_unfailing (Image.onHeap_unfailing hact)

theorem onSchedule_unfailing {act : Schedule → ImageAction (α × Schedule)}
    (hact : ∀ s, (act s).Unfailing) : (onSchedule act).Unfailing :=
  .bind .get fun _ => .bind (onImage_unfailing (hact _)) fun _ => .bind (.modify _) fun _ =>
    .pure _

theorem dequeue_unfailing : dequeue.Unfailing :=
  onSchedule_unfailing fun _ => .bind (Image.onHeap_unfailing (Queue.dequeue_unfailing _))
    fun _ => .pure _

theorem takeCurrent_unfailing : takeCurrent.Unfailing :=
  .bind .get fun _ => .bind (.modify _) fun _ => .pure _

theorem abort_unfailing : abort.Unfailing :=
  .bind takeCurrent_unfailing fun _ => .bind (onHeap_unfailing (Heap.setSlot_unfailing _ _ _))
    fun _ => .pure _

theorem settle_unfailing (outcome : RunOutcome) : (settle outcome).Unfailing := by
  refine .bind takeCurrent_unfailing fun p => ?_
  cases outcome with
  | returned result =>
    refine .bind (.bind (onHeap_unfailing (Heap.setSlot_unfailing _ _ _)) fun _ => ?_) fun _ =>
      .pure _
    refine .bind (onHeap_unfailing (Heap.setSlot_unfailing _ _ _)) fun _ => ?_
    refine .bind (onHeap_unfailing (Heap.setSlot_unfailing _ _ _)) fun _ => ?_
    exact .bind (.query _) fun _ => .modify _
  | preempted | yielded =>
    exact .bind (onSchedule_unfailing fun _ => .bind (Image.onHeap_unfailing
      (Queue.enqueue_unfailing _ _)) fun _ => .pure _) fun _ => .pure _
  | suspended =>
    exact .bind (onSchedule_unfailing fun _ => .bind (Image.onHeap_unfailing
      (Heap.setSlot_unfailing _ _ _)) fun _ => .bind (Image.onHeap_unfailing
        (Queue.enqueue_unfailing _ _)) fun _ => .pure _) fun _ => .pure _

end Unfailing

theorem dequeue_leaves (hw : Grown W F base w)
    (hW : W ⟨w.schedule.runnable.head, Slot.Process.link⟩ .nil) :
    Leaves (Grown W F base) w (dequeue w) := by
  refine onSchedule_leaves hw ?_
  have hs : w.schedule.Vouched (held w.schedule) :=
    Schedule.vouched_iff.mpr fun v hv => trusted_of_mem hv
  refine (?take : Upholds (Grown W F base) (held w.schedule) _) w.image (grown_image hw)
    (schedule_sane hw.intact)
  case take =>
    refine .bind (Image.onHeap_upholds (Queue.dequeue_upholds hs.runnable fun _ => hW))
      fun taken => ?_
    obtain ⟨p, runnable⟩ := taken
    have htaken : ∀ v ∈ held p ++ held runnable, v ∈ held (p, runnable) := fun _ hv => hv
    refine Schedule.pure_upholds (fun v hv => ?_) ⟨fun v hv => ?_, hs.append.waiting,
      hs.append.current, hs.append.finished⟩
    · exact trusted_append.mpr (.inl (htaken v (List.mem_append_left _ hv)))
    · exact trusted_append.mpr (.inl (htaken v (List.mem_append_right _ hv)))

theorem enqueueRunnable_leaves (hw : Grown W F base w) (hp : Sane w p)
    (hW : W ⟨w.schedule.runnable.tail, Slot.Process.link⟩ p) :
    Leaves (Grown W F base) w (enqueueRunnable p w) := by
  refine onSchedule_leaves hw ?_
  have hs : w.schedule.Vouched (p :: held w.schedule) :=
    Schedule.vouched_iff.mpr fun v hv => trusted_of_mem (.tail _ hv)
  have hput : Upholds (Grown W F base) (p :: held w.schedule) (do
      return ((), { w.schedule with runnable := ← Image.onHeap (w.schedule.runnable.enqueue p) }) :
      ImageAction (Unit × Schedule)) := by
    refine .bind (Image.onHeap_upholds (Queue.enqueue_upholds hs.runnable
      (trusted_of_mem List.mem_cons_self) fun _ => hW)) fun runnable => ?_
    exact Schedule.pure_upholds nofun ⟨fun v hv => trusted_append.mpr (.inl hv),
      hs.append.waiting, hs.append.current, hs.append.finished⟩
  exact hput w.image (grown_image hw) (List.forall_mem_cons.mpr ⟨hp, schedule_sane hw.intact⟩)

theorem park_leaves (hw : Grown W F base w) (hp : Sane w p)
    (hstate : W ⟨p, Slot.Process.state⟩ ProcessState.waiting.toValue)
    (hW : W ⟨w.schedule.waiting.tail, Slot.Process.link⟩ p) :
    Leaves (Grown W F base) w (park p w) := by
  refine onSchedule_leaves hw ?_
  have hs : w.schedule.Vouched (p :: held w.schedule) :=
    Schedule.vouched_iff.mpr fun v hv => trusted_of_mem (.tail _ hv)
  have hput : Upholds (Grown W F base) (p :: held w.schedule) (do
      Image.onHeap (Heap.setSlot p Slot.Process.state ProcessState.waiting.toValue)
      return ((), { w.schedule with waiting := ← Image.onHeap (w.schedule.waiting.enqueue p) }) :
      ImageAction (Unit × Schedule)) := by
    refine .bind (Image.onHeap_upholds (Heap.setSlot_upholds (trusted_of_mem List.mem_cons_self) _
      (by simp [ProcessState.toValue]) fun _ => hstate)) fun _ => ?_
    refine .bind (Image.onHeap_upholds (Queue.enqueue_upholds hs.waiting
      (trusted_of_mem List.mem_cons_self) fun _ => hW)) fun waiting => ?_
    exact Schedule.pure_upholds (List.forall_mem_nil _) ⟨hs.append.runnable,
      fun v hv => trusted_append.mpr (.inl hv), hs.append.current, hs.append.finished⟩
  exact hput w.image (grown_image hw) (List.forall_mem_cons.mpr ⟨hp, schedule_sane hw.intact⟩)

theorem finish_leaves {result : Value} (hw : Grown W F base w) (hp : Sane w p)
    (hresult : Sane w result) (hW : ∀ k x, Slot.Process.context ≤ k → W ⟨p, k⟩ x) :
    Leaves (Grown W F base) w (finish p result w) := by
  have hput : ∀ {k x}, Slot.Process.context ≤ k → Trusted [p, result] x →
      Upholds (Grown W F base) [p, result] (onHeap (Heap.setSlot p k x)) := fun hk hx =>
    onHeap_upholds (Heap.setSlot_upholds (by simp) _ hx fun _ => hW _ _ hk)
  have hknown : ∀ v ∈ [p, result], Sane w v := by
    simp only [List.mem_cons, List.not_mem_nil, or_false]
    rintro v (rfl | rfl) <;> assumption
  refine .bind (hput (by decide) (by simp [ProcessState.toValue]) w hw hknown)
    fun _ w₁ _ hw₁ hg₁ _ => ?_
  have hknown₁ : ∀ v ∈ [p, result], Sane w₁ v := fun v hv => hg₁.sane (hknown v hv)
  refine .bind (hput (by decide) (by simp) w₁ hw₁ hknown₁) fun _ w₂ _ hw₂ hg₂ _ => ?_
  have hknown₂ : ∀ v ∈ [p, result], Sane w₂ v := fun v hv => hg₂.sane (hknown₁ v hv)
  refine .bind (hput (by decide) (by simp) w₂ hw₂ hknown₂) fun _ w₃ _ hw₃ hg₃ _ =>
    .query fun described _ => ?_
  refine .modify (grown_of_schedule hw₃ fun v hv => ?_) rfl
  simp only [Holder.held, Schedule.roots, Array.toList_push, List.map_append, List.map_cons,
    List.map_nil, List.mem_append, List.mem_singleton] at hv
  rcases hv with hv | hv | rfl
  · exact hw₃.intact.held v (by simp only [Holder.held, Schedule.roots, List.mem_append]; tauto)
  · exact hw₃.intact.held v (by simp only [Holder.held, Schedule.roots, List.mem_append]; tauto)
  · exact hg₃.sane (hknown₂ v (by simp))

theorem takeCurrent_leaves (hw : Grown W F base w) : Leaves (Grown W F base) w (takeCurrent w) := by
  rw [takeCurrent, get_bind]
  have hcurrent : Sane w w.schedule.current := hw.intact.held _ (by simp [Schedule.roots])
  refine .bind (.modify (grown_of_schedule hw fun v hv => ?_) rfl) fun _ w' _ hw' hgrows _ =>
    .pure hw' (by simpa using hgrows.sane hcurrent)
  simp only [Holder.held, Schedule.roots, List.mem_append, List.mem_cons, List.not_mem_nil,
    or_false] at hv
  rcases hv with (rfl | rfl | rfl | rfl | rfl) | hv
  case inl.inr.inr.inr.inr => exact Arenas.sane_nil _
  all_goals exact hw.intact.held _ (by
    simp only [Holder.held, Schedule.roots, List.mem_append, List.mem_cons]; tauto)

theorem takeCurrent_eq_ok {v : Value} (heq : takeCurrent w = .ok v w') :
    v = w.schedule.current ∧ w' = { w with schedule := { w.schedule with current := .nil } } := by
  rw [takeCurrent, get_bind] at heq
  obtain ⟨_, w₁, hset, heq⟩ := bind_eq_ok.mp heq
  obtain rfl := modify_eq_ok.mp hset
  obtain ⟨rfl, rfl⟩ := pure_eq_ok.mp heq
  exact ⟨rfl, rfl⟩

/-- What putting the running process where it belongs may write to. -/
inductive Settles (s : Schedule) : Licence where
  | own {k : Nat} {x : Value} : Slot.Process.context ≤ k → Settles s ⟨s.current, k⟩ x
  | runnable {x : Value} : Settles s ⟨s.runnable.tail, Slot.Process.link⟩ x
  | waiting {x : Value} : Settles s ⟨s.waiting.tail, Slot.Process.link⟩ x

/-- A process that is preempted goes to the end of the queue. -/
theorem requeue_leaves (hw : Grown W F base w)
    (hW : W ⟨w.schedule.runnable.tail, Slot.Process.link⟩ w.schedule.current) :
    Leaves (Grown W F base) w (settle .preempted w) := by
  refine .bind (takeCurrent_leaves hw) fun p w₁ htake hw₁ _ hsane => ?_
  have hp : Sane w₁ p := hsane p (by simp)
  obtain ⟨rfl, rfl⟩ := takeCurrent_eq_ok htake
  exact .bind (enqueueRunnable_leaves hw₁ hp hW) fun _ _ _ hw₂ hg _ =>
    .pure hw₂ (by simpa using hg.sane hp)

theorem settle_leaves {outcome : RunOutcome} (hw : Grown W F base w)
    (houtcome : ∀ v ∈ held outcome, Sane w v) (hW : ∀ c x, Settles w.schedule c x → W c x) :
    Leaves (Grown W F base) w (settle outcome w) := by
  refine .bind (takeCurrent_leaves hw) fun p w₁ htake hw₁ hgrows hsane => ?_
  have hp : Sane w₁ p := hsane p (by simp)
  obtain ⟨rfl, rfl⟩ := takeCurrent_eq_ok htake
  have hdone : ∀ {w₂}, Grown W F base w₂ → Grows { w with schedule := { w.schedule with
      current := .nil } } w₂ → Leaves (Grown W F base) w₂
      ((pure w.schedule.current : WorldAction Value) w₂) := fun hw₂ hg =>
    .pure hw₂ (by simpa using hg.sane hp)
  cases outcome with
  | returned result =>
    have hresult : Sane w result := houtcome result (by simp [RunOutcome.values])
    exact .bind (finish_leaves hw₁ hp (hgrows.sane hresult) fun k x hk => hW _ _ (.own hk))
      fun _ _ _ hw₂ hg _ => hdone hw₂ hg
  | preempted | yielded => exact requeue_leaves hw (hW _ _ .runnable)
  | suspended =>
    exact .bind (park_leaves hw₁ hp (hW _ _ (.own (by decide))) (hW _ _ .waiting))
      fun _ _ _ hw₂ hg _ => hdone hw₂ hg

theorem abort_leaves (hw : Grown W F base w)
    (hW : ∀ x, W ⟨w.schedule.current, Slot.Process.state⟩ x) :
    Leaves (Grown W F base) w (abort w) := by
  refine .bind (takeCurrent_leaves hw) fun p w₁ htake hw₁ _ hsane => ?_
  obtain ⟨rfl, rfl⟩ := takeCurrent_eq_ok htake
  have hend : Upholds (Grown W F base) [w.schedule.current] (do
      onHeap (Heap.setSlot w.schedule.current Slot.Process.state ProcessState.done.toValue)
      return w.schedule.current : WorldAction Value) :=
    .bind (onHeap_upholds (Heap.setSlot_upholds (by simp) _ (by simp [ProcessState.toValue])
      fun _ => hW _)) fun _ => .pure (by simp)
  exact hend _ hw₁ fun v hv => hsane v (by simpa using hv)

end ObjectMachine.World
