import ObjectMachine.Proofs.Image.Heeding
import ObjectMachine.Proofs.Scheduling.Accounts

namespace ObjectMachine

open ObjectMachine.Action

variable {i i' : Image} {q q' : Queue} {s s' : Schedule} {p v x : Value} {heap : Heap}

theorem Image.Enlists.sane (hv : i.Enlists v) : Sane i v := by
  rcases hv with rfl | hprocess
  · exact Arenas.sane_nil _
  · exact hprocess.sane

theorem state_sane (st : ProcessState) : Sane i st.toValue := by
  cases st <;> exact .inr (.inl (by decide))

/-- Both ends of a queue are processes, if it is not empty. -/
structure Queue.Enlisted (i : Image) (q : Queue) : Prop where
  head : i.Enlists q.head
  tail : i.Enlists q.tail

structure Schedule.Enlisted (i : Image) (s : Schedule) : Prop where
  runnable : s.runnable.Enlisted i
  waiting : s.waiting.Enlisted i
  current : i.Enlists s.current

namespace Image.Heeds

theorem queue (h : i.Heeds i') (hq : q.Enlisted i) : q.Enlisted i' :=
  ⟨h.enlists hq.head, h.enlists hq.tail⟩

theorem schedule (h : i.Heeds i') (hs : s.Enlisted i) : s.Enlisted i' :=
  ⟨h.queue hs.runnable, h.queue hs.waiting, h.enlists hs.current⟩

end Image.Heeds

section Linking

variable (hi : Intact i) (hg : i.Grounded)
include hi hg

theorem setSlot_process_heeds {u : Unit} {index : Nat} (hp : i.Enlists p) (hx : Sane i x)
    (hcontext : index = Slot.Process.context → i.Rooted x)
    (hlink : index = Slot.Process.link → i.Enlists x)
    (heq : (Heap.setSlot p index x : Action HeapError Heap Unit) i.heap = .ok u heap) :
    i.Heeds { i with heap } :=
  Image.setSlot_heeds hi hg hp.sane hx (hg.spares_of_process (c := ⟨p, index⟩) hp hcontext hlink)
    heq

theorem link_heeds {u : Unit} (hp : i.Enlists p) (hx : i.Enlists x)
    (heq : (Heap.setSlot p Slot.Process.link x : Action HeapError Heap Unit) i.heap = .ok u heap) :
    i.Heeds { i with heap } :=
  setSlot_process_heeds hi hg hp hx.sane (fun h => absurd h (by decide)) (fun _ => hx) heq

namespace Queue

theorem enqueue_heeds (hq : q.Enlisted i) (hp : i.Enlists p)
    (heq : (q.enqueue p : Action HeapError Heap Queue) i.heap = .ok q' heap) :
    i.Heeds { i with heap } ∧ q'.Enlisted { i with heap } := by
  obtain ⟨-, -, ⟨-, rfl, rfl⟩ | ⟨-, rfl, hset⟩⟩ := enqueue_eq_ok heq
  · exact ⟨.refl hi hg, hp, hp⟩
  · have hheeds := link_heeds hi hg hq.tail hp hset
    exact ⟨hheeds, hheeds.enlists hq.head, hheeds.enlists hp⟩

theorem dequeue_heeds (hq : q.Enlisted i)
    (heq : (q.dequeue : Action HeapError Heap _) i.heap = .ok (some p, q') heap) :
    i.Heeds { i with heap } ∧ q'.Enlisted { i with heap } ∧ Image.Enlists { i with heap } p := by
  obtain ⟨rfl, -, next, hnext, hset, rfl⟩ := dequeue_eq_some heq
  have hheeds := link_heeds hi hg hq.head (.inl rfl) hset
  have hlisted := hheeds.enlists (hg.enlists hq.head ⟨hq.head.sane, hnext⟩)
  refine ⟨hheeds, ⟨hlisted, ?_⟩, hheeds.enlists hq.head⟩
  dsimp only
  split
  · exact .inl rfl
  · exact hheeds.enlists hq.tail

omit hi hg in
/-- The last step of the removal of a process, once it is out of the chain. -/
theorem unlink_heeds {i₁ : Image} {found : Bool} (hi₁ : Intact i₁) (h₁ : i.Heeds i₁)
    (hp : i₁.Enlists p) (hhead : i₁.Enlists q.head) (htail : i₁.Enlists q.tail)
    (heq : (do
      Heap.setSlot p Slot.Process.link .nil
      return (true, q) : Action HeapError Heap (Bool × Queue)) i₁.heap = .ok (found, q') heap) :
    i.Heeds { i₁ with heap } ∧ q'.Enlisted { i₁ with heap } := by
  obtain ⟨_, h₂, hset, hdone⟩ := bind_eq_ok.mp heq
  obtain ⟨hpair, rfl⟩ := pure_eq_ok.mp hdone
  obtain ⟨-, rfl⟩ := Prod.mk.inj hpair
  have hheeds := link_heeds hi₁ h₁.grounded hp (.inl rfl) hset
  exact ⟨h₁.trans hheeds, hheeds.enlists hhead, hheeds.enlists htail⟩

theorem removeFrom_heeds {fuel : Nat} {previous cursor : Value} {found : Bool}
    (hq : q.Enlisted i) (hprevious : i.Enlists previous) (hcursor : i.Enlists cursor)
    (heq : (q.removeFrom p fuel previous cursor : Action HeapError Heap _) i.heap =
      .ok (found, q') heap) :
    i.Heeds { i with heap } ∧ q'.Enlisted { i with heap } := by
  induction fuel generalizing previous cursor with
  | zero => cases heq
  | succ fuel ih =>
    rw [removeFrom] at heq
    rcases ite_eq_ok.mp heq with ⟨-, hdone⟩ | ⟨-, hgo⟩
    · obtain ⟨hpair, rfl⟩ := pure_eq_ok.mp hdone
      obtain ⟨-, rfl⟩ := Prod.mk.inj hpair
      exact ⟨.refl hi hg, hq⟩
    obtain ⟨next, hnext, hgo⟩ := query_bind_eq_ok.mp hgo
    have hlisted : i.Enlists next := hg.enlists hcursor ⟨hcursor.sane, hnext⟩
    rcases ite_eq_ok.mp hgo with ⟨rfl, hgo⟩ | ⟨-, hgo⟩
    · have hhead : i.Enlists (if previous.isNil then next else q.head) := by
        split
        · exact hlisted
        · exact hq.head
      have htail : i.Enlists (if q.tail = cursor then previous else q.tail) := by
        split
        · exact hprevious
        · exact hq.tail
      rcases ite_eq_ok.mp hgo with ⟨-, hgo⟩ | ⟨-, hgo⟩
      · obtain ⟨_, heap₁, hset, hgo⟩ := bind_eq_ok.mp hgo
        have h₁ := link_heeds hi hg hprevious hlisted hset
        have hdone := unlink_heeds h₁.intact h₁ (h₁.enlists hcursor) (h₁.enlists hhead)
          (h₁.enlists htail) hgo
        exact hdone
      · exact unlink_heeds hi (.refl hi hg) hcursor hhead htail hgo
    · exact ih hcursor hlisted hgo

theorem remove_heeds {found : Bool} (hq : q.Enlisted i)
    (heq : (q.remove p : Action HeapError Heap _) i.heap = .ok (found, q') heap) :
    i.Heeds { i with heap } ∧ q'.Enlisted { i with heap } :=
  removeFrom_heeds hi hg hq (.inl rfl) hq.head heq

end Queue

namespace Schedule

theorem transfer_heeds {expected st : ProcessState} {source target : Queue}
    {put : Queue → Queue → Schedule} {found : Bool} (hs : s.Enlisted i)
    (hsource : source.Enlisted i) (htarget : target.Enlisted i) (hp : i.Enlists p)
    (hput : ∀ {i' q q'}, i.Heeds i' → q.Enlisted i' → q'.Enlisted i' → (put q q').Enlisted i')
    (heq : s.transfer p expected st source target put i = .ok (found, s') i') :
    i.Heeds i' ∧ s'.Enlisted i' := by
  rcases transfer_eq_ok heq with ⟨rfl, rfl | ⟨source', heap, rfl, hremove⟩⟩ |
    ⟨source', target', h₁, h₂, heap, rfl, rfl, hremove, hset, henqueue⟩
  · exact ⟨.refl hi hg, hs⟩
  · have hheeds := (Queue.remove_heeds hi hg hsource hremove).1
    exact ⟨hheeds, hheeds.schedule hs⟩
  · obtain ⟨hheeds₁, hsource₁⟩ := Queue.remove_heeds hi hg hsource hremove
    have hheeds₂ := setSlot_process_heeds hheeds₁.intact hheeds₁.grounded (hheeds₁.enlists hp)
      (state_sane st) (fun h => absurd h (by decide)) (fun h => absurd h (by decide)) hset
    have hdone := hheeds₁.trans hheeds₂
    obtain ⟨hheeds₃, htarget₃⟩ := Queue.enqueue_heeds hdone.intact hdone.grounded
      (hdone.queue htarget) (hdone.enlists hp) henqueue
    have hall := hdone.trans hheeds₃
    exact ⟨hall, hput hall (hheeds₃.queue (hheeds₂.queue hsource₁)) htarget₃⟩

theorem suspend_heeds {found : Bool} (hs : s.Enlisted i) (hp : i.Enlists p)
    (heq : s.suspend p i = .ok (found, s') i') : i.Heeds i' ∧ s'.Enlisted i' := by
  rw [suspend_eq_transfer] at heq
  refine transfer_heeds hi hg hs hs.runnable hs.waiting hp ?_ heq
  exact fun h hq hq' => ⟨hq, hq', h.enlists hs.current⟩

theorem resume_heeds {found : Bool} (hs : s.Enlisted i) (hp : i.Enlists p)
    (heq : s.resume p i = .ok (found, s') i') : i.Heeds i' ∧ s'.Enlisted i' := by
  rw [resume_eq_transfer] at heq
  refine transfer_heeds hi hg hs hs.waiting hs.runnable hp ?_ heq
  exact fun h hq hq' => ⟨hq', hq, h.enlists hs.current⟩

omit hi hg in
/-- A step that writes to a process, as part of a longer one. -/
theorem setSlot_process_meets {i₁ : Image} {index : Nat} (h₁ : i.Heeds i₁)
    (hp : i₁.Instance .process p) (hx : Sane i₁ x)
    (hcontext : index = Slot.Process.context → i₁.Rooted x)
    (hlink : index ≠ Slot.Process.link) :
    Meets (fun _ i₂ => i₁.Heeds i₂ ∧ i.Heeds i₂) i.Heeds
      (Image.onHeap (Heap.setSlot p index x) i₁) := by
  refine .of_unfailing (Image.onHeap_unfailing (Heap.setSlot_unfailing p index x))
    fun _ i₂ heq => ?_
  obtain ⟨heap, hset, rfl⟩ := Image.onHeap_eq_ok.mp heq
  have h₂ := setSlot_process_heeds h₁.intact h₁.grounded (.inr hp) hx hcontext
    (fun h => absurd h hlink) hset
  exact ⟨h₂, h₁.trans h₂⟩

/-- A new process stops in a context whose chain ends. -/
theorem spawn_heeds {context name : Value} (hs : s.Enlisted i) (hcontext : i.Rooted context)
    (hname : Sane i name) : Meets (fun made i' => i.Heeds i' ∧ made.2.Enlisted i') i.Heeds
      (s.spawn context name i) := by
  have whole : i.heap.Whole := hi.whole
  refine .bind (Q := fun a s => i = a ∧ i = s) ⟨rfl, rfl⟩ ?_
  rintro _ _ ⟨rfl, rfl⟩
  have hclass := Image.kernelClass_sane hi .process
  refine .bind (.intro (fun p i₁ heq => ?_) fun cause i₁ heq =>
    (Image.allocatePointers_heeds hi hg hclass Slot.Process.count).failure heq)
    (Q := fun p i₁ => i.Heeds i₁ ∧ i₁.Instance .process p) fun p i₁ h => ?_
  · obtain ⟨heap, hmake, rfl⟩ := Image.onHeap_eq_ok.mp heq
    obtain ⟨h₁, hmade, -, hfresh⟩ :=
      (Image.allocatePointers_heeds hi hg hclass Slot.Process.count).ok heq
    obtain ⟨-, hshows, -, -⟩ := Heap.allocatePointers_shows whole.sound (by decide) hmake
    exact ⟨h₁, Image.instance_of_instantiates (c := ⟨p, Slot.Process.id⟩) hmade h₁.known hfresh
      (hshows.holds h₁.intact.whole rfl)⟩
  obtain ⟨h₁, hp₁⟩ := h
  refine (setSlot_process_meets h₁ hp₁ (.inr (.inl (by simp)))
    (fun h => absurd h (by decide)) (by decide)).bind fun _ i₂ ⟨h₁₂, h₂⟩ => ?_
  refine (setSlot_process_meets h₂ (h₁₂.instance hp₁) (h₂.grows _ hname)
    (fun h => absurd h (by decide)) (by decide)).bind fun _ i₃ ⟨h₂₃, h₃⟩ => ?_
  have hp₃ := h₂₃.instance (h₁₂.instance hp₁)
  have hsane : Sane i context := hcontext.context.elim
    (fun h => h ▸ Arenas.sane_nil _) fun h => h.sane
  refine (setSlot_process_meets h₃ hp₃ (h₃.grows _ hsane) (fun _ => h₃.rooted hcontext)
    (by decide)).bind fun _ i₄ ⟨h₃₄, h₄⟩ => ?_
  refine (setSlot_process_meets h₄ (h₃₄.instance hp₃) (state_sane _)
    (fun h => absurd h (by decide)) (by decide)).bind fun _ i₅ ⟨h₄₅, h₅⟩ => ?_
  have hp₅ := h₄₅.instance (h₃₄.instance hp₃)
  refine .bind (.of_unfailing (Image.onHeap_unfailing (s.runnable.enqueue_unfailing p))
    fun runnable i₆ heq => ?_) (Q := fun runnable i₆ => i₅.Heeds i₆ ∧ runnable.Enlisted i₆)
    fun runnable i₆ ⟨h₆, hrunnable⟩ => ?_
  · obtain ⟨heap, henqueue, rfl⟩ := Image.onHeap_eq_ok.mp heq
    exact Queue.enqueue_heeds h₅.intact h₅.grounded (h₅.queue hs.runnable) (.inr hp₅) henqueue
  have hall := h₅.trans h₆
  exact ⟨hall, hrunnable, hall.queue hs.waiting, hall.enlists hs.current⟩

/-- A collection leaves every chain as it is, and takes the queues along. -/
theorem collect_grounded {live : Collection} (hs : ∀ v ∈ s.roots, Sane i v) (hlisted : s.Enlisted i)
    (heq : i.collect s = .ok (.ok live, s', i')) : i'.Grounded ∧ s'.Enlisted i' := by
  obtain ⟨f, i₁, hrel⟩ := Image.exists_relocates hi hs
  obtain ⟨live₁, hcollected⟩ := hrel.collected
  obtain ⟨-, rfl, rfl⟩ : _ ∧ s' = _ ∧ i' = i₁ := by simpa using heq.symm.trans hcollected
  refine ⟨hrel.grounded hi hs hg, ?_⟩
  have sound := (hrel.intact hi hs).whole.sound
  have hmoved : ∀ {v}, v ∈ s.roots → i.Enlists v → i'.Enlists (v.relocate f) := fun hv h =>
    hrel.enlists hi sound ⟨hs _ hv, fun _ hloc => .root (List.mem_append_right _ hv) hloc⟩ h
  exact ⟨⟨hmoved (by simp [roots]) hlisted.runnable.head, hmoved (by simp [roots])
      hlisted.runnable.tail⟩, ⟨hmoved (by simp [roots]) hlisted.waiting.head, hmoved
      (by simp [roots]) hlisted.waiting.tail⟩, hmoved (by simp [roots]) hlisted.current⟩

end Schedule

end Linking

end ObjectMachine
