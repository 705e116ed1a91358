import ObjectMachine.Proofs.Scheduling.Accounts
import ObjectMachine.Proofs.Scheduling.Returning

namespace ObjectMachine

section Entries

variable {b : Books} {roll : Roll} {s : Schedule} {h h' : Heap} {W : Licence}

/-- The accounts are as good after steps that write to no process. -/
theorem Accounts.evolves (ha : Accounts b roll s h) (he : h.Evolves W h') (hg : h.Grows h')
    (hW : ∀ {i p x}, roll i p → ¬W ⟨p, Slot.Process.id⟩ x ∧ ¬W ⟨p, Slot.Process.link⟩ x ∧
      ¬W ⟨p, Slot.Process.state⟩ x) : Accounts b roll s h' := by
  rw [← roll.moved_eq]
  refine ha.moved (he.follows hg) (.refl s) ?_
  rintro i p p' x hi rfl
  exact hW hi

/-- Every process is in one place, and there once. -/
theorem Accounts.count_eq_one {i : Nat} (ha : Accounts b roll s h) (hpos : 0 < i)
    (hi : i ≤ s.spawned) : b.all.count i = 1 := by
  refine List.count_eq_one_of_mem ha.nodup (ha.partition.mem_iff.mpr ?_)
  rw [List.mem_range'_1]
  omega

theorem Accounts.state_iff {i : Nat} {p : Value} (ha : Accounts b roll s h) (hi : roll i p) :
    (h.Holds ⟨p, Slot.Process.state⟩ ProcessState.runnable.toValue ↔
      i ∈ b.runnable ∨ b.current = some i) ∧
    (h.Holds ⟨p, Slot.Process.state⟩ ProcessState.waiting.toValue ↔ i ∈ b.waiting) ∧
    (h.Holds ⟨p, Slot.Process.state⟩ ProcessState.done.toValue ↔
      i ∈ b.finished ∨ i ∈ b.aborted) := by
  have hstate : ∀ st : ProcessState, h.Holds ⟨p, Slot.Process.state⟩ st.toValue ↔
      b.state i = st := by
    intro st
    refine ⟨fun hst => ?_, fun hst => hst ▸ ha.state hi⟩
    have := (ha.state hi).unique hst
    revert this
    cases b.state i <;> cases st <;> decide
  have hcount : b.all.count i = 1 := ha.count_eq_one (ha.known hi).1 (ha.known hi).2
  have hcurrent : b.current = some i ↔ 0 < b.current.toList.count i := by
    rw [List.count_pos_iff, Option.mem_toList]
  simp only [Books.all, List.count_append] at hcount
  simp only [hstate, Books.state, hcurrent, ← List.count_pos_iff]
  split
  · refine ⟨iff_of_true rfl ‹_›, ?_, ?_⟩ <;> simp only [reduceCtorEq, false_iff] <;> omega
  split
  · refine ⟨iff_of_false (by simp) ‹_›, iff_of_true rfl ‹_›, ?_⟩
    simp only [reduceCtorEq, false_iff]
    omega
  · refine ⟨iff_of_false (by simp) ‹_›, iff_of_false (by simp) ‹_›, iff_of_true rfl ?_⟩
    omega

end Entries

/-- The entry that a step makes in the books, if so many processes have been made before. -/
inductive Books.Entry (b : Books) (spawned : Nat) : Deed → Books → Prop where
  | outside {stores : Cell → Prop} : b.Entry spawned (.outside stores) b
  | interrupts : b.Entry spawned .interrupts b
  | collect : b.Entry spawned .collect b
  | reject : b.Entry spawned .reject b
  | execute {ins : Instruction} {m : Machine} : b.Entry spawned (.execute ins m) b
  | spawn : b.Entry spawned .spawn { b with runnable := b.runnable ++ [spawned + 1] }
  | fork {ins : Instruction} {m : Machine} {args : List Value} : m.Calls ins .processFork args →
    b.Entry spawned (.execute ins m) { b with runnable := b.runnable ++ [spawned + 1] }
  | suspend {ins : Instruction} {m : Machine} {args : List Value} {i : Nat} :
    m.Calls ins .processSuspend args → i ∈ b.runnable → b.Entry spawned (.execute ins m)
      { b with runnable := b.runnable.erase i, waiting := b.waiting ++ [i] }
  | resume {ins : Instruction} {m : Machine} {args : List Value} {i : Nat} :
    m.Calls ins .processResume args → i ∈ b.waiting → b.Entry spawned (.execute ins m)
      { b with runnable := b.runnable ++ [i], waiting := b.waiting.erase i }
  | dispatch {i : Nat} {is : List Nat} : b.current = none → b.runnable = i :: is →
    b.Entry spawned .dispatch { b with runnable := is, current := some i }
  | preempt {i : Nat} : b.current = some i → b.Entry spawned (.leave .preempted)
    { b with runnable := b.runnable ++ [i], current := none }
  | yield {i : Nat} : b.current = some i → b.Entry spawned (.leave .yielded)
    { b with runnable := b.runnable ++ [i], current := none }
  | park {i : Nat} : b.current = some i → b.Entry spawned (.leave .suspended)
    { b with waiting := b.waiting ++ [i], current := none }
  | finish {i : Nat} {v : Value} : b.current = some i → b.Entry spawned (.leave (.returned v))
    { b with current := none, finished := b.finished ++ [i] }
  | abort {i : Nat} : b.current = some i → b.Entry spawned .abort
    { b with current := none, aborted := b.aborted ++ [i] }

/-- An instruction changes nothing about which process runs. -/
theorem Books.Entry.current_execute {b b' : Books} {n : Nat} {ins : Instruction} {m : Machine}
    (hentry : b.Entry n (.execute ins m) b') : b'.current = b.current := by
  cases hentry <;> rfl

/-- A process that cannot be made changes nothing. -/
theorem Schedule.spawn_failure {i i' : Image} {s : Schedule} {context name : Value}
    {cause : RuntimeError} (hi : Intact i)
    (heq : s.spawn context name i = .error (.failure cause) i') :
    Grown (fun _ _ => False) (· = i.kernelClass .process) i.heap i' := by
  let make := Heap.allocatePointers (i.kernelClass .process) Slot.Process.count
  have hallocate : Upholds (Grown (fun _ _ => False) (· = i.kernelClass .process) i.heap) i.values
      make := Heap.allocatePointers_upholds
    (trusted_of_mem (i.kernelClass_mem_values .process)) _ rfl
  have hmake := Image.onHeap_leaves hi.grown
    (hallocate i.heap (Image.grown_heap hi.grown) fun v hv => hi.held v hv)
  change (Image.onHeap make >>= _) i = _ at heq
  cases hend : Image.onHeap make i with
  | error e i₁ =>
    rw [bind_of_eq_error hend] at heq
    cases heq
    exact hmake.failure hend
  | ok p i₁ =>
    -- All that follows delivers or breaks a rule.
    rw [bind_of_eq_ok hend] at heq
    refine absurd heq (Action.Unfailing.bind (Image.onHeap_unfailing (Heap.setSlot_unfailing _ _ _))
      (fun _ => ?_) i₁ cause i')
    refine .bind (Image.onHeap_unfailing (Heap.setSlot_unfailing _ _ _)) fun _ => ?_
    refine .bind (Image.onHeap_unfailing (Heap.setSlot_unfailing _ _ _)) fun _ => ?_
    refine .bind (Image.onHeap_unfailing (Heap.setSlot_unfailing _ _ _)) fun _ => ?_
    exact .bind (Image.onHeap_unfailing (Queue.enqueue_unfailing _ _)) fun _ => .pure _

namespace Machine

variable {b : Books} {roll : Roll} {m m' m₁ : Machine} {i : Instruction} {args : List Value}

theorem onSchedule_eq_ok {α : Type} {act : Schedule → ImageAction (α × Schedule)} {a : α}
    (heq : onSchedule act m = .ok a m') : ∃ image schedule,
      act m.schedule m.image = .ok (a, schedule) image ∧ m' = { m with image, schedule } := by
  rw [onSchedule, get_bind] at heq
  obtain ⟨⟨_, schedule⟩, m₁, hact, heq⟩ := bind_eq_ok.mp heq
  obtain ⟨_, m₂, hset, heq⟩ := bind_eq_ok.mp heq
  obtain rfl := modify_eq_ok.mp hset
  obtain ⟨rfl, rfl⟩ := pure_eq_ok.mp heq
  obtain ⟨image, hmade, rfl⟩ := onImage_eq_ok hact
  exact ⟨image, schedule, hmade, rfl⟩

theorem onSchedule_eq_error {α : Type} {act : Schedule → ImageAction (α × Schedule)}
    {e : Stop RuntimeError} (heq : onSchedule act m = .error e m') :
    ∃ image, act m.schedule m.image = .error e image ∧ m' = { m with image } := by
  rw [onSchedule, get_bind] at heq
  cases hend : onImage (act m.schedule) m with
  | ok made m₁ =>
    rw [bind_of_eq_ok hend] at heq
    cases heq
  | error e₁ m₁ =>
    rw [bind_of_eq_error hend] at heq
    cases heq
    rw [onImage] at hend
    dsimp only at hend
    split at hend
    · cases hend
    · rename_i hact
      cases hend
      exact ⟨_, hact, rfl⟩

def Accounted (b : Books) (roll : Roll) (m : Machine) (i : Instruction) (m' : Machine) : Prop :=
  ∃ b', b.Entry m.schedule.spawned (.execute i m) b' ∧
    Accounts b' (roll.joined m.schedule m'.schedule) m'.schedule m'.image.heap

theorem accounted_same (ha : Accounts b roll m'.schedule m'.image.heap)
    (hspawned : m'.schedule.spawned = m.schedule.spawned) : Accounted b roll m i m' :=
  ⟨b, .execute, ha.joins hspawned⟩

theorem fork_accounted {block name : Value} (hm : Intact m)
    (ha : Accounts b roll m.schedule m.image.heap)
    (hcalls : m.Calls i .processFork [block, name]) :
    Action.Ends (Accounted b roll m i) (fork block name m) := by
  have hargs := hcalls.sane hm
  refine .query fun isBlock _ => ?_
  split
  · exact accounted_same ha rfl
  -- The context of the new process is a new object.
  have hmake : Upholds (Within (fun _ _ => False) (fun _ => True) m.image.known (· = m.schedule)
      m.process m.image.heap) [block, name] (onImage (Image.blockContext? block [] .nil)) :=
    onImage_upholds (Image.blockContext?_knows _ _ _ _)
      (Image.blockContext?_upholds (by simp) (List.forall_mem_nil _) (by simp) fun _ => trivial)
  have hcontext := hmake m ⟨hm.grown, rfl, rfl, rfl⟩ hargs
  have hkept : ∀ {m₁}, Within (fun _ _ => False) (fun _ => True) m.image.known (· = m.schedule)
      m.process m.image.heap m₁ → Accounts b roll m₁.schedule m₁.image.heap := by
    intro m₁ hw
    rw [hw.schedule]
    exact ha.evolves hw.evolves hw.grows (by simp)
  refine .bind (fun cause m₁ heq => ?_) fun context m₁ heq => ?_
  · have hw := hcontext.failure heq
    exact accounted_same (hkept hw) (by rw [hw.schedule])
  rw [heq] at hcontext
  obtain ⟨hw, hgrows, hsane⟩ := hcontext
  have ha₁ := hkept hw
  cases context with
  | none => exact accounted_same ha₁ (by rw [hw.schedule])
  | some context =>
    have hname : Sane m₁ name := hgrows.sane (hargs name (by simp))
    change Action.Ends _ (onSchedule (·.spawn context name) m₁)
    refine .intro (fun p m₂ hspawn => ?_) fun cause m₂ hspawn => ?_
    · obtain ⟨image, schedule, hmade, rfl⟩ := onSchedule_eq_ok hspawn
      have ha₂ := ha₁.spawn (intact_image hw.intact) (hsane context (by simp)) hname hmade
      rw [hw.schedule] at ha₂
      exact ⟨_, .fork hcalls, ha₂⟩
    · obtain ⟨image, hfails, rfl⟩ := onSchedule_eq_error hspawn
      have hgrown := Schedule.spawn_failure (intact_image hw.intact) hfails
      exact accounted_same (ha₁.evolves hgrown.evolves hgrown.grows (by simp)) (by rw [hw.schedule])

theorem suspend_accounted {target : Value} (hm : Intact m)
    (ha : Accounts b roll m.schedule m.image.heap) (hcalls : m.Calls i .processSuspend args) :
    Action.Ends (Accounted b roll m i) (suspend target m) := by
  refine .of_unfailing ?_ fun v m' heq => ?_
  · refine .bind (.query _) fun _ => ?_
    split
    · exact .pure _
    refine .bind .get fun _ => ?_
    dsimp only
    split
    · exact .bind (.modify _) fun _ => .pure _
    · exact .bind (onSchedule_unfailing fun s => s.suspend_unfailing _) fun _ => .pure _
  obtain ⟨isProcess, -, heq⟩ := query_bind_eq_ok.mp heq
  rcases ite_eq_ok.mp heq with ⟨-, heq⟩ | ⟨-, heq⟩
  · obtain ⟨-, rfl⟩ := pure_eq_ok.mp heq
    exact accounted_same ha rfl
  rw [get_bind] at heq
  rcases ite_eq_ok.mp heq with ⟨-, heq⟩ | ⟨-, heq⟩
  · obtain ⟨_, m₁, hask, heq⟩ := bind_eq_ok.mp heq
    obtain rfl := modify_eq_ok.mp hask
    obtain ⟨-, rfl⟩ := pure_eq_ok.mp heq
    exact accounted_same ha rfl
  · obtain ⟨found, m₁, hsuspend, heq⟩ := bind_eq_ok.mp heq
    obtain ⟨-, rfl⟩ := pure_eq_ok.mp heq
    obtain ⟨image, schedule, hmoved, rfl⟩ := onSchedule_eq_ok hsuspend
    rcases ha.suspend hm.whole hmoved with ⟨rfl, hheap⟩ | ⟨hspawned, j, hj, ha'⟩
    · exact accounted_same (by rwa [hheap]) rfl
    · exact ⟨_, .suspend hcalls hj, ha'.joins hspawned⟩

theorem resume_accounted {target : Value} (hm : Intact m)
    (ha : Accounts b roll m.schedule m.image.heap) (hcalls : m.Calls i .processResume args) :
    Action.Ends (Accounted b roll m i) (resume target m) := by
  refine .of_unfailing ?_ fun v m' heq => ?_
  · refine .bind (.query _) fun _ => ?_
    split
    · exact .pure _
    · exact .bind (onSchedule_unfailing fun s => s.resume_unfailing _) fun _ => .pure _
  obtain ⟨isProcess, -, heq⟩ := query_bind_eq_ok.mp heq
  rcases ite_eq_ok.mp heq with ⟨-, heq⟩ | ⟨-, heq⟩
  · obtain ⟨-, rfl⟩ := pure_eq_ok.mp heq
    exact accounted_same ha rfl
  · obtain ⟨found, m₁, hresume, heq⟩ := bind_eq_ok.mp heq
    obtain ⟨-, rfl⟩ := pure_eq_ok.mp heq
    obtain ⟨image, schedule, hmoved, rfl⟩ := onSchedule_eq_ok hresume
    rcases ha.resume hm.whole hmoved with ⟨rfl, hheap⟩ | ⟨hspawned, j, hj, ha'⟩
    · exact accounted_same (by rwa [hheap]) rfl
    · exact ⟨_, .resume hcalls hj, ha'.joins hspawned⟩

theorem runPrimitive_accounted {prim : Primitive} (hm : Intact m)
    (ha : Accounts b roll m.schedule m.image.heap) (hcalls : m.Calls i prim args)
    (hprim : schedules prim) : Action.Ends (Accounted b roll m i) (runPrimitive prim args m) := by
  have hfirst : ∀ {next : Value → MachineAction Value},
      (∀ v, Action.Ends (Accounted b roll m i) (next v m)) →
      Action.Ends (Accounted b roll m i) ((firstArg args >>= next) m) := by
    intro next hnext
    cases args with
    | nil => trivial
    | cons v rest => exact hnext v
  cases prim with
  | processFork =>
    match args, hcalls with
    | [block, name], hcalls => exact fork_accounted hm ha hcalls
    | [], _ | [_], _ | _ :: _ :: _ :: _, _ => exact accounted_same ha rfl
  | processSuspend => exact hfirst fun v => suspend_accounted hm ha hcalls
  | processResume => exact hfirst fun v => resume_accounted hm ha hcalls
  | _ => cases hprim

/-- An instruction writes to no cell of a process, unless the program tells it to store there or it
changes the schedule. -/
theorem not_writes_process {p x : Value} (hschedules : ¬m.Schedules i)
    (hstores : ∀ k, ¬m.Stores i ⟨p, k⟩) : ¬m.Writes i ⟨p, Slot.Process.id⟩ x ∧
      ¬m.Writes i ⟨p, Slot.Process.link⟩ x ∧ ¬m.Writes i ⟨p, Slot.Process.state⟩ x := by
  have hcell : ∀ k < Slot.Context.registers, k ≠ Slot.Context.pc → ¬m.Writes i ⟨p, k⟩ x := by
    intro k hk hpc hwrites
    cases hwrites with
    | position | ended => exact hpc rfl
    | register => omega
    | stored h => exact hstores k h
    | link h | state h => exact hschedules h
  exact ⟨hcell _ (by decide) (by decide), hcell _ (by decide) (by decide),
    hcell _ (by decide) (by decide)⟩

/-- What an instruction makes of the books. -/
theorem execute_accounted (hm : Intact m₁) (hp : m.Pause i m₁)
    (hleaves : Leaves (m₁.Continues i) m₁ (execute i m))
    (ha : Accounts b roll m₁.schedule m₁.image.heap)
    (hstores : ∀ {j p k}, roll j p → ¬m₁.Stores i ⟨p, k⟩) :
    Action.Ends (Accounted b roll m₁ i) (execute i m) := by
  by_cases hschedules : m₁.Schedules i
  · obtain ⟨prim, args, hcalls, hprim⟩ := hschedules
    rw [hp.execute_call hcalls]
    refine .andThen (runPrimitive_accounted hm ha hcalls hprim) fun result m₂ hend => ?_
    split
    · exact hend
    · exact hend
  · refine hleaves.ends.mono fun m' hcontinues => ?_
    have hsame := hcontinues.schedule.2.resolve_left hschedules
    refine accounted_same ?_ (by rw [hsame])
    rw [hsame]
    exact ha.evolves hcontinues.evolves hcontinues.grows fun hj =>
      not_writes_process hschedules fun k => hstores hj

end Machine

/-- What a step makes of the log. The result of a process is added to it when the process is over;
otherwise the log is as before. -/
def Books.Logs (b : Books) (t : Track) (s s' : Schedule) : Deed → Prop
  | .leave (.returned v) => ∃ i name, b.current = some i ∧
    s'.finished = s.finished.push ⟨recorded i, name, v⟩
  | _ => List.Forall₂ (Finished.Carried t) s.finished.toList s'.finished.toList

namespace World

variable {b : Books} {roll : Roll} {w w' : World} {i : Nat} {p : Value}

theorem describeProcess_id {image : Image} {id : Nat} {name : String} {x : Value}
    (heq : image.describeProcess p = .ok (id, name))
    (hid : image.heap.Holds ⟨p, Slot.Process.id⟩ x) : id = x.toNat?.getD 0 := by
  simp only [Image.describeProcess, Heap.count, hid.slot, bind, Except.bind, pure, Except.pure]
    at heq
  split at heq
  · cases heq
  split at heq
  · cases heq
  split at heq <;> cases heq <;> rfl

theorem finish_eq_ok {result : Value} {u : Unit} (heq : finish p result w = .ok u w') :
    ∃ h₁ h₂ heap id name,
      Heap.setSlot p Slot.Process.state ProcessState.done.toValue (ε := HeapError) w.image.heap =
        .ok () h₁ ∧
      Heap.setSlot p Slot.Process.context .nil (ε := HeapError) h₁ = .ok () h₂ ∧
      Heap.setSlot p Slot.Process.accumulator result (ε := HeapError) h₂ = .ok () heap ∧
      { w.image with heap }.describeProcess p = .ok (id, name) ∧
      w' = { w with image := { w.image with heap },
                    schedule := { w.schedule with
                      finished := w.schedule.finished.push ⟨id, name, result⟩ } } := by
  obtain ⟨_, w₁, hstate, heq⟩ := bind_eq_ok.mp heq
  obtain ⟨h₁, hset₁, rfl⟩ := onHeap_eq_ok hstate
  obtain ⟨_, w₂, hcontext, heq⟩ := bind_eq_ok.mp heq
  obtain ⟨h₂, hset₂, rfl⟩ := onHeap_eq_ok hcontext
  obtain ⟨_, w₃, haccumulator, heq⟩ := bind_eq_ok.mp heq
  obtain ⟨heap, hset₃, rfl⟩ := onHeap_eq_ok haccumulator
  obtain ⟨⟨id, name⟩, hdescribe, heq⟩ := query_bind_eq_ok.mp heq
  obtain rfl := modify_eq_ok.mp heq
  exact ⟨h₁, h₂, heap, id, name, hset₁, hset₂, hset₃, hdescribe, rfl⟩

theorem enqueueRunnable_eq_ok {u : Unit} (heq : enqueueRunnable p w = .ok u w') :
    ∃ heap runnable, (w.schedule.runnable.enqueue p : Action HeapError Heap Queue) w.image.heap =
      .ok runnable heap ∧ w' = { w with
        image := { w.image with heap }, schedule := { w.schedule with runnable } } := by
  obtain ⟨image, schedule, hact, rfl⟩ := onSchedule_eq_ok heq
  obtain ⟨runnable, i₁, hput, hend⟩ := bind_eq_ok.mp hact
  obtain ⟨hpair, rfl⟩ := pure_eq_ok.mp hend
  obtain ⟨-, rfl⟩ := Prod.mk.inj hpair
  obtain ⟨heap, henqueue, rfl⟩ := Image.onHeap_eq_ok.mp hput
  exact ⟨heap, runnable, henqueue, rfl⟩

theorem park_eq_ok {u : Unit} (heq : park p w = .ok u w') : ∃ h₁ heap waiting,
    Heap.setSlot p Slot.Process.state ProcessState.waiting.toValue (ε := HeapError) w.image.heap =
      .ok () h₁ ∧
    (w.schedule.waiting.enqueue p : Action HeapError Heap Queue) h₁ = .ok waiting heap ∧
    w' = { w with image := { w.image with heap }, schedule := { w.schedule with waiting } } := by
  obtain ⟨image, schedule, hact, rfl⟩ := onSchedule_eq_ok heq
  obtain ⟨_, i₁, hstate, hrest⟩ := bind_eq_ok.mp hact
  obtain ⟨h₁, hset, rfl⟩ := Image.onHeap_eq_ok.mp hstate
  obtain ⟨waiting, i₂, hput, hend⟩ := bind_eq_ok.mp hrest
  obtain ⟨hpair, rfl⟩ := pure_eq_ok.mp hend
  obtain ⟨-, rfl⟩ := Prod.mk.inj hpair
  obtain ⟨heap, henqueue, rfl⟩ := Image.onHeap_eq_ok.mp hput
  exact ⟨h₁, heap, waiting, hset, henqueue, rfl⟩

/-- What becomes of the process that ran. -/
theorem settle_accounted {outcome : RunOutcome} (spawned : Nat) (hw : Intact w)
    (houtcome : ∀ v ∈ held outcome, Sane w v)
    (ha : Accounts b roll w.schedule w.image.heap) (hcurrent : b.current = some i)
    (heq : settle outcome w = .ok p w') :
    w'.schedule.spawned = w.schedule.spawned ∧ ∃ b', b.Entry spawned (.leave outcome) b' ∧
      b'.current = none ∧ Accounts b' roll w'.schedule w'.image.heap ∧
      b.Logs Eq w.schedule w'.schedule (.leave outcome) := by
  have whole : w.image.heap.Whole := hw.whole
  have hsane : w.image.heap.arenas.Sane w.schedule.current := hw.held _ (by simp [Schedule.roots])
  have hi : roll i w.schedule.current := by simpa [hcurrent] using ha.current
  obtain ⟨_, w₁, htake, heq⟩ := bind_eq_ok.mp heq
  obtain ⟨rfl, rfl⟩ := takeCurrent_eq_ok htake
  cases outcome with
  | preempted =>
    obtain ⟨_, w₂, hput, hdone⟩ := bind_eq_ok.mp heq
    obtain ⟨-, rfl⟩ := pure_eq_ok.mp hdone
    obtain ⟨heap, runnable, henqueue, rfl⟩ := enqueueRunnable_eq_ok hput
    exact ⟨rfl, _, .preempt hcurrent, rfl, ha.requeue whole hcurrent henqueue,
      (Schedule.Carried.refl w.schedule).finished⟩
  | yielded =>
    obtain ⟨_, w₂, hput, hdone⟩ := bind_eq_ok.mp heq
    obtain ⟨-, rfl⟩ := pure_eq_ok.mp hdone
    obtain ⟨heap, runnable, henqueue, rfl⟩ := enqueueRunnable_eq_ok hput
    exact ⟨rfl, _, .yield hcurrent, rfl, ha.requeue whole hcurrent henqueue,
      (Schedule.Carried.refl w.schedule).finished⟩
  | suspended =>
    obtain ⟨_, w₂, hpark, hdone⟩ := bind_eq_ok.mp heq
    obtain ⟨-, rfl⟩ := pure_eq_ok.mp hdone
    obtain ⟨h₁, heap, waiting, hset, hput, rfl⟩ := park_eq_ok hpark
    have hr := whole.rewrites hsane (.inr (.inl (by simp [ProcessState.toValue]))) hset
    exact ⟨rfl, _, .park hcurrent, rfl, ha.park hcurrent hr hput,
      (Schedule.Carried.refl w.schedule).finished⟩
  | returned v =>
    obtain ⟨_, w₂, hfinish, hdone⟩ := bind_eq_ok.mp heq
    obtain ⟨-, rfl⟩ := pure_eq_ok.mp hdone
    obtain ⟨h₁, h₂, heap, id, name, hset₁, hset₂, hset₃, hdescribe, rfl⟩ := finish_eq_ok hfinish
    have hr₁ := whole.rewrites hsane (.inr (.inl (by simp [ProcessState.toValue]))) hset₁
    have hr₂ := hr₁.whole.rewrites (hr₁.grows _ hsane) (Arenas.sane_nil _) hset₂
    have hr₃ := hr₂.whole.rewrites (hr₂.grows _ (hr₁.grows _ hsane))
      (hr₂.grows _ (hr₁.grows _ (houtcome v (by simp [RunOutcome.values])))) hset₃
    have hkept : ∀ {c x}, c.object ≠ w.schedule.current ∨ c.index = Slot.Process.id ∨
        c.index = Slot.Process.link → w.image.heap.Holds c x → heap.Holds c x := by
      intro c x hc hx
      have hne : ∀ k, k ≠ Slot.Process.id → k ≠ Slot.Process.link →
          c ≠ ⟨w.schedule.current, k⟩ := by
        rintro k hid hlink rfl
        simp [hid, hlink] at hc
      exact hr₃.others (hne _ (by decide) (by decide)) (hr₂.others (hne _ (by decide) (by decide))
        (hr₁.others (hne _ (by decide) (by decide)) hx))
    have hid : id = Books.recorded i :=
      describeProcess_id hdescribe (hkept (.inr (.inl rfl)) (ha.number hi))
    subst hid
    refine ⟨rfl, _, .finish hcurrent, rfl, ?_, i, name, hcurrent, rfl⟩
    refine ha.close hcurrent (hr₃.others (by simp) (hr₂.others (by simp) hr₁.written)) hkept ?_ ?_
    · simp
    · rw [Array.toList_push]
      exact List.rel_append ha.finished (.cons rfl .nil)

theorem abort_accounted (spawned : Nat) (hw : Intact w)
    (ha : Accounts b roll w.schedule w.image.heap) (hcurrent : b.current = some i)
    (heq : abort w = .ok p w') :
    w'.schedule.spawned = w.schedule.spawned ∧ ∃ b', b.Entry spawned .abort b' ∧
      b'.current = none ∧ Accounts b' roll w'.schedule w'.image.heap ∧
      b.Logs Eq w.schedule w'.schedule .abort := by
  have whole : w.image.heap.Whole := hw.whole
  have hsane : w.image.heap.arenas.Sane w.schedule.current := hw.held _ (by simp [Schedule.roots])
  obtain ⟨_, w₁, htake, heq⟩ := bind_eq_ok.mp heq
  obtain ⟨rfl, rfl⟩ := takeCurrent_eq_ok htake
  obtain ⟨_, w₂, hstate, heq⟩ := bind_eq_ok.mp heq
  obtain ⟨-, rfl⟩ := pure_eq_ok.mp heq
  obtain ⟨heap, hset, rfl⟩ := onHeap_eq_ok hstate
  have hr := whole.rewrites hsane (.inr (.inl (by simp [ProcessState.toValue]))) hset
  refine ⟨rfl, _, .abort hcurrent, rfl, ?_, (Schedule.Carried.refl w.schedule).finished⟩
  refine ha.close hcurrent hr.written (fun {c x} hc hx => hr.others ?_ hx) ?_ ha.finished
  · rintro rfl
    simp at hc
  · simp [← List.append_assoc]

end World

namespace Stage

/-- Between runs no process runs. During a run there is one. -/
def Manned : Stage → Books → Prop
  | .idle _, b => b.current = none
  | _, b => ∃ i, b.current = some i

structure Tallied (s : Stage) (b : Books) (roll : Roll) : Prop where
  accounts : Accounts b roll s.schedule s.heap
  manned : s.Manned b

variable {b : Books} {roll : Roll} {s s' : Stage} {d : Deed} {t : Track}

/-- What an instruction makes of the books, from its fetching on. -/
theorem execute_tallied {m m₀ m₁ : Machine} {i : Instruction} (hs : (running m).Sound)
    (hstop : m.stop = none) (hf : m.Fetches i m₀) (hp : m₀.Paused i t m₁)
    (hfault : ∀ f m', Machine.execute i m₀ ≠ .error (.fault f) m')
    (ha : Accounts b roll m.schedule m.image.heap)
    (hstores : ∀ {j p k}, roll.moved t j p → ¬m₁.Stores i ⟨p, k⟩) :
    Action.Ends (fun m' => ∃ b', b.Entry m.schedule.spawned (.execute i m₁) b' ∧
      Accounts b' ((roll.moved t).joined m.schedule m'.schedule) m'.schedule m'.image.heap ∧
      b.Logs t m.schedule m'.schedule (.execute i m₁)) (Machine.execute i m₀) := by
  have hcarried := carried_of_fetches hs.1 hs.2 hf hp
  have hm₀ := hf.intact hs.1
  obtain ⟨_, _, _, _, rfl⟩ := hf.eq
  obtain ⟨hm₁, hleaves⟩ := hp.pause.leaves hm₀ hstop hfault
  -- A pause writes the registers back, and to no other cells of a process.
  have ha₁ : Accounts b (roll.moved t) m₁.schedule m₁.image.heap := by
    refine ha.moved hcarried.follows hcarried.schedule fun {j p p' x} _ _ => ?_
    refine ⟨?_, ?_, ?_⟩ <;> nofun
  have hspawned : m₁.schedule.spawned = m.schedule.spawned := hcarried.schedule.spawned
  refine ((Machine.execute_accounted hm₁ hp.pause hleaves ha₁ hstores).and hleaves.ends).mono ?_
  rintro m' ⟨⟨b', hentry, ha'⟩, hcontinues⟩
  rw [hspawned] at hentry
  rw [Roll.joined_congr hspawned] at ha'
  refine ⟨b', hentry, ha', ?_⟩
  change List.Forall₂ _ m.schedule.finished.toList m'.schedule.finished.toList
  rw [hcontinues.schedule.1.finished]
  exact hcarried.schedule.finished

/-- Every step makes one entry in the books at most, and they are right again. -/
theorem Step.tallied (hs : s.Sound) (hstep : s.Step d t s') (ht : s.Tallied b roll)
    (hstores : ∀ {i p k}, roll.moved t i p → ¬d.Stores ⟨p, k⟩) :
    ∃ b', b.Entry s.schedule.spawned d b' ∧
      s'.Tallied b' ((roll.moved t).joined s.schedule s'.schedule) ∧
      b.Logs t s.schedule s'.schedule d := by
  obtain ⟨ha, hmanned⟩ := ht
  cases hstep with
  | @outside w w' stores hsince hschedule =>
    rw [roll.moved_eq] at hstores ⊢
    have ha' : Accounts b roll w'.schedule w'.image.heap := by
      rw [hschedule]
      exact ha.evolves hsince.evolves hsince.grows fun hi => ⟨hstores hi, hstores hi, hstores hi⟩
    refine ⟨b, .outside, ⟨ha'.joins (congrArg (·.spawned) hschedule), hmanned⟩, ?_⟩
    change List.Forall₂ _ w.schedule.finished.toList w'.schedule.finished.toList
    rw [hschedule]
    exact (Schedule.Carried.refl _).finished
  | interrupts interrupts clock =>
    rw [roll.moved_eq]
    exact ⟨b, .interrupts, ⟨ha.joins rfl, hmanned⟩, (Schedule.Carried.refl _).finished⟩
  | @collect w w' live t hcollect hcollects =>
    have hkept := World.collect_kept hs
    rw [hcollect] at hkept
    have hfollows : w.image.heap.Follows (fun _ _ => False) t w'.image.heap :=
      hcollects.follows hkept.1.whole
    have ha' := ha.moved hfollows hcollects.schedule (by simp)
    exact ⟨b, .collect, ⟨ha'.joins hcollects.schedule.spawned, hmanned⟩,
      hcollects.schedule.finished⟩
  | @spawn w w' context name p hcontext hname hspawn =>
    have hw : Intact w := hs
    have himage : Intact w.image := World.image_intact hw
    obtain ⟨image, schedule, hmade, rfl⟩ := World.onSchedule_eq_ok hspawn
    rw [roll.moved_eq]
    refine ⟨_, .spawn, ⟨ha.spawn himage hcontext hname hmade, hmanned⟩, ?_⟩
    change List.Forall₂ _ w.schedule.finished.toList schedule.finished.toList
    rw [(Schedule.spawn_requeued hmade).finished]
    exact (Schedule.Carried.refl _).finished
  | @dispatch w w₁ p m hdequeue hunspill =>
    have hw : Intact w := hs
    obtain ⟨heap, runnable, htaken, rfl⟩ := World.dequeue_eq_ok hdequeue
    obtain ⟨i, is, hrunnable, ha'⟩ := ha.dequeue hw.whole hmanned htaken
    obtain ⟨_, _, _, _, _, _, _, _, -, -, -, -, rfl⟩ := Machine.unspill_eq_ok hunspill
    rw [roll.moved_eq]
    exact ⟨_, .dispatch hmanned hrunnable, ⟨ha'.joins rfl, i, rfl⟩,
      (Schedule.Carried.refl _).finished⟩
  | @execute m m₀ m₁ m' i t hstop hf hp heq =>
    have hend := execute_tallied hs hstop hf hp (by simp [heq]) ha hstores
    rw [heq] at hend
    obtain ⟨b', hentry, ha', hlogs⟩ := hend
    obtain ⟨j, hj⟩ := hmanned
    exact ⟨b', hentry, ⟨ha', j, hentry.current_execute.trans hj⟩, hlogs⟩
  | @fail m m₀ m₁ m' i t cause hstop hf hp heq =>
    have hend := execute_tallied hs hstop hf hp (by simp [heq]) ha hstores
    rw [heq] at hend
    obtain ⟨b', hentry, ha', hlogs⟩ := hend
    obtain ⟨j, hj⟩ := hmanned
    exact ⟨b', hentry, ⟨ha', j, hentry.current_execute.trans hj⟩, hlogs⟩
  | reject hstop hrejects =>
    obtain ⟨timer, e, htick, -, -⟩ := hrejects
    obtain ⟨_, _, rfl⟩ := Machine.tick_eq_ok htick
    rw [roll.moved_eq]
    exact ⟨b, .reject, ⟨ha.joins rfl, hmanned⟩, (Schedule.Carried.refl _).finished⟩
  | @leave m m' outcome p w hquits hsettle =>
    obtain ⟨hspills, houtcome⟩ := hquits.spills hs.1
    obtain ⟨i, hi⟩ := hmanned
    have hschedule : m'.schedule = m.schedule := hspills.schedule
    have ha₁ : Accounts b roll m'.schedule m'.image.heap := by
      rw [hschedule]
      refine ha.evolves hspills.evolves hspills.grows fun {j p x} _ => ?_
      refine ⟨?_, ?_, ?_⟩ <;> nofun
    obtain ⟨hspawned, b', hentry, hcurrent, ha', hlogs⟩ := World.settle_accounted
      m.schedule.spawned (Machine.intact_world hspills.intact) houtcome ha₁ hi hsettle
    rw [roll.moved_eq]
    refine ⟨b', hentry, ⟨ha'.joins ?_, hcurrent⟩, ?_⟩
    · rw [hspawned, hschedule]
      rfl
    · rwa [hschedule] at hlogs
  | @abort w w' p habort =>
    obtain ⟨i, hi⟩ := hmanned
    obtain ⟨hspawned, b', hentry, hcurrent, ha', hlogs⟩ :=
      World.abort_accounted w.schedule.spawned hs ha hi habort
    rw [roll.moved_eq]
    exact ⟨b', hentry, ⟨ha'.joins hspawned, hcurrent⟩, hlogs⟩

end Stage

end ObjectMachine
