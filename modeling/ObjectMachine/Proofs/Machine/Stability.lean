import ObjectMachine.Proofs.Image.Stability

namespace ObjectMachine

variable {known : List Value}

namespace Schedule

variable {s : Schedule} {p : Value}

structure Vouched (known : List Value) (s : Schedule) : Prop where
  runnable : ∀ v ∈ held s.runnable, Trusted known v
  waiting : ∀ v ∈ held s.waiting, Trusted known v
  current : Trusted known s.current
  finished : ∀ f ∈ s.finished, Trusted known f.result

theorem vouched_iff : s.Vouched known ↔ ∀ v ∈ held s, Trusted known v := by
  have hparts : s.Vouched known ↔ (∀ v ∈ held s.runnable, Trusted known v) ∧
      (∀ v ∈ held s.waiting, Trusted known v) ∧ Trusted known s.current ∧
      ∀ f ∈ s.finished, Trusted known f.result :=
    ⟨fun h => ⟨h.1, h.2, h.3, h.4⟩, fun h => ⟨h.1, h.2.1, h.2.2.1, h.2.2.2⟩⟩
  rw [hparts]
  simp [roots, or_imp, forall_and, and_assoc]

theorem Vouched.append {more : List Value} (hs : s.Vouched known) : s.Vouched (more ++ known) :=
  vouched_iff.mpr fun v hv => trusted_append.mpr (.inr (vouched_iff.mp hs v hv))

/-- A result together with a new schedule. -/
theorem pure_stable {α : Type} [Holder α] {a : α} (ha : ∀ v ∈ held a, Trusted known v)
    (hs : s.Vouched known) : Stable known (pure (a, s) : ImageAction (α × Schedule)) :=
  .pure fun v hv => (List.mem_append.mp hv).elim (ha v) (vouched_iff.mp hs v)

open Image in
theorem spawn_stable {context name : Value} (hs : s.Vouched known)
    (hcontext : Trusted known context) (hname : Trusted known name) :
    Stable known (s.spawn context name) := by
  refine .bind .get fun i => ?_
  refine .bind (onHeap_stable (Heap.allocatePointers_stable (by simp) _)) fun p => ?_
  refine .bind (onHeap_stable (Heap.setSlot_stable (by simp) _ (by simp))) fun _ => ?_
  refine .bind (onHeap_stable (Heap.setSlot_stable (by simp) _ (by simp [hname]))) fun _ => ?_
  refine .bind (onHeap_stable (Heap.setSlot_stable (by simp) _ (by simp [hcontext]))) fun _ => ?_
  refine .bind (onHeap_stable (Heap.setSlot_stable (by simp) _ (by simp [ProcessState.toValue])))
    fun _ => ?_
  have hs' : s.Vouched (held p ++ (held i ++ known)) := hs.append.append
  refine .bind (onHeap_stable (Queue.enqueue_stable hs'.runnable (by simp))) fun runnable => ?_
  exact pure_stable (by simp) ⟨fun v hv => trusted_append.mpr (.inl hv), hs'.append.waiting,
    hs'.append.current, hs'.append.finished⟩

open Image in
theorem suspend_stable (hs : s.Vouched known) (hp : Trusted known p) :
    Stable known (s.suspend p) := by
  refine .bind (.inspect fun _ => by simp) fun state => ?_
  split
  · exact pure_stable nofun hs.append
  · refine .bind (onHeap_stable (Queue.remove_stable hs.append.runnable (by simp [hp])))
      fun removed => ?_
    obtain ⟨found, runnable⟩ := removed
    have hs' : s.Vouched (held (found, runnable) ++ (held state ++ known)) := hs.append.append
    dsimp only
    split
    · exact pure_stable nofun hs'
    · refine .bind (onHeap_stable (Heap.setSlot_stable (by simp [hp]) _
        (by simp [ProcessState.toValue]))) fun _ => ?_
      refine .bind (onHeap_stable (Queue.enqueue_stable hs'.waiting (by simp [hp])))
        fun waiting => pure_stable nofun ?_
      have hrunnable : ∀ v ∈ held runnable, v ∈ held (found, runnable) := fun _ hv => hv
      refine ⟨fun v hv => ?_, fun v hv => trusted_append.mpr (.inl hv), hs'.append.current,
        hs'.append.finished⟩
      simp only [trusted_append, hrunnable v hv, true_or, or_true]

open Image in
theorem resume_stable (hs : s.Vouched known) (hp : Trusted known p) :
    Stable known (s.resume p) := by
  refine .bind (.inspect fun _ => by simp) fun state => ?_
  split
  · exact pure_stable nofun hs.append
  · refine .bind (onHeap_stable (Queue.remove_stable hs.append.waiting (by simp [hp])))
      fun removed => ?_
    obtain ⟨found, waiting⟩ := removed
    have hs' : s.Vouched (held (found, waiting) ++ (held state ++ known)) := hs.append.append
    dsimp only
    split
    · exact pure_stable nofun hs'
    · refine .bind (onHeap_stable (Heap.setSlot_stable (by simp [hp]) _
        (by simp [ProcessState.toValue]))) fun _ => ?_
      refine .bind (onHeap_stable (Queue.enqueue_stable hs'.runnable (by simp [hp])))
        fun runnable => pure_stable nofun ?_
      have hwaiting : ∀ v ∈ held waiting, v ∈ held (found, waiting) := fun _ hv => hv
      refine ⟨fun v hv => trusted_append.mpr (.inl hv), fun v hv => ?_, hs'.append.current,
        hs'.append.finished⟩
      simp only [trusted_append, hwaiting v hv, true_or, or_true]

end Schedule

namespace Machine

theorem onImage_stable {α : Type} [Holder α] {act : ImageAction α} (hact : Stable known act) :
    Stable known (onImage act) := by
  refine hact.within (fun m => m.image) (fun m image => { m with image }) id (fun m => ?_)
    (fun _ => rfl) (fun _ _ => rfl) (fun m v hv => ?_) fun m i v hv => ?_
  · rw [onImage]
    cases act m.image with
    | ok a i => rfl
    | error e i => cases e <;> rfl
  · exact List.mem_append_left _ (List.mem_append_left _ (List.mem_append_left _ hv))
  · simp only [Holder.held, List.mem_append] at hv ⊢
    tauto

theorem onHeap_stable {α : Type} [Holder α] {act : Action HeapError Heap α}
    (hact : Stable known act) : Stable known (onHeap act) :=
  onImage_stable (Image.onHeap_stable hact)

theorem setSlot_stable {v x : Value} (hv : Trusted known v) (i : Nat) (hx : Trusted known x) :
    Stable known (setSlot v i x) :=
  onHeap_stable (Heap.setSlot_stable hv i hx)

/-- The schedule of a machine without stale references. -/
theorem vouched_schedule (m : Machine) : m.schedule.Vouched (held m ++ known) :=
  Schedule.vouched_iff.mpr fun v hv => trusted_append.mpr (.inl (by
    simp only [Holder.held, List.mem_append] at hv ⊢
    tauto))

theorem onSchedule_stable {α : Type} [Holder α] {act : Schedule → ImageAction (α × Schedule)}
    (hact : ∀ {known' s}, (∀ v, Trusted known v → Trusted known' v) → s.Vouched known' →
      Stable known' (act s)) : Stable known (onSchedule act) := by
  refine .bind .get fun m => ?_
  refine .bind (onImage_stable (hact (fun _ hv => trusted_append.mpr (.inr hv))
    m.vouched_schedule)) fun delivered => ?_
  obtain ⟨a, schedule⟩ := delivered
  have hdelivered : ∀ v ∈ held a ++ held schedule, v ∈ held (a, schedule) := fun _ hv => hv
  refine .bind (.modify (fun _ => rfl) fun m v hv => ?_) fun _ => ?_
  · have hparts : v ∈ held schedule ∨ v ∈ held m := by
      simp only [Holder.held, List.mem_append] at hv ⊢
      tauto
    refine hparts.symm.imp_right fun h => ?_
    simp only [trusted_append, hdelivered v (List.mem_append_right _ h), true_or]
  · refine .pure fun v hv => ?_
    simp only [trusted_append, hdelivered v (List.mem_append_left _ hv), true_or, or_true]

theorem intact_image {m : Machine} (hm : Intact m) : Intact m.image :=
  ⟨hm.whole, fun v hv => hm.held v
    (List.mem_append_left _ (List.mem_append_left _ (List.mem_append_left _ hv)))⟩

theorem classOf_stable {v : Value} (hv : Trusted known v) : Stable known (ask (·.classOf v)) :=
  .query fun _ hm hknown => Image.yields_classOf (intact_image hm) (hv.sane hknown)

section Registers

/-- A change to the registers of the machine. -/
theorem reload_stable {f : Machine → Machine} (himage : ∀ m, (f m).image = m.image)
    (hschedule : ∀ m, (f m).schedule = m.schedule)
    (hregisters : ∀ m, ∀ v ∈ [(f m).process, (f m).context, (f m).method, (f m).literals,
      (f m).accumulator] ++ held (f m).stop, v ∈ held m ∨ Trusted known v) :
    Stable known (modify f : MachineAction PUnit) := by
  refine .modify (fun m => congrArg Image.heap (himage m)) fun m v hv => ?_
  have hparts : v ∈ m.image.values ++ m.schedule.roots ∨ v ∈ [(f m).process, (f m).context,
      (f m).method, (f m).literals, (f m).accumulator] ++ held (f m).stop := by
    rw [← himage, ← hschedule]
    simpa [Holder.held, or_assoc] using hv
  refine hparts.elim (fun h => .inl ?_) (hregisters m v)
  exact List.mem_append_left _ (List.mem_append_left _ h)

theorem setAccumulator_stable {v : Value} (hv : Trusted known v) :
    Stable known (setAccumulator v) :=
  reload_stable (fun _ => rfl) (fun _ => rfl) (by simp +contextual [hv, or_imp])

theorem request_stable {outcome : RunOutcome} (hv : ∀ v ∈ held outcome, Trusted known v) :
    Stable known (request outcome) :=
  reload_stable (fun _ => rfl) (fun _ => rfl) (by
    simp +contextual [hv, or_imp])

theorem register_stable (r : UInt8) : Stable known (register r) :=
  .query fun _ hm _ => hm.whole.yields_slot (hm.held _ (by simp)) _

theorem registers_stable (rs : List UInt8) : Stable known (registers rs) := by
  induction rs generalizing known with
  | nil => exact .pure (by simp)
  | cons r rs ih =>
    exact .bind (register_stable r) fun v => .bind ih fun vs => .pure (by simp +contextual)

theorem setRegister_stable (r : UInt8) {v : Value} (hv : Trusted known v) :
    Stable known (setRegister r v) :=
  .bind .get fun m => setSlot_stable (by simp) _ (by simp [hv])

theorem literal_stable (i : UInt8) : Stable known (literal i) :=
  .query fun _ hm _ => hm.whole.yields_slot (hm.held _ (by simp)) _

theorem heapVars_stable (which : Nat) : Stable known (heapVars which) :=
  .query fun _ hm _ => hm.whole.yields_slot (hm.held _ (by simp)) _

theorem slot_stable {v : Value} (hv : Trusted known v) (i : Nat) : Stable known (slot v i) :=
  .slot hv i

theorem trace_stable : Stable known trace := .inspect fun _ => by simp

theorem jump_stable (offset : Int16) : Stable known (jump offset) :=
  .modify (fun _ => rfl) fun _ _ hv => .inl hv

theorem spill_stable : Stable known spill := by
  refine .bind .get fun m => ?_
  refine .bind (setSlot_stable (by simp) _ (by simp)) fun _ => ?_
  refine .bind (setSlot_stable (by simp) _ (by simp)) fun _ => ?_
  exact setSlot_stable (by simp) _ (by simp)

theorem fetchCode_stable (bytecode : Value) : Stable known (fetchCode bytecode) := by
  refine .bind .get fun m => ?_
  refine .bind .get fun m' => ?_
  dsimp only
  split
  on_goal 1 => refine .bind (.modify (fun _ => rfl) fun _ _ hv => .inl hv) fun _ => ?_
  all_goals
    refine .bind .get fun m => ?_
    split
    · exact .pure (by simp)
    · refine .bind (.inspect fun _ => rfl) fun code => ?_
      exact .bind (.modify (fun _ => rfl) fun _ _ hv => .inl hv) fun _ => .pure (by simp)

theorem loadFrame_stable : Stable known loadFrame := by
  refine .bind .get fun m => ?_
  refine .bind (slot_stable (by simp) _) fun method => ?_
  refine .bind (slot_stable (by simp) _) fun literals => ?_
  refine .bind (slot_stable (by simp) _) fun pc => ?_
  refine .bind (slot_stable (by simp) _) fun bytecode => ?_
  refine .bind (fetchCode_stable bytecode) fun code => ?_
  exact reload_stable (fun _ => rfl) (fun _ => rfl) (by
    simp +contextual [or_imp])

theorem unspill_stable : Stable known unspill := by
  refine .bind .get fun m => ?_
  have hcurrent : m.schedule.current ∈ held m := by simp [Schedule.roots]
  refine .bind (slot_stable (trusted_append.mpr (.inl hcurrent)) _) fun context => ?_
  refine .bind (slot_stable (trusted_append.mpr (.inr (trusted_append.mpr (.inl hcurrent)))) _)
    fun accumulator => ?_
  refine .bind (reload_stable (fun _ => rfl) (fun _ => rfl) ?_) fun _ => loadFrame_stable
  simp +contextual [or_imp, Schedule.roots]

end Registers

section Activations

variable {code receiver value parentHeapVars : Value} {args : List Value}

theorem activate_stable {home : Option Value} (hcode : Trusted known code)
    (hreceiver : Trusted known receiver) (hargs : ∀ v ∈ args, Trusted known v)
    (hparent : Trusted known parentHeapVars) (hhome : ∀ v ∈ held home, Trusted known v) :
    Stable known (activate code receiver args parentHeapVars home) := by
  refine .bind .get fun m => ?_
  refine .bind (setSlot_stable (by simp) _ (by simp)) fun _ => ?_
  refine .bind (onImage_stable (Image.newContext_stable (by simp [hcode]) (by simp [hreceiver]) ?_
    (by simp) (by simp [hparent]) ?_)) fun context => ?_
  · exact fun v hv => by simp [hargs v hv]
  · exact fun v hv => by simp [hhome v hv]
  · refine .bind (reload_stable (fun _ => rfl) (fun _ => rfl) ?_) fun _ => loadFrame_stable
    simp +contextual [or_imp]

theorem dispatch_stable {selector cls : Value} (hreceiver : Trusted known receiver)
    (hargs : ∀ v ∈ args, Trusted known v) (hcls : Trusted known cls) :
    Stable known (dispatch selector receiver args cls) := by
  refine .bind (.query fun m hm hknown =>
    hm.whole.yields_lookupFrom selector _ (hcls.sane hknown)) fun found => ?_
  cases found with
  | none =>
    refine .bind (.inspect fun _ => rfl) fun name => ?_
    refine .bind (.inspect fun _ => rfl) fun text => ?_
    exact .bind trace_stable fun _ => .fail _
  | some found =>
    obtain ⟨method, owner⟩ := found
    exact activate_stable (by simp) (by simp [hreceiver]) (fun v hv => by simp [hargs v hv])
      (by simp) (by simp)

/-- A check that may end the process. -/
theorem check_stable {c : Prop} [Decidable c] {cause : List String → RuntimeError}
    {rest : PUnit → MachineAction PUnit} (hrest : Stable known (rest ⟨⟩)) :
    Stable known (if c then do
        let frames ← trace
        let u ← Action.fail (cause frames)
        rest u
      else rest ⟨⟩) := by
  split
  · refine .bind trace_stable fun frames => .bind (.fail _) fun _ => ?_
    exact hrest.mono fun v hv => by simp [trusted_of_mem hv]
  · exact hrest

theorem continueIn_stable {target : Value} (htarget : Trusted known target)
    (hvalue : Trusted known value) : Stable known (continueIn target value) := by
  refine .bind (setAccumulator_stable hvalue) fun _ => ?_
  split
  · exact request_stable (by simp [RunOutcome.values, hvalue])
  · refine .bind (slot_stable (by simp [htarget]) _) fun pc => ?_
    refine check_stable ?_
    refine .bind (reload_stable (fun _ => rfl) (fun _ => rfl) ?_) fun _ => loadFrame_stable
    simp +contextual [or_imp, htarget]

theorem returnValue_stable (hvalue : Trusted known value) : Stable known (returnValue value) := by
  refine .bind .get fun m => ?_
  refine .bind (setSlot_stable (by simp) _ (by simp)) fun _ => ?_
  refine .bind (slot_stable (by simp) _) fun previous => ?_
  exact continueIn_stable (by simp) (by simp [hvalue])

theorem isInstance_stable (v : Value) (k : KernelClass) : Stable known (isInstance v k) :=
  .inspect fun _ => rfl

theorem invokeBlock_stable {block : Value} (hblock : Trusted known block)
    (hargs : ∀ v ∈ args, Trusted known v) : Stable known (invokeBlock block args) := by
  refine .bind (isInstance_stable _ _) fun isBlock => ?_
  split
  · exact setAccumulator_stable (by simp)
  · refine .bind (.inspect fun _ => rfl) fun shape => ?_
    split
    · exact setAccumulator_stable (by simp)
    · refine .bind (slot_stable (by simp [hblock]) _) fun receiver => ?_
      refine .bind (slot_stable (by simp [hblock]) _) fun parent => ?_
      refine .bind (slot_stable (by simp [hblock]) _) fun home => ?_
      exact activate_stable (by simp [hblock]) (by simp) (fun v hv => by simp [hargs v hv])
        (by simp) (by simp)

theorem restore_stable {context : Value} (hcontext : Trusted known context) (own parent : UInt8) :
    Stable known (restore context own parent) := by
  refine .bind (slot_stable hcontext _) fun mine => ?_
  refine .bind (slot_stable (by simp) _) fun value => ?_
  refine .bind (slot_stable (by simp [hcontext]) _) fun theirs => ?_
  exact setSlot_stable (by simp) _ (by simp)

theorem restoreLeading_stable {context : Value} (hcontext : Trusted known context)
    (code : List (Nat × Instruction)) : Stable known (restoreLeading context code) := by
  fun_induction restoreLeading context code with
  | case1 _ own parent rest ih => exact .bind (restore_stable hcontext own parent) fun _ => ih
  | case2 => exact .pure (by simp)

theorem unwind_stable {context : Value} (hcontext : Trusted known context) :
    Stable known (unwind context) := by
  refine .bind (slot_stable hcontext _) fun code => ?_
  refine .bind .get fun m => ?_
  refine .bind (classOf_stable (by simp)) fun cls => ?_
  split
  · refine .bind (slot_stable (by simp) _) fun bytecode => ?_
    refine .bind (.inspect fun _ => rfl) fun bytes => ?_
    exact restoreLeading_stable (by simp [hcontext]) _
  · exact .pure (by simp)

theorem yields_chainTo {h : Heap} (whole : h.Whole) (home : Value) (fuel : Nat) {seen : List Value}
    {cursor : Value} (hseen : ∀ v ∈ seen, h.arenas.Sane v) (hcursor : h.arenas.Sane cursor) :
    Yields h (chainTo h home fuel seen cursor) := by
  induction fuel generalizing seen cursor with
  | zero => exact .error _
  | succ fuel ih =>
    rw [chainTo]
    split
    · exact .pure (by simp)
    · split
      · exact .pure (by simpa [or_imp, forall_and, hcursor] using hseen)
      · refine .bind (whole.yields_slot hcursor _) fun next hnext => ih ?_ (by simpa using hnext)
        simpa [hcursor] using hseen

theorem unwindAll_stable {contexts : List Value} (hcontexts : ∀ v ∈ contexts, Trusted known v) :
    Stable known (unwindAll contexts) := by
  induction contexts with
  | nil => exact .pure (by simp)
  | cons context contexts ih =>
    have hcontext := hcontexts context List.mem_cons_self
    refine .bind (unwind_stable hcontext) fun _ => ?_
    refine .bind (setSlot_stable hcontext _ (by simp)) fun _ => ?_
    exact ih fun v hv => hcontexts v (List.mem_cons_of_mem _ hv)

theorem nonLocalReturn_stable {source : Value} (hsource : Trusted known source)
    (hvalue : Trusted known value) : Stable known (nonLocalReturn source value) := by
  refine .bind (isInstance_stable _ _) fun isContext => ?_
  split
  · exact setAccumulator_stable (by simp)
  · refine .bind (slot_stable (by simp [hsource]) _) fun home => ?_
    refine check_stable ?_
    refine .bind (slot_stable (by simp) _) fun pc => ?_
    refine check_stable ?_
    refine .bind (.query fun m hm hknown => yields_chainTo hm.whole home _ nofun
      (hm.held _ (by simp))) fun chain => ?_
    cases chain with
    | none => exact .bind trace_stable fun _ => .fail _
    | some contexts =>
      refine .bind (unwindAll_stable fun v hv => by simp [hv]) fun _ => ?_
      refine .bind (slot_stable (by simp) _) fun previous => ?_
      exact continueIn_stable (by simp) (by simp [hvalue])

theorem returnInto_stable {target : Value} (htarget : Trusted known target)
    (hvalue : Trusted known value) : Stable known (returnInto target value) := by
  refine .bind (isInstance_stable _ _) fun isContext => ?_
  split
  · exact setAccumulator_stable (by simp)
  · exact continueIn_stable (by simp [htarget]) (by simp [hvalue])

end Activations

end Machine

end ObjectMachine
