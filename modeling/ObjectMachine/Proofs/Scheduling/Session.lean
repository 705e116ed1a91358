import ObjectMachine.Proofs.Image.Accepting
import ObjectMachine.Proofs.Machine.Integrity
import ObjectMachine.Proofs.Memory.Verification
import ObjectMachine.Proofs.Scheduling.Launching

namespace ObjectMachine

namespace Arenas

instance (a : Arenas) (v : Value) : Decidable (a.Sane v) :=
  match h : v.address? with
  | some loc => decidable_of_iff (v.isNil ∨ v.isInteger ∨ a.Allocated loc) (by simp [Sane, h])
  | none => decidable_of_iff (v.isNil ∨ v.isInteger) (by simp [Sane, h])

end Arenas

namespace World

variable {known : List Value} {w w' : World}

section Steps

theorem onImage_stable {α : Type} [Holder α] {act : ImageAction α} (hact : Stable known act) :
    Stable known (onImage act) := by
  refine hact.within World.image (fun w image => { w with image }) id (fun w => ?_)
    (fun _ => rfl) (fun _ _ => rfl) (fun w v hv => List.mem_append_left _ hv) fun w i v hv => ?_
  · rw [onImage]
    cases act w.image with
    | ok a i => rfl
    | error e i => cases e <;> rfl
  · exact (List.mem_append.mp hv).imp id fun h => List.mem_append_right _ h

theorem onHeap_stable {α : Type} [Holder α] {act : Action HeapError Heap α}
    (hact : Stable known act) : Stable known (onHeap act) :=
  onImage_stable (Image.onHeap_stable hact)

theorem vouched_schedule (w : World) : w.schedule.Vouched (held w ++ known) :=
  Schedule.vouched_iff.mpr fun _ hv => trusted_append.mpr (.inl (List.mem_append_right _ hv))

theorem setSchedule_stable (f : Schedule → Schedule)
    (hf : ∀ {known' s}, (∀ v, Trusted known v → Trusted known' v) → s.Vouched known' →
      (f s).Vouched known') :
    Stable known (modify fun w => { w with schedule := f w.schedule } : WorldAction PUnit) := by
  refine .modify (fun _ => rfl) fun w v hv => ?_
  rcases List.mem_append.mp hv with hv | hv
  · exact .inl (List.mem_append_left _ hv)
  · have hnew : (f w.schedule).Vouched (held w ++ known) :=
      hf (fun _ h => trusted_append.mpr (.inr h)) w.vouched_schedule
    exact trusted_append.mp (Schedule.vouched_iff.mp hnew v hv)

theorem onSchedule_stable {α : Type} [Holder α] {act : Schedule → ImageAction (α × Schedule)}
    (hact : ∀ {known' s}, (∀ v, Trusted known v → Trusted known' v) → s.Vouched known' →
      Stable known' (act s)) : Stable known (onSchedule act) := by
  refine .bind .get fun w => ?_
  refine .bind (onImage_stable (hact (fun _ hv => trusted_append.mpr (.inr hv))
    w.vouched_schedule)) fun delivered => ?_
  obtain ⟨a, schedule⟩ := delivered
  have hdelivered : ∀ v ∈ held a ++ held schedule, v ∈ held (a, schedule) := fun _ hv => hv
  refine .bind (setSchedule_stable (fun _ => schedule) fun hmono _ =>
    Schedule.vouched_iff.mpr fun v hv => hmono v ?_) fun _ => .pure fun v hv => ?_
  · simp only [trusted_append, hdelivered v (List.mem_append_right _ hv), true_or]
  · simp only [trusted_append, hdelivered v (List.mem_append_left _ hv), true_or, or_true]

theorem spawnMethod_stable {method receiver : Value} (hmethod : Trusted known method)
    (hreceiver : Trusted known receiver) (name : String) :
    Stable known (spawnMethod method receiver name) := by
  refine .bind (onImage_stable (Image.newContext_stable hmethod hreceiver (List.forall_mem_nil _)
    (by simp) (by simp) (List.forall_mem_nil _))) fun context => ?_
  refine .bind (onImage_stable (Image.newString_stable name)) fun name => ?_
  refine .bind (onSchedule_stable fun hmono hs => Schedule.spawn_stable hs
    (hmono context (by simp)) (hmono name (by simp))) fun p => ?_
  exact .bind (.inspect fun _ => rfl) fun described => .pure (by simp)

theorem dequeue_stable : Stable known dequeue := by
  refine onSchedule_stable fun {known' s} _ hs => ?_
  refine .bind (Image.onHeap_stable (Queue.dequeue_stable hs.runnable)) fun taken => ?_
  obtain ⟨p, runnable⟩ := taken
  have htaken : ∀ v ∈ held p ++ held runnable, v ∈ held (p, runnable) := fun _ hv => hv
  refine Schedule.pure_stable (fun v hv => ?_) ⟨fun v hv => ?_, hs.append.waiting,
    hs.append.current, hs.append.finished⟩
  · exact trusted_append.mpr (.inl (htaken v (List.mem_append_left _ hv)))
  · exact trusted_append.mpr (.inl (htaken v (List.mem_append_right _ hv)))

variable {p result : Value}

theorem enqueueRunnable_stable (hp : Trusted known p) : Stable known (enqueueRunnable p) := by
  refine onSchedule_stable fun {known' s} hmono hs => ?_
  refine .bind (Image.onHeap_stable (Queue.enqueue_stable hs.runnable (hmono p hp)))
    fun runnable => ?_
  exact Schedule.pure_stable nofun ⟨fun v hv => trusted_append.mpr (.inl hv), hs.append.waiting,
    hs.append.current, hs.append.finished⟩

theorem park_stable (hp : Trusted known p) : Stable known (park p) := by
  refine onSchedule_stable fun {known' s} hmono hs => ?_
  refine .bind (Image.onHeap_stable (Heap.setSlot_stable (hmono p hp) _
    (by simp [ProcessState.toValue]))) fun _ => ?_
  refine .bind (Image.onHeap_stable (Queue.enqueue_stable hs.waiting (hmono p hp)))
    fun waiting => ?_
  exact Schedule.pure_stable (List.forall_mem_nil _)
    ⟨hs.append.runnable, fun v hv => trusted_append.mpr (.inl hv),
    hs.append.current, hs.append.finished⟩

theorem finish_stable (hp : Trusted known p) (hresult : Trusted known result) :
    Stable known (finish p result) := by
  refine .bind (onHeap_stable (Heap.setSlot_stable hp _ (by simp [ProcessState.toValue])))
    fun _ => ?_
  refine .bind (onHeap_stable (Heap.setSlot_stable hp _ (by simp))) fun _ => ?_
  refine .bind (onHeap_stable (Heap.setSlot_stable hp _ hresult)) fun _ => ?_
  refine .bind (.inspect fun _ => rfl) fun described => ?_
  obtain ⟨id, name⟩ := described
  refine setSchedule_stable (fun s => { s with finished := s.finished.push ⟨id, name, result⟩ })
    fun hmono hs => ⟨hs.runnable, hs.waiting, hs.current, fun f hf => ?_⟩
  rcases Array.mem_push.mp hf with hf | rfl
  · exact hs.finished f hf
  · exact hmono result hresult

theorem setCurrent_stable (hp : Trusted known p) : Stable known (setCurrent p) :=
  setSchedule_stable (fun s => { s with current := p }) fun hmono hs =>
    ⟨hs.runnable, hs.waiting, hmono p hp, hs.finished⟩

theorem takeCurrent_stable : Stable known takeCurrent := by
  refine .bind .get fun w => ?_
  refine .bind (setCurrent_stable (by simp)) fun _ => .pure fun v hv => ?_
  obtain rfl := List.mem_singleton.mp hv
  exact w.vouched_schedule.current

theorem abort_stable : Stable known abort := by
  refine .bind takeCurrent_stable fun p => ?_
  refine .bind (onHeap_stable (Heap.setSlot_stable (by simp) _ (by simp [ProcessState.toValue])))
    fun _ => .pure (by simp)

theorem settle_stable {outcome : RunOutcome} (houtcome : ∀ v ∈ held outcome, Trusted known v) :
    Stable known (settle outcome) := by
  refine .bind takeCurrent_stable fun p => ?_
  cases outcome with
  | returned result =>
    have hresult := houtcome result (by simp [RunOutcome.values])
    exact .bind (finish_stable (by simp) (by simp [hresult])) fun _ => .pure (by simp)
  | preempted | yielded =>
    exact .bind (enqueueRunnable_stable (by simp)) fun _ => .pure (by simp)
  | suspended => exact .bind (park_stable (by simp)) fun _ => .pure (by simp)

end Steps

section Runs

variable (timer : Timer)

theorem interpret_kept (hw : Intact w) (turns : Nat) : Kept (interpret timer turns w) := by
  have hstart : Intact (Machine.ofWorld w) := by
    refine Machine.intact_of_registers hw ?_ nofun
    simp only [Machine.ofWorld, List.mem_cons, List.not_mem_nil, or_false, or_self]
    rintro v rfl
    exact Arenas.sane_nil _
  have hrun : Kept ((do Machine.unspill; Machine.run timer turns) (Machine.ofWorld w)) := by
    refine .bind (Machine.unspill_stable.kept hstart) fun _ m hunspill hm _ => ?_
    obtain ⟨_, _, _, _, _, _, _, _, -, -, -, -, rfl⟩ := Machine.unspill_eq_ok hunspill
    exact Machine.run_kept hm rfl timer turns
  cases heq : (do Machine.unspill; Machine.run timer turns) (Machine.ofWorld w) with
  | ok outcome m =>
    rw [heq] at hrun
    rw [interpret_of_eq_ok heq]
    exact ⟨Machine.intact_world hrun.1, hrun.2⟩
  | error e m =>
    rw [heq] at hrun
    rw [interpret_of_eq_error heq]
    cases e with
    | failure cause => exact Machine.intact_world hrun
    | fault f => trivial

theorem runProcess_kept (hw : Intact w) (turns : Nat) {p : Value} (hp : Sane w p) :
    Kept (runProcess timer turns p w) := by
  have hstable : Stable [p] (setCurrent p) := setCurrent_stable (by simp)
  refine .bind (hstable w hw (by simpa using hp)).kept fun _ w₁ _ hw₁ _ => ?_
  refine .bind ?run fun outcome w₂ _ hw₂ hsane => ?_
  case run =>
    have hinterpret := interpret_kept timer hw₁ turns
    change Kept (EStateM.tryCatch (interpret timer turns) _ w₁)
    rw [EStateM.tryCatch]
    cases heq : interpret timer turns w₁ with
    | ok outcome w₂ => simpa [heq] using hinterpret
    | error e w₂ =>
      rw [heq] at hinterpret
      cases e with
      | failure cause =>
        exact Stable.kept (.bind abort_stable fun _ => .throw _) hinterpret
      | fault f => trivial
  cases outcome with
  | none => exact ⟨hw₂, List.forall_mem_nil _⟩
  | some outcome =>
    have hstable : Stable (held outcome) (settle outcome) :=
      settle_stable fun v hv => trusted_of_mem hv
    exact (hstable.bind (fun _ => .pure (by simp)) w₂ hw₂ fun v hv =>
      hsane v (by simpa using hv)).kept

theorem runQueue_kept (hw : Intact w) (turns dispatches : Nat) :
    Kept (runQueue timer turns dispatches w) := by
  induction dispatches generalizing w with
  | zero => exact ⟨hw, nofun⟩
  | succ dispatches ih =>
    refine .bind (dequeue_stable.kept hw) fun taken w₁ _ hw₁ hsane => ?_
    cases taken with
    | none =>
      have hcount : Stable [] countWaiting := .inspect fun _ => rfl
      exact (hcount.bind fun _ => .pure (by simp)).kept hw₁
    | some p =>
      refine .bind (runProcess_kept timer hw₁ turns (hsane p (by simp))) fun done w₂ _ hw₂ _ => ?_
      cases done with
      | none => exact ⟨hw₂, nofun⟩
      | some _ => exact ih hw₂

instance : Holder Collection := ⟨fun _ => []⟩

/-- A collection always comes to its end. -/
theorem collect_delivers (hw : Intact w) : ∃ c w', collect w = .ok c w' ∧ Intact w' := by
  obtain ⟨live, schedule, image, hcollect, himage, hschedule⟩ :=
    Image.collect_intact (i := w.image) (s := w.schedule) (image_intact hw)
      fun v hv => hw.held v (List.mem_append_right _ hv)
  refine ⟨live, { w with image, schedule }, by simp only [collect, hcollect], himage.whole,
    fun v hv => ?_⟩
  exact (List.mem_append.mp hv).elim (himage.held v) (hschedule v)

theorem collect_kept (hw : Intact w) : Kept (collect w) := by
  obtain ⟨c, w', heq, hw'⟩ := collect_delivers hw
  rw [heq]
  exact ⟨hw', nofun⟩

end Runs

inductive Request where
  | defineClass (name : String) (superclass : Value) (instanceVariables : List String)
  | loadClass (definition : ClassDefinition)
  | addMethod (cls : Value) (method : Method)
  | compileDoIt (temps : List String) (body : List Expr)
  | load (template : CodeTemplate) (methodClass : Value)
  | intern (name : String)
  | setGlobal (name : String) (value : Value)
  | spawnMethod (method receiver : Value) (name : String)
  | run (timer : Timer) (fuel : Nat)
  | collect

namespace Request

def values : Request → List Value
  | .defineClass _ superclass _ => [superclass]
  | .addMethod cls _ => [cls]
  | .load _ methodClass => [methodClass]
  | .setGlobal _ value => [value]
  | .spawnMethod method receiver _ => [method, receiver]
  | .loadClass _ | .compileDoIt .. | .intern _ | .run .. | .collect => []

def perform : Request → WorldAction Unit
  | .defineClass name superclass vars => do
    let _ ← onImage (Image.defineClass name superclass vars)
  | .loadClass d => do let _ ← onImage (Image.loadClass d)
  | .addMethod cls m => do let _ ← onImage (Image.addMethod cls m)
  | .compileDoIt temps body => do let _ ← onImage (Image.compileDoIt temps body)
  | .load t cls => do let _ ← onImage (Image.load t cls)
  | .intern name => do let _ ← onImage (Image.intern name)
  | .setGlobal name v => onImage (Image.setGlobal name v)
  | .spawnMethod method receiver name => do let _ ← World.spawnMethod method receiver name
  | .run timer fuel => do let _ ← World.run timer fuel
  | .collect => do let _ ← World.collect

/-- The world after a request that delivered or failed. There is none after a fault, and a request
that names a stale value is not admitted. -/
def serve (r : Request) (w : World) : Option World :=
  if ∀ v ∈ r.values, w.image.heap.arenas.Sane v then
    match r.perform w with
    | .ok _ w' => some w'
    | .error (.failure _) w' => some w'
    | .error (.fault _) _ => none
  else none

theorem perform_kept (hw : Intact w) (r : Request) (hvalues : ∀ v ∈ r.values, Sane w v) :
    Kept (r.perform w) := by
  cases r with
  | defineClass name sup vars =>
    have hstable : Stable [sup] (onImage (Image.defineClass name sup vars)) :=
      onImage_stable (Image.defineClass_stable name (by simp) vars)
    exact (hstable.bind (fun _ => .pure (by simp)) w hw hvalues).kept
  | loadClass d =>
    exact (Stable.bind (onImage_stable (Image.loadClass_stable d)) fun _ => .pure (by simp)).kept hw
  | addMethod cls m =>
    have hstable : Stable [cls] (onImage (Image.addMethod cls m)) :=
      onImage_stable (Image.addMethod_stable (by simp) m)
    exact (hstable.bind (fun _ => .pure (by simp)) w hw hvalues).kept
  | compileDoIt temps body =>
    exact (Stable.bind (onImage_stable (Image.compileDoIt_stable temps body)) fun _ =>
      .pure (by simp)).kept hw
  | load t cls =>
    have hstable : Stable [cls] (onImage (Image.load t cls)) :=
      onImage_stable (Image.load_stable t (by simp))
    exact (hstable.bind (fun _ => .pure (by simp)) w hw hvalues).kept
  | intern name =>
    exact (Stable.bind (onImage_stable (Image.intern_stable name)) fun _ => .pure (by simp)).kept hw
  | setGlobal name v =>
    have hstable : Stable [v] (onImage (Image.setGlobal name v)) :=
      onImage_stable (Image.setGlobal_stable name (by simp))
    exact (hstable w hw hvalues).kept
  | spawnMethod method receiver name =>
    have hstable : Stable [method, receiver] (World.spawnMethod method receiver name) :=
      spawnMethod_stable (by simp) (by simp) name
    exact (hstable.bind (fun _ => .pure (by simp)) w hw hvalues).kept
  | run timer fuel =>
    exact .bind (runQueue_kept timer hw fuel fuel) fun _ _ _ hw' _ => ⟨hw', nofun⟩
  | collect => exact .bind (collect_kept hw) fun _ _ _ hw' _ => ⟨hw', nofun⟩

theorem serve_intact (hw : Intact w) {r : Request} (heq : r.serve w = some w') : Intact w' := by
  rw [serve] at heq
  split at heq
  · rename_i hvalues
    have hkept := perform_kept hw r hvalues
    split at heq
    · rename_i hperform
      cases heq
      rw [hperform] at hkept
      exact hkept.1
    · rename_i hperform
      cases heq
      rw [hperform] at hkept
      exact hkept
    · cases heq
  · cases heq

end Request

def session (settings : HeapSettings) (requests : List Request) : Option World :=
  match Image.boot settings with
  | .ok image => requests.foldlM (fun w r => r.serve w) { image }
  | .error _ => none

/-- Whatever is asked of a fresh world, as long as no rule of the machine is broken: the check of
its memory passes, and its symbols, the objects it knows, its queues, its running process and the
results of its processes are nil, integers or objects of the memory as it is now. -/
theorem session_without_stale_reference (settings : HeapSettings) (requests : List Request) :
    match session settings requests with
    | some w => (∃ count, w.image.heap.verify = .ok (.ok count)) ∧
        ∀ v ∈ w.image.roots ++ w.schedule.roots, w.image.heap.arenas.Sane v
    | none => True := by
  have hserve : ∀ {w w' : World}, Intact w → requests.foldlM (fun w r => r.serve w) w = some w' →
      Intact w' := by
    intro w w' hw heq
    induction requests generalizing w with
    | nil =>
      cases heq
      exact hw
    | cons r requests ih =>
      rw [List.foldlM_cons] at heq
      obtain ⟨w₁, hr, hrest⟩ := Option.bind_eq_some_iff.mp heq
      exact ih (Request.serve_intact hw hr) hrest
  split
  · rename_i w heq
    rw [session] at heq
    split at heq
    · rename_i image hboot
      have himage := Image.boot_intact hboot
      have hw := hserve (intact_fresh himage) heq
      refine ⟨hw.whole.verify, fun v hv => hw.held v ?_⟩
      exact List.mem_cons_of_mem _ hv
    · cases heq
  · trivial

theorem Request.serve_of_ok {r : Request} (hvalues : ∀ v ∈ r.values, w.image.heap.arenas.Sane v)
    (heq : r.perform w = .ok () w') : r.serve w = some w' := by
  rw [serve, if_pos hvalues, heq]

theorem serve_loadClasses {classes : List ClassDefinition}
    (heq : Program.loadClasses classes w = .ok () w') :
    (classes.map Request.loadClass).foldlM (fun w r => r.serve w) w = some w' := by
  induction classes generalizing w with
  | nil =>
    obtain ⟨-, rfl⟩ := pure_eq_ok.mp heq
    rfl
  | cons d classes ih =>
    obtain ⟨_, w₁, hload, hrest⟩ := bind_eq_ok.mp heq
    have hserve : (Request.loadClass d).serve w = some w₁ :=
      Request.serve_of_ok (List.forall_mem_nil _) (bind_eq_ok.mpr ⟨_, w₁, hload, rfl⟩)
    rw [List.map_cons, List.foldlM_cons, hserve]
    exact ih hrest

def idleCode : CodeTemplate where
  selector := "doIt"
  bytecode := #[32]
  literals := []
  args := 0
  temps := 0
  heapVars := 0
  stack := 0

/-- Classes are loaded, a name is interned, a process is made and run to its end, and garbage is
collected. -/
theorem session_of_drawing : ∃ method w,
    session {} (Program.drawing.classes.map .loadClass ++ [.intern "main", .compileDoIt [] [],
      .spawnMethod method .nil "main", .run .never 2, .collect]) = some w ∧
    (∃ count, w.image.heap.verify = .ok (.ok count)) ∧
    ∀ v ∈ w.image.roots ++ w.schedule.roots, w.image.heap.arenas.Sane v := by
  obtain ⟨i, i₁, hboot, hclasses, hi, hs, hroom⟩ := Program.drawing_loads
  -- The start shall not be computed.
  generalize ({} : HeapSettings) = settings at hboot ⊢
  have hrest : i₁.heap.Affords ([Part.symbol "main"] ++ (idleCode.methodParts ++
      Part.process ⟨0, 0, 0, 0⟩ "main")) := hroom _ (by rintro (_ | _) <;> decide +kernel)
  obtain ⟨symbol, i₂, hintern, htakes₂⟩ :=
    (Image.intern_completes hi "main").delivers rfl hrest.of_append
  obtain ⟨ha₂, -⟩ := Image.intern_eq_ok hi hs hintern
  have hcode : (Image.doItMethod [] []).compile [] = .ok idleCode :=
    Method.compile_of_integers [] rfl (by decide +kernel)
  obtain ⟨method, i₃, hcompile, htakes₃, ha₃, hmethod, hembodies⟩ :=
    Image.compileDoIt_affords [] ha₂.intact ha₂.spelled hcode rfl nofun (by decide)
      (by decide +kernel) (htakes₂.affords hrest).of_append
  obtain ⟨id, w₄, hspawn, -, p, ctx, hlaunches⟩ := spawnMethod_affords (intact_fresh ha₃.intact)
    ha₃.spelled hembodies rfl (by decide) hmethod (Arenas.sane_nil _) (.inl rfl)
    (htakes₃.affords (htakes₂.affords hrest))
  obtain ⟨w₅, hrun⟩ := hlaunches.run_returnSelf rfl rfl rfl hembodies rfl 0
  have hserve₁ := serve_loadClasses hclasses
  have hserve₂ : (Request.intern "main").serve { image := i₁ } = some { image := i₂ } :=
    Request.serve_of_ok (List.forall_mem_nil _)
      (bind_eq_ok.mpr ⟨symbol, _, onImage_eq_ok.mpr ⟨i₂, hintern, rfl⟩, rfl⟩)
  have hserve₃ : (Request.compileDoIt [] []).serve { image := i₂ } = some { image := i₃ } :=
    Request.serve_of_ok (List.forall_mem_nil _)
      (bind_eq_ok.mpr ⟨method, _, onImage_eq_ok.mpr ⟨i₃, hcompile, rfl⟩, rfl⟩)
  have hserve₄ : (Request.spawnMethod method .nil "main").serve { image := i₃ } = some w₄ :=
    Request.serve_of_ok
      (List.forall_mem_cons.mpr ⟨hmethod, List.forall_mem_singleton.mpr (Arenas.sane_nil _)⟩)
      (bind_eq_ok.mpr ⟨id, w₄, hspawn, rfl⟩)
  have hserve₅ : (Request.run .never 2).serve w₄ = some w₅ :=
    Request.serve_of_ok (List.forall_mem_nil _) (bind_eq_ok.mpr ⟨some (), w₅, hrun, rfl⟩)
  have hw₅ : Intact w₅ :=
    Request.serve_intact (Request.serve_intact (intact_fresh ha₃.intact) hserve₄) hserve₅
  obtain ⟨c, w₆, hcollect, -⟩ := collect_delivers hw₅
  have hserve₆ : Request.collect.serve w₅ = some w₆ :=
    Request.serve_of_ok (List.forall_mem_nil _) (bind_eq_ok.mpr ⟨c, w₆, hcollect, rfl⟩)
  have hsession : session settings (Program.drawing.classes.map .loadClass ++ [.intern "main",
      .compileDoIt [] [], .spawnMethod method .nil "main", .run .never 2, .collect]) =
      some w₆ := by
    simp only [session, hboot, List.foldlM_append, hserve₁, List.foldlM_cons, List.foldlM_nil,
      hserve₂, hserve₃, hserve₄, hserve₅, hserve₆, Option.bind_eq_bind, Option.bind_some,
      Option.pure_def]
  have hstale := session_without_stale_reference settings (Program.drawing.classes.map .loadClass ++
    [.intern "main", .compileDoIt [] [], .spawnMethod method .nil "main", .run .never 2, .collect])
  rw [hsession] at hstale
  exact ⟨method, w₆, hsession, hstale⟩

end World

end ObjectMachine
