import ObjectMachine.Proofs.Machine.Entering
import ObjectMachine.Proofs.Machine.Performance
import ObjectMachine.Proofs.Scheduling.Enlisting

namespace ObjectMachine.Machine

open ObjectMachine.Action

variable {W : Licence} {F : Value → Prop} {S : Schedule → Prop} {m m' m₁ : Machine}
  {i : Instruction} {v target value code receiver parent : Value} {args : List Value}
  {home : Option Value}

/-- All chains end: those of contexts, that of the machine and those of processes. -/
structure Minds (m : Machine) : Prop where
  grounded : m.image.Grounded
  enlisted : m.schedule.Enlisted m.image
  rooted : m.image.Rooted m.context

/-- A machine after a step that minds the chains of contexts. -/
structure Heeds (m m' : Machine) : Prop where
  image : m.image.Heeds m'.image
  schedule : m'.schedule.Enlisted m'.image

theorem Minds.refl (hminds : m.Minds) (hm : Intact m) : m.Heeds m :=
  ⟨.refl (intact_image hm) hminds.grounded, hminds.enlisted⟩

theorem Minds.after (hminds : m.Minds) (h : m.Heeds m') (hplace : m'.context = m.context) :
    m'.Minds := ⟨h.image.grounded, h.schedule, hplace ▸ h.image.rooted hminds.rooted⟩

theorem Heeds.trans {m'' : Machine} (h : m.Heeds m') (h' : m'.Heeds m'') : m.Heeds m'' :=
  ⟨h.image.trans h'.image, h'.schedule⟩

/-- The image changed, and no more than the registers beside it. -/
theorem Minds.heeds_of_image (hminds : m.Minds) (himage : m.image.Heeds m'.image)
    (hschedule : m'.schedule = m.schedule) : m.Heeds m' :=
  ⟨himage, hschedule ▸ himage.schedule hminds.enlisted⟩

/-- Writing that breaks no chain, and new objects that are neither contexts nor processes. -/
theorem Minds.heeds_of_leaves {α : Type} [Holder α]
    {r : EStateM.Result (Stop RuntimeError) Machine α}
    (hminds : m.Minds) (hm : Intact m)
    (hr : Leaves (Within W F m.image.known S m.process m.image.heap) m r)
    (hS : ∀ s, S s → s = m.schedule) (hW : ∀ c x, W c x → m.image.Spares c x)
    (hF : ¬F (m.image.kernelClass .context) ∧ ¬F (m.image.kernelClass .process)) :
    Meets (fun _ => m.Heeds) m.Heeds r := by
  have hdone : ∀ {m'}, Within W F m.image.known S m.process m.image.heap m' → m.Heeds m' :=
    fun h => hminds.heeds_of_image
      (hminds.grounded.heeds (intact_image hm) h.image h.known (fun c x hc _ => hW c x hc) hF)
      (hS _ h.schedule)
  match r, hr with
  | .ok _ _, h => exact hdone h.1
  | .error (.failure _) _, h => exact hdone h.1
  | .error (.fault _) _, _ => trivial

theorem onImage_meets {α : Type} {act : ImageAction α} {Q : α → Image → Prop} {P : Image → Prop}
    (hact : Meets Q P (act m.image)) :
    Meets (fun a m' => m' = { m with image := m'.image } ∧ Q a m'.image)
      (fun m' => m' = { m with image := m'.image } ∧ P m'.image) (onImage act m) := by
  rw [onImage]
  dsimp only
  cases heq : act m.image with
  | ok a image => exact ⟨rfl, hact.ok heq⟩
  | error e image =>
    cases e with
    | failure cause => exact ⟨rfl, hact.failure heq⟩
    | fault f => trivial

section Activating

variable (hm : Intact m) (hminds : m.Minds)
include hm hminds

/-- Whoever runs notes down the position at which it stops. -/
theorem position_meets : Meets
    (fun _ m' => m' = { m with image := m'.image } ∧ m.image.Heeds m'.image)
    (fun m' => m' = { m with image := m'.image } ∧ m.image.Heeds m'.image)
    (setSlot m.context Slot.Context.pc (.ofNat m.pc) m) := by
  refine .of_unfailing (setSlot_unfailing _ _ _) fun _ m' heq => ?_
  obtain ⟨heap, hset, rfl⟩ := setSlot_eq_ok heq
  refine ⟨rfl, Image.setSlot_heeds (intact_image hm) hminds.grounded (hm.held _ (by simp))
    (.inr (.inl (by simp))) ?_ hset⟩
  exact hminds.grounded.spares_of_rooted (c := ⟨_, _⟩) hminds.rooted (by simp)

theorem activate_heeds (hcode : Sane m code) (hreceiver : Sane m receiver)
    (hargs : ∀ v ∈ args, Sane m v) (hparent : Sane m parent) (hhome : ∀ v ∈ held home, Sane m v) :
    Meets (fun _ m' => m.Heeds m' ∧ m'.image.Rooted m'.context) m.Heeds
      (activate code receiver args parent home m) := by
  rw [activate, get_bind]
  refine .bind ((position_meets hm hminds).mono (fun _ _ h => h) fun m' h => ?_)
    fun _ m₁ hposition => ?_
  · exact hminds.heeds_of_image h.2 (by rw [h.1])
  obtain ⟨hsame, h₁⟩ := hposition
  have hcontext : Sane m m.context := hm.held _ (by simp)
  have hnew := Image.newContext_heeds h₁.intact (h₁.grows _ hcode) (h₁.grows _ hreceiver)
    (fun v hv => h₁.grows _ (hargs v hv)) (h₁.grows _ hcontext) (h₁.grows _ hparent)
    (fun v hv => h₁.grows _ (hhome v hv)) h₁.grounded (h₁.rooted hminds.rooted)
  refine .bind ((onImage_meets hnew).mono (fun _ _ h => h) fun m' h => ?_)
    fun ctx m₂ hmade => ?_
  · exact hminds.heeds_of_image (h₁.trans h.2) (by rw [h.1, hsame])
  obtain ⟨hsame₂, h₂, hrooted⟩ := hmade
  rw [modify_bind]
  refine .of_unfailing loadFrame_unfailing fun _ m' hload => ?_
  obtain ⟨_, _, _, _, _, _, -, -, rfl⟩ := loadFrame_eq_ok hload
  refine ⟨hminds.heeds_of_image (h₁.trans h₂) ?_, hrooted⟩
  change m₂.schedule = m.schedule
  rw [hsame₂, hsame]

/-- A message that is understood leads into a new context. -/
theorem dispatch_heeds {selector receiver cls : Value} (hreceiver : Sane m receiver)
    (hcls : Sane m cls) (hargs : ∀ v ∈ args, Sane m v) :
    Meets (fun _ m' => m.Heeds m' ∧ m'.image.Rooted m'.context) m.Heeds
      (dispatch selector receiver args cls m) := by
  refine .query fun found hfound => ?_
  cases found with
  | none => exact .query fun _ _ => .query fun _ _ => .query fun _ _ => hminds.refl hm
  | some found =>
    obtain ⟨method, owner⟩ := found
    have hsane := hm.whole.yields_lookupFrom selector _ hcls _ hfound
    exact activate_heeds hm hminds (hsane method (by simp)) hreceiver hargs (Arenas.sane_nil _)
      (by simp)

/-- Whether or not a block is run. -/
theorem invokeBlock_heeds {block : Value} (hblock : Sane m block) (hargs : ∀ v ∈ args, Sane m v) :
    Meets (fun _ m' => m.Heeds m' ∧ m'.image.Rooted m'.context) m.Heeds
      (invokeBlock block args m) := by
  have hnil : Meets (fun _ m' => m.Heeds m' ∧ m'.image.Rooted m'.context) m.Heeds
      (setAccumulator .nil m) :=
    ⟨hminds.heeds_of_image (.refl (intact_image hm) hminds.grounded) rfl, hminds.rooted⟩
  refine .query fun isBlock _ => ?_
  split
  · exact hnil
  refine .query fun shape _ => ?_
  split
  · exact hnil
  refine .query fun receiver hreceiver => .query fun parent hparent => .query fun home hhome => ?_
  have whole : m.image.heap.Whole := hm.whole
  refine activate_heeds hm hminds hblock (whole.slot hblock hreceiver) hargs
    (whole.slot hblock hparent) fun v hv => ?_
  obtain rfl : v = home := by simpa using hv
  exact whole.slot hblock hhome

end Activating

section Unwinding

/-- The contexts that unwinding ends are on the chain. -/
theorem chainTo_rooted {i : Image} {cursor home : Value} {seen contexts : List Value} {fuel : Nat}
    (hcursor : i.Rooted cursor) (hseen : ∀ v ∈ seen, i.Rooted v)
    (heq : chainTo i.heap home fuel seen cursor = .ok (some contexts)) :
    i.Rooted home ∧ ∀ v ∈ contexts, i.Rooted v := by
  induction fuel generalizing seen cursor with
  | zero => cases heq
  | succ fuel ih =>
    have hmore : ∀ v ∈ cursor :: seen, i.Rooted v := by
      simpa only [List.forall_mem_cons] using ⟨hcursor, hseen⟩
    rw [chainTo] at heq
    split at heq
    · cases heq
    rename_i hnil
    split at heq
    · rename_i hfound
      cases heq
      exact ⟨hfound ▸ hcursor, fun v hv => hmore v (List.mem_reverse.mp hv)⟩
    · obtain ⟨next, hnext, hrest⟩ := except_bind_eq_ok.mp heq
      obtain ⟨w, hw, hrooted⟩ := hcursor.exists_previous fun h => hnil (h ▸ rfl)
      obtain rfl := Except.ok.inj (hw.2.slot.symm.trans hnext)
      exact ih hrooted hmore hrest

theorem Minds.rooted_of_unwound {source : Value} {contexts : List Value} (hminds : m.Minds)
    (h : m.Unwound source contexts) : ∀ v ∈ contexts, m.image.Rooted v := by
  obtain ⟨home, -, hchain⟩ := h
  exact (chainTo_rooted hminds.rooted (by simp) hchain).2

end Unwinding

section Primitives

/-- The primitives that make objects of any class, or deal with processes. -/
def commissions : Primitive → Bool
  | .basicNew | .arrayNew | .dictionaryNew | .blockInvoke => true
  | .processFork | .processSuspend | .processResume => true
  | _ => false

variable {prim : Primitive} (hm : Intact m) (hminds : m.Minds)
include hm hminds

theorem plain_heeds (hprim : commissions prim = false) (hargs : ∀ v ∈ args, Sane m v)
    (hstores : ∀ c, m.PrimitiveStores c prim args → m.image.Inert c.object) :
    Meets (fun _ => m.Heeds) m.Heeds (runPrimitive prim args m) := by
  have hschedules : ¬schedules prim := by cases prim <;> simp_all [commissions, schedules]
  have hmakes : ∀ cls, m.PrimitiveMakes cls prim args → cls = m.image.kernelClass .link := by
    intro cls hcls
    unfold PrimitiveMakes at hcls
    split at hcls
    case h_4 => exact hcls
    all_goals first | cases hprim | exact hcls.elim
  have hself : Within
      (fun c x => c = ⟨m.context, Slot.Context.pc⟩ ∨
        (m.PrimitiveEnds c.object prim args ∧ c.index = Slot.Context.pc) ∨
        m.PrimitiveStores c prim args)
      (· = m.image.kernelClass .link) m.image.known (· = m.schedule) m.process m.image.heap m :=
    ⟨hm.grown, rfl, rfl, rfl⟩
  have hleaves := runPrimitive_leaves prim hself hargs (fun _ => .inl rfl)
    (fun v hv => .inr (.inl ⟨hv, rfl⟩)) (fun c x hc => .inr (.inr hc)) hmakes
    fun h => absurd h hschedules
  refine hminds.heeds_of_leaves hm hleaves (fun _ h => h) (fun c x hc => ?_)
    ⟨fun h => ?_, fun h => ?_⟩
  · rcases hc with rfl | ⟨hends, hindex⟩ | hstored
    · exact hminds.grounded.spares_of_rooted (c := ⟨_, _⟩) hminds.rooted (by simp)
    · refine hminds.grounded.spares_of_rooted ?_ (by simp [hindex])
      unfold PrimitiveEnds at hends
      split at hends
      · obtain ⟨contexts, hunwound, hv⟩ := hends
        exact hminds.rooted_of_unwound hunwound _ hv
      · exact hends.elim
    · exact Image.spares_of_inert (hstores c hstored)
  · cases hminds.grounded.kinds h
  · cases hminds.grounded.kinds h

theorem nil_heeds : Meets (fun _ => m.Heeds) m.Heeds ((pure .nil : MachineAction Value) m) :=
  hminds.refl hm

/-- A new object that holds nil. -/
theorem allocatePointers_heeds {cls : Value} (hcls : Sane m cls) (count : Nat) :
    Meets (fun _ => m.Heeds) m.Heeds (onHeap (Heap.allocatePointers cls count) m) :=
  (onImage_meets (Image.allocatePointers_heeds (intact_image hm) hminds.grounded hcls count)).mono
    (fun _ _ h => hminds.heeds_of_image h.2.1 (by rw [h.1]))
    fun _ h => hminds.heeds_of_image h.2 (by rw [h.1])

theorem basicNew_heeds {cls : Value} (hcls : Sane m cls) :
    Meets (fun _ => m.Heeds) m.Heeds (basicNew cls m) := by
  refine .query fun isClass _ => ?_
  split
  · exact nil_heeds hm hminds
  · exact .query fun size _ => allocatePointers_heeds hm hminds hcls size

theorem arrayNew_heeds {cls size : Value} (hcls : Sane m cls) :
    Meets (fun _ => m.Heeds) m.Heeds (arrayNew cls size m) := by
  rw [arrayNew]
  cases size.toNat? with
  | none => exact nil_heeds hm hminds
  | some count =>
    refine .query fun isArray _ => ?_
    split
    · exact nil_heeds hm hminds
    rw [get_bind]
    split
    · exact nil_heeds hm hminds
    · exact allocatePointers_heeds hm hminds hcls count

theorem dictionaryNew_heeds {cls : Value} (hcls : Sane m cls) :
    Meets (fun _ => m.Heeds) m.Heeds (dictionaryNew cls m) := by
  refine .query fun isDictionary _ => ?_
  split
  · exact (onImage_meets (Image.newDictionary_heeds (intact_image hm) hminds.grounded hcls)).mono
      (fun _ _ h => hminds.heeds_of_image h.2 (by rw [h.1]))
      fun _ h => hminds.heeds_of_image h.2 (by rw [h.1])
  · exact nil_heeds hm hminds

omit hm hminds in
/-- A change of the schedule that minds the chains. -/
theorem onSchedule_meets {α : Type} {act : Schedule → ImageAction (α × Schedule)}
    (hact : Meets (fun made i' => m.image.Heeds i' ∧ made.2.Enlisted i') m.image.Heeds
      (act m.schedule m.image)) (hminds : m.Minds) :
    Meets (fun _ => m.Heeds) m.Heeds (onSchedule act m) := by
  rw [onSchedule, get_bind]
  refine .bind ((onImage_meets hact).mono (fun _ _ h => h) fun m' h => ?_) fun made m' h => ?_
  · exact hminds.heeds_of_image h.2 (by rw [h.1])
  · exact ⟨h.2.1, h.2.2⟩

/-- A forked block is called from nowhere. -/
theorem fork_heeds {block name : Value} (hblock : Sane m block) (hname : Sane m name) :
    Meets (fun _ => m.Heeds) m.Heeds (fork block name m) := by
  refine .query fun isBlock _ => ?_
  split
  · exact nil_heeds hm hminds
  have hcontext := Image.blockContext?_heeds (intact_image hm) hminds.grounded
    hblock (List.forall_mem_nil _) (Arenas.sane_nil _) Image.rooted_nil
  refine .bind ((onImage_meets hcontext).mono (fun _ _ h => h) fun m' h => ?_)
    fun context m₁ ⟨hsame, h₁, hrooted⟩ => ?_
  · exact hminds.heeds_of_image h.2 (by rw [h.1])
  have hdone : m.Heeds m₁ := hminds.heeds_of_image h₁ (by rw [hsame])
  cases context with
  | none => exact hdone
  | some context =>
    have hspawn := Schedule.spawn_heeds h₁.intact h₁.grounded hdone.schedule
      (hrooted context (by simp)) (h₁.grows _ hname)
    exact (onSchedule_meets hspawn (hminds.after hdone (by rw [hsame]))).mono
      (fun _ _ h => hdone.trans h) fun _ h => hdone.trans h

omit hm hminds in
theorem instance_of_isInstance {k : KernelClass} {u : Machine} (hv : Sane m v)
    (heq : isInstance v k m = .ok true u) : m.image.Instance k v := by
  unfold isInstance ask at heq
  obtain ⟨hasked, -⟩ := query_eq_ok heq
  split at hasked
  · rename_i hreference
    obtain ⟨cls, hcls, hsame⟩ := except_bind_eq_ok.mp hasked
    exact ⟨hv, hreference, hcls.trans (congrArg _ (of_decide_eq_true (Except.ok.inj hsame)))⟩
  · cases hasked

omit hm hminds in
theorem isInstance_meets {β : Type} {k : KernelClass} {next : Bool → MachineAction β}
    {Q : β → Machine → Prop} {P : Machine → Prop} (hv : Sane m v)
    (htrue : m.image.Instance k v → Meets Q P (next true m)) (hfalse : Meets Q P (next false m)) :
    Meets Q P ((isInstance v k >>= next) m) := by
  refine .query fun b hasked => ?_
  have heq : isInstance v k m = .ok b m := by
    unfold isInstance ask
    exact query_of_eq_ok hasked
  cases b with
  | true => exact htrue (instance_of_isInstance hv heq)
  | false => exact hfalse

theorem suspend_heeds {target : Value} (htarget : Sane m target) :
    Meets (fun _ => m.Heeds) m.Heeds (suspend target m) := by
  refine isInstance_meets htarget (fun hinstance => ?_) (nil_heeds hm hminds)
  rw [if_neg (by decide), get_bind]
  dsimp only
  split
  · exact hminds.heeds_of_image (.refl (intact_image hm) hminds.grounded) rfl
  · refine .bind (onSchedule_meets ?_ hminds) fun _ _ h => h
    refine .of_unfailing (Schedule.suspend_unfailing _ _) fun made i' heq => ?_
    exact Schedule.suspend_heeds (intact_image hm) hminds.grounded hminds.enlisted
      (.inr hinstance) heq

theorem resume_heeds {target : Value} (htarget : Sane m target) :
    Meets (fun _ => m.Heeds) m.Heeds (resume target m) := by
  refine isInstance_meets htarget (fun hinstance => ?_) (nil_heeds hm hminds)
  rw [if_neg (by decide)]
  refine .bind (onSchedule_meets ?_ hminds) fun _ _ h => h
  refine .of_unfailing (Schedule.resume_unfailing _ _) fun made i' heq => ?_
  exact Schedule.resume_heeds (intact_image hm) hminds.grounded hminds.enlisted (.inr hinstance) heq

/-- Primitives mind the chains. -/
theorem runPrimitive_heeds (hargs : ∀ v ∈ args, Sane m v)
    (hstores : ∀ c, m.PrimitiveStores c prim args → m.image.Inert c.object) :
    Meets (fun _ => m.Heeds) m.Heeds (runPrimitive prim args m) := by
  cases hprim : commissions prim with
  | false => exact plain_heeds hm hminds hprim hargs hstores
  | true =>
    -- The one argument of a primitive that takes one.
    have hfirst : ∀ {act : Value → MachineAction Value},
        (∀ v, Sane m v → Meets (fun _ => m.Heeds) m.Heeds (act v m)) →
        Meets (fun _ => m.Heeds) m.Heeds ((do act (← firstArg args)) m) := by
      intro act hact
      cases args with
      | nil => exact trivial
      | cons v rest => exact hact v (hargs v (by simp))
    unfold runPrimitive
    split
    case h_18 => exact hfirst fun _ hcls => basicNew_heeds hm hminds hcls
    case h_19 => exact arrayNew_heeds hm hminds (hargs _ (by simp))
    case h_27 => exact hfirst fun _ hcls => dictionaryNew_heeds hm hminds hcls
    case h_30 =>
      exact .bind ((invokeBlock_heeds hm hminds (hargs _ (by simp)) fun v hv =>
        hargs v (by simp [hv])).mono (fun _ _ h => h.1) fun _ h => h) fun _ _ h => h
    case h_33 => exact hminds.heeds_of_image (.refl (intact_image hm) hminds.grounded) rfl
    case h_36 => exact fork_heeds hm hminds (hargs _ (by simp)) (hargs _ (by simp))
    case h_39 => exact hfirst fun _ htarget => suspend_heeds hm hminds htarget
    case h_40 => exact hfirst fun _ htarget => resume_heeds hm hminds htarget
    case h_43 => exact nil_heeds hm hminds
    all_goals cases hprim

end Primitives

section Executing

theorem registers_unfailing (rs : List UInt8) : (registers rs).Unfailing := by
  induction rs with
  | nil => exact .pure _
  | cons r rs ih => exact .bind (.query _) fun _ => .bind ih fun _ => .pure _

theorem withAccumulator_unfailing (rs : List UInt8) : (withAccumulator rs).Unfailing :=
  .bind (registers_unfailing rs) fun _ => .bind .get fun _ => .pure _

/-- Values that are read and then worked on. -/
theorem values_meets {β : Type} {act : MachineAction (List Value)}
    {next : List Value → MachineAction β} {Q : β → Machine → Prop} {P : Machine → Prop}
    (hact : act.Unfailing) (hread : ∀ {vs m'}, act m = .ok vs m' → m' = m)
    (hnext : ∀ vs, act m = .ok vs m → Meets Q P (next vs m)) : Meets Q P ((act >>= next) m) := by
  refine .bind (Q := fun vs m' => act m = .ok vs m' ∧ m' = m)
    (.of_unfailing hact fun vs m' heq => ⟨heq, hread heq⟩) fun vs m' ⟨heq, hsame⟩ => ?_
  subst hsame
  exact hnext vs heq

theorem Pause.eq_of_pauses {α : Type} {rest : Unit → MachineAction α} (hp : m.Pause i m₁)
    (hpauses : m.Pauses i) : (safepoint >>= rest) m = rest () m₁ := by
  rcases hp with ⟨-, hsafe⟩ | ⟨h, -⟩
  · exact bind_of_eq_ok hsafe
  · exact absurd hpauses h

variable (hm : Intact m₁) (hminds : m₁.Minds)
include hm hminds

theorem send_heeds {selector : UInt8} {args : ArgRegisters} {toSuper : Bool} (hp : m.Pause i m₁)
    (hpauses : m.Pauses i) : Meets (fun _ m' => m₁.Heeds m' ∧ m'.image.Rooted m'.context) m₁.Heeds
      (send selector args toSuper m) := by
  have heq : send selector args toSuper m = _ := hp.eq_of_pauses hpauses
  rw [heq]
  refine .query fun selector _ => ?_
  rw [get_bind]
  refine values_meets (registers_unfailing _) registers_eq_ok fun values heq => ?_
  have hvalues : ∀ v ∈ values, Sane m₁ v := by
    have hstable : Stable [] (registers args.regs) := registers_stable _
    have hend := hstable m₁ hm (by simp)
    rw [heq] at hend
    exact fun v hv => hend.2.2 v (by simpa using hv)
  have haccumulator : Sane m₁ m₁.accumulator := hm.held _ (by simp)
  have hsend : ∀ {cls}, Sane m₁ cls →
      Meets (fun _ m' => m₁.Heeds m' ∧ m'.image.Rooted m'.context) m₁.Heeds
        (dispatch selector m₁.accumulator values cls m₁) := fun hcls =>
    dispatch_heeds hm hminds haccumulator hcls hvalues
  dsimp only
  split
  · rw [get_bind]
    refine .query fun defining hdefining => .query fun cls hcls => hsend ?_
    exact hm.whole.slot (hm.whole.slot (hm.held m₁.method (by simp)) hdefining) hcls
  · refine .query fun cls hcls => hsend ?_
    exact Image.yields_classOf (intact_image hm) haccumulator cls hcls cls (by simp)

theorem binaryOp_heeds {reg : UInt8} {op : BinaryOp} (hp : m.Pause (.binaryOp reg op) m₁) :
    Meets (fun _ => m₁.Heeds) m₁.Heeds (binaryOp reg op m) := by
  refine .query fun left hleft => ?_
  obtain ⟨v, hv⟩ := runPrimitive_operator op left m.accumulator m
  rw [get_bind, bind_of_eq_ok hv]
  split
  · rename_i hdefined
    obtain rfl := hp.of_not_pauses (by
      rintro ⟨left', hleft', hnil⟩
      obtain rfl := Except.ok.inj (hleft.symm.trans hleft')
      rw [hv] at hnil
      cases hnil
      simp [Value.isNil, Value.nil] at hdefined)
    exact hminds.heeds_of_image (.refl (intact_image hm) hminds.grounded) rfl
  · rename_i hundefined
    have hnil : v = .nil := by
      have : v.isNil := by simpa using hundefined
      exact congrArg Value.mk (beq_iff_eq.mp this)
    subst hnil
    rw [hp.eq_of_pauses ⟨left, hleft, hv⟩]
    refine .query fun receiver hreceiver => ?_
    rw [get_bind]
    refine .query fun cls hcls => ?_
    have hsane : Sane m₁ receiver := hm.whole.slot (hm.held m₁.context (by simp)) hreceiver
    refine (dispatch_heeds hm hminds hsane ?_ ?_).mono (fun _ _ h => h.1) fun _ h => h
    · exact Image.yields_classOf (intact_image hm) hsane cls hcls cls (by simp)
    · simpa using (hm.held m₁.accumulator (by simp) : Sane m₁ _)

theorem callPrimitive_heeds {index : UInt8} {read : MachineAction (List Value)}
    (hp : m.Pause i m₁) (hcall : call? i = some (index, read))
    (hpauses : m.Pauses i ↔ (Primitive.ofIndex? index.toNat).isSome)
    (hunfailing : read.Unfailing)
    (hread : ∀ {m m' vs}, read m = .ok vs m' → m' = m)
    (hstores : ∀ c, m₁.Stores i c → m₁.image.Inert c.object) :
    Meets (fun _ => m₁.Heeds) m₁.Heeds (callPrimitive index read m) := by
  rw [callPrimitive]
  cases hprim : Primitive.ofIndex? index.toNat with
  | none =>
    obtain rfl := hp.of_not_pauses (by rw [hpauses, hprim]; simp)
    exact .query fun _ _ => hminds.refl hm
  | some prim =>
    dsimp only
    rw [hp.eq_of_pauses (hpauses.mpr (by rw [hprim]; rfl))]
    refine values_meets hunfailing hread fun values heq => ?_
    have hcalls : m₁.Calls i prim values := ⟨index, read, hcall, hprim, heq⟩
    refine (runPrimitive_heeds hm hminds (hcalls.sane hm) fun c hc =>
      hstores c (.primitive hcalls hc)).bind fun result m₂ h => ?_
    split
    · exact ⟨h.image, h.schedule⟩
    · exact h

/-- Instructions mind the chains, unless they are told to store into a context or a process. -/
theorem execute_heeds (hm₀ : Intact m) (hstop : m.stop = none) (hp : m.Pause i m₁)
    (hstores : ∀ c, m₁.Stores i c → m₁.image.Inert c.object) :
    Meets (fun _ => m₁.Heeds) m₁.Heeds (execute i m) := by
  -- Instructions that make no object, or a block or a link.
  have hlicensed : ¬m₁.Schedules i → (∀ cls, m₁.Makes i cls →
      cls = m₁.image.kernelClass .block ∨ cls = m₁.image.kernelClass .link) →
      (∀ v, m₁.Ends i v → m₁.image.Rooted v) →
      Meets (fun _ => m₁.Heeds) m₁.Heeds (execute i m) := by
    intro hschedules hmakes hends
    rcases execute_performs hm₀ hstop i with ⟨f, m', hfault⟩ | ⟨m₂, hp₂, -, hleaves⟩
    · rw [hfault]
      exact trivial
    obtain rfl := hp.unique hp₂
    refine hminds.heeds_of_leaves hm hleaves (fun s hs => hs.2.resolve_left hschedules)
      (fun c x hc => ?_) ⟨fun h => ?_, fun h => ?_⟩
    · cases hc with
      | position => exact hminds.grounded.spares_of_rooted (c := ⟨_, _⟩) hminds.rooted (by simp)
      | ended h => exact hminds.grounded.spares_of_rooted (c := ⟨_, _⟩) (hends _ h) (by simp)
      | register _ =>
        exact hminds.grounded.spares_of_rooted (c := ⟨_, _⟩) hminds.rooted (by simp)
      | stored h => exact Image.spares_of_inert (hstores c h)
      | link h _ | state h _ => exact absurd h hschedules
    all_goals
      rcases hmakes _ h with h | h
      all_goals cases hminds.grounded.kinds h
  have hplain : (∀ prim args, ¬m₁.Calls i prim args) → (∀ cls, m₁.Makes i cls →
      cls = m₁.image.kernelClass .block ∨ cls = m₁.image.kernelClass .link) →
      Meets (fun _ => m₁.Heeds) m₁.Heeds (execute i m) := by
    intro hcalls hmakes
    refine hlicensed (fun ⟨prim, args, h, _⟩ => hcalls prim args h) hmakes fun v hv => ?_
    cases hv with
    | return_ | returnSelf => exact hminds.rooted
    | primitive h _ => exact absurd h (hcalls _ _)
  cases i with
  | send selector args | sendSuper selector args =>
    exact (send_heeds hm hminds hp trivial).mono (fun _ _ h => h.1) fun _ h => h
  | binaryOp reg op => exact binaryOp_heeds hm hminds hp
  | primitive0 p =>
    exact callPrimitive_heeds hm hminds hp rfl (by simp [Pauses, call?]) (.pure _)
      (fun heq => (pure_eq_ok.mp heq).2.symm) hstores
  | primitive1 p | primitive2 p reg | primitive3 p reg₁ reg₂ =>
    exact callPrimitive_heeds hm hminds hp rfl (by simp [Pauses, call?])
      (withAccumulator_unfailing _) withAccumulator_eq_ok hstores
  | primitiveV p first count =>
    exact callPrimitive_heeds hm hminds hp rfl (by simp [Pauses, call?]) (registers_unfailing _)
      registers_eq_ok hstores
  | _ =>
    refine hplain (fun _ _ => by simp [Calls, call?]) fun cls hcls => ?_
    cases hcls <;> simp_all [Calls, call?]

end Executing

section Entering

/-- Going on is in the same context or in the one that is asked for, which has a position. -/
theorem continueIn_eq_ok {u : Unit} (heq : continueIn target value m = .ok u m') :
    m'.image = m.image ∧ (m'.context = m.context ∨ m'.context = target ∧ ∃ pc, ¬pc.isNil ∧
      m.image.heap.slot target Slot.Context.pc = .ok pc) := by
  obtain ⟨_, m₁, hset, hgo⟩ := bind_eq_ok.mp heq
  obtain rfl := modify_eq_ok.mp hset
  rcases ite_eq_ok.mp hgo with ⟨-, hgo⟩ | ⟨-, hgo⟩
  · obtain rfl := modify_eq_ok.mp hgo
    exact ⟨rfl, .inl rfl⟩
  · obtain ⟨pc, hpc, hgo⟩ := query_bind_eq_ok.mp hgo
    obtain ⟨hlive, hgo⟩ := check_eq_ok hgo
    obtain ⟨_, m₃, henter, hload⟩ := bind_eq_ok.mp hgo
    obtain rfl := modify_eq_ok.mp henter
    obtain ⟨_, _, _, _, _, _, -, -, rfl⟩ := loadFrame_eq_ok hload
    exact ⟨rfl, .inr ⟨rfl, pc, hlive, hpc⟩⟩

/-- Whoever goes on in the caller of a context with a chain has a chain. -/
theorem rooted_of_previous {i : Image} {w : Value} (hv : i.Rooted v)
    (hw : i.heap.slot v Slot.Context.previous = .ok w) : i.Rooted w := by
  have hne : v ≠ .nil := by
    rintro rfl
    have hholds : i.heap.Holds ⟨.nil, Slot.Context.previous⟩ w := ⟨Arenas.sane_nil _, hw⟩
    exact hholds.not_isNil rfl
  obtain ⟨w', hprevious, hrooted⟩ := hv.exists_previous hne
  rwa [← Except.ok.inj (hprevious.2.slot.symm.trans hw)]

/-- Returning leads to the caller. -/
theorem returnValue_rooted {u : Unit} (hrooted : m'.image.Rooted m.context)
    (heq : returnValue value m = .ok u m') : m'.image.Rooted m'.context := by
  rw [returnValue, get_bind] at heq
  obtain ⟨_, m₁, hset, hgo⟩ := bind_eq_ok.mp heq
  obtain ⟨previous, hprevious, hgo⟩ := query_bind_eq_ok.mp hgo
  have hplace : m.InPlace m₁ := setSlot_stays _ _ _ _ _ _ hset
  obtain ⟨himage, hsame | ⟨hsame, -⟩⟩ := continueIn_eq_ok hgo
  · rwa [hsame, hplace]
  · exact hsame ▸ rooted_of_previous hrooted (himage ▸ hprevious)

/-- Returning from a block leads to the caller of its method. -/
theorem nonLocalReturn_rooted {source : Value} {u : Unit} (hminds : m.Minds) (h : m.Heeds m')
    (heq : nonLocalReturn source value m = .ok u m') : m'.image.Rooted m'.context := by
  have hrooted := h.image.rooted hminds.rooted
  obtain ⟨isContext, -, hgo⟩ := query_bind_eq_ok.mp heq
  rcases ite_eq_ok.mp hgo with ⟨-, hgo⟩ | ⟨-, hgo⟩
  · have hplace : m.InPlace m' := setAccumulator_stays _ _ _ _ hgo
    rwa [hplace]
  obtain ⟨home, -, hgo⟩ := query_bind_eq_ok.mp hgo
  obtain ⟨-, hgo⟩ := check_eq_ok hgo
  obtain ⟨pc, -, hgo⟩ := query_bind_eq_ok.mp hgo
  obtain ⟨-, hgo⟩ := check_eq_ok hgo
  obtain ⟨chain, hchain, hgo⟩ := query_bind_eq_ok.mp hgo
  cases chain with
  | none =>
    obtain ⟨_, _, -, hgo⟩ := bind_eq_ok.mp hgo
    cases fail_eq_ok.mp hgo
  | some contexts =>
    obtain ⟨_, m₁, hunwind, hgo⟩ := bind_eq_ok.mp hgo
    obtain ⟨previous, hprevious, hgo⟩ := query_bind_eq_ok.mp hgo
    have hplace : m.InPlace m₁ := unwindAll_stays _ _ _ _ hunwind
    obtain ⟨himage, hsame | ⟨hsame, -⟩⟩ := continueIn_eq_ok hgo
    · rwa [hsame, hplace]
    · have hhome := (chainTo_rooted hminds.rooted (by simp) hchain).1
      exact hsame ▸ rooted_of_previous (h.image.rooted hhome) (himage ▸ hprevious)

theorem returnInto_rooted {u : Unit} (hm : Intact m) (hminds : m.Minds) (htarget : Sane m target)
    (heq : returnInto target value m = .ok u m') : m'.image.Rooted m'.context := by
  have whole : m.image.heap.Whole := hm.whole
  obtain ⟨isContext, hasked, hgo⟩ := query_bind_eq_ok.mp heq
  rcases ite_eq_ok.mp hgo with ⟨-, hgo⟩ | ⟨hcontext, hgo⟩
  · obtain rfl := modify_eq_ok.mp hgo
    exact hminds.rooted
  obtain ⟨himage, hsame | ⟨hsame, pc, hlive, hpc⟩⟩ := continueIn_eq_ok hgo
  · rw [himage, hsame]
    exact hminds.rooted
  have hinstance : m.image.Instance .context target := by
    refine instance_of_isInstance htarget (u := m) ?_
    unfold isInstance ask
    obtain rfl : isContext = true := by simpa using hcontext
    exact query_of_eq_ok hasked
  have hposition : m.image.heap.Holds ⟨target, Slot.Context.pc⟩ pc := ⟨htarget, hpc⟩
  obtain ⟨slots, hshows, hslot⟩ := hposition.shows whole
  obtain ⟨w, hw⟩ : ∃ w, slots[0]? = some w :=
    ⟨_, List.getElem?_eq_getElem (Nat.zero_lt_of_lt (List.getElem?_eq_some_iff.mp hslot).1)⟩
  have hprevious : m.image.Previous target w := ⟨hinstance, hshows.holds whole hw⟩
  rw [himage, hsame]
  refine (hminds.grounded.rooted_or_blank hprevious).resolve_right fun hblank => hlive ?_
  rw [hposition.unique hblank.position]
  rfl

/-- Wherever a primitive leads. -/
theorem runPrimitive_rooted {prim : Primitive} (hm : Intact m) (hminds : m.Minds)
    (hargs : ∀ v ∈ args, Sane m v) (h : m.Heeds m')
    (heq : runPrimitive prim args m = .ok v m') : m'.image.Rooted m'.context := by
  have hplace : m.InPlace m' → m'.image.Rooted m'.context := fun hsame =>
    hsame ▸ h.image.rooted hminds.rooted
  cases hprim : prim.switchesContext with
  | false => exact hplace (runPrimitive_stays hprim args _ _ _ heq)
  | true =>
    have hfirst : ∀ {act : MachineAction Unit}, (act >>= fun _ => pure .nil) m = .ok v m' →
        act m = .ok () m' := by
      intro act hact
      obtain ⟨_, m₁, hdone, hpure⟩ := bind_eq_ok.mp hact
      obtain ⟨-, rfl⟩ := pure_eq_ok.mp hpure
      exact hdone
    unfold runPrimitive at heq
    split at heq
    case h_30 =>
      exact ((invokeBlock_heeds hm hminds (hargs _ (by simp)) fun v hv =>
        hargs v (by simp [hv])).ok (hfirst heq)).2
    case h_31 => exact nonLocalReturn_rooted hminds h (hfirst heq)
    case h_32 => exact returnInto_rooted hm hminds (hargs _ (by simp)) (hfirst heq)
    case h_33 | h_34 | h_35 => exact hplace (setAccumulator_stays _ _ _ _ (hfirst heq))
    case h_43 => exact hplace (Stays.pure _ _ _ _ heq)
    all_goals cases hprim

/-- Wherever an instruction leads. -/
theorem execute_rooted (hm : Intact m₁) (hminds : m₁.Minds) (hp : m.Pause i m₁)
    (h : m₁.Heeds m') (heq : execute i m = .ok () m') : m'.image.Rooted m'.context := by
  have hrooted := h.image.rooted hminds.rooted
  cases execute_acts hp heq with
  | stays _ hstays =>
    have hplace : m₁.InPlace m' := hstays InPlace
    rwa [hplace]
  | jumps _ hjumps =>
    have hplace : m₁.InPlace m' := Passive.of_jumped hjumps
    rwa [hplace]
  | return_ _ hreturn => exact returnValue_rooted hrooted hreturn
  | returnSelf _ _ hreturn => exact returnValue_rooted hrooted hreturn
  | sends _ hsane hdispatch =>
    have hsane := hsane hm
    exact ((dispatch_heeds hm hminds (hsane _ (by simp)) (hsane _ (by simp)) fun v hv =>
      hsane v (by simp [hv])).ok hdispatch).2
  | @calls prim args result m₂ hcalls hrun hend =>
    have hsame : m'.image = m₂.image ∧ m'.schedule = m₂.schedule ∧ m'.context = m₂.context := by
      split at hend <;> rw [hend] <;> exact ⟨rfl, rfl, rfl⟩
    obtain ⟨himage, hschedule, hcontext⟩ := hsame
    rw [himage, hcontext]
    refine runPrimitive_rooted hm hminds (hcalls.sane hm) ⟨himage ▸ h.image, ?_⟩ hrun
    have hlisted := h.schedule
    rwa [himage, hschedule] at hlisted

end Entering

end ObjectMachine.Machine
