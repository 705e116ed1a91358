import ObjectMachine.Proofs.Image.Calling
import ObjectMachine.Proofs.Image.Evolution
import ObjectMachine.Proofs.Machine.Linking

namespace ObjectMachine

namespace Image

open ObjectMachine.Action

variable {W : Licence} {F : Value → Prop} {N : Licence} {i i' i'' : Image} {k : KernelClass}
  {v w x : Value} {c : Cell}

structure Spares (i : Image) (c : Cell) (x : Value) : Prop where
  caller : i.Instance .context c.object → c.index ≠ Slot.Context.previous
  position : i.Instance .context c.object → c.index = Slot.Context.pc → x = .nil ∨ ¬i.Blank c.object
  context : i.Instance .process c.object → c.index = Slot.Process.context → i.Rooted x
  link : i.Instance .process c.object → c.index = Slot.Process.link → i.Enlists x

structure Inert (i : Image) (v : Value) : Prop where
  context : ¬i.Instance .context v
  process : ¬i.Instance .process v

theorem spares_of_inert (hv : i.Inert c.object) : i.Spares c x :=
  ⟨fun h => absurd h hv.context, fun h => absurd h hv.context, fun h => absurd h hv.process,
    fun h => absurd h hv.process⟩

/-- There are neither contexts nor processes if there are none among the objects. -/
theorem inert_of_starts (hclasses : ∀ id ∈ [ArenaId.pointers, .leaf],
    ∀ word ∈ (i.heap.arenas.starts id).toOption.getD [],
      ∀ k ∈ [KernelClass.context, .process],
        i.classOf (.ofAddress ⟨id, word⟩) ≠ .ok (i.kernelClass k))
    (hc : i.heap.Holds c x) : i.Inert c.object := by
  obtain ⟨⟨id, word⟩, hloc, ⟨words, hstarts, hword⟩, -⟩ := hc.refers
  have hid : id ∈ [ArenaId.pointers, .leaf] := by cases id <;> simp
  have hother := hclasses id hid word (by rw [hstarts]; exact hword)
  rw [Value.ofAddress_of_address? hloc] at hother
  exact ⟨fun h => hother _ (by simp) h.classOf, fun h => hother _ (by simp) h.classOf⟩

/-- No object is of two classes. -/
theorem Grounded.apart (hg : i.Grounded) (hv : i.Instance .context v) : ¬i.Instance .process v :=
  fun hprocess => hv.ne hg.kinds hprocess (by decide) rfl

/-- A context in use may be written to, but for its caller. -/
theorem Grounded.spares_of_rooted (hg : i.Grounded) (hv : i.Rooted c.object)
    (hindex : c.index ≠ Slot.Context.previous) : i.Spares c x := by
  have hprocess : ¬i.Instance .process c.object := by
    rcases hv.context with hnil | hcontext
    · exact fun h => h.not_nil hnil
    · exact hg.apart hcontext
  exact ⟨fun _ => hindex, fun _ _ => .inr hv.not_blank, fun h => absurd h hprocess,
    fun h => absurd h hprocess⟩

theorem Grounded.spares_of_process (hg : i.Grounded) (hv : i.Enlists c.object)
    (hcontext : c.index = Slot.Process.context → i.Rooted x)
    (hlink : c.index = Slot.Process.link → i.Enlists x) : i.Spares c x := by
  have hnot : ¬i.Instance .context c.object := by
    rcases hv with hnil | hprocess
    · exact fun h => h.not_nil hnil
    · exact fun h => hg.apart h hprocess
  exact ⟨fun h => absurd h hnot, fun h => absurd h hnot, fun _ => hcontext, fun _ => hlink⟩

theorem isa_of_instance (hv : i.Instance k v) {header : Header}
    (hheader : i.heap.header v = .ok header) : header.isa = i.kernelClass k := by
  obtain ⟨-, found, hfound, hisa⟩ := (instance_iff_header hv.sane).mp hv
  rwa [Except.ok.inj (hheader.symm.trans hfound)]

theorem exists_header (hc : i.heap.Holds c x) : ∃ header, i.heap.header c.object = .ok header := by
  obtain ⟨loc, header, hloc, hh, -⟩ := Heap.slot_eq_ok hc.slot
  exact ⟨header, by simp only [Heap.header, Heap.locate, hloc, bind, Except.bind, hh]⟩

/-- Writing that breaks no chain, and new objects that are in order. -/
theorem Grounded.heeds_of_since (hg : i.Grounded) (hi : Intact i) (hsince : Since W i.heap i')
    (hpreserves : i.heap.Preserves i'.heap) (hknown : i'.known = i.known)
    (hW : ∀ c x, W c x → i'.heap.Holds c x → i.Spares c x)
    (hnew : ∀ c x, i'.heap.Holds c x → ¬Sane i c.object → i.Respects i' → i'.InOrder c x) :
    i.Heeds i' := by
  have whole : i.heap.Whole := hi.whole
  have hr : i.Respects i' := by
    refine ⟨hsince.intact, hknown, hsince.grows, hpreserves.header, fun h => ?_⟩
    obtain ⟨z, hz, rfl | hwritten⟩ := hsince.evolves _ _ h.2
    · exact hz
    · exact absurd rfl ((hW _ _ hwritten hz).caller h.1)
  refine ⟨hr, hr.grounded hg (fun v hv hb => ?_) fun c x hc => ?_⟩
  · obtain ⟨z, hz, rfl | hwritten⟩ := hsince.evolves _ _ hb.position
    · exact hz
    · obtain rfl | hnot := (hW _ _ hwritten hz).position hv rfl
      · exact hz
      · exact absurd hb hnot
  by_cases hsane : i.heap.arenas.Sane c.object
  · obtain ⟨y, hy⟩ := hpreserves.holds whole hc hsane
    obtain ⟨z, hz, hsame⟩ := hsince.evolves _ _ hy
    obtain rfl := hz.unique hc
    rcases hsame with rfl | hwritten
    · exact .inl hy
    have hspares := hW _ _ hwritten hc
    refine .inr ⟨fun h hindex => ?_, fun h hindex => ?_, fun h hindex => ?_⟩
    · exact absurd hindex (hspares.caller ((hr.instance_iff hsane).mp h))
    · exact hr.rooted (hspares.context ((hr.instance_iff hsane).mp h) hindex)
    · exact hr.enlists (hspares.link ((hr.instance_iff hsane).mp h) hindex)
  · exact .inr (hnew c x hc hsane hr)

/-- Writing that breaks no chain, and new objects that are neither contexts nor processes. -/
theorem Grounded.heeds (hg : i.Grounded) (hi : Intact i) (hgrown : Grown W F i.heap i')
    (hknown : i'.known = i.known) (hW : ∀ c x, W c x → i'.heap.Holds c x → i.Spares c x)
    (hF : ¬F (i.kernelClass .context) ∧ ¬F (i.kernelClass .process)) : i.Heeds i' := by
  refine hg.heeds_of_since hi hgrown.toSince hgrown.preserves hknown hW fun c x hc hfresh hr => ?_
  obtain ⟨header, hheader⟩ := exists_header hc
  have hmade : F header.isa := hgrown.instantiates.isa hc hfresh hheader
  have hclass : ∀ {k}, i'.Instance k c.object → F (i.kernelClass k) := fun h => by
    rwa [← hr.kernelClass, ← isa_of_instance h hheader]
  exact ⟨fun h => absurd (hclass h) hF.1, fun h => absurd (hclass h) hF.2,
    fun h => absurd (hclass h) hF.2⟩

section Writing

variable {heap : Heap}

theorem intact_of_heap (hi : Intact i) (whole : heap.Whole) (hgrows : i.heap.Grows heap) :
    Intact { i with heap } := ⟨whole, fun v hv => hgrows v (hi.held v hv)⟩

theorem setSlot_heeds {index : Nat} {u : Unit} (hi : Intact i) (hg : i.Grounded)
    (hv : i.heap.arenas.Sane v) (hx : i.heap.arenas.Sane x) (hspares : i.Spares ⟨v, index⟩ x)
    (heq : (Heap.setSlot v index x : Action HeapError Heap Unit) i.heap = .ok u heap) :
    i.Heeds { i with heap } := by
  have whole : i.heap.Whole := hi.whole
  have hr := whole.rewrites hv hx heq
  have hgrown : Grown (fun c y => c = ⟨v, index⟩ ∧ y = x) (fun _ => False) i.heap i := hi.grown
  have hwritten := (grown_heap hgrown).rewrites hr (Heap.setSlot_eq_ok heq).1 fun _ => ⟨rfl, rfl⟩
  refine hg.heeds hi (grown_of_heap hgrown hwritten fun v hv => hr.grows v hv) rfl ?_ ⟨id, id⟩
  rintro c y ⟨rfl, rfl⟩ -
  exact hspares

/-- Whatever is new, the chains are as they were if what is new is in order. -/
theorem Grounded.heeds_of_introduces (hg : i.Grounded) (hi : Intact i) (hi' : Intact i')
    (hknown : i'.known = i.known) (hnew : i.heap.Introduces N i'.heap)
    (horder : ∀ c x, N c x → i'.heap.Holds c x → i.Respects i' → i'.InOrder c x) : i.Heeds i' := by
  have whole : i.heap.Whole := hi.whole
  have hr : i.Respects i' :=
    ⟨hi', hknown, hnew.grows, hnew.header, fun h => hnew.kept not_false h.2⟩
  refine ⟨hr, hr.grounded hg (fun v _ hb => hnew.kept not_false hb.position) fun c x hc => ?_⟩
  by_cases hsane : i.heap.arenas.Sane c.object
  · exact .inl (hnew.holds_of_kept whole hc hsane not_false)
  · exact .inr (horder c x (hnew.introduced hc hsane) hc hr)

theorem inOrder_nil (hc : i.heap.Holds c .nil) : i.InOrder c .nil := by
  refine ⟨fun h hindex => .inl ?_, fun _ _ => rooted_nil, fun _ _ => .inl rfl⟩
  exact rooted_nil.call ⟨h, hindex ▸ hc⟩

end Writing

section Making

/-- A new object is of the class that it was made of. -/
theorem instance_of_instantiates (hmade : i.heap.Instantiates (· = i.kernelClass k) i'.heap)
    (hknown : i'.known = i.known) (hnew : ¬Sane i c.object) (hc : i'.heap.Holds c x) :
    i'.Instance k c.object := by
  obtain ⟨header, hheader⟩ := exists_header hc
  obtain ⟨loc, hloc, -⟩ := hc.refers
  have href : c.object.isReference := by
    by_contra hnot
    rw [Value.address?, if_neg hnot] at hloc
    cases hloc
  refine (instance_iff_header hc.sane).mpr ⟨href, header, hheader, ?_⟩
  rw [hmade.isa hc hnew hheader, kernelClass, kernelClass, hknown]

theorem onHeap_meets {α : Type} {act : Action HeapError Heap α} {Q : α → Heap → Prop}
    {P : Heap → Prop} (hact : Meets Q P (act i.heap)) :
    Meets (fun a i' => i' = { i with heap := i'.heap } ∧ Q a i'.heap)
      (fun i' => i' = { i with heap := i'.heap } ∧ P i'.heap) (onHeap act i) := by
  rw [onHeap]
  cases heq : act i.heap with
  | ok a heap => exact ⟨rfl, hact.ok heq⟩
  | error e heap =>
    cases e with
    | failure cause => exact ⟨rfl, hact.failure heq⟩
    | fault f => trivial

variable (hi : Intact i)
include hi

/-- A new object breaks no chain. -/
theorem allocatePointers_heeds (hg : i.Grounded) {isa : Value} (hisa : Sane i isa) (count : Nat) :
    Meets (fun v i' => i.Heeds i' ∧ i.heap.Instantiates (· = isa) i'.heap ∧
        Sane i' v ∧ ¬Sane i v) i.Heeds (onHeap (Heap.allocatePointers isa count) i) := by
  have whole : i.heap.Whole := hi.whole
  refine (onHeap_meets (whole.allocatePointers_meets hisa count)).mono ?_ ?_
  · rintro v i' ⟨hsame, hnew, hmade, hv, hfresh⟩
    refine ⟨?_, hmade, hv, hfresh⟩
    have hi' : Intact i' := hsame ▸ intact_of_heap hi hnew.whole hnew.grows
    refine hg.heeds_of_introduces hi hi' (hsame ▸ rfl) hnew fun c x hx hc _ => ?_
    obtain ⟨-, rfl⟩ := hx
    exact inOrder_nil hc
  · rintro i' ⟨hsame, hnew⟩
    have hi' : Intact i' := hsame ▸ intact_of_heap hi hnew.whole hnew.grows
    exact hg.heeds_of_introduces hi hi' (hsame ▸ rfl) hnew fun _ _ hx => hx.elim

/-- An empty dictionary, which is a blank context if dictionaries are contexts. -/
theorem newDictionary_heeds (hg : i.Grounded) {isa : Value} (hisa : Sane i isa) :
    Meets (fun _ => i.Heeds) i.Heeds
      (onHeap (Heap.newDictionary isa Heap.methodBuckets) i) := by
  have whole : i.heap.Whole := hi.whole
  have hmake := whole.allocatePointers_meets hisa (Slot.Dictionary.buckets + Heap.methodBuckets)
  have hheap : Meets (fun _ heap => i.Heeds { i with heap }) (fun heap => i.Heeds { i with heap })
      (Heap.newDictionary isa Heap.methodBuckets i.heap) := by
    cases hnew : Heap.allocatePointers isa
      (Slot.Dictionary.buckets + Heap.methodBuckets) i.heap with
    | error e h₁ =>
      rw [Heap.newDictionary, bind_of_eq_error hnew]
      cases e with
      | fault f => trivial
      | failure cause =>
        have hnone := hmake.failure hnew
        exact hg.heeds_of_introduces hi (intact_of_heap hi hnone.whole hnone.grows) rfl hnone
          fun _ _ hx => hx.elim
    | ok d h₁ =>
      rw [Heap.newDictionary, bind_of_eq_ok hnew]
      obtain ⟨hd, -, hsane, hfresh⟩ := hmake.ok hnew
      obtain ⟨-, hshows, -, -⟩ := Heap.allocatePointers_shows whole.sound (by decide) hnew
      have hposition : h₁.Holds ⟨d, Slot.Context.pc⟩ .nil := hshows.holds hd.whole rfl
      refine .bind (Q := fun _ heap => Heap.Rewrites h₁ heap ⟨d, Slot.Dictionary.tally⟩ (.ofNat 0))
        (.of_unfailing (Heap.setSlot_unfailing _ _ _) fun _ _ heq =>
          hd.whole.rewrites hsane (.inr (.inl (by simp))) heq) fun _ heap hr => ?_
      have hfilled : i.heap.Introduces (fun c _ => c.object = d) heap :=
        (hd.mono fun _ _ h => h.1).rewrites hfresh hr fun _ _ => rfl
      refine hg.heeds_of_introduces hi (intact_of_heap hi hfilled.whole hfilled.grows) rfl hfilled
        fun c x hobject hc _ => ?_
      obtain ⟨object, index⟩ := c
      obtain rfl : object = d := hobject
      by_cases hindex : index = Slot.Dictionary.tally
      · subst hindex
        obtain rfl := hc.unique hr.written
        exact ⟨fun _ _ => .inr ⟨hc, hr.others (by simp) hposition⟩, by rintro _ ⟨⟩, by rintro _ ⟨⟩⟩
      · obtain ⟨z, hz⟩ := hr.cells hc
        obtain rfl := (hr.others (by simpa using hindex) hz).unique hc
        obtain ⟨-, rfl⟩ := hd.introduced hz hfresh
        exact inOrder_nil hc
  exact (onHeap_meets hheap).mono (fun _ _ h => h.1 ▸ h.2) fun _ h => h.1 ▸ h.2

omit hi in
theorem fillSlots_introduces {base : Heap} {first : Nat} {xs : List Value} {u : Unit}
    (hnew : base.Introduces N i.heap) (hv : i.heap.arenas.Sane v)
    (hxs : ∀ x ∈ xs, i.heap.arenas.Sane x) (hfresh : ¬base.arenas.Sane v)
    (hN : ∀ k y, N ⟨v, k⟩ y) (heq : fillSlots v first xs i = .ok u i') :
    base.Introduces N i'.heap := by
  induction xs generalizing first i with
  | nil =>
    obtain ⟨-, rfl⟩ := pure_eq_ok.mp heq
    exact hnew
  | cons y ys ih =>
    obtain ⟨_, i₁, hset, hrest⟩ := bind_eq_ok.mp heq
    obtain ⟨heap, hwrite, rfl⟩ := onHeap_eq_ok.mp hset
    have hr := hnew.whole.rewrites hv (hxs y (.head _)) hwrite
    have hmore : base.Introduces N heap := hnew.rewrites (c := ⟨v, first⟩) hfresh hr hN
    refine ih (i := { i with heap }) hmore (hr.grows _ hv) (fun x hx => ?_) hrest
    exact hr.grows _ (hxs x (List.mem_cons_of_mem _ hx))

omit hi in
theorem fillSlots_unfailing (v : Value) (first : Nat) (xs : List Value) :
    (fillSlots v first xs).Unfailing := by
  induction xs generalizing first with
  | nil => exact .pure _
  | cons y ys ih =>
    have hset : (onHeap (Heap.setSlot v first y)).Unfailing :=
      onHeap_unfailing (Heap.setSlot_unfailing v first y)
    exact hset.bind fun _ => ih _

section Contexts

variable {code receiver previous parent : Value} {args : List Value} {home : Option Value}
  (hcode : Sane i code) (hreceiver : Sane i receiver) (hargs : ∀ v ∈ args, Sane i v)
  (hprevious : Sane i previous) (hparent : Sane i parent) (hhome : ∀ v ∈ held home, Sane i v)
include hcode hreceiver hargs hprevious hparent hhome

/-- Of what is new, nothing but the context holds anything but nil. -/
theorem newContext_introduces : Meets
    (fun ctx i' => i.heap.Introduces (fun c x => c.object = ctx ∨ x = .nil) i'.heap ∧
      i'.heap.Holds ⟨ctx, Slot.Context.previous⟩ previous ∧ i'.Instance .context ctx)
    (fun i' => i.heap.Introduces (fun _ x => x = .nil) i'.heap)
    (newContext code receiver args previous parent home i) := by
  have whole : i.heap.Whole := hi.whole
  refine .query fun shape _ => ?_
  refine .bind (Q := fun a s => i = a ∧ i = s) ⟨rfl, rfl⟩ ?_
  rintro _ _ ⟨rfl, rfl⟩
  refine .bind ((onHeap_meets (whole.allocatePointers_meets (kernelClass_sane hi .context) _)).mono
    (fun _ _ h => h) fun _ h => h.2.mono fun _ _ h => h.elim) ?_
  rintro ctx i₁ ⟨hsame, hctx, hmade, hsane, hfresh⟩
  have hknown : i₁.known = i.known := hsame ▸ rfl
  have hfill : ∀ mine i₂, i₂.known = i.known → i₁.heap.Introduces (fun _ x => x = .nil) i₂.heap →
      Sane i₂ mine → Meets
      (fun ctx i' => i.heap.Introduces (fun c x => c.object = ctx ∨ x = .nil) i'.heap ∧
        i'.heap.Holds ⟨ctx, Slot.Context.previous⟩ previous ∧ i'.Instance .context ctx)
      (fun i' => i.heap.Introduces (fun _ x => x = .nil) i'.heap) ((do
        fillSlots ctx 0
          [previous, receiver, code, .ofNat 0, mine, parent, home.getD ctx, receiver]
        fillSlots ctx (Slot.Context.registers + 1) (args.take shape.args)
        return ctx : ImageAction Value) i₂) := by
    intro mine i₂ hknown₂ hnew hmine
    refine .of_unfailing (.bind (fillSlots_unfailing _ _ _) fun _ =>
      .bind (fillSlots_unfailing _ _ _) fun _ => .pure _) fun made i' heq => ?_
    obtain ⟨_, i₃, hfields, hrest⟩ := bind_eq_ok.mp heq
    obtain ⟨_, i₄, hregisters, hdone⟩ := bind_eq_ok.mp hrest
    obtain ⟨rfl, rfl⟩ := pure_eq_ok.mp hdone
    have hgrows : i.heap.Grows i₂.heap := hctx.grows.trans hnew.grows
    have hctx₂ : i.heap.Introduces (fun c x => c.object = ctx ∨ x = .nil) i₂.heap :=
      (hctx.mono fun _ _ h => .inl h.1).trans (hnew.mono fun _ _ h => .inr h)
    have hsane₂ : i₂.heap.arenas.Sane ctx := hnew.grows _ hsane
    have hvalues : ∀ x ∈ [previous, receiver, code, .ofNat 0, mine, parent, home.getD ctx,
      receiver],
        i₂.heap.arenas.Sane x := by
      simp only [List.forall_mem_cons, List.not_mem_nil, false_implies, implies_true, and_true]
      refine ⟨hgrows _ hprevious, hgrows _ hreceiver, hgrows _ hcode, .inr (.inl (by simp)), hmine,
        hgrows _ hparent, ?_, hgrows _ hreceiver⟩
      cases home with
      | none => exact hsane₂
      | some v => exact hgrows _ (hhome v (by simp))
    obtain ⟨he₃, hholds⟩ := fillSlots_fills hfields hctx₂.whole hsane₂ hvalues
    have hctx₃ := fillSlots_introduces hctx₂ hsane₂ hvalues hfresh (fun _ _ => .inl rfl) hfields
    have hargs₃ : ∀ x ∈ args.take shape.args, i₃.heap.arenas.Sane x := fun x hx =>
      he₃.grows _ (hgrows _ (hargs x (List.mem_of_mem_take hx)))
    obtain ⟨he₄, -⟩ := fillSlots_fills hregisters he₃.whole (he₃.grows _ hsane₂) hargs₃
    have hprevious₃ := hholds 0 _ rfl
    have hheld : i₄.heap.Holds ⟨ctx, Slot.Context.previous⟩ previous :=
      he₄.kept (fun h => Nat.not_succ_le_zero _ h.2) hprevious₃
    refine ⟨fillSlots_introduces hctx₃ (he₃.grows _ hsane₂) hargs₃ hfresh (fun _ _ => .inl rfl)
      hregisters, hheld, ?_⟩
    -- The class is the one that the context was made of.
    obtain ⟨y, hy⟩ := he₃.holds hctx₂.whole hprevious₃ hsane₂
    obtain ⟨z, hz⟩ := hnew.holds hctx.whole hy hsane
    have hcontext : i₁.Instance .context ctx :=
      instance_of_instantiates (c := ⟨ctx, 0⟩) hmade hknown hfresh hz
    have hknown₃ := (fillSlots_knows ctx 0 _ _).ok hknown₂ hfields
    have hknown₄ := (fillSlots_knows ctx _ _ _).ok hknown₃ hregisters
    refine (instance_congr (hknown₄.trans hknown.symm) hsane hheld.sane ?_).mpr hcontext
    rw [he₄.header (he₃.grows _ hsane₂), he₃.header hsane₂, hnew.header hsane]
  dsimp only
  split
  · refine .bind ((onHeap_meets (hctx.whole.allocatePointers_meets ?_ _)).mono (fun _ _ h => h)
      fun i' h => ?_) fun mine i₂ h => ?_
    · exact hctx.grows _ (kernelClass_sane hi .array)
    · exact (hctx.mono fun _ _ h => h.2).trans (h.2.mono fun _ _ h => h.elim)
    · obtain ⟨hsame₂, hnew, -, hmine, -⟩ := h
      refine hfill mine i₂ ?_ (hnew.mono fun _ _ h => h.2) hmine
      exact (hsame₂ ▸ rfl : i₂.known = i₁.known).trans hknown
  · exact hfill .nil i₁ hknown (.refl hctx.whole) (Arenas.sane_nil _)

theorem newContext_grown : Meets (fun _ => Grown (fun _ _ => False) (fun _ => True) i.heap)
    (Grown (fun _ _ => False) (fun _ => True) i.heap)
    (newContext code receiver args previous parent home i) := by
  let known := [code, receiver, previous, parent] ++ args ++ held home
  have hmakes : Upholds (Grown (fun _ _ => False) (fun _ => True) i.heap) known
      (newContext code receiver args previous parent home) :=
    newContext_upholds (trusted_of_mem (by simp [known])) (trusted_of_mem (by simp [known]))
      (fun v hv => trusted_of_mem (by simp [known, hv])) (trusted_of_mem (by simp [known]))
      (trusted_of_mem (by simp [known])) (fun v hv => trusted_of_mem (List.mem_append_right _ hv))
      fun _ => trivial
  have hgrown := hmakes i hi.grown fun v hv => by
    simp only [known, List.mem_append, List.mem_cons, List.not_mem_nil, or_false] at hv
    rcases hv with ((rfl | rfl | rfl | rfl) | hv) | hv
    · exact hcode
    · exact hreceiver
    · exact hprevious
    · exact hparent
    · exact hargs v hv
    · exact hhome v hv
  exact .intro (fun _ _ heq => hgrown.ok heq) fun _ _ heq => hgrown.failure heq

/-- A context that is called from one whose chain ends. -/
theorem newContext_heeds (hg : i.Grounded) (hrooted : i.Rooted previous) :
    Meets (fun ctx i' => i.Heeds i' ∧ i'.Rooted ctx) i.Heeds
      (newContext code receiver args previous parent home i) := by
  have hgrown := newContext_grown hi hcode hreceiver hargs hprevious hparent hhome
  have hknows := newContext_knows code receiver previous parent args home i.known
  have hnew := newContext_introduces hi hcode hreceiver hargs hprevious hparent hhome
  refine .intro (fun ctx i' heq => ?_) fun cause i' heq => ?_
  · obtain ⟨hintroduces, hheld, hcontext⟩ := hnew.ok heq
    have hheeds : i.Heeds i' := by
      refine hg.heeds_of_introduces hi (hgrown.ok heq).intact (hknows.ok rfl heq) hintroduces
        fun c x hx hc hr => ?_
      rcases hx with hobject | rfl
      · have hclass : i'.Instance .context c.object := hobject ▸ hcontext
        have hapart : ¬i'.Instance .process c.object := fun hprocess =>
          hclass.ne (fun k k' h => hg.kinds (by rwa [hr.kernelClass, hr.kernelClass] at h)) hprocess
            (by decide) rfl
        exact ⟨fun _ _ => .inl (hobject ▸ (hr.rooted hrooted).call ⟨hcontext, hheld⟩),
          fun h => absurd h hapart, fun h => absurd h hapart⟩
      · exact inOrder_nil hc
    exact ⟨hheeds, (hheeds.rooted hrooted).call ⟨hcontext, hheld⟩⟩
  · refine hg.heeds_of_introduces hi (hgrown.failure heq).intact (hknows.error rfl heq)
      (hnew.failure heq) fun c x hx hc _ => ?_
    obtain rfl := hx
    exact inOrder_nil hc

end Contexts

theorem blockContext?_heeds (hg : i.Grounded) {block previous : Value} {args : List Value}
    (hblock : Sane i block) (hargs : ∀ v ∈ args, Sane i v) (hprevious : Sane i previous)
    (hrooted : i.Rooted previous) :
    Meets (fun ctx i' => i.Heeds i' ∧ ∀ v ∈ ctx, i'.Rooted v) i.Heeds
      (blockContext? block args previous i) := by
  refine .query fun shape _ => ?_
  split
  · exact ⟨.refl hi hg, nofun⟩
  refine .query fun receiver hreceiver => .query fun parent hparent => .query fun home hhome => ?_
  have hread : ∀ {k x}, i.heap.slot block k = .ok x → Sane i x := hi.whole.slot hblock
  have hhomes : ∀ v ∈ held (some home), Sane i v := by
    simpa using (hread hhome : Sane i home)
  refine (newContext_heeds hi hblock (hread hreceiver) hargs hprevious (hread hparent) hhomes hg
    hrooted).bind fun ctx i' h => ⟨h.1, fun v hv => Option.some.inj hv ▸ h.2⟩

end Making

end Image

end ObjectMachine
