import ObjectMachine.Proofs.Machine.Entering
import ObjectMachine.Proofs.Machine.Unwinding
import ObjectMachine.Proofs.Memory.Extension

namespace ObjectMachine

theorem Heap.Whole.allotted {h h' : Heap} (whole : h.Whole) {isa v : Value} {count : Nat}
    (hisa : h.arenas.Sane isa) (heq : allocatePointers isa count h = .ok v h') :
    Extends (fun _ => False) h h' ∧ h'.arenas.Sane v ∧ ¬h.arenas.Sane v := by
  have hallots := whole.allots_pointers hisa count
  rwa [heq] at hallots

structure Heap.Opens (h h' : Heap) (context mine theirs : Value) : Prop where
  fresh : ¬h.arenas.Sane context
  own : h'.Holds ⟨context, Slot.Context.heapVars⟩ mine
  apart : mine = .nil ∨ ¬h.arenas.Sane mine
  parent : h'.Holds ⟨context, Slot.Context.parentHeapVars⟩ theirs

namespace Image

variable {i i' : Image}

theorem fillSlots_fills {v : Value} {first : Nat} {xs : List Value}
    (heq : fillSlots v first xs i = .ok () i') (whole : i.heap.Whole)
    (hv : i.heap.arenas.Sane v) (hxs : ∀ x ∈ xs, i.heap.arenas.Sane x) :
    Heap.Extends (fun c => c.object = v ∧ first ≤ c.index) i.heap i'.heap ∧
      ∀ k x, xs[k]? = some x → i'.heap.Holds ⟨v, first + k⟩ x := by
  induction xs generalizing first i with
  | nil =>
    obtain ⟨-, rfl⟩ := pure_eq_ok.mp heq
    exact ⟨.refl whole, nofun⟩
  | cons y ys ih =>
    obtain ⟨_, i₁, hset, hrest⟩ := bind_eq_ok.mp heq
    obtain ⟨heap, hwrite, rfl⟩ := onHeap_eq_ok.mp hset
    have hr := whole.rewrites hv (hxs y (.head _)) hwrite
    obtain ⟨he, hholds⟩ := ih hrest hr.whole (hr.grows _ hv)
      fun x hx => hr.grows _ (hxs x (.tail _ hx))
    have hfirst : i'.heap.Holds ⟨v, first⟩ y := he.kept (by simp) hr.written
    refine ⟨(hr.extends ⟨rfl, Nat.le_refl _⟩).trans (he.mono fun c _ hc =>
      ⟨hc.1, Nat.le_of_succ_le hc.2⟩), fun k x hx => ?_⟩
    cases k with
    | zero => exact Option.some.inj hx ▸ hfirst
    | succ k =>
      rw [← Nat.add_assoc, Nat.add_right_comm]
      exact hholds k x hx

theorem newContext_opens {code receiver previous parent ctx : Value} {args : List Value}
    {home : Option Value} (hi : Intact i) (hcode : Sane i code) (hreceiver : Sane i receiver)
    (hargs : ∀ v ∈ args, Sane i v) (hprevious : Sane i previous) (hparent : Sane i parent)
    (hhome : ∀ v ∈ home, Sane i v)
    (heq : newContext code receiver args previous parent home i = .ok ctx i') :
    ∃ mine, i.heap.Opens i'.heap ctx mine parent := by
  obtain ⟨shape, i₁, hshape, hmake⟩ := bind_eq_ok.mp heq
  obtain ⟨-, rfl⟩ := query_eq_ok hshape
  obtain ⟨_, _, hget, hmake⟩ := bind_eq_ok.mp hmake
  cases hget
  obtain ⟨object, i₂, hnew, hmake⟩ := bind_eq_ok.mp hmake
  obtain ⟨h₁, hallocate, rfl⟩ := onHeap_eq_ok.mp hnew
  have hclass : ∀ k, i₁.heap.arenas.Sane (i₁.kernelClass k) := fun k =>
    hi.held _ (i₁.kernelClass_mem_values k)
  obtain ⟨he₁, hobject, hfresh⟩ := Heap.Whole.allotted hi.whole (hclass .context) hallocate
  -- The heap variables come after the context and before it is filled.
  obtain ⟨mine, i₃, hmine, he₃, hsane, hfill⟩ : ∃ mine i₃, (mine = .nil ∨
      ¬i₁.heap.arenas.Sane mine) ∧ Heap.Extends (fun _ => False) h₁ i₃.heap ∧
      i₃.heap.arenas.Sane mine ∧ (do
        fillSlots object 0
          [previous, receiver, code, .ofNat 0, mine, parent, home.getD object, receiver]
        fillSlots object (Slot.Context.registers + 1) (args.take shape.args)
        return object : ImageAction Value) i₃ = .ok ctx i' := by
    rcases ite_eq_ok.mp hmake with ⟨-, hmake⟩ | ⟨-, hmake⟩
    · obtain ⟨mine, i₃, hnew, hfill⟩ := bind_eq_ok.mp hmake
      obtain ⟨h₂, hallocate', rfl⟩ := onHeap_eq_ok.mp hnew
      obtain ⟨he₂, hmine, hnone⟩ := he₁.whole.allotted (he₁.grows _ (hclass .array)) hallocate'
      exact ⟨mine, { i₁ with heap := h₂ }, .inr fun h => hnone (he₁.grows _ h), he₂, hmine, hfill⟩
    · exact ⟨.nil, { i₁ with heap := h₁ }, .inl rfl, .refl he₁.whole, Arenas.sane_nil _, hmake⟩
  have he := he₁.trans he₃
  obtain ⟨_, i₄, hfields, hfill⟩ := bind_eq_ok.mp hfill
  obtain ⟨_, i₅, hregisters, hdone⟩ := bind_eq_ok.mp hfill
  obtain ⟨rfl, rfl⟩ := pure_eq_ok.mp hdone
  have hmade : i₃.heap.arenas.Sane object := he₃.grows _ hobject
  obtain ⟨he₄, hholds⟩ := fillSlots_fills hfields he.whole hmade fun x hx => by
    simp only [List.mem_cons, List.not_mem_nil, or_false] at hx
    rcases hx with rfl | rfl | rfl | rfl | rfl | rfl | rfl | rfl
    · exact he.grows _ hprevious
    · exact he.grows _ hreceiver
    · exact he.grows _ hcode
    · exact .inr (.inl (by simp))
    · exact hsane
    · exact he.grows _ hparent
    · cases home with
      | none => exact hmade
      | some v => exact he.grows _ (hhome v rfl)
    · exact he.grows _ hreceiver
  obtain ⟨he₅, -⟩ := fillSlots_fills hregisters he₄.whole (he₄.grows _ hmade) fun x hx =>
    he₄.grows _ (he.grows _ (hargs x (List.mem_of_mem_take hx)))
  have hkept : ∀ {k x}, k < Slot.Context.registers + 1 → i₄.heap.Holds ⟨object, k⟩ x →
      i₅.heap.Holds ⟨object, k⟩ x := fun hk hx =>
    he₅.kept (fun hc => Nat.not_le.mpr hk hc.2) hx
  exact ⟨mine, hfresh, hkept (by decide) (hholds 4 _ rfl), hmine,
    hkept (by decide) (hholds 5 _ rfl)⟩

/-- A context in which a block runs has the heap variables of the block's parent for its
parent's. -/
theorem blockContext?_opens {block previous ctx : Value} {args : List Value}
    (hi : Intact i) (hblock : Sane i block) (hargs : ∀ v ∈ args, Sane i v)
    (hprevious : Sane i previous)
    (heq : blockContext? block args previous i = .ok (some ctx) i') :
    ∃ mine theirs, i.heap.Holds ⟨block, Slot.Block.parentHeapVars⟩ theirs ∧
      i.heap.Opens i'.heap ctx mine theirs := by
  obtain ⟨shape, -, hmake⟩ := query_bind_eq_ok.mp heq
  rcases ite_eq_ok.mp hmake with ⟨-, hmake⟩ | ⟨-, hmake⟩
  · cases (pure_eq_ok.mp hmake).1
  obtain ⟨receiver, hreceiver, hmake⟩ := query_bind_eq_ok.mp hmake
  obtain ⟨parent, hparent, hmake⟩ := query_bind_eq_ok.mp hmake
  obtain ⟨home, hhome, hmake⟩ := query_bind_eq_ok.mp hmake
  obtain ⟨object, i₁, hnew, hdone⟩ := bind_eq_ok.mp hmake
  obtain ⟨hsame, rfl⟩ := pure_eq_ok.mp hdone
  obtain rfl := Option.some.inj hsame
  have hread : ∀ {k x}, i.heap.slot block k = .ok x → Sane i x := hi.whole.slot hblock
  obtain ⟨mine, ho⟩ := newContext_opens hi hblock (hread hreceiver) hargs hprevious (hread hparent)
    (fun v hv => Option.some.inj hv ▸ hread hhome) hnew
  exact ⟨mine, parent, ⟨hblock, hparent⟩, ho⟩

end Image

namespace Machine

variable {m m' m₁ : Machine}

theorem activate_opens {code receiver parent : Value} {args : List Value} {home : Option Value}
    {u : Unit} (hm : Intact m) (hcode : Sane m code) (hreceiver : Sane m receiver)
    (hargs : ∀ v ∈ args, Sane m v) (hparent : Sane m parent) (hhome : ∀ v ∈ home, Sane m v)
    (heq : activate code receiver args parent home m = .ok u m') :
    ∃ mine, m.image.heap.Opens m'.image.heap m'.context mine parent := by
  rw [activate, get_bind] at heq
  obtain ⟨_, m₁, hset, hmake⟩ := bind_eq_ok.mp heq
  obtain ⟨context, m₂, hnew, henter⟩ := bind_eq_ok.mp hmake
  obtain ⟨_, m₃, hswitch, hload⟩ := bind_eq_ok.mp henter
  have hstable : Stable [m.context] (setSlot m.context Slot.Context.pc (.ofNat m.pc)) :=
    setSlot_stable (by simp) _ (by simp)
  have hcontext : Sane m m.context := hm.held _ (by simp)
  have hsettled := hstable m hm (by simpa using hcontext)
  rw [hset] at hsettled
  obtain ⟨hm₁, hgrows, -⟩ := hsettled
  obtain ⟨_, -, rfl⟩ := setSlot_eq_ok hset
  obtain ⟨image, hmade, rfl⟩ := onImage_eq_ok hnew
  obtain rfl := modify_eq_ok.mp hswitch
  obtain ⟨_, _, _, _, _, _, -, -, rfl⟩ := loadFrame_eq_ok hload
  obtain ⟨mine, ho⟩ := Image.newContext_opens (intact_image hm₁) (hgrows.sane hcode)
    (hgrows.sane hreceiver) (fun v hv => hgrows.sane (hargs v hv)) (hgrows.sane hcontext)
    (hgrows.sane hparent) (fun v hv => hgrows.sane (hhome v hv)) hmade
  exact ⟨mine, fun h => ho.fresh (hgrows.sane h), ho.own,
    ho.apart.imp_right fun hnew h => hnew (hgrows.sane h), ho.parent⟩

theorem dispatch_opens {selector receiver cls : Value} {args : List Value} {u : Unit}
    (hm : Intact m) (hsane : ∀ v ∈ receiver :: cls :: args, Sane m v)
    (heq : dispatch selector receiver args cls m = .ok u m') :
    ∃ mine, m.image.heap.Opens m'.image.heap m'.context mine .nil := by
  obtain ⟨found, hfound, hfollow⟩ := query_bind_eq_ok.mp heq
  cases found with
  | none =>
    obtain ⟨_, _, -, hfollow⟩ := bind_eq_ok.mp hfollow
    obtain ⟨_, _, -, hfollow⟩ := bind_eq_ok.mp hfollow
    obtain ⟨_, _, -, hfollow⟩ := bind_eq_ok.mp hfollow
    exact nomatch fail_eq_ok.mp hfollow
  | some found =>
    obtain ⟨method, owner⟩ := found
    have hmethod : Sane m method :=
      (hm.whole.yields_lookupFrom selector _ (hsane cls (by simp))) _ hfound method (by simp)
    exact activate_opens hm hmethod (hsane receiver (by simp)) (fun v hv => hsane v (by simp [hv]))
      (Arenas.sane_nil _) (by simp) hfollow

theorem invokeBlock_opens {block : Value} {args : List Value} {u : Unit} (hm : Intact m)
    (hblock : Sane m block) (hargs : ∀ v ∈ args, Sane m v)
    (heq : invokeBlock block args m = .ok u m') (hcontext : m'.context ≠ m.context) :
    ∃ mine theirs, m.image.heap.Holds ⟨block, Slot.Block.parentHeapVars⟩ theirs ∧
      m.image.heap.Opens m'.image.heap m'.context mine theirs := by
  obtain ⟨isBlock, -, hgo⟩ := query_bind_eq_ok.mp heq
  rcases ite_eq_ok.mp hgo with ⟨-, hgo⟩ | ⟨-, hgo⟩
  · exact absurd (setAccumulator_stays (R := InPlace) _ _ _ _ hgo) hcontext
  obtain ⟨shape, -, hgo⟩ := query_bind_eq_ok.mp hgo
  rcases ite_eq_ok.mp hgo with ⟨-, hgo⟩ | ⟨-, hgo⟩
  · exact absurd (setAccumulator_stays (R := InPlace) _ _ _ _ hgo) hcontext
  obtain ⟨receiver, hreceiver, hgo⟩ := query_bind_eq_ok.mp hgo
  obtain ⟨parent, hparent, hgo⟩ := query_bind_eq_ok.mp hgo
  obtain ⟨home, hhome, hgo⟩ := query_bind_eq_ok.mp hgo
  have hread : ∀ {k x}, m.image.heap.slot block k = .ok x → Sane m x := hm.whole.slot hblock
  obtain ⟨mine, ho⟩ := activate_opens hm hblock (hread hreceiver) hargs (hread hparent)
    (fun v hv => Option.some.inj hv ▸ hread hhome) hgo
  exact ⟨mine, parent, ⟨hblock, hparent⟩, ho⟩

section Copying

theorem getElem?_of_mapM {ε α β : Type} {f : α → Except ε β} {l : List α} {ys : List β}
    (heq : l.mapM f = .ok ys) {k : Nat} {a : α} (ha : l[k]? = some a) :
    ∃ y, f a = .ok y ∧ ys[k]? = some y := by
  induction l generalizing ys k with
  | nil => cases ha
  | cons b l ih =>
    rw [List.mapM_cons, except_bind_eq_ok] at heq
    obtain ⟨y, hy, heq⟩ := heq
    obtain ⟨rest, hrest, heq⟩ := except_bind_eq_ok.mp heq
    obtain rfl := Except.ok.inj heq
    cases k with
    | zero => exact ⟨y, Option.some.inj ha ▸ hy, rfl⟩
    | succ k => exact ih hrest ha

variable {block theirs : Value} {u : Unit}

/-- The last part of copying a block: it is given the receiver, the heap variables and the home of
the current context. -/
def linkBlock (block : Value) : MachineAction Unit := do
  let context := (← get).context
  setSlot block Slot.Block.receiver (← slot context Slot.Context.registers)
  setSlot block Slot.Block.parentHeapVars (← slot context Slot.Context.heapVars)
  setSlot block Slot.Block.home (← slot context Slot.Context.home)
  setAccumulator block

theorem linkBlock_eq_ok (heq : linkBlock block m = .ok u m') (whole : m.image.heap.Whole)
    (hblock : Sane m block) (hcontext : Sane m m.context) :
    ∃ receiver parent home h₁ h₂ h₃,
      m.image.heap.Rewrites h₁ ⟨block, Slot.Block.receiver⟩ receiver ∧
      h₁.slot m.context Slot.Context.heapVars = .ok parent ∧
      h₁.Rewrites h₂ ⟨block, Slot.Block.parentHeapVars⟩ parent ∧
      h₂.Rewrites h₃ ⟨block, Slot.Block.home⟩ home ∧
      m' = { m with image := { m.image with heap := h₃ }, accumulator := block } := by
  rw [linkBlock, get_bind] at heq
  obtain ⟨receiver, hreceiver, hrest⟩ := query_bind_eq_ok.mp heq
  obtain ⟨_, m₁, hset₁, hrest⟩ := bind_eq_ok.mp hrest
  obtain ⟨h₁, rfl, hr₁⟩ := rewrites_of_setSlot whole hblock (whole.slot hcontext hreceiver) hset₁
  obtain ⟨parent, hparent, hrest⟩ := query_bind_eq_ok.mp hrest
  obtain ⟨_, m₂, hset₂, hrest⟩ := bind_eq_ok.mp hrest
  have hblock₁ := hr₁.grows _ hblock
  have hcontext₁ := hr₁.grows _ hcontext
  obtain ⟨h₂, rfl, hr₂⟩ := rewrites_of_setSlot
    (m := { m with image := { m.image with heap := h₁ } }) hr₁.whole hblock₁
    (hr₁.whole.slot hcontext₁ hparent) hset₂
  obtain ⟨home, hhome, hrest⟩ := query_bind_eq_ok.mp hrest
  obtain ⟨_, m₃, hset₃, hdone⟩ := bind_eq_ok.mp hrest
  obtain ⟨h₃, rfl, hr₃⟩ := rewrites_of_setSlot
    (m := { m with image := { m.image with heap := h₂ } }) hr₂.whole (hr₂.grows _ hblock₁)
    (hr₂.whole.slot (hr₂.grows _ hcontext₁) hhome) hset₃
  obtain rfl := modify_eq_ok.mp hdone
  exact ⟨receiver, parent, home, h₁, h₂, h₃, hr₁, hparent, hr₂, hr₃, rfl⟩

theorem copyBlock_eq_ok {index : UInt8} (hp : m.Pause (.copyBlock index) m₁) (hm : Intact m₁)
    (heq : execute (.copyBlock index) m = .ok () m') :
    ∃ template block image, m₁.image.heap.slot m₁.literals index.toNat = .ok template ∧
      ¬Sane m₁ block ∧ Sane image block ∧
      Heap.Extends (fun _ => False) m₁.image.heap image.heap ∧
      (∀ k < Slot.Code.count, ∀ x, m₁.image.heap.Holds ⟨template, k⟩ x →
        image.heap.Holds ⟨block, k⟩ x) ∧
      linkBlock block { m₁ with image } = .ok () m' := by
  have hrest := hp.of_pauses trivial heq
  obtain ⟨template, htemplate, hrest⟩ := query_bind_eq_ok.mp hrest
  rw [get_bind] at hrest
  obtain ⟨block, m₂, hmade, hrest⟩ := bind_eq_ok.mp hrest
  obtain ⟨image, hnew, rfl⟩ := onImage_eq_ok hmade
  obtain ⟨h₁, hallocate, rfl⟩ := Image.onHeap_eq_ok.mp hnew
  have hclass : Sane m₁ (m₁.image.kernelClass .block) :=
    (intact_image hm).held _ (m₁.image.kernelClass_mem_values _)
  obtain ⟨he₁, hblock, hfresh⟩ := Heap.Whole.allotted hm.whole hclass hallocate
  obtain ⟨fields, hfields, hrest⟩ := query_bind_eq_ok.mp hrest
  have hsane : Sane m₁ template := hm.whole.slot (hm.held _ (by simp)) htemplate
  have hread := yields_mapM (fun k => he₁.whole.yields_slot (he₁.grows _ hsane) k) _ fields hfields
  obtain ⟨_, m₃, hfilled, hrest⟩ := bind_eq_ok.mp hrest
  obtain ⟨image, hfill, rfl⟩ := onImage_eq_ok hfilled
  obtain ⟨he₂, hholds⟩ := Image.fillSlots_fills hfill he₁.whole hblock
    fun x hx => hread x (by simpa using hx)
  have he : Heap.Extends (·.object = block) m₁.image.heap image.heap :=
    (he₁.mono fun _ _ => False.elim).trans (he₂.mono fun _ _ hc => hc.1)
  refine ⟨template, block, image, htemplate, hfresh, he₂.grows _ hblock,
    he.mono fun c hc hblock => hfresh (hblock ▸ hc), fun k hk x hx => ?_, hrest⟩
  obtain ⟨y, hy, hfield⟩ := getElem?_of_mapM hfields (List.getElem?_range hk)
  obtain rfl := Except.ok.inj ((he₁.kept id hx).slot.symm.trans hy)
  simpa using hholds k x hfield

/-- A block has the heap variables of the context that copies it for its parent's. -/
theorem copyBlock_links {index : UInt8} {theirs : Value} (hp : m.Pause (.copyBlock index) m₁)
    (hm : Intact m₁)
    (htheirs : m₁.image.heap.Holds ⟨m₁.context, Slot.Context.heapVars⟩ theirs)
    (heq : execute (.copyBlock index) m = .ok () m') :
    m'.image.heap.Holds ⟨m'.accumulator, Slot.Block.parentHeapVars⟩ theirs := by
  obtain ⟨-, block, image, -, hfresh, hblock, he, -, hlink⟩ := copyBlock_eq_ok hp hm heq
  have hne : m₁.context ≠ block := fun heq => hfresh (heq ▸ htheirs.sane)
  obtain ⟨_, parent, _, h₁, h₂, h₃, hr₁, hparent, hr₂, hr₃, rfl⟩ :=
    linkBlock_eq_ok hlink he.whole hblock (he.grows _ htheirs.sane)
  have hkept := hr₁.others (fun hcell => hne (congrArg Cell.object hcell)) (he.kept id htheirs)
  obtain rfl : parent = theirs := Except.ok.inj (hparent.symm.trans hkept.slot)
  exact hr₃.others (by simp) hr₂.written

/-- A block has the code of its template, and belongs to the same class. -/
theorem copyBlock_copies {index : UInt8} {template x : Value} {k : Nat}
    (hp : m.Pause (.copyBlock index) m₁) (hm : Intact m₁)
    (htemplate : m₁.image.heap.slot m₁.literals index.toNat = .ok template)
    (hk : k < Slot.Code.count) (hx : m₁.image.heap.Holds ⟨template, k⟩ x)
    (heq : execute (.copyBlock index) m = .ok () m') :
    m'.image.heap.Holds ⟨m'.accumulator, k⟩ x := by
  obtain ⟨template', block, image, htemplate', -, hblock, he, hcopied, hlink⟩ :=
    copyBlock_eq_ok hp hm heq
  obtain rfl := Except.ok.inj (htemplate.symm.trans htemplate')
  have hcontext : Sane m₁ m₁.context := hm.held _ (by simp)
  obtain ⟨_, _, _, h₁, h₂, h₃, hr₁, -, hr₂, hr₃, rfl⟩ :=
    linkBlock_eq_ok hlink he.whole hblock (he.grows _ hcontext)
  have hlow : ∀ {j}, Slot.Code.count ≤ j → (⟨block, k⟩ : Cell) ≠ ⟨block, j⟩ := fun hj hcell =>
    (hk.trans_le hj).ne (congrArg Cell.index hcell)
  exact hr₃.others (hlow (by decide)) (hr₂.others (hlow (by decide))
    (hr₁.others (hlow (by decide)) (hcopied k hk x hx)))

end Copying

end Machine

end ObjectMachine
