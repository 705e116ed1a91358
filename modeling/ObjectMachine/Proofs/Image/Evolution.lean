import ObjectMachine.Proofs.Image.Loading
import ObjectMachine.Proofs.Image.Stability
import ObjectMachine.Proofs.Machine.Stability
import ObjectMachine.Proofs.Memory.Extension

namespace ObjectMachine

variable {W : Licence} {F : Value → Prop} {base : Heap} {known : List Value} {ε : Type}

theorem Grown.rewrites {h h' : Heap} {v x : Value} {i : Nat} (hs : Grown W F base h)
    (hr : Heap.Rewrites h h' ⟨v, i⟩ x) (hstats : h'.stats = h.stats)
    (hW : base.arenas.Sane v → W ⟨v, i⟩ x) : Grown W F base h' := by
  have hpreserves : h.Preserves h' := ⟨hr.header, hr.spells, congrArg _ hstats⟩
  refine ⟨⟨⟨hr.whole, fun _ hmem => nomatch hmem⟩, hs.grows.trans hr.grows, fun c y hc => ?_⟩,
    hs.preserves.trans hs.grows hpreserves,
    hs.instantiates.trans hs.intact.whole hpreserves ⟨fun hd hnew => ?_⟩⟩
  · obtain ⟨z, hz, hsame⟩ := hs.evolves c y hc
    by_cases heq : c = ⟨v, i⟩
    · subst heq
      exact ⟨x, hr.written, .inr (hW hc.sane)⟩
    · exact ⟨z, hr.others heq hz, hsame⟩
  · obtain ⟨y, hy⟩ := hr.cells hd
    exact absurd hy.sane hnew

theorem Upholds.slot {σ : Type} [Store σ] {P : σ → Prop} (hP : ∀ {s}, P s → Intact s) {v : Value}
    (hv : Trusted known v) (i : Nat) :
    Upholds P known (Action.query fun s => (Store.heap s).slot v i : Action ε σ Value) :=
  .query fun _ hs hknown => (hP hs).whole.yields_slot (hv.sane hknown) i

namespace Heap

variable {h : Heap} {v x : Value}

theorem setSlot_upholds (hv : Trusted known v) (i : Nat) (hx : Trusted known x)
    (hW : base.arenas.Sane v → W ⟨v, i⟩ x) :
    Upholds (Grown W F base) known (Heap.setSlot v i x : Action ε Heap Unit) := by
  intro h hs hknown
  cases heq : (Heap.setSlot v i x : Action ε Heap Unit) h with
  | ok u h' =>
    have hr := hs.intact.whole.rewrites (hv.sane hknown) (hx.sane hknown) heq
    exact ⟨hs.rewrites hr (setSlot_eq_ok heq).1 hW, hr.grows, fun _ hmem => nomatch hmem⟩
  | error e h' =>
    cases e with
    | failure cause => exact absurd heq (setSlot_unfailing v i x h cause h')
    | fault f => trivial

/-- A stable step that keeps to the licence. -/
theorem upholds_of_evolved {α : Type} [Holder α] {act : Action ε Heap α}
    (hstable : Stable known act)
    (hevolved : ∀ h, Grown W F base h → (∀ v ∈ known, Sane h v) →
      Evolved W h (act h) ∧ h.Preserved F (act h)) :
    Upholds (Grown W F base) known act := by
  intro h hs hknown
  have hend := hstable h hs.intact hknown
  obtain ⟨he, hp⟩ := hevolved h hs hknown
  have whole : h.Whole := hs.intact.whole
  cases heq : act h with
  | ok a h' =>
    rw [heq] at hend he hp
    exact ⟨⟨⟨hend.1, hs.grows.trans hend.2.1, hs.evolves.trans he⟩,
      hs.preserves.trans hs.grows hp.1, hs.instantiates.trans whole hp.1 hp.2⟩, hend.2⟩
  | error e h' =>
    rw [heq] at hend he hp
    cases e with
    | fault f => trivial
    | failure cause =>
      exact ⟨⟨⟨hend.1, hs.grows.trans hend.2, hs.evolves.trans he⟩,
        hs.preserves.trans hs.grows hp.1, hs.instantiates.trans whole hp.1 hp.2⟩, hend.2⟩

theorem allocate_upholds (id : ArenaId) (hx : Trusted known x) (size : UInt32)
    {fill : Array UInt64 → Array UInt64} {payload : Array UInt64}
    (hfill : ∀ s, fill s = s ++ payload)
    (hsize : ∀ hash, payload.size = (Header.mk x id.objectKind hash size).payloadWords)
    (zeros : id = .pointers → ∀ w ∈ payload, w = 0) (hF : id = .pointers → F x) :
    Upholds (Grown W F base) known (allocate id x id.objectKind size fill) := by
  refine upholds_of_evolved (allocate_stable id hx size hfill hsize zeros) fun h hs hknown => ?_
  have whole : h.Whole := hs.intact.whole
  have hsane : Sane h x := hx.sane hknown
  exact ⟨(whole.allocate_evolves id hsane size hfill hsize zeros).1,
    whole.allocate_preserves id hsane size hfill hsize zeros hF⟩

theorem allocatePointers_upholds (hx : Trusted known x) (slots : Nat) (hF : F x) :
    Upholds (Grown W F base) known (allocatePointers x slots) :=
  allocate_upholds .pointers hx _ (fun s => pushZeros_eq s _) (fun _ => Array.size_replicate)
    (fun _ _ hw => (Array.mem_replicate.mp hw).2) fun _ => hF

theorem allocateBytes_upholds (hx : Trusted known x) (bytes : Array UInt8) :
    Upholds (Grown W F base) known (allocateBytes x bytes) := by
  refine .bind (allocate_upholds .leaf hx _ (fun s => pushPacked_eq bytes s 0 _) ?_ nofun nofun)
    fun object => ?_
  · intro hash
    simp [Header.payloadWords, ArenaId.objectKind]
  · split
    · exact .pure (by simp)
    · exact .fault _

/-- A new object is none of those that there were. -/
theorem allocatePointers_fresh (hx : Trusted known x) (slots : Nat) {h h' : Heap}
    (hs : Grown W F base h) (hknown : ∀ v ∈ known, Sane h v)
    (heq : allocatePointers x slots h = .ok v h') : ¬base.arenas.Sane v := by
  have whole : h.Whole := hs.intact.whole
  have hsane : Sane h x := hx.sane hknown
  have hmade := whole.allocate_evolves (W := W) .pointers hsane slots.toUInt32
    (fun s => pushZeros_eq s _) (fun _ => Array.size_replicate)
    fun _ _ hw => (Array.mem_replicate.mp hw).2
  exact hs.fresh (hmade.2 v h' heq)

theorem newDictionary_upholds (hx : Trusted known x) (buckets : Nat) (hF : F x) :
    Upholds (Grown W F base) known (newDictionary x buckets) := by
  refine .bind_of (allocatePointers_upholds hx _ hF)
    (fun _ _ _ hs hknown heq => allocatePointers_fresh hx _ hs hknown heq) fun d hd => ?_
  refine .bind (setSlot_upholds (by simp) _ (by simp) (absurd · hd)) fun _ => ?_
  exact .pure (by simp)

def Enters (h : Heap) (d key : Value) (c : Cell) : Prop :=
  match h.dictionaryLink d key with
  | .ok (some link) => c = ⟨link, Slot.Link.value⟩
  | .ok none => c.object = d
  | .error _ => False

theorem dictionaryPut_leaves {linkClass d key value : Value} (hs : Grown W F base h)
    (hlink : h.arenas.Sane linkClass) (hd : h.arenas.Sane d) (hkey : h.arenas.Sane key)
    (hvalue : h.arenas.Sane value) (hF : F linkClass)
    (hW : ∀ c x, base.arenas.Sane c.object → h.Enters d key c → W c x) :
    Leaves (Grown W F base) h (dictionaryPut linkClass d key value h) := by
  have whole : h.Whole := hs.intact.whole
  have hknown : ∀ v ∈ [linkClass, d, key, value], Sane h v := by simp [Sane, *]
  refine .query fun found hfound => ?_
  cases found with
  | some link =>
    have hl : h.arenas.Sane link :=
      whole.yields_dictionaryLink hd key _ hfound link (by simp)
    have hstore : Upholds (Grown W F base) [link, linkClass, d, key, value]
        (do setSlot link Slot.Link.value value; return link : Action HeapError Heap Value) := by
      refine .bind (setSlot_upholds (by simp) _ (by simp) fun hsane => hW _ _ hsane ?_) fun _ =>
        .pure (by simp)
      rw [Enters, hfound]
    exact hstore h hs fun v hv => by
      rcases List.mem_cons.mp hv with rfl | hv
      · exact hl
      · exact hknown v hv
  | none =>
    have hput : ∀ i x, base.arenas.Sane d → W ⟨d, i⟩ x := by
      intro i x hsane
      refine hW _ _ hsane ?_
      rw [Enters, hfound]
    have hallocate : Upholds (Grown W F base) [linkClass, d, key, value]
        (allocatePointers linkClass Slot.Link.count) := allocatePointers_upholds (by simp) _ hF
    refine hallocate.bind_of (fun _ _ _ hs hknown heq =>
      allocatePointers_fresh (by simp) _ hs hknown heq) (fun link hfresh => ?_) h hs hknown
    refine .bind (.inspect fun _ => rfl) fun bucket => ?_
    refine .bind (setSlot_upholds (by simp) _ (by simp) (absurd · hfresh)) fun _ => ?_
    refine .bind (setSlot_upholds (by simp) _ (by simp) (absurd · hfresh)) fun _ => ?_
    refine .bind (.slot (·.intact) (by simp) _) fun next => ?_
    refine .bind (setSlot_upholds (by simp) _ (by simp) (absurd · hfresh)) fun _ => ?_
    refine .bind (setSlot_upholds (by simp) _ (by simp) (hput _ _)) fun _ => ?_
    refine .bind (.slot (·.intact) (by simp) _) fun tally => ?_
    refine .bind (setSlot_upholds (by simp) _ (trusted_getD_ofInt? _) (hput _ _)) fun _ => ?_
    exact .pure (by simp)

end Heap

namespace Queue

variable {q : Queue} {p : Value}

theorem enqueue_upholds (hq : ∀ v ∈ held q, Trusted known v) (hp : Trusted known p)
    (hW : base.arenas.Sane q.tail → W ⟨q.tail, Slot.Process.link⟩ p) :
    Upholds (Grown W F base) known (q.enqueue p : Action ε Heap Queue) := by
  have hpair : Trusted known q.head ∧ Trusted known q.tail := by simpa using hq
  refine .bind (.slot (·.intact) hp _) fun link => ?_
  have hrest : Upholds (Grown W F base) (held link ++ known)
    (if q.tail.isNil = true then pure ⟨p, p⟩
      else do
        Heap.setSlot q.tail Slot.Process.link p
        return ⟨q.head, p⟩ : Action ε Heap Queue) := by
    split
    · exact .pure (by simp [hp])
    · refine .bind (Heap.setSlot_upholds (by simp [hpair]) _ (by simp [hp]) hW) fun _ => ?_
      exact .pure (by simp [hp, hpair])
  dsimp only
  split
  · exact .bind (.fault _) fun _ => hrest
  · exact hrest

theorem dequeue_upholds (hq : ∀ v ∈ held q, Trusted known v)
    (hW : base.arenas.Sane q.head → W ⟨q.head, Slot.Process.link⟩ .nil) :
    Upholds (Grown W F base) known (q.dequeue : Action ε Heap (Option Value × Queue)) := by
  have hpair : Trusted known q.head ∧ Trusted known q.tail := by simpa using hq
  rw [dequeue]
  split
  · exact .pure (by simp [hpair])
  · refine .bind (.slot (·.intact) hpair.1 _) fun next => ?_
    refine .bind (Heap.setSlot_upholds (by simp [hpair]) _ (by simp) hW) fun _ => ?_
    refine .pure ?_
    split <;> simp [hpair]

inductive Linked (h : Heap) (head : Value) : Value → Prop where
  | head : Linked h head head
  | next {v w : Value} : Linked h head v → h.slot v Slot.Process.link = .ok w → Linked h head w

/-- Unlinking a process writes to processes of the chain only. -/
theorem removeFrom_leaves {h : Heap} (hs : Grown W F base h) (fuel : Nat) {previous cursor : Value}
    (hq : ∀ v ∈ [q.head, q.tail, p, previous, cursor], h.arenas.Sane v)
    (hW : ∀ v x, base.arenas.Sane v → Linked h q.head v → W ⟨v, Slot.Process.link⟩ x)
    (hcursor : Linked h q.head cursor) (hprevious : previous.isNil ∨ Linked h q.head previous) :
    Leaves (Grown W F base) h (q.removeFrom p fuel previous cursor h :
      EStateM.Result (Stop ε) Heap (Bool × Queue)) := by
  induction fuel generalizing previous cursor with
  | zero => trivial
  | succ fuel ih =>
    have whole : h.Whole := hs.intact.whole
    have hpair : h.arenas.Sane q.head ∧ h.arenas.Sane q.tail := ⟨hq _ (by simp), hq _ (by simp)⟩
    rw [removeFrom]
    split
    · exact .pure hs (by simpa [Sane] using hpair)
    refine .query fun next hnext => ?_
    have hlinked : Linked h q.head next := .next hcursor hnext
    have hsane : h.arenas.Sane next := whole.slot (hq cursor (by simp)) hnext
    split
    · rename_i hfound
      subst hfound
      have hunlink : Upholds (Grown W F base) [q.head, q.tail, cursor, previous, next] (do
          Heap.setSlot cursor Slot.Process.link .nil
          pure (true, ⟨if previous.isNil then next else q.head,
            if q.tail = cursor then previous else q.tail⟩) : Action ε Heap (Bool × Queue)) := by
        refine .bind (Heap.setSlot_upholds (by simp) _ (by simp) fun h => hW _ _ h hcursor)
          fun _ => .pure ?_
        simp only [Holder.held, List.nil_append, List.mem_cons, List.not_mem_nil, or_false,
          forall_eq_or_imp, forall_eq]
        constructor
        · split <;> simp
        · split <;> simp
      have hknown : ∀ v ∈ [q.head, q.tail, cursor, previous, next], Sane h v := by
        simp only [List.mem_cons, List.not_mem_nil, or_false]
        rintro v (rfl | rfl | rfl | rfl | rfl)
        · exact hpair.1
        · exact hpair.2
        · exact hq _ (by simp)
        · exact hq _ (by simp)
        · exact hsane
      dsimp only
      split
      · rename_i hnil
        have hlisted := hprevious.resolve_left (by simpa using hnil)
        have hrelink : Upholds (Grown W F base) [q.head, q.tail, cursor, previous, next]
            (Heap.setSlot previous Slot.Process.link next : Action ε Heap Unit) :=
          Heap.setSlot_upholds (by simp) _ (by simp) fun h => hW _ _ h hlisted
        exact hrelink.bind (fun _ => hunlink) h hs hknown
      · exact hunlink h hs hknown
    · refine ih (fun v hv => ?_) hlinked (.inr hcursor)
      simp only [List.mem_cons, List.not_mem_nil, or_false] at hv
      rcases hv with rfl | rfl | rfl | rfl | rfl
      · exact hpair.1
      · exact hpair.2
      · exact hq _ (by simp)
      · exact hq _ (by simp)
      · exact hsane

theorem remove_leaves {h : Heap} (hs : Grown W F base h)
    (hq : ∀ v ∈ [q.head, q.tail, p], h.arenas.Sane v)
    (hW : ∀ v x, base.arenas.Sane v → Linked h q.head v → W ⟨v, Slot.Process.link⟩ x) :
    Leaves (Grown W F base) h (q.remove p h : EStateM.Result (Stop ε) Heap (Bool × Queue)) := by
  refine removeFrom_leaves hs (h.chainBound + 1) (fun v hv => ?_) hW .head (.inl rfl)
  simp only [List.mem_cons, List.not_mem_nil, or_false] at hv
  rcases hv with rfl | rfl | rfl | rfl | rfl
  · exact hq _ (by simp)
  · exact hq _ (by simp)
  · exact hq _ (by simp)
  · exact Arenas.sane_nil _
  · exact hq _ (by simp)

end Queue

namespace Image

/-- The memory of an image, after a step that took no object away. -/
theorem grown_of_heap {i : Image} {heap : Heap} (hi : Grown W F base i) (hh : Grown W F base heap)
    (hgrows : Grows i { i with heap }) : Grown W F base { i with heap } :=
  ⟨⟨⟨hh.intact.whole, fun v hv => hgrows.sane (hi.intact.held v hv)⟩, hh.grows, hh.evolves⟩,
    hh.preserves, hh.instantiates⟩

theorem grown_heap {i : Image} (hi : Grown W F base i) : Grown W F base i.heap :=
  ⟨⟨⟨hi.intact.whole, fun _ hmem => nomatch hmem⟩, hi.grows, hi.evolves⟩, hi.preserves,
    hi.instantiates⟩

theorem onHeap_leaves {α : Type} [Holder α] {act : Action HeapError Heap α} {i : Image}
    (hi : Grown W F base i) (hact : Leaves (Grown W F base) i.heap (act i.heap)) :
    Leaves (Grown W F base) i (onHeap act i) := by
  refine .within Image.heap (fun i heap => { i with heap }) .allocation hact ?_ rfl (fun _ => rfl)
    fun heap => grown_of_heap hi
  rw [onHeap]
  cases act i.heap <;> rfl

theorem onHeap_upholds {α : Type} [Holder α] {act : Action HeapError Heap α}
    (hact : Upholds (Grown W F base) known act) : Upholds (Grown W F base) known (onHeap act) :=
  fun i hi hknown => onHeap_leaves hi (hact i.heap (grown_heap hi) hknown)

/-- A new object may be filled in any way. -/
theorem allocate_bind {α : Type} [Holder α] {isa : Value} (hx : Trusted known isa) (slots : Nat)
    (hF : F isa) {next : Value → ImageAction α}
    (hnext : ∀ object, ¬base.arenas.Sane object →
      Upholds (Grown W F base) (held object ++ known) (next object)) :
    Upholds (Grown W F base) known (onHeap (Heap.allocatePointers isa slots) >>= next) := by
  refine .bind_of (onHeap_upholds (Heap.allocatePointers_upholds hx slots hF)) ?_ hnext
  intro i object i' hi hknown heq
  obtain ⟨heap, hmade, -⟩ := onHeap_eq_ok.mp heq
  exact Heap.allocatePointers_fresh hx slots (grown_heap hi) hknown hmade

theorem newString_upholds (text : String) : Upholds (Grown W F base) known (newString text) :=
  .get_bind (fun _ hi => hi.intact) fun _ _ =>
    onHeap_upholds (Heap.allocateBytes_upholds (by simp) _)

theorem intern_upholds (name : String) : Upholds (Grown W F base) known (intern name) := by
  refine .get_bind (fun _ hi => hi.intact) fun i _ => ?_
  split
  · rename_i symbol heq
    have hmem := SymbolTable.mem_roots_iff.mpr ⟨name, heq⟩
    exact .pure (by simp [values, roots, hmem])
  · refine .bind (onHeap_upholds (Heap.allocateBytes_upholds (by simp) _)) fun symbol => ?_
    refine .bind (.modify (fun i hi hknown => ?_) fun _ => rfl) fun _ => .pure (by simp)
    refine ⟨⟨⟨hi.intact.whole, fun v hv => ?_⟩, hi.grows, hi.evolves⟩, hi.preserves,
      hi.instantiates⟩
    simp only [Holder.held, values, roots, List.mem_cons, List.mem_append] at hv
    rcases hv with rfl | hv | hv
    · exact Arenas.sane_nil _
    · rcases SymbolTable.mem_roots_of_insert hv with rfl | hv
      · exact hknown v (by simp)
      · exact hi.intact.held v (by simp [values, roots, hv])
    · exact hi.intact.held v (by simp [values, roots, hv])

/-- Slots of a new object are filled. -/
theorem fillSlots_upholds {array : Value} (harray : Trusted known array) (i : Nat)
    {items : List Value} (hitems : ∀ v ∈ items, Trusted known v)
    (hfresh : ¬base.arenas.Sane array) :
    Upholds (Grown W F base) known (fillSlots array i items) := by
  induction items generalizing i with
  | nil => exact .pure (by simp)
  | cons v items ih =>
    have hv := hitems v List.mem_cons_self
    refine .bind (onHeap_upholds (Heap.setSlot_upholds harray i hv (absurd · hfresh))) fun _ => ?_
    exact ih _ fun v hv => hitems v (List.mem_cons_of_mem _ hv)

theorem newContext_upholds {code receiver previous parentHeapVars : Value} {args : List Value}
    {home : Option Value} (hcode : Trusted known code) (hreceiver : Trusted known receiver)
    (hargs : ∀ v ∈ args, Trusted known v) (hprevious : Trusted known previous)
    (hparent : Trusted known parentHeapVars) (hhome : ∀ v ∈ held home, Trusted known v)
    (hF : ∀ x, F x) :
    Upholds (Grown W F base) known
      (newContext code receiver args previous parentHeapVars home) := by
  refine .bind (.inspect fun _ => rfl) fun shape => ?_
  refine .get_bind (fun _ hi => hi.intact) fun i _ => ?_
  refine allocate_bind (by simp) _ (hF _) fun ctx hfresh => ?_
  have hfill : ∀ heapVars, Upholds (Grown W F base)
      (held heapVars ++ (held ctx ++ (held i ++ (held shape ++ known)))) (do
        fillSlots ctx 0
          [previous, receiver, code, .ofNat 0, heapVars, parentHeapVars, home.getD ctx, receiver]
        fillSlots ctx (Slot.Context.registers + 1) (args.take shape.args)
        return ctx) := by
    intro heapVars
    refine .bind (fillSlots_upholds (by simp) _ ?_ hfresh) fun _ => ?_
    · have hgetD : home.getD ctx = ctx ∨ Trusted known (home.getD ctx) := by
        cases home with
        | none => exact .inl rfl
        | some home => exact .inr (hhome home (by simp))
      rcases hgetD with h | h <;> simp [h, hprevious, hreceiver, hcode, hparent]
    · refine .bind (fillSlots_upholds (by simp) _ (fun v hv => ?_) hfresh) fun _ =>
        .pure (by simp)
      simp [hargs v (List.mem_of_mem_take hv)]
  dsimp only
  split
  · exact .bind (onHeap_upholds (Heap.allocatePointers_upholds (by simp) _ (hF _))) hfill
  · exact .bind (.pure (by simp)) hfill

theorem blockContext?_upholds {block previous : Value} {args : List Value}
    (hblock : Trusted known block) (hargs : ∀ v ∈ args, Trusted known v)
    (hprevious : Trusted known previous) (hF : ∀ x, F x) :
    Upholds (Grown W F base) known (blockContext? block args previous) := by
  refine .bind (.inspect fun _ => rfl) fun shape => ?_
  split
  · exact .pure (by simp)
  · refine .bind (.slot (·.intact) (by simp [hblock]) _) fun receiver => ?_
    refine .bind (.slot (·.intact) (by simp [hblock]) _) fun parent => ?_
    refine .bind (.slot (·.intact) (by simp [hblock]) _) fun home => ?_
    refine .bind (newContext_upholds (by simp [hblock]) (by simp) ?_ (by simp [hprevious]) (by simp)
      (by simp) hF) fun ctx => .pure (by simp)
    exact fun v hv => by simp [hargs v hv]

/-- However a step of the memory ends, the image knows the same objects. -/
theorem onHeap_knows {α : Type} (act : Action HeapError Heap α) (known : Array Value) :
    (onHeap act).Keeps (·.known = known) := by
  intro i hi
  rw [onHeap]
  cases act i.heap <;> exact hi

theorem newString_knows (text : String) (known : Array Value) :
    (newString text).Keeps (·.known = known) := .bind .get fun _ => onHeap_knows _ _

theorem intern_knows (name : String) (known : Array Value) :
    (intern name).Keeps (·.known = known) := by
  refine .bind .get fun i => ?_
  split
  · exact .pure _
  · exact .bind (onHeap_knows _ _) fun _ => .bind (.modify fun _ hi => hi) fun _ => .pure _

theorem fillSlots_knows (array : Value) (i : Nat) (items : List Value) (known : Array Value) :
    (fillSlots array i items).Keeps (·.known = known) := by
  induction items generalizing i with
  | nil => exact .pure _
  | cons v items ih => exact .bind (onHeap_knows _ _) fun _ => ih _

theorem newContext_knows (code receiver previous parentHeapVars : Value) (args : List Value)
    (home : Option Value) (known : Array Value) :
    (newContext code receiver args previous parentHeapVars home).Keeps (·.known = known) := by
  refine .bind (.query _) fun shape => .bind .get fun i => .bind (onHeap_knows _ _) fun ctx => ?_
  have hfill : ∀ heapVars, Action.Keeps (do
      fillSlots ctx 0
        [previous, receiver, code, .ofNat 0, heapVars, parentHeapVars, home.getD ctx, receiver]
      fillSlots ctx (Slot.Context.registers + 1) (args.take shape.args)
      return ctx : ImageAction Value) (·.known = known) := fun _ =>
    .bind (fillSlots_knows _ _ _ _) fun _ => .bind (fillSlots_knows _ _ _ _) fun _ => .pure _
  dsimp only
  split
  · exact .bind (onHeap_knows _ _) hfill
  · exact .bind (.pure _) hfill

theorem blockContext?_knows (block previous : Value) (args : List Value) (known : Array Value) :
    (blockContext? block args previous).Keeps (·.known = known) := by
  refine .bind (.query _) fun shape => ?_
  split
  · exact .pure _
  · exact .bind (.query _) fun _ => .bind (.query _) fun _ => .bind (.query _) fun _ =>
      .bind (newContext_knows _ _ _ _ _ _ _) fun _ => .pure _

end Image

namespace Queue

variable {q q' : Queue} {p : Value}

/-- A process that was unlinked was one of the chain. -/
theorem removeFrom_linked {h h' : Heap} {fuel : Nat} {previous cursor : Value}
    (hcursor : Linked h q.head cursor)
    (heq : (q.removeFrom p fuel previous cursor : Action ε Heap _) h = .ok (true, q') h') :
    Linked h q.head p := by
  induction fuel generalizing previous cursor with
  | zero => cases heq
  | succ fuel ih =>
    rw [removeFrom, ite_eq_ok] at heq
    rcases heq with ⟨-, heq⟩ | ⟨-, heq⟩
    · cases (pure_eq_ok.mp heq).1
    obtain ⟨next, h₁, hread, hrest⟩ := bind_eq_ok.mp heq
    obtain ⟨hnext, rfl⟩ := query_eq_ok hread
    rcases ite_eq_ok.mp hrest with ⟨rfl, -⟩ | ⟨-, hrest⟩
    · exact hcursor
    · exact ih (.next hcursor hnext) hrest

theorem remove_linked {h h' : Heap} (heq : (q.remove p : Action ε Heap _) h = .ok (true, q') h') :
    Linked h q.head p := removeFrom_linked .head heq

/-- The process that is taken off a queue is its first. -/
theorem dequeue_eq_some {h h' : Heap}
    (heq : (q.dequeue : Action ε Heap (Option Value × Queue)) h = .ok (some p, q') h') :
    p = q.head ∧ ¬p.isNil ∧ ∃ next, h.slot p Slot.Process.link = .ok next ∧
      (Heap.setSlot p Slot.Process.link .nil : Action ε Heap Unit) h = .ok () h' ∧
      q' = ⟨next, if next.isNil then .nil else q.tail⟩ := by
  rw [dequeue] at heq
  rcases ite_eq_ok.mp heq with ⟨-, htake⟩ | ⟨hhead, htake⟩
  · cases (Prod.mk.inj (pure_eq_ok.mp htake).1).1
  · obtain ⟨next, hnext, hunlink⟩ := query_bind_eq_ok.mp htake
    obtain ⟨_, h₁, hset, hdone⟩ := bind_eq_ok.mp hunlink
    obtain ⟨hpair, rfl⟩ := pure_eq_ok.mp hdone
    obtain ⟨hp, rfl⟩ := Prod.mk.inj hpair
    obtain rfl := Option.some.inj hp
    exact ⟨rfl, hhead, next, hnext, hset, rfl⟩

/-- Nothing is taken off an empty queue. -/
theorem dequeue_eq_none {h h' : Heap}
    (heq : (q.dequeue : Action ε Heap (Option Value × Queue)) h = .ok (none, q') h') :
    q' = q ∧ h' = h := by
  rw [dequeue] at heq
  rcases ite_eq_ok.mp heq with ⟨-, heq⟩ | ⟨-, heq⟩
  · obtain ⟨hpair, rfl⟩ := pure_eq_ok.mp heq
    exact ⟨(Prod.mk.inj hpair).2.symm, rfl⟩
  · obtain ⟨next, h₁, -, heq⟩ := bind_eq_ok.mp heq
    obtain ⟨_, h₂, -, heq⟩ := bind_eq_ok.mp heq
    cases (Prod.mk.inj (pure_eq_ok.mp heq).1).1

section Unfailing

theorem enqueue_unfailing (q : Queue) (p : Value) :
    (q.enqueue p : Action ε Heap Queue).Unfailing := by
  have hrest : (if q.tail.isNil = true then pure ⟨p, p⟩ else do
      Heap.setSlot q.tail Slot.Process.link p
      pure ⟨q.head, p⟩ : Action ε Heap Queue).Unfailing := by
    split
    · exact .pure _
    · exact .bind (Heap.setSlot_unfailing _ _ _) fun _ => .pure _
  refine .bind (.query _) fun link => ?_
  dsimp only
  split
  · exact .bind (.fault _) fun _ => hrest
  · exact hrest

theorem dequeue_unfailing (q : Queue) :
    (q.dequeue : Action ε Heap (Option Value × Queue)).Unfailing := by
  rw [dequeue]
  split
  · exact .pure _
  · exact .bind (.query _) fun _ => .bind (Heap.setSlot_unfailing _ _ _) fun _ => .pure _

theorem removeFrom_unfailing (q : Queue) (p : Value) (fuel : Nat) (previous cursor : Value) :
    (q.removeFrom p fuel previous cursor : Action ε Heap (Bool × Queue)).Unfailing := by
  induction fuel generalizing previous cursor with
  | zero => exact .fault _
  | succ fuel ih =>
    rw [removeFrom]
    split
    · exact .pure _
    refine .bind (.query _) fun next => ?_
    split
    · dsimp only
      split
      · exact .bind (Heap.setSlot_unfailing _ _ _) fun _ =>
          .bind (Heap.setSlot_unfailing _ _ _) fun _ => .pure _
      · exact .bind (Heap.setSlot_unfailing _ _ _) fun _ => .pure _
    · exact ih _ _

theorem remove_unfailing (q : Queue) (p : Value) :
    (q.remove p : Action ε Heap (Bool × Queue)).Unfailing :=
  .bind .get fun _ => removeFrom_unfailing _ _ _ _ _

end Unfailing

end Queue

theorem Image.onHeap_unfailing {α : Type} {act : Action HeapError Heap α} (hact : act.Unfailing) :
    (Image.onHeap act).Unfailing := by
  intro i cause i' heq
  rw [Image.onHeap] at heq
  split at heq
  · cases heq
  · rename_i stop _ hstop
    cases stop with
    | failure e => exact hact _ e _ hstop
    | fault f => cases heq

namespace Schedule

variable {s : Schedule} {p : Value}

inductive Lists (s : Schedule) (h : Heap) : Value → Prop where
  | runnable {v : Value} : Queue.Linked h s.runnable.head v → s.Lists h v
  | waiting {v : Value} : Queue.Linked h s.waiting.head v → s.Lists h v
  | lastRunnable : s.Lists h s.runnable.tail
  | lastWaiting : s.Lists h s.waiting.tail
  | current : s.Lists h s.current

def Moves (W : Licence) (base : Heap) (s : Schedule) (h : Heap) : Prop :=
  ∀ v x, base.arenas.Sane v → s.Lists h v →
    W ⟨v, Slot.Process.link⟩ x ∧ W ⟨v, Slot.Process.state⟩ x

theorem pure_upholds {α : Type} [Holder α] {a : α} (ha : ∀ v ∈ held a, Trusted known v)
    (hs : s.Vouched known) :
    Upholds (Grown W F base) known (pure (a, s) : ImageAction (α × Schedule)) :=
  .pure fun v hv => (List.mem_append.mp hv).elim (ha v) (vouched_iff.mp hs v)

theorem spawn_leaves {context name : Value} {i : Image} (hi : Grown W F base i)
    (hs : s.Vouched known) (hknown : ∀ v ∈ known, Sane i v) (hcontext : Trusted known context)
    (hname : Trusted known name) (hF : F (i.kernelClass .process))
    (hW : ∀ x, base.arenas.Sane s.runnable.tail → W ⟨s.runnable.tail, Slot.Process.link⟩ x) :
    Leaves (Grown W F base) i (s.spawn context name i) := by
  have hspawn : Upholds (Grown W F base) (held i ++ known) (do
      let p ← Image.onHeap (Heap.allocatePointers (i.kernelClass .process) Slot.Process.count)
      let id := s.spawned + 1
      Image.onHeap (Heap.setSlot p Slot.Process.id (.ofNat id))
      Image.onHeap (Heap.setSlot p Slot.Process.name name)
      Image.onHeap (Heap.setSlot p Slot.Process.context context)
      Image.onHeap (Heap.setSlot p Slot.Process.state ProcessState.runnable.toValue)
      let runnable ← Image.onHeap (s.runnable.enqueue p)
      return (p, { s with runnable, spawned := id }) : ImageAction (Value × Schedule)) := by
    refine Image.allocate_bind (by simp) _ hF fun p hfresh => ?_
    refine .bind (Image.onHeap_upholds
      (Heap.setSlot_upholds (by simp) _ (by simp) (absurd · hfresh))) fun _ => ?_
    refine .bind (Image.onHeap_upholds
      (Heap.setSlot_upholds (by simp) _ (by simp [hname]) (absurd · hfresh))) fun _ => ?_
    refine .bind (Image.onHeap_upholds
      (Heap.setSlot_upholds (by simp) _ (by simp [hcontext]) (absurd · hfresh))) fun _ => ?_
    refine .bind (Image.onHeap_upholds (Heap.setSlot_upholds (by simp) _
      (by simp [ProcessState.toValue]) (absurd · hfresh))) fun _ => ?_
    have hs' : s.Vouched (held p ++ (held i ++ known)) := hs.append.append
    refine .bind (Image.onHeap_upholds (Queue.enqueue_upholds hs'.runnable (by simp)
      (hW _))) fun runnable => ?_
    exact pure_upholds (by simp) ⟨fun v hv => trusted_append.mpr (.inl hv), hs'.append.waiting,
      hs'.append.current, hs'.append.finished⟩
  refine hspawn i hi fun v hv => ?_
  exact (List.mem_append.mp hv).elim (hi.intact.held v) (hknown v)

/-- Takes a process in one state off its queue and puts it at the tail of another, in another
state. A process that is not in the first state, or not in the queue, is left alone. -/
def transfer (s : Schedule) (p : Value) (expected state : ProcessState) (source target : Queue)
    (put : Queue → Queue → Schedule) : ImageAction (Bool × Schedule) := do
  if (← Image.ask (·.processState? p)) ≠ some expected then
    return (false, s)
  let (found, source) ← Image.onHeap (source.remove p)
  if !found then
    return (false, s)
  Image.onHeap (Heap.setSlot p Slot.Process.state state.toValue)
  let target ← Image.onHeap (target.enqueue p)
  return (true, put source target)

theorem suspend_eq_transfer (s : Schedule) (p : Value) : s.suspend p =
    s.transfer p .runnable .waiting s.runnable s.waiting fun runnable waiting =>
      { s with runnable, waiting } := rfl

theorem resume_eq_transfer (s : Schedule) (p : Value) : s.resume p =
    s.transfer p .waiting .runnable s.waiting s.runnable fun waiting runnable =>
      { s with runnable, waiting } := rfl

theorem spawn_knows (s : Schedule) (context name : Value) (known : Array Value) :
    (s.spawn context name).Keeps (·.known = known) :=
  .bind .get fun _ => .bind (Image.onHeap_knows _ _) fun _ => .bind (Image.onHeap_knows _ _)
    fun _ => .bind (Image.onHeap_knows _ _) fun _ => .bind (Image.onHeap_knows _ _) fun _ =>
      .bind (Image.onHeap_knows _ _) fun _ => .bind (Image.onHeap_knows _ _) fun _ => .pure _

theorem transfer_knows (s : Schedule) (p : Value) (expected state : ProcessState)
    (source target : Queue) (put : Queue → Queue → Schedule) (known : Array Value) :
    (s.transfer p expected state source target put).Keeps (·.known = known) := by
  refine .bind (.query _) fun found => ?_
  split
  · exact .pure _
  refine .bind (Image.onHeap_knows _ _) fun removed => ?_
  dsimp only
  split
  · exact .pure _
  exact .bind (Image.onHeap_knows _ _) fun _ => .bind (Image.onHeap_knows _ _) fun _ => .pure _

theorem suspend_knows (s : Schedule) (p : Value) (known : Array Value) :
    (s.suspend p).Keeps (·.known = known) :=
  s.suspend_eq_transfer p ▸ s.transfer_knows _ _ _ _ _ _ _

theorem resume_knows (s : Schedule) (p : Value) (known : Array Value) :
    (s.resume p).Keeps (·.known = known) :=
  s.resume_eq_transfer p ▸ s.transfer_knows _ _ _ _ _ _ _

theorem transfer_unfailing (s : Schedule) (p : Value) (expected state : ProcessState)
    (source target : Queue) (put : Queue → Queue → Schedule) :
    (s.transfer p expected state source target put).Unfailing := by
  refine .bind (.query _) fun found => ?_
  split
  · exact .pure _
  refine .bind (Image.onHeap_unfailing (Queue.remove_unfailing _ _)) fun removed => ?_
  dsimp only
  split
  · exact .pure _
  exact .bind (Image.onHeap_unfailing (Heap.setSlot_unfailing _ _ _)) fun _ =>
    .bind (Image.onHeap_unfailing (Queue.enqueue_unfailing _ _)) fun _ => .pure _

theorem suspend_unfailing (s : Schedule) (p : Value) : (s.suspend p).Unfailing :=
  s.suspend_eq_transfer p ▸ s.transfer_unfailing _ _ _ _ _ _

theorem resume_unfailing (s : Schedule) (p : Value) : (s.resume p).Unfailing :=
  s.resume_eq_transfer p ▸ s.transfer_unfailing _ _ _ _ _ _

theorem transfer_leaves {i : Image} {expected state : ProcessState} {source target : Queue}
    {put : Queue → Queue → Schedule} (hi : Grown W F base i) (hs : ∀ v ∈ held s, Sane i v)
    (hqueues : ∀ v ∈ p :: held source ++ held target, Sane i v)
    (hput : ∀ a b, ∀ v ∈ held (put a b), v ∈ held a ∨ v ∈ held b ∨ v ∈ held s)
    (hsource : ∀ v x, base.arenas.Sane v → Queue.Linked i.heap source.head v →
      W ⟨v, Slot.Process.link⟩ x ∧ W ⟨v, Slot.Process.state⟩ x)
    (htarget : base.arenas.Sane target.tail → W ⟨target.tail, Slot.Process.link⟩ p) :
    Leaves (Grown W F base) i (s.transfer p expected state source target put i) := by
  refine .query fun found _ => ?_
  split
  · exact .pure hi (by simpa using hs)
  refine .bind (Image.onHeap_leaves hi (Queue.remove_leaves (Image.grown_heap hi)
    (fun v hv => hqueues v ?_) fun v x hv hl => (hsource v x hv hl).1))
    fun removed i' heq hi' hgrows hsane => ?_
  · simp only [List.mem_cons, List.not_mem_nil, or_false] at hv
    rcases hv with rfl | rfl | rfl <;> simp
  obtain ⟨found, source'⟩ := removed
  dsimp only
  split
  · exact .pure hi' fun v hv => hgrows.sane (hs v (by simpa using hv))
  rename_i hfound
  obtain rfl : found = true := by simpa using hfound
  obtain ⟨heap, hremove, -⟩ := Image.onHeap_eq_ok.mp heq
  have hlinked := Queue.remove_linked hremove
  -- From here on only what is written matters; the values are those known so far.
  have hrest : Upholds (Grown W F base) (held source' ++ (p :: held target ++ held s)) (do
      Image.onHeap (Heap.setSlot p Slot.Process.state state.toValue)
      let target ← Image.onHeap (target.enqueue p)
      return (true, put source' target) : ImageAction (Bool × Schedule)) := by
    refine .bind (Image.onHeap_upholds (Heap.setSlot_upholds (by simp) _
      (by simp [ProcessState.toValue]) fun h => (hsource _ _ h hlinked).2)) fun _ => ?_
    refine .bind (Image.onHeap_upholds (Queue.enqueue_upholds (fun v hv => trusted_of_mem ?_)
      (by simp) htarget)) fun target' => .pure fun v hv => ?_
    · simp only [List.mem_append, List.mem_cons, hv, true_or, or_true]
    · rcases hput source' target' v (by simpa using hv) with h | h | h
      · exact trusted_of_mem (by simp only [List.mem_append, h, true_or, or_true])
      · exact trusted_of_mem (List.mem_append_left _ h)
      · exact trusted_of_mem (by simp only [List.mem_append, h, or_true])
  refine hrest i' hi' fun v hv => ?_
  rcases List.mem_append.mp hv with hv | hv
  · exact hsane v (by simpa using hv)
  · rcases List.mem_append.mp hv with hv | hv
    · refine hgrows.sane (hqueues v ?_)
      rcases List.mem_cons.mp hv with rfl | hv
      · exact List.mem_cons_self
      · exact List.mem_append_right _ hv
    · exact hgrows.sane (hs v hv)

/-- The same schedule but for its queues and the number of processes made. -/
structure Requeued (s s' : Schedule) : Prop where
  current : s'.current = s.current
  finished : s'.finished = s.finished

section

variable {i i' : Image} {s' : Schedule}

theorem spawn_requeued {context name v : Value} (heq : s.spawn context name i = .ok (v, s') i') :
    s.Requeued s' := by
  obtain ⟨_, _, -, heq⟩ := bind_eq_ok.mp heq
  obtain ⟨p, _, -, heq⟩ := bind_eq_ok.mp heq
  obtain ⟨_, _, -, heq⟩ := bind_eq_ok.mp heq
  obtain ⟨_, _, -, heq⟩ := bind_eq_ok.mp heq
  obtain ⟨_, _, -, heq⟩ := bind_eq_ok.mp heq
  obtain ⟨_, _, -, heq⟩ := bind_eq_ok.mp heq
  obtain ⟨runnable, _, -, heq⟩ := bind_eq_ok.mp heq
  obtain ⟨-, rfl⟩ := Prod.mk.inj (pure_eq_ok.mp heq).1
  exact ⟨rfl, rfl⟩

theorem transfer_requeued {expected state : ProcessState} {source target : Queue}
    {put : Queue → Queue → Schedule} {found : Bool} (hput : ∀ a b, s.Requeued (put a b))
    (heq : s.transfer p expected state source target put i = .ok (found, s') i') :
    s.Requeued s' := by
  obtain ⟨_, _, -, heq⟩ := bind_eq_ok.mp heq
  rcases ite_eq_ok.mp heq with ⟨-, heq⟩ | ⟨-, heq⟩
  · obtain ⟨-, rfl⟩ := Prod.mk.inj (pure_eq_ok.mp heq).1
    exact ⟨rfl, rfl⟩
  obtain ⟨_, _, -, heq⟩ := bind_eq_ok.mp heq
  rcases ite_eq_ok.mp heq with ⟨-, heq⟩ | ⟨-, heq⟩
  · obtain ⟨-, rfl⟩ := Prod.mk.inj (pure_eq_ok.mp heq).1
    exact ⟨rfl, rfl⟩
  obtain ⟨_, _, -, heq⟩ := bind_eq_ok.mp heq
  obtain ⟨_, _, -, heq⟩ := bind_eq_ok.mp heq
  obtain ⟨-, rfl⟩ := Prod.mk.inj (pure_eq_ok.mp heq).1
  exact hput _ _

theorem suspend_requeued {found : Bool} (heq : s.suspend p i = .ok (found, s') i') :
    s.Requeued s' := by
  rw [suspend_eq_transfer] at heq
  refine transfer_requeued ?_ heq
  exact fun _ _ => ⟨rfl, rfl⟩

theorem resume_requeued {found : Bool} (heq : s.resume p i = .ok (found, s') i') :
    s.Requeued s' := by
  rw [resume_eq_transfer] at heq
  refine transfer_requeued ?_ heq
  exact fun _ _ => ⟨rfl, rfl⟩

end

section

variable {i : Image} (hi : Grown W F base i) (hs : ∀ v ∈ held s, Sane i v) (hp : Sane i p)
  (hW : s.Moves W base i.heap)
include hi hs hp hW

theorem suspend_leaves : Leaves (Grown W F base) i (s.suspend p i) := by
  rw [suspend_eq_transfer]
  refine transfer_leaves hi hs (fun v hv => ?_) (fun a b v hv => ?_)
    (fun v x hv hl => hW v x hv (.runnable hl)) fun h => (hW _ _ h .lastWaiting).1
  · simp only [Holder.held, List.cons_append, List.nil_append, List.mem_cons, List.not_mem_nil,
      or_false] at hv
    rcases hv with rfl | rfl | rfl | rfl | rfl
    · exact hp
    all_goals exact hs _ (by simp [roots])
  · simp only [Holder.held, roots, List.cons_append, List.nil_append, List.mem_cons,
      List.mem_map] at hv ⊢
    tauto

theorem resume_leaves : Leaves (Grown W F base) i (s.resume p i) := by
  rw [resume_eq_transfer]
  refine transfer_leaves hi hs (fun v hv => ?_) (fun a b v hv => ?_)
    (fun v x hv hl => hW v x hv (.waiting hl)) fun h => (hW _ _ h .lastRunnable).1
  · simp only [Holder.held, List.cons_append, List.nil_append, List.mem_cons, List.not_mem_nil,
      or_false] at hv
    rcases hv with rfl | rfl | rfl | rfl | rfl
    · exact hp
    all_goals exact hs _ (by simp [roots])
  · simp only [Holder.held, roots, List.cons_append, List.nil_append, List.mem_cons,
      List.mem_map] at hv ⊢
    tauto

end

end Schedule

end ObjectMachine
