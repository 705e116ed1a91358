import ObjectMachine.Proofs.Image.Registry
import ObjectMachine.Proofs.Machine.Stacking
import ObjectMachine.Proofs.Object.Resolving

namespace ObjectMachine.Image

open ObjectMachine.Action

variable {i i' i'' : Image} {k : KernelClass} {v w p x : Value} {c : Cell}

def Previous (i : Image) (v w : Value) : Prop :=
  i.Instance .context v ∧ i.heap.Holds ⟨v, Slot.Context.previous⟩ w

/-- Whoever follows the callers from here comes to nil. -/
def Rooted (i : Image) (v : Value) : Prop := ∃ vs, ObjectMachine.Walks i.Previous v vs .nil

/-- An empty dictionary, seen as a context: 0 stands for the caller, and there is no position. -/
structure Blank (i : Image) (v : Value) : Prop where
  tally : i.heap.Holds ⟨v, Slot.Context.previous⟩ (.ofNat 0)
  position : i.heap.Holds ⟨v, Slot.Context.pc⟩ .nil

def Enlists (i : Image) (v : Value) : Prop := v = .nil ∨ i.Instance .process v

structure InOrder (i : Image) (c : Cell) (x : Value) : Prop where
  previous : i.Instance .context c.object → c.index = Slot.Context.previous →
    i.Rooted c.object ∨ i.Blank c.object
  context : i.Instance .process c.object → c.index = Slot.Process.context → i.Rooted x
  link : i.Instance .process c.object → c.index = Slot.Process.link → i.Enlists x

/-- The chains of all contexts end, and those of the contexts in which processes stopped. -/
structure Grounded (i : Image) : Prop where
  kinds : Function.Injective i.kernelClass
  inOrder : ∀ c x, i.heap.Holds c x → i.InOrder c x

section Chains

theorem Previous.functional {w' : Value} (h : i.Previous v w) (h' : i.Previous v w') : w = w' :=
  h.2.unique h'.2

theorem not_previous_nil (w : Value) : ¬i.Previous .nil w := fun h => h.1.not_nil rfl

theorem rooted_nil : i.Rooted .nil := ⟨[], .done⟩

theorem Rooted.call (hw : i.Rooted w) (h : i.Previous v w) : i.Rooted v := by
  obtain ⟨vs, hwalks⟩ := hw
  exact ⟨v :: vs, .next h hwalks⟩

/-- A chain is that of a context, if it does not end at once. -/
theorem Rooted.exists_previous (hv : i.Rooted v) (hne : v ≠ .nil) :
    ∃ w, i.Previous v w ∧ i.Rooted w := by
  obtain ⟨vs, hwalks⟩ := hv
  cases hwalks with
  | done => exact absurd rfl hne
  | next hstep hrest => exact ⟨_, hstep, _, hrest⟩

theorem Rooted.context (hv : i.Rooted v) : v = .nil ∨ i.Instance .context v := by
  by_cases hne : v = .nil
  · exact .inl hne
  · obtain ⟨w, h, -⟩ := hv.exists_previous hne
    exact .inr h.1

/-- A chain that ends does not lead to 0. -/
theorem Rooted.not_blank (hv : i.Rooted v) : ¬i.Blank v := by
  intro hblank
  obtain ⟨w, h, hw⟩ := hv.exists_previous fun hnil => hblank.tally.not_isNil (hnil ▸ rfl)
  obtain rfl := h.2.unique hblank.tally
  rcases hw.context with hnil | hcontext
  · exact absurd hnil (by decide)
  · exact absurd hcontext.reference (by decide)

theorem Grounded.rooted_or_blank (hg : i.Grounded) (h : i.Previous v w) :
    i.Rooted v ∨ i.Blank v := (hg.inOrder _ _ h.2).previous h.1 rfl

theorem Grounded.rooted_of_process (hg : i.Grounded) (hp : i.Instance .process p)
    (hc : i.heap.Holds ⟨p, Slot.Process.context⟩ v) : i.Rooted v :=
  (hg.inOrder _ _ hc).context hp rfl

theorem Grounded.enlists (hg : i.Grounded) (hp : i.Enlists p)
    (hx : i.heap.Holds ⟨p, Slot.Process.link⟩ x) : i.Enlists x := by
  rcases hp with rfl | hp
  · exact absurd rfl hx.not_isNil
  · exact (hg.inOrder _ _ hx).link hp rfl

theorem Enlists.process (hp : i.Enlists c.object) (hc : i.heap.Holds c x) :
    i.Instance .process c.object :=
  hp.resolve_left fun hnil => hc.not_isNil (hnil ▸ rfl)

/-- The search for a context ends, whether or not it is on the chain. -/
theorem Rooted.exists_chainTo (hv : i.Rooted v) (whole : i.heap.Whole) (home : Value) :
    ∃ found, Machine.chainTo i.heap home (i.heap.chainBound + 1) [] v = .ok found := by
  obtain ⟨vs, hwalks⟩ := hv
  have hlength := hwalks.length_lt whole Previous.functional not_previous_nil
    fun h => ⟨_, _, h.2⟩
  generalize i.heap.chainBound + 1 = fuel at hlength
  generalize ([] : List Value) = seen
  generalize he : Value.nil = e at hwalks
  induction hwalks generalizing fuel seen with
  | done =>
    obtain ⟨fuel, rfl⟩ := Nat.exists_eq_add_of_lt hlength
    subst he
    exact ⟨none, rfl⟩
  | @next v w e vs hstep hrest ih =>
    obtain ⟨fuel, rfl⟩ := Nat.exists_eq_add_of_lt hlength
    rw [Machine.chainTo, if_neg hstep.2.not_isNil]
    split
    · exact ⟨_, rfl⟩
    · rw [hstep.2.slot]
      exact ih _ (by simp only [List.length_cons]; omega) _ he

/-- A trace has a line for each context of the chain, up to a number. -/
theorem traceFrom_length {vs : List Value} {lines : List String} {limit : Nat}
    (hwalks : ObjectMachine.Walks i.Previous v vs .nil) (heq : i.traceFrom limit v = .ok lines) :
    lines.length = min vs.length (limit + 1) := by
  generalize he : Value.nil = e at hwalks
  induction hwalks generalizing limit lines with
  | done =>
    subst he
    have hnil : i.traceFrom limit .nil = .ok [] := by cases limit <;> rfl
    obtain rfl := Except.ok.inj (hnil.symm.trans heq)
    simp
  | next hstep _ ih =>
    cases limit with
    | zero =>
      rw [traceFrom, if_neg hstep.2.not_isNil] at heq
      obtain rfl := Except.ok.inj heq
      simp
    | succ limit =>
      rw [traceFrom, if_neg hstep.2.not_isNil] at heq
      obtain ⟨frame, -, heq⟩ := except_bind_eq_ok.mp heq
      obtain ⟨w, hslot, heq⟩ := except_bind_eq_ok.mp heq
      obtain ⟨rest, hrest, hlines⟩ := except_bind_eq_ok.mp heq
      obtain rfl := Except.ok.inj (hstep.2.slot.symm.trans hslot)
      obtain rfl := Except.ok.inj hlines
      rw [List.length_cons, List.length_cons, ih hrest he]
      omega

end Chains

section Respecting

structure Respects (i i' : Image) : Prop where
  intact : Intact i'
  known : i'.known = i.known
  grows : i.heap.Grows i'.heap
  header : ∀ {v}, i.heap.arenas.Sane v → i'.heap.header v = i.heap.header v
  previous : ∀ {v w}, i.Previous v w → i'.heap.Holds ⟨v, Slot.Context.previous⟩ w

theorem Respects.refl (hi : Intact i) : i.Respects i :=
  ⟨hi, rfl, .refl _, fun _ => rfl, fun h => h.2⟩

theorem Respects.kernelClass (hr : i.Respects i') (k : KernelClass) :
    i'.kernelClass k = i.kernelClass k := by rw [Image.kernelClass, Image.kernelClass, hr.known]

/-- A class is told by the header and by the classes that the image knows. -/
theorem instance_congr (hknown : i'.known = i.known) (hv : i.heap.arenas.Sane v)
    (hv' : i'.heap.arenas.Sane v) (hheader : i'.heap.header v = i.heap.header v) :
    i'.Instance k v ↔ i.Instance k v := by
  have hclass : i'.classOf v = .ok (i'.kernelClass k) ↔ i.classOf v = .ok (i.kernelClass k) := by
    simp only [Image.classOf, Heap.isa, hheader, Image.kernelClass, hknown]
  exact ⟨fun h => ⟨hv, h.reference, hclass.mp h.classOf⟩,
    fun h => ⟨hv', h.reference, hclass.mpr h.classOf⟩⟩

theorem Respects.instance_iff (hr : i.Respects i') (hv : i.heap.arenas.Sane v) :
    i'.Instance k v ↔ i.Instance k v := instance_congr hr.known hv (hr.grows _ hv) (hr.header hv)

theorem Respects.instance (hr : i.Respects i') (hv : i.Instance k v) : i'.Instance k v :=
  (hr.instance_iff hv.sane).mpr hv

theorem Respects.toPrevious (hr : i.Respects i') (h : i.Previous v w) : i'.Previous v w :=
  ⟨hr.instance h.1, hr.previous h⟩

theorem Respects.walks {vs : List Value} (hr : i.Respects i')
    (hw : ObjectMachine.Walks i.Previous v vs w) : ObjectMachine.Walks i'.Previous v vs w := by
  induction hw with
  | done => exact .done
  | next hstep _ ih => exact .next (hr.toPrevious hstep) ih

theorem Respects.rooted (hr : i.Respects i') (hv : i.Rooted v) : i'.Rooted v := by
  obtain ⟨vs, hwalks⟩ := hv
  exact ⟨vs, hr.walks hwalks⟩

theorem Respects.enlists (hr : i.Respects i') (hv : i.Enlists v) : i'.Enlists v :=
  hv.imp_right hr.instance

theorem Respects.trans (hr : i.Respects i') (hr' : i'.Respects i'') : i.Respects i'' where
  intact := hr'.intact
  known := hr'.known.trans hr.known
  grows := hr.grows.trans hr'.grows
  header hv := (hr'.header (hr.grows _ hv)).trans (hr.header hv)
  previous h := hr'.previous (hr.toPrevious h)

/-- Of the cells that there were, those that hold something else are in order, and so are those of
new objects. -/
theorem Respects.grounded (hr : i.Respects i') (hg : i.Grounded)
    (hblank : ∀ v, i.Instance .context v → i.Blank v → i'.heap.Holds ⟨v, Slot.Context.pc⟩ .nil)
    (hcells : ∀ c x, i'.heap.Holds c x → i.heap.Holds c x ∨ i'.InOrder c x) : i'.Grounded := by
  refine ⟨fun k k' h => hg.kinds ?_, fun c x hc => ?_⟩
  · rwa [hr.kernelClass, hr.kernelClass] at h
  rcases hcells c x hc with hold | horder
  · have hin := hg.inOrder c x hold
    refine ⟨fun hcontext hindex => ?_, fun hprocess hindex => ?_, fun hprocess hindex => ?_⟩
    · have hcontext' := (hr.instance_iff hold.sane).mp hcontext
      refine (hin.previous hcontext' hindex).imp hr.rooted fun hb => ⟨?_, hblank _ hcontext' hb⟩
      exact hr.previous ⟨hcontext', hb.tally⟩
    · exact hr.rooted (hin.context ((hr.instance_iff hold.sane).mp hprocess) hindex)
    · exact hr.enlists (hin.link ((hr.instance_iff hold.sane).mp hprocess) hindex)
  · exact horder

/-- An image after a step that minds the chains of contexts. -/
structure Heeds (i i' : Image) : Prop extends Respects i i' where
  grounded : i'.Grounded

theorem Heeds.refl (hi : Intact i) (hg : i.Grounded) : i.Heeds i := ⟨.refl hi, hg⟩

theorem Heeds.trans (h : i.Heeds i') (h' : i'.Heeds i'') : i.Heeds i'' :=
  ⟨h.toRespects.trans h'.toRespects, h'.grounded⟩

end Respecting

section Collecting

variable {f : Address → Address} {s : Schedule}

theorem classOf_of_reference (hv : v.isReference) : i.classOf v = i.heap.isa v := by
  simp only [Value.isReference, Bool.and_eq_true, bne_iff_ne, beq_iff_eq] at hv
  rw [Image.classOf, Value.isInteger, Value.isNil, hv.2, if_neg (by decide),
    if_neg (by simpa using hv.1)]

/-- The class of a reference is read off its header. -/
theorem instance_iff_header (hv : i.heap.arenas.Sane v) : i.Instance k v ↔ v.isReference ∧
    ∃ header, i.heap.header v = .ok header ∧ header.isa = i.kernelClass k := by
  refine ⟨fun h => ⟨h.reference, ?_⟩, fun ⟨hreference, header, hheader, hisa⟩ =>
    ⟨hv, hreference, ?_⟩⟩
  · have hclass := h.classOf
    rw [classOf_of_reference h.reference, Heap.isa] at hclass
    obtain ⟨header, hheader, hisa⟩ := except_bind_eq_ok.mp hclass
    exact ⟨header, hheader, Except.ok.inj hisa⟩
  · rw [classOf_of_reference hreference, Heap.isa, hheader, ← hisa]
    rfl

section Relocating

variable (hrel : Relocates f s i i') (hi : Intact i) (hs : ∀ v ∈ s.roots, Sane i v)
include hrel hi hs

/-- Every value of a collected memory has come from one that was in use. -/
theorem Relocates.exists_taken (hv : i'.heap.arenas.Sane v) :
    ∃ u, i.heap.Taken (i.roots ++ s.roots) u ∧ v = u.relocate f := by
  have hplain : v.address? = none → i.heap.arenas.Sane v →
      ∃ u, i.heap.Taken (i.roots ++ s.roots) u ∧ v = u.relocate f := fun hnone hsane =>
    ⟨v, ⟨hsane, fun _ hloc => nomatch hnone.symm.trans hloc⟩, by rw [Value.relocate, hnone]⟩
  rcases hv with hnil | hinteger | ⟨loc, hloc, hl⟩
  · exact hplain (by simp [Value.address?, Value.isReference, beq_iff_eq.mp hnil]) (.inl hnil)
  · exact hplain (by simp [Value.address?, Value.isReference, beq_iff_eq.mp hinteger])
      (.inr (.inl hinteger))
  obtain ⟨old, hreach, rfl⟩ := hrel.moved.bijective.surjOn hl
  have hold : i.heap.arenas.Allocated old := by
    refine Arenas.Reachable.allocated hi.whole.closed (fun v hv => ?_) hreach
    rcases List.mem_append.mp hv with hv | hv
    · exact hi.held v (List.mem_cons_of_mem _ hv)
    · exact hs v hv
  obtain ⟨hsmall, hpos⟩ := hi.whole.sound.bounds hold
  have haddress := Value.address?_ofAddress hsmall hpos
  refine ⟨.ofAddress old, ⟨.inr (.inr ⟨old, haddress, hold⟩), fun loc heq => ?_⟩, ?_⟩
  · exact Option.some.inj (haddress.symm.trans heq) ▸ hreach
  · rw [Value.relocate, haddress]
    exact (Value.ofAddress_of_address? hloc).symm

omit hs in
theorem Relocates.instance_iff (sound : i'.heap.Sound)
    (hv : i.heap.Taken (i.roots ++ s.roots) v) :
    i'.Instance k (v.relocate f) ↔ i.Instance k v := by
  cases hloc : v.address? with
  | none =>
    have hnot : ¬v.isReference := fun href => by simp [Value.address?, href] at hloc
    rw [Value.relocate, hloc]
    exact ⟨fun h => absurd h.reference hnot, fun h => absurd h.reference hnot⟩
  | some loc =>
    have href : v.isReference := by
      by_contra hnot
      rw [Value.address?, if_neg hnot] at hloc
      cases hloc
    have hl := hv.1.allocated hloc
    have whole : i.heap.Whole := hi.whole
    obtain ⟨header, hh, -⟩ := whole.sound.laid.object hl
    have hheader : i.heap.header v = .ok header := by
      simp only [Heap.header, Heap.locate, hloc, bind, Except.bind, hh]
    have hheader' := hrel.moved.header_of_taken hv hloc hheader
    have hisa : i.heap.Taken (i.roots ++ s.roots) header.isa :=
      ⟨whole.closed loc hl _ ⟨header, hh, .inl rfl⟩, fun target htarget =>
        .held (hv.2 loc hloc) ⟨header, hh, .inl rfl⟩ htarget⟩
    have hclass := taken_of_values (s := s) hi (i.kernelClass_mem_values k)
    have hkernel : i'.kernelClass k = (i.kernelClass k).relocate f := hrel.get (.kernelClass k)
    have hbounds := sound.bounds (hrel.moved.bijective.mapsTo (hv.2 loc hloc))
    have haddress : (v.relocate f).address? = some (f loc) := by
      rw [Value.relocate, hloc]
      exact Value.address?_ofAddress hbounds.1 hbounds.2
    have hsane : i'.heap.arenas.Sane (v.relocate f) :=
      .inr (.inr ⟨_, haddress, hrel.moved.bijective.mapsTo (hv.2 loc hloc)⟩)
    have href' : (v.relocate f).isReference := by
      by_contra hnot
      rw [Value.address?, if_neg hnot] at haddress
      cases haddress
    rw [instance_iff_header hv.1, instance_iff_header hsane, hheader, hheader', hkernel]
    constructor
    · rintro ⟨_, found, hfound, heq⟩
      refine ⟨href, header, rfl, ?_⟩
      cases hfound
      exact hrel.moved.injective sound hisa hclass heq
    · rintro ⟨_, found, hfound, heq⟩
      refine ⟨href', _, rfl, ?_⟩
      cases hfound
      exact congrArg (Value.relocate f) heq

/-- A cell of a collected memory holds what has become of what the cell held that it was. -/
theorem Relocates.exists_holds (hc : i'.heap.Holds c x) :
    ∃ u y, i.heap.Taken (i.roots ++ s.roots) u ∧ c.object = u.relocate f ∧
      i.heap.Holds ⟨u, c.index⟩ y ∧ x = y.relocate f := by
  obtain ⟨u, hu, hobject⟩ := hrel.exists_taken hi hs hc.sane
  obtain ⟨loc, hloc, -⟩ := hc.refers
  cases hold : u.address? with
  | none =>
    rw [hobject, Value.relocate, hold] at hloc
    cases hold.symm.trans hloc
  | some old =>
    have hslot := hrel.moved.slot old (hu.2 old hold) c.index
    rw [Value.ofAddress_of_address? hold] at hslot
    have hsame : c.object = .ofAddress (f old) := by rw [hobject, Value.relocate, hold]
    rw [← hsame, hc.slot] at hslot
    cases hread : i.heap.slot u c.index with
    | error e =>
      rw [hread] at hslot
      cases hslot
    | ok y =>
      rw [hread] at hslot
      exact ⟨u, y, hu, hobject, ⟨hu.1, hread⟩, Except.ok.inj hslot⟩

omit hs in
theorem Relocates.rooted (sound : i'.heap.Sound) (hv : i.heap.Taken (i.roots ++ s.roots) v)
    (hrooted : i.Rooted v) : i'.Rooted (v.relocate f) := by
  obtain ⟨vs, hwalks⟩ := hrooted
  generalize he : Value.nil = e at hwalks
  induction hwalks with
  | done =>
    subst he
    exact rooted_nil
  | next hstep _ ih =>
    have hw := Heap.Taken.value hi.whole (c := ⟨_, _⟩) hv hstep.2
    refine (ih hw he).call ⟨(hrel.instance_iff hi sound hv).mpr hstep.1, ?_⟩
    exact hrel.moved.holds_of_taken sound (c := ⟨_, _⟩) hv hstep.2

omit hs in
theorem Relocates.enlists (sound : i'.heap.Sound) (hv : i.heap.Taken (i.roots ++ s.roots) v)
    (hlisted : i.Enlists v) : i'.Enlists (v.relocate f) := by
  rcases hlisted with rfl | hprocess
  · exact .inl rfl
  · exact .inr ((hrel.instance_iff hi sound hv).mpr hprocess)

/-- A collection leaves every chain as it is. -/
theorem Relocates.grounded (hg : i.Grounded) : i'.Grounded := by
  have whole' : i'.heap.Whole := (hrel.intact hi hs).whole
  have hclass : ∀ k, i.heap.Taken (i.roots ++ s.roots) (i.kernelClass k) := fun k =>
    taken_of_values hi (i.kernelClass_mem_values k)
  refine ⟨fun k k' heq => hg.kinds ?_, fun c x hc => ?_⟩
  · rw [show i'.kernelClass k = _ from hrel.get (.kernelClass k),
      show i'.kernelClass k' = _ from hrel.get (.kernelClass k')] at heq
    exact hrel.moved.injective whole'.sound (hclass k) (hclass k') heq
  obtain ⟨u, y, hu, hobject, hold, rfl⟩ := hrel.exists_holds hi hs hc
  have hin := hg.inOrder _ _ hold
  have hinstance : ∀ {k}, i'.Instance k c.object → i.Instance k u := fun h =>
    (hrel.instance_iff hi whole'.sound hu).mp (hobject ▸ h)
  have hy := Heap.Taken.value hi.whole (c := ⟨u, _⟩) hu hold
  refine ⟨fun h hindex => ?_, fun h hindex => ?_, fun h hindex => ?_⟩
  · rw [hobject]
    refine (hin.previous (hinstance h) hindex).imp (hrel.rooted hi whole'.sound hu) fun hb =>
      ⟨?_, ?_⟩
    · have := hrel.moved.holds_of_taken whole'.sound (c := ⟨u, _⟩) hu hb.tally
      rwa [Value.relocate_ofNat] at this
    · exact hrel.moved.holds_of_taken whole'.sound (c := ⟨u, _⟩) hu hb.position
  · exact hrel.rooted hi whole'.sound hy (hin.context (hinstance h) hindex)
  · exact hrel.enlists hi whole'.sound hy (hin.link (hinstance h) hindex)

end Relocating

end Collecting

end ObjectMachine.Image
