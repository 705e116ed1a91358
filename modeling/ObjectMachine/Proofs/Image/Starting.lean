import ObjectMachine.Proofs.Image.Completing
import ObjectMachine.Proofs.Image.Installing

namespace ObjectMachine

theorem Method.exists_compile {ms : List Method} {vars : List String}
    (h : ms.all fun m => (m.compile vars).toOption.isSome) :
    ∀ m ∈ ms, ∃ t, m.compile vars = .ok t := by
  intro m hm
  have hsome := List.all_eq_true.mp h m hm
  cases hcompile : m.compile vars with
  | ok t => exact ⟨t, rfl⟩
  | error e => simp [hcompile, Except.toOption] at hsome

namespace Kernel

/-- The variables that the methods of a kernel class or its metaclass see. -/
def scope (k : KernelClass) (onMetaclass : Bool) : List String :=
  if onMetaclass then KernelClass.classVariables else k.vars

theorem methods_compile : ∀ entry ∈ methods, ∀ m ∈ entry.2.2,
    ∃ t, m.compile (scope entry.1 entry.2.1) = .ok t := by
  have hall : methods.all fun entry => entry.2.2.all fun m =>
      (m.compile (scope entry.1 entry.2.1)).toOption.isSome := by decide +kernel
  exact fun entry hentry => Method.exists_compile (List.all_eq_true.mp hall entry hentry)

end Kernel

namespace Part

def others : List Part :=
  symbol blockReturnSelector :: ((BinaryOp.all.toList.map (·.selector)).map symbol ++
    [.slots 0, .slots 0, .slots (Slot.Dictionary.buckets + Heap.globalBuckets)])

def kernelClass (k : KernelClass) : List Part := outfits k.name k.vars ++ entry k.name

def kernelMethods : KernelClass × Bool × List Method → List Part
  | (k, onMetaclass, ms) => methods (Kernel.scope k onMetaclass) ms

/-- All that a fresh image is made of. -/
def kernel : List Part :=
  (KernelClass.all.flatMap fun _ => [.slots Slot.Class.count, .slots Slot.Class.count]) ++
    (others ++ KernelClass.all.flatMap kernelClass) ++ Kernel.methods.flatMap kernelMethods

end Part

namespace Image

variable {i i' : Image} {ws : List Wiring} {os : List Outfit} {ts : List Filing}
  {cls metaOf : KernelClass → Value} {ks : List KernelClass}

theorem allocatePairs_completes (hi : Intact i) (hs : i.Spelled) (ks : List KernelClass) :
    Completes (ks.flatMap fun _ => [.slots Slot.Class.count, .slots Slot.Class.count]) i
      (allocatePairs ks i) := by
  induction ks generalizing i with
  | nil => exact .pure _ _
  | cons k ks ih =>
    refine (allocatePointers_completes hi _ _).bind fun cls i₁ hcls _ => ?_
    obtain ⟨he₁, -⟩ := allocatePointers_enlarges hi hs (Arenas.sane_nil _) hcls
    refine (allocatePointers_completes he₁.intact _ _).bind fun metaclass i₂ hmeta _ => ?_
    obtain ⟨he₂, -⟩ := allocatePointers_enlarges he₁.intact he₁.spelled (Arenas.sane_nil _) hmeta
    exact .map _ (ih he₂.intact he₂.spelled)

/-- The order in which classes are wired does not matter for its success. -/
theorem wirePairs_affords (hd : KernelClass.Distinct cls metaOf) (hi : Intact i)
    (hknown : ∀ k, i.kernelClass k = cls k)
    (hspans : ∀ k, i.heap.Spans (cls k) Slot.Class.count ∧
      i.heap.Spans (metaOf k) Slot.Class.count) :
    ∃ i', wirePairs (cls .object) (cls .metaclass) (ks.map fun k => (k, cls k, metaOf k)) i =
        .ok () i' ∧ i.heap.Takes [] i'.heap ∧ ∀ k, i'.heap.Spans (cls k) Slot.Class.count ∧
      i'.heap.Spans (metaOf k) Slot.Class.count := by
  induction ks generalizing i with
  | nil => exact ⟨i, rfl, .refl _, hspans⟩
  | cons k ks ih =>
    have hwhole : i.heap.Whole := hi.whole
    have hsane : ∀ k, i.heap.arenas.Sane (cls k) := fun k => hknown k ▸ kernelClass_sane hi k
    obtain ⟨a, ha⟩ := (hspans k).1 Slot.Class.superclass (by decide)
    obtain ⟨b, hb⟩ := (hspans k).2 Slot.Class.superclass (by decide)
    have hsup : (k.superclass?.map i.kernelClass).getD .nil = .nil ∨
        ∃ y, i.heap.Holds
          ⟨(k.superclass?.map i.kernelClass).getD .nil, Slot.Class.superclass⟩ y := by
      cases k.superclass? with
      | none => exact .inl rfl
      | some s =>
        rw [Option.map_some, Option.getD_some, hknown]
        exact .inr ((hspans s).1 Slot.Class.superclass (by decide))
    have hsup_sane : i.heap.arenas.Sane ((k.superclass?.map i.kernelClass).getD .nil) := by
      rcases hsup with hnil | ⟨y, hy⟩
      · rw [hnil]
        exact Arenas.sane_nil _
      · exact hy.sane
    obtain ⟨heap, hwire, htakes, hkept⟩ := hwhole.wire_affords (ε := HeapError) ha hb hsup
      (hsane .object) (hsane .metaclass)
    obtain ⟨_, hreshapes, -⟩ := hwhole.wires ha hb (hd.apart k k) hsup_sane (hsane .object)
      (hsane .metaclass) hwire
    have hi₁ : Intact { i with heap } :=
      ⟨hreshapes.whole, fun v hv => hreshapes.grows v (hi.held v hv)⟩
    obtain ⟨i', hrest, htakes', hspans'⟩ := ih hi₁ hknown fun k =>
      ⟨hkept _ _ (hspans k).1, hkept _ _ (hspans k).2⟩
    refine ⟨i', ?_, htakes.trans htakes', hspans'⟩
    exact bind_eq_ok.mpr ⟨i, i, rfl, bind_eq_ok.mpr
      ⟨(), _, onHeap_eq_ok.mpr ⟨heap, hwire, rfl⟩, hrest⟩⟩

theorem knowOthers_completes (hi : Intact i) (hs : i.Spelled) :
    Completes Part.others i (knowOthers i) := by
  rw [Part.others, knowOthers]
  -- Which names they are does not matter, and the parts shall not be computed from them.
  generalize blockReturnSelector = name
  generalize BinaryOp.all.toList.map (·.selector) = names
  refine (intern_completes hi name).bind fun blockReturn i₁ hintern _ => .get ?_
  obtain ⟨ha₁, -⟩ := intern_eq_ok hi hs hintern
  have hclass : ∀ k, Sane i₁ (i₁.kernelClass k) := kernelClass_sane ha₁.intact
  refine (internAll_completes ha₁.intact ha₁.spelled names).bind fun symbols i₂ hinternAll _ => ?_
  obtain ⟨ha₂, -⟩ := internAll_eq_ok ha₁.intact ha₁.spelled hinternAll
  refine (allocatePointers_completes ha₂.intact _ _).bind fun trueObject i₃ htrue _ => ?_
  obtain ⟨he₃, -⟩ := allocatePointers_enlarges ha₂.intact ha₂.spelled
    (ha₂.sane (hclass .trueClass)) htrue
  refine (allocatePointers_completes he₃.intact _ _).bind fun falseObject i₄ hfalse _ => ?_
  obtain ⟨he₄, -⟩ := allocatePointers_enlarges he₃.intact he₃.spelled
    (he₃.sane (ha₂.sane (hclass .falseClass))) hfalse
  have hdictionary : Sane i₄ (i₁.kernelClass .dictionary) :=
    he₄.sane (he₃.sane (ha₂.sane (hclass .dictionary)))
  exact (newDictionary_completes he₄.intact hdictionary _).before fun globals i₅ _ =>
    fun _ => ⟨(), _, rfl, .refl _⟩

section Furnishing

variable (hd : KernelClass.Distinct cls metaOf)
  (hws : ∀ k : KernelClass, ∀ w ∈ k.wirings cls metaOf, w ∈ ws)
include hd hws

/-- A kernel class gets what it needs, and the globals stay as they are. -/
theorem furnishPair_keeps {k : KernelClass} (hr : i.Registers ws [] ts)
    (heq : furnishPair (cls k) k.name k.vars i = .ok () i') :
    (∃ ts', i'.Registers ws [] ts') ∧ Adds (fun _ => True) i i' ∧
      ∀ g, i.Means g → i'.Means g := by
  have hw := hws k _ List.mem_cons_self
  have hm := hws k _ (List.mem_cons_of_mem _ List.mem_cons_self)
  have hstart : Adds (fun c => c.object ∈ [cls k, metaOf k]) i i := .refl hr.intact hr.spelled
  have hleaves := furnishPair_leaves hstart (hr.wired _ hw).sane (hr.wired _ hw).isa k.name k.vars
    (fun _ _ _ => by simp) fun _ _ _ => by simp
  rw [heq] at hleaves
  obtain ⟨p, q, ts', hr', -⟩ := hr.furnishPair hw hm rfl (hd.apart k k) (by simp) heq
  refine ⟨⟨ts', hr'.mono (List.Subset.refl _) (List.nil_subset _)⟩,
    hleaves.1.mono fun _ _ _ => trivial, fun g hmeans => ?_⟩
  obtain ⟨t, ht, hglobals⟩ := hr.globals
  refine hmeans.kept hr ht hglobals hleaves.1 fun c hc hwritten => ?_
  -- No class is part of a dictionary.
  rcases List.mem_pair.mp hwritten with heq | heq
  · exact hr.wiredApart _ hw t ht (heq ▸ hc)
  · exact hr.wiredApart _ hm t ht (heq ▸ hc)

theorem furnishKernel_completes (hr : i.Registers ws [] ts) (hknown : ∀ k, i.kernelClass k = cls k)
    (hspans : ∀ k, i.heap.Spans (cls k) Slot.Class.count ∧
      i.heap.Spans (metaOf k) Slot.Class.count) :
    Completes (ks.flatMap Part.kernelClass) i (furnishKernel ks i) := by
  induction ks generalizing i ts with
  | nil => exact .pure _ _
  | cons k ks ih =>
    have hw := hws k _ List.mem_cons_self
    rw [List.flatMap_cons, Part.kernelClass, List.append_assoc, furnishKernel]
    refine .get ?_
    rw [hknown k]
    refine (furnishPair_completes hr.intact hr.spelled (hspans k).1 (hspans k).2
      (hr.wired _ hw).isa _ _).bind fun _ i₁ hfurnish _ => ?_
    obtain ⟨⟨ts₁, hr₁⟩, ha₁, -⟩ := furnishPair_keeps hd hws hr hfurnish
    have hcls : Sane i₁ (cls k) := (hr₁.wired _ hw).sane
    refine (setGlobal_completes hr₁ k.name hcls).bind fun _ i₂ hset _ => ?_
    obtain ⟨ha₂, -⟩ := Adds.of_ok (fun _ => True) [cls k] (setGlobal_adds k.name (by simp))
      hr₁.intact hr₁.spelled (by simpa using hcls) hset
    have hkeeps := hr₁.keeps.setGlobal k.name hcls
    rw [hset] at hkeeps
    obtain ⟨-, ts₂, hr₂⟩ := hkeeps
    have ha := ha₁.trans ha₂
    exact ih hr₂ (fun k => (ha.kernelClass k).trans (hknown k)) fun k =>
      ⟨ha.heap.spans (hspans k).1, ha.heap.spans (hspans k).2⟩

/-- The kernel classes become globals. -/
theorem furnishKernel_means {g : String → Option Value} (hr : i.Registers ws [] ts)
    (hknown : ∀ k, i.kernelClass k = cls k) (hks : (ks.map KernelClass.name).Nodup)
    (hm : i.Means g) (heq : furnishKernel ks i = .ok () i') :
    ∃ g', i'.Means g' ∧ (∀ k ∈ ks, g' k.name = some (cls k)) ∧
      ∀ name ∉ ks.map KernelClass.name, g' name = g name := by
  induction ks generalizing i ts g with
  | nil =>
    obtain ⟨-, rfl⟩ := pure_eq_ok.mp heq
    exact ⟨g, hm, List.forall_mem_nil _, fun _ _ => rfl⟩
  | cons k ks ih =>
    obtain ⟨hk, hks⟩ := List.nodup_cons.mp hks
    obtain ⟨_, _, hget, heq⟩ := bind_eq_ok.mp heq
    cases hget
    obtain ⟨_, i₁, hfurnish, heq⟩ := bind_eq_ok.mp heq
    obtain ⟨_, i₂, hset, hrest⟩ := bind_eq_ok.mp heq
    rw [hknown k] at hfurnish hset
    obtain ⟨⟨ts₁, hr₁⟩, ha₁, hmeans⟩ := furnishPair_keeps hd hws hr hfurnish
    have hcls : Sane i₁ (cls k) := (hr₁.wired _ (hws k _ List.mem_cons_self)).sane
    have hkeeps := hr₁.keeps.setGlobal k.name hcls
    rw [hset] at hkeeps
    obtain ⟨hsame, ts₂, hr₂⟩ := hkeeps
    obtain ⟨g', hm', hnamed, hold⟩ := ih hr₂
      (fun k => (kernelClass_eq (hsame.trans ha₁.known) k).trans (hknown k)) hks
      ((hmeans g hm).setGlobal hr₁ hcls hset) hrest
    refine ⟨g', hm', List.forall_mem_cons.mpr ⟨?_, hnamed⟩, fun name hname => ?_⟩
    · rw [hold _ hk, Function.update_self]
    · rw [List.map_cons, List.mem_cons, not_or] at hname
      obtain ⟨hne, hname⟩ := hname
      rw [hold _ hname, Function.update_of_ne hne]

end Furnishing

section Checking

variable (hd : KernelClass.Distinct cls metaOf) (hr : i.Registers ws os ts)
  (hws : ∀ k : KernelClass, ∀ w ∈ k.wirings cls metaOf, w ∈ ws)
  (hos : Furnished cls metaOf KernelClass.all os)
include hd hr hws hos

/-- The check of the wiring rule passes for every kernel class. -/
theorem checkWiring_kernel (k : KernelClass) :
    i.heap.checkWiring (cls k) (cls .object) (cls .metaclass) = .ok () := by
  obtain ⟨p, hp, hobject, -⟩ := hos.classes k k.mem_all
  refine Heap.checkWiring_of_wired (hr.wired _ (hws k _ List.mem_cons_self))
    (hr.wired _ (hws k _ (List.mem_cons_of_mem _ List.mem_cons_self))) (hr.fitted p hp) hobject
    ?_ ?_
  all_goals cases hs : k.superclass? with
  | none => ?_
  | some s => ?_
  · exact fun _ => congrArg cls (by cases k <;> first | rfl | cases hs)
  · exact fun hnil => absurd (congrArg Value.isNil hnil)
      (hr.wired _ (hws s _ List.mem_cons_self)).not_isNil
  · rfl
  · have hsup := (hr.wired _ (hws s _ List.mem_cons_self)).metaclassSuper (cls .object)
      (cls .metaclass)
    rw [ite_congr (propext hd.classes.eq_iff) (fun _ => rfl) fun _ => rfl] at hsup
    exact hsup

theorem checkKernel_completes (ks : List KernelClass) :
    Completes [] i (checkKernel (cls .object) (cls .metaclass) (ks.map cls) i) := by
  induction ks with
  | nil => exact .pure _ _
  | cons k ks ih => exact .query (checkWiring_kernel hd hr hws hos k) ih

end Checking

/-- Methods are entered in the classes as far as they compile. -/
theorem installKernel_completes {known : Array Value} (hk : Keeps known ws os i)
    (hknown : ∀ k : KernelClass, known.getD k.index .nil = cls k)
    (hws : ∀ k : KernelClass, ∀ w ∈ k.wirings cls metaOf, w ∈ ws)
    (hos : Furnished cls metaOf KernelClass.all os)
    {entries : List (KernelClass × Bool × List Method)} (hentries : ∀ entry ∈ entries,
      ∀ m ∈ entry.2.2, ∃ t, m.compile (Kernel.scope entry.1 entry.2.1) = .ok t) :
    Completes (entries.flatMap Part.kernelMethods) i (installKernel entries i) := by
  induction entries generalizing i with
  | nil => exact .pure _ _
  | cons entry rest ih =>
    obtain ⟨k, onMetaclass, ms⟩ := entry
    obtain ⟨hms, hrest⟩ := List.forall_mem_cons.mp hentries
    have hcls : i.kernelClass k = cls k := by rw [kernelClass, hk.1, hknown]
    have hentered : ∀ o ∈ os, o.names = Kernel.scope k onMetaclass →
        Completes (Part.methods o.names ms ++ rest.flatMap Part.kernelMethods) i
          ((addMethods o.object ms >>= fun _ => installKernel rest : ImageAction Unit) i) := by
      intro o ho hnames
      obtain ⟨-, ts, hr⟩ := id hk
      refine (addMethods_completes hr ho (hnames ▸ hms)).bind fun _ i₁ hadd _ => ?_
      have hkeeps := hk.addMethods ho ms
      rw [hadd] at hkeeps
      exact ih hkeeps hrest
    rw [List.flatMap_cons, installKernel]
    refine .get ?_
    cases onMetaclass with
    | false =>
      obtain ⟨p, hp, hobject, hnames⟩ := hos.classes k k.mem_all
      have hend := hentered p hp hnames
      rw [hobject, ← hcls, hnames] at hend
      exact hend
    | true =>
      obtain ⟨q, hq, hobject, hnames⟩ := hos.metaclasses k k.mem_all
      have hend := hentered q hq hnames
      obtain ⟨-, ts, hr⟩ := id hk
      rw [hobject, hnames] at hend
      refine .query (a := metaOf k) ?_ hend
      rw [hcls]
      exact (hr.wired _ (hws k _ List.mem_cons_self)).isa

theorem installKernel_means {known : Array Value} {g : String → Option Value}
    (hk : Keeps known ws os i) (hknown : ∀ k : KernelClass, known.getD k.index .nil = cls k)
    (hws : ∀ k : KernelClass, ∀ w ∈ k.wirings cls metaOf, w ∈ ws)
    (hos : Furnished cls metaOf KernelClass.all os) (hm : i.Means g)
    {entries : List (KernelClass × Bool × List Method)}
    (heq : installKernel entries i = .ok () i') : i'.Means g := by
  induction entries generalizing i with
  | nil =>
    obtain ⟨-, rfl⟩ := pure_eq_ok.mp heq
    exact hm
  | cons entry rest ih =>
    obtain ⟨k, onMetaclass, ms⟩ := entry
    have hcls : i.kernelClass k = cls k := by rw [kernelClass, hk.1, hknown]
    have hentered : ∀ o ∈ os, (addMethods o.object ms >>= fun _ => installKernel rest :
        ImageAction Unit) i = .ok () i' → i'.Means g := by
      intro o ho heq
      obtain ⟨_, i₁, hadd, hrest⟩ := bind_eq_ok.mp heq
      obtain ⟨-, hk₁, hm₁⟩ := hk.addMethods_enters hm ho hadd
      exact ih hk₁ hm₁ hrest
    obtain ⟨_, _, hget, heq⟩ := bind_eq_ok.mp heq
    cases hget
    cases onMetaclass with
    | false =>
      obtain ⟨p, hp, hobject, -⟩ := hos.classes k k.mem_all
      exact hentered p hp (hobject ▸ hcls ▸ heq)
    | true =>
      obtain ⟨q, hq, hobject, -⟩ := hos.metaclasses k k.mem_all
      obtain ⟨target, hread, heq⟩ := query_bind_eq_ok.mp heq
      obtain ⟨-, ts, hr⟩ := id hk
      rw [hcls] at hread
      obtain rfl := Except.ok.inj
        ((hr.wired _ (hws k _ List.mem_cons_self)).isa.symm.trans hread)
      exact hentered q hq (hobject ▸ heq)

section Boot

theorem completeKernel_completes (hd : KernelClass.Distinct cls metaOf) (hi : Intact i)
    (hs : i.Spelled) (hknown : i.known = (KernelClass.all.map cls).toArray)
    (hwired : ∀ k : KernelClass, ∀ w ∈ k.wirings cls metaOf, i.heap.Wired w)
    (hspans : ∀ k, i.heap.Spans (cls k) Slot.Class.count ∧
      i.heap.Spans (metaOf k) Slot.Class.count) :
    Completes (Part.others ++ KernelClass.all.flatMap Part.kernelClass) i
      (completeKernel (cls .object) (cls .metaclass) (KernelClass.all.map cls) i) := by
  have hws : ∀ k : KernelClass, ∀ w ∈ k.wirings cls metaOf,
      w ∈ KernelClass.all.flatMap (KernelClass.wirings cls metaOf) := fun k w hw =>
    List.mem_flatMap.mpr ⟨k, k.mem_all, hw⟩
  refine (knowOthers_completes hi hs).bind fun _ i₁ hothers _ => ?_
  obtain ⟨⟨ts, hr⟩, hbuilds, hknown'⟩ := knowOthers_registers hi hs hknown hwired hothers
  rw [← List.append_nil (KernelClass.all.flatMap _)]
  refine (furnishKernel_completes hd hws hr hknown' fun k =>
    ⟨hbuilds.spans (hspans k).1, hbuilds.spans (hspans k).2⟩).bind fun _ i₂ hfurnish _ => ?_
  obtain ⟨os, hos, -, ts₂, hr₂⟩ := furnishKernel_keeps hd (List.nil_append _) hr hknown' hws
    ⟨by simp, by simp, by simp⟩ hfurnish
  exact checkKernel_completes hd hr₂ hws hos _

theorem makeKernel_completes (hi : Intact i) (hs : i.Spelled) :
    Completes ((KernelClass.all.flatMap fun _ => [.slots Slot.Class.count, .slots Slot.Class.count])
      ++ (Part.others ++ KernelClass.all.flatMap Part.kernelClass)) i (makeKernel i) := by
  rw [makeKernel_eq]
  refine (allocatePairs_completes hi hs _).bind fun pairs i₁ hpairs _ => ?_
  obtain ⟨cls, metaOf, rfl, hd, hs₁, hi₁, hcells⟩ := allocatePairs_all hi hs hpairs
  obtain ⟨i₂, hwire, htakes, hspans⟩ := wirePairs_affords hd hi₁ getD_all
    fun k => ⟨fun n hn => ⟨_, (hcells k n hn).1⟩, fun n hn => ⟨_, (hcells k n hn).2⟩⟩
  obtain ⟨hi₂, hs₂, hknown₂, hwired⟩ := wirePairs_eq_ok hd (List.nil_append _) hi₁ hs₁ getD_all
    (by simp) (fun k _ => ⟨⟨_, (hcells k _ (by decide)).1⟩, _, (hcells k _ (by decide)).2⟩) hwire
  rw [wireKernel_eq]
  exact .after hwire htakes (completeKernel_completes hd hi₂ hs₂ hknown₂ hwired hspans)

theorem setUp_completes (hi : Intact i) (hs : i.Spelled) :
    Completes Part.kernel i (setUp i) := by
  refine (makeKernel_completes hi hs).bind fun _ i₁ hmake _ => ?_
  obtain ⟨cls, metaOf, os, horigin⟩ := makeKernel_originates hi hs hmake
  exact installKernel_completes horigin.keeps horigin.known
    (fun k w hw => List.mem_flatMap.mpr ⟨k, k.mem_all, hw⟩) horigin.furnished Kernel.methods_compile

/-- Where there is room for its classes and methods, an image starts. -/
theorem boot_delivers {settings : HeapSettings} {heap : Heap}
    (hcreate : Heap.create settings = .ok heap) (hroom : heap.Affords Part.kernel) :
    ∃ i, boot settings = .ok i ∧ heap.Takes Part.kernel i.heap := by
  have hblank : blank settings = .ok ⟨heap, {}, #[], #[]⟩ := by rw [blank, hcreate]
  obtain ⟨hi, hs⟩ := blank_intact hblank
  have hfits : Part.kernel.findSome? Part.misfit? = none := by decide +kernel
  obtain ⟨_, i, heq, htakes⟩ := (setUp_completes hi hs).delivers hfits hroom
  exact ⟨i, by rw [boot, hblank]; simp only [bind, Except.bind, heq]; rfl, htakes⟩

/-- A memory of the default size is more than enough for a start. -/
theorem boot_default : ∃ i, boot {} = .ok i ∧
    ∀ parts, (∀ id, Part.room parts id ≤ 0xFF000) → i.heap.Affords parts := by
  have hcheck : HeapSettings.check {} = .ok () := by decide +kernel
  have hcreate : Heap.create {} = .ok ⟨.empty, 0x100000, HeapSettings.limit {}, 1, {}⟩ := by
    rw [Heap.create, hcheck]
    rfl
  have hroom : ∀ id, Arenas.empty.used id + Part.room Part.kernel id ≤ 0x1000 := by
    rintro (_ | _) <;> decide +kernel
  obtain ⟨i, hboot, htakes⟩ := boot_delivers hcreate fun id => (hroom id).trans (by decide)
  refine ⟨i, hboot, fun parts hparts id => ?_⟩
  have hused : i.heap.used id ≤ 0x1000 := (htakes.used id).trans (hroom id)
  rw [htakes.capacity]
  exact Nat.add_le_add hused (hparts id)

/-- The kernel classes of a fresh image are the globals of their names. -/
theorem boot_names {settings : HeapSettings} (hboot : boot settings = .ok i) (k : KernelClass) :
    i.global? k.name = .ok (some (i.kernelClass k)) := by
  obtain ⟨start, i₁, hi, hs, hmake, hinstall⟩ := boot_eq_ok hboot
  obtain ⟨cls, metaOf, i₀, ts, hd, hr, hknown, hfurnish⟩ := makeKernel_eq_ok hi hs hmake
  have hws : ∀ k : KernelClass, ∀ w ∈ k.wirings cls metaOf,
      w ∈ KernelClass.all.flatMap (KernelClass.wirings cls metaOf) := fun k w hw =>
    List.mem_flatMap.mpr ⟨k, k.mem_all, hw⟩
  obtain ⟨g, hm⟩ := hr.means
  obtain ⟨g', hm', hnamed, -⟩ := furnishKernel_means hd hws hr hknown (by decide) hm hfurnish
  obtain ⟨os, hos, hkeeps⟩ := furnishKernel_keeps hd (List.nil_append _) hr hknown hws
    ⟨by simp, by simp, by simp⟩ hfurnish
  have hend := installKernel_keeps hkeeps hknown hws hos Kernel.methods
  rw [hinstall] at hend
  rw [installKernel_means hkeeps hknown hws hos hm' hinstall, hnamed k k.mem_all,
    kernelClass_eq hend.1]
  exact congrArg (Except.ok ∘ some) (hknown k).symm

theorem boot_variables {settings : HeapSettings} (hboot : boot settings = .ok i) (k : KernelClass) :
    i.heap.instanceVariables (i.kernelClass k) = .ok k.vars := by
  obtain ⟨cls, metaOf, os, horigin⟩ := boot_originates hboot
  obtain ⟨p, hp, hobject, hnames⟩ := horigin.furnished.classes k k.mem_all
  obtain ⟨-, _, hr⟩ := horigin.keeps
  rw [horigin.known k, ← hobject, ← hnames]
  exact (hr.fitted p hp).instanceVariables

end Boot

end Image

end ObjectMachine
