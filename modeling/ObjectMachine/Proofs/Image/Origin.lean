import ObjectMachine.Proofs.Image.Defining

namespace ObjectMachine

namespace KernelClass

theorem mem_all (k : KernelClass) : k ∈ all := by cases k <;> decide

theorem all_nodup : all.Nodup := by decide

/-- No class comes before its superclass. -/
theorem all_sorted : all.Pairwise fun k k' => k.superclass? ≠ some k' := by decide

theorem superclass?_ne (k : KernelClass) : k.superclass? ≠ some k := by cases k <;> decide

theorem superclass_mem {done rest : List KernelClass} {k s : KernelClass}
    (hall : done ++ k :: rest = all) (hs : k.superclass? = some s) : s ∈ done := by
  have hsorted := all_sorted
  have hmem := s.mem_all
  rw [← hall] at hsorted hmem
  rcases List.mem_append.mp hmem with hdone | hrest
  · exact hdone
  · rcases List.mem_cons.mp hrest with rfl | hrest
    · exact absurd hs (superclass?_ne _)
    · exact absurd hs ((List.pairwise_cons.mp (List.pairwise_append.mp hsorted).2.1).1 s hrest)

theorem not_mem_done {done rest : List KernelClass} {k : KernelClass}
    (hall : done ++ k :: rest = all) : k ∉ done := by
  intro hk
  have hnodup := all_nodup
  rw [← hall, List.nodup_append] at hnodup
  exact hnodup.2.2 k hk k List.mem_cons_self rfl

/-- A list with an entry for each kernel class. -/
theorem eq_map_index {α : Type} {items : List α} (hlength : items.length = all.length) (d : α) :
    items = all.map fun k => items.getD k.index d := by
  have hindices : all.map index = List.range all.length := rfl
  refine List.ext_getElem (by rw [List.length_map, hlength]) fun n hn hn' => ?_
  have hmapped : n < (all.map index).length := by simpa [← hlength] using hn
  have hindex := List.getElem_map index (h := hmapped)
  rw [List.getElem_of_eq hindices, List.getElem_range] at hindex
  rw [List.getElem_map, ← hindex, List.getD_eq_getElem?_getD, List.getElem?_eq_getElem hn,
    Option.getD_some]

theorem getElem?_all (k : KernelClass) : all[k.index]? = some k := by cases k <;> rfl

/-- The kernel classes are the first objects that an image knows by itself. -/
theorem getD_index (cls : KernelClass → Value) (others : List Value) (k : KernelClass) :
    ((all.map cls).toArray ++ others).getD k.index .nil = cls k := by
  have hindex : k.index < all.length := (List.getElem?_eq_some_iff.mp (getElem?_all k)).1
  have hk : (all.map cls ++ others)[k.index]? = some (cls k) := by
    rw [List.getElem?_append_left (by rwa [List.length_map]), List.getElem?_map, getElem?_all]
    rfl
  simp [Array.getD_eq_getD_getElem?, hk]

def wirings (cls metaOf : KernelClass → Value) (k : KernelClass) : List Wiring :=
  [⟨cls k, metaOf k, (k.superclass?.map cls).getD .nil⟩,
    ⟨metaOf k, cls .metaclass, k.superclass?.elim (cls .object) fun s =>
      if s = .object then cls .metaclass else metaOf s⟩]

structure Distinct (cls metaOf : KernelClass → Value) : Prop where
  classes : Function.Injective cls
  metaclasses : Function.Injective metaOf
  apart : ∀ k k', cls k ≠ metaOf k'

variable {cls metaOf : KernelClass → Value} {k k' : KernelClass}

theorem Distinct.of_nodup (hnodup : (all.map cls ++ all.map metaOf).Nodup) :
    Distinct cls metaOf := by
  obtain ⟨hcls, hmeta, hapart⟩ := List.nodup_append.mp hnodup
  refine ⟨fun k k' heq => ?_, fun k k' heq => ?_, fun k k' => ?_⟩
  · exact List.inj_on_of_nodup_map hcls k.mem_all k'.mem_all heq
  · exact List.inj_on_of_nodup_map hmeta k.mem_all k'.mem_all heq
  · exact hapart _ (List.mem_map_of_mem k.mem_all) _ (List.mem_map_of_mem k'.mem_all)

theorem mem_wirings {w : Wiring} (hw : w ∈ k.wirings cls metaOf) :
    w.object = cls k ∨ w.object = metaOf k := by
  rcases List.mem_cons.mp hw with rfl | hw
  · exact .inl rfl
  · rw [List.mem_singleton.mp hw]
    exact .inr rfl

theorem Distinct.not_mem_pair (hd : Distinct cls metaOf) (hne : k' ≠ k) {w : Wiring}
    (hw : w ∈ k'.wirings cls metaOf) : w.object ∉ [cls k, metaOf k] := by
  rw [List.mem_cons, List.mem_singleton]
  rcases mem_wirings hw with heq | heq <;> rw [heq]
  · exact fun h => h.elim (fun h => hne (hd.classes h)) (hd.apart _ _)
  · exact fun h => h.elim (fun h => hd.apart _ _ h.symm) fun h => hne (hd.metaclasses h)

end KernelClass

namespace Image

variable {i i' : Image} {ws : List Wiring} {os : List Outfit} {ts : List Filing}

section Wiring

/-- A new object for each kernel class and each metaclass. -/
theorem allocatePairs_eq_ok {ks : List KernelClass} {pairs : List (Value × Value)} (hi : Intact i)
    (hs : i.Spelled) (heq : allocatePairs ks i = .ok pairs i') :
    pairs.length = ks.length ∧ Adds (fun _ => False) i i' ∧ i'.symbols = i.symbols ∧
      (pairs.map Prod.fst ++ pairs.map Prod.snd).Nodup ∧
      ∀ v ∈ pairs.map Prod.fst ++ pairs.map Prod.snd, ¬Sane i v ∧
        ∀ k < Slot.Class.count, i'.heap.Holds ⟨v, k⟩ .nil := by
  induction ks generalizing i pairs with
  | nil =>
    obtain ⟨rfl, rfl⟩ := pure_eq_ok.mp heq
    exact ⟨rfl, .refl hi hs, rfl, .nil, fun _ hv => nomatch hv⟩
  | cons k ks ih =>
    obtain ⟨cls, i₁, hcls, heq⟩ := bind_eq_ok.mp heq
    obtain ⟨metaclass, i₂, hmeta, heq⟩ := bind_eq_ok.mp heq
    obtain ⟨rest, i₃, hrest, heq⟩ := bind_eq_ok.mp heq
    obtain ⟨rfl, rfl⟩ := pure_eq_ok.mp heq
    obtain ⟨_, _, hcls', ha₁, hsymbols₁, hcls₁, hnew₁, hslots₁⟩ | ⟨_, _, hcls', -⟩ :=
      allocatePointers_cases hi hs (Arenas.sane_nil _) Slot.Class.count (by decide)
    case inr => exact nomatch hcls.symm.trans hcls'
    obtain ⟨rfl, rfl⟩ := EStateM.Result.ok.inj (hcls.symm.trans hcls')
    obtain ⟨_, _, hmeta', ha₂, hsymbols₂, hmeta₂, hnew₂, hslots₂⟩ | ⟨_, _, hmeta', -⟩ :=
      allocatePointers_cases ha₁.intact ha₁.spelled (Arenas.sane_nil _) Slot.Class.count (by decide)
    case inr => exact nomatch hmeta.symm.trans hmeta'
    obtain ⟨rfl, rfl⟩ := EStateM.Result.ok.inj (hmeta.symm.trans hmeta')
    obtain ⟨hlength, ha₃, hsymbols₃, hnodup, hfresh⟩ := ih ha₂.intact ha₂.spelled hrest
    have hcls₂ : Sane i₂ cls := ha₂.sane hcls₁
    have hne : cls ≠ metaclass := fun heq => hnew₂ (heq ▸ hcls₁)
    -- The rest was made when both were there.
    have hother : ∀ v ∈ rest.map Prod.fst ++ rest.map Prod.snd, v ≠ cls ∧ v ≠ metaclass :=
      fun v hv => ⟨fun heq => (hfresh v hv).1 (heq ▸ hcls₂),
        fun heq => (hfresh v hv).1 (heq ▸ hmeta₂)⟩
    refine ⟨congrArg (· + 1) hlength, (ha₁.trans ha₂).trans ha₃,
      hsymbols₃.trans (hsymbols₂.trans hsymbols₁), ?_, fun v hv => ?_⟩
    · simp only [List.map_cons, List.cons_append, List.nodup_cons]
      refine ⟨fun hmem => ?_, List.nodup_middle.mpr
        (List.nodup_cons.mpr ⟨fun hmem => (hother _ hmem).2 rfl, hnodup⟩)⟩
      rcases List.mem_append.mp hmem with hmem | hmem
      · exact (hother _ (List.mem_append_left _ hmem)).1 rfl
      · rcases List.mem_cons.mp hmem with heq | hmem
        · exact hne heq
        · exact (hother _ (List.mem_append_right _ hmem)).1 rfl
    · have hcases : v = cls ∨ v = metaclass ∨ v ∈ rest.map Prod.fst ++ rest.map Prod.snd := by
        simp only [List.map_cons, List.cons_append, List.mem_cons, List.mem_append] at hv ⊢
        tauto
      rcases hcases with rfl | rfl | hv
      · exact ⟨hnew₁, fun k hk => ha₃.heap.kept id (ha₂.heap.kept id (hslots₁ k hk))⟩
      · exact ⟨fun hold => hnew₂ (ha₁.sane hold), fun k hk => ha₃.heap.kept id (hslots₂ k hk)⟩
      · exact ⟨fun hold => (hfresh v hv).1 (ha₂.sane (ha₁.sane hold)), (hfresh v hv).2⟩

variable {cls metaOf : KernelClass → Value}

theorem wire_kernel {k : KernelClass} {done rest : List KernelClass} {heap : Heap} {a b : Value}
    (hd : KernelClass.Distinct cls metaOf) (hall : done ++ k :: rest = KernelClass.all)
    (hi : Intact i) (hknown : ∀ k, i.kernelClass k = cls k)
    (hwired : ∀ k ∈ done, ∀ w ∈ k.wirings cls metaOf, i.heap.Wired w)
    (hcls : i.heap.Holds ⟨cls k, Slot.Class.superclass⟩ a)
    (hmeta : i.heap.Holds ⟨metaOf k, Slot.Class.superclass⟩ b)
    (heq : Heap.wire (cls k) (metaOf k) ((k.superclass?.map i.kernelClass).getD .nil) (cls .object)
      (cls .metaclass) (ε := HeapError) i.heap = .ok () heap) :
    i.heap.Reshapes [cls k, metaOf k] heap ∧ ∀ w ∈ k.wirings cls metaOf, heap.Wired w := by
  have hsane : ∀ k, Sane i (cls k) := fun k => hknown k ▸ hi.held _ (i.kernelClass_mem_values k)
  obtain rfl : i.kernelClass = cls := funext hknown
  have hsup : Sane i ((k.superclass?.map i.kernelClass).getD .nil) := by
    cases k.superclass? with
    | none => exact Arenas.sane_nil _
    | some s => exact hsane s
  obtain ⟨msup, hreshapes, hmsup, hw, hw'⟩ :=
    hi.whole.wires hcls hmeta (hd.apart k k) hsup (hsane _) (hsane _) heq
  obtain rfl : msup = k.superclass?.elim (i.kernelClass .object) fun s =>
      if s = .object then i.kernelClass .metaclass else metaOf s := by
    cases hs : k.superclass? with
    | none =>
      rw [hs] at hmsup
      exact (Except.ok.inj hmsup).symm
    | some s =>
      have hdone := KernelClass.superclass_mem hall hs
      have hmem : (⟨i.kernelClass s, metaOf s, (s.superclass?.map i.kernelClass).getD .nil⟩ :
          Wiring) ∈ s.wirings i.kernelClass metaOf := List.mem_cons_self
      have hne : s ≠ k := fun heq => KernelClass.not_mem_done hall (heq ▸ hdone)
      have hold := (hwired s hdone _ hmem).reshape hreshapes (hd.not_mem_pair hne hmem)
      rw [hs] at hmsup
      change heap.metaclassSuper (i.kernelClass s) _ _ = _ at hmsup
      rw [hold.metaclassSuper, Except.ok.injEq] at hmsup
      simp only [hd.classes.eq_iff] at hmsup
      exact hmsup.symm
  exact ⟨hreshapes, List.forall_mem_cons.mpr ⟨hw, List.forall_mem_singleton.mpr hw'⟩⟩

theorem wirePairs_eq_ok {done ks : List KernelClass} (hd : KernelClass.Distinct cls metaOf)
    (hall : done ++ ks = KernelClass.all) (hi : Intact i) (hs : i.Spelled)
    (hknown : ∀ k, i.kernelClass k = cls k)
    (hwired : ∀ k ∈ done, ∀ w ∈ k.wirings cls metaOf, i.heap.Wired w)
    (hmade : ∀ k ∈ ks, (∃ x, i.heap.Holds ⟨cls k, Slot.Class.superclass⟩ x) ∧
      ∃ x, i.heap.Holds ⟨metaOf k, Slot.Class.superclass⟩ x)
    (heq : wirePairs (cls .object) (cls .metaclass) (ks.map fun k => (k, cls k, metaOf k)) i =
      .ok () i') :
    Intact i' ∧ i'.Spelled ∧ i'.known = i.known ∧
      ∀ k : KernelClass, ∀ w ∈ k.wirings cls metaOf, i'.heap.Wired w := by
  induction ks generalizing i done with
  | nil =>
    obtain ⟨-, rfl⟩ := pure_eq_ok.mp heq
    rw [List.append_nil] at hall
    exact ⟨hi, hs, rfl, fun k => hwired k (hall ▸ k.mem_all)⟩
  | cons k ks ih =>
    obtain ⟨_, _, hget, heq⟩ := bind_eq_ok.mp heq
    cases hget
    obtain ⟨_, i₁, hwire, hrest⟩ := bind_eq_ok.mp heq
    obtain ⟨heap, hwired', rfl⟩ := onHeap_eq_ok.mp hwire
    obtain ⟨⟨⟨a, ha⟩, b, hb⟩, hmade⟩ := List.forall_mem_cons.mp hmade
    obtain ⟨hreshapes, hnew⟩ := wire_kernel hd hall hi hknown hwired ha hb hwired'
    have hkeeps : ∀ k' ∈ done ++ ks, k' ≠ k := by
      have hnodup := KernelClass.all_nodup
      rw [← hall] at hnodup
      exact fun k' hk' heq => (List.nodup_cons.mp (List.nodup_middle.mp hnodup)).1 (heq ▸ hk')
    have hcell : ∀ {v x}, v ∉ [cls k, metaOf k] → i.heap.Holds ⟨v, Slot.Class.superclass⟩ x →
        heap.Holds ⟨v, Slot.Class.superclass⟩ x := fun hv => hreshapes.cells hv
    have hall' : (done ++ [k]) ++ ks = KernelClass.all := by rw [← hall, List.append_assoc]; rfl
    refine ih (i := { i with heap }) hall'
      ⟨hreshapes.whole, fun v hv => hreshapes.grows v (hi.held v hv)⟩
      (fun hname => hreshapes.spells (hs hname)) hknown (fun k' hk' w hw => ?_)
      (fun k' hk' => ?_) hrest
    · rcases List.mem_append.mp hk' with hk' | hk'
      · exact (hwired k' hk' w hw).reshape hreshapes
          (hd.not_mem_pair (hkeeps k' (List.mem_append_left _ hk')) hw)
      · obtain rfl := List.mem_singleton.mp hk'
        exact hnew w hw
    · have hne := hkeeps k' (List.mem_append_right _ hk')
      obtain ⟨⟨x, hx⟩, y, hy⟩ := hmade k' hk'
      exact ⟨⟨x, hcell (hd.not_mem_pair hne (w := ⟨cls k', _, _⟩) List.mem_cons_self) hx⟩,
        y, hcell (hd.not_mem_pair hne (w := ⟨metaOf k', _, _⟩)
          (List.mem_cons_of_mem _ List.mem_cons_self)) hy⟩

end Wiring

section Furnishing

variable {cls metaOf : KernelClass → Value}

structure Furnished (cls metaOf : KernelClass → Value) (ks : List KernelClass)
    (os : List Outfit) : Prop where
  classes : ∀ k ∈ ks, ∃ p ∈ os, p.object = cls k ∧ p.names = k.vars
  metaclasses : ∀ k ∈ ks, ∃ q ∈ os, q.object = metaOf k ∧ q.names = KernelClass.classVariables
  only : ∀ o ∈ os, ∃ k ∈ ks, o.object = cls k ∨ o.object = metaOf k

theorem Furnished.snoc {ks : List KernelClass} {k : KernelClass} {p q : Outfit}
    (hos : Furnished cls metaOf ks os) (hp : p.object = cls k) (hpnames : p.names = k.vars)
    (hq : q.object = metaOf k) (hqnames : q.names = KernelClass.classVariables) :
    Furnished cls metaOf (ks ++ [k]) (q :: p :: os) where
  classes := List.forall_mem_append.mpr ⟨fun k' hk' => by
      obtain ⟨o, ho, h⟩ := hos.classes k' hk'
      exact ⟨o, by simp [ho], h⟩,
    List.forall_mem_singleton.mpr ⟨p, by simp, hp, hpnames⟩⟩
  metaclasses := List.forall_mem_append.mpr ⟨fun k' hk' => by
      obtain ⟨o, ho, h⟩ := hos.metaclasses k' hk'
      exact ⟨o, by simp [ho], h⟩,
    List.forall_mem_singleton.mpr ⟨q, by simp, hq, hqnames⟩⟩
  only := by
    simp only [List.forall_mem_cons]
    refine ⟨⟨k, by simp, .inr hq⟩, ⟨k, by simp, .inl hp⟩, fun o ho => ?_⟩
    obtain ⟨k', hk', h⟩ := hos.only o ho
    exact ⟨k', List.mem_append_left _ hk', h⟩

theorem furnishKernel_keeps {done ks : List KernelClass} (hd : KernelClass.Distinct cls metaOf)
    (hall : done ++ ks = KernelClass.all) (hr : i.Registers ws os ts)
    (hknown : ∀ k, i.kernelClass k = cls k)
    (hws : ∀ k : KernelClass, ∀ w ∈ k.wirings cls metaOf, w ∈ ws)
    (hos : Furnished cls metaOf done os) (heq : furnishKernel ks i = .ok () i') :
    ∃ os', Furnished cls metaOf KernelClass.all os' ∧ Keeps i.known ws os' i' := by
  induction ks generalizing i os ts done with
  | nil =>
    obtain ⟨-, rfl⟩ := pure_eq_ok.mp heq
    rw [List.append_nil] at hall
    exact ⟨os, hall ▸ hos, hr.keeps⟩
  | cons k ks ih =>
    obtain ⟨_, _, hget, heq⟩ := bind_eq_ok.mp heq
    cases hget
    obtain ⟨_, i₁, hfurnish, heq⟩ := bind_eq_ok.mp heq
    obtain ⟨_, i₂, hset, hrest⟩ := bind_eq_ok.mp heq
    rw [hknown k] at hfurnish hset
    have hw := hws k _ List.mem_cons_self
    have hm := hws k _ (List.mem_cons_of_mem _ List.mem_cons_self)
    have hnew : ∀ o ∈ os, o.object ≠ cls k ∧ o.object ≠ metaOf k := by
      intro o ho
      obtain ⟨k', hk', hobject⟩ := hos.only o ho
      have hne : k' ≠ k := fun heq => KernelClass.not_mem_done hall (heq ▸ hk')
      rcases hobject with hobject | hobject <;> rw [hobject]
      · exact ⟨fun h => hne (hd.classes h), hd.apart _ _⟩
      · exact ⟨fun h => hd.apart _ _ h.symm, fun h => hne (hd.metaclasses h)⟩
    obtain ⟨p, q, ts₁, hr₁, hknown₁, hp, hpnames, hq, hqnames⟩ :=
      hr.furnishPair hw hm rfl (hd.apart k k) hnew hfurnish
    have hglobal := hr₁.keeps.setGlobal k.name (hr₁.wired _ hw).sane
    rw [hset] at hglobal
    obtain ⟨hknown₂, ts₂, hr₂⟩ := hglobal
    have hsame := hknown₂.trans hknown₁
    have hall' : (done ++ [k]) ++ ks = KernelClass.all := by rw [← hall, List.append_assoc]; rfl
    have hknown' : ∀ k, i₂.kernelClass k = cls k := fun k => by
      rw [← hknown k, kernelClass, hsame, kernelClass]
    exact hsame ▸ ih hall' hr₂ hknown' (hos.snoc hp hpnames hq hqnames) hrest

theorem checkKernel_eq_ok {root rootMeta : Value} {classes : List Value} {u : Unit}
    (heq : checkKernel root rootMeta classes i = .ok u i') : i' = i := by
  induction classes with
  | nil => exact (pure_eq_ok.mp heq).2.symm
  | cons cls classes ih =>
    obtain ⟨_, -, heq⟩ := query_bind_eq_ok.mp heq
    exact ih heq

theorem installKernel_keeps {known : Array Value} (hk : Keeps known ws os i)
    (hknown : ∀ k : KernelClass, known.getD k.index .nil = cls k)
    (hws : ∀ k : KernelClass, ∀ w ∈ k.wirings cls metaOf, w ∈ ws)
    (hos : Furnished cls metaOf KernelClass.all os)
    (methods : List (KernelClass × Bool × List Method)) :
    Action.Ends (Keeps known ws os) (installKernel methods i) := by
  induction methods generalizing i with
  | nil => exact hk
  | cons entry rest ih =>
    obtain ⟨k, onMetaclass, ms⟩ := entry
    have hcls : i.kernelClass k = cls k := by rw [kernelClass, hk.1, hknown]
    obtain ⟨p, hp, hpobject, -⟩ := hos.classes k k.mem_all
    obtain ⟨q, hq, hqobject, -⟩ := hos.metaclasses k k.mem_all
    have hentered : ∀ o ∈ os, Action.Ends (Keeps known ws os)
        ((addMethods o.object ms >>= fun _ => installKernel rest : ImageAction Unit) i) :=
      fun o ho => (hk.addMethods ho ms).andThen fun _ _ hk' => ih hk'
    cases onMetaclass with
    | false =>
      have hend := hentered p hp
      rw [hpobject, ← hcls] at hend
      exact hend
    | true =>
      refine .query fun target hread => ?_
      obtain ⟨-, ts, hr⟩ := hk
      rw [hcls] at hread
      obtain rfl := Except.ok.inj
        ((hr.wired _ (hws k _ List.mem_cons_self)).isa.symm.trans hread)
      have hend := hentered q hq
      rw [hqobject] at hend
      exact hend

end Furnishing

section Boot

variable {cls metaOf : KernelClass → Value}

/-- An image comes to know other objects by itself. -/
theorem know_intact (hi : Intact i) (objects : Array Value) (hobjects : ∀ v ∈ objects, Sane i v) :
    Intact { i with known := objects } := by
  refine ⟨hi.whole, fun v hv => ?_⟩
  rcases List.mem_cons.mp hv with rfl | hv
  · exact Arenas.sane_nil _
  · rcases List.mem_append.mp hv with hv | hv
    · exact hi.held v (List.mem_cons_of_mem _ (List.mem_append_left _ hv))
    · exact hobjects v (Array.mem_toList_iff.mp hv)

structure Originates (i : Image) (cls metaOf : KernelClass → Value) (os : List Outfit) : Prop where
  distinct : KernelClass.Distinct cls metaOf
  known : ∀ k, i.kernelClass k = cls k
  furnished : Furnished cls metaOf KernelClass.all os
  keeps : Keeps i.known (KernelClass.all.flatMap (KernelClass.wirings cls metaOf)) os i

/-- Makes the objects that an image knows besides the kernel classes. -/
def knowOthers : ImageAction Unit := do
  let blockReturn ← intern blockReturnSelector
  let i ← EStateM.get
  let symbols ← internAll (BinaryOp.all.toList.map (·.selector))
  let trueObject ← onHeap (Heap.allocatePointers (i.kernelClass .trueClass) 0)
  let falseObject ← onHeap (Heap.allocatePointers (i.kernelClass .falseClass) 0)
  let globals ← onHeap (Heap.newDictionary (i.kernelClass .dictionary) Heap.globalBuckets)
  modify fun i =>
    { i with known := i.known ++ ([trueObject, falseObject, globals, blockReturn] ++ symbols) }

/-- What remains to be done for the kernel classes once they are wired. -/
def completeKernel (root rootMeta : Value) (classes : List Value) : ImageAction Unit := do
  knowOthers
  furnishKernel KernelClass.all
  checkKernel root rootMeta classes

/-- Lets an image know its kernel classes, wires them, and completes them. -/
def wireKernel (pairs : List (Value × Value)) : ImageAction Unit := do
  modify fun i => { i with known := (pairs.map (·.1)).toArray }
  let i ← EStateM.get
  wirePairs (i.kernelClass .object) (i.kernelClass .metaclass) (KernelClass.all.zip pairs)
  completeKernel (i.kernelClass .object) (i.kernelClass .metaclass) (pairs.map (·.1))

theorem makeKernel_eq : makeKernel = allocatePairs KernelClass.all >>= wireKernel := by
  refine bind_congr fun pairs => ?_
  simp only [wireKernel, completeKernel, knowOthers, bind_assoc]

theorem getD_all (k : KernelClass) :
    (KernelClass.all.map cls).toArray.getD k.index .nil = cls k := by
  simpa using KernelClass.getD_index cls [] k

theorem wireKernel_eq (i : Image) :
    wireKernel (KernelClass.all.map fun k => (cls k, metaOf k)) i = (do
      wirePairs (cls .object) (cls .metaclass) (KernelClass.all.map fun k => (k, cls k, metaOf k))
      completeKernel (cls .object) (cls .metaclass) (KernelClass.all.map cls) :
        ImageAction Unit) { i with known := (KernelClass.all.map cls).toArray } := by
  have hfst : (KernelClass.all.map fun k => (cls k, metaOf k)).map (·.1) =
      KernelClass.all.map cls := by
    rw [List.map_map]
    rfl
  have hzip : KernelClass.all.zip (KernelClass.all.map fun k => (cls k, metaOf k)) =
      KernelClass.all.map fun k => (k, cls k, metaOf k) :=
    (List.map_prod_left_eq_zip ..).symm
  rw [wireKernel, hfst, hzip]
  change (wirePairs ((KernelClass.all.map cls).toArray.getD KernelClass.object.index .nil)
    ((KernelClass.all.map cls).toArray.getD KernelClass.metaclass.index .nil) _ >>= fun _ =>
      completeKernel ((KernelClass.all.map cls).toArray.getD KernelClass.object.index .nil)
        ((KernelClass.all.map cls).toArray.getD KernelClass.metaclass.index .nil) _) _ = _
  rw [getD_all, getD_all]

/-- The objects that were made for a kernel class stand at its index. -/
theorem allocatePairs_all {pairs : List (Value × Value)} (hi : Intact i) (hs : i.Spelled)
    (heq : allocatePairs KernelClass.all i = .ok pairs i') : ∃ cls metaOf,
      pairs = (KernelClass.all.map fun k => (cls k, metaOf k)) ∧
      KernelClass.Distinct cls metaOf ∧ i'.Spelled ∧
      Intact { i' with known := (KernelClass.all.map cls).toArray } ∧
      ∀ k : KernelClass, ∀ n < Slot.Class.count,
        i'.heap.Holds ⟨cls k, n⟩ .nil ∧ i'.heap.Holds ⟨metaOf k, n⟩ .nil := by
  obtain ⟨hlength, ha, -, hnodup, hmade⟩ := allocatePairs_eq_ok hi hs heq
  let cls k := (pairs.getD (KernelClass.index k) default).1
  let metaOf k := (pairs.getD (KernelClass.index k) default).2
  have hall : pairs = KernelClass.all.map fun k => (cls k, metaOf k) :=
    KernelClass.eq_map_index hlength default
  have hfst : pairs.map Prod.fst = KernelClass.all.map cls := by
    rw [hall, List.map_map]
    rfl
  have hsnd : pairs.map Prod.snd = KernelClass.all.map metaOf := by
    rw [hall, List.map_map]
    rfl
  rw [hfst, hsnd] at hnodup hmade
  have hcells : ∀ k : KernelClass, ∀ n < Slot.Class.count,
      i'.heap.Holds ⟨cls k, n⟩ .nil ∧ i'.heap.Holds ⟨metaOf k, n⟩ .nil := fun k n hn =>
    ⟨(hmade _ (List.mem_append_left _ (List.mem_map_of_mem k.mem_all))).2 n hn,
      (hmade _ (List.mem_append_right _ (List.mem_map_of_mem k.mem_all))).2 n hn⟩
  refine ⟨cls, metaOf, hall, .of_nodup hnodup, ha.spelled, know_intact ha.intact _ fun v hv => ?_,
    hcells⟩
  obtain ⟨k, -, rfl⟩ := List.mem_map.mp (List.mem_toArray.mp hv)
  exact (hcells k 0 (by decide)).1.sane

theorem knowOthers_registers (hi : Intact i) (hs : i.Spelled)
    (hknown : i.known = (KernelClass.all.map cls).toArray)
    (hwired : ∀ k : KernelClass, ∀ w ∈ k.wirings cls metaOf, i.heap.Wired w)
    (heq : knowOthers i = .ok () i') :
    (∃ ts, i'.Registers (KernelClass.all.flatMap (KernelClass.wirings cls metaOf)) [] ts) ∧
      i.heap.Builds (fun _ => False) i'.heap ∧ ∀ k, i'.kernelClass k = cls k := by
  obtain ⟨blockReturn, i₁, hintern, heq⟩ := bind_eq_ok.mp heq
  obtain ⟨ha₁, hblockReturn, -⟩ := intern_eq_ok hi hs hintern
  obtain ⟨_, _, hget, heq⟩ := bind_eq_ok.mp heq
  cases hget
  have hclass : ∀ k, Sane i₁ (i₁.kernelClass k) := fun k =>
    ha₁.intact.held _ (i₁.kernelClass_mem_values k)
  obtain ⟨symbols, i₂, hinternAll, heq⟩ := bind_eq_ok.mp heq
  obtain ⟨ha₂, hsymbols, -⟩ := internAll_eq_ok ha₁.intact ha₁.spelled hinternAll
  obtain ⟨trueObject, i₃, htrue, heq⟩ := bind_eq_ok.mp heq
  obtain ⟨ha₃, htrue⟩ := Adds.of_ok (fun _ => False) [i₁.kernelClass .trueClass]
    (allocatePointers_adds (by simp) _) ha₂.intact ha₂.spelled
    (by simpa using ha₂.sane (hclass .trueClass)) htrue
  obtain ⟨falseObject, i₄, hfalse, heq⟩ := bind_eq_ok.mp heq
  obtain ⟨ha₄, hfalse⟩ := Adds.of_ok (fun _ => False) [i₁.kernelClass .falseClass]
    (allocatePointers_adds (by simp) _) ha₃.intact ha₃.spelled
    (by simpa using ha₃.sane (ha₂.sane (hclass .falseClass))) hfalse
  obtain ⟨globals, i₅, hmade, heq⟩ := bind_eq_ok.mp heq
  have hdictionary : Sane i₄ (i₁.kernelClass .dictionary) :=
    ha₄.sane (ha₃.sane (ha₂.sane (hclass .dictionary)))
  obtain ⟨ha₅, hglobals⟩ := Adds.of_ok (fun _ => False) [i₁.kernelClass .dictionary]
    (newDictionary_adds (by simp) _) ha₄.intact ha₄.spelled (by simpa using hdictionary) hmade
  obtain ⟨heap, hmade', rfl⟩ := onHeap_eq_ok.mp hmade
  obtain ⟨hfiles, hnew⟩ := Heap.newDictionary_empty ha₄.intact.whole hdictionary (by decide)
    (by decide) hmade'
  have ha := ha₁.trans (ha₂.trans (ha₃.trans (ha₄.trans ha₅)))
  obtain rfl := modify_eq_ok.mp heq
  have hobjects : i₄.known ++ ([trueObject, falseObject, globals, blockReturn] ++ symbols) =
      (KernelClass.all.map cls).toArray ++
        ([trueObject, falseObject, globals, blockReturn] ++ symbols) := by
    rw [← hknown]
    exact congrArg (· ++ _) ha.known
  rw [hobjects]
  have hknown' : ∀ k : KernelClass, ((KernelClass.all.map cls).toArray ++
      ([trueObject, falseObject, globals, blockReturn] ++ symbols)).getD k.index .nil = cls k :=
    KernelClass.getD_index cls _
  -- Everything that was made for the image is there when it comes to know it.
  have hsane : ∀ v ∈ (KernelClass.all.map cls).toArray ++
      ([trueObject, falseObject, globals, blockReturn] ++ symbols),
      Sane { i₄ with heap } v := by
    intro v hv
    rw [← Array.mem_toList_iff, Array.toList_appendList, List.mem_append, List.mem_append] at hv
    rcases hv with hv | hv | hv
    · rw [← hknown] at hv
      exact ha.sane (hi.held v (List.mem_cons_of_mem _ (List.mem_append_right _ hv)))
    · simp only [List.mem_cons, List.not_mem_nil, or_false] at hv
      rcases hv with rfl | rfl | rfl | rfl
      · exact ha₅.sane (ha₄.sane (htrue _ (by simp)))
      · exact ha₅.sane (hfalse _ (by simp))
      · exact hglobals _ (by simp)
      · exact ha₅.sane (ha₄.sane (ha₃.sane (ha₂.sane hblockReturn)))
    · exact ha₅.sane (ha₄.sane (ha₃.sane (hsymbols v hv)))
  refine ⟨⟨[⟨⟨globals, []⟩, List.replicate Heap.globalBuckets []⟩], know_intact ha.intact _ hsane,
    ha.spelled, ⟨ha.intact.whole, by simpa using hfiles, by simp⟩,
    ⟨_, List.mem_singleton_self _, ?_⟩, by simp, fun w hw => ?_, by simp, by simp, by simp,
    fun w hw => ?_, by simp, by simp⟩, ha.heap, hknown'⟩
  · simp [Image.globals, Image.get, Array.getD_eq_getD_getElem?, KernelClass.all, Known.index]
  · obtain ⟨k, -, hw⟩ := List.mem_flatMap.mp hw
    exact (hwired k w hw).frame ha.heap.toExtends id
  · obtain ⟨k, -, hw⟩ := List.mem_flatMap.mp hw
    refine List.forall_mem_singleton.mpr fun hpart => hnew ?_
    obtain rfl : w.object = globals := by simpa [Filing.parts, Filing.entries] using hpart
    exact ha₄.sane (ha₃.sane (ha₂.sane (ha₁.sane (hwired k w hw).sane)))

/-- When the kernel classes are furnished, all of them are wired, and there are globals. -/
theorem makeKernel_eq_ok (hi : Intact i) (hs : i.Spelled) (heq : makeKernel i = .ok () i') :
    ∃ cls metaOf i₁ ts, KernelClass.Distinct cls metaOf ∧
      i₁.Registers (KernelClass.all.flatMap (KernelClass.wirings cls metaOf)) [] ts ∧
      (∀ k, i₁.kernelClass k = cls k) ∧ furnishKernel KernelClass.all i₁ = .ok () i' := by
  rw [makeKernel_eq] at heq
  obtain ⟨pairs, i₁, hpairs, heq⟩ := bind_eq_ok.mp heq
  obtain ⟨cls, metaOf, rfl, hd, hs₁, hi₁, hcells⟩ := allocatePairs_all hi hs hpairs
  rw [wireKernel_eq] at heq
  obtain ⟨_, i₂, hwire, heq⟩ := bind_eq_ok.mp heq
  obtain ⟨hi₂, hs₂, hknown₂, hwired⟩ := wirePairs_eq_ok hd (List.nil_append _) hi₁ hs₁
    getD_all (by simp) (fun k _ => ⟨⟨_, (hcells k _ (by decide)).1⟩, _, (hcells k _ (by decide)).2⟩)
    hwire
  obtain ⟨_, i₃, hothers, heq⟩ := bind_eq_ok.mp heq
  obtain ⟨⟨ts, hr⟩, -, hknown⟩ := knowOthers_registers hi₂ hs₂ hknown₂ hwired hothers
  obtain ⟨_, i₄, hfurnish, hcheck⟩ := bind_eq_ok.mp heq
  obtain rfl := checkKernel_eq_ok hcheck
  exact ⟨cls, metaOf, i₃, ts, hd, hr, hknown, hfurnish⟩

theorem makeKernel_originates (hi : Intact i) (hs : i.Spelled)
    (heq : makeKernel i = .ok () i') : ∃ cls metaOf os, Originates i' cls metaOf os := by
  obtain ⟨cls, metaOf, i₁, ts, hd, hr, hknown, hfurnish⟩ := makeKernel_eq_ok hi hs heq
  obtain ⟨os, hos, hkeeps⟩ := furnishKernel_keeps hd (List.nil_append _) hr hknown
    (fun k w hw => List.mem_flatMap.mpr ⟨k, k.mem_all, hw⟩) ⟨by simp, by simp, by simp⟩ hfurnish
  refine ⟨cls, metaOf, os, hd, fun k => ?_, hos, hkeeps.1 ▸ hkeeps⟩
  rw [kernelClass, hkeeps.1]
  exact hknown k

theorem blank_intact {settings : HeapSettings} (hblank : blank settings = .ok i) :
    Intact i ∧ i.Spelled := by
  rw [blank] at hblank
  cases hcreate : Heap.create settings with
  | error e => simp [hcreate] at hblank
  | ok heap =>
    rw [hcreate] at hblank
    obtain rfl := Except.ok.inj hblank
    refine ⟨⟨Heap.create_whole hcreate, fun v hv => ?_⟩, fun {name v} hname => ?_⟩
    · obtain rfl : v = .nil := by simpa [values, roots, SymbolTable.roots] using hv
      exact Arenas.sane_nil _
    · simp [SymbolTable.lookup] at hname

theorem boot_eq_ok {settings : HeapSettings} (hboot : boot settings = .ok i) :
    ∃ start i₁, Intact start ∧ start.Spelled ∧ makeKernel start = .ok () i₁ ∧
      installKernel Kernel.methods i₁ = .ok () i := by
  obtain ⟨start, hblank, hboot⟩ := except_bind_eq_ok.mp hboot
  obtain ⟨hi, hs⟩ := blank_intact hblank
  cases hsetUp : setUp start with
  | error e i' => simp [hsetUp, throw, throwThe, MonadExceptOf.throw] at hboot
  | ok u i' =>
    rw [hsetUp] at hboot
    obtain rfl := Except.ok.inj hboot
    obtain ⟨_, i₁, hmake, hinstall⟩ := bind_eq_ok.mp hsetUp
    exact ⟨start, i₁, hi, hs, hmake, hinstall⟩

/-- The kernel classes of a fresh image are on record. -/
theorem boot_originates {settings : HeapSettings} (hboot : boot settings = .ok i) :
    ∃ cls metaOf os, Originates i cls metaOf os := by
  obtain ⟨start, i₁, hi, hs, hmake, hinstall⟩ := boot_eq_ok hboot
  obtain ⟨cls, metaOf, os, horigin⟩ := makeKernel_originates hi hs hmake
  have hend := installKernel_keeps horigin.keeps horigin.known
    (fun k w hw => List.mem_flatMap.mpr ⟨k, k.mem_all, hw⟩) horigin.furnished Kernel.methods
  rw [hinstall] at hend
  have hknown : i.known = i₁.known := hend.1
  refine ⟨cls, metaOf, os, horigin.distinct, fun k => ?_, horigin.furnished, hknown ▸ hend⟩
  rw [kernelClass, hknown]
  exact horigin.known k

end Boot

end Image

end ObjectMachine
