import ObjectMachine.Proofs.Image.Heeding
import ObjectMachine.Proofs.Memory.Checking
import ObjectMachine.Proofs.Memory.Retention

namespace ObjectMachine

namespace Heap

variable {written : Cell → Prop} {t : Track} {h h' : Heap} {v x : Value} {vs : List Value}
  {base : Nat}

def Row (h : Heap) (v : Value) (base : Nat) (vs : List Value) : Prop :=
  ∀ k y, vs[k]? = some y → h.Holds ⟨v, base + k⟩ y

/-- What an activation of a method or a block takes from it, with the first of the constants. -/
structure Embodies (h : Heap) (v : Value) (tm : CodeTemplate) (constants : List Value) : Prop where
  bytecode : ∃ bytes, h.Holds ⟨v, Slot.Code.bytecode⟩ bytes ∧ h.Spells bytes tm.bytecode
  literals : ∃ table, h.Holds ⟨v, Slot.Code.literals⟩ table ∧ h.Row table 0 constants
  args : h.Holds ⟨v, Slot.Code.args⟩ (.ofNat tm.args)
  temps : h.Holds ⟨v, Slot.Code.temps⟩ (.ofNat tm.temps)
  heapVars : h.Holds ⟨v, Slot.Code.heapVars⟩ (.ofNat tm.heapVars)
  stack : h.Holds ⟨v, Slot.Code.stack⟩ (.ofNat tm.stack)

structure Hosts (h : Heap) (context : Value) (code : Array UInt8) (constants : List Value) :
    Prop where
  frame : ∃ method table bytes, h.Holds ⟨context, Slot.Context.method⟩ method ∧
    h.Holds ⟨method, Slot.Code.literals⟩ table ∧ h.Holds ⟨method, Slot.Code.bytecode⟩ bytes ∧
    h.Spells bytes code ∧ h.Row table 0 constants

theorem Holds.before (hc : h.Holds ⟨v, base⟩ x) (whole : h.Whole) {k : Nat} (hk : k ≤ base) :
    ∃ y, h.Holds ⟨v, k⟩ y := by
  obtain ⟨slots, hshows, hx⟩ := hc.shows whole
  have hlt := (List.getElem?_eq_some_iff.mp hx).1
  exact ⟨_, hshows.holds whole (List.getElem?_eq_getElem (hk.trans_lt hlt))⟩

/-- Every reference that is not stale leads to an object with a class. -/
theorem Whole.exists_isa (whole : h.Whole) (hv : h.arenas.Sane v) (hreference : v.isReference) :
    ∃ c, h.isa v = .ok c := by
  obtain ⟨loc, hloc⟩ := Value.isReference_iff.mp hreference
  obtain ⟨header, hh, -⟩ := whole.sound.laid.object (hv.allocated hloc)
  refine ⟨header.isa, ?_⟩
  simp only [isa, Heap.header, locate, hloc, bind, Except.bind, hh, pure, Except.pure]

theorem Embodies.codeShape {tm : CodeTemplate} {constants : List Value}
    (he : h.Embodies v tm constants)
    (hsmall : tm.args + tm.temps + tm.heapVars + tm.stack < 0x1000000000000000) :
    h.codeShape v = .ok ⟨tm.args, tm.temps, tm.heapVars, tm.stack⟩ := by
  have hcount : ∀ {k n : Nat}, n < 0x1000000000000000 → h.Holds ⟨v, k⟩ (.ofNat n) →
      h.count v k = .ok n := by
    intro k n hn hc
    have hslot : h.slot v k = .ok (.ofNat n) := hc.slot
    simp [Heap.count, hslot, Value.toNat?_ofNat hn, bind, Except.bind, pure, Except.pure]
  simp [Heap.codeShape, hcount (by omega) he.args, hcount (by omega) he.temps,
    hcount (by omega) he.heapVars, hcount (by omega) he.stack, bind, Except.bind, pure, Except.pure]

theorem Row.get (hr : h.Row v base vs) {k : Nat} {y : Value} (hy : vs[k]? = some y) :
    h.Holds ⟨v, base + k⟩ y := hr k y hy

theorem row_nil : h.Row v base [] := fun _ _ hy => by simp at hy

theorem row_append {l r : List Value} : h.Row v base (l ++ r) ↔
    h.Row v base l ∧ h.Row v (base + l.length) r := by
  constructor
  · intro hr
    refine ⟨fun k y hy => hr k y ?_, fun k y hy => ?_⟩
    · rw [List.getElem?_append_left (List.getElem?_eq_some_iff.mp hy).1, hy]
    · rw [Nat.add_assoc]
      exact hr _ y (by rw [List.getElem?_append_right (by omega), Nat.add_sub_cancel_left, hy])
  · rintro ⟨hleft, hright⟩ k y hy
    by_cases hk : k < l.length
    · exact hleft k y (by rwa [List.getElem?_append_left hk] at hy)
    · rw [List.getElem?_append_right (by omega)] at hy
      have := hright _ y hy
      rwa [Nat.add_assoc, Nat.add_sub_cancel' (by omega)] at this

/-- A row stays where nothing is written to it. -/
theorem Extends.row (he : Extends written h h') (hrow : h.Row v base vs)
    (hfree : ∀ k < vs.length, ¬written ⟨v, base + k⟩) : h'.Row v base vs := fun k y hy =>
  he.kept (hfree k (List.getElem?_eq_some_iff.mp hy).1) (hrow k y hy)

theorem Shows.row (hs : h.Shows v vs) (whole : h.Whole) : h.Row v 0 vs := fun k y hy => by
  rw [Nat.zero_add]
  exact hs.holds whole hy

theorem Bears.embodies {tm : CodeTemplate} {constants : List Value} {bytes table : Value}
    (hb : h.Bears v tm constants bytes table) (whole : h.Whole) : h.Embodies v tm constants := by
  obtain ⟨selector, cls, hshows⟩ := hb.method
  refine ⟨⟨bytes, hshows.holds whole rfl, hb.bytes⟩, ⟨table, hshows.holds whole rfl, ?_⟩,
    hshows.holds whole rfl, hshows.holds whole rfl, hshows.holds whole rfl, hshows.holds whole rfl⟩
  exact hb.table.row whole

theorem row_cons {y : Value} : h.Row v base (y :: vs) ↔
    h.Holds ⟨v, base⟩ y ∧ h.Row v (base + 1) vs := by
  constructor
  · intro hr
    refine ⟨hr 0 y rfl, fun k z hz => ?_⟩
    rw [Nat.add_assoc, Nat.add_comm 1]
    exact hr (k + 1) z hz
  · rintro ⟨hfirst, hrest⟩ k z hz
    cases k with
    | zero =>
      obtain rfl := Option.some.inj hz
      exact hfirst
    | succ k =>
      rw [Nat.add_comm k, ← Nat.add_assoc]
      exact hrest k z hz

namespace Retains

theorem row (hr : Retains written t h h') (hv : t v x)
    (hfree : ∀ k < vs.length, ¬written ⟨v, base + k⟩) (hrow : h.Row v base vs) :
    ∃ ys, List.Forall₂ t vs ys ∧ h'.Row x base ys := by
  induction vs generalizing base with
  | nil => exact ⟨[], .nil, row_nil⟩
  | cons y vs ih =>
    obtain ⟨hfirst, hrest⟩ := row_cons.mp hrow
    obtain ⟨z, hz, hyz⟩ := hr.kept hv hfirst (hfree 0 (Nat.succ_pos _))
    have hlater : ∀ k < vs.length, ¬written ⟨v, base + 1 + k⟩ := by
      intro k hk
      rw [Nat.add_assoc, Nat.add_comm 1]
      exact hfree (k + 1) (Nat.succ_lt_succ hk)
    obtain ⟨ys, hys, hrow'⟩ := ih hlater hrest
    exact ⟨z :: ys, .cons hyz hys, row_cons.mpr ⟨hz, hrow'⟩⟩

/-- A count stays the count that it is. -/
theorem ofNat (hr : Retains written t h h') (hv : t v x) {n : Nat}
    (hc : h.Holds ⟨v, base⟩ (.ofNat n)) (hfree : ¬written ⟨v, base⟩) :
    h'.Holds ⟨x, base⟩ (.ofNat n) := by
  obtain ⟨y, hy, hny⟩ := hr.kept hv hc hfree
  obtain rfl := hr.eq_of_plain hny (Value.address?_ofNat n)
  exact hy

theorem embodies (hr : Retains written t h h') (hv : t v x) (hlow : ∀ u k, k < 3 → ¬written ⟨u, k⟩)
    (hfree : ∀ k, ¬written ⟨v, k⟩) {tm : CodeTemplate} {constants : List Value}
    (hlength : constants.length ≤ 3) (he : h.Embodies v tm constants) :
    ∃ constants', List.Forall₂ t constants constants' ∧ h'.Embodies x tm constants' := by
  obtain ⟨bytes, hbytes, hspells⟩ := he.bytecode
  obtain ⟨table, htable, hrow⟩ := he.literals
  obtain ⟨bytes', hbytes', hbb⟩ := hr.kept hv hbytes (hfree _)
  obtain ⟨table', htable', htt⟩ := hr.kept hv htable (hfree _)
  obtain ⟨constants', hcc, hrow'⟩ := hr.row htt (fun k hk => hlow _ _ (by omega)) hrow
  exact ⟨constants', hcc, ⟨bytes', hbytes', hr.spells hbb hspells⟩, ⟨table', htable', hrow'⟩,
    hr.ofNat hv he.args (hfree _), hr.ofNat hv he.temps (hfree _),
    hr.ofNat hv he.heapVars (hfree _), hr.ofNat hv he.stack (hfree _)⟩

/-- Only cells from the third on may have been written to. -/
theorem hosts (hr : Retains written t h h') (hv : t v x) (hlow : ∀ u k, k < 3 → ¬written ⟨u, k⟩)
    {code : Array UInt8} {constants : List Value} (hlength : constants.length ≤ 3)
    (hh : h.Hosts v code constants) :
    ∃ constants', List.Forall₂ t constants constants' ∧ h'.Hosts x code constants' := by
  obtain ⟨method, table, bytes, hmethod, htable, hbytes, hspells, hrow⟩ := hh.frame
  obtain ⟨method', hmethod', hmm⟩ := hr.kept hv hmethod (hlow _ _ (by decide))
  obtain ⟨table', htable', htt⟩ := hr.kept hmm htable (hlow _ _ (by decide))
  obtain ⟨bytes', hbytes', hbb⟩ := hr.kept hmm hbytes (hlow _ _ (by decide))
  obtain ⟨constants', hcc, hrow'⟩ := hr.row htt (fun k hk => hlow _ _ (by omega)) hrow
  exact ⟨constants', hcc, method', table', bytes', hmethod', htable', hbytes',
    hr.spells hbb hspells, hrow'⟩

end Retains

/-- Nothing became anything else where nothing moved. -/
theorem eq_of_still {xs ys : List Value} (hxy : List.Forall₂ (Track.still h) xs ys) : ys = xs := by
  induction hxy with
  | nil => rfl
  | cons hx _ ih => rw [hx.1, ih]

theorem Builds.embodies (hb : Builds written h h') (whole : h.Whole)
    (hlow : ∀ u k, k < 3 → ¬written ⟨u, k⟩) (hfree : ∀ k, ¬written ⟨v, k⟩) {tm : CodeTemplate}
    {constants : List Value} (hlength : constants.length ≤ 3) (he : h.Embodies v tm constants) :
    h'.Embodies v tm constants := by
  obtain ⟨constants', hcc, he'⟩ :=
    (hb.retains whole).embodies ⟨rfl, he.args.sane⟩ hlow hfree hlength he
  exact eq_of_still hcc ▸ he'

theorem Embodies.hosts {context : Value} {tm : CodeTemplate} {constants : List Value}
    (he : h.Embodies v tm constants) (hc : h.Holds ⟨context, Slot.Context.method⟩ v) :
    h.Hosts context tm.bytecode constants := by
  obtain ⟨bytes, hbytes, hspells⟩ := he.bytecode
  obtain ⟨table, htable, hrow⟩ := he.literals
  exact ⟨v, table, bytes, hc, htable, hbytes, hspells, hrow⟩

end Heap

namespace Image

variable {written written' : Cell → Prop} {t t' : Track} {i i' i'' : Image} {v x : Value}
  {k : KernelClass} {j : Nat}

/-- The objects that the image knows by itself are among those that are retained. -/
structure Retains (written : Cell → Prop) (t : Track) (i i' : Image) : Prop where
  heap : i.heap.Retains written t i'.heap
  known : ∀ k, t (i.get k) (i'.get k)

structure Suspends (i : Image) (c : Value) (code : Array UInt8) (constants : List Value)
    (pc : Nat) (registers : List Value) : Prop where
  context : i.Instance .context c
  hosts : i.heap.Hosts c code constants
  position : i.heap.Holds ⟨c, Slot.Context.pc⟩ (.ofNat pc)
  registers : i.heap.Row c Slot.Context.registers registers

/-- A cell of a context or a process that changes in passing. -/
structure Transient (i : Image) (c : Cell) : Prop where
  index : 3 ≤ c.index
  object : ¬i.Inert c.object

structure Provides (i : Image) (k : KernelClass) (selector : Value) (tm : CodeTemplate)
    (constants : List Value) : Prop where
  method : ∃ method, i.heap.Finds i.Inert selector (i.kernelClass k) method ∧ i.Inert method ∧
    i.heap.Embodies method tm constants

structure Closure (i : Image) (v : Value) (tm : CodeTemplate) : Prop where
  block : i.Instance .block v
  embodies : i.heap.Embodies v tm []
  fields : ∃ home, i.heap.Holds ⟨v, Slot.Block.home⟩ home

theorem Instance.inert (hv : i.Instance k v) (hkinds : Function.Injective i.kernelClass)
    (hcontext : k ≠ .context) (hprocess : k ≠ .process) : i.Inert v :=
  ⟨fun h => hv.ne hkinds h hcontext rfl, fun h => hv.ne hkinds h hprocess rfl⟩

theorem Transient.low (hk : j < 3) : ¬i.Transient ⟨v, j⟩ := fun h => Nat.not_le.mpr hk h.index

theorem Transient.inert (hv : i.Inert v) : ¬i.Transient ⟨v, j⟩ := fun h => h.object hv

theorem isReference_of_sane {h : Heap} (hv : h.arenas.Sane v) :
    v.isReference = (!v.isNil && !v.isInteger) := by
  rcases hv with hnil | hint | ⟨loc, hloc, -⟩
  · obtain rfl := Value.eq_nil_of_isNil hnil
    rfl
  · rw [Value.isReference, beq_iff_eq.mp hint, hint]
    simp
  · have hreference : v.isReference = true := Value.isReference_iff.mpr ⟨loc, hloc⟩
    rw [hreference]
    simp only [Value.isReference, Bool.and_eq_true, bne_iff_ne, beq_iff_eq] at hreference
    simp [Value.isNil, Value.isInteger, hreference]

namespace Retains

theorem kernelClass (hr : Retains written t i i') (k : KernelClass) :
    t (i.kernelClass k) (i'.kernelClass k) := hr.known (.kernelClass k)

theorem mono {w : Cell → Prop} (hr : Retains written t i i') (hw : ∀ {c}, written c → w c) :
    Retains w t i i' := ⟨hr.heap.mono hw, hr.known⟩

theorem after (hr : Retains written t i i') (hr' : Retains written' t' i' i'')
    (hw : ∀ {v x k}, t v x → written' ⟨x, k⟩ → written ⟨v, k⟩) :
    Retains written (t'.after t) i i'' :=
  ⟨hr.heap.after hr'.heap hw, fun k => ⟨_, hr.known k, hr'.known k⟩⟩

theorem isReference (hr : Retains written t i i') (hv : t v x) :
    x.isReference = v.isReference := by
  obtain ⟨hsane, hsane'⟩ := hr.heap.sane hv
  rw [isReference_of_sane hsane, isReference_of_sane hsane', hr.heap.isNil hv, hr.heap.isInteger hv]

/-- Objects are of the classes that they were of. -/
theorem instance_iff (hr : Retains written t i i') (whole : i.heap.Whole) (hv : t v x) :
    i'.Instance k x ↔ i.Instance k v := by
  obtain ⟨hsane, hsane'⟩ := hr.heap.sane hv
  have hreference := hr.isReference hv
  constructor
  · intro h
    have hv' : v.isReference := hreference ▸ h.reference
    obtain ⟨c, hc⟩ := whole.exists_isa hsane hv'
    obtain ⟨d, hd, hcd⟩ := hr.heap.isa hv hc
    have hclass := h.classOf
    rw [classOf_of_reference h.reference, hd] at hclass
    obtain rfl := Except.ok.inj hclass
    refine ⟨hsane, hv', ?_⟩
    rw [classOf_of_reference hv', hc, hr.heap.injective hcd (hr.kernelClass k)]
  · intro h
    have hclass := h.classOf
    rw [classOf_of_reference h.reference] at hclass
    obtain ⟨d, hd, hcd⟩ := hr.heap.isa hv hclass
    refine ⟨hsane', hreference ▸ h.reference, ?_⟩
    rw [classOf_of_reference (hreference ▸ h.reference), hd,
      hr.heap.unique hcd (hr.kernelClass k)]

theorem inert (hr : Retains written t i i') (whole : i.heap.Whole) (hv : t v x)
    (h : i.Inert v) : i'.Inert x :=
  ⟨fun hc => h.context ((hr.instance_iff whole hv).mp hc),
    fun hp => h.process ((hr.instance_iff whole hv).mp hp)⟩

/-- The classes that the image knows stay apart. -/
theorem kinds (hr : Retains written t i i') (h : Function.Injective i.kernelClass) :
    Function.Injective i'.kernelClass := fun k k' heq =>
  h (hr.heap.injective (hr.kernelClass k) (heq ▸ hr.kernelClass k'))

/-- An activation waits where it waited, unless its position or a register was written to. -/
theorem suspends (hr : Retains written t i i') (whole : i.heap.Whole) (hv : t v x)
    (hlow : ∀ u k, k < 3 → ¬written ⟨u, k⟩) (hfree : ∀ k, ¬written ⟨v, k⟩) {code : Array UInt8}
    {constants registers : List Value} {pc : Nat} (hlength : constants.length ≤ 3)
    (hs : i.Suspends v code constants pc registers) :
    ∃ constants' registers', List.Forall₂ t constants constants' ∧
      List.Forall₂ t registers registers' ∧ i'.Suspends x code constants' pc registers' := by
  obtain ⟨constants', hcc, hhosts⟩ := hr.heap.hosts hv hlow hlength hs.hosts
  obtain ⟨registers', hrr, hrow⟩ := hr.heap.row hv (fun k _ => hfree _) hs.registers
  exact ⟨constants', registers', hcc, hrr, (hr.instance_iff whole hv).mpr hs.context, hhosts,
    hr.heap.ofNat hv hs.position (hfree _), hrow⟩

theorem transient (hr : Retains written t i i') (whole : i.heap.Whole) (hv : t v x)
    (h : i'.Transient ⟨x, j⟩) : i.Transient ⟨v, j⟩ :=
  ⟨h.index, fun hinert => h.object (hr.inert whole hv hinert)⟩

/-- Two spans in which nothing changes but in passing are one such span. -/
theorem trans (hr : Retains i.Transient t i i') (whole : i.heap.Whole)
    (hr' : Retains i'.Transient t' i' i'') : Retains i.Transient (t'.after t) i i'' :=
  hr.after hr' fun hv h => hr.transient whole hv h

section Transient

variable (hr : Retains i.Transient t i i') (whole : i.heap.Whole)
include hr whole

theorem provides {selector selector' : Value} {tm : CodeTemplate} {constants : List Value}
    (hselector : t selector selector') (hlength : constants.length ≤ 3)
    (h : i.Provides k selector tm constants) :
    ∃ constants', List.Forall₂ t constants constants' ∧
      i'.Provides k selector' tm constants' := by
  obtain ⟨method, hfinds, hinert, he⟩ := h.method
  obtain ⟨method', hfinds', hmm⟩ := hr.heap.finds whole (fun _ _ => Transient.low)
    (fun _ hd _ => Transient.inert hd) (fun _ _ hd => hr.inert whole hd) (hr.kernelClass k)
    hselector hfinds
  obtain ⟨constants', hcc, he'⟩ := hr.heap.embodies hmm (fun _ _ => Transient.low)
    (fun _ => Transient.inert hinert) hlength he
  exact ⟨constants', hcc, method', hfinds', hr.inert whole hmm hinert, he'⟩

theorem closure (hkinds : Function.Injective i.kernelClass) {tm : CodeTemplate} (hv : t v x)
    (h : i.Closure v tm) : i'.Closure x tm := by
  have hinert := h.block.inert hkinds (by decide) (by decide)
  have hfree : ∀ j, ¬i.Transient ⟨v, j⟩ := fun _ => Transient.inert hinert
  obtain ⟨home, hhome⟩ := h.fields
  obtain ⟨home', hhome', -⟩ := hr.heap.kept hv hhome (hfree _)
  obtain ⟨_, hnil, he⟩ := hr.heap.embodies hv (fun _ _ => Transient.low) hfree
    (Nat.zero_le _) h.embodies
  cases hnil
  exact ⟨(hr.instance_iff whole hv).mpr h.block, he, home', hhome'⟩

end Transient

end Retains

end Image

end ObjectMachine
