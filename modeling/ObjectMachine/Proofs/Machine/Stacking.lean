import ObjectMachine.Proofs.Code.WellFormed
import ObjectMachine.Proofs.Machine.Unwinding
import ObjectMachine.Proofs.Object.Dictionaries

namespace ObjectMachine

structure Image.Instance (i : Image) (k : KernelClass) (v : Value) : Prop where
  sane : i.heap.arenas.Sane v
  reference : v.isReference
  classOf : i.classOf v = .ok (i.kernelClass k)

def Heap.Legible (h : Heap) (v : Value) : Prop := v.isNil ∨ ∃ content, h.Spells v content

def Heap.Room (h : Heap) (v : Value) (count : Nat) : Prop := ∀ k < count, ∃ x, h.Holds ⟨v, k⟩ x

structure Image.Named (i : Image) (v cls : Value) : Prop where
  sane : i.heap.arenas.Sane v
  classOf : i.classOf v = .ok cls
  name : ∃ name, i.heap.Holds ⟨cls, Slot.Class.name⟩ name ∧ i.heap.Legible name
  plain : ¬i.Instance .array cls

/-- Code, with what it hands over when its context is unwound. It is runnable, as all compiled code
is, and the heap variables that it names are there. -/
inductive Image.Runs (i : Image) (f : StackFrame) (t : CodeTemplate) : Prop where
  | method {outer : Nat} : t.Runnable outer → i.Instance .method f.code → f.chained = [] →
    i.Runs f t
  | block {outer : Nat} : t.Runnable outer → i.Instance .block f.code →
    f.chained = leadingPromotes t.items → i.heap.Room f.mine t.heapVars →
    i.heap.Room f.theirs outer → i.Runs f t

structure Image.Activates (i : Image) (f : StackFrame) : Prop where
  context : i.Instance .context f.context
  pc : ∃ x, i.heap.Holds ⟨f.context, Slot.Context.pc⟩ x
  receiver : ∃ v cls, i.heap.Holds ⟨f.context, Slot.Context.receiver⟩ v ∧ i.Named v cls
  code : i.heap.Holds ⟨f.context, Slot.Context.method⟩ f.code
  mine : i.heap.Holds ⟨f.context, Slot.Context.heapVars⟩ f.mine
  theirs : i.heap.Holds ⟨f.context, Slot.Context.parentHeapVars⟩ f.theirs
  arrays : ∀ v ∈ [f.mine, f.theirs], v = .nil ∨ i.Instance .array v
  selector : ∃ s, i.heap.Holds ⟨f.code, Slot.Code.selector⟩ s ∧ i.heap.Legible s
  literals : ∃ x, i.heap.Holds ⟨f.code, Slot.Code.literals⟩ x
  bytecode : ∃ bytes t, i.heap.Holds ⟨f.code, Slot.Code.bytecode⟩ bytes ∧
    i.heap.Spells bytes t.bytecode ∧ i.Runs f t

inductive Image.Stack (i : Image) : Value → List StackFrame → Prop where
  | nil : Stack i .nil []
  | cons {f : StackFrame} {caller : Value} {frames : List StackFrame} : i.Activates f →
    i.heap.Holds ⟨f.context, Slot.Context.previous⟩ caller → Stack i caller frames →
    Stack i f.context (f :: frames)

namespace Image

variable {i : Image} {heap : Heap} {f g : StackFrame} {frames : List StackFrame} {v w : Value}
  {k k' : KernelClass} {ended : List Value} {copies : List (Cell × Cell)}

/-- Numbers that stand for the classes tell them apart. -/
theorem kinds_of_indices
    (hindex : ∀ k ∈ KernelClass.all, (i.kernelClass k).toNat? = some k.index) :
    Function.Injective i.kernelClass := by
  have hall : ∀ k : KernelClass, KernelClass.all[k.index]? = some k := by
    intro k
    cases k <;> rfl
  intro k k' h
  have hsame : k.index = k'.index :=
    Option.some.inj ((hindex k (List.mem_of_getElem? (hall k))).symm.trans
      ((congrArg Value.toNat? h).trans (hindex k' (List.mem_of_getElem? (hall k')))))
  exact Option.some.inj ((hall k).symm.trans (hsame ▸ hall k'))

theorem Instance.ne (hkinds : Function.Injective i.kernelClass) (hv : i.Instance k v)
    (hw : i.Instance k' w) (hk : k ≠ k') : v ≠ w := by
  rintro rfl
  exact hk (hkinds (Except.ok.inj (hv.classOf.symm.trans hw.classOf)))

theorem Instance.not_nil (hv : i.Instance k v) : v ≠ .nil := by
  rintro rfl
  exact absurd hv.reference (by decide)

theorem classOf_deliver (hd : Heap.Delivers i.heap heap ended copies)
    (hv : i.heap.arenas.Sane v) : classOf { i with heap } v = i.classOf v := by
  simp only [classOf, Heap.isa, hd.header hv]
  rfl

theorem Instance.deliver (hv : i.Instance k v) (hd : Heap.Delivers i.heap heap ended copies) :
    Instance { i with heap } k v :=
  ⟨hd.sane hv.sane, hv.reference, (classOf_deliver hd hv.sane).trans hv.classOf⟩

theorem exists_classOf (whole : i.heap.Whole) (hv : i.heap.arenas.Sane v) :
    ∃ cls, i.classOf v = .ok cls := by
  rw [classOf]
  split
  · exact ⟨_, rfl⟩
  · split
    · exact ⟨_, rfl⟩
    · obtain ⟨loc, hloc, hl⟩ := (hv.resolve_left ‹_›).resolve_left ‹_›
      obtain ⟨header, hh, -⟩ := whole.sound.laid.object hl
      refine ⟨header.isa, ?_⟩
      simp only [Heap.isa, Heap.header, Heap.locate, hloc, hh, bind, Except.bind, pure, Except.pure]

theorem Legible.deliver (hv : i.heap.Legible v) (hd : Heap.Delivers i.heap heap ended copies) :
    heap.Legible v := hv.imp_right fun ⟨content, hs⟩ => ⟨content, hd.spells hs⟩

/-- A delivery that writes to no other cells than positions of contexts and slots of arrays. -/
structure Confined (i : Image) (ended : List Value) (copies : List (Cell × Cell)) : Prop where
  ended : ∀ v ∈ ended, i.Instance .context v
  copies : ∀ copy ∈ copies, i.Instance .array (Prod.snd copy).object

theorem Confined.kept (ho : i.Confined ended copies) (hd : Heap.Delivers i.heap heap ended copies)
    {index : Nat} {x : Value} (hindex : index ≠ Slot.Context.pc) (hv : ¬i.Instance .array v)
    (hx : i.heap.Holds ⟨v, index⟩ x) : heap.Holds ⟨v, index⟩ x := by
  refine hd.untouched (fun _ _ heq => hindex (congrArg Cell.index heq))
    (fun copy hcopy heq => ?_) hx
  have hcopied := ho.copies copy hcopy
  rw [heq] at hcopied
  exact hv hcopied

theorem persists (hd : Heap.Delivers i.heap heap ended copies) {c : Cell}
    (hc : ∃ x, i.heap.Holds c x) : ∃ x, heap.Holds c x := by
  obtain ⟨x, hx⟩ := hc
  obtain ⟨loc, header, hloc, hh, hkind, hindex, -⟩ := Heap.slot_eq_ok hx.slot
  have hheader := hd.header hx.sane
  simp only [Heap.header, Heap.locate, hloc, bind, Except.bind, hh] at hheader
  have hsane := hd.sane hx.sane
  obtain ⟨y, hy⟩ := hd.whole.sound.exists_slot hloc (hsane.allocated hloc) hheader hkind hindex
  exact ⟨y, hsane, hy⟩

theorem Runs.deliver {t : CodeTemplate} (hf : i.Runs f t)
    (hd : Heap.Delivers i.heap heap ended copies) : Runs { i with heap } f t := by
  have hroom : ∀ {v count}, i.heap.Room v count → heap.Room v count :=
    fun hv k hk => persists hd (hv k hk)
  cases hf with
  | method hrunnable hcode hchained => exact .method hrunnable (hcode.deliver hd) hchained
  | block hrunnable hcode hchained hmine htheirs =>
    exact .block hrunnable (hcode.deliver hd) hchained (hroom hmine) (hroom htheirs)

theorem Runs.not_array {t : CodeTemplate} (hkinds : Function.Injective i.kernelClass)
    (hf : i.Runs f t) : ¬i.Instance .array f.code := by
  intro harray
  cases hf with
  | method _ hcode _ => exact hcode.ne hkinds harray (by decide) rfl
  | block _ hcode _ _ _ => exact hcode.ne hkinds harray (by decide) rfl

theorem Named.deliver {cls : Value} (hv : i.Named v cls)
    (hd : Heap.Delivers i.heap heap ended copies) (ho : i.Confined ended copies) :
    Named { i with heap } v cls := by
  obtain ⟨name, hname, htext⟩ := hv.name
  refine ⟨hd.sane hv.sane, (classOf_deliver hd hv.sane).trans hv.classOf,
    ⟨name, ho.kept hd (by decide) hv.plain hname, Legible.deliver htext hd⟩, fun harray => ?_⟩
  exact hv.plain ⟨hname.sane, harray.reference,
    (classOf_deliver hd hname.sane).symm.trans harray.classOf⟩

/-- Frames stay what they are while others hand over their variables and end. -/
theorem Activates.deliver (hkinds : Function.Injective i.kernelClass) (hf : i.Activates f)
    (hd : Heap.Delivers i.heap heap ended copies) (ho : i.Confined ended copies) :
    Activates { i with heap } f := by
  obtain ⟨bytes, t, hbytes, hspells, hruns⟩ := hf.bytecode
  obtain ⟨v, cls, hreceiver, hnamed⟩ := hf.receiver
  obtain ⟨s, hselector, htext⟩ := hf.selector
  have hcode := hruns.not_array hkinds
  have hcontext : ¬i.Instance .array f.context := fun harray =>
    hf.context.ne hkinds harray (by decide) rfl
  exact {
    context := hf.context.deliver hd
    pc := persists hd hf.pc
    receiver := ⟨v, cls, ho.kept hd (by decide) hcontext hreceiver, hnamed.deliver hd ho⟩
    code := ho.kept hd (by decide) hcontext hf.code
    mine := ho.kept hd (by decide) hcontext hf.mine
    theirs := ho.kept hd (by decide) hcontext hf.theirs
    arrays := fun v hv => (hf.arrays v hv).imp_right fun harray => harray.deliver hd
    selector := ⟨s, ho.kept hd (by decide) hcode hselector, Legible.deliver htext hd⟩
    literals := persists hd hf.literals
    bytecode := ⟨bytes, t, ho.kept hd (by decide) hcode hbytes, hd.spells hspells,
      hruns.deliver hd⟩ }

theorem Stack.deliver (hkinds : Function.Injective i.kernelClass) (hs : i.Stack v frames)
    (hd : Heap.Delivers i.heap heap ended copies) (ho : i.Confined ended copies) :
    Stack { i with heap } v frames := by
  induction hs with
  | nil => exact .nil
  | cons hf hcaller _ ih =>
    refine .cons (hf.deliver hkinds hd ho) (ho.kept hd (by decide) (fun harray => ?_) hcaller) ih
    exact hf.context.ne hkinds harray (by decide) rfl

section Tracing

theorem exists_text (hv : i.heap.Legible v) (hsome : ¬v.isNil) :
    ∃ text, i.heap.text v = .ok text := by
  obtain ⟨content, hs⟩ := hv.resolve_left hsome
  exact ⟨_, by simp only [Heap.text, hs.2, bind, Except.bind, pure, Except.pure]; rfl⟩

theorem Named.className {cls : Value} (hv : i.Named v cls) :
    ∃ text, i.heap.className cls = .ok text := by
  obtain ⟨name, hname, htext⟩ := hv.name
  simp only [Heap.className, hname.slot, bind, Except.bind]
  split
  · exact ⟨_, rfl⟩
  · exact exists_text htext ‹_›

/-- Every frame can be told in a trace. -/
theorem Activates.frameText (hf : i.Activates f) : ∃ text, i.frameText f.context = .ok text := by
  obtain ⟨v, cls, hreceiver, hnamed⟩ := hf.receiver
  obtain ⟨name, hname⟩ := hnamed.className
  obtain ⟨s, hselector, htext⟩ := hf.selector
  obtain ⟨bytes, t, -, -, hruns⟩ := hf.bytecode
  obtain ⟨kind, hkind⟩ : ∃ kind, i.classOf f.code = .ok kind := by
    cases hruns with
    | method _ hcode _ => exact ⟨_, hcode.classOf⟩
    | block _ hcode _ _ _ => exact ⟨_, hcode.classOf⟩
  by_cases hnil : s.isNil
  · simp only [Image.frameText, hf.code.slot, hreceiver.slot, hnamed.classOf, hname, hselector.slot,
      bind, Except.bind, if_pos hnil, pure, Except.pure, hkind]
    split <;> exact ⟨_, rfl⟩
  · obtain ⟨title, htitle⟩ := exists_text htext hnil
    simp only [Image.frameText, hf.code.slot, hreceiver.slot, hnamed.classOf, hname, hselector.slot,
      bind, Except.bind, if_neg hnil, htitle, hkind]
    split <;> exact ⟨_, rfl⟩

theorem Stack.trace (hs : i.Stack v frames) : ∃ lines, i.trace v = .ok lines := by
  have hlimit : ∀ limit, ∃ lines, i.traceFrom limit v = .ok lines := by
    intro limit
    induction hs generalizing limit with
    | nil => exact ⟨[], by cases limit <;> rfl⟩
    | cons hf hcaller _ ih =>
      cases limit with
      | zero => exact ⟨_, by rw [traceFrom, if_neg hcaller.not_isNil]; rfl⟩
      | succ limit =>
        rw [traceFrom, if_neg hcaller.not_isNil]
        obtain ⟨text, htext⟩ := hf.frameText
        obtain ⟨lines, hlines⟩ := ih limit
        refine ⟨text :: lines, ?_⟩
        simp only [htext, hcaller.slot, hlines, bind, Except.bind, pure, Except.pure]
  exact hlimit _

end Tracing

section Walking

theorem Stack.unique {frames' : List StackFrame} (hs : i.Stack v frames)
    (hs' : i.Stack v frames') : frames.map StackFrame.context = frames'.map StackFrame.context := by
  induction hs generalizing frames' with
  | nil =>
    generalize hv : Value.nil = v at hs'
    cases hs' with
    | nil => rfl
    | cons hf => exact absurd hv.symm hf.context.not_nil
  | @cons f caller frames hf hcaller _ ih =>
    generalize hv : f.context = v at hs'
    cases hs' with
    | nil => exact absurd hv hf.context.not_nil
    | @cons g caller' _ hg hcaller' hs' =>
      rw [hv] at hcaller
      obtain rfl := hcaller.unique hcaller'
      rw [List.map_cons, List.map_cons, hv, ih hs']

theorem Stack.suffix {inner outer : List StackFrame} (hs : i.Stack v (inner ++ outer)) :
    ∃ w, i.Stack w outer := by
  induction inner generalizing v with
  | nil => exact ⟨v, hs⟩
  | cons f inner ih =>
    cases hs with
    | cons _ _ hs => exact ih hs

/-- The caller of a frame, from which the walk goes on. -/
theorem Stack.caller {inner outer : List StackFrame} (hs : i.Stack v (inner ++ f :: outer)) :
    ∃ caller, i.heap.Holds ⟨f.context, Slot.Context.previous⟩ caller ∧ i.Stack caller outer := by
  obtain ⟨w, hs⟩ := hs.suffix
  cases hs with
  | cons _ hcaller hs => exact ⟨_, hcaller, hs⟩

/-- A walk that ends passes no context twice. -/
theorem Stack.nodup (hs : i.Stack v frames) : (frames.map StackFrame.context).Nodup := by
  induction hs with
  | nil => exact .nil
  | @cons f caller frames hf hcaller hs ih =>
    refine List.nodup_cons.mpr ⟨fun hmem => ?_, ih⟩
    obtain ⟨g, hg, hsame⟩ := List.mem_map.mp hmem
    obtain ⟨inner, outer, rfl⟩ := List.append_of_mem hg
    obtain ⟨w, hrest⟩ := hs.suffix
    have hw : w = g.context := by cases hrest; rfl
    rw [hw, hsame] at hrest
    have hlength := congrArg List.length (Stack.unique (.cons hf hcaller hs) hrest)
    simp only [List.map_cons, List.map_append, List.length_cons, List.length_append] at hlength
    omega

theorem Stack.activates (hs : i.Stack v frames) : ∀ f ∈ frames, i.Activates f := by
  induction hs with
  | nil => nofun
  | cons hf _ _ ih => exact List.forall_mem_cons.mpr ⟨hf, ih⟩

theorem Stack.length_lt (hs : i.Stack v frames) (whole : i.heap.Whole) :
    frames.length < i.heap.chainBound + 1 := by
  have hlength := whole.length_le_used hs.nodup fun v hv => by
    obtain ⟨f, hf, rfl⟩ := List.mem_map.mp hv
    exact ⟨_, (hs.activates f hf).pc⟩
  rw [List.length_map] at hlength
  exact Nat.lt_succ_of_le hlength

theorem Stack.chainTo_none (hs : i.Stack v frames) {home : Value} {fuel : Nat} (seen : List Value)
    (hhome : home ∉ frames.map StackFrame.context) (hfuel : frames.length < fuel) :
    Machine.chainTo i.heap home fuel seen v = .ok none := by
  induction hs generalizing fuel seen with
  | nil =>
    obtain ⟨fuel, rfl⟩ := Nat.exists_eq_add_of_lt hfuel
    rfl
  | @cons f caller frames hf hcaller _ ih =>
    obtain ⟨fuel, rfl⟩ := Nat.exists_eq_add_of_lt hfuel
    rw [List.map_cons, List.mem_cons, not_or] at hhome
    have hrest : Machine.chainTo i.heap home ((f :: frames).length + fuel) (f.context :: seen)
        caller = .ok none := ih _ hhome.2 (by simp; omega)
    rw [Machine.chainTo, if_neg hcaller.not_isNil, if_neg (Ne.symm hhome.1), hcaller.slot]
    exact hrest

theorem Stack.chainTo_some {inner outer : List StackFrame} {fuel : Nat} (seen : List Value)
    (hs : i.Stack v (inner ++ f :: outer)) (hfuel : (inner ++ f :: outer).length < fuel) :
    Machine.chainTo i.heap f.context fuel seen v =
      .ok (some (seen.reverse ++ (inner ++ [f]).map StackFrame.context)) := by
  induction inner generalizing v fuel seen with
  | nil =>
    cases hs with
    | cons hf hcaller _ =>
      obtain ⟨fuel, rfl⟩ := Nat.exists_eq_add_of_lt hfuel
      rw [Machine.chainTo, if_neg hcaller.not_isNil, if_pos rfl, List.reverse_cons]
      rfl
  | cons g inner ih =>
    have hnodup := hs.nodup
    cases hs with
    | @cons _ caller _ hg hcaller hrest =>
      obtain ⟨fuel, rfl⟩ := Nat.exists_eq_add_of_lt hfuel
      have hne : g.context ≠ f.context := by
        intro hsame
        refine (List.nodup_cons.mp hnodup).1 ?_
        rw [hsame]
        exact List.mem_map_of_mem (by simp)
      rw [Machine.chainTo, if_neg hcaller.not_isNil, if_neg hne, hcaller.slot]
      refine (ih (g.context :: seen) hrest (by simp; omega)).trans ?_
      simp

end Walking

theorem Activates.stacks (hkinds : Function.Injective i.kernelClass) (hf : i.Activates f) :
    i.Stacks f := by
  refine ⟨hf.code, hf.mine, hf.theirs, ?_⟩
  obtain ⟨bytes, t, hbytes, hspells, hruns⟩ := hf.bytecode
  cases hruns with
  | method _ hcode hchained =>
    rw [hchained]
    exact .method hcode.sane hcode.classOf fun h => absurd (hkinds h) (by decide)
  | block _ hcode hchained _ _ =>
    rw [hchained]
    exact .block hcode.classOf hbytes hspells

theorem mem_leadingPromotes {code : List (Nat × Instruction)} {slots : UInt8 × UInt8}
    (h : slots ∈ leadingPromotes code) : ∃ pc, (pc, .promote slots.1 slots.2) ∈ code := by
  fun_induction leadingPromotes code with
  | case1 pc own parent rest ih =>
    rcases List.mem_cons.mp h with rfl | h
    · exact ⟨pc, .head _⟩
    · obtain ⟨pc', hmem⟩ := ih h
      exact ⟨pc', .tail _ hmem⟩
  | case2 => cases h

/-- The variables that are handed over are there on both sides. -/
theorem Activates.chained (hf : i.Activates f) : ∀ slots ∈ f.chained,
    (∃ x, i.heap.Holds ⟨f.mine, slots.1.toNat⟩ x) ∧
      ∃ x, i.heap.Holds ⟨f.theirs, slots.2.toNat⟩ x := by
  obtain ⟨bytes, t, -, -, hruns⟩ := hf.bytecode
  intro slots hslots
  cases hruns with
  | method _ _ hchained =>
    rw [hchained] at hslots
    cases hslots
  | block hrunnable _ hchained hmine htheirs =>
    rw [hchained] at hslots
    obtain ⟨pc, hmem⟩ := mem_leadingPromotes hslots
    have hfits := hrunnable.fits _ _ hmem
    exact ⟨hmine _ hfits.1, htheirs _ hfits.2⟩

theorem array_of_holds {c : Cell} {x : Value} (hc : i.heap.Holds c x)
    (harray : c.object = .nil ∨ i.Instance .array c.object) : i.Instance .array c.object :=
  harray.resolve_left fun hnil => hc.not_isNil (hnil ▸ rfl)

theorem Activates.targets (hf : i.Activates f) : ∀ copy ∈ f.copies,
    i.Instance .array (Prod.snd copy).object := by
  intro copy hcopy
  obtain ⟨slots, hslots, rfl⟩ := List.mem_map.mp hcopy
  obtain ⟨-, x, hx⟩ := hf.chained slots hslots
  exact array_of_holds hx (hf.arrays f.theirs (by simp))

theorem Activates.not_context (hkinds : Function.Injective i.kernelClass) (hf : i.Activates f)
    (hv : v ∈ [f.mine, f.theirs]) (hg : i.Instance .context w) : v ≠ w := by
  rintro rfl
  rcases hf.arrays v hv with rfl | harray
  · exact hg.not_nil rfl
  · exact harray.ne hkinds hg (by decide) rfl

/-- What ends and hands over its variables writes to no more than it may. -/
theorem confined_of_activates (hactivates : ∀ f ∈ frames, i.Activates f) :
    i.Confined (frames.map StackFrame.context) (frames.flatMap StackFrame.copies) := by
  refine ⟨fun v hv => ?_, fun copy hcopy => ?_⟩
  · obtain ⟨f, hf, rfl⟩ := List.mem_map.mp hv
    exact (hactivates f hf).context
  · obtain ⟨f, hf, hcopy⟩ := List.mem_flatMap.mp hcopy
    exact (hactivates f hf).targets copy hcopy

end Image

end ObjectMachine
