import ObjectMachine.Proofs.Machine.Simulation
import ObjectMachine.Proofs.Memory.Cells

namespace ObjectMachine

/-- The cell from which a value comes that is found in a cell after some copies, each from one cell
to another. -/
def origin : List (Cell × Cell) → Cell → Cell
  | [], c => c
  | (source, target) :: rest, c =>
    if origin rest c = target then source else origin rest c

section Origin

variable {copies copies' : List (Cell × Cell)} {c : Cell}

theorem origin_append : origin (copies ++ copies') c = origin copies (origin copies' c) := by
  induction copies with
  | nil => rfl
  | cons copy copies ih => rw [List.cons_append, origin, origin, ih]

theorem origin_eq_self (hc : ∀ copy ∈ copies, copy.2 ≠ c) : origin copies c = c := by
  induction copies with
  | nil => rfl
  | cons copy copies ih =>
    rw [origin, ih fun copy hcopy => hc copy (.tail _ hcopy), if_neg (hc copy (.head _)).symm]

theorem origin_mem : origin copies c = c ∨ ∃ copy ∈ copies, origin copies c = copy.1 := by
  induction copies with
  | nil => exact .inl rfl
  | cons copy copies ih =>
    rw [origin]
    split
    · exact .inr ⟨copy, .head _, rfl⟩
    · rcases ih with heq | ⟨copy', hmem, heq⟩
      · exact .inl heq
      · exact .inr ⟨copy', .tail _ hmem, heq⟩

end Origin

def Cell.Lasts (c : Cell) (ended : List Value) : Prop := ∀ v ∈ ended, c ≠ ⟨v, Slot.Context.pc⟩

/-- The memory differs by some copies, made one after the other, and by where ended contexts go
on. -/
structure Heap.Delivers (h h' : Heap) (ended : List Value) (copies : List (Cell × Cell)) :
    Prop where
  whole : h'.Whole
  holds : ∀ {c x}, c.Lasts ended → h.Holds (origin copies c) x → h'.Holds c x
  sources : ∀ copy ∈ copies, ∃ y, h.Holds copy.1 y
  cells : ∀ {c x}, h'.Holds c x → ∃ y, h.Holds c y
  sane : ∀ {v}, h.arenas.Sane v → h'.arenas.Sane v
  header : ∀ {v}, h.arenas.Sane v → h'.header v = h.header v
  spells : ∀ {v content}, h.Spells v content → h'.Spells v content

namespace Heap

variable {h h₁ h₂ : Heap} {ended : List Value} {copies copies' : List (Cell × Cell)} {c d : Cell}
  {x : Value}

theorem Delivers.refl (whole : h.Whole) : Delivers h h ended [] :=
  ⟨whole, fun _ hc => hc, nofun, fun hc => ⟨_, hc⟩, fun hv => hv, fun _ => rfl, fun hs => hs⟩

theorem Rewrites.delivers (hr : Rewrites h h₁ d x) (hc : h.Holds c x) :
    Delivers h h₁ ended [(c, d)] where
  whole := hr.whole
  holds := by
    intro e y _ he
    rw [origin, origin] at he
    split at he
    · rename_i heq
      obtain rfl := hc.unique he
      exact heq ▸ hr.written
    · rename_i hne
      exact hr.others hne he
  sources copy hcopy := ⟨x, List.mem_singleton.mp hcopy ▸ hc⟩
  cells := hr.cells
  sane := hr.grows _
  header := hr.header
  spells := hr.spells

theorem Rewrites.delivers_ended {v : Value} (hr : Rewrites h h₁ ⟨v, Slot.Context.pc⟩ x)
    (hv : v ∈ ended) : Delivers h h₁ ended [] where
  whole := hr.whole
  holds hlasts he := hr.others (hlasts v hv) he
  sources := nofun
  cells := hr.cells
  sane := hr.grows _
  header := hr.header
  spells := hr.spells

theorem Delivers.trans (hd : Delivers h h₁ ended copies) (hd' : Delivers h₁ h₂ ended copies')
    (hlasts : ∀ copy ∈ copies', copy.1.Lasts ended) : Delivers h h₂ ended (copies ++ copies') where
  whole := hd'.whole
  holds := by
    intro c x hc hx
    rw [origin_append] at hx
    refine hd'.holds hc (hd.holds ?_ hx)
    rcases @origin_mem copies' c with heq | ⟨copy, hmem, heq⟩
    · rwa [heq]
    · rw [heq]
      exact hlasts copy hmem
  sources copy hcopy := by
    rcases List.mem_append.mp hcopy with hcopy | hcopy
    · exact hd.sources copy hcopy
    · obtain ⟨_, hc⟩ := hd'.sources copy hcopy
      exact hd.cells hc
  cells hc := by
    obtain ⟨_, hc⟩ := hd'.cells hc
    exact hd.cells hc
  sane hv := hd'.sane (hd.sane hv)
  header hv := (hd'.header (hd.sane hv)).trans (hd.header hv)
  spells hs := hd'.spells (hd.spells hs)

/-- What a cell holds in the end, its origin held in the beginning. -/
theorem Delivers.holds_iff (hd : Delivers h h₁ ended copies) (hlasts : c.Lasts ended) {y : Value}
    (hc : h.Holds c y) : h₁.Holds c x ↔ h.Holds (origin copies c) x := by
  refine ⟨fun hx => ?_, hd.holds hlasts⟩
  have horigin : ∃ z, h.Holds (origin copies c) z := by
    rcases @origin_mem copies c with heq | ⟨copy, hmem, heq⟩
    · rw [heq]
      exact ⟨y, hc⟩
    · rw [heq]
      exact hd.sources copy hmem
  obtain ⟨z, hz⟩ := horigin
  rwa [hx.unique (hd.holds hlasts hz)]

/-- A cell that nothing is copied to. -/
theorem Delivers.untouched (hd : Delivers h h₁ ended copies) (hlasts : c.Lasts ended)
    (hc : ∀ copy ∈ copies, copy.2 ≠ c) (hx : h.Holds c x) : h₁.Holds c x :=
  hd.holds hlasts (by rwa [origin_eq_self hc])

end Heap

/-- The slots of the heap variables that code promotes before it does anything else. -/
def leadingPromotes : List (Nat × Instruction) → List (UInt8 × UInt8)
  | (_, .promote own parent) :: rest => (own, parent) :: leadingPromotes rest
  | _ => []

/-- A context on a stack, with its code, its heap variables and those of its parent, and what it
hands over on its way out. -/
structure StackFrame where
  context : Value
  code : Value
  mine : Value
  theirs : Value
  chained : List (UInt8 × UInt8)

def handedOver (mine theirs : Value) (chained : List (UInt8 × UInt8)) : List (Cell × Cell) :=
  chained.map fun slots => (⟨mine, slots.1.toNat⟩, ⟨theirs, slots.2.toNat⟩)

def StackFrame.copies (f : StackFrame) : List (Cell × Cell) := handedOver f.mine f.theirs f.chained

theorem handedOver_lasts {mine theirs : Value} {chained : List (UInt8 × UInt8)} {ended : List Value}
    (hmine : mine ∉ ended) : ∀ copy ∈ handedOver mine theirs chained, copy.1.Lasts ended := by
  intro copy hcopy v hv heq
  obtain ⟨slots, -, rfl⟩ := List.mem_map.mp hcopy
  have hsame : mine = v := congrArg Cell.object heq
  exact hmine (hsame ▸ hv)

theorem object_of_mem_handedOver {mine theirs : Value} {chained : List (UInt8 × UInt8)}
    {copy : Cell × Cell} (hcopy : copy ∈ handedOver mine theirs chained) :
    copy.2.object = theirs := by
  obtain ⟨slots, -, rfl⟩ := List.mem_map.mp hcopy
  rfl

/-- What code of this kind hands over: blocks what they promote, methods nothing. -/
inductive Image.HandsOver (i : Image) (code : Value) : List (UInt8 × UInt8) → Prop where
  | block {bytecode : Value} {bytes : Array UInt8} :
    i.classOf code = .ok (i.kernelClass .block) →
    i.heap.Holds ⟨code, Slot.Code.bytecode⟩ bytecode → i.heap.Spells bytecode bytes →
    i.HandsOver code (leadingPromotes (Code.decodeAll bytes).1)
  | method {cls : Value} : i.heap.arenas.Sane code → i.classOf code = .ok cls →
    cls ≠ i.kernelClass .block → i.HandsOver code []

structure Image.Stacks (i : Image) (f : StackFrame) : Prop where
  code : i.heap.Holds ⟨f.context, Slot.Context.method⟩ f.code
  mine : i.heap.Holds ⟨f.context, Slot.Context.heapVars⟩ f.mine
  theirs : i.heap.Holds ⟨f.context, Slot.Context.parentHeapVars⟩ f.theirs
  chained : i.HandsOver f.code f.chained

/-- Contexts, code and heap variables are different objects. -/
structure Separate (frames : List StackFrame) : Prop where
  mine : ∀ f ∈ frames, f.mine ∉ frames.map StackFrame.context
  theirs : ∀ f ∈ frames, ∀ g ∈ frames, f.theirs ≠ g.context ∧ f.theirs ≠ g.code
  code : ∀ f ∈ frames, f.code ∉ frames.map StackFrame.context

/-- Frames stay as they are while others hand over their variables. -/
theorem Image.Stacks.deliver {i : Image} {heap : Heap} {f : StackFrame} (hf : i.Stacks f)
    {ended : List Value} {copies : List (Cell × Cell)}
    (hd : Heap.Delivers i.heap heap ended copies)
    (hcopies : ∀ copy ∈ copies, copy.2.object ≠ f.context ∧ copy.2.object ≠ f.code)
    (hcode : f.code ∉ ended) : Image.Stacks { i with heap } f := by
  have hfield : ∀ {index x}, index ≠ Slot.Context.pc → i.heap.Holds ⟨f.context, index⟩ x →
      heap.Holds ⟨f.context, index⟩ x := by
    intro index x hindex hx
    exact hd.untouched (fun v _ heq => hindex (congrArg Cell.index heq))
      (fun copy hcopy heq => (hcopies copy hcopy).1 (congrArg Cell.object heq)) hx
  have hclass : ∀ {cls}, i.heap.arenas.Sane f.code → i.classOf f.code = .ok cls →
      Image.classOf { i with heap } f.code = .ok cls := by
    intro cls hsane hcls
    rw [Image.classOf] at hcls ⊢
    dsimp only
    rw [Heap.isa, hd.header hsane]
    exact hcls
  refine ⟨hfield (by decide) hf.code, hfield (by decide) hf.mine, hfield (by decide) hf.theirs, ?_⟩
  have hchained := hf.chained
  generalize f.chained = chained at hchained
  cases hchained with
  | block hcls hbytecode hbytes =>
    refine .block (hclass hbytecode.sane hcls) (hd.untouched (fun v hv heq => ?_) ?_ hbytecode)
      (hd.spells hbytes)
    · have hsame : f.code = v := congrArg Cell.object heq
      exact hcode (hsame ▸ hv)
    · exact fun copy hcopy heq => (hcopies copy hcopy).2 (congrArg Cell.object heq)
  | method hsane hcls hne => exact .method (hd.sane hsane) (hclass hsane hcls) hne

namespace Machine

variable {m m' : Machine} {f : StackFrame} {ended : List Value}

/-- A write that was made changes one cell. -/
theorem rewrites_of_setSlot {v x : Value} {i : Nat} {u : Unit} (whole : m.image.heap.Whole)
    (hv : m.image.heap.arenas.Sane v) (hx : m.image.heap.arenas.Sane x)
    (heq : setSlot v i x m = .ok u m') : ∃ heap, m' = { m with image := { m.image with heap } } ∧
      Heap.Rewrites m.image.heap heap ⟨v, i⟩ x := by
  obtain ⟨heap, hset, rfl⟩ := setSlot_eq_ok heq
  exact ⟨heap, rfl, whole.rewrites hv hx hset⟩

section Restoring

variable {context mine theirs : Value} {u : Unit}

/-- One variable is handed to the parent. -/
theorem restore_delivers {own parent : UInt8} (whole : m.image.heap.Whole)
    (hmine : m.image.heap.Holds ⟨context, Slot.Context.heapVars⟩ mine)
    (htheirs : m.image.heap.Holds ⟨context, Slot.Context.parentHeapVars⟩ theirs)
    (heq : restore context own parent m = .ok u m') :
    ∃ heap, m' = { m with image := { m.image with heap } } ∧ Heap.Delivers m.image.heap heap ended
      [(⟨mine, own.toNat⟩, ⟨theirs, parent.toNat⟩)] := by
  have hread : slot context Slot.Context.heapVars m = .ok mine m := query_of_eq_ok hmine.slot
  have hread' : slot context Slot.Context.parentHeapVars m = .ok theirs m :=
    query_of_eq_ok htheirs.slot
  rw [restore, bind_of_eq_ok hread, bind_eq_ok] at heq
  obtain ⟨value, m₁, hquery, heq⟩ := heq
  obtain ⟨hvalue, hsame⟩ := query_eq_ok hquery
  rw [hsame, bind_of_eq_ok hread'] at heq
  have hsource : m.image.heap.Holds ⟨mine, own.toNat⟩ value := ⟨hmine.value_sane whole, hvalue⟩
  obtain ⟨heap, rfl, hrewrites⟩ := rewrites_of_setSlot whole (htheirs.value_sane whole)
    (hsource.value_sane whole) heq
  exact ⟨heap, rfl, hrewrites.delivers hsource⟩

/-- What code promotes before it does anything else is handed over. -/
theorem restoreLeading_delivers (code : List (Nat × Instruction)) (hne : theirs ≠ context)
    (hended : mine ∉ ended) (whole : m.image.heap.Whole)
    (hmine : m.image.heap.Holds ⟨context, Slot.Context.heapVars⟩ mine)
    (htheirs : m.image.heap.Holds ⟨context, Slot.Context.parentHeapVars⟩ theirs)
    (heq : restoreLeading context code m = .ok u m') :
    ∃ heap, m' = { m with image := { m.image with heap } } ∧ Heap.Delivers m.image.heap heap ended
      (handedOver mine theirs (leadingPromotes code)) := by
  fun_induction leadingPromotes code generalizing m with
  | case1 pc own parent rest ih =>
    obtain ⟨_, m₁, hrestore, hrest⟩ := bind_eq_ok.mp heq
    obtain ⟨heap, rfl, hfirst⟩ := restore_delivers whole hmine htheirs hrestore
    -- The context itself is not written to, so the next variable is found where this one was.
    have hfield : ∀ {index x}, index ≠ Slot.Context.pc →
        m.image.heap.Holds ⟨context, index⟩ x → heap.Holds ⟨context, index⟩ x := by
      intro index x hindex hx
      refine hfirst.untouched (fun v _ heq => hindex (congrArg Cell.index heq)) ?_ hx
      simp only [List.mem_singleton, forall_eq]
      exact fun heq => hne (congrArg Cell.object heq)
    obtain ⟨heap', rfl, hlater⟩ := ih hfirst.whole (hfield (by decide) hmine)
      (hfield (by decide) htheirs) hrest
    exact ⟨heap', rfl, hfirst.trans hlater (handedOver_lasts hended)⟩
  | case2 code hcode =>
    have hnone : restoreLeading context code = pure () := by
      rw [restoreLeading]
      exact hcode
    rw [hnone] at heq
    obtain ⟨-, rfl⟩ := pure_eq_ok.mp heq
    exact ⟨m.image.heap, rfl, .refl whole⟩

theorem unwind_delivers (hf : m.image.Stacks f) (hne : f.theirs ≠ f.context)
    (hended : f.mine ∉ ended) (whole : m.image.heap.Whole)
    (heq : unwind f.context m = .ok u m') :
    ∃ heap, m' = { m with image := { m.image with heap } } ∧
      Heap.Delivers m.image.heap heap ended f.copies := by
  have hcode : slot f.context Slot.Context.method m = .ok f.code m := query_of_eq_ok hf.code.slot
  rw [unwind, bind_of_eq_ok hcode, get_bind] at heq
  have hclass : ∀ {cls}, m.image.classOf f.code = .ok cls → ask (·.classOf f.code) m = .ok cls m :=
    fun hcls => query_of_eq_ok hcls
  have hchained := hf.chained
  rw [StackFrame.copies]
  generalize f.chained = chained at hchained ⊢
  cases hchained with
  | @block bytecode bytes hcls hbytecode hbytes =>
    have hread : slot f.code Slot.Code.bytecode m = .ok bytecode m :=
      query_of_eq_ok hbytecode.slot
    have hread' : ask (·.heap.bytes bytecode) m = .ok bytes m := query_of_eq_ok hbytes.2
    rw [bind_of_eq_ok (hclass hcls), if_pos rfl, bind_of_eq_ok hread, bind_of_eq_ok hread'] at heq
    exact restoreLeading_delivers _ hne hended whole hf.mine hf.theirs heq
  | method hsane hcls hother =>
    rw [bind_of_eq_ok (hclass hcls), if_neg hother] at heq
    obtain ⟨-, rfl⟩ := pure_eq_ok.mp heq
    exact ⟨m.image.heap, rfl, .refl whole⟩

end Restoring

theorem unwindAll_delivers {frames rest : List StackFrame} (hsep : Separate frames)
    (hrest : ∀ f ∈ rest, f ∈ frames) (whole : m.image.heap.Whole)
    (hstacks : ∀ f ∈ rest, m.image.Stacks f) {u : Unit}
    (heq : unwindAll (rest.map StackFrame.context) m = .ok u m') :
    ∃ heap, m' = { m with image := { m.image with heap } } ∧ Heap.Delivers m.image.heap heap
      (frames.map StackFrame.context) (rest.flatMap StackFrame.copies) := by
  induction rest generalizing m with
  | nil =>
    obtain ⟨-, rfl⟩ := pure_eq_ok.mp heq
    exact ⟨m.image.heap, rfl, .refl whole⟩
  | cons f rest ih =>
    have hmem : f ∈ frames := hrest f (.head _)
    have hf := hstacks f (.head _)
    rw [List.map_cons, unwindAll] at heq
    obtain ⟨_, m₁, hunwind, heq⟩ := bind_eq_ok.mp heq
    obtain ⟨heap₁, rfl, hd₁⟩ :=
      unwind_delivers hf (hsep.theirs f hmem f hmem).1 (hsep.mine f hmem) whole hunwind
    obtain ⟨_, m₂, hset, heq⟩ := bind_eq_ok.mp heq
    obtain ⟨heap₂, rfl, hr⟩ := rewrites_of_setSlot
      (m := { m with image := { m.image with heap := heap₁ } }) hd₁.whole (hd₁.sane hf.code.sane)
      (Arenas.sane_nil _) hset
    have hd₂ : Heap.Delivers heap₁ heap₂ (frames.map StackFrame.context) [] :=
      hr.delivers_ended (List.mem_map_of_mem hmem)
    have hlater : ∀ g ∈ rest, Image.Stacks { m.image with heap := heap₂ } g := by
      intro g hg
      have hg' := hrest g (.tail _ hg)
      have hcopies : ∀ copy ∈ f.copies, copy.2.object ≠ g.context ∧ copy.2.object ≠ g.code := by
        intro copy hcopy
        rw [object_of_mem_handedOver hcopy]
        exact hsep.theirs f hmem g hg'
      have hstill := (hstacks g (.tail _ hg)).deliver hd₁ hcopies (hsep.code g hg')
      exact hstill.deliver hd₂ nofun (hsep.code g hg')
    obtain ⟨heap, rfl, hd⟩ := ih (m := { m with image := { m.image with heap := heap₂ } })
      (fun g hg => hrest g (.tail _ hg)) hd₂.whole hlater heq
    refine ⟨heap, rfl, ?_⟩
    have hfirst := hd₁.trans hd₂ nofun
    rw [List.append_nil] at hfirst
    refine hfirst.trans hd fun copy hcopy => ?_
    obtain ⟨g, hg, hcopy⟩ := List.mem_flatMap.mp hcopy
    exact handedOver_lasts (hsep.mine g (hrest g (.tail _ hg))) copy hcopy

/-- Going on in a context writes nothing. -/
theorem image_of_continueIn {target value : Value} {u : Unit}
    (heq : continueIn target value m = .ok u m') : m'.image = m.image := by
  rw [continueIn, setAccumulator, modify_bind, ite_eq_ok] at heq
  rcases heq with ⟨-, heq⟩ | ⟨-, heq⟩
  · obtain rfl := modify_eq_ok.mp heq
    rfl
  · obtain ⟨pc, _, hquery, heq⟩ := bind_eq_ok.mp heq
    obtain ⟨-, rfl⟩ := query_eq_ok hquery
    obtain ⟨-, hgo⟩ := check_eq_ok heq
    obtain ⟨_, _, _, _, _, _, -, -, rfl⟩ := loadFrame_eq_ok hgo
    rfl

/-- What a successful return from the home of a block does: it unwinds the contexts from the
current one up to the home. -/
theorem nonLocalReturn_eq_ok {source value : Value} {u : Unit}
    (hsource : isInstance source .context m = .ok true m)
    (heq : nonLocalReturn source value m = .ok u m') :
    ∃ home contexts m₁, m.image.heap.slot source Slot.Context.home = .ok home ∧
      chainTo m.image.heap home (m.image.heap.chainBound + 1) [] m.context =
        .ok (some contexts) ∧
      unwindAll contexts m = .ok () m₁ ∧ m'.image = m₁.image := by
  rw [nonLocalReturn, bind_of_eq_ok hsource, if_neg (by decide)] at heq
  obtain ⟨home, _, hread, hreturn⟩ := bind_eq_ok.mp heq
  obtain ⟨hhome, rfl⟩ := query_eq_ok hread
  obtain ⟨-, hnotNil⟩ := check_eq_ok hreturn
  obtain ⟨pc, _, hread, hreturn'⟩ := bind_eq_ok.mp hnotNil
  obtain ⟨-, rfl⟩ := query_eq_ok hread
  obtain ⟨-, hlive⟩ := check_eq_ok hreturn'
  obtain ⟨chain, _, hread, hrest⟩ := bind_eq_ok.mp hlive
  obtain ⟨hchain, rfl⟩ := query_eq_ok hread
  cases chain with
  | none =>
    obtain ⟨_, _, -, hfail⟩ := bind_eq_ok.mp hrest
    cases fail_eq_ok.mp hfail
  | some contexts =>
    obtain ⟨_, m₁, hunwind, hgoOn⟩ := bind_eq_ok.mp hrest
    obtain ⟨previous, _, hread, hcontinue⟩ := bind_eq_ok.mp hgoOn
    obtain ⟨-, rfl⟩ := query_eq_ok hread
    exact ⟨home, contexts, _, hhome, hchain, hunwind, image_of_continueIn hcontinue⟩

/-- Where a variable's value comes from when a non-local return has unwound the contexts in
between. A cell that is not a context's holds exactly what its origin held: so a variable keeps the
value that was assigned to it last exactly if the innermost copy that is handed to it, directly or
from copy to copy, had that value. -/
theorem nonLocalReturn_holds_iff {source value : Value} (hm : Intact m)
    (hsource : isInstance source .context m = .ok true m)
    (heq : nonLocalReturn source value m = .ok () m') :
    ∃ home contexts, m.image.heap.slot source Slot.Context.home = .ok home ∧
      chainTo m.image.heap home (m.image.heap.chainBound + 1) [] m.context =
        .ok (some contexts) ∧
      ∀ frames : List StackFrame, frames.map StackFrame.context = contexts →
        (∀ f ∈ frames, m.image.Stacks f) → Separate frames →
        ∀ (c : Cell) (before v : Value), c.object ∉ contexts → m.image.heap.Holds c before →
          (m'.image.heap.Holds c v ↔
            m.image.heap.Holds (origin (frames.flatMap StackFrame.copies) c) v) := by
  obtain ⟨home, contexts, m₁, hhome, hchain, hunwind, himage⟩ := nonLocalReturn_eq_ok hsource heq
  refine ⟨home, contexts, hhome, hchain, ?_⟩
  rintro frames rfl hstacks hsep c before v hc hbefore
  obtain ⟨heap, rfl, hd⟩ := unwindAll_delivers hsep (fun _ hf => hf) hm.whole hstacks hunwind
  rw [himage]
  refine hd.holds_iff (fun context hcontext heq => hc ?_) hbefore
  rw [heq]
  exact hcontext

end Machine

/-- A method's context with a variable that is 2, and the context of a block whose copy of it is
still 1. -/
def staleObjects : ImageAction Value := do
  let theirs ← Image.onHeap (Heap.allocatePointers .nil 1)
  let mine ← Image.onHeap (Heap.allocatePointers .nil 1)
  let method ← Image.onHeap (Heap.allocatePointers .nil 0)
  let code ← Image.onHeap (Heap.allocatePointers (.ofNat 14) 1)
  let bytecode ← Image.onHeap (Heap.allocateBytes .nil (encodeAll [.promote 0 0]).toArray)
  let home ← Image.onHeap (Heap.allocatePointers (.ofNat 15) 7)
  let context ← Image.onHeap (Heap.allocatePointers (.ofNat 15) 7)
  Image.fillSlots theirs 0 [.ofNat 2]
  Image.fillSlots mine 0 [.ofNat 1]
  Image.fillSlots code 0 [bytecode]
  Image.fillSlots home 0 [.nil, .nil, method, .ofNat 0, theirs, .nil, home]
  Image.fillSlots context 0 [home, .nil, code, .ofNat 0, mine, theirs, home]
  return context

def staleMachine : Machine := .poised Machine.blankImage staleObjects [] 0

theorem staleObjects_stable : Stable [] staleObjects := by
  refine .bind (Image.onHeap_stable (Heap.allocatePointers_stable (by simp) _)) fun theirs => ?_
  refine .bind (Image.onHeap_stable (Heap.allocatePointers_stable (by simp) _)) fun mine => ?_
  refine .bind (Image.onHeap_stable (Heap.allocatePointers_stable (by simp) _)) fun method => ?_
  refine .bind (Image.onHeap_stable (Heap.allocatePointers_stable (by simp) _)) fun code => ?_
  refine .bind (Image.onHeap_stable (Heap.allocateBytes_stable (by simp) _)) fun bytecode => ?_
  refine .bind (Image.onHeap_stable (Heap.allocatePointers_stable (by simp) _)) fun home => ?_
  refine .bind (Image.onHeap_stable (Heap.allocatePointers_stable (by simp) _)) fun context => ?_
  refine .bind (Image.fillSlots_stable (by simp) _ (by simp)) fun _ => ?_
  refine .bind (Image.fillSlots_stable (by simp) _ (by simp)) fun _ => ?_
  refine .bind (Image.fillSlots_stable (by simp) _ (by simp)) fun _ => ?_
  refine .bind (Image.fillSlots_stable (by simp) _ (by simp)) fun _ => ?_
  refine .bind (Image.fillSlots_stable (by simp) _ (by simp)) fun _ => ?_
  exact .pure (by simp)

theorem staleMachine_intact : Intact staleMachine :=
  Machine.poised_intact Machine.blankImage_intact staleObjects_stable [] 0

def staleFrames : List StackFrame :=
  [⟨.ofAddress ⟨.pointers, 22⟩, .ofAddress ⟨.pointers, 10⟩, .ofAddress ⟨.pointers, 5⟩,
      .ofAddress ⟨.pointers, 2⟩, [(0, 0)]⟩,
    ⟨.ofAddress ⟨.pointers, 13⟩, .ofAddress ⟨.pointers, 8⟩, .ofAddress ⟨.pointers, 2⟩, .nil, []⟩]

theorem staleFrames_stacks : ∀ f ∈ staleFrames, staleMachine.image.Stacks f := by
  have whole := staleMachine_intact.whole
  have hcontext : staleMachine.context = .ofAddress ⟨.pointers, 22⟩ := by decide +kernel
  have hsane : staleMachine.image.heap.arenas.Sane (.ofAddress ⟨.pointers, 22⟩) := by
    rw [← hcontext]
    exact staleMachine_intact.held staleMachine.context (by simp)
  have hhome : staleMachine.image.heap.arenas.Sane (.ofAddress ⟨.pointers, 13⟩) :=
    whole.slot (i := Slot.Context.previous) hsane (by decide +kernel)
  have hcode : staleMachine.image.heap.arenas.Sane (.ofAddress ⟨.pointers, 10⟩) :=
    whole.slot (i := Slot.Context.method) hsane (by decide +kernel)
  have hmethod : staleMachine.image.heap.arenas.Sane (.ofAddress ⟨.pointers, 8⟩) :=
    whole.slot (i := Slot.Context.method) hhome (by decide +kernel)
  have hbytes : staleMachine.image.heap.Spells (.ofAddress ⟨.leaf, 2⟩)
      (encodeAll [.promote 0 0]).toArray := ⟨⟨2, by decide +kernel⟩, by decide +kernel⟩
  have hpromotes : leadingPromotes (Code.decodeAll (encodeAll [.promote 0 0]).toArray).1 =
      [(0, 0)] := by decide +kernel
  simp only [staleFrames, List.mem_cons, List.not_mem_nil, or_false, forall_eq_or_imp, forall_eq]
  refine ⟨⟨⟨hsane, by decide +kernel⟩, ⟨hsane, by decide +kernel⟩, ⟨hsane, by decide +kernel⟩, ?_⟩,
    ⟨hhome, by decide +kernel⟩, ⟨hhome, by decide +kernel⟩, ⟨hhome, by decide +kernel⟩, ?_⟩
  · rw [← hpromotes]
    exact .block (by decide +kernel) ⟨hcode, by decide +kernel⟩ hbytes
  · exact .method hmethod (show _ = Except.ok Value.nil by decide +kernel) (by decide +kernel)

/-- The variable is 1 again after the return. -/
theorem stale_copy_wins : ∃ m', Machine.nonLocalReturn (.ofAddress ⟨.pointers, 22⟩) (.ofNat 7)
    staleMachine = .ok () m' ∧
    staleMachine.image.heap.Holds ⟨.ofAddress ⟨.pointers, 2⟩, 0⟩ (.ofNat 2) ∧
    m'.image.heap.Holds ⟨.ofAddress ⟨.pointers, 2⟩, 0⟩ (.ofNat 1) := by
  have hreturns : (match Machine.nonLocalReturn (.ofAddress ⟨.pointers, 22⟩) (.ofNat 7)
      staleMachine with
    | .ok _ _ => true
    | .error _ _ => false) = true := by decide +kernel
  split at hreturns
  · rename_i m' heq
    have hsource : Machine.isInstance (.ofAddress ⟨.pointers, 22⟩) .context staleMachine =
        .ok true staleMachine := by
      rw [Machine.isInstance, Machine.ask]
      exact query_of_eq_ok (by decide +kernel)
    obtain ⟨home, contexts, hhome, hchain, hvalue⟩ :=
      Machine.nonLocalReturn_holds_iff staleMachine_intact hsource heq
    obtain rfl : Value.ofAddress ⟨.pointers, 13⟩ = home :=
      Except.ok.inj ((show _ = Except.ok _ by decide +kernel).symm.trans hhome)
    obtain rfl : staleFrames.map StackFrame.context = contexts :=
      Option.some.inj (Except.ok.inj ((show _ = Except.ok _ by decide +kernel).symm.trans hchain))
    have hmine := (staleFrames_stacks _ (.head _)).mine.value_sane staleMachine_intact.whole
    have htheirs := (staleFrames_stacks _ (.head _)).theirs.value_sane staleMachine_intact.whole
    have hbefore : staleMachine.image.heap.Holds ⟨.ofAddress ⟨.pointers, 2⟩, 0⟩ (.ofNat 2) :=
      ⟨htheirs, by decide +kernel⟩
    refine ⟨m', heq, hbefore, (hvalue staleFrames rfl staleFrames_stacks ⟨by decide, by decide,
      by decide⟩ _ _ _ (by decide) hbefore).mpr ⟨hmine, by decide +kernel⟩⟩
  · cases hreturns

end ObjectMachine
