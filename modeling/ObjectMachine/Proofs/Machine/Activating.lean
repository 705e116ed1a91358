import ObjectMachine.Proofs.Machine.Belonging
import ObjectMachine.Proofs.Machine.Readiness
import ObjectMachine.Proofs.Machine.Simulation

namespace ObjectMachine

namespace Image

variable {i i' : Image} {v : Value} {first : Nat}

theorem fillSlots_row {old xs : List Value} (whole : i.heap.Whole) (hrow : i.heap.Row v first old)
    (hlength : old.length = xs.length) (hxs : ∀ x ∈ xs, i.heap.arenas.Sane x) :
    ∃ heap, fillSlots v first xs i = .ok () { i with heap } ∧
      Heap.Builds (fun c => c.object = v ∧ first ≤ c.index ∧ c.index < first + xs.length)
        i.heap heap ∧ heap.Row v first xs := by
  induction xs generalizing i first old with
  | nil => exact ⟨i.heap, rfl, .refl whole, Heap.row_nil⟩
  | cons x xs ih =>
    obtain ⟨y, old, rfl⟩ := List.exists_cons_of_length_eq_add_one hlength
    obtain ⟨hy, hold⟩ := Heap.row_cons.mp hrow
    obtain ⟨h₁, hset, hr⟩ := hy.write whole (hxs x (.head _)) (ε := HeapError)
    have hold₁ : h₁.Row v (first + 1) old := fun k z hz =>
      hr.others (fun heq => by have := congrArg Cell.index heq; simp only at this; omega)
        (hold k z hz)
    obtain ⟨heap, hfill, hb, hrow'⟩ := ih (i := { i with heap := h₁ }) hr.whole hold₁
      (Nat.succ.inj hlength) fun z hz => hr.grows _ (hxs z (.tail _ hz))
    refine ⟨heap, bind_eq_ok.mpr ⟨(), _, onHeap_eq_ok.mpr ⟨h₁, hset, rfl⟩, hfill⟩, ?_, ?_⟩
    · refine (hr.builds ⟨rfl, Nat.le_refl _, by simp⟩).trans (hb.mono fun c _ hc => ?_)
      simp only [List.length_cons]
      exact ⟨hc.1, by omega, by omega⟩
    · exact Heap.row_cons.mpr ⟨hb.kept (fun hc => by simp at hc) hr.written, hrow'⟩

/-- An object with slots is made, unless there is no room for it. -/
theorem allocatePointers_ends (hi : Intact i) {c : Value} (hisa : Sane i c) {n : Nat}
    (hcount : n < 0x100000000) :
    (∃ e i', onHeap (Heap.allocatePointers c n) i =
      .error (.failure (.allocation e)) i') ∨
    ∃ v heap, onHeap (Heap.allocatePointers c n) i = .ok v { i with heap } ∧
      Heap.Builds (fun _ => False) i.heap heap ∧ heap.arenas.Sane v ∧ ¬Sane i v ∧
      heap.Row v 0 (List.replicate n .nil) ∧ (0 < n → heap.isa v = .ok c) := by
  have whole : i.heap.Whole := hi.whole
  have hmeets := whole.allocatePointers_meets hisa n
  cases heq : Heap.allocatePointers c n i.heap with
  | error e heap =>
    rw [heq] at hmeets
    cases e with
    | failure cause => exact .inl ⟨cause, { i with heap }, by rw [onHeap, heq]; rfl⟩
    | fault f =>
      have hallots := whole.allots_pointers hisa n
      rw [heq] at hallots
      exact hallots.elim
  | ok v heap =>
    rw [heq] at hmeets
    obtain ⟨hintroduces, hinstantiates, hsane, hfresh⟩ := hmeets
    obtain ⟨-, hshows, -, hspares⟩ := Heap.allocatePointers_shows whole.sound hcount heq
    have hrow := hshows.row hintroduces.whole
    refine .inr ⟨v, heap, onHeap_eq_ok.mpr ⟨heap, heq, rfl⟩,
      ⟨hintroduces.toExtends, hspares.spells⟩, hsane, hfresh, hrow, fun hpos => ?_⟩
    have hfirst := hrow.get (k := 0) (y := .nil) (by simp [hpos])
    obtain ⟨loc, hloc, hl, -⟩ := hfirst.refers
    obtain ⟨header, hh, -⟩ := hintroduces.whole.sound.laid.object hl
    have hheader : heap.header v = .ok header := by
      simp only [Heap.header, Heap.locate, hloc, bind, Except.bind, hh]
    rw [Heap.isa, hheader]
    exact congrArg Except.ok (hinstantiates.isa hfirst hfresh hheader)

/-- The last part of making a context: its fields and its first registers. -/
def fillContext (code receiver : Value) (args : List Value)
    (previous parent home mine ctx : Value) :
    ImageAction Value := do
  fillSlots ctx 0 [previous, receiver, code, .ofNat 0, mine, parent, home, receiver]
  fillSlots ctx (Slot.Context.registers + 1) args
  return ctx

theorem fillContext_row {code receiver previous parent home mine ctx : Value} {args : List Value}
    {rest : Nat} (whole : i.heap.Whole)
    (hrow : i.heap.Row ctx 0 (List.replicate (8 + (args.length + rest)) .nil))
    (hsane : ∀ v ∈ [previous, receiver, code, .ofNat 0, mine, parent, home, receiver],
      i.heap.arenas.Sane v) (hargs : ∀ v ∈ args, i.heap.arenas.Sane v) :
    ∃ heap, fillContext code receiver args previous parent home mine ctx i =
        .ok ctx { i with heap } ∧
      Heap.Builds (·.object = ctx) i.heap heap ∧
      heap.Row ctx 0 [previous, receiver, code, .ofNat 0] ∧
      heap.Row ctx Slot.Context.registers (receiver :: args ++ List.replicate rest .nil) := by
  rw [← List.replicate_append_replicate, ← List.replicate_append_replicate] at hrow
  obtain ⟨hfields, hregisters⟩ := Heap.row_append.mp hrow
  obtain ⟨h₁, hfill₁, hb₁, hrow₁⟩ := fillSlots_row whole hfields List.length_replicate hsane
  obtain ⟨hold, hrest⟩ := Heap.row_append.mp hregisters
  have hold₁ := hb₁.toExtends.row hold fun k _ hc => by
    simp only [List.length_replicate, List.length_cons, List.length_nil] at hc
    omega
  obtain ⟨h₂, hfill₂, hb₂, hrow₂⟩ := fillSlots_row (i := { i with heap := h₁ }) hb₁.whole hold₁
    List.length_replicate fun v hv => hb₁.grows _ (hargs v hv)
  have hb := (hb₁.mono (w := (·.object = ctx)) fun _ _ hc => hc.1).trans
    (hb₂.mono fun _ _ hc => hc.1)
  have hfields' := hb₂.toExtends.row hrow₁ fun k hk hc => by
    simp only [List.length_replicate, List.length_cons, List.length_nil] at hk hc
    omega
  have hrest' := hb₂.toExtends.row (hb₁.toExtends.row hrest fun k _ hc => by
      simp only [List.length_replicate, List.length_cons, List.length_nil] at hc
      omega) fun k _ hc => by
    simp only [List.length_replicate] at hc
    omega
  obtain ⟨hfirst, hself⟩ := (Heap.row_append (l := [previous, receiver, code, .ofNat 0, mine,
    parent, home]) (r := [receiver])).mp hfields'
  refine ⟨h₂, bind_eq_ok.mpr ⟨(), _, hfill₁, bind_eq_ok.mpr ⟨(), _, hfill₂, rfl⟩⟩, hb,
    ((Heap.row_append (l := [previous, receiver, code, .ofNat 0])).mp hfirst).1,
    Heap.row_cons.mpr ⟨(Heap.row_cons.mp hself).1, Heap.row_append.mpr ⟨hrow₂, ?_⟩⟩⟩
  simpa [Slot.Context.registers] using hrest'

/-- A context is made, unless there is no room for it. -/
theorem newContext_ends {code receiver previous parent : Value} {args constants : List Value}
    {home : Option Value} {tm : CodeTemplate} (hi : Intact i)
    (he : i.heap.Embodies code tm constants)
    (hsmall : tm.args + tm.temps + tm.heapVars + tm.stack < 0x10000000)
    (hargs : args.length = tm.args)
    (hsane : ∀ v ∈ previous :: receiver :: code :: parent :: args, Sane i v)
    (hhome : ∀ v ∈ home, Sane i v) :
    (∃ e i', newContext code receiver args previous parent home i =
      .error (.failure (.allocation e)) i') ∨
    ∃ ctx heap, newContext code receiver args previous parent home i = .ok ctx { i with heap } ∧
      Heap.Builds (fun _ => False) i.heap heap ∧ ¬Sane i ctx ∧
      Instance { i with heap } .context ctx ∧
      heap.Row ctx 0 [previous, receiver, code, .ofNat 0] ∧
      heap.Row ctx Slot.Context.registers
        (receiver :: args ++ List.replicate (tm.temps + tm.stack) .nil) := by
  have hshape := he.codeShape (by omega)
  have hread : newContext code receiver args previous parent home i =
      (onHeap (Heap.allocatePointers (i.kernelClass .context)
          (Slot.Context.registers + (1 + tm.args + tm.temps + tm.stack))) >>= fun ctx =>
        if tm.heapVars > 0 then
          onHeap (Heap.allocatePointers (i.kernelClass .array) tm.heapVars) >>= fun mine =>
            fillContext code receiver args previous parent (home.getD ctx) mine ctx
        else fillContext code receiver args previous parent (home.getD ctx) .nil ctx) i := by
    have hask : ask (·.codeShape code) i = .ok ⟨tm.args, tm.temps, tm.heapVars, tm.stack⟩ i :=
      query_of_eq_ok hshape
    rw [newContext, bind_of_eq_ok hask]
    simp only [← hargs, List.take_length]
    rfl
  have hclass : ∀ k, Sane i (i.kernelClass k) := fun k => hi.held _ (i.kernelClass_mem_values k)
  have hcount : Slot.Context.registers + (1 + tm.args + tm.temps + tm.stack) =
      8 + (args.length + (tm.temps + tm.stack)) := by
    simp only [Slot.Context.registers]
    omega
  rw [hread, hcount]
  rcases allocatePointers_ends hi (hclass .context)
    (n := 8 + (args.length + (tm.temps + tm.stack))) (by omega) with
    ⟨e, i', herror⟩ | ⟨ctx, h₁, hmade, hb₁, hctx, hfresh, hrow, hisa⟩
  · exact .inl ⟨e, i', bind_of_eq_error herror⟩
  rw [bind_of_eq_ok hmade]
  -- The heap variables are made before the context is filled.
  have hfilled : ∀ {mine h₂}, Heap.Builds (fun _ => False) h₁ h₂ → h₂.arenas.Sane mine →
      ∃ heap, fillContext code receiver args previous parent (home.getD ctx) mine ctx
          { i with heap := h₂ } = .ok ctx { i with heap } ∧
        Heap.Builds (fun _ => False) i.heap heap ∧ ¬Sane i ctx ∧
        Instance { i with heap } .context ctx ∧
        heap.Row ctx 0 [previous, receiver, code, .ofNat 0] ∧
        heap.Row ctx Slot.Context.registers
          (receiver :: args ++ List.replicate (tm.temps + tm.stack) .nil) := by
    intro mine h₂ hb₂ hmine
    have hold : ∀ {v}, Sane i v → h₂.arenas.Sane v := fun hv => hb₂.grows _ (hb₁.grows _ hv)
    have hfields : ∀ v ∈ [previous, receiver, code, .ofNat 0, mine, parent, home.getD ctx,
      receiver],
        h₂.arenas.Sane v := by
      intro v hv
      simp only [List.mem_cons, List.not_mem_nil, or_false] at hv
      rcases hv with rfl | rfl | rfl | rfl | rfl | rfl | rfl | rfl
      · exact hold (hsane _ (by simp))
      · exact hold (hsane _ (by simp))
      · exact hold (hsane _ (by simp))
      · exact .inr (.inl (by simp))
      · exact hmine
      · exact hold (hsane _ (by simp))
      · cases home with
        | none => exact hb₂.grows _ hctx
        | some v => exact hold (hhome v rfl)
      · exact hold (hsane _ (by simp))
    obtain ⟨heap, hfill, hb, hfirst, hregisters⟩ := fillContext_row (i := { i with heap := h₂ })
      hb₂.whole (hb₂.toExtends.row hrow fun _ _ => id) hfields
      fun v hv => hold (hsane v (by simp [hv]))
    have hbuilt := ((hb₁.trans hb₂).mono (w := (·.object = ctx))
      fun _ _ => False.elim).trans hb
    have hcell := hfirst.get (k := 0) rfl
    have hreference : ctx.isReference := by
      obtain ⟨loc, hloc, -⟩ := hcell.refers
      exact Value.isReference_iff.mpr ⟨loc, hloc⟩
    have hisa' : heap.isa ctx = h₁.isa ctx := by
      rw [Heap.isa, Heap.isa, hb.header (hb₂.grows _ hctx), hb₂.header hctx]
    exact ⟨heap, hfill, hbuilt.mono fun c hsane hc => hfresh (hc ▸ hsane), hfresh,
      ⟨hcell.sane, hreference, (classOf_of_reference hreference).trans
        (hisa'.trans (hisa (by omega)))⟩, hfirst, hregisters⟩
  split
  · rcases allocatePointers_ends (i := { i with heap := h₁ }) (c := i.kernelClass .array)
      ⟨hb₁.whole, fun v hv => hb₁.grows _ (hi.held v hv)⟩ (hb₁.grows _ (hclass .array))
      (n := tm.heapVars) (by omega) with
      ⟨e, i', herror⟩ | ⟨mine, h₂, hmade₂, hb₂, hmine, -⟩
    · exact .inl ⟨e, i', bind_of_eq_error herror⟩
    · obtain ⟨heap, hfill, hrest⟩ := hfilled hb₂ hmine
      exact .inr ⟨ctx, heap, (bind_of_eq_ok hmade₂).trans hfill, hrest⟩
  · obtain ⟨heap, hfill, hrest⟩ := hfilled (.refl hb₁.whole) (Arenas.sane_nil _)
    exact .inr ⟨ctx, heap, hfill, hrest⟩

end Image

namespace Machine

variable {m m' : Machine} {code receiver parent : Value} {args constants : List Value}
  {home : Option Value} {tm : CodeTemplate}

theorem loadFrame_hosted {bytecode : Array UInt8} {pc : Nat}
    (hh : m.image.heap.Hosts m.context bytecode constants)
    (hposition : m.image.heap.Holds ⟨m.context, Slot.Context.pc⟩ (.ofNat pc))
    (hpc : pc < 0x1000000000000000) : ∃ method literals code cache epoch,
      loadFrame m = .ok () { m with method, literals, code, cache, epoch, pc } := by
  obtain ⟨method, table, bytes, hmethod, htable, hbytes, hspells, -⟩ := hh.frame
  obtain ⟨code', m₁, hfetch⟩ := fetchCode_delivers hspells.2
  obtain ⟨cache, epoch, rfl⟩ := fetchCode_eq_ok hfetch
  refine ⟨method, table, code', cache, epoch, ?_⟩
  refine query_bind_eq_ok.mpr ⟨method, hmethod.slot, query_bind_eq_ok.mpr ⟨table, htable.slot, ?_⟩⟩
  refine query_bind_eq_ok.mpr ⟨_, hposition.slot, query_bind_eq_ok.mpr ⟨bytes, hbytes.slot, ?_⟩⟩
  refine bind_eq_ok.mpr ⟨code', _, hfetch, ?_⟩
  rw [Value.toNat?_ofNat hpc]
  rfl

structure Opens (m m' : Machine) (tm : CodeTemplate) (constants : List Value)
    (code receiver : Value) (args : List Value) : Prop where
  fresh : ¬Sane m m'.context
  context : m'.image.Instance .context m'.context
  hosts : m'.image.heap.Hosts m'.context tm.bytecode constants
  fields : m'.image.heap.Row m'.context 0 [m.context, receiver, code, .ofNat 0]
  registers : m'.image.heap.Row m'.context Slot.Context.registers
    (receiver :: args ++ List.replicate (tm.temps + tm.stack) .nil)
  position : m'.image.heap.Holds ⟨m.context, Slot.Context.pc⟩ (.ofNat m.pc)
  pc : m'.pc = 0
  accumulator : m'.accumulator = m.accumulator
  stop : m'.stop = m.stop
  interrupts : m'.interrupts = m.interrupts

/-- Code is entered in a new context, unless there is no room for one. -/
theorem activate_ends (h : m.Ready) (he : m.image.heap.Embodies code tm constants)
    (hlength : constants.length ≤ 3) (hcode : code ≠ m.context)
    (hsmall : tm.args + tm.temps + tm.heapVars + tm.stack < 0x10000000)
    (hargs : args.length = tm.args) (hsane : ∀ v ∈ receiver :: code :: parent :: args, Sane m v)
    (hhome : ∀ v ∈ home, Sane m v) :
    (∃ e m', activate code receiver args parent home m = .error (.failure (.allocation e)) m') ∨
    ∃ m', activate code receiver args parent home m = .ok () m' ∧
      m.Opens m' tm constants code receiver args := by
  have hcontext : Sane m m.context := h.intact.held _ (by simp)
  obtain ⟨x, hx⟩ := h.contextSlots Slot.Context.pc (by decide)
  obtain ⟨h₁, hset, hr⟩ := hx.write h.intact.whole (x := .ofNat m.pc) (.inr (.inl (by simp)))
    (ε := HeapError)
  have hb₁ := hr.builds (w := (· = ⟨m.context, Slot.Context.pc⟩)) rfl
  have he₁ : h₁.Embodies code tm constants := by
    refine hb₁.embodies h.intact.whole (fun u k hk heq => ?_) (fun k heq => ?_) hlength he
    · have := congrArg Cell.index heq
      simp only [Slot.Context.pc] at this
      omega
    · exact hcode (congrArg Cell.object heq)
  have hstored : setSlot m.context Slot.Context.pc (.ofNat m.pc) m =
      .ok () { m with image := { m.image with heap := h₁ } } := setSlot_of_eq_ok hset
  have hi₁ : Intact { m.image with heap := h₁ } :=
    ⟨hr.whole, fun v hv => hr.grows _ ((intact_image h.intact).held v hv)⟩
  have hsane₁ : ∀ v ∈ m.context :: receiver :: code :: parent :: args, h₁.arenas.Sane v := by
    intro v hv
    rcases List.mem_cons.mp hv with rfl | hv
    · exact hr.grows _ hcontext
    · exact hr.grows _ (hsane v hv)
  have hread : activate code receiver args parent home m =
      (onImage (Image.newContext code receiver args m.context parent home) >>= fun context =>
        modify (fun m => { m with context }) >>= fun _ => loadFrame)
        { m with image := { m.image with heap := h₁ } } := by
    rw [activate, get_bind, bind_of_eq_ok hstored]
  rw [hread]
  rcases Image.newContext_ends hi₁ he₁ hsmall hargs hsane₁ fun v hv => hr.grows _ (hhome v hv) with
    ⟨e, i', hfull⟩ | ⟨ctx, h₂, hmade, hb₂, hfresh, hinstance, hfields, hregisters⟩
  · refine .inl ⟨e, { m with image := i' }, bind_of_eq_error ?_⟩
    rw [onImage, hfull]
  · have hmade' : onImage (Image.newContext code receiver args m.context parent home)
        { m with image := { m.image with heap := h₁ } } =
        .ok ctx { m with image := { m.image with heap := h₂ } } := by
      rw [onImage, hmade]
    rw [bind_of_eq_ok hmade', modify_bind]
    have he₂ := hb₂.embodies hr.whole (fun _ _ _ => id) (fun _ => id) hlength he₁
    have hhosts := he₂.hosts (hfields.get (k := 2) rfl)
    obtain ⟨method, literals, bytes, cache, epoch, hload⟩ := loadFrame_hosted
      (m := { m with image := { m.image with heap := h₂ }, context := ctx }) hhosts
      (hfields.get (k := 3) rfl) (by decide)
    exact .inr ⟨_, hload, fun hold => hfresh (hr.grows _ hold), hinstance, hhosts, hfields,
      hregisters, hb₂.kept id hr.written, rfl, rfl, rfl, rfl⟩

end Machine

end ObjectMachine
