import ObjectMachine.Proofs.Image.Evolution
import ObjectMachine.Proofs.Object.Classes

namespace ObjectMachine

variable {written : Cell → Prop} {known : List Value}

namespace Heap

variable {base h h' : Heap} {v x : Value} {ε : Type}

/-- Objects were added and known cells written to; bytes stay as well. -/
structure Builds (written : Cell → Prop) (base h : Heap) : Prop extends
    Extends written base h where
  spells : ∀ {v content}, base.Spells v content → h.Spells v content

theorem Builds.refl (whole : h.Whole) : Builds written h h := ⟨.refl whole, fun hs => hs⟩

theorem Builds.trans (hb : Builds written base h) (hb' : Builds written h h') :
    Builds written base h' :=
  ⟨hb.toExtends.trans hb'.toExtends, fun hs => hb'.spells (hb.spells hs)⟩

theorem Builds.mono {w : Cell → Prop} (hb : Builds written base h)
    (hw : ∀ c, base.arenas.Sane c.object → written c → w c) : Builds w base h :=
  ⟨hb.toExtends.mono hw, hb.spells⟩

theorem Builds.intact (hb : Builds written base h) : Intact h := ⟨hb.whole, fun _ hv => nomatch hv⟩

/-- An object that the older memory knows nothing of. -/
theorem Builds.fresh (hb : Builds written base h) (hv : ¬h.arenas.Sane v) : ¬base.arenas.Sane v :=
  fun hold => hv (hb.grows v hold)

/-- New objects may be reshaped in any way. -/
theorem Builds.reshape {objects : List Value} (hb : Builds written base h)
    (hr : Reshapes objects h h') (hnew : ∀ v ∈ objects, ¬base.arenas.Sane v) :
    Builds written base h' where
  whole := hr.whole
  grows := hb.grows.trans hr.grows
  kept hc hold := hr.cells (fun hmem => hnew _ hmem hold.sane) (hb.kept hc hold)
  header hv := (hr.header (hb.grows _ hv) fun hmem => hnew _ hmem hv).trans (hb.header hv)
  spells hs := hr.spells (hb.spells hs)

theorem Rewrites.builds {w : Cell → Prop} {c : Cell} (hr : Rewrites h h' c x) (hc : w c) :
    Builds w h h' := ⟨hr.extends hc, hr.spells⟩

theorem setSlot_builds (hv : Trusted known v) (i : Nat) (hx : Trusted known x)
    (hw : base.arenas.Sane v → written ⟨v, i⟩) :
    Upholds (Builds written base) known (Heap.setSlot v i x : Action ε Heap Unit) := by
  intro h hb hknown
  cases heq : (Heap.setSlot v i x : Action ε Heap Unit) h with
  | ok u h' =>
    have hsane : Sane h v := hv.sane hknown
    have hsane' : Sane h x := hx.sane hknown
    have hr := hb.whole.rewrites hsane hsane' heq
    have hbuilt : Builds (fun c => written c ∨ c = ⟨v, i⟩) base h' :=
      (hb.mono fun _ _ => .inl).trans (hr.builds (.inr rfl))
    refine ⟨hbuilt.mono ?_, hr.grows, fun _ hmem => nomatch hmem⟩
    rintro c hc (hwritten | rfl)
    · exact hwritten
    · exact hw hc
  | error e h' =>
    cases e with
    | failure cause => exact absurd heq (setSlot_unfailing v i x h cause h')
    | fault f => trivial

/-- A stable step that only adds objects. -/
theorem upholds_of_ends {α : Type} [Holder α] {act : Action ε Heap α} (hstable : Stable known act)
    (hends : ∀ h, h.Whole → (∀ v ∈ known, Sane h v) →
      Action.Ends (Builds (fun _ => False) h) (act h)) :
    Upholds (Builds written base) known act := by
  intro h hb hknown
  have hend := hstable h hb.intact hknown
  have hbuilt := hends h hb.whole hknown
  cases heq : act h with
  | ok a h' =>
    rw [heq] at hend hbuilt
    exact ⟨hb.trans (Builds.mono hbuilt nofun), hend.2⟩
  | error e h' =>
    rw [heq] at hend hbuilt
    cases e with
    | fault f => trivial
    | failure cause => exact ⟨hb.trans (Builds.mono hbuilt nofun), hend.2⟩

theorem allocatePointers_builds (hx : Trusted known x) (slots : Nat) :
    Upholds (Builds written base) known (allocatePointers x slots) := by
  refine upholds_of_ends (allocatePointers_stable hx slots) fun h whole hknown => ?_
  have hsane : Sane h x := hx.sane hknown
  have hends := (whole.allots_pointers hsane slots).ends
  exact (hends.and (whole.allocatePointers_quiet hsane slots)).mono fun _ hq => ⟨hq.1, hq.2.spells⟩

theorem allocateBytes_builds (hx : Trusted known x) (content : Array UInt8) :
    Upholds (Builds written base) known (allocateBytes x content) := by
  refine upholds_of_ends (allocateBytes_stable hx content) fun h whole hknown => ?_
  have hsane : Sane h x := hx.sane hknown
  have hends := whole.allocateBytes_ends hsane content
  exact (hends.and (whole.allocateBytes_quiet hsane content)).mono fun _ hq => ⟨hq.1, hq.2.spells⟩

/-- A new object is none of those that there were. -/
theorem Builds.allocatePointers_fresh (hb : Builds written base h) (hx : h.arenas.Sane x)
    {slots : Nat} (heq : allocatePointers x slots h = .ok v h') : ¬base.arenas.Sane v :=
  hb.fresh (hb.whole.allocatePointers_ok hx heq).2.1

theorem newDictionary_builds (hx : Trusted known x) (buckets : Nat) :
    Upholds (Builds written base) known (newDictionary x buckets) := by
  have hfresh : ∀ (h : Heap) (d : Value) (h' : Heap), Builds written base h →
      (∀ v ∈ known, Sane h v) →
      allocatePointers x (Slot.Dictionary.buckets + buckets) h = .ok d h' →
      ¬base.arenas.Sane d := by
    intro h d h' hb hknown heq
    have hsane : Sane h x := hx.sane hknown
    exact hb.allocatePointers_fresh hsane heq
  refine .bind_of (allocatePointers_builds hx _) hfresh fun d hd => ?_
  refine .bind (setSlot_builds (by simp) _ (by simp) (absurd · hd)) fun _ => ?_
  exact .pure (by simp)

theorem newDictionary_empty {d : Value} {count : Nat} (whole : h.Whole) (hx : h.arenas.Sane x)
    (hpos : 0 < count) (hsmall : Slot.Dictionary.buckets + count < 0x100000000)
    (heq : newDictionary x count h = .ok d h') :
    h'.Files ⟨⟨d, []⟩, List.replicate count []⟩ ∧ ¬h.arenas.Sane d := by
  have hsize : h'.size d = .ok (Slot.Dictionary.buckets + count) := by
    obtain ⟨v, h₁, hnew, hrest⟩ := bind_eq_ok.mp heq
    obtain ⟨_, h₂, hset, hdone⟩ := bind_eq_ok.mp hrest
    obtain ⟨rfl, rfl⟩ := pure_eq_ok.mp hdone
    obtain ⟨hext, -, hshows⟩ := whole.allocatePointers_ok hx hnew
    have hsane := hshows.sane hext.whole.sound
    have hr := hext.whole.rewrites hsane (.inr (.inl (by simp))) hset
    rw [Heap.size, hr.header hsane, ← Heap.size, hshows.size hext.whole.sound,
      List.length_replicate, Nat.mod_eq_of_lt hsmall]
  obtain ⟨hfiles, -, hfresh⟩ := newDictionary_files whole hx heq hsize
    (by simp only [Slot.Dictionary.buckets]; omega)
  rw [Nat.add_sub_cancel_left] at hfiles
  exact ⟨hfiles, hfresh⟩

/-- Wherever a put writes to, bytes and headers stay. -/
theorem dictionaryPut_builds {linkClass d key value : Value} (hlink : Trusted known linkClass)
    (hd : Trusted known d) (hkey : Trusted known key) (hvalue : Trusted known value) :
    Upholds (Builds (fun _ => True) base) known (dictionaryPut linkClass d key value) := by
  refine .bind (.query fun h hb hknown => ?_) fun found => ?_
  · have hsane : Sane h d := hd.sane hknown
    exact Whole.yields_dictionaryLink hb.whole hsane key
  cases found with
  | some link =>
    refine .bind (setSlot_builds (by simp) _ (by simp [hvalue]) fun _ => trivial) fun _ => ?_
    exact .pure (by simp)
  | none =>
    refine .bind (allocatePointers_builds (by simp [hlink]) _) fun link => ?_
    refine .bind (.inspect fun _ => rfl) fun bucket => ?_
    refine .bind (setSlot_builds (by simp) _ (by simp [hkey]) fun _ => trivial) fun _ => ?_
    refine .bind (setSlot_builds (by simp) _ (by simp [hvalue]) fun _ => trivial) fun _ => ?_
    refine .bind (.slot Builds.intact (by simp [hd]) _) fun next => ?_
    refine .bind (setSlot_builds (by simp) _ (by simp) fun _ => trivial) fun _ => ?_
    refine .bind (setSlot_builds (by simp [hd]) _ (by simp) fun _ => trivial) fun _ => ?_
    refine .bind (.slot Builds.intact (by simp [hd]) _) fun tally => ?_
    refine .bind (setSlot_builds (by simp [hd]) _ (trusted_getD_ofInt? _) fun _ => trivial)
      fun _ => ?_
    exact .pure (by simp)

/-- An object that was made with so many slots that their number wraps has fewer cells. -/
theorem size_of_cells {n : Nat} (hsize : h.size v = .ok (n % 0x100000000))
    (hcells : ∀ k < n, ∃ x, h.Holds ⟨v, k⟩ x) : h.size v = .ok n := by
  cases n with
  | zero => exact hsize
  | succ n =>
    obtain ⟨x, hx⟩ := hcells n (Nat.lt_succ_self n)
    obtain ⟨loc, header, hloc, hh, -, hn, -⟩ := slot_eq_ok hx.slot
    have hcount : header.size.toNat = (n + 1) % 0x100000000 := by
      simp only [size, Heap.header, locate, hloc, hh, bind, Except.bind, pure,
        Except.pure] at hsize
      exact Except.ok.inj hsize
    rw [hsize]
    dsimp only at hn
    congr 1
    omega

end Heap

namespace Image

variable {base i i' : Image} {v : Value}

def Spelled (i : Image) : Prop :=
  ∀ {name v}, i.symbols.lookup name = some v → i.heap.Spells v (Text.toBytes name)

structure Adds (written : Cell → Prop) (base i : Image) : Prop where
  intact : Intact i
  spelled : i.Spelled
  heap : base.heap.Builds written i.heap
  known : i.known = base.known
  symbols : ∀ {name v}, base.symbols.lookup name = some v → i.symbols.lookup name = some v

theorem Adds.refl (hi : Intact i) (hs : i.Spelled) : Adds written i i :=
  ⟨hi, hs, .refl hi.whole, rfl, fun h => h⟩

theorem Adds.trans (ha : Adds written base i) (ha' : Adds written i i') :
    Adds written base i' :=
  ⟨ha'.intact, ha'.spelled, ha.heap.trans ha'.heap, ha'.known.trans ha.known,
    fun hname => ha'.symbols (ha.symbols hname)⟩

theorem Adds.mono {written' : Cell → Prop} (ha : Adds written base i)
    (hw : ∀ c, base.heap.arenas.Sane c.object → written c → written' c) : Adds written' base i :=
  ⟨ha.intact, ha.spelled, ha.heap.mono hw, ha.known, ha.symbols⟩

theorem Adds.sane (ha : Adds written base i) (hv : Sane base v) : Sane i v := ha.heap.grows v hv

theorem Adds.kernelClass (ha : Adds written base i) (k : KernelClass) :
    i.kernelClass k = base.kernelClass k := by
  rw [Image.kernelClass, Image.kernelClass, ha.known]

theorem Adds.globals (ha : Adds written base i) : i.globals = base.globals := by
  rw [Image.globals, Image.globals, Image.get, Image.get, ha.known]

/-- New objects may be reshaped in any way. -/
theorem Adds.reshape {objects : List Value} {heap : Heap} (ha : Adds written base i)
    (hr : i.heap.Reshapes objects heap) (hnew : ∀ v ∈ objects, ¬Sane base v) :
    Adds written base { i with heap } :=
  ⟨⟨hr.whole, fun v hv => hr.grows v (ha.intact.held v hv)⟩,
    fun hname => hr.spells (ha.spelled hname), ha.heap.reshape hr hnew, ha.known, ha.symbols⟩

/-- A step of the memory that keeps bytes. -/
theorem onHeap_adds {α : Type} [Holder α] {act : Action HeapError Heap α}
    (hact : Upholds (Heap.Builds written base.heap) known act)
    (hspells : ∀ h, Upholds (Heap.Builds (fun _ => True) h) known act) :
    Upholds (Adds written base) known (onHeap act) := by
  intro i hi hknown
  have hboth : Leaves (fun h => base.heap.Builds written h ∧ i.heap.Builds (fun _ => True) h) i.heap
      (act i.heap) := by
    have hleaves := hact i.heap hi.heap hknown
    have hleaves' := hspells i.heap i.heap (.refl hi.intact.whole) hknown
    match heq : act i.heap, hleaves, hleaves' with
    | .ok _ _, hleaves, hleaves' => exact ⟨⟨hleaves.1, hleaves'.1⟩, hleaves.2⟩
    | .error (.failure _) _, hleaves, hleaves' => exact ⟨⟨hleaves.1, hleaves'.1⟩, hleaves.2⟩
    | .error (.fault _) _, _, _ => trivial
  refine .within Image.heap (fun i heap => { i with heap }) .allocation hboth ?_ rfl (fun _ => rfl)
    fun heap hb hgrows => ?_
  · rw [onHeap]
    cases act i.heap <;> rfl
  · exact ⟨⟨hb.1.whole, fun v hv => hgrows.sane (hi.intact.held v hv)⟩,
      fun hname => hb.2.spells (hi.spelled hname), hb.1, hi.known, hi.symbols⟩

theorem setSlot_adds {x : Value} (hv : Trusted known v) (k : Nat) (hx : Trusted known x)
    (hw : base.heap.arenas.Sane v → written ⟨v, k⟩) :
    Upholds (Adds written base) known (onHeap (Heap.setSlot v k x)) :=
  onHeap_adds (Heap.setSlot_builds hv k hx hw) fun _ => Heap.setSlot_builds hv k hx fun _ => trivial

theorem allocatePointers_adds (hv : Trusted known v) (slots : Nat) :
    Upholds (Adds written base) known (onHeap (Heap.allocatePointers v slots)) :=
  onHeap_adds (Heap.allocatePointers_builds hv slots) fun _ => Heap.allocatePointers_builds hv slots

theorem allocateBytes_adds (hv : Trusted known v) (content : Array UInt8) :
    Upholds (Adds written base) known (onHeap (Heap.allocateBytes v content)) :=
  onHeap_adds (Heap.allocateBytes_builds hv content) fun _ => Heap.allocateBytes_builds hv content

theorem newDictionary_adds (hv : Trusted known v) (buckets : Nat) :
    Upholds (Adds written base) known (onHeap (Heap.newDictionary v buckets)) :=
  onHeap_adds (Heap.newDictionary_builds hv buckets) fun _ => Heap.newDictionary_builds hv buckets

/-- A new object may be filled in any way. -/
theorem allocate_bind_adds {α : Type} [Holder α] (hv : Trusted known v) (slots : Nat)
    {next : Value → ImageAction α}
    (hnext : ∀ object, ¬base.heap.arenas.Sane object →
      Upholds (Adds written base) (held object ++ known) (next object)) :
    Upholds (Adds written base) known (onHeap (Heap.allocatePointers v slots) >>= next) := by
  refine .bind_of (allocatePointers_adds hv slots) ?_ hnext
  intro i object i' hi hknown heq
  obtain ⟨heap, hmade, -⟩ := onHeap_eq_ok.mp heq
  have hsane : Sane i v := hv.sane hknown
  exact hi.heap.allocatePointers_fresh hsane hmade

theorem get_bind_adds {α : Type} [Holder α] {next : Image → ImageAction α}
    (hnext : ∀ i, Upholds (Adds written base) (held i ++ known) (next i)) :
    Upholds (Adds written base) known (EStateM.get >>= next) :=
  .get_bind (fun _ => Adds.intact) fun i _ => hnext i

theorem intern_adds (name : String) : Upholds (Adds written base) known (intern name) := by
  intro i hi hknown
  have hstable := intern_stable name i hi.intact hknown
  have hupholds : Upholds (Adds written base) [i.kernelClass .symbol]
      (onHeap (Heap.allocateBytes (i.kernelClass .symbol) (Text.toBytes name))) :=
    allocateBytes_adds (by simp) _
  have hclass : Sane i (i.kernelClass .symbol) := hi.intact.held _ (i.kernelClass_mem_values _)
  have hallocate := hupholds i hi (by simpa using hclass)
  rw [onHeap_apply] at hallocate
  rw [intern_eq] at hstable ⊢
  cases hlookup : i.symbols.lookup name with
  | some symbol =>
    rw [SymbolTable.intern_of_some hlookup] at hstable ⊢
    exact ⟨hi, hstable.2⟩
  | none =>
    rw [SymbolTable.intern_of_none hlookup] at hstable ⊢
    cases hnew : Heap.allocateBytes (i.kernelClass .symbol) (Text.toBytes name) i.heap with
    | error e heap =>
      rw [hnew] at hallocate
      exact hallocate
    | ok symbol heap =>
      rw [hnew] at hstable hallocate
      obtain ⟨ha, -⟩ := hallocate
      refine ⟨⟨hstable.1, fun {name' v} hv => ?_, ha.heap, ha.known, fun {name' v} hv => ?_⟩,
        hstable.2⟩
      · rw [SymbolTable.lookup_insert] at hv
        split at hv
        case isTrue hsame =>
          obtain rfl := Option.some.inj hv
          subst hsame
          exact (Heap.allocateBytes_spells hi.intact.whole.sound hnew).2.1
        case isFalse => exact ha.spelled hv
      · rw [SymbolTable.lookup_insert]
        split
        case isTrue hsame =>
          subst hsame
          exact nomatch hlookup.symm.trans (hi.symbols hv)
        case isFalse => exact hi.symbols hv

theorem internAll_adds (names : List String) :
    Upholds (Adds written base) known (internAll names) := by
  induction names generalizing known with
  | nil => exact .pure (by simp)
  | cons name names ih =>
    refine .bind (intern_adds name) fun symbol => ?_
    refine .bind ih fun symbols => .pure ?_
    simp +contextual

theorem newString_adds (text : String) : Upholds (Adds written base) known (newString text) :=
  get_bind_adds fun _ => allocateBytes_adds (by simp) _

theorem fillSlots_adds (hv : Trusted known v) (k : Nat) {items : List Value}
    (hitems : ∀ x ∈ items, Trusted known x)
    (hw : base.heap.arenas.Sane v → ∀ j, k ≤ j → written ⟨v, j⟩) :
    Upholds (Adds written base) known (fillSlots v k items) := by
  induction items generalizing k with
  | nil => exact .pure (by simp)
  | cons x items ih =>
    have hx := hitems x List.mem_cons_self
    refine .bind (setSlot_adds hv k hx fun hsane => hw hsane k (Nat.le_refl k)) fun _ => ?_
    exact ih (k + 1) (fun x hx => hitems x (List.mem_cons_of_mem _ hx))
      fun hsane j hj => hw hsane j (by omega)

theorem newArray_adds {items : List Value} (hitems : ∀ x ∈ items, Trusted known x) :
    Upholds (Adds written base) known (newArray items) := by
  refine get_bind_adds fun i => allocate_bind_adds (by simp) _ fun array hfresh => ?_
  refine .bind (fillSlots_adds (by simp) 0 (fun x hx => by simp [hitems x hx]) (absurd · hfresh))
    fun _ => ?_
  exact .pure (by simp)

section Loading

mutual

theorem loadCode_adds {known : List Value} {code methodClass : Value} (hcode : Trusted known code)
    (hclass : Trusted known methodClass) (hfresh : ¬base.heap.arenas.Sane code) :
    ∀ t : CodeTemplate, Upholds (Adds written base) known (loadCode code methodClass t)
  | ⟨selector, bytecode, literals, args, temps, heapVars, stack⟩ => by
    refine get_bind_adds fun i => ?_
    refine .bind (allocateBytes_adds (by simp) _) fun bytes => ?_
    refine get_bind_adds fun i => allocate_bind_adds (by simp) _ fun table htable => ?_
    refine .bind (loadInto_adds (by simp) 0 (by simp [hclass]) htable literals) fun _ => ?_
    refine .bind (intern_adds selector) fun selector => ?_
    refine fillSlots_adds (by simp [hcode]) 0 ?_ (absurd · hfresh)
    simp [hclass]

theorem loadInto_adds {known : List Value} {table methodClass : Value}
    (htable : Trusted known table) (k : Nat) (hclass : Trusted known methodClass)
    (hfresh : ¬base.heap.arenas.Sane table) :
    ∀ cs : List Constant, Upholds (Adds written base) known (loadInto table k methodClass cs)
  | [] => .pure (by simp)
  | c :: cs => by
    refine .bind (loadConstant_adds hclass c) fun v => ?_
    refine .bind (setSlot_adds (by simp [htable]) k (by simp) (absurd · hfresh)) fun _ => ?_
    exact loadInto_adds (by simp [htable]) (k + 1) (by simp [hclass]) hfresh cs

theorem loadConstant_adds {known : List Value} {methodClass : Value}
    (hclass : Trusted known methodClass) :
    ∀ c : Constant, Upholds (Adds written base) known (loadConstant methodClass c)
  | .integer n => by
    rw [loadConstant]
    split
    · rename_i v heq
      exact .pure (by simp [Heap.trusted_ofInt? heq])
    · exact .fail _
  | .string s => newString_adds s
  | .symbol s => intern_adds s
  | .array items => by
    refine .bind (loadConstants_adds hclass items) fun values => ?_
    exact newArray_adds fun v hv => by simp [hv]
  | .block t => by
    refine get_bind_adds fun i => allocate_bind_adds (by simp) _ fun block hblock => ?_
    refine .bind (loadCode_adds (by simp) (by simp [hclass]) hblock t) fun _ => ?_
    exact .pure (by simp)

theorem loadConstants_adds {known : List Value} {methodClass : Value}
    (hclass : Trusted known methodClass) :
    ∀ cs : List Constant, Upholds (Adds written base) known (loadConstants methodClass cs)
  | [] => .pure (by simp)
  | c :: cs => by
    refine .bind (loadConstant_adds hclass c) fun v => ?_
    refine .bind (loadConstants_adds (by simp [hclass]) cs) fun vs => ?_
    exact .pure (by simp +contextual)

end

theorem load_adds (t : CodeTemplate) {methodClass : Value} (hclass : Trusted known methodClass) :
    Upholds (Adds written base) known (load t methodClass) := by
  refine get_bind_adds fun i => allocate_bind_adds (by simp) _ fun method hmethod => ?_
  refine .bind (loadCode_adds (by simp) (by simp [hclass]) hmethod t) fun _ => ?_
  exact .pure (by simp)

end Loading

def Furnishes (cls : Value) (c : Cell) : Prop :=
  c.object = cls ∧ c.index ≠ Slot.Class.superclass

theorem furnish_adds {cls : Value} (hcls : Trusted known cls) (name : String) (vars : List String)
    (size : Nat)
    (hw : base.heap.arenas.Sane cls → ∀ k, k ≠ Slot.Class.superclass → written ⟨cls, k⟩) :
    Upholds (Adds written base) known (furnish cls name vars size) := by
  refine .bind (intern_adds name) fun symbol => ?_
  refine get_bind_adds fun i => ?_
  refine .bind (newDictionary_adds (by simp) _) fun methods => ?_
  refine .bind (internAll_adds vars) fun symbols => ?_
  refine .bind (newArray_adds fun v hv => by simp [hv]) fun names => ?_
  refine .bind (setSlot_adds (by simp [hcls]) _ (by simp) fun h => hw h _ (by decide)) fun _ => ?_
  refine .bind (setSlot_adds (by simp [hcls]) _ (by simp) fun h => hw h _ (by decide)) fun _ => ?_
  refine .bind (setSlot_adds (by simp [hcls]) _ (by simp) fun h => hw h _ (by decide)) fun _ => ?_
  exact setSlot_adds (by simp [hcls]) _ (by simp) fun h => hw h _ (by decide)

theorem furnishPair_leaves {cls metaclass : Value} (ha : Adds written base i)
    (hcls : Sane i cls) (hisa : i.heap.isa cls = .ok metaclass) (name : String) (vars : List String)
    (hw : base.heap.arenas.Sane cls → ∀ k, k ≠ Slot.Class.superclass → written ⟨cls, k⟩)
    (hw' : base.heap.arenas.Sane metaclass → ∀ k, k ≠ Slot.Class.superclass →
      written ⟨metaclass, k⟩) : Leaves (Adds written base) i (furnishPair cls name vars i) := by
  refine .query fun m hm => ?_
  obtain rfl := Except.ok.inj (hisa.symm.trans hm)
  have hupholds : Upholds (Adds written base) [cls, metaclass]
      (furnish cls name vars vars.length >>= fun _ =>
        furnish metaclass (name ++ " class") KernelClass.classVariables Slot.Class.count) :=
    .bind (furnish_adds (by simp) _ _ _ hw) fun _ => furnish_adds (by simp) _ _ _ hw'
  refine hupholds i ha ?_
  simpa using ⟨hcls, ha.intact.whole.yields_isa hcls _ hm _ (by simp)⟩

theorem setGlobal_adds (name : String) (hv : Trusted known v) :
    Upholds (Adds (fun _ => True) base) known (setGlobal name v) := by
  refine .bind (intern_adds name) fun symbol => get_bind_adds fun i => ?_
  have hput : ∀ h, Upholds (Heap.Builds (fun _ => True) h) (held i ++ (held symbol ++ known))
      (Heap.dictionaryPut (i.kernelClass .link) i.globals symbol v) := fun _ =>
    Heap.dictionaryPut_builds (by simp) (by simp) (by simp) (by simp [hv])
  exact .bind (onHeap_adds (hput _) hput) fun _ => .pure (by simp)

section Delivered

variable {α : Type} [Holder α] {a : α}

/-- What a step made of the image when it delivered. -/
theorem Adds.of_ok (written : Cell → Prop) (known : List Value) {act : ImageAction α}
    (hact : Upholds (Adds written i) known act) (hi : Intact i) (hs : i.Spelled)
    (hknown : ∀ v ∈ known, Sane i v) (heq : act i = .ok a i') :
    Adds written i i' ∧ ∀ v ∈ held a, Sane i' v := by
  have hleaves := hact i (.refl hi hs) hknown
  rw [heq] at hleaves
  exact ⟨hleaves.1, hleaves.2.2⟩

/-- A new object, or no room for one. -/
theorem allocatePointers_cases {isa : Value} (hi : Intact i) (hs : i.Spelled) (hisa : Sane i isa)
    (count : Nat) (hcount : count < 0x100000000) :
    (∃ v i', onHeap (Heap.allocatePointers isa count) i = .ok v i' ∧
      Adds (fun _ => False) i i' ∧ i'.symbols = i.symbols ∧ Sane i' v ∧ ¬Sane i v ∧
      ∀ k < count, i'.heap.Holds ⟨v, k⟩ .nil) ∨
    ∃ cause i', onHeap (Heap.allocatePointers isa count) i =
        .error (.failure (.allocation cause)) i' ∧
      Adds (fun _ => False) i i' ∧ i'.symbols = i.symbols := by
  have hupholds : Upholds (Adds (fun _ => False) i) [isa]
      (onHeap (Heap.allocatePointers isa count)) := allocatePointers_adds (by simp) _
  have hleaves := hupholds i (.refl hi hs) (by simpa using hisa)
  have hallots : i.heap.Allots (Heap.allocatePointers isa count i.heap) :=
    hi.whole.allots_pointers hisa count
  rw [onHeap_apply] at hleaves ⊢
  cases hnew : Heap.allocatePointers isa count i.heap with
  | ok v heap =>
    rw [hnew] at hleaves
    obtain ⟨hext, hfresh, hshows⟩ := hi.whole.allocatePointers_ok hisa hnew
    rw [Nat.mod_eq_of_lt hcount] at hshows
    refine .inl ⟨v, _, rfl, hleaves.1, rfl, hleaves.2.2 v (by simp), hfresh, fun k hk => ?_⟩
    exact hshows.holds hext.whole (by rw [List.getElem?_replicate, if_pos hk])
  | error e heap =>
    rw [hnew] at hleaves hallots
    cases e with
    | fault f => exact hallots.elim
    | failure cause => exact .inr ⟨cause, _, rfl, hleaves.1, rfl⟩

theorem intern_lookup {name : String} {symbol : Value} (heq : intern name i = .ok symbol i') :
    i'.symbols.lookup name = some symbol := by
  rw [intern_eq] at heq
  cases hlookup : i.symbols.lookup name with
  | some symbol =>
    rw [SymbolTable.intern_of_some hlookup] at heq
    cases heq
    exact hlookup
  | none =>
    rw [SymbolTable.intern_of_none hlookup] at heq
    cases hnew : Heap.allocateBytes (i.kernelClass .symbol) (Text.toBytes name) i.heap with
    | error e heap =>
      rw [hnew] at heq
      cases heq
    | ok made heap =>
      rw [hnew] at heq
      cases heq
      exact (SymbolTable.lookup_insert ..).trans (if_pos rfl)

theorem intern_eq_ok {name : String} {symbol : Value} (hi : Intact i) (hs : i.Spelled)
    (heq : intern name i = .ok symbol i') :
    Adds (fun _ => False) i i' ∧ Sane i' symbol ∧ i'.symbols.lookup name = some symbol := by
  obtain ⟨ha, hsane⟩ := Adds.of_ok (fun _ => False) [] (intern_adds name) hi hs (by simp) heq
  exact ⟨ha, hsane _ (by simp), intern_lookup heq⟩

theorem internAll_eq_ok {names : List String} {symbols : List Value} (hi : Intact i)
    (hs : i.Spelled) (heq : internAll names i = .ok symbols i') :
    Adds (fun _ => False) i i' ∧ (∀ v ∈ symbols, Sane i' v) ∧
      List.Forall₂ (fun name symbol => i'.symbols.lookup name = some symbol) names symbols := by
  induction names generalizing i symbols with
  | nil =>
    obtain ⟨rfl, rfl⟩ := pure_eq_ok.mp heq
    exact ⟨.refl hi hs, List.forall_mem_nil _, .nil⟩
  | cons name names ih =>
    obtain ⟨symbol, i₁, hfirst, heq⟩ := bind_eq_ok.mp heq
    obtain ⟨rest, i₂, hrest, heq⟩ := bind_eq_ok.mp heq
    obtain ⟨rfl, rfl⟩ := pure_eq_ok.mp heq
    obtain ⟨ha, hsane, hlookup⟩ := intern_eq_ok hi hs hfirst
    obtain ⟨ha', hsanes, hlookups⟩ := ih ha.intact ha.spelled hrest
    exact ⟨ha.trans ha', List.forall_mem_cons.mpr ⟨ha'.sane hsane, hsanes⟩,
      .cons (ha'.symbols hlookup) hlookups⟩

theorem rewrites_of_ok {k : Nat} {x : Value} {u : Unit} (hi : i.heap.Whole) (hv : Sane i v)
    (hx : Sane i x) (heq : onHeap (Heap.setSlot v k x) i = .ok u i') :
    i.heap.Rewrites i'.heap ⟨v, k⟩ x := by
  obtain ⟨heap, hset, rfl⟩ := onHeap_eq_ok.mp heq
  exact hi.rewrites hv hx hset

theorem fillSlots_holds {k : Nat} {items : List Value} (hi : Intact i) (hs : i.Spelled)
    (hv : Sane i v) (hitems : ∀ x ∈ items, Sane i x) (heq : fillSlots v k items i = .ok () i')
    {j : Nat} {x : Value} (hx : items[j]? = some x) : i'.heap.Holds ⟨v, k + j⟩ x := by
  induction items generalizing i k j with
  | nil => cases hx
  | cons y items ih =>
    obtain ⟨_, i₁, hset, hrest⟩ := bind_eq_ok.mp heq
    obtain ⟨hy, hothers⟩ := List.forall_mem_cons.mp hitems
    have ha := (Adds.of_ok (fun _ => True) [v, y] (setSlot_adds (by simp) k (by simp)
      fun _ => trivial) hi hs (by simp [hv, hy]) hset).1
    have hothers₁ : ∀ x ∈ items, Sane i₁ x := fun x hx => ha.sane (hothers x hx)
    cases j with
    | zero =>
      obtain rfl := Option.some.inj hx
      -- Later slots are other cells.
      have hr := rewrites_of_ok hi.whole hv hy hset
      have ha' := (Adds.of_ok (fun c => k < c.index) (v :: items) (fillSlots_adds (by simp) (k + 1)
        (fun x hx => by simp [Trusted, hx]) fun _ j hj => hj) ha.intact ha.spelled
        (List.forall_mem_cons.mpr ⟨ha.sane hv, hothers₁⟩) hrest).1
      exact ha'.heap.kept (by simp) hr.written
    | succ j =>
      have hheld := ih ha.intact ha.spelled (ha.sane hv) hothers₁ hrest hx
      rwa [Nat.add_right_comm, Nat.add_assoc] at hheld

theorem newArray_eq_ok {items : List Value} {array : Value} (hi : Intact i) (hs : i.Spelled)
    (hitems : ∀ x ∈ items, Sane i x) (heq : newArray items i = .ok array i') :
    Adds (fun _ => False) i i' ∧ Sane i' array ∧ ¬Sane i array ∧
      i'.heap.size array = .ok items.length ∧
      ∀ {k x}, items[k]? = some x → i'.heap.Holds ⟨array, k⟩ x := by
  obtain ⟨ha, hsane⟩ := Adds.of_ok (fun _ => False) items
    (newArray_adds fun x hx => trusted_of_mem hx) hi hs hitems heq
  have harray : Sane i' array := hsane array (by simp)
  obtain ⟨_, _, hget, heq⟩ := bind_eq_ok.mp heq
  cases hget
  obtain ⟨object, i₁, hmade, heq⟩ := bind_eq_ok.mp heq
  obtain ⟨_, i₂, hfill, heq⟩ := bind_eq_ok.mp heq
  obtain ⟨rfl, rfl⟩ := pure_eq_ok.mp heq
  obtain ⟨heap, hallocate, rfl⟩ := onHeap_eq_ok.mp hmade
  have hclass : i.heap.arenas.Sane (i.kernelClass .array) := hi.held _ (by simp)
  obtain ⟨hext, hfresh, hshows⟩ := hi.whole.allocatePointers_ok hclass hallocate
  have ha₁ := (Adds.of_ok (fun _ => False) [i.kernelClass .array]
    (allocatePointers_adds (by simp) _) hi hs (by simpa [Sane] using hclass) hmade).1
  have hobject : heap.arenas.Sane object := hshows.sane hext.whole.sound
  have hitems₁ : ∀ x ∈ items, Sane { i with heap } x := fun x hx => ha₁.sane (hitems x hx)
  have ha₂ := (Adds.of_ok (fun _ => True) (object :: items) (fillSlots_adds (by simp) 0
    (fun x hx => by simp [Trusted, hx]) fun _ _ _ => trivial) ha₁.intact ha₁.spelled
    (List.forall_mem_cons.mpr ⟨hobject, hitems₁⟩) hfill).1
  have hholds : ∀ {k x}, items[k]? = some x → i₂.heap.Holds ⟨object, k⟩ x := fun hx => by
    simpa using fillSlots_holds ha₁.intact ha₁.spelled hobject hitems₁ hfill hx
  have hsize : i₂.heap.size object = .ok (items.length % 0x100000000) := by
    rw [ha₂.heap.size hobject, hshows.size hext.whole.sound, List.length_replicate]
  exact ⟨ha, harray, hfresh, Heap.size_of_cells hsize fun k hk =>
    ⟨_, hholds (List.getElem?_eq_getElem hk)⟩, hholds⟩

theorem furnish_eq_ok {cls : Value} {name : String} {vars : List String} (hi : Intact i)
    (hs : i.Spelled) (hcls : Sane i cls)
    (heq : furnish cls name vars vars.length i = .ok () i') :
    ∃ methods array, Adds (Furnishes cls) i i' ∧
      i'.heap.Fitted ⟨cls, name, methods, array, vars⟩ ∧
      i'.heap.Files ⟨⟨methods, []⟩, List.replicate Heap.methodBuckets []⟩ ∧
      ¬Sane i methods ∧ ¬Sane i array ∧ Sane i' array ∧ array ≠ methods := by
  have hadds := (Adds.of_ok (Furnishes cls) [cls] (furnish_adds (by simp) name vars _
    fun _ k hk => ⟨rfl, hk⟩) hi hs (by simpa using hcls) heq).1
  obtain ⟨symbol, i₁, hsymbol, heq⟩ := bind_eq_ok.mp heq
  obtain ⟨ha₁, hsymbol₁, hlookup⟩ := intern_eq_ok hi hs hsymbol
  obtain ⟨_, _, hget, heq⟩ := bind_eq_ok.mp heq
  cases hget
  obtain ⟨methods, i₂, hmethods, heq⟩ := bind_eq_ok.mp heq
  have hclass : Sane i₁ (i₁.kernelClass .dictionary) := ha₁.intact.held _ (by simp)
  obtain ⟨ha₂, hsane₂⟩ := Adds.of_ok (fun _ => False) [i₁.kernelClass .dictionary]
    (newDictionary_adds (by simp) _) ha₁.intact ha₁.spelled (by simpa using hclass) hmethods
  obtain ⟨heap, hmade, rfl⟩ := onHeap_eq_ok.mp hmethods
  obtain ⟨symbols, i₃, hsymbols, heq⟩ := bind_eq_ok.mp heq
  obtain ⟨ha₃, hsane₃, hnames⟩ := internAll_eq_ok ha₂.intact ha₂.spelled hsymbols
  obtain ⟨array, i₄, harray, heq⟩ := bind_eq_ok.mp heq
  obtain ⟨ha₄, harray_sane, harray_fresh, hcount, hitems⟩ :=
    newArray_eq_ok ha₃.intact ha₃.spelled hsane₃ harray
  obtain ⟨_, i₅, hset₅, heq⟩ := bind_eq_ok.mp heq
  obtain ⟨_, i₆, hset₆, heq⟩ := bind_eq_ok.mp heq
  obtain ⟨_, i₇, hset₇, hset₈⟩ := bind_eq_ok.mp heq
  have hcls₃ : Sane i₃ cls := ha₃.sane (ha₂.sane (ha₁.sane hcls))
  have hmethods₃ : Sane i₃ methods := ha₃.sane (hsane₂ _ (by simp))
  have hsymbol₄ : Sane i₄ symbol := ha₄.sane (ha₃.sane (ha₂.sane hsymbol₁))
  have hr₅ := rewrites_of_ok ha₄.intact.whole (ha₄.sane hcls₃) hsymbol₄ hset₅
  have hcls₅ : Sane i₅ cls := hr₅.grows _ (ha₄.sane hcls₃)
  have hr₆ := rewrites_of_ok hr₅.whole hcls₅ (hr₅.grows _ (ha₄.sane hmethods₃)) hset₆
  have hcls₆ : Sane i₆ cls := hr₆.grows _ hcls₅
  have hr₇ := rewrites_of_ok hr₆.whole hcls₆ (hr₆.grows _ (hr₅.grows _ harray_sane)) hset₇
  have hr₈ := rewrites_of_ok hr₇.whole (hr₇.grows _ hcls₆) (.inr (.inl (by simp))) hset₈
  have hlater : i₄.heap.Builds (Furnishes cls) i'.heap :=
    ((hr₅.builds ⟨rfl, by simp⟩).trans (hr₆.builds ⟨rfl, by simp⟩)).trans
      ((hr₇.builds ⟨rfl, by simp⟩).trans (hr₈.builds ⟨rfl, by simp⟩))
  -- The class is older than its dictionary and the array of its names.
  have hmethods_fresh : ¬Sane i₁ methods :=
    (Heap.newDictionary_empty ha₁.intact.whole hclass (by decide) (by decide) hmade).2
  have hmethods_ne : methods ≠ cls := fun heq => hmethods_fresh (heq ▸ ha₁.sane hcls)
  have harray_ne : array ≠ cls := fun heq => harray_fresh (heq ▸ hcls₃)
  refine ⟨methods, array, hadds, ⟨?title, ?methods, ?array, hr₈.written, ?count, ?names⟩, ?files,
    fun hold => hmethods_fresh (ha₁.sane hold),
    fun hold => harray_fresh (ha₃.sane (ha₂.sane (ha₁.sane hold))), hlater.grows _ harray_sane,
    fun heq => harray_fresh (heq ▸ hmethods₃)⟩
  case title =>
    refine ⟨symbol, hr₈.others (by simp) (hr₇.others (by simp) (hr₆.others (by simp) hr₅.written)),
      hlater.spells (ha₄.spelled ?_)⟩
    exact ha₄.symbols (ha₃.symbols (ha₂.symbols hlookup))
  case methods => exact hr₈.others (by simp) (hr₇.others (by simp) hr₆.written)
  case array => exact hr₈.others (by simp) hr₇.written
  case count => rw [hlater.size harray_sane, hcount, hnames.length_eq]
  case names =>
    intro k name hname
    obtain ⟨hk, rfl⟩ := List.getElem?_eq_some_iff.mp hname
    have hk' : k < symbols.length := hnames.length_eq ▸ hk
    refine ⟨symbols[k], hlater.kept (fun hw => harray_ne hw.1)
      (hitems (List.getElem?_eq_getElem hk')), hlater.spells (ha₄.spelled (ha₄.symbols ?_))⟩
    exact List.forall₂_iff_get.mp hnames |>.2 k hk hk'
  case files =>
    have hfiles :=
      (Heap.newDictionary_empty ha₁.intact.whole hclass (by decide) (by decide) hmade).1
    have hfiles₄ := (hfiles.frame ha₂.intact.whole ha₃.heap.toExtends fun _ _ => id).frame
      ha₃.intact.whole ha₄.heap.toExtends fun _ _ => id
    refine hfiles₄.frame ha₄.intact.whole hlater.toExtends fun c hc hw => hmethods_ne ?_
    rw [← hw.1]
    simpa [Filing.parts, Filing.entries, eq_comm] using hc

end Delivered

end Image

end ObjectMachine
