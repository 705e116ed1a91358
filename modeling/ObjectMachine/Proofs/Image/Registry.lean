import ObjectMachine.Proofs.Image.Additions
import ObjectMachine.Proofs.Machine.Integrity

namespace ObjectMachine

namespace Image

variable {i i' : Image} {ws : List Wiring} {os : List Outfit} {ts : List Filing}

/-- The classes on record are wired and fitted, and the dictionaries on record are those of their
methods and the globals. The globals are filed under symbols. -/
structure Registers (i : Image) (ws : List Wiring) (os : List Outfit) (ts : List Filing) :
    Prop where
  intact : Intact i
  spelled : i.Spelled
  shelves : i.heap.Shelves ts
  globals : ∃ t ∈ ts, t.ledger.object = i.globals
  named : ∀ t ∈ ts, t.ledger.object = i.globals → ∀ k x, t.ledger.puts.lookup k = some x →
    ∃ name, i.symbols.lookup name = some k
  wired : ∀ w ∈ ws, i.heap.Wired w
  fitted : ∀ o ∈ os, i.heap.Fitted o
  methods : ∀ o ∈ os, ∃ t ∈ ts, t.ledger.object = o.methods
  methodsApart : ∀ o ∈ os, o.methods ≠ i.globals
  /-- No class is part of a dictionary, nor is an array of names. -/
  wiredApart : ∀ w ∈ ws, ∀ t ∈ ts, w.object ∉ t.parts
  fittedApart : ∀ o ∈ os, ∀ t ∈ ts, o.object ∉ t.parts ∧ o.array ∉ t.parts
  arraysApart : ∀ w ∈ ws, ∀ o ∈ os, w.object ≠ o.array

/-- The image knows the same objects, and the same classes are on record. -/
def Keeps (known : Array Value) (ws : List Wiring) (os : List Outfit) (i : Image) : Prop :=
  i.known = known ∧ ∃ ts, i.Registers ws os ts

namespace Registers

variable {w : Wiring} {o : Outfit} {t : Filing}

theorem part_sane (hr : i.Registers ws os ts) (ht : t ∈ ts) {v : Value} (hv : v ∈ t.parts) :
    Sane i v := (hr.shelves.files t ht).part_sane hv

theorem array_sane (hr : i.Registers ws os ts) (ho : o ∈ os) : Sane i o.array :=
  (hr.fitted o ho).array.value_sane hr.intact.whole

theorem keeps (hr : i.Registers ws os ts) : Keeps i.known ws os i := ⟨rfl, ts, hr⟩

/-- Fewer classes on record. -/
theorem mono {ws' : List Wiring} {os' : List Outfit} (hr : i.Registers ws' os' ts) (hws : ws ⊆ ws')
    (hos : os ⊆ os') : i.Registers ws os ts :=
  ⟨hr.intact, hr.spelled, hr.shelves, hr.globals, hr.named, fun w hw => hr.wired w (hws hw),
    fun o ho => hr.fitted o (hos ho), fun o ho => hr.methods o (hos ho),
    fun o ho => hr.methodsApart o (hos ho), fun w hw => hr.wiredApart w (hws hw),
    fun o ho => hr.fittedApart o (hos ho),
    fun w hw o ho => hr.arraysApart w (hws hw) o (hos ho)⟩

/-- Writing that misses the record. -/
theorem writes {written : Cell → Prop} (hr : i.Registers ws os ts) (ha : Adds written i i')
    (hws : ∀ w ∈ ws, ¬written ⟨w.object, Slot.Class.superclass⟩)
    (hos : ∀ o ∈ os, ∀ k, ¬written ⟨o.object, k⟩ ∧ ¬written ⟨o.array, k⟩)
    (hts : ∀ t ∈ ts, ∀ c : Cell, c.object ∈ t.parts → ¬written c) : i'.Registers ws os ts where
  intact := ha.intact
  spelled := ha.spelled
  shelves := ⟨ha.intact.whole, fun t ht =>
    (hr.shelves.files t ht).frame hr.intact.whole ha.heap.toExtends (hts t ht), hr.shelves.disjoint⟩
  globals := by
    rw [ha.globals]
    exact hr.globals
  named := by
    rw [ha.globals]
    intro t ht hglobals k x hx
    obtain ⟨name, hname⟩ := hr.named t ht hglobals k x hx
    exact ⟨name, ha.symbols hname⟩
  wired w hw := (hr.wired w hw).frame ha.heap.toExtends (hws w hw)
  fitted o ho := (hr.fitted o ho).frame hr.intact.whole ha.heap.toExtends ha.heap.spells
    (fun k => (hos o ho k).1) fun k => (hos o ho k).2
  methods := hr.methods
  methodsApart := by
    rw [ha.globals]
    exact hr.methodsApart
  wiredApart := hr.wiredApart
  fittedApart := hr.fittedApart
  arraysApart := hr.arraysApart

theorem adds (hr : i.Registers ws os ts) (ha : Adds (fun _ => False) i i') :
    i'.Registers ws os ts :=
  hr.writes ha (fun _ _ => id) (fun _ _ _ => ⟨id, id⟩) fun _ _ _ _ => id

theorem wire (hr : i.Registers ws os ts) (ha : Adds (fun _ => False) i i') {ws' : List Wiring}
    (hnew : ∀ w ∈ ws', ¬Sane i w.object) (hwired : ∀ w ∈ ws', i'.heap.Wired w) :
    i'.Registers (ws' ++ ws) os ts := by
  have hr' := hr.adds ha
  refine ⟨ha.intact, ha.spelled, hr'.shelves, hr'.globals, hr'.named, fun w hw => ?_, hr'.fitted,
    hr'.methods, hr'.methodsApart, fun w hw t ht hpart => ?_, hr'.fittedApart,
    fun w hw o ho heq => ?_⟩
  all_goals rcases List.mem_append.mp hw with hw | hw
  · exact hwired w hw
  · exact hr'.wired w hw
  · exact hnew w hw (hr.part_sane ht hpart)
  · exact hr.wiredApart w hw t ht hpart
  · exact hnew w hw (heq ▸ hr.array_sane ho)
  · exact hr.arraysApart w hw o ho heq

theorem furnish (hr : i.Registers ws os ts) (hw : w ∈ ws) (hnew : ∀ o ∈ os, o.object ≠ w.object)
    {name : String} {vars : List String}
    (heq : furnish w.object name vars vars.length i = .ok () i') :
    ∃ o t, i'.Registers ws (o :: os) (t :: ts) ∧ i'.known = i.known ∧ o.object = w.object ∧
      o.names = vars := by
  have hcls : Sane i w.object := (hr.wired w hw).sane
  obtain ⟨methods, array, ha, hfitted, hfiles, hmethods, harray, -, hne⟩ :=
    furnish_eq_ok hr.intact hr.spelled hcls heq
  have hr' := hr.writes ha (fun _ _ h => h.2 rfl)
    (fun o ho k => ⟨fun h => hnew o ho h.1, fun h => hr.arraysApart w hw o ho h.1.symm⟩)
    fun t ht c hc h => hr.wiredApart w hw t ht (h.1 ▸ hc)
  have hparts : ∀ {v}, v ∈ (Filing.mk ⟨methods, []⟩ (List.replicate Heap.methodBuckets [])).parts →
      v = methods := fun hv => by simpa [Filing.parts, Filing.entries] using hv
  -- The dictionary and the array of names were nowhere before.
  have hold : ∀ {v}, Sane i v → v ≠ methods ∧ v ≠ array := fun hv =>
    ⟨fun heq => hmethods (heq ▸ hv), fun heq => harray (heq ▸ hv)⟩
  refine ⟨⟨w.object, name, methods, array, vars⟩,
    ⟨⟨methods, []⟩, List.replicate Heap.methodBuckets []⟩, ?_, ha.known, rfl, rfl⟩
  have hglobals : methods ≠ i'.globals := by
    obtain ⟨t, ht, hglobals⟩ := hr.globals
    rw [ha.globals, ← hglobals]
    exact (hold (hr.part_sane ht List.mem_cons_self)).1.symm
  refine ⟨ha.intact, ha.spelled, ?shelves, ?globals,
    List.forall_mem_cons.mpr ⟨fun heq => absurd heq hglobals, hr'.named⟩, hr'.wired,
    List.forall_mem_cons.mpr ⟨hfitted, hr'.fitted⟩, ?methods,
    List.forall_mem_cons.mpr ⟨hglobals, hr'.methodsApart⟩, ?wiredApart, ?fittedApart,
    ?arraysApart⟩
  case shelves =>
    refine ⟨ha.intact.whole, List.forall_mem_cons.mpr ⟨hfiles, hr'.shelves.files⟩,
      List.pairwise_cons.mpr ⟨fun t ht v hv hv' => ?_, hr.shelves.disjoint⟩⟩
    exact (hold (hr.part_sane ht hv')).1 (hparts hv)
  case globals =>
    obtain ⟨t, ht, hglobals⟩ := hr'.globals
    exact ⟨t, List.mem_cons_of_mem _ ht, hglobals⟩
  case methods =>
    refine List.forall_mem_cons.mpr ⟨⟨_, List.mem_cons_self, rfl⟩, fun o ho => ?_⟩
    obtain ⟨t, ht, heq⟩ := hr.methods o ho
    exact ⟨t, List.mem_cons_of_mem _ ht, heq⟩
  case wiredApart =>
    refine fun v hv => List.forall_mem_cons.mpr ⟨fun hpart => ?_, hr.wiredApart v hv⟩
    exact (hold (hr.wired v hv).sane).1 (hparts hpart)
  case fittedApart =>
    refine List.forall_mem_cons.mpr ⟨List.forall_mem_cons.mpr ⟨⟨?_, ?_⟩, fun t ht => ⟨?_, ?_⟩⟩,
      fun o ho => List.forall_mem_cons.mpr ⟨⟨?_, ?_⟩, hr.fittedApart o ho⟩⟩
    · exact fun hpart => (hold hcls).1 (hparts hpart)
    · exact fun hpart => hne (hparts hpart)
    · exact hr.wiredApart w hw t ht
    · exact fun hpart => harray (hr.part_sane ht hpart)
    · exact fun hpart => (hold (hr.fitted o ho).methods.sane).1 (hparts hpart)
    · exact fun hpart => (hold (hr.array_sane ho)).1 (hparts hpart)
  case arraysApart =>
    exact fun v hv => List.forall_mem_cons.mpr ⟨(hold (hr.wired v hv).sane).2, hr.arraysApart v hv⟩

theorem furnishPair {m : Wiring} (hr : i.Registers ws os ts) (hw : w ∈ ws) (hm : m ∈ ws)
    (hisa : w.isa = m.object) (hne : w.object ≠ m.object)
    (hnew : ∀ o ∈ os, o.object ≠ w.object ∧ o.object ≠ m.object) {name : String}
    {vars : List String} (heq : Image.furnishPair w.object name vars i = .ok () i') :
    ∃ p q ts', i'.Registers ws (q :: p :: os) ts' ∧ i'.known = i.known ∧ p.object = w.object ∧
      p.names = vars ∧ q.object = m.object ∧ q.names = KernelClass.classVariables := by
  obtain ⟨metaclass, hread, heq⟩ := query_bind_eq_ok.mp heq
  obtain rfl : m.object = metaclass := by
    rw [← hisa]
    exact Except.ok.inj ((hr.wired w hw).isa.symm.trans hread)
  obtain ⟨_, i₁, hfirst, hsecond⟩ := bind_eq_ok.mp heq
  obtain ⟨p, t, hr₁, hknown₁, hp, hpnames⟩ := hr.furnish hw (fun o ho => (hnew o ho).1) hfirst
  obtain ⟨q, t', hr₂, hknown₂, hq, hqnames⟩ := hr₁.furnish hm
    (List.forall_mem_cons.mpr ⟨hp ▸ hne, fun o ho => (hnew o ho).2⟩) hsecond
  exact ⟨p, q, _, hr₂, hknown₂.trans hknown₁, hp, hpnames, hq, hqnames⟩

theorem put {heap : Heap} {us : List Filing} {t' : Filing}
    (hr : i.Registers ws os (ts ++ t :: us)) (hfiles : heap.Files t')
    (hledger : t'.ledger.object = t.ledger.object)
    (he : i.heap.Extends (fun c => c.object ∈ t.parts) heap)
    (hspells : ∀ {v content}, i.heap.Spells v content → heap.Spells v content)
    (hparts : ∀ v ∈ t'.parts, v ∈ t.parts ∨ ¬i.heap.arenas.Sane v)
    (hnamed : t.ledger.object = i.globals → ∀ k x, t'.ledger.puts.lookup k = some x →
      ∃ name, i.symbols.lookup name = some k) :
    Registers { i with heap } ws os (ts ++ t' :: us) := by
  have ht : t ∈ ts ++ t :: us := by simp
  -- Every dictionary is the one that it was, or the one that got the pair.
  have hmem : ∀ {u}, u ∈ ts ++ t' :: us → u = t' ∨ u ∈ ts ++ t :: us := fun hu => by
    simp only [List.mem_append, List.mem_cons] at hu ⊢
    tauto
  have hsame : ∀ {v}, (∃ u ∈ ts ++ t :: us, u.ledger.object = v) →
      ∃ u ∈ ts ++ t' :: us, u.ledger.object = v := by
    rintro v ⟨u, hu, rfl⟩
    simp only [List.mem_append, List.mem_cons] at hu ⊢
    rcases hu with hu | rfl | hu
    · exact ⟨u, .inl hu, rfl⟩
    · exact ⟨t', .inr (.inl rfl), hledger⟩
    · exact ⟨u, .inr (.inr hu), rfl⟩
  have hapart : ∀ {v}, Sane i v → (∀ u ∈ ts ++ t :: us, v ∉ u.parts) →
      ∀ u ∈ ts ++ t' :: us, v ∉ u.parts := by
    intro v hv hold u hu
    rcases hmem hu with rfl | hu
    · exact fun hpart => (hparts v hpart).elim (hold t ht) (absurd hv)
    · exact hold u hu
  refine ⟨⟨he.whole, fun v hv => he.grows v (hr.intact.held v hv)⟩,
    fun hname => hspells (hr.spelled hname), (hr.shelves.put hfiles he hparts).1, hsame hr.globals,
    fun u hu hglobals => ?_, fun w hw => (hr.wired w hw).frame he (hr.wiredApart w hw t ht),
    fun o ho => (hr.fitted o ho).frame hr.intact.whole he hspells
      (fun _ => (hr.fittedApart o ho t ht).1) fun _ => (hr.fittedApart o ho t ht).2,
    fun o ho => hsame (hr.methods o ho), hr.methodsApart,
    fun w hw => hapart (hr.wired w hw).sane (hr.wiredApart w hw), fun o ho u hu => ⟨?_, ?_⟩,
    hr.arraysApart⟩
  · rcases hmem hu with rfl | hu
    · exact hnamed (hledger.symm.trans hglobals)
    · exact hr.named u hu hglobals
  · exact hapart (hr.fitted o ho).methods.sane (fun u hu => (hr.fittedApart o ho u hu).1) u hu
  · exact hapart (hr.array_sane ho) (fun u hu => (hr.fittedApart o ho u hu).2) u hu

/-- A put into a dictionary of the record, whether or not there is room for it. -/
theorem enters (hr : i.Registers ws os ts) (ht : t ∈ ts) {linkClass k x : Value}
    (hclass : Sane i linkClass) (hk : Sane i k) (hx : Sane i x)
    (hnamed : t.ledger.object = i.globals → ∃ name, i.symbols.lookup name = some k) :
    Action.Ends (Keeps i.known ws os)
      (onHeap (Heap.dictionaryPut linkClass t.ledger.object k x) i) := by
  have hsane : ∀ v ∈ [linkClass, t.ledger.object, k, x], Sane i.heap v := by
    simp only [List.forall_mem_cons]
    exact ⟨hclass, (hr.shelves.files t ht).sane, hk, hx, List.forall_mem_nil _⟩
  have hputs := (hr.shelves.files t ht).put hr.intact.whole hclass hk hx
  have hupholds : Upholds (Heap.Builds (fun _ => True) i.heap) [linkClass, t.ledger.object, k, x]
      (Heap.dictionaryPut linkClass t.ledger.object k x) :=
    Heap.dictionaryPut_builds (by simp) (by simp) (by simp) (by simp)
  have hbuilds := hupholds i.heap (.refl hr.intact.whole) hsane
  rw [onHeap_apply]
  cases heq : Heap.dictionaryPut linkClass t.ledger.object k x i.heap with
  | ok link heap =>
    rw [heq] at hputs hbuilds
    cases hputs with
    | @done t' _ _ hledger hfiles hext hparts hlink hreuse =>
      obtain ⟨ts, us, rfl⟩ := List.append_of_mem ht
      refine ⟨rfl, _, hr.put hfiles (by rw [hledger]; rfl) hext hbuilds.1.spells hparts ?_⟩
      intro hglobals k' x' hx'
      rw [hledger, Ledger.note, lookup_cons_eq_some_iff] at hx'
      rcases hx' with ⟨rfl, -⟩ | ⟨-, hx'⟩
      · exact hnamed hglobals
      · exact hr.named t ht hglobals k' x' hx'
  | error e heap =>
    rw [heq] at hputs hbuilds
    cases hputs with
    | refused hext =>
      refine ⟨rfl, ts, hr.adds ⟨⟨hext.whole, fun v hv => hext.grows v (hr.intact.held v hv)⟩,
        fun hname => hbuilds.1.spells (hr.spelled hname), ⟨hext, hbuilds.1.spells⟩, rfl, id⟩⟩

end Registers

/-- A step that adds objects and symbols keeps the record. -/
theorem Keeps.adds {α : Type} [Holder α] {objects : Array Value} (hk : Keeps objects ws os i)
    (known : List Value) {act : ImageAction α}
    (hact : Upholds (Adds (fun _ => False) i) known act) (hknown : ∀ v ∈ known, Sane i v) :
    Leaves (Keeps objects ws os) i (act i) := by
  obtain ⟨rfl, ts, hr⟩ := hk
  exact (hact i (.refl hr.intact hr.spelled) hknown).mono fun i' ha => ⟨ha.known, ts, hr.adds ha⟩

theorem Keeps.setGlobal {objects : Array Value} (hk : Keeps objects ws os i) (name : String)
    {v : Value} (hv : Sane i v) : Action.Ends (Keeps objects ws os) (setGlobal name v i) := by
  have hintern := hk.adds [] (intern_adds name) (by simp)
  refine .bind (fun cause i' heq => hintern.failure heq) fun symbol i' heq => ?_
  have hname := intern_lookup heq
  rw [heq] at hintern
  obtain ⟨⟨rfl, ts, hr⟩, hgrows, hsymbol⟩ := hintern
  obtain ⟨t, ht, hglobals⟩ := hr.globals
  have hput := hr.enters ht (hr.intact.held _ (i'.kernelClass_mem_values .link))
    (hsymbol symbol (by simp)) (hgrows.sane hv) fun _ => ⟨name, hname⟩
  rw [hglobals] at hput
  exact hput.andThen fun _ _ hk' => hk'

theorem Keeps.install {objects : Array Value} (hk : Keeps objects ws os i) {o : Outfit}
    (ho : o ∈ os) (selector : String) {method : Value} (hmethod : Sane i method) :
    Action.Ends (Keeps objects ws os) (install o.object selector method i) := by
  have hintern := hk.adds [] (intern_adds selector) (by simp)
  refine .bind (fun cause i' heq => hintern.failure heq) fun symbol i' heq => ?_
  rw [heq] at hintern
  obtain ⟨⟨rfl, ts, hr⟩, hgrows, hsymbol⟩ := hintern
  obtain ⟨t, ht, hmethods⟩ := hr.methods o ho
  have hput := hr.enters ht (hr.intact.held _ (i'.kernelClass_mem_values .link))
    (hsymbol symbol (by simp)) (hgrows.sane hmethod) fun hglobals =>
      absurd (hmethods.symm.trans hglobals) (hr.methodsApart o ho)
  rw [hmethods, onHeap_apply] at hput
  have hread : (Action.query (·.slot o.object Slot.Class.methods) : Action HeapError Heap Value)
      i'.heap = .ok o.methods i'.heap := query_of_eq_ok (hr.fitted o ho).methods.slot
  change Action.Ends _
    (onHeap (Heap.installMethod (i'.kernelClass .link) o.object symbol method) i')
  rw [onHeap_apply, Heap.installMethod, bind_of_eq_ok hread]
  cases heq : Heap.dictionaryPut (i'.kernelClass .link) o.methods symbol method i'.heap with
  | ok link heap =>
    rw [heq] at hput
    rw [bind_of_eq_ok heq]
    exact hput
  | error e heap =>
    rw [heq] at hput
    rw [bind_of_eq_error heq]
    cases e <;> exact hput

theorem Keeps.addMethod {objects : Array Value} (hk : Keeps objects ws os i) {o : Outfit}
    (ho : o ∈ os) (m : Method) : Action.Ends (Keeps objects ws os) (addMethod o.object m i) := by
  refine .query fun vars _ => ?_
  cases m.compile vars with
  | error e => cases e <;> first | exact hk | trivial
  | ok t =>
    have hcls : Sane i o.object := by
      obtain ⟨-, ts, hr⟩ := hk
      exact (hr.fitted o ho).methods.sane
    have hload := hk.adds [o.object] (load_adds t (trusted_of_mem List.mem_cons_self))
      (by simpa using hcls)
    change Action.Ends _ ((load t o.object >>= fun method =>
      Image.install o.object t.selector method >>= fun _ => pure method : ImageAction Value) i)
    refine .bind (fun cause i' heq => hload.failure heq) fun method i' heq => ?_
    rw [heq] at hload
    exact (hload.1.install ho _ (hload.2.2 method (by simp))).andThen fun _ _ hk' => hk'

theorem Keeps.addMethods {objects : Array Value} (hk : Keeps objects ws os i) {o : Outfit}
    (ho : o ∈ os) (ms : List Method) :
    Action.Ends (Keeps objects ws os) (addMethods o.object ms i) := by
  induction ms generalizing i with
  | nil => exact hk
  | cons m ms ih => exact (hk.addMethod ho m).andThen fun _ i' hk' => ih hk'

theorem Keeps.addAll {objects : Array Value} (hk : Keeps objects ws os i) {w : Wiring}
    {p q : Outfit} (hw : w ∈ ws) (hp : p ∈ os) (hq : q ∈ os) (hobject : w.object = p.object)
    (hisa : w.isa = q.object) (ms ms' : List Method) :
    Action.Ends (Keeps objects ws os) ((do
      Image.addMethods p.object ms
      let metaclass ← ask (·.isa p.object)
      Image.addMethods metaclass ms'
      return p.object : ImageAction Value) i) := by
  refine (hk.addMethods hp ms).andThen fun _ i₁ hk₁ => .query fun metaclass hread => ?_
  obtain rfl : q.object = metaclass := by
    obtain ⟨-, ts, hr⟩ := hk₁
    rw [← hisa]
    exact Except.ok.inj ((hobject ▸ (hr.wired w hw).isa).symm.trans hread)
  exact (hk₁.addMethods hq ms').andThen fun _ _ hk₂ => hk₂

section Collecting

variable {f : Address → Address} {s : Schedule}

structure Relocates (f : Address → Address) (s : Schedule) (i i' : Image) : Prop where
  collected : ∃ live, i.collect s = .ok (.ok live, s.withRoots (s.roots.map (Value.relocate f)), i')
  moved : i.heap.Moved i'.heap (i.roots ++ s.roots) f
  known : i'.known = i.known.map (Value.relocate f)
  symbols : ∀ name, i'.symbols.lookup name = (i.symbols.lookup name).map (Value.relocate f)

/-- Garbage can be collected at any time. -/
theorem exists_relocates (hi : Intact i) (hs : ∀ v ∈ s.roots, Sane i v) :
    ∃ f i', Relocates f s i i' := by
  have hroots : ∀ v ∈ i.roots ++ s.roots, i.heap.arenas.Sane v := by
    intro v hv
    rcases List.mem_append.mp hv with hv | hv
    · exact hi.held v (List.mem_cons_of_mem _ hv)
    · exact hs v hv
  obtain ⟨heap, roots', live, f, hcollect, moved, rfl⟩ :=
    Heap.collect_isomorphic hi.whole.sound hi.whole.closed hroots
  have hcollect' : i.heap.collect (i.roots ++ s.roots) = .ok (heap, _, .ok live) := hcollect
  have hsplit : (i.roots ++ s.roots).map (Value.relocate f) =
      i.symbols.roots.map (Value.relocate f) ++ (i.known.toList.map (Value.relocate f) ++
        s.roots.map (Value.relocate f)) := by
    rw [roots, List.map_append, List.map_append, List.append_assoc]
  have hsymbols : (i.symbols.roots.map (Value.relocate f)).length = i.symbols.size := by
    rw [List.length_map, SymbolTable.length_roots]
  have hknown : (i.known.toList.map (Value.relocate f)).length = i.known.size := by simp
  refine ⟨f, ⟨heap, i.symbols.withRoots (i.symbols.roots.map (Value.relocate f)),
    (i.known.toList.map (Value.relocate f)).toArray, i.transcript⟩, ⟨live, ?_⟩, moved, ?_,
    SymbolTable.lookup_withRoots _ _⟩
  · simp only [collect, bind, Except.bind, hcollect', List.splitAt_eq]
    rw [hsplit, ← hsymbols, List.take_left, List.drop_left, ← hknown, List.take_left,
      List.drop_left]
    rfl
  · exact (Array.toList_map ▸ Array.toArray_toList : _ = _)

theorem Relocates.intact (hrel : Relocates f s i i') (hi : Intact i)
    (hs : ∀ v ∈ s.roots, Sane i v) : Intact i' := by
  obtain ⟨live, hcollect⟩ := hrel.collected
  obtain ⟨_, _, _, hcollect', hintact, -⟩ := collect_intact hi hs
  rw [hcollect] at hcollect'
  cases hcollect'
  exact hintact

theorem Relocates.get (hrel : Relocates f s i i') (k : Known) :
    i'.get k = (i.get k).relocate f := by
  rw [Image.get, Image.get, hrel.known]
  by_cases hk : k.index < i.known.size
  · simp [Array.getD, hk]
  · simp [Array.getD, hk]
    rfl

theorem taken_of_values {v : Value} (hi : Intact i) (hv : v ∈ i.values) :
    i.heap.Taken (i.roots ++ s.roots) v := by
  refine ⟨hi.held v hv, fun loc hloc => ?_⟩
  rcases List.mem_cons.mp hv with rfl | hv
  · cases hloc
  · exact .root (List.mem_append_left _ hv) hloc

/-- A collection that takes the classes along. -/
theorem Registers.collect (hr : i.Registers ws os ts) (hrel : Relocates f s i i')
    (hs : ∀ v ∈ s.roots, Sane i v)
    (hws : ∀ w ∈ ws, i.heap.Taken (i.roots ++ s.roots) w.object)
    (hos : ∀ o ∈ os, i.heap.Taken (i.roots ++ s.roots) o.object) :
    ∃ ts', i'.Registers (ws.map (Wiring.relocate f)) (os.map (Outfit.relocate f)) ts' := by
  classical
  have hintact := hrel.intact hr.intact hs
  have whole := hr.intact.whole
  have sound := hintact.whole.sound
  have hmethods : ∀ o ∈ os, i.heap.Taken (i.roots ++ s.roots) o.methods := fun o ho =>
    Heap.Taken.value whole (c := ⟨_, _⟩) (hos o ho) (hr.fitted o ho).methods
  have harray : ∀ o ∈ os, i.heap.Taken (i.roots ++ s.roots) o.array := fun o ho =>
    Heap.Taken.value whole (c := ⟨_, _⟩) (hos o ho) (hr.fitted o ho).array
  -- Other dictionaries than those of the globals and of methods may be lost.
  let kept := ts.filter fun t => i.heap.Taken (i.roots ++ s.roots) t.ledger.object
  have hkept : ∀ {t}, t ∈ kept ↔ t ∈ ts ∧ i.heap.Taken (i.roots ++ s.roots) t.ledger.object := by
    simp [kept]
  have hapart : ∀ {v}, i.heap.Taken (i.roots ++ s.roots) v → (∀ t ∈ ts, v ∉ t.parts) →
      ∀ t ∈ kept.map (Filing.relocate f), v.relocate f ∉ t.parts := by
    intro v hv hold t' ht' hpart
    obtain ⟨t, ht, rfl⟩ := List.mem_map.mp ht'
    obtain ⟨ht, htaken⟩ := hkept.mp ht
    rw [Filing.parts_relocate] at hpart
    obtain ⟨x, hx, heq⟩ := List.mem_map.mp hpart
    have hx' := (hr.shelves.files t ht).part_taken whole htaken hx
    exact hold t ht (hrel.moved.injective sound hx' hv heq ▸ hx)
  have hisGlobals : ∀ {v}, i.heap.Taken (i.roots ++ s.roots) v → v.relocate f = i'.globals →
      v = i.globals := fun hv heq => hrel.moved.injective sound hv
    (taken_of_values hr.intact (by simp)) (heq.trans (hrel.get .globals))
  have hshelves : i.heap.Shelves kept := ⟨whole, fun t ht => hr.shelves.files t (hkept.mp ht).1,
    hr.shelves.disjoint.sublist List.filter_sublist⟩
  refine ⟨kept.map (Filing.relocate f), hintact, fun {name v} hv => ?spelled,
    hshelves.moved hrel.moved hintact.whole fun t ht => (hkept.mp ht).2, ?globals, ?named, ?wired,
    ?fitted, ?methods, ?methodsApart, ?wiredApart, ?fittedApart, ?arraysApart⟩
  case spelled =>
    rw [hrel.symbols] at hv
    obtain ⟨x, hx, rfl⟩ := Option.map_eq_some_iff.mp hv
    refine hrel.moved.spells sound (taken_of_values hr.intact ?_) (hr.spelled hx)
    simp [values, roots, SymbolTable.mem_roots_iff.mpr ⟨name, hx⟩]
  case globals =>
    obtain ⟨t, ht, hglobals⟩ := hr.globals
    refine ⟨t.relocate f, List.mem_map_of_mem (hkept.mpr ⟨ht, ?_⟩), ?_⟩
    · rw [hglobals]
      exact taken_of_values hr.intact (by simp)
    · exact (congrArg (Value.relocate f) hglobals).trans (hrel.get .globals).symm
  case named =>
    refine List.forall_mem_map.mpr fun t ht hglobals k' x' hx' => ?_
    obtain ⟨ht, htaken⟩ := hkept.mp ht
    have hfiles := hr.shelves.files t ht
    obtain ⟨k, x, hx, rfl, rfl⟩ := (lookup_map fun a ha b hb heq => hrel.moved.injective sound
      (hfiles.key_taken whole htaken (hfiles.mem_keys_iff.mpr ha))
      (hfiles.key_taken whole htaken (hfiles.mem_keys_iff.mpr hb)) heq).mp hx'
    obtain ⟨name, hname⟩ := hr.named t ht (hisGlobals htaken hglobals) k x hx
    exact ⟨name, by rw [hrel.symbols, hname]; rfl⟩
  case methodsApart =>
    exact List.forall_mem_map.mpr fun o ho heq =>
      hr.methodsApart o ho (hisGlobals (hmethods o ho) heq)
  case wired =>
    exact List.forall_mem_map.mpr fun w hw => (hr.wired w hw).moved hrel.moved sound (hws w hw)
  case fitted =>
    exact List.forall_mem_map.mpr fun o ho =>
      (hr.fitted o ho).moved hrel.moved whole sound (hos o ho)
  case methods =>
    refine List.forall_mem_map.mpr fun o ho => ?_
    obtain ⟨t, ht, heq⟩ := hr.methods o ho
    exact ⟨t.relocate f, List.mem_map_of_mem (hkept.mpr ⟨ht, heq ▸ hmethods o ho⟩),
      congrArg (Value.relocate f) heq⟩
  case wiredApart =>
    exact List.forall_mem_map.mpr fun w hw => hapart (hws w hw) (hr.wiredApart w hw)
  case fittedApart =>
    refine List.forall_mem_map.mpr fun o ho t ht => ⟨?_, ?_⟩
    · exact hapart (hos o ho) (fun t ht => (hr.fittedApart o ho t ht).1) t ht
    · exact hapart (harray o ho) (fun t ht => (hr.fittedApart o ho t ht).2) t ht
  case arraysApart =>
    refine List.forall_mem_map.mpr fun w hw => List.forall_mem_map.mpr fun o ho heq => ?_
    exact hr.arraysApart w hw o ho (hrel.moved.injective sound (hws w hw) (harray o ho) heq)

end Collecting

end Image

end ObjectMachine
