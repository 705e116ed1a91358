import ObjectMachine.Image.Boot
import ObjectMachine.Proofs.Object.Stability

namespace ObjectMachine

variable {known : List Value}

namespace Image

section Values

variable (i : Image)

theorem getD_mem_values (n : Nat) : i.known.getD n .nil ∈ i.values := by
  rw [values, roots, Array.getD_eq_getD_getElem?]
  cases hn : i.known[n]? with
  | none => simp
  | some v =>
    have hmem : v ∈ i.known := Array.mem_of_getElem? hn
    simp [hmem]

@[simp] theorem get_mem_values (k : Known) : i.get k ∈ i.values := i.getD_mem_values _

@[simp] theorem kernelClass_mem_values (k : KernelClass) : i.kernelClass k ∈ i.values :=
  i.getD_mem_values _

@[simp] theorem globals_mem_values : i.globals ∈ i.values := i.getD_mem_values _

@[simp] theorem trueObject_mem_values : i.trueObject ∈ i.values := i.getD_mem_values _

@[simp] theorem falseObject_mem_values : i.falseObject ∈ i.values := i.getD_mem_values _

@[simp] theorem boolean_mem_values (b : Bool) : i.boolean b ∈ i.values := by
  cases b <;> simp [boolean]

end Values

theorem kernelClass_sane {i : Image} (hi : Intact i) (k : KernelClass) :
    Sane i (i.kernelClass k) :=
  hi.held _ (i.kernelClass_mem_values k)

theorem symbol_sane {i : Image} (hi : Intact i) {name : String} {symbol : Value}
    (hname : i.symbols.lookup name = some symbol) : Sane i symbol := by
  refine hi.held symbol ?_
  simp [values, roots, SymbolTable.mem_roots_iff.mpr ⟨name, hname⟩]

theorem onHeap_stable {α : Type} [Holder α] {act : Action HeapError Heap α}
    (hact : Stable known act) : Stable known (onHeap act) := by
  refine hact.within Image.heap (fun i heap => { i with heap }) .allocation (fun i => ?_)
    (fun _ => rfl) (fun _ _ => rfl) nofun fun i heap v hv => .inr hv
  rw [onHeap]
  cases act i.heap <;> rfl

theorem intern_stable (name : String) : Stable known (intern name) := by
  refine .bind .get fun i => ?_
  split
  · rename_i symbol heq
    have hmem := SymbolTable.mem_roots_iff.mpr ⟨name, heq⟩
    exact .pure (by simp [values, roots, hmem])
  · refine .bind (onHeap_stable (Heap.allocateBytes_stable (by simp) _)) fun symbol => ?_
    refine .bind (.modify (fun _ => rfl) fun i v hv => ?_) fun _ => .pure (by simp)
    simp only [Holder.held, values, roots, List.mem_cons, List.mem_append] at hv ⊢
    rcases hv with rfl | hv | hv
    · exact .inl (.inl rfl)
    · rcases SymbolTable.mem_roots_of_insert hv with rfl | hv
      · simp
      · exact .inl (.inr (.inl hv))
    · exact .inl (.inr (.inr hv))

theorem internAll_stable (names : List String) : Stable known (internAll names) := by
  induction names generalizing known with
  | nil => exact .pure (by simp)
  | cons name names ih =>
    refine .bind (intern_stable name) fun symbol => ?_
    refine .bind ih fun symbols => .pure ?_
    simp +contextual

theorem newString_stable (text : String) : Stable known (newString text) :=
  .bind .get fun _ => onHeap_stable (Heap.allocateBytes_stable (by simp) _)

theorem fillSlots_stable {array : Value} (harray : Trusted known array) (i : Nat)
    {items : List Value} (hitems : ∀ v ∈ items, Trusted known v) :
    Stable known (fillSlots array i items) := by
  induction items generalizing i with
  | nil => exact .pure (by simp)
  | cons v items ih =>
    have hv := hitems v List.mem_cons_self
    refine .bind (onHeap_stable (Heap.setSlot_stable harray i hv)) fun _ => ?_
    exact ih _ fun v hv => hitems v (List.mem_cons_of_mem _ hv)

theorem newArray_stable {items : List Value} (hitems : ∀ v ∈ items, Trusted known v) :
    Stable known (newArray items) := by
  refine .bind .get fun i => ?_
  refine .bind (onHeap_stable (Heap.allocatePointers_stable (by simp) _)) fun array => ?_
  refine .bind (fillSlots_stable (by simp) 0 fun v hv => by simp [hitems v hv]) fun _ => ?_
  exact .pure (by simp)

theorem setGlobal_stable (name : String) {v : Value} (hv : Trusted known v) :
    Stable known (setGlobal name v) := by
  refine .bind (intern_stable name) fun symbol => ?_
  refine .bind .get fun i => ?_
  refine .bind (onHeap_stable (Heap.dictionaryPut_stable ?_ ?_ ?_ ?_)) fun _ => .pure (by simp)
  all_goals simp [hv]

section Contexts

variable {code receiver previous parentHeapVars : Value} {args : List Value}

theorem newContext_stable {home : Option Value} (hcode : Trusted known code)
    (hreceiver : Trusted known receiver) (hargs : ∀ v ∈ args, Trusted known v)
    (hprevious : Trusted known previous) (hparent : Trusted known parentHeapVars)
    (hhome : ∀ v ∈ held home, Trusted known v) :
    Stable known (newContext code receiver args previous parentHeapVars home) := by
  refine .bind (.inspect fun _ => rfl) fun shape => ?_
  refine .bind .get fun i => ?_
  refine .bind (onHeap_stable (Heap.allocatePointers_stable (by simp) _)) fun ctx => ?_
  have hfill : ∀ heapVars, Stable (held heapVars ++ (held ctx ++ (held i ++ (held shape ++ known))))
      (do
        fillSlots ctx 0
          [previous, receiver, code, .ofNat 0, heapVars, parentHeapVars, home.getD ctx, receiver]
        fillSlots ctx (Slot.Context.registers + 1) (args.take shape.args)
        return ctx) := by
    intro heapVars
    refine .bind (fillSlots_stable (by simp) _ ?_) fun _ => ?_
    · have hgetD : home.getD ctx = ctx ∨ Trusted known (home.getD ctx) := by
        cases home with
        | none => exact .inl rfl
        | some home => exact .inr (hhome home (by simp))
      rcases hgetD with h | h <;> simp [h, hprevious, hreceiver, hcode, hparent]
    · refine .bind (fillSlots_stable (by simp) _ fun v hv => ?_) fun _ => .pure (by simp)
      simp [hargs v (List.mem_of_mem_take hv)]
  dsimp only
  split
  · exact .bind (onHeap_stable (Heap.allocatePointers_stable (by simp) _)) hfill
  · exact .bind (.pure (by simp)) hfill

theorem blockContext?_stable {block : Value} (hblock : Trusted known block)
    (hargs : ∀ v ∈ args, Trusted known v) (hprevious : Trusted known previous) :
    Stable known (blockContext? block args previous) := by
  refine .bind (.inspect fun _ => rfl) fun shape => ?_
  split
  · exact .pure (by simp)
  · refine .bind (.slot (by simp [hblock]) _) fun receiver => ?_
    refine .bind (.slot (by simp [hblock]) _) fun parent => ?_
    refine .bind (.slot (by simp [hblock]) _) fun home => ?_
    refine .bind (newContext_stable (by simp [hblock]) (by simp) ?_ (by simp [hprevious]) (by simp)
      (by simp)) fun ctx => .pure (by simp)
    exact fun v hv => by simp [hargs v hv]

end Contexts

section Load

variable {code methodClass : Value}

theorem fillCode_stable {bytecode literals selector : Value} (hcode : Trusted known code)
    (hbytecode : Trusted known bytecode) (hliterals : Trusted known literals)
    (hselector : Trusted known selector) (hclass : Trusted known methodClass) (shape : CodeShape) :
    Stable known (fillCode code bytecode literals selector methodClass shape) :=
  fillSlots_stable hcode 0 (by simp [hbytecode, hliterals, hselector, hclass])

mutual

theorem loadCode_stable {known : List Value} {code methodClass : Value} (hcode : Trusted known code)
    (hclass : Trusted known methodClass) :
    ∀ t : CodeTemplate, Stable known (loadCode code methodClass t)
  | ⟨selector, bytecode, literals, args, temps, heapVars, stack⟩ => by
    refine .bind .get fun i => ?_
    refine .bind (onHeap_stable (Heap.allocateBytes_stable (by simp) _)) fun bytes => ?_
    refine .bind .get fun i => ?_
    refine .bind (onHeap_stable (Heap.allocatePointers_stable (by simp) _)) fun table => ?_
    refine .bind (loadInto_stable (by simp) 0 (by simp [hclass]) literals) fun _ => ?_
    refine .bind (intern_stable selector) fun selector => ?_
    apply fillCode_stable <;> simp [hcode, hclass]

theorem loadInto_stable {known : List Value} {table methodClass : Value}
    (htable : Trusted known table) (k : Nat) (hclass : Trusted known methodClass) :
    ∀ cs : List Constant, Stable known (loadInto table k methodClass cs)
  | [] => .pure (by simp)
  | c :: cs => by
    refine .bind (loadConstant_stable hclass c) fun v => ?_
    refine .bind (onHeap_stable (Heap.setSlot_stable (by simp [htable]) k (by simp))) fun _ => ?_
    exact loadInto_stable (by simp [htable]) (k + 1) (by simp [hclass]) cs

theorem loadConstant_stable {known : List Value} {methodClass : Value}
    (hclass : Trusted known methodClass) :
    ∀ c : Constant, Stable known (loadConstant methodClass c)
  | .integer n => by
    rw [loadConstant]
    split
    · rename_i v heq
      exact .pure (by simp [Heap.trusted_ofInt? heq])
    · exact .fail _
  | .string s => newString_stable s
  | .symbol s => intern_stable s
  | .array items => by
    refine .bind (loadConstants_stable hclass items) fun values => ?_
    exact newArray_stable fun v hv => by simp [hv]
  | .block t => by
    refine .bind .get fun i => ?_
    refine .bind (onHeap_stable (Heap.allocatePointers_stable (by simp) _)) fun block => ?_
    refine .bind (loadCode_stable (by simp) (by simp [hclass]) t) fun _ => ?_
    exact .pure (by simp)

theorem loadConstants_stable {known : List Value} {methodClass : Value}
    (hclass : Trusted known methodClass) :
    ∀ cs : List Constant, Stable known (loadConstants methodClass cs)
  | [] => .pure (by simp)
  | c :: cs => by
    refine .bind (loadConstant_stable hclass c) fun v => ?_
    refine .bind (loadConstants_stable (by simp [hclass]) cs) fun vs => ?_
    exact .pure (by simp +contextual)

end

theorem load_stable (t : CodeTemplate) (hclass : Trusted known methodClass) :
    Stable known (load t methodClass) := by
  refine .bind .get fun i => ?_
  refine .bind (onHeap_stable (Heap.allocatePointers_stable (by simp) _)) fun method => ?_
  refine .bind (loadCode_stable (by simp) (by simp [hclass]) t) fun _ => ?_
  exact .pure (by simp)

end Load

section Definitions

variable {cls : Value}

theorem compiled_stable (r : Except (Stop CompileError) CodeTemplate) :
    Stable known (compiled r) := by
  cases r with
  | ok t => exact .pure (by simp)
  | error e => exact .throw _

theorem furnish_stable (hcls : Trusted known cls) (name : String) (vars : List String)
    (size : Nat) : Stable known (furnish cls name vars size) := by
  refine .bind (intern_stable name) fun symbol => ?_
  refine .bind .get fun i => ?_
  refine .bind (onHeap_stable (Heap.newDictionary_stable (by simp) _)) fun methods => ?_
  refine .bind (internAll_stable vars) fun symbols => ?_
  refine .bind (newArray_stable fun v hv => by simp [hv]) fun names => ?_
  refine .bind (onHeap_stable (Heap.setSlot_stable (by simp [hcls]) _ (by simp))) fun _ => ?_
  refine .bind (onHeap_stable (Heap.setSlot_stable (by simp [hcls]) _ (by simp))) fun _ => ?_
  refine .bind (onHeap_stable (Heap.setSlot_stable (by simp [hcls]) _ (by simp))) fun _ => ?_
  exact onHeap_stable (Heap.setSlot_stable (by simp [hcls]) _ (by simp))

theorem furnishPair_stable (hcls : Trusted known cls) (name : String) (vars : List String) :
    Stable known (furnishPair cls name vars) := by
  refine .bind (.isa hcls) fun metaclass => ?_
  refine .bind (furnish_stable (by simp [hcls]) _ _ _) fun _ => ?_
  exact furnish_stable (by simp) _ _ _

theorem defineClass_stable (name : String) {sup : Value} (hsup : Trusted known sup)
    (vars : List String) : Stable known (defineClass name sup vars) := by
  refine .bind (onHeap_stable (Heap.allocatePointers_stable (by simp) _)) fun cls => ?_
  refine .bind (onHeap_stable (Heap.allocatePointers_stable (by simp) _)) fun metaclass => ?_
  refine .bind .get fun i => ?_
  refine .bind (onHeap_stable (Heap.wire_stable ?_ ?_ ?_ ?_ ?_)) fun _ => ?_
  case refine_6 =>
    refine .bind (.inspect fun names => by simp) fun inherited => ?_
    split
    · exact .fail _
    · refine .bind (furnishPair_stable (by simp) _ _) fun _ => ?_
      refine .bind (setGlobal_stable name (by simp)) fun _ => ?_
      refine .bind (.inspect fun _ => rfl) fun _ => .pure (by simp)
  all_goals simp [hsup]

theorem install_stable (hcls : Trusted known cls) (selector : String) {method : Value}
    (hmethod : Trusted known method) : Stable known (install cls selector method) := by
  refine .bind (intern_stable selector) fun symbol => ?_
  refine .bind .get fun i => onHeap_stable (Heap.installMethod_stable ?_ ?_ ?_ ?_)
  all_goals simp [hcls, hmethod]

theorem addMethod_stable (hcls : Trusted known cls) (m : Method) :
    Stable known (addMethod cls m) := by
  refine .bind (.inspect fun names => by simp) fun vars => ?_
  refine .bind (compiled_stable _) fun t => ?_
  refine .bind (load_stable t (by simp [hcls])) fun method => ?_
  refine .bind (install_stable (by simp [hcls]) _ (by simp)) fun _ => ?_
  exact .pure (by simp)

theorem addMethods_stable (hcls : Trusted known cls) (ms : List Method) :
    Stable known (addMethods cls ms) := by
  induction ms generalizing known with
  | nil => exact .pure (by simp)
  | cons m ms ih => exact .bind (addMethod_stable hcls m) fun method => ih (by simp [hcls])

theorem yields_global? {i : Image} (hi : Intact i) (name : String) :
    Yields i.heap (i.global? name) := by
  rw [global?]
  split
  · exact hi.whole.yields_dictionaryAt (hi.held _ (by simp)) _
  · exact .pure (by simp)

theorem yields_classOf {i : Image} (hi : Intact i) {v : Value} (hv : Sane i v) :
    Yields i.heap (i.classOf v) := by
  rw [classOf]
  split
  · exact .pure fun x hx => hi.held x (by simp_all)
  · split
    · exact .pure fun x hx => hi.held x (by simp_all)
    · exact hi.whole.yields_isa hv

theorem loadClass_stable (d : ClassDefinition) : Stable known (loadClass d) := by
  refine .bind (.query fun i hi _ => yields_global? hi _) fun sup => ?_
  cases sup with
  | none => exact .fail _
  | some sup =>
    refine .bind (defineClass_stable _ (by simp) _) fun cls => ?_
    refine .bind (addMethods_stable (by simp) _) fun _ => ?_
    refine .bind (.isa (by simp)) fun metaclass => ?_
    refine .bind (addMethods_stable (by simp) _) fun _ => ?_
    exact .pure (by simp)

theorem compileDoIt_stable (temps : List String) (body : List Expr) :
    Stable known (compileDoIt temps body) := by
  refine .bind (compiled_stable _) fun t => ?_
  exact .bind .get fun i => load_stable t (by simp)

end Definitions

section Boot

theorem allocatePairs_stable (ks : List KernelClass) : Stable known (allocatePairs ks) := by
  induction ks generalizing known with
  | nil => exact .pure (by simp)
  | cons k ks ih =>
    refine .bind (onHeap_stable (Heap.allocatePointers_stable (by simp) _)) fun cls => ?_
    refine .bind (onHeap_stable (Heap.allocatePointers_stable (by simp) _)) fun metaclass => ?_
    exact .bind ih fun pairs => .pure (by simp +contextual)

theorem wirePairs_stable {root rootMeta : Value} (hroot : Trusted known root)
    (hrootMeta : Trusted known rootMeta) {pairs : List (KernelClass × Value × Value)}
    (hpairs : ∀ p ∈ pairs, Trusted known p.2.1 ∧ Trusted known p.2.2) :
    Stable known (wirePairs root rootMeta pairs) := by
  induction pairs generalizing known with
  | nil => exact .pure (by simp)
  | cons pair pairs ih =>
    obtain ⟨k, cls, metaclass⟩ := pair
    obtain ⟨hcls, hmeta⟩ := hpairs _ List.mem_cons_self
    refine .bind .get fun i => ?_
    refine .bind (onHeap_stable (Heap.wire_stable (by simp [hcls]) (by simp [hmeta]) ?_
      (by simp [hroot]) (by simp [hrootMeta]))) fun _ => ?_
    · cases k.superclass? <;> simp
    · refine ih (by simp [hroot]) (by simp [hrootMeta]) fun p hp => ?_
      obtain ⟨hcls', hmeta'⟩ := hpairs p (List.mem_cons_of_mem _ hp)
      simp [hcls', hmeta']

theorem furnishKernel_stable (ks : List KernelClass) : Stable known (furnishKernel ks) := by
  induction ks generalizing known with
  | nil => exact .pure (by simp)
  | cons k ks ih =>
    refine .bind .get fun i => ?_
    refine .bind (furnishPair_stable (by simp) _ _) fun _ => ?_
    exact .bind (setGlobal_stable _ (by simp)) fun _ => ih

theorem checkKernel_stable (root rootMeta : Value) (classes : List Value) :
    Stable known (checkKernel root rootMeta classes) := by
  induction classes generalizing known with
  | nil => exact .pure (by simp)
  | cons cls classes ih => exact .bind (.inspect fun _ => rfl) fun _ => ih

theorem installKernel_stable (methods : List (KernelClass × Bool × List Method)) :
    Stable known (installKernel methods) := by
  induction methods generalizing known with
  | nil => exact .pure (by simp)
  | cons entry rest ih =>
    obtain ⟨k, onMetaclass, ms⟩ := entry
    refine .bind .get fun i => ?_
    have hadd : ∀ target, Stable (held target ++ (held i ++ known)) (do
        addMethods target ms
        installKernel rest) :=
      fun target => .bind (addMethods_stable (by simp) ms) fun _ => ih
    dsimp only
    split
    · exact .bind (.isa (by simp)) hadd
    · exact .bind (.pure (by simp)) hadd

theorem know_stable {objects : Image → Array Value}
    (hobjects : ∀ i, ∀ v ∈ objects i, v ∈ i.known ∨ Trusted known v) :
    Stable known (modify fun i => { i with known := objects i } : ImageAction PUnit) := by
  refine .modify (fun _ => rfl) fun i v hv => ?_
  simp only [Holder.held, values, roots, List.mem_cons, List.mem_append, Array.mem_toList_iff]
    at hv ⊢
  rcases hv with rfl | hv | hv
  · exact .inl (.inl rfl)
  · exact .inl (.inr (.inl hv))
  · exact (hobjects i v hv).imp_left fun h => .inr (.inr h)

theorem makeKernel_stable : Stable known makeKernel := by
  refine .bind (allocatePairs_stable _) fun pairs => ?_
  have hcls : ∀ p ∈ pairs, p.1 ∈ held pairs ∧ p.2 ∈ held pairs := by
    intro p hp
    simp only [Holder.held, List.mem_flatMap]
    exact ⟨⟨p, hp, by simp⟩, ⟨p, hp, by simp⟩⟩
  refine .bind (know_stable fun i v hv => ?_) fun _ => ?_
  · obtain ⟨p, hp, rfl⟩ : ∃ p ∈ pairs, p.1 = v := by simpa using hv
    exact .inr (trusted_append.mpr (.inl (hcls p hp).1))
  refine .bind .get fun i => ?_
  refine .bind (wirePairs_stable (by simp) (by simp) fun p hp => ?_) fun _ => ?_
  · have hp' := hcls p.2 (List.of_mem_zip hp).2
    simp only [trusted_append]
    exact ⟨.inr (.inr (.inl hp'.1)), .inr (.inr (.inl hp'.2))⟩
  refine .bind (intern_stable _) fun blockReturn => ?_
  refine .bind .get fun i => ?_
  refine .bind (internAll_stable _) fun symbols => ?_
  refine .bind (onHeap_stable (Heap.allocatePointers_stable (by simp) _)) fun trueObject => ?_
  refine .bind (onHeap_stable (Heap.allocatePointers_stable (by simp) _)) fun falseObject => ?_
  refine .bind (onHeap_stable (Heap.newDictionary_stable (by simp) _)) fun globals => ?_
  refine .bind (know_stable fun i v hv => ?_) fun _ => ?_
  · have hmem : v ∈ i.known ∨ v ∈ [trueObject, falseObject, globals, blockReturn] ++ symbols := by
      rwa [← Array.mem_toList_iff, Array.toList_appendList, List.mem_append, Array.mem_toList_iff]
        at hv
    refine hmem.imp_right fun hnew => ?_
    simp only [List.mem_append, List.mem_cons, List.not_mem_nil, or_false] at hnew
    rcases hnew with (rfl | rfl | rfl | rfl) | hsymbol
    all_goals simp [*]
  exact .bind (furnishKernel_stable _) fun _ => checkKernel_stable _ _ _

theorem setUp_stable : Stable known setUp :=
  .bind makeKernel_stable fun _ => installKernel_stable _

/-- No reference of a fresh image is stale. -/
theorem boot_intact {settings : HeapSettings} {i : Image} (hboot : boot settings = .ok i) :
    Intact i := by
  rw [boot] at hboot
  cases hblank : blank settings with
  | error e => simp [hblank, bind, Except.bind] at hboot
  | ok start =>
    rw [blank] at hblank
    cases hcreate : Heap.create settings with
    | error e => simp [hcreate] at hblank
    | ok heap =>
      rw [hcreate] at hblank
      obtain rfl := Except.ok.inj hblank
      have hstart : Intact (⟨heap, {}, #[], #[]⟩ : Image) := by
        refine ⟨Heap.create_whole hcreate, fun v hv => ?_⟩
        obtain rfl : v = .nil := by simpa [values, roots, SymbolTable.roots] using hv
        exact Arenas.sane_nil _
      have hstable : Stable [] setUp := setUp_stable
      have hend := hstable _ hstart (List.forall_mem_nil _)
      cases hsetUp : setUp ⟨heap, {}, #[], #[]⟩ with
      | error e i' => simp [blank, hcreate, hsetUp, bind, Except.bind] at hboot
      | ok u i' =>
        simp only [blank, hcreate, hsetUp, bind, Except.bind, pure, Except.pure] at hboot
        obtain rfl := Except.ok.inj hboot
        rw [hsetUp] at hend
        exact hend.1

end Boot

end Image

end ObjectMachine
