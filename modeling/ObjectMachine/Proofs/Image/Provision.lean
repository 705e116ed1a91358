import ObjectMachine.Proofs.Image.Origin
import ObjectMachine.Proofs.Image.Reading
import ObjectMachine.Proofs.Machine.Stacking

namespace ObjectMachine

namespace Part

/-- The words that a part takes up in an arena. A header counts less than 2^32 bytes, and no arena
has as many words. -/
def words : Part → ArenaId → Nat
  | slots count, .pointers => headerWords + count
  | bytes size, .leaf =>
    headerWords + if size < 0x100000000 then (size + 7) / 8 else 0x100000000
  | _, _ => 0

def room (parts : List Part) (id : ArenaId) : Nat := (parts.map (·.words id)).sum

def misfit? : Part → Option Int
  | integer n => if Value.Fits n then none else some n
  | _ => none

@[simp] theorem room_nil (id : ArenaId) : room [] id = 0 := rfl

@[simp] theorem room_append (parts parts' : List Part) (id : ArenaId) :
    room (parts ++ parts') id = room parts id + room parts' id := by
  simp [room]

@[simp] theorem room_cons (p : Part) (parts : List Part) (id : ArenaId) :
    room (p :: parts) id = p.words id + room parts id := by
  simp [room]

/-- A literal that has no tagged word is the only part of a template that cannot be made. -/
theorem findSome?_misfit_eq_none {parts : List Part} : parts.findSome? misfit? = none ↔
    ∀ n, .integer n ∈ parts → Value.Fits n := by
  rw [List.findSome?_eq_none_iff]
  refine ⟨fun h n hn => ?_, fun h p hp => ?_⟩
  · by_contra hmisfit
    have := h _ hn
    rw [misfit?, if_neg hmisfit] at this
    cases this
  · cases p with
    | integer n => exact if_pos (h n hp)
    | slots | bytes | shape => rfl

theorem exists_of_findSome?_misfit {parts : List Part} {n : Int}
    (h : parts.findSome? misfit? = some n) : .integer n ∈ parts ∧ ¬Value.Fits n := by
  obtain ⟨p, hp, hmisfit⟩ := List.exists_of_findSome?_eq_some h
  cases p with
  | integer m =>
    rw [misfit?] at hmisfit
    split at hmisfit
    · cases hmisfit
    · obtain rfl := Option.some.inj hmisfit
      exact ⟨hp, ‹_›⟩
  | slots | bytes | shape => cases hmisfit

end Part

namespace Heap

variable {h h' : Heap} {isa v x : Value} {parts parts' : List Part}

/-- The words of parts are left in both arenas. -/
def Affords (h : Heap) (parts : List Part) : Prop :=
  ∀ id, h.used id + Part.room parts id ≤ h.capacity

theorem Affords.of_append (hr : h.Affords (parts ++ parts')) : h.Affords parts := fun id => by
  have := hr id
  rw [Part.room_append] at this
  omega

structure Takes (parts : List Part) (h h' : Heap) : Prop where
  capacity : h'.capacity = h.capacity
  used : ∀ id, h'.used id ≤ h.used id + Part.room parts id

theorem Takes.refl (h : Heap) : Takes [] h h := ⟨rfl, fun _ => Nat.le_refl _⟩

theorem Takes.trans {h'' : Heap} (ht : Takes parts h h') (ht' : Takes parts' h' h'') :
    Takes (parts ++ parts') h h'' where
  capacity := ht'.capacity.trans ht.capacity
  used id := by
    have h₁ := ht.used id
    have h₂ := ht'.used id
    rw [Part.room_append]
    omega

theorem Takes.affords (ht : Takes parts h h') (hr : h.Affords (parts ++ parts')) :
    h'.Affords parts' := fun id => by
  have h₁ := ht.used id
  have h₂ := hr id
  rw [Part.room_append] at h₂
  rw [ht.capacity]
  omega

theorem setSlot_takes {ε : Type} {i : Nat} (heq : setSlot v i x (ε := ε) h = .ok () h') :
    Takes [] h h' := by
  refine ⟨?_, fun id => ((setSlot_eq_ok heq).2 id).le⟩
  rw [setSlot] at heq
  split at heq
  · cases heq
  · split at heq <;> cases heq
    rfl

/-- Where there is room for it, an object is put at the end of its arena. -/
theorem Affords.allocate (id : ArenaId) (isa : Value) (size : UInt32)
    {fill : Array UInt64 → Array UInt64} {payload : Array UInt64}
    {n : Nat} (hfill : ∀ s, fill s = s ++ payload) (hn : payload.size = n)
    (hsize : ∀ hash, (Header.mk isa id.objectKind hash size).payloadWords = n)
    {part : Part} (hroom : h.Affords [part])
    (hwords : ∀ id', part.words id' = if id' = id then headerWords + n else 0) :
    ∃ v h', Heap.allocate id isa id.objectKind size fill h = .ok v h' ∧ Takes [part] h h' := by
  have htotal : ∀ hash, (Header.mk isa id.objectKind hash size).totalWords =
      headerWords + n := fun hash => by rw [Header.totalWords, hsize hash]
  have hfit : h.used id + (headerWords + n) ≤ h.capacity := by
    have := hroom id
    rwa [Part.room_cons, hwords, if_pos rfl] at this
  rcases h.allocate_cases id isa id.objectKind size hfill with herr | ⟨-, hok⟩
  · rw [Heap.allocate, if_neg (by rw [htotal]; omega)] at herr
    cases herr
  · refine ⟨_, _, hok, ⟨rfl, fun id' => ?_⟩⟩
    rw [used, used, Arenas.used_append, size_objectWords (hn.trans (hsize _).symm), htotal,
      Part.room_cons, hwords]
    exact Nat.le_refl _

/-- There is room for no more slots than a header counts. -/
theorem Whole.count_lt (whole : h.Whole) {count : Nat} (hroom : h.Affords [.slots count]) :
    count < 0x100000000 := by
  have hfit : h.used .pointers + (headerWords + count) ≤ h.capacity := hroom .pointers
  have := whole.sound.small
  omega

theorem Whole.allocatePointers_affords (whole : h.Whole) (isa : Value) {count : Nat}
    (hroom : h.Affords [.slots count]) :
    ∃ v h', allocatePointers isa count h = .ok v h' ∧ Takes [.slots count] h h' := by
  have hsmall := whole.count_lt hroom
  have hcount : count.toUInt32.toNat = count := by simpa [Nat.toUInt32] using hsmall
  refine Affords.allocate .pointers isa count.toUInt32
    (fun s => pushZeros_eq s _) (Array.size_replicate.trans hcount) (fun _ => hcount) hroom
    fun id' => ?_
  cases id' <;> rfl

theorem Whole.allocateBytes_affords (whole : h.Whole) (isa : Value) {content : Array UInt8}
    (hroom : h.Affords [.bytes content.size]) :
    ∃ v h', allocateBytes isa content h = .ok v h' ∧ Takes [.bytes content.size] h h' := by
  have hsmall : content.size < 0x100000000 := by
    have hfit : h.used .leaf + (headerWords + if content.size < 0x100000000
      then (content.size + 7) / 8 else 0x100000000) ≤ h.capacity := hroom .leaf
    have := whole.sound.small
    by_contra hlarge
    rw [if_neg hlarge] at hfit
    omega
  have hcount : content.size.toUInt32.toNat = content.size := by simpa [Nat.toUInt32] using hsmall
  have hlength : ((List.range' 0 ((content.size.toUInt32.toNat + 7) / 8)).map
      (packedWord content)).toArray.size = (content.size + 7) / 8 := by
    rw [hcount]
    simp
  obtain ⟨v, h', hok, htakes⟩ := Affords.allocate .leaf isa content.size.toUInt32
    (fun s => pushPacked_eq content s 0 _) hlength
    (fun _ => by simp only [Header.payloadWords, ArenaId.objectKind, hcount]) hroom
    fun id' => by cases id' <;> simp [Part.words, hsmall]
  refine ⟨v, h', ?_, htakes⟩
  rw [allocateBytes]
  simp only [if_pos hsmall, bind_pure]
  exact hok

end Heap

namespace Image

variable {parts parts' : List Part} {i i' : Image} {isa v x : Value} {α β : Type}

/-- How the making of some parts ends if there is room for them: their words are taken up, or the
first of them that has no tagged word is refused. -/
def Completes (parts : List Part) (i : Image) (r : EStateM.Result (Stop RuntimeError) Image α) :
    Prop :=
  i.heap.Affords parts → match parts.findSome? Part.misfit? with
    | none => ∃ a i', r = .ok a i' ∧ i.heap.Takes parts i'.heap
    | some n => ∃ i', r = .error (.failure (.compile (.literalRange n))) i'

namespace Completes

variable {r : EStateM.Result (Stop RuntimeError) Image α}

theorem get {f : Image → ImageAction α} (hc : Completes parts i (f i i)) :
    Completes parts i ((EStateM.get >>= f) i) := hc

/-- The counts of an activation take up no words. -/
theorem shape (hc : Completes [] i r) (s : CodeShape) : Completes [.shape s] i r := by
  intro hroom
  have hnone : i.heap.Affords [] := fun id => by
    have := hroom id
    rw [Part.room_cons] at this
    omega
  obtain ⟨a, i', rfl, htakes⟩ : ∃ a i', r = .ok a i' ∧ i.heap.Takes [] i'.heap := hc hnone
  exact ⟨a, i', rfl, htakes.capacity, fun id => by cases id <;> exact htakes.used _⟩

theorem bind {act : ImageAction α} {next : α → ImageAction β} (hact : Completes parts i (act i))
    (hnext : ∀ a i', act i = .ok a i' → i.heap.Affords parts → Completes parts' i' (next a i')) :
    Completes (parts ++ parts') i ((act >>= next) i) := by
  intro hroom
  have hfirst := hact hroom.of_append
  rw [List.findSome?_append]
  split at hfirst
  · rename_i hfits
    obtain ⟨a, i', heq, htakes⟩ := hfirst
    have hrest := hnext a i' heq hroom.of_append (htakes.affords hroom)
    rw [bind_of_eq_ok heq, hfits, Option.none_or]
    split at hrest
    · obtain ⟨b, i'', heq', htakes'⟩ := hrest
      exact ⟨b, i'', heq', htakes.trans htakes'⟩
    · exact hrest
  · rename_i n hmisfit
    obtain ⟨i', heq⟩ := hfirst
    rw [hmisfit, Option.some_or]
    exact ⟨i', bind_of_eq_error heq⟩

/-- What is delivered may be put in another form. -/
theorem map {act : ImageAction α} (f : α → β) (hact : Completes parts i (act i)) :
    Completes parts i ((act >>= fun a => pure (f a)) i) := by
  intro hroom
  have hfirst := hact hroom
  split at hfirst
  · obtain ⟨a, i', heq, htakes⟩ := hfirst
    exact ⟨f a, i', bind_of_eq_ok heq, htakes⟩
  · obtain ⟨i', heq⟩ := hfirst
    exact ⟨i', bind_of_eq_error heq⟩

end Completes

theorem allocatePointers_completes (hi : Intact i) (isa : Value) (count : Nat) :
    Completes [.slots count] i (onHeap (Heap.allocatePointers isa count) i) := by
  intro hroom
  have hwhole : i.heap.Whole := hi.whole
  obtain ⟨v, heap, heq, htakes⟩ := hwhole.allocatePointers_affords isa hroom
  exact ⟨v, _, onHeap_eq_ok.mpr ⟨heap, heq, rfl⟩, htakes⟩

theorem allocateBytes_completes (hi : Intact i) (isa : Value) (content : Array UInt8) :
    Completes [.bytes content.size] i (onHeap (Heap.allocateBytes isa content) i) := by
  intro hroom
  have hwhole : i.heap.Whole := hi.whole
  obtain ⟨v, heap, heq, htakes⟩ := hwhole.allocateBytes_affords isa hroom
  exact ⟨v, _, onHeap_eq_ok.mpr ⟨heap, heq, rfl⟩, htakes⟩

theorem setSlot_completes (hi : Intact i) {k : Nat} {y : Value} (hc : i.heap.Holds ⟨v, k⟩ y)
    (hx : Sane i x) : Completes [] i (onHeap (Heap.setSlot v k x) i) := by
  intro _
  obtain ⟨heap, hset, -⟩ := hc.write hi.whole hx (ε := HeapError)
  exact ⟨(), _, onHeap_eq_ok.mpr ⟨heap, hset, rfl⟩, Heap.setSlot_takes hset⟩

theorem fillSlots_completes (hi : Intact i) (hs : i.Spelled) {k : Nat} {items : List Value}
    (hv : Sane i v) (hcells : ∀ j < items.length, ∃ y, i.heap.Holds ⟨v, k + j⟩ y)
    (hitems : ∀ x ∈ items, Sane i x) : Completes [] i (fillSlots v k items i) := by
  induction items generalizing i k with
  | nil => exact fun _ => ⟨(), i, rfl, .refl _⟩
  | cons x items ih =>
    obtain ⟨hx, hitems⟩ := List.forall_mem_cons.mp hitems
    obtain ⟨y, hy⟩ := hcells 0 (by simp)
    refine (setSlot_completes hi hy hx).bind fun _ i₁ hset _ => ?_
    obtain ⟨he, -⟩ := setSlot_enlarges hi hs hv hx hset
    refine ih he.intact he.spelled (he.sane hv) (fun j hj => ?_) fun x hx => he.sane (hitems x hx)
    obtain ⟨z, hz⟩ := hcells (j + 1) (by simpa using hj)
    exact ⟨z, he.heap.kept (by simp; omega) (Nat.add_right_comm k 1 j ▸ hz)⟩

theorem intern_completes (hi : Intact i) (name : String) :
    Completes [.bytes (Text.toBytes name).size] i (intern name i) := by
  intro hroom
  have hwhole : i.heap.Whole := hi.whole
  rw [intern_eq]
  cases hlookup : i.symbols.lookup name with
  | some symbol =>
    rw [SymbolTable.intern_of_some hlookup]
    exact ⟨symbol, i, rfl, rfl, fun _ => Nat.le_add_right _ _⟩
  | none =>
    obtain ⟨symbol, heap, hnew, htakes⟩ :=
      hwhole.allocateBytes_affords (i.kernelClass .symbol) hroom
    rw [SymbolTable.intern_of_none hlookup, hnew]
    exact ⟨symbol, _, rfl, htakes⟩

theorem newArray_completes (hi : Intact i) (hs : i.Spelled) {items : List Value}
    (hitems : ∀ x ∈ items, Sane i x) :
    Completes [.slots items.length] i (newArray items i) := by
  refine .get ((allocatePointers_completes hi _ _).bind fun v i₁ heq hroom => ?_)
  have hwhole : i.heap.Whole := hi.whole
  obtain ⟨he, hfresh, -, hcells⟩ :=
    allocatePointers_enlarges hi hs (kernelClass_sane hi .array) heq
  rw [Nat.mod_eq_of_lt (hwhole.count_lt hroom)] at hcells
  exact .map _ (fillSlots_completes he.intact he.spelled hfresh.sane
    (fun j hj => ⟨_, by simpa using hcells j hj⟩) fun x hx => he.sane (hitems x hx))

section Loading

mutual

theorem loadCode_completes : ∀ (t : CodeTemplate) {i : Image} {cls code : Value}, Intact i →
    i.Spelled → Sane i cls → Sane i code →
    (∀ k < Slot.Code.count, ∃ y, i.heap.Holds ⟨code, k⟩ y) →
    Completes t.parts i (loadCode code cls t i)
  | ⟨selector, bytecode, literals, args, temps, heapVars, stack⟩, i, cls, code, hi, hs, hcls, hcode,
      hcells => by
    rw [CodeTemplate.parts, loadCode]
    refine .get ((allocateBytes_completes hi _ bytecode).bind fun bytes i₁ hbytes _ => .get ?_)
    obtain ⟨he₁, hfresh, -⟩ :=
      allocateBytes_enlarges hi hs (kernelClass_sane hi .byteArray) hbytes
    have hwhole : i₁.heap.Whole := he₁.intact.whole
    refine (allocatePointers_completes he₁.intact _ _).bind fun table i₂ htable hroom => ?_
    obtain ⟨he₂, hfresh', -, hslots⟩ :=
      allocatePointers_enlarges he₁.intact he₁.spelled (kernelClass_sane he₁.intact .array) htable
    rw [Nat.mod_eq_of_lt (hwhole.count_lt hroom)] at hslots
    have he₁₂ := he₁.trans he₂
    refine (loadInto_completes literals he₂.intact he₂.spelled (he₁₂.sane hcls) hfresh'.sane
      fun j hj => ⟨_, by simpa using hslots j hj⟩).bind fun _ i₃ hinto _ => ?_
    obtain ⟨he₃, -⟩ := loadInto_reads literals he₂.intact he₂.spelled (he₁₂.sane hcls)
      hfresh'.sane hinto
    refine (intern_completes he₃.intact selector).bind fun symbol i₄ hintern _ => ?_
    obtain ⟨he₄, hsymbol, -⟩ := intern_enlarges he₃.intact he₃.spelled hintern
    have hint : ∀ n, Sane i₄ (.ofNat n) := fun n => .inr (.inl (by simp))
    have hlater : ∀ {v}, Sane i₁ v → Sane i₄ v := fun hv => he₄.sane (he₃.sane (he₂.sane hv))
    refine .shape (fillSlots_completes he₄.intact he₄.spelled (hlater (he₁.sane hcode))
      (fun j hj => ?_) ?_) _
    · obtain ⟨y, hy⟩ := hcells j hj
      refine ⟨y, he₄.heap.kept id (he₃.heap.kept ?_ (he₁₂.heap.kept id ?_))⟩
      · rintro ⟨rfl, -⟩
        exact hfresh'.new (he₁.sane hcode)
      · rwa [Nat.zero_add]
    · simp [hint, hsymbol, hlater hfresh.sane, hlater (he₁.sane hcls),
        he₄.sane (he₃.sane hfresh'.sane)]

theorem loadInto_completes : ∀ (cs : List Constant) {i : Image} {cls table : Value} {k : Nat},
    Intact i → i.Spelled → Sane i cls → Sane i table →
    (∀ j < cs.length, ∃ y, i.heap.Holds ⟨table, k + j⟩ y) →
    Completes (Constant.partsOf cs) i (loadInto table k cls cs i)
  | [], i, cls, table, k, hi, hs, hcls, htable, hcells => by
    rw [loadInto, Constant.partsOf]
    exact fun _ => ⟨(), i, rfl, .refl _⟩
  | c :: cs, i, cls, table, k, hi, hs, hcls, htable, hcells => by
    rw [Constant.partsOf, loadInto]
    refine (loadConstant_completes c hi hs hcls).bind fun v i₁ hconstant _ => ?_
    obtain ⟨he₁, hv, -⟩ := loadConstant_reads c hi hs hcls hconstant
    obtain ⟨y, hy⟩ := hcells 0 (by simp)
    have hset : Completes [] i₁ (onHeap (Heap.setSlot table k v) i₁) :=
      setSlot_completes he₁.intact (he₁.heap.kept id hy) hv
    refine hset.bind fun _ i₂ hset _ => ?_
    obtain ⟨he₂, -⟩ := setSlot_enlarges he₁.intact he₁.spelled (he₁.sane htable) hv hset
    refine loadInto_completes cs he₂.intact he₂.spelled (he₂.sane (he₁.sane hcls))
      (he₂.sane (he₁.sane htable)) fun j hj => ?_
    obtain ⟨z, hz⟩ := hcells (j + 1) (by simpa using hj)
    exact ⟨z, he₂.heap.kept (by simp; omega)
      (he₁.heap.kept id (Nat.add_right_comm k 1 j ▸ hz))⟩

theorem loadConstant_completes : ∀ (c : Constant) {i : Image} {cls : Value}, Intact i →
    i.Spelled → Sane i cls → Completes c.parts i (loadConstant cls c i)
  | .integer n, i, cls, hi, hs, hcls => by
    rw [loadConstant, Constant.parts, Value.ofInt?]
    intro _
    by_cases hn : Value.Fits n
    · rw [if_pos hn]
      simp only [List.findSome?_cons, Part.misfit?, if_pos hn]
      exact ⟨_, i, rfl, rfl, fun id => by cases id <;> exact Nat.le_refl _⟩
    · rw [if_neg hn]
      simp only [List.findSome?_cons, Part.misfit?, if_neg hn]
      exact ⟨i, rfl⟩
  | .string s, i, cls, hi, hs, hcls => by
    rw [Constant.parts, loadConstant]
    exact .get (allocateBytes_completes hi _ _)
  | .symbol s, i, cls, hi, hs, hcls => by
    rw [Constant.parts, loadConstant]
    exact intern_completes hi s
  | .array items, i, cls, hi, hs, hcls => by
    rw [Constant.parts, loadConstant]
    refine (loadConstants_completes items hi hs hcls).bind fun values i₁ hvalues _ => ?_
    obtain ⟨he₁, hsane, hreads⟩ := loadConstants_reads items hi hs hcls hvalues
    rw [hreads.length_eq]
    exact newArray_completes he₁.intact he₁.spelled hsane
  | .block t, i, cls, hi, hs, hcls => by
    rw [Constant.parts, loadConstant]
    refine .get ((allocatePointers_completes hi _ _).bind fun block i₁ hblock _ => ?_)
    obtain ⟨he₁, hfresh, -, hslots⟩ :=
      allocatePointers_enlarges hi hs (kernelClass_sane hi .block) hblock
    exact .map _ (loadCode_completes t he₁.intact he₁.spelled (he₁.sane hcls) hfresh.sane
      fun k hk => ⟨_, hslots k (Nat.lt_of_lt_of_le hk (by decide))⟩)

theorem loadConstants_completes : ∀ (cs : List Constant) {i : Image} {cls : Value}, Intact i →
    i.Spelled → Sane i cls → Completes (Constant.partsOf cs) i (loadConstants cls cs i)
  | [], i, cls, hi, hs, hcls => by
    rw [loadConstants, Constant.partsOf]
    exact fun _ => ⟨[], i, rfl, .refl _⟩
  | c :: cs, i, cls, hi, hs, hcls => by
    rw [Constant.partsOf, loadConstants]
    refine (loadConstant_completes c hi hs hcls).bind fun v i₁ hfirst _ => ?_
    obtain ⟨he₁, -⟩ := loadConstant_reads c hi hs hcls hfirst
    exact .map _ (loadConstants_completes cs he₁.intact he₁.spelled (he₁.sane hcls))

end

end Loading

section Methods

variable {t : CodeTemplate} {cls : Value}

theorem load_completes (hi : Intact i) (hs : i.Spelled) (hcls : Sane i cls) :
    Completes t.methodParts i (load t cls i) := by
  refine .get ((allocatePointers_completes hi _ _).bind fun method i₁ hmethod _ => ?_)
  obtain ⟨he₁, hfresh, -, hslots⟩ :=
    allocatePointers_enlarges hi hs (kernelClass_sane hi .method) hmethod
  exact .map _ (loadCode_completes t he₁.intact he₁.spelled (he₁.sane hcls) hfresh.sane
    fun k hk => ⟨_, hslots k hk⟩)

theorem load_failure_adds (hi : Intact i) (hs : i.Spelled) (hcls : Sane i cls) {e : RuntimeError}
    (heq : load t cls i = .error (.failure e) i') : Adds (fun _ => False) i i' := by
  have hadds : Upholds (Adds (fun _ => False) i) [cls] (load t cls) := load_adds t (by simp)
  have hleaves := hadds i (.refl hi hs) (by simpa using hcls)
  rw [heq] at hleaves
  exact hleaves.1

/-- Where there is room for a template, its method is made anew and reads back as the template, and
as no other one that fits. But an integer literal without a tagged word, however deep in the
template, fails. In both cases objects and symbols are only added. -/
theorem load_reads_back (hi : Intact i) (hs : i.Spelled)
    (hkinds : Function.Injective i.kernelClass) (hcls : Sane i cls)
    (hroom : i.heap.Affords t.methodParts) :
    ((∀ p ∈ t.methodParts, p.Fits) → ∃ method i', load t cls i = .ok method i' ∧
      Adds (fun _ => False) i i' ∧ i'.Made (¬Sane i ·) .method method ∧
      i'.ReadsCode (¬Sane i ·) cls t method ∧ ∀ new' cls' t', (∀ p ∈ t'.methodParts, p.Fits) →
        i'.ReadsCode new' cls' t' method → t' = t) ∧
    ((∃ n, .integer n ∈ t.methodParts ∧ ¬Value.Fits n) → ∃ n i',
      load t cls i = .error (.failure (.compile (.literalRange n))) i' ∧
      .integer n ∈ t.methodParts ∧ ¬Value.Fits n ∧ Adds (fun _ => False) i i') := by
  have hcompletes := load_completes hi hs hcls hroom
  constructor
  · intro hfits
    rw [Part.findSome?_misfit_eq_none.mpr fun n hn => hfits _ hn] at hcompletes
    obtain ⟨method, i', heq, -⟩ := hcompletes
    obtain ⟨he, hmade, hreads⟩ := load_reads hi hs hcls heq
    refine ⟨method, i', heq, he.toAdds, hmade, hreads, fun new' cls' t' hfits' hr => ?_⟩
    have hkinds' : Function.Injective i'.kernelClass := by
      rwa [funext he.kernelClass]
    exact hr.unique hkinds' (List.forall_mem_cons.mp hfits').2 (List.forall_mem_cons.mp hfits).2
      hreads
  · rintro ⟨n, hn, hmisfit⟩
    cases hfound : t.methodParts.findSome? Part.misfit? with
    | none => exact absurd (Part.findSome?_misfit_eq_none.mp hfound n hn) hmisfit
    | some m =>
      rw [hfound] at hcompletes
      obtain ⟨i', heq⟩ := hcompletes
      obtain ⟨hm, hm'⟩ := Part.exists_of_findSome?_misfit hfound
      exact ⟨m, i', heq, hm, hm', load_failure_adds hi hs hcls heq⟩

def nestedTemplate (n : Int) : CodeTemplate :=
  ⟨"at:put:", #[32], [.symbol "at:put:", .array [.string "key", .symbol "at:put:"],
    .block ⟨"value", #[1, 32], [.block ⟨"value", #[2, 32], [.integer n, .symbol "at:put:"],
      0, 0, 0, 1⟩], 0, 1, 0, 2⟩], 2, 0, 1, 3⟩

theorem load_reads_back_nested :
    (∃ method i', load (nestedTemplate (-7)) .nil Machine.blankImage = .ok method i' ∧
      i'.ReadsCode (¬Sane Machine.blankImage ·) .nil (nestedTemplate (-7)) method) ∧
    ∃ n i', load (nestedTemplate (2 ^ 60)) .nil Machine.blankImage =
      .error (.failure (.compile (.literalRange n))) i' := by
  have hs : Machine.blankImage.Spelled := fun {name v} hname => by
    simp [Machine.blankImage, SymbolTable.lookup] at hname
  have hkinds : Function.Injective Machine.blankImage.kernelClass :=
    kinds_of_indices (by decide +kernel)
  have hroom : ∀ n ∈ [(-7 : Int), 2 ^ 60],
      Machine.blankImage.heap.Affords (nestedTemplate n).methodParts := by
    simp only [List.forall_mem_cons, List.not_mem_nil, false_imp_iff, implies_true, and_true]
    constructor <;> rintro (_ | _) <;> decide +kernel
  have hmisfit : .integer (2 ^ 60) ∈ (nestedTemplate (2 ^ 60)).methodParts := by
    simp [nestedTemplate, CodeTemplate.methodParts, CodeTemplate.parts, Constant.partsOf,
      Constant.parts]
  obtain ⟨method, i', heq, -, -, hcode, -⟩ := (load_reads_back Machine.blankImage_intact hs hkinds
    (Arenas.sane_nil _) (hroom (-7) (by simp))).1 (by decide +kernel)
  obtain ⟨n, i'', herr, -⟩ := (load_reads_back Machine.blankImage_intact hs hkinds
    (Arenas.sane_nil _) (hroom (2 ^ 60) (by simp))).2 ⟨_, hmisfit, by decide⟩
  exact ⟨⟨method, i', heq, hcode⟩, n, i'', herr⟩

end Methods

end Image

end ObjectMachine
