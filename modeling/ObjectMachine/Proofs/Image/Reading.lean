import ObjectMachine.Proofs.Image.Additions

namespace ObjectMachine

theorem Value.address?_of_isInteger {v : Value} (hv : v.isInteger) : v.address? = none := by
  rw [isInteger, beq_iff_eq] at hv
  simp [address?, isReference, hv]

/-- What tells the values apart that stand for constants. -/
inductive Constant.Kind where
  | integer
  | symbol
  | object (k : KernelClass)

def Constant.kind : Constant → Kind
  | .integer _ => .integer
  | .string _ => .object .string
  | .symbol _ => .symbol
  | .array _ => .object .array
  | .block _ => .object .block

/-- What a template is made into: integers, objects with slots, byte objects and the counts of an
activation. -/
inductive Part where
  | integer (n : Int)
  | slots (count : Nat)
  | bytes (size : Nat)
  | shape (s : CodeShape)

def Part.Fits : Part → Prop
  | integer n => Value.Fits n
  | shape s =>
    Value.Fits s.args ∧ Value.Fits s.temps ∧ Value.Fits s.heapVars ∧ Value.Fits s.stack
  | _ => True

instance : DecidablePred Part.Fits
  | .integer n => inferInstanceAs (Decidable (Value.Fits n))
  | .shape s => inferInstanceAs (Decidable (Value.Fits s.args ∧ Value.Fits s.temps ∧
      Value.Fits s.heapVars ∧ Value.Fits s.stack))
  | .slots _ | .bytes _ => inferInstanceAs (Decidable True)

mutual

/-- What a template is made into besides the code object itself, in the order of loading. -/
def CodeTemplate.parts : CodeTemplate → List Part
  | ⟨selector, bytecode, literals, args, temps, heapVars, stack⟩ =>
    .bytes bytecode.size :: .slots literals.length :: (Constant.partsOf literals ++
      [.bytes (Text.toBytes selector).size, .shape ⟨args, temps, heapVars, stack⟩])
termination_by structural t => t

def Constant.parts : Constant → List Part
  | .integer n => [.integer n]
  | .string s => [.bytes (Text.toBytes s).size]
  | .symbol s => [.bytes (Text.toBytes s).size]
  | .array items => Constant.partsOf items ++ [.slots items.length]
  | .block t => .slots Slot.Block.count :: t.parts
termination_by structural c => c

def Constant.partsOf : List Constant → List Part
  | [] => []
  | c :: cs => c.parts ++ Constant.partsOf cs
termination_by structural cs => cs

end

def CodeTemplate.methodParts (t : CodeTemplate) : List Part := .slots Slot.Code.count :: t.parts

namespace Heap

variable {h h' : Heap} {v : Value} {k n : Nat}

theorem count_kept (hv : h.arenas.Sane v)
    (hkept : ∀ j y, h.Holds ⟨v, j⟩ y → h'.Holds ⟨v, j⟩ y) (hn : h.count v k = .ok n) :
    h'.count v k = .ok n := by
  obtain ⟨x, hx, hn⟩ := except_bind_eq_ok.mp hn
  exact except_bind_eq_ok.mpr ⟨x, (hkept k x ⟨hv, hx⟩).slot, hn⟩

theorem codeShape_eq_ok {s : CodeShape} : h.codeShape v = .ok s ↔
    h.count v Slot.Code.args = .ok s.args ∧ h.count v Slot.Code.temps = .ok s.temps ∧
    h.count v Slot.Code.heapVars = .ok s.heapVars ∧ h.count v Slot.Code.stack = .ok s.stack := by
  obtain ⟨args, temps, heapVars, stack⟩ := s
  simp only [codeShape, except_bind_eq_ok, pure, Except.pure, Except.ok.injEq, CodeShape.mk.injEq]
  constructor
  · rintro ⟨_, hargs, _, htemps, _, hheapVars, _, hstack, rfl, rfl, rfl, rfl⟩
    exact ⟨hargs, htemps, hheapVars, hstack⟩
  · rintro ⟨hargs, htemps, hheapVars, hstack⟩
    exact ⟨_, hargs, _, htemps, _, hheapVars, _, hstack, rfl, rfl, rfl, rfl⟩

theorem codeShape_kept {s : CodeShape} (hv : h.arenas.Sane v)
    (hkept : ∀ j y, h.Holds ⟨v, j⟩ y → h'.Holds ⟨v, j⟩ y) (hs : h.codeShape v = .ok s) :
    h'.codeShape v = .ok s := by
  obtain ⟨hargs, htemps, hheapVars, hstack⟩ := codeShape_eq_ok.mp hs
  exact codeShape_eq_ok.mpr ⟨count_kept hv hkept hargs, count_kept hv hkept htemps,
    count_kept hv hkept hheapVars, count_kept hv hkept hstack⟩

/-- A slot with a count that has a tagged word. -/
theorem count_of_holds (hc : h.Holds ⟨v, k⟩ (.ofNat n)) (hn : Value.Fits n) :
    h.count v k = .ok n := by
  have hsmall : n < 0x1000000000000000 := by
    have := hn.2
    simp only [Value.maxInteger] at this
    omega
  simp only [count, hc.slot, bind, Except.bind, pure, Except.pure, Value.toNat?_ofNat hsmall,
    Option.getD_some]

/-- A new object has the class that it was made for. -/
theorem Whole.isa_of_allocate (whole : h.Whole) (id : ArenaId) {isa : Value} {size : UInt32}
    {fill : Array UInt64 → Array UInt64} {payload : Array UInt64}
    (hfill : ∀ s, fill s = s ++ payload)
    (heq : Heap.allocate id isa id.objectKind size fill h = .ok v h') : h'.isa v = .ok isa := by
  rcases h.allocate_cases id isa id.objectKind size hfill with herr | ⟨-, hok⟩
  · exact nomatch herr.symm.trans heq
  · obtain ⟨rfl, rfl⟩ := EStateM.Result.ok.inj (hok.symm.trans heq)
    let header : Header := ⟨isa, id.objectKind, h.nextHash.toUInt32, size⟩
    have h₀ : (objectWords header payload)[0]? = some isa.raw := by simp [objectWords, header]
    have h₁ : (objectWords header payload)[1]? = some header.packed := by
      rw [objectWords, Array.getElem?_append_left (by simp)]
      rfl
    have hheader : (h.arenas.append id (objectWords header payload)).2.header ⟨id, h.used id⟩ =
        .ok (.ofWords isa.raw header.packed) := Arenas.header_eq_ok_iff.mpr ⟨_, _,
      (Arenas.getElem?_append_right 0).trans h₀, (Arenas.getElem?_append_right 1).trans h₁, rfl⟩
    have hplace : (Value.ofAddress ⟨id, h.used id⟩).address? = some ⟨id, h.used id⟩ :=
      Value.address?_ofAddress whole.sound.end_bounds.1 whole.sound.end_bounds.2
    simp only [Heap.isa, Heap.header, Heap.locate, hplace, bind, Except.bind, pure, Except.pure]
    rw [hheader]
    rfl

theorem Whole.isa_of_allocatePointers (whole : h.Whole) {isa : Value} {count : Nat}
    (heq : allocatePointers isa count h = .ok v h') : h'.isa v = .ok isa :=
  whole.isa_of_allocate .pointers (fun s => pushZeros_eq s _) heq

theorem Whole.isa_of_allocateBytes (whole : h.Whole) {isa : Value} {content : Array UInt8}
    (heq : allocateBytes isa content h = .ok v h') : h'.isa v = .ok isa := by
  rw [allocateBytes, bind_eq_ok] at heq
  obtain ⟨object, h₁, hallocate, hreturn⟩ := heq
  rw [ite_eq_ok, pure_eq_ok, fault_eq_ok, and_false, or_false] at hreturn
  obtain ⟨-, rfl, rfl⟩ := hreturn
  exact whole.isa_of_allocate .leaf (fun s => pushPacked_eq content s 0 _) hallocate

end Heap

namespace Image

variable {i i' i'' : Image} {new new' : Value → Prop} {written written' : Cell → Prop}
  {isa cls code v w x : Value} {k : Nat}

section Enlarging

/-- Objects and symbols were added to an image, and known cells written to. Names that had no symbol
have got new objects as their symbols. -/
structure Enlarges (written : Cell → Prop) (i i' : Image) : Prop extends Adds written i i' where
  novel : ∀ {name v}, i'.symbols.lookup name = some v →
    i.symbols.lookup name = some v ∨ ¬Sane i v

theorem Enlarges.refl (hi : Intact i) (hs : i.Spelled) : Enlarges written i i :=
  ⟨.refl hi hs, .inl⟩

theorem Enlarges.trans (he : Enlarges written i i') (he' : Enlarges written i' i'') :
    Enlarges written i i'' where
  toAdds := he.toAdds.trans he'.toAdds
  novel hname := by
    rcases he'.novel hname with hold | hnew
    · exact he.novel hold
    · exact .inr fun hv => hnew (he.sane hv)

theorem Enlarges.mono (he : Enlarges written i i')
    (hw : ∀ c, Sane i c.object → written c → written' c) : Enlarges written' i i' :=
  ⟨he.toAdds.mono hw, he.novel⟩

/-- Where the symbols stayed as they are, none is new. -/
theorem Adds.enlarges (ha : Adds written i i') (hsymbols : i'.symbols = i.symbols) :
    Enlarges written i i' :=
  ⟨ha, fun hname => .inl (hsymbols ▸ hname)⟩

structure Fresh (i : Image) (isa v : Value) (i' : Image) : Prop where
  sane : Sane i' v
  new : ¬Sane i v
  isa : i'.heap.isa v = .ok isa
  noSymbol : ∀ name, i'.symbols.lookup name ≠ some v

theorem Adds.isa_eq (ha : Adds written i i') (hv : Sane i v) : i'.heap.isa v = i.heap.isa v := by
  rw [Heap.isa, Heap.isa, ha.heap.header hv]

theorem Fresh.later (hf : Fresh i isa v i') (he : Enlarges written i' i'') :
    Fresh i isa v i'' :=
  ⟨he.sane hf.sane, hf.new, (he.isa_eq hf.sane).trans hf.isa, fun name hname =>
    (he.novel hname).elim (hf.noSymbol name) fun h => h hf.sane⟩

variable (hi : Intact i) (hs : i.Spelled)
include hi hs

theorem allocatePointers_enlarges (hisa : Sane i isa) {count : Nat}
    (heq : onHeap (Heap.allocatePointers isa count) i = .ok v i') :
    Enlarges (fun _ => False) i i' ∧ Fresh i isa v i' ∧
      i'.heap.size v = .ok (count % 0x100000000) ∧
      ∀ k < count % 0x100000000, i'.heap.Holds ⟨v, k⟩ .nil := by
  have hwhole : i.heap.Whole := hi.whole
  obtain ⟨ha, hsane⟩ := Adds.of_ok (fun _ => False) [isa] (allocatePointers_adds (by simp) _) hi hs
    (by simpa using hisa) heq
  obtain ⟨heap, hnew, rfl⟩ := onHeap_eq_ok.mp heq
  obtain ⟨hext, hfresh, hshows⟩ := hwhole.allocatePointers_ok hisa hnew
  refine ⟨ha.enlarges rfl, ⟨hsane v (by simp), hfresh, hwhole.isa_of_allocatePointers hnew,
    fun _ hname => hfresh (symbol_sane hi hname)⟩, ?_, fun k hk => ?_⟩
  · rw [hshows.size hext.whole.sound, List.length_replicate]
  · exact hshows.holds hext.whole (by rw [List.getElem?_replicate, if_pos hk])

theorem allocateBytes_enlarges (hisa : Sane i isa) {content : Array UInt8}
    (heq : onHeap (Heap.allocateBytes isa content) i = .ok v i') :
    Enlarges (fun _ => False) i i' ∧ Fresh i isa v i' ∧ i'.heap.Spells v content := by
  have hwhole : i.heap.Whole := hi.whole
  obtain ⟨ha, hsane⟩ := Adds.of_ok (fun _ => False) [isa] (allocateBytes_adds (by simp) _) hi hs
    (by simpa using hisa) heq
  obtain ⟨heap, hnew, rfl⟩ := onHeap_eq_ok.mp heq
  obtain ⟨-, hspells, hsmall, -⟩ := Heap.allocateBytes_spells hwhole.sound hnew
  have hallots := hwhole.allots_bytes hisa hsmall
  rw [hnew] at hallots
  exact ⟨ha.enlarges rfl, ⟨hsane v (by simp), hallots.2.2, hwhole.isa_of_allocateBytes hnew,
    fun _ hname => hallots.2.2 (symbol_sane hi hname)⟩, hspells⟩

theorem setSlot_enlarges {u : Unit} (hv : Sane i v) (hx : Sane i x)
    (heq : onHeap (Heap.setSlot v k x) i = .ok u i') :
    Enlarges (fun c => c = ⟨v, k⟩) i i' ∧ i'.heap.Holds ⟨v, k⟩ x := by
  have ha := (Adds.of_ok (fun c => c = ⟨v, k⟩) [v, x] (setSlot_adds (by simp) k (by simp)
    fun _ => rfl) hi hs (by simp [hv, hx]) heq).1
  have hwhole : i.heap.Whole := hi.whole
  have hr := rewrites_of_ok hwhole hv hx heq
  obtain ⟨heap, -, rfl⟩ := onHeap_eq_ok.mp heq
  exact ⟨ha.enlarges rfl, hr.written⟩

omit hi hs

def CellsFrom (v : Value) (k : Nat) (c : Cell) : Prop := c.object = v ∧ k ≤ c.index

theorem fillSlots_enlarges (hi : Intact i) (hs : i.Spelled) {items : List Value} {u : Unit}
    (hv : Sane i v) (hitems : ∀ x ∈ items, Sane i x) (heq : fillSlots v k items i = .ok u i') :
    Enlarges (fun c => CellsFrom v k c ∧ c.index < k + items.length) i i' ∧
      ∀ (j : Nat) x, items[j]? = some x → i'.heap.Holds ⟨v, k + j⟩ x := by
  induction items generalizing i k with
  | nil =>
    obtain ⟨-, rfl⟩ := pure_eq_ok.mp heq
    exact ⟨.refl hi hs, nofun⟩
  | cons x items ih =>
    obtain ⟨hx, hitems⟩ := List.forall_mem_cons.mp hitems
    obtain ⟨_, i₁, hset, hrest⟩ := bind_eq_ok.mp heq
    obtain ⟨he, hheld⟩ := setSlot_enlarges hi hs hv hx hset
    obtain ⟨he', hlater⟩ := ih he.intact he.spelled (he.sane hv)
      (fun x hx => he.sane (hitems x hx)) hrest
    refine ⟨(he.mono ?_).trans (he'.mono ?_), fun j y hy => ?_⟩
    · rintro c - rfl
      exact ⟨⟨rfl, Nat.le_refl k⟩, by simp⟩
    · rintro c - ⟨⟨hobject, hindex⟩, hlt⟩
      exact ⟨⟨hobject, by omega⟩, by simp only [List.length_cons]; omega⟩
    · cases j with
      | zero =>
        obtain rfl := Option.some.inj hy
        exact he'.heap.kept (by simp [CellsFrom]) hheld
      | succ j => simpa [Nat.add_right_comm, Nat.add_assoc] using hlater j y hy

variable (hi : Intact i) (hs : i.Spelled)
include hi hs

theorem intern_enlarges {name : String} (heq : intern name i = .ok v i') :
    Enlarges (fun _ => False) i i' ∧ Sane i' v ∧ i'.symbols.lookup name = some v := by
  obtain ⟨ha, hsane, hlookup⟩ := intern_eq_ok hi hs heq
  refine ⟨⟨ha, fun {name' w} hname => ?_⟩, hsane, hlookup⟩
  have hwhole : i.heap.Whole := hi.whole
  rw [intern_eq] at heq
  cases hold : i.symbols.lookup name with
  | some symbol =>
    rw [SymbolTable.intern_of_some hold] at heq
    cases heq
    exact .inl hname
  | none =>
    rw [SymbolTable.intern_of_none hold] at heq
    cases hnew : Heap.allocateBytes (i.kernelClass .symbol) (Text.toBytes name) i.heap with
    | error e heap =>
      rw [hnew] at heq
      cases heq
    | ok made heap =>
      have hallots := hwhole.allots_bytes (kernelClass_sane hi .symbol)
        (Heap.allocateBytes_spells hwhole.sound hnew).2.2.1
      rw [hnew] at heq hallots
      cases heq
      rw [SymbolTable.lookup_insert] at hname
      split at hname
      · obtain rfl := Option.some.inj hname
        exact .inr hallots.2.2
      · exact .inl hname

theorem newArray_enlarges {items : List Value} (hitems : ∀ x ∈ items, Sane i x)
    (heq : newArray items i = .ok v i') :
    Enlarges (fun _ => False) i i' ∧ Fresh i (i.kernelClass .array) v i' ∧
      i'.heap.size v = .ok items.length ∧
      ∀ (k : Nat) x, items[k]? = some x → i'.heap.Holds ⟨v, k⟩ x := by
  obtain ⟨-, -, -, hsize, hheld⟩ := newArray_eq_ok hi hs hitems heq
  obtain ⟨_, _, hget, heq⟩ := bind_eq_ok.mp heq
  cases hget
  obtain ⟨object, i₁, hmade, heq⟩ := bind_eq_ok.mp heq
  obtain ⟨_, i₂, hfill, heq⟩ := bind_eq_ok.mp heq
  obtain ⟨rfl, rfl⟩ := pure_eq_ok.mp heq
  obtain ⟨he, hfresh, -⟩ := allocatePointers_enlarges hi hs (kernelClass_sane hi .array) hmade
  obtain ⟨he', -⟩ := fillSlots_enlarges he.intact he.spelled hfresh.sane
    (fun x hx => he.sane (hitems x hx)) hfill
  refine ⟨((he.mono fun _ _ => False.elim).trans he').mono ?_, hfresh.later he', hsize,
    fun _ _ => hheld⟩
  rintro c hc ⟨⟨rfl, -⟩, -⟩
  exact hfresh.new hc

end Enlarging

/-- An object that was made along with some code: an instance of a kernel class, and no symbol. -/
structure Made (i : Image) (new : Value → Prop) (k : KernelClass) (v : Value) : Prop where
  new : new v
  sane : Sane i v
  isa : i.heap.isa v = .ok (i.kernelClass k)
  noSymbol : ∀ name, i.symbols.lookup name ≠ some v

def Symbolizes (i : Image) (name : String) (v : Value) : Prop :=
  i.symbols.lookup name = some v ∧ i.heap.Spells v (Text.toBytes name)

mutual

/-- A code object has all that a template says, its counts too if they have tagged words, and
belongs to a class. -/
def ReadsCode (i : Image) (new : Value → Prop) (cls : Value) : CodeTemplate → Value → Prop
  | ⟨selector, bytecode, literals, args, temps, heapVars, stack⟩, code =>
    (∃ bytes, i.heap.Holds ⟨code, Slot.Code.bytecode⟩ bytes ∧ i.Made new .byteArray bytes ∧
      i.heap.Spells bytes bytecode) ∧
    (∃ table, i.heap.Holds ⟨code, Slot.Code.literals⟩ table ∧ i.Made new .array table ∧
      i.heap.size table = .ok literals.length ∧ ReadsFrom i new cls table 0 literals) ∧
    (Part.Fits (.shape ⟨args, temps, heapVars, stack⟩) →
      i.heap.codeShape code = .ok ⟨args, temps, heapVars, stack⟩) ∧
    (∃ symbol, i.heap.Holds ⟨code, Slot.Code.selector⟩ symbol ∧ i.Symbolizes selector symbol) ∧
    i.heap.Holds ⟨code, Slot.Code.methodClass⟩ cls
termination_by structural t => t

def ReadsFrom (i : Image) (new : Value → Prop) (cls array : Value) (k : Nat) :
    List Constant → Prop
  | [] => True
  | c :: cs => (∃ v, i.heap.Holds ⟨array, k⟩ v ∧ Reads i new cls c v) ∧
    ReadsFrom i new cls array (k + 1) cs
termination_by structural cs => cs

/-- A value is a constant: an integer itself, the one symbol of a name, a new string with the bytes
of a text, a new array of constants, or a new block that belongs to nothing yet. -/
def Reads (i : Image) (new : Value → Prop) (cls : Value) : Constant → Value → Prop
  | .integer n, v => v.toInt? = some n
  | .string s, v => i.Made new .string v ∧ i.heap.Spells v (Text.toBytes s)
  | .symbol s, v => i.Symbolizes s v
  | .array items, v => i.Made new .array v ∧ i.heap.size v = .ok items.length ∧
    ReadsFrom i new cls v 0 items
  | .block t, v => i.Made new .block v ∧ ReadsCode i new cls t v ∧
    ∀ k ∈ [Slot.Block.receiver, Slot.Block.parentHeapVars, Slot.Block.home],
      i.heap.Holds ⟨v, k⟩ .nil
termination_by structural c => c

end

theorem Made.later (hm : i.Made new k₀ v) (he : Enlarges written i i')
    (hnew : ∀ v, new v → new' v) : i'.Made new' k₀ v where
  new := hnew v hm.new
  sane := he.sane hm.sane
  isa := by rw [he.isa_eq hm.sane, he.kernelClass, hm.isa]
  noSymbol name hname := (he.novel hname).elim (hm.noSymbol name) fun h => h hm.sane

theorem Symbolizes.later {name : String} (hs : i.Symbolizes name v)
    (he : Enlarges written i i') : i'.Symbolizes name v :=
  ⟨he.symbols hs.1, he.heap.spells hs.2⟩

mutual

/-- Code reads as before where nothing is written to it or to what was made along with it. -/
theorem ReadsCode.later (he : Enlarges written i i') (hnew : ∀ v, new v → new' v)
    (hw : ∀ c, written c → ¬new c.object) : ∀ {t : CodeTemplate} {code : Value},
    (∀ k, ¬written ⟨code, k⟩) → i.ReadsCode new cls t code → i'.ReadsCode new' cls t code
  | ⟨selector, bytecode, literals, args, temps, heapVars, stack⟩, code, hcode, hr => by
    rw [ReadsCode] at hr ⊢
    obtain ⟨⟨bytes, hbytes, hmade, hspells⟩, ⟨table, htable, hmade', hsize, hfrom⟩, hshape,
      ⟨symbol, hsymbol, hname⟩, hclass⟩ := hr
    have hkept : ∀ k y, i.heap.Holds ⟨code, k⟩ y → i'.heap.Holds ⟨code, k⟩ y :=
      fun k y => he.heap.kept (hcode k)
    refine ⟨⟨bytes, hkept _ _ hbytes, hmade.later he hnew, he.heap.spells hspells⟩,
      ⟨table, hkept _ _ htable, hmade'.later he hnew, (he.heap.size hmade'.sane).trans hsize,
        ReadsFrom.later he hnew hw (fun k hk => hw _ hk hmade'.new) hfrom⟩,
      fun hfits => Heap.codeShape_kept hclass.sane hkept (hshape hfits),
      ⟨symbol, hkept _ _ hsymbol, hname.later he⟩, hkept _ _ hclass⟩

theorem ReadsFrom.later (he : Enlarges written i i') (hnew : ∀ v, new v → new' v)
    (hw : ∀ c, written c → ¬new c.object) : ∀ {cs : List Constant} {array : Value} {k : Nat},
    (∀ k, ¬written ⟨array, k⟩) → i.ReadsFrom new cls array k cs →
      i'.ReadsFrom new' cls array k cs
  | [], _, _, _, _ => by
    rw [ReadsFrom]
    trivial
  | c :: cs, array, k, harray, hr => by
    rw [ReadsFrom] at hr ⊢
    obtain ⟨⟨v, hheld, hv⟩, hrest⟩ := hr
    exact ⟨⟨v, he.heap.kept (harray k) hheld, Reads.later he hnew hw hv⟩,
      ReadsFrom.later he hnew hw harray hrest⟩

theorem Reads.later (he : Enlarges written i i') (hnew : ∀ v, new v → new' v)
    (hw : ∀ c, written c → ¬new c.object) : ∀ {c : Constant} {v : Value},
    i.Reads new cls c v → i'.Reads new' cls c v
  | .integer n, v, hr => by
    rw [Reads] at hr ⊢
    exact hr
  | .string s, v, hr => by
    rw [Reads] at hr ⊢
    exact ⟨hr.1.later he hnew, he.heap.spells hr.2⟩
  | .symbol s, v, hr => by
    rw [Reads] at hr ⊢
    exact hr.later he
  | .array items, v, hr => by
    rw [Reads] at hr ⊢
    obtain ⟨hmade, hsize, hfrom⟩ := hr
    exact ⟨hmade.later he hnew, (he.heap.size hmade.sane).trans hsize,
      ReadsFrom.later he hnew hw (fun k hk => hw _ hk hmade.new) hfrom⟩
  | .block t, v, hr => by
    rw [Reads] at hr ⊢
    obtain ⟨hmade, hcode, hslots⟩ := hr
    have hblock : ∀ k, ¬written ⟨v, k⟩ := fun k hk => hw _ hk hmade.new
    exact ⟨hmade.later he hnew, ReadsCode.later he hnew hw hblock hcode,
      fun k hk => he.heap.kept (hblock k) (hslots k hk)⟩

end

/-- What was made is found to have been made where more counts as such. -/
theorem ReadsCode.mono {t : CodeTemplate} (hr : i.ReadsCode new cls t code) (hi : Intact i)
    (hs : i.Spelled) (hnew : ∀ v, new v → new' v) : i.ReadsCode new' cls t code :=
  have he : Enlarges (fun _ => False) i i := .refl hi hs
  hr.later he hnew (fun _ => False.elim) fun _ => id

theorem Fresh.made {i₀ i₁ : Image} {k : KernelClass} (hf : Fresh i₁ (i₁.kernelClass k) v i')
    (he : Enlarges written i₁ i') (hold : ∀ v, Sane i₀ v → Sane i₁ v) :
    i'.Made (¬Sane i₀ ·) k v :=
  ⟨fun h => hf.new (hold v h), hf.sane, hf.isa.trans (by rw [he.kernelClass]), hf.noSymbol⟩

theorem readsFrom_of_holds {cs : List Constant} {values : List Value}
    (hr : List.Forall₂ (i.Reads new cls) cs values)
    (hheld : ∀ (j : Nat) x, values[j]? = some x → i.heap.Holds ⟨v, k + j⟩ x) :
    i.ReadsFrom new cls v k cs := by
  induction hr generalizing k with
  | nil =>
    rw [ReadsFrom]
    trivial
  | @cons c x cs values hc _ ih =>
    rw [ReadsFrom]
    refine ⟨⟨x, hheld 0 x rfl, hc⟩, ih fun j y hy => ?_⟩
    simpa [Nat.add_right_comm, Nat.add_assoc] using hheld (j + 1) y (by simpa using hy)

def SharedCells (code : Value) (c : Cell) : Prop := c.object = code ∧ c.index < Slot.Code.count

theorem fillCode_reads (hi : Intact i) (hs : i.Spelled)
    {code bytes table symbol cls : Value} {shape : CodeShape} {u : Unit} (hcode : Sane i code)
    (hbytes : Sane i bytes) (htable : Sane i table) (hsymbol : Sane i symbol) (hcls : Sane i cls)
    (heq : fillCode code bytes table symbol cls shape i = .ok u i') :
    Enlarges (SharedCells code) i i' ∧ i'.heap.Holds ⟨code, Slot.Code.bytecode⟩ bytes ∧
      i'.heap.Holds ⟨code, Slot.Code.literals⟩ table ∧
      (Part.Fits (.shape shape) → i'.heap.codeShape code = .ok shape) ∧
      i'.heap.Holds ⟨code, Slot.Code.selector⟩ symbol ∧
      i'.heap.Holds ⟨code, Slot.Code.methodClass⟩ cls := by
  have hint : ∀ n, Sane i (.ofNat n) := fun n => .inr (.inl (by simp))
  have hitems : ∀ x ∈ [bytes, table, .ofNat shape.args, .ofNat shape.temps, .ofNat shape.heapVars,
      .ofNat shape.stack, symbol, cls], Sane i x := by
    simp [hbytes, htable, hsymbol, hcls, hint]
  obtain ⟨he, hheld⟩ := fillSlots_enlarges hi hs hcode hitems heq
  refine ⟨he.mono fun c _ hc => ⟨hc.1.1, by simpa using hc.2⟩, hheld 0 _ rfl, hheld 1 _ rfl,
    fun hfits => ?_, hheld 6 _ rfl, hheld 7 _ rfl⟩
  obtain ⟨hargs, htemps, hheapVars, hstack⟩ := hfits
  exact Heap.codeShape_eq_ok.mpr ⟨Heap.count_of_holds (hheld 2 _ rfl) hargs,
    Heap.count_of_holds (hheld 3 _ rfl) htemps, Heap.count_of_holds (hheld 4 _ rfl) hheapVars,
    Heap.count_of_holds (hheld 5 _ rfl) hstack⟩

section Loading

mutual

theorem loadCode_reads : ∀ (t : CodeTemplate) {i i' : Image} {cls code : Value} {u : Unit},
    Intact i → i.Spelled → Sane i cls → Sane i code → loadCode code cls t i = .ok u i' →
    Enlarges (SharedCells code) i i' ∧ i'.ReadsCode (¬Sane i ·) cls t code
  | ⟨selector, bytecode, literals, args, temps, heapVars, stack⟩, i, i', cls, code, u, hi, hs, hcls,
      hcode, heq => by
    rw [loadCode] at heq
    obtain ⟨_, _, hget, heq⟩ := bind_eq_ok.mp heq
    cases hget
    obtain ⟨bytes, i₁, hbytes, heq⟩ := bind_eq_ok.mp heq
    obtain ⟨_, _, hget, heq⟩ := bind_eq_ok.mp heq
    cases hget
    obtain ⟨table, i₂, htable, heq⟩ := bind_eq_ok.mp heq
    obtain ⟨_, i₃, hinto, heq⟩ := bind_eq_ok.mp heq
    obtain ⟨symbol, i₄, hintern, hfill⟩ := bind_eq_ok.mp heq
    obtain ⟨he₁, hfresh, hspells⟩ :=
      allocateBytes_enlarges hi hs (kernelClass_sane hi .byteArray) hbytes
    obtain ⟨he₂, hfresh', hsize, hslots⟩ :=
      allocatePointers_enlarges he₁.intact he₁.spelled (kernelClass_sane he₁.intact .array) htable
    have he₁₂ := he₁.trans he₂
    obtain ⟨he₃, hcells, hfrom⟩ := loadInto_reads literals he₂.intact he₂.spelled (he₁₂.sane hcls)
      hfresh'.sane hinto
    obtain ⟨he₄, hsymbol⟩ := intern_enlarges he₃.intact he₃.spelled hintern
    have he₁₄ := ((he₂.mono fun _ _ => False.elim).trans he₃).trans (he₄.mono fun _ _ => False.elim)
    obtain ⟨he₅, hbytes, htable, hshape, hselector, hclass⟩ := fillCode_reads he₄.intact he₄.spelled
      (he₁₄.sane (he₁.sane hcode)) (he₁₄.sane hfresh.sane) (he₄.sane (he₃.sane hfresh'.sane))
      hsymbol.1 (he₁₄.sane (he₁.sane hcls)) hfill
    have he₁₅ := (he₁₄.mono fun _ _ _ => trivial).trans (he₅.mono fun _ _ _ => trivial)
    have he₃₅ := (he₄.mono fun _ _ => False.elim).trans he₅
    have he₂₅ := (he₃.mono fun _ _ _ => trivial).trans (he₃₅.mono fun _ _ _ => trivial)
    have hall : Enlarges (fun c => c.object = table ∨ SharedCells code c) i i' :=
      (he₁₂.mono fun _ _ => False.elim).trans
        ((he₃.mono fun _ _ hc => .inl hc.1).trans (he₃₅.mono fun _ _ => .inr))
    refine ⟨hall.mono ?_, ?_⟩
    · rintro c hc (rfl | hshared)
      · exact absurd (he₁.sane hc) hfresh'.new
      · exact hshared
    rw [ReadsCode]
    refine ⟨⟨bytes, hbytes, (hfresh.made he₁ fun _ => id).later he₁₅ fun _ => id,
      he₁₅.heap.spells hspells⟩, ⟨table, htable,
        (hfresh'.made he₂ fun _ => he₁.sane).later he₂₅ fun _ => id, ?_, ?_⟩,
      hshape, ⟨symbol, hselector, ?_⟩, hclass⟩
    · have htable₃ : i₃.heap.size table = .ok literals.length := by
        refine Heap.size_of_cells ?_ (by simpa using hcells)
        rw [he₃.heap.size hfresh'.sane, hsize]
      rw [he₃₅.heap.size (he₃.sane hfresh'.sane), htable₃]
    · refine hfrom.later he₃₅ (fun v hv hold => hv (he₁₂.sane hold)) ?_ ?_
      · rintro c ⟨rfl, -⟩ hnew
        exact hnew (he₁₂.sane hcode)
      · rintro k ⟨rfl, -⟩
        exact hfresh'.new (he₁.sane hcode)
    · exact ⟨he₅.symbols hsymbol.2, he₅.heap.spells (he₄.spelled hsymbol.2)⟩

theorem loadInto_reads : ∀ (cs : List Constant) {i i' : Image} {cls table : Value} {k : Nat}
    {u : Unit}, Intact i → i.Spelled → Sane i cls → Sane i table →
    loadInto table k cls cs i = .ok u i' →
    Enlarges (CellsFrom table k) i i' ∧
      (∀ j < cs.length, ∃ y, i'.heap.Holds ⟨table, k + j⟩ y) ∧
      i'.ReadsFrom (¬Sane i ·) cls table k cs
  | [], i, i', cls, table, k, u, hi, hs, hcls, htable, heq => by
    rw [loadInto] at heq
    obtain ⟨-, rfl⟩ := pure_eq_ok.mp heq
    refine ⟨.refl hi hs, nofun, ?_⟩
    rw [ReadsFrom]
    trivial
  | c :: cs, i, i', cls, table, k, u, hi, hs, hcls, htable, heq => by
    rw [loadInto] at heq
    obtain ⟨v, i₁, hconstant, heq⟩ := bind_eq_ok.mp heq
    obtain ⟨_, i₂, hset, hrest⟩ := bind_eq_ok.mp heq
    obtain ⟨he₁, hv, hreads⟩ := loadConstant_reads c hi hs hcls hconstant
    have htable₁ := he₁.sane htable
    obtain ⟨he₂, hheld⟩ := setSlot_enlarges he₁.intact he₁.spelled htable₁ hv hset
    obtain ⟨he₃, hcells, hfrom⟩ := loadInto_reads cs he₂.intact he₂.spelled
      (he₂.sane (he₁.sane hcls)) (he₂.sane htable₁) hrest
    have he₂₃ : Enlarges (CellsFrom table k) i₁ i' := by
      refine (he₂.mono ?_).trans (he₃.mono fun c _ hc => ⟨hc.1, Nat.le_of_succ_le hc.2⟩)
      rintro _ - rfl
      exact ⟨rfl, Nat.le_refl k⟩
    have hfirst := he₃.heap.kept (fun hc => Nat.not_succ_le_self k hc.2) hheld
    refine ⟨(he₁.mono fun _ _ => False.elim).trans he₂₃, fun j hj => ?_, ?_⟩
    · cases j with
      | zero => exact ⟨v, hfirst⟩
      | succ j =>
        obtain ⟨y, hy⟩ := hcells j (Nat.lt_of_succ_lt_succ hj)
        exact ⟨y, by simpa [Nat.add_right_comm, Nat.add_assoc] using hy⟩
    rw [ReadsFrom]
    refine ⟨⟨v, hfirst, hreads.later he₂₃ (fun _ => id) fun c hc hnew => hnew (hc.1 ▸ htable)⟩, ?_⟩
    have he₃' : Enlarges (fun _ => False) i' i' := .refl he₃.intact he₃.spelled
    exact hfrom.later he₃' (fun v hv hold => hv (he₂.sane (he₁.sane hold)))
      (fun _ => False.elim) fun _ => id

theorem loadConstant_reads : ∀ (c : Constant) {i i' : Image} {cls v : Value}, Intact i →
    i.Spelled → Sane i cls → loadConstant cls c i = .ok v i' →
    Enlarges (fun _ => False) i i' ∧ Sane i' v ∧ i'.Reads (¬Sane i ·) cls c v
  | .integer n, i, i', cls, v, hi, hs, hcls, heq => by
    rw [loadConstant, Value.ofInt?] at heq
    by_cases hn : Value.Fits n
    · rw [if_pos hn] at heq
      obtain ⟨rfl, rfl⟩ := pure_eq_ok.mp heq
      refine ⟨.refl hi hs, .inr (.inl (by simp)), ?_⟩
      rw [Reads]
      exact Value.toInt?_wrapInt hn
    · rw [if_neg hn] at heq
      exact nomatch fail_eq_ok.mp heq
  | .string s, i, i', cls, v, hi, hs, hcls, heq => by
    rw [loadConstant] at heq
    obtain ⟨he, hfresh, hspells⟩ :=
      allocateBytes_enlarges hi hs (kernelClass_sane hi .string) heq
    refine ⟨he, hfresh.sane, ?_⟩
    rw [Reads]
    exact ⟨hfresh.made he fun _ => id, hspells⟩
  | .symbol s, i, i', cls, v, hi, hs, hcls, heq => by
    rw [loadConstant] at heq
    obtain ⟨he, hv, hlookup⟩ := intern_enlarges hi hs heq
    refine ⟨he, hv, ?_⟩
    rw [Reads]
    exact ⟨hlookup, he.spelled hlookup⟩
  | .array items, i, i', cls, v, hi, hs, hcls, heq => by
    rw [loadConstant] at heq
    obtain ⟨values, i₁, hvalues, harray⟩ := bind_eq_ok.mp heq
    obtain ⟨he₁, hsane, hreads⟩ := loadConstants_reads items hi hs hcls hvalues
    obtain ⟨he₂, hfresh, hsize, hheld⟩ := newArray_enlarges he₁.intact he₁.spelled hsane harray
    refine ⟨he₁.trans he₂, hfresh.sane, ?_⟩
    rw [Reads]
    refine ⟨hfresh.made he₂ fun _ => he₁.sane, by rw [hsize, hreads.length_eq],
      readsFrom_of_holds (hreads.imp fun _ _ hr => ?_) (by simpa using hheld)⟩
    exact hr.later he₂ (fun _ => id) fun _ => False.elim
  | .block t, i, i', cls, v, hi, hs, hcls, heq => by
    rw [loadConstant] at heq
    obtain ⟨_, _, hget, heq⟩ := bind_eq_ok.mp heq
    cases hget
    obtain ⟨block, i₁, hblock, heq⟩ := bind_eq_ok.mp heq
    obtain ⟨_, i₂, hcode, heq⟩ := bind_eq_ok.mp heq
    obtain ⟨rfl, rfl⟩ := pure_eq_ok.mp heq
    obtain ⟨he₁, hfresh, -, hslots⟩ :=
      allocatePointers_enlarges hi hs (kernelClass_sane hi .block) hblock
    obtain ⟨he₂, hreads⟩ := loadCode_reads t he₁.intact he₁.spelled
      (he₁.sane hcls) hfresh.sane hcode
    refine ⟨((he₁.mono fun _ _ => False.elim).trans he₂).mono ?_, he₂.sane hfresh.sane, ?_⟩
    · rintro c hc ⟨rfl, -⟩
      exact hfresh.new hc
    rw [Reads]
    refine ⟨(hfresh.made he₁ fun _ => id).later he₂ fun _ => id, hreads.mono he₂.intact he₂.spelled
      fun v hv hold => hv (he₁.sane hold), fun k hk => ?_⟩
    have hbounds : Slot.Code.count ≤ k ∧ k < Slot.Block.count % 0x100000000 := by
      revert k
      decide
    exact he₂.heap.kept (fun hshared => Nat.not_lt.mpr hbounds.1 hshared.2) (hslots k hbounds.2)

theorem loadConstants_reads : ∀ (cs : List Constant) {i i' : Image} {cls : Value}
    {vs : List Value}, Intact i → i.Spelled → Sane i cls → loadConstants cls cs i = .ok vs i' →
    Enlarges (fun _ => False) i i' ∧ (∀ v ∈ vs, Sane i' v) ∧
      List.Forall₂ (i'.Reads (¬Sane i ·) cls) cs vs
  | [], i, i', cls, vs, hi, hs, hcls, heq => by
    rw [loadConstants] at heq
    obtain ⟨rfl, rfl⟩ := pure_eq_ok.mp heq
    exact ⟨.refl hi hs, nofun, .nil⟩
  | c :: cs, i, i', cls, vs, hi, hs, hcls, heq => by
    rw [loadConstants] at heq
    obtain ⟨v, i₁, hfirst, heq⟩ := bind_eq_ok.mp heq
    obtain ⟨rest, i₂, hrest, heq⟩ := bind_eq_ok.mp heq
    obtain ⟨rfl, rfl⟩ := pure_eq_ok.mp heq
    obtain ⟨he₁, hv, hreads⟩ := loadConstant_reads c hi hs hcls hfirst
    obtain ⟨he₂, hsane, hrests⟩ :=
      loadConstants_reads cs he₁.intact he₁.spelled (he₁.sane hcls) hrest
    refine ⟨he₁.trans he₂, List.forall_mem_cons.mpr ⟨he₂.sane hv, hsane⟩,
      .cons (hreads.later he₂ (fun _ => id) fun _ => False.elim) (hrests.imp fun _ _ hr => ?_)⟩
    have he₂' : Enlarges (fun _ => False) i₂ i₂ := .refl he₂.intact he₂.spelled
    exact hr.later he₂' (fun v hv hold => hv (he₁.sane hold)) fun _ => False.elim

end

end Loading

section Telling

def OfKind (i : Image) (v : Value) : Constant.Kind → Prop
  | .integer => v.isInteger
  | .symbol => ∃ name, i.Symbolizes name v
  | .object k => i.heap.isa v = .ok (i.kernelClass k) ∧ ∀ name, i.symbols.lookup name ≠ some v

theorem Symbolizes.not_integer {name : String} (hs : i.Symbolizes name v) : ¬v.isInteger := by
  obtain ⟨-, ⟨_, hplace⟩, -⟩ := hs
  intro hv
  rw [Value.address?_of_isInteger hv] at hplace
  cases hplace

theorem not_integer_of_isa (hisa : i.heap.isa v = .ok w) : ¬v.isInteger := by
  intro hv
  simp only [Heap.isa, Heap.header, Heap.locate, Value.address?_of_isInteger hv] at hisa
  cases hisa

theorem OfKind.unique {k k' : Constant.Kind} (hkinds : Function.Injective i.kernelClass)
    (hk : i.OfKind v k) (hk' : i.OfKind v k') : k = k' := by
  cases k <;> cases k'
  case integer.integer | symbol.symbol => rfl
  case integer.symbol => exact hk'.elim fun _ hs => absurd hk hs.not_integer
  case symbol.integer => exact hk.elim fun _ hs => absurd hk' hs.not_integer
  case integer.object => exact absurd hk (not_integer_of_isa hk'.1)
  case object.integer => exact absurd hk' (not_integer_of_isa hk.1)
  case symbol.object => exact hk.elim fun name hs => absurd hs.1 (hk'.2 name)
  case object.symbol => exact hk'.elim fun name hs => absurd hs.1 (hk.2 name)
  case object.object k k' => rw [hkinds (Except.ok.inj (hk.1.symm.trans hk'.1))]

theorem Reads.ofKind {c : Constant} (hr : i.Reads new cls c v) : i.OfKind v c.kind := by
  cases c with
  | integer n =>
    rw [Reads, Value.toInt?] at hr
    have hv : v.isInteger := by
      by_contra hv
      rw [if_neg hv] at hr
      cases hr
    exact hv
  | string s =>
    rw [Reads] at hr
    exact ⟨hr.1.isa, hr.1.noSymbol⟩
  | symbol s =>
    rw [Reads] at hr
    exact ⟨s, hr⟩
  | array items =>
    rw [Reads] at hr
    exact ⟨hr.1.isa, hr.1.noSymbol⟩
  | block t =>
    rw [Reads] at hr
    exact ⟨hr.1.isa, hr.1.noSymbol⟩

theorem Symbolizes.unique {name name' : String} (hs : i.Symbolizes name v)
    (hs' : i.Symbolizes name' v) : name = name' :=
  Text.toBytes_injective (Except.ok.inj (hs.2.2.symm.trans hs'.2.2))

mutual

/-- Nothing but its template is read off some code, where integers and counts have tagged words. -/
theorem ReadsCode.unique (hkinds : Function.Injective i.kernelClass) :
    ∀ {t t' : CodeTemplate} {code cls' : Value}, (∀ p ∈ t.parts, p.Fits) →
      (∀ p ∈ t'.parts, p.Fits) → i.ReadsCode new cls t code → i.ReadsCode new' cls' t' code → t = t'
  | ⟨selector, bytecode, literals, args, temps, heapVars, stack⟩, t', code, cls', hf, hf', hr,
    hr' => by
    obtain ⟨selector', bytecode', literals', args', temps', heapVars', stack'⟩ := t'
    rw [ReadsCode] at hr hr'
    simp only [CodeTemplate.parts, List.forall_mem_cons, List.forall_mem_append] at hf hf'
    obtain ⟨-, -, hf, -, hshape, -⟩ := hf
    obtain ⟨-, -, hf', -, hshape', -⟩ := hf'
    obtain ⟨⟨bytes, hbytes, -, hspells⟩, ⟨table, htable, -, hsize, hfrom⟩, hcounts,
      ⟨symbol, hsymbol, hname⟩, -⟩ := hr
    obtain ⟨⟨bytes', hbytes', -, hspells'⟩, ⟨table', htable', -, hsize', hfrom'⟩, hcounts',
      ⟨symbol', hsymbol', hname'⟩, -⟩ := hr'
    obtain rfl := hbytes.unique hbytes'
    obtain rfl := htable.unique htable'
    obtain rfl := hsymbol.unique hsymbol'
    obtain rfl := hname.unique hname'
    obtain rfl := Except.ok.inj (hspells.2.symm.trans hspells'.2)
    obtain rfl :=
      ReadsFrom.unique hkinds (Except.ok.inj (hsize.symm.trans hsize')) hf hf' hfrom hfrom'
    cases Except.ok.inj ((hcounts hshape).symm.trans (hcounts' hshape'))
    rfl

theorem ReadsFrom.unique (hkinds : Function.Injective i.kernelClass) :
    ∀ {cs cs' : List Constant} {array cls' : Value} {k : Nat}, cs.length = cs'.length →
      (∀ p ∈ Constant.partsOf cs, p.Fits) → (∀ p ∈ Constant.partsOf cs', p.Fits) →
      i.ReadsFrom new cls array k cs → i.ReadsFrom new' cls' array k cs' → cs = cs'
  | [], cs', array, cls', k, hlength, hf, hf', hr, hr' =>
    (List.length_eq_zero_iff.mp hlength.symm).symm
  | c :: cs, [], array, cls', k, hlength, hf, hf', hr, hr' => nomatch hlength
  | c :: cs, c' :: cs', array, cls', k, hlength, hf, hf', hr, hr' => by
    rw [ReadsFrom] at hr hr'
    simp only [Constant.partsOf, List.forall_mem_append] at hf hf'
    obtain ⟨⟨v, hheld, hv⟩, hrest⟩ := hr
    obtain ⟨⟨v', hheld', hv'⟩, hrest'⟩ := hr'
    obtain rfl := hheld.unique hheld'
    rw [Reads.unique hkinds hf.1 hf'.1 hv hv',
      ReadsFrom.unique hkinds (Nat.succ.inj hlength) hf.2 hf'.2 hrest hrest']

theorem Reads.unique (hkinds : Function.Injective i.kernelClass) :
    ∀ {c c' : Constant} {v cls' : Value}, (∀ p ∈ c.parts, p.Fits) → (∀ p ∈ c'.parts, p.Fits) →
      i.Reads new cls c v → i.Reads new' cls' c' v → c = c'
  | .integer n, c', v, cls', hf, hf', hr, hr' => by
    have hkind := hr.ofKind.unique hkinds hr'.ofKind
    cases c' with
    | integer m =>
      rw [Reads] at hr hr'
      rw [Option.some.inj (hr.symm.trans hr')]
    | string | symbol | array | block => cases hkind
  | .string s, c', v, cls', hf, hf', hr, hr' => by
    have hkind := hr.ofKind.unique hkinds hr'.ofKind
    cases c' with
    | string s' =>
      rw [Reads] at hr hr'
      rw [Text.toBytes_injective (Except.ok.inj (hr.2.2.symm.trans hr'.2.2))]
    | integer | symbol | array | block => cases hkind
  | .symbol s, c', v, cls', hf, hf', hr, hr' => by
    have hkind := hr.ofKind.unique hkinds hr'.ofKind
    cases c' with
    | symbol s' =>
      rw [Reads] at hr hr'
      rw [hr.unique hr']
    | integer | string | array | block => cases hkind
  | .array items, c', v, cls', hf, hf', hr, hr' => by
    have hkind := hr.ofKind.unique hkinds hr'.ofKind
    cases c' with
    | array items' =>
      rw [Reads] at hr hr'
      simp only [Constant.parts, List.forall_mem_append] at hf hf'
      rw [ReadsFrom.unique hkinds (Except.ok.inj (hr.2.1.symm.trans hr'.2.1)) hf.1 hf'.1 hr.2.2
        hr'.2.2]
    | integer | string | symbol | block => cases hkind
  | .block t, c', v, cls', hf, hf', hr, hr' => by
    have hkind := hr.ofKind.unique hkinds hr'.ofKind
    cases c' with
    | block t' =>
      rw [Reads] at hr hr'
      simp only [Constant.parts, List.forall_mem_cons] at hf hf'
      rw [ReadsCode.unique hkinds hf.2 hf'.2 hr.2.1 hr'.2.1]
    | integer | string | symbol | array => cases hkind

end

end Telling

section Methods

variable {t : CodeTemplate}

theorem load_reads {method : Value} (hi : Intact i) (hs : i.Spelled) (hcls : Sane i cls)
    (heq : load t cls i = .ok method i') :
    Enlarges (fun _ => False) i i' ∧ i'.Made (¬Sane i ·) .method method ∧
      i'.ReadsCode (¬Sane i ·) cls t method := by
  obtain ⟨_, _, hget, heq⟩ := bind_eq_ok.mp heq
  cases hget
  obtain ⟨object, i₁, hmade, heq⟩ := bind_eq_ok.mp heq
  obtain ⟨_, i₂, hcode, heq⟩ := bind_eq_ok.mp heq
  obtain ⟨rfl, rfl⟩ := pure_eq_ok.mp heq
  obtain ⟨he₁, hfresh, -⟩ := allocatePointers_enlarges hi hs (kernelClass_sane hi .method) hmade
  obtain ⟨he₂, hreads⟩ := loadCode_reads t he₁.intact he₁.spelled (he₁.sane hcls) hfresh.sane hcode
  refine ⟨((he₁.mono fun _ _ => False.elim).trans he₂).mono ?_,
    (hfresh.made he₁ fun _ => id).later he₂ fun _ => id,
    hreads.mono he₂.intact he₂.spelled fun v hv hold => hv (he₁.sane hold)⟩
  rintro c hc ⟨rfl, -⟩
  exact hfresh.new hc

end Methods

end Image

end ObjectMachine
