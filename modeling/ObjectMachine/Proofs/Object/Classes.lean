import ObjectMachine.Proofs.Object.Interning

namespace ObjectMachine

theorem Text.ofBytes_toBytes (text : String) : ofBytes (toBytes text) = text := by
  have hread : String.fromUTF8? text.toUTF8 = some text := by
    simp only [String.fromUTF8?, String.toUTF8_eq_toByteArray, dif_pos text.isValidUTF8]
    rfl
  rw [ofBytes, toBytes, hread]

namespace Arenas

variable {a : Arenas} {loc loc' : Address}

/-- Another class for an object changes its first word only. -/
theorem Laid.getElem?_recast (laid : a.Laid) (hl : a.Allocated loc) (hl' : a.Allocated loc')
    {k : Nat} (hk : k < a.extent loc') (hne : loc' = loc → k ≠ 0) (w : UInt64) :
    ((a.setWord loc.arena loc.word w).space loc'.arena)[loc'.word + k]? =
      (a.space loc'.arena)[loc'.word + k]? := by
  rw [Arenas.getElem?_setWord, if_neg]
  rintro ⟨harena, hword⟩
  obtain ⟨header, hh, -⟩ := laid.object hl
  have hextent : 0 < a.extent loc := by
    rw [extent_eq hh]
    exact Nat.lt_of_lt_of_le Nat.zero_lt_two header.headerWords_le_totalWords
  obtain ⟨hsame, hzero⟩ := laid.apart hl' hl harena hk hextent hword
  exact hne hsame hzero

theorem Laid.header_recast (laid : a.Laid) (hl : a.Allocated loc) (hl' : a.Allocated loc')
    {header : Header} (hh : a.header loc' = .ok header) (w : UInt64) :
    (a.setWord loc.arena loc.word w).header loc' =
      .ok (if loc' = loc then { header with isa := ⟨w⟩ } else header) := by
  have hextent : ∀ {k}, k < headerWords → k < a.extent loc' := fun hk => by
    rw [extent_eq hh]
    exact Nat.lt_of_lt_of_le hk header.headerWords_le_totalWords
  obtain ⟨isa, packed, hisa, hpacked, rfl⟩ := header_eq_ok_iff.mp hh
  have hpacked' := (laid.getElem?_recast hl hl' (hextent (k := 1) (by decide))
    (fun _ => Nat.one_ne_zero) w).trans hpacked
  by_cases hsame : loc' = loc
  · subst hsame
    refine header_eq_ok_iff.mpr ⟨w, packed, ?_, hpacked', by rw [if_pos rfl]; rfl⟩
    rw [Arenas.getElem?_setWord, if_pos ⟨rfl, rfl⟩, hisa]
    rfl
  · refine header_eq_ok_iff.mpr ⟨isa, packed, ?_, hpacked', by rw [if_neg hsame]⟩
    exact (laid.getElem?_recast hl hl' (hextent (k := 0) (by decide)) (absurd · hsame) w).trans hisa

end Arenas

structure Wiring where
  object : Value
  isa : Value
  superclass : Value

/-- A class or metaclass with its name, its dictionary of methods, and the array of the names of its
variables. -/
structure Outfit where
  object : Value
  title : String
  methods : Value
  array : Value
  names : List String

def Wiring.relocate (f : Address → Address) (w : Wiring) : Wiring :=
  ⟨w.object.relocate f, w.isa.relocate f, w.superclass.relocate f⟩

def Outfit.relocate (f : Address → Address) (o : Outfit) : Outfit :=
  ⟨o.object.relocate f, o.title, o.methods.relocate f, o.array.relocate f, o.names⟩

namespace Heap

variable {h h' : Heap} {v x : Value}

section Recasting

/-- An object is given another class; nothing else changes. -/
structure Recasts (h h' : Heap) (v x : Value) : Prop where
  whole : h'.Whole
  grows : Grows h h'
  isa : h'.isa v = .ok x
  cells : ∀ {c y}, h.Holds c y → h'.Holds c y
  header : ∀ {w}, h.arenas.Sane w → w ≠ v → h'.header w = h.header w
  spells : ∀ {w content}, h.Spells w content → h'.Spells w content

theorem Whole.recasts {ε : Type} (whole : h.Whole) {i : Nat} {y : Value} (hv : h.Holds ⟨v, i⟩ y)
    (hx : h.arenas.Sane x) (heq : Heap.setClass v x (ε := ε) h = .ok () h') :
    Recasts h h' v x := by
  obtain ⟨whole', hgrows⟩ := whole.setClass hv.sane hx heq
  obtain ⟨slots, ⟨word, _, _, hword, hl, -⟩, -⟩ := hv.shows whole
  dsimp only at hword
  subst hword
  obtain ⟨hsmall, hpos⟩ := whole.sound.bounds hl
  have hloc := Value.address?_ofAddress hsmall hpos
  rw [Heap.setClass, locate, hloc] at heq
  dsimp only at heq
  split at heq
  case isFalse => cases heq
  cases heq
  refine ⟨whole', hgrows, ?_, fun {c z} hc => ⟨hgrows _ hc.sane, ?_⟩, fun {w} hw hne => ?_,
    fun hs => hs.grow #[] (by rw [Array.append_empty]; rfl)⟩
  · obtain ⟨header, hh, -⟩ := whole.sound.laid.object hl
    simp only [Heap.isa, Heap.header, locate, hloc, bind, Except.bind, pure, Except.pure,
      whole.sound.laid.header_recast hl hl hh x.raw, if_true]
  · obtain ⟨loc, header, hloc', hh, hkind, hi, hslot⟩ := slot_eq_ok hc.slot
    have hl' := hc.sane.allocated hloc'
    have hh' := whole.sound.laid.header_recast hl hl' hh x.raw
    have hword := whole.sound.laid.getElem?_recast hl hl' (k := headerWords + c.index)
      (by
        rw [Arenas.extent_eq hh, Header.totalWords, Header.payloadWords, hkind]
        exact Nat.add_lt_add_left hi _)
      (by simp [headerWords]) x.raw
    rw [← Nat.add_assoc, Arenas.word_eq_ok_iff.mp hslot, ← Arenas.word_eq_ok_iff] at hword
    have hheader : ∃ header', (h.arenas.setWord .pointers word x.raw).header loc = .ok header' ∧
        header'.kind = .pointers ∧ c.index < header'.size.toNat := by
      refine ⟨_, hh', ?_⟩
      split <;> exact ⟨hkind, hi⟩
    obtain ⟨header', hh', hkind', hi'⟩ := hheader
    simp only [Heap.slot, slotWord, locate, hloc', hh', bind, Except.bind, hkind', hi', true_and,
      if_true, pure, Except.pure, hword]
  · rw [Heap.header, Heap.header, locate]
    cases hloc' : w.address? with
    | none => rfl
    | some loc =>
      have hl' := hw.allocated hloc'
      obtain ⟨header, hh, -⟩ := whole.sound.laid.object hl'
      have hother : loc ≠ ⟨.pointers, word⟩ := by
        rintro rfl
        exact hne (Value.ofAddress_of_address? hloc').symm
      simp only [bind, Except.bind, hh, whole.sound.laid.header_recast hl hl' hh x.raw,
        if_neg hother]

end Recasting

section Wired

structure Wired (h : Heap) (w : Wiring) : Prop where
  sane : h.arenas.Sane w.object
  isa : h.isa w.object = .ok w.isa
  superclass : h.Holds ⟨w.object, Slot.Class.superclass⟩ w.superclass

variable {w : Wiring} {written : Cell → Prop}

theorem Extends.isa (he : Extends written h h') (hv : h.arenas.Sane v) : h'.isa v = h.isa v := by
  rw [Heap.isa, Heap.isa, he.header hv]

theorem Wired.not_isNil (hw : h.Wired w) : ¬w.object.isNil := hw.superclass.not_isNil

theorem Wired.frame (hw : h.Wired w) (he : Extends written h h')
    (hcell : ¬written ⟨w.object, Slot.Class.superclass⟩) : h'.Wired w where
  sane := he.grows _ hw.sane
  isa := (he.isa hw.sane).trans hw.isa
  superclass := he.kept hcell hw.superclass

theorem Wired.isa_sane (hw : h.Wired w) (whole : h.Whole) : h.arenas.Sane w.isa := by
  obtain ⟨header, hh, heq⟩ := except_bind_eq_ok.mp hw.isa
  rw [← Except.ok.inj heq]
  exact whole.header hw.sane hh

/-- A wired class is below one of the classes that the wiring rule knows. -/
theorem Wired.metaclassSuper (hw : h.Wired w) (root rootMeta : Value) :
    h.metaclassSuper w.object root rootMeta =
      .ok (if w.object = root then rootMeta else w.isa) := by
  rw [Heap.metaclassSuper, if_neg hw.not_isNil]
  split
  · rfl
  · exact hw.isa

end Wired

section Fitted

structure Fitted (h : Heap) (o : Outfit) : Prop where
  title : ∃ symbol, h.Holds ⟨o.object, Slot.Class.name⟩ symbol ∧
    h.Spells symbol (Text.toBytes o.title)
  methods : h.Holds ⟨o.object, Slot.Class.methods⟩ o.methods
  array : h.Holds ⟨o.object, Slot.Class.instanceVariables⟩ o.array
  instanceSize : h.Holds ⟨o.object, Slot.Class.instanceSize⟩ (.ofNat o.names.length)
  count : h.size o.array = .ok o.names.length
  names : ∀ {k name}, o.names[k]? = some name → ∃ symbol, h.Holds ⟨o.array, k⟩ symbol ∧
    h.Spells symbol (Text.toBytes name)

variable {o : Outfit} {written : Cell → Prop}

theorem Fitted.frame (ho : h.Fitted o) (whole : h.Whole) (he : Extends written h h')
    (spells : ∀ {v content}, h.Spells v content → h'.Spells v content)
    (hobject : ∀ k, ¬written ⟨o.object, k⟩) (harray : ∀ k, ¬written ⟨o.array, k⟩) :
    h'.Fitted o where
  title := by
    obtain ⟨symbol, hsymbol, hs⟩ := ho.title
    exact ⟨symbol, he.kept (hobject _) hsymbol, spells hs⟩
  methods := he.kept (hobject _) ho.methods
  array := he.kept (hobject _) ho.array
  instanceSize := he.kept (hobject _) ho.instanceSize
  count := (he.size (ho.array.value_sane whole)).trans ho.count
  names hname := by
    obtain ⟨symbol, hsymbol, hs⟩ := ho.names hname
    exact ⟨symbol, he.kept (harray _) hsymbol, spells hs⟩

theorem Spells.text {text : String} (hs : h.Spells v (Text.toBytes text)) :
    h.text v = .ok text := by
  rw [Heap.text, hs.2]
  exact congrArg Except.ok (Text.ofBytes_toBytes text)

theorem Spells.not_isNil {content : Array UInt8} (hs : h.Spells v content) : ¬v.isNil := by
  obtain ⟨⟨word, hloc⟩, -⟩ := hs
  intro hnil
  rw [Value.eq_nil_of_isNil hnil] at hloc
  cases hloc

theorem Fitted.className (ho : h.Fitted o) : h.className o.object = .ok o.title := by
  obtain ⟨symbol, hsymbol, hs⟩ := ho.title
  simp only [Heap.className, hsymbol.slot, bind, Except.bind, if_neg hs.not_isNil]
  exact hs.text

theorem Fitted.slotTexts (ho : h.Fitted o) {k : Nat} {rest : List String}
    (hrest : o.names.drop k = rest) : h.slotTexts o.array k rest.length = .ok rest := by
  induction rest generalizing k with
  | nil => rfl
  | cons name rest ih =>
    have hname : o.names[k]? = some name := by
      rw [← List.head?_drop, hrest]
      rfl
    have hnext : o.names.drop (k + 1) = rest := by
      rw [← List.tail_drop, hrest]
      rfl
    obtain ⟨symbol, hsymbol, hs⟩ := ho.names hname
    simp only [List.length_cons, Heap.slotTexts, hsymbol.slot, bind, Except.bind, hs.text, ih hnext,
      pure, Except.pure]

theorem size_eq_ok_not_isNil {n : Nat} (hsize : h.size v = .ok n) : ¬v.isNil := by
  obtain ⟨header, hh, -⟩ := except_bind_eq_ok.mp hsize
  obtain ⟨loc, hloc, -⟩ := header_eq_ok hh
  intro hnil
  rw [Value.eq_nil_of_isNil hnil] at hloc
  cases hloc

theorem Fitted.instanceVariables (ho : h.Fitted o) :
    h.instanceVariables o.object = .ok o.names := by
  simp only [Heap.instanceVariables, ho.array.slot, bind, Except.bind, ho.count,
    if_neg (size_eq_ok_not_isNil ho.count)]
  exact ho.slotTexts rfl

theorem size_small {n : Nat} (hsize : h.size v = .ok n) : n < 0x100000000 := by
  obtain ⟨header, -, hn⟩ := except_bind_eq_ok.mp hsize
  cases hn
  exact header.size.toNat_lt

theorem Fitted.instanceSize_eq (ho : h.Fitted o) :
    h.instanceSize o.object = .ok o.names.length := by
  have hsmall := size_small ho.count
  simp only [Heap.instanceSize, Heap.count, ho.instanceSize.slot, bind, Except.bind, pure,
    Except.pure, Value.toNat?_ofNat (hsmall.trans (by decide)), Option.getD_some]

end Fitted

section Wiring

/-- Whatever happens to some objects, all others stay as they are. -/
structure Reshapes (objects : List Value) (h h' : Heap) : Prop where
  whole : h'.Whole
  grows : Grows h h'
  cells : ∀ {c y}, c.object ∉ objects → h.Holds c y → h'.Holds c y
  header : ∀ {w}, h.arenas.Sane w → w ∉ objects → h'.header w = h.header w
  spells : ∀ {w content}, h.Spells w content → h'.Spells w content

variable {h'' : Heap} {objects : List Value} {cls metaclass sup root rootMeta : Value}

theorem Reshapes.trans (hr : Reshapes objects h h') (hr' : Reshapes objects h' h'') :
    Reshapes objects h h'' where
  whole := hr'.whole
  grows := hr.grows.trans hr'.grows
  cells hc hold := hr'.cells hc (hr.cells hc hold)
  header hw hne := (hr'.header (hr.grows _ hw) hne).trans (hr.header hw hne)
  spells hs := hr'.spells (hr.spells hs)

theorem Recasts.reshapes (hr : Recasts h h' v x) (hv : v ∈ objects) : Reshapes objects h h' :=
  ⟨hr.whole, hr.grows, fun _ => hr.cells, fun hw hne => hr.header hw fun heq => hne (heq ▸ hv),
    hr.spells⟩

theorem Rewrites.reshapes {c : Cell} (hr : Rewrites h h' c x) (hc : c.object ∈ objects) :
    Reshapes objects h h' :=
  ⟨hr.whole, hr.grows, fun hd => hr.others fun heq => hd (heq ▸ hc), fun hw _ => hr.header hw,
    hr.spells⟩

theorem Wired.reshape {w : Wiring} (hw : h.Wired w) (hr : Reshapes objects h h')
    (hne : w.object ∉ objects) : h'.Wired w where
  sane := hr.grows _ hw.sane
  isa := by
    rw [Heap.isa, hr.header hw.sane hne]
    exact hw.isa
  superclass := hr.cells hne hw.superclass

/-- Only the class word of the superclass matters. -/
theorem Rewrites.metaclassSuper {c : Cell} (hr : Rewrites h h' c x) (hsup : h.arenas.Sane sup) :
    h'.metaclassSuper sup root rootMeta = h.metaclassSuper sup root rootMeta := by
  simp only [Heap.metaclassSuper, Heap.isa, hr.header hsup]

theorem wire_unfailing {ε : Type} (cls metaclass sup root rootMeta : Value) :
    (wire cls metaclass sup root rootMeta : Action ε Heap Unit).Unfailing := by
  have hsetClass : ∀ v isa, (setClass v isa : Action ε Heap Unit).Unfailing := by
    intro v isa h e h' heq
    rw [Heap.setClass] at heq
    split at heq
    · cases heq
    · split at heq <;> cases heq
  refine .bind (hsetClass _ _) fun _ => .bind (hsetClass _ _) fun _ => ?_
  exact .bind (setSlot_unfailing _ _ _) fun _ => .bind (.query _) fun _ => setSlot_unfailing _ _ _

theorem Whole.wires {ε : Type} {a b : Value} (whole : h.Whole)
    (hcls : h.Holds ⟨cls, Slot.Class.superclass⟩ a)
    (hmeta : h.Holds ⟨metaclass, Slot.Class.superclass⟩ b) (hne : cls ≠ metaclass)
    (hsup : h.arenas.Sane sup) (hroot : h.arenas.Sane root) (hrootMeta : h.arenas.Sane rootMeta)
    (heq : wire cls metaclass sup root rootMeta (ε := ε) h = .ok () h') :
    ∃ msup, Reshapes [cls, metaclass] h h' ∧ h'.metaclassSuper sup root rootMeta = .ok msup ∧
      h'.Wired ⟨cls, metaclass, sup⟩ ∧ h'.Wired ⟨metaclass, rootMeta, msup⟩ := by
  rw [wire] at heq
  obtain ⟨_, h₁, hset₁, heq⟩ := bind_eq_ok.mp heq
  obtain ⟨_, h₂, hset₂, heq⟩ := bind_eq_ok.mp heq
  obtain ⟨_, h₃, hset₃, heq⟩ := bind_eq_ok.mp heq
  obtain ⟨msup, hmsup, hset₄⟩ := query_bind_eq_ok.mp heq
  have hr₁ := whole.recasts hcls hmeta.sane hset₁
  have hr₂ := hr₁.whole.recasts (hr₁.cells hmeta) (hr₁.grows _ hrootMeta) hset₂
  have hgrows₂ := hr₁.grows.trans hr₂.grows
  have hr₃ := hr₂.whole.rewrites (hgrows₂ _ hcls.sane) (hgrows₂ _ hsup) hset₃
  have hgrows₃ := hgrows₂.trans hr₃.grows
  have hmsup_sane : h₃.arenas.Sane msup :=
    hr₃.whole.yields_metaclassSuper (hgrows₃ _ hsup) (hgrows₃ _ hroot) (hgrows₃ _ hrootMeta) _ hmsup
      msup (by simp)
  have hr₄ := hr₃.whole.rewrites (hgrows₃ _ hmeta.sane) hmsup_sane hset₄
  have hcls_isa : h₂.isa cls = .ok metaclass := by
    rw [Heap.isa, hr₂.header (hr₁.grows _ hcls.sane) hne]
    exact hr₁.isa
  -- The class words stay when slots are written.
  have hisa : ∀ {v}, h₂.arenas.Sane v → h'.isa v = h₂.isa v := fun hv => by
    rw [Heap.isa, Heap.isa, hr₄.header (hr₃.grows _ hv), hr₃.header hv]
  refine ⟨msup, ?_, (hr₄.metaclassSuper (hgrows₃ _ hsup)).trans hmsup, ⟨?_, ?_, ?_⟩, ?_, ?_, ?_⟩
  · exact ((hr₁.reshapes (by simp)).trans (hr₂.reshapes (by simp))).trans
      ((hr₃.reshapes (by simp)).trans (hr₄.reshapes (by simp)))
  · exact hr₄.grows _ (hgrows₃ _ hcls.sane)
  · exact (hisa (hgrows₂ _ hcls.sane)).trans hcls_isa
  · exact hr₄.others (by simp [hne]) hr₃.written
  · exact hr₄.grows _ (hgrows₃ _ hmeta.sane)
  · exact (hisa (hgrows₂ _ hmeta.sane)).trans hr₂.isa
  · exact hr₄.written

/-- The check of the wiring rule passes. -/
theorem checkWiring_of_wired {msup : Value} {o : Outfit} (hw : h.Wired ⟨cls, metaclass, sup⟩)
    (hw' : h.Wired ⟨metaclass, rootMeta, msup⟩) (ho : h.Fitted o) (hobject : o.object = cls)
    (hroot : sup = .nil → cls = root)
    (hsuper : h.metaclassSuper sup root rootMeta = .ok msup) :
    h.checkWiring cls root rootMeta = .ok () := by
  have hname : h.className cls = .ok o.title := hobject ▸ ho.className
  have hsup : ¬(sup.isNil ∧ cls ≠ root) := fun hnil =>
    hnil.2 (hroot (Value.eq_nil_of_isNil hnil.1))
  have hisa : h.isa cls = .ok metaclass := hw.isa
  have hisa' : h.isa metaclass = .ok rootMeta := hw'.isa
  have hread : h.superclass cls = .ok sup := hw.superclass.slot
  have hread' : h.superclass metaclass = .ok msup := hw'.superclass.slot
  simp only [checkWiring, bind, Except.bind, hisa, hname, hisa', hread, hsuper, hread', hsup,
    ne_eq, not_true_eq_false, if_false, pure, Except.pure]

end Wiring

section Moving

variable {roots : List Value} {f : Address → Address} {w : Wiring} {o : Outfit}

theorem Wired.isa_taken (hw : h.Wired w) (whole : h.Whole) (hv : h.Taken roots w.object) :
    h.Taken roots w.isa := by
  refine ⟨hw.isa_sane whole, fun target htarget => ?_⟩
  obtain ⟨header, hh, heq⟩ := except_bind_eq_ok.mp hw.isa
  obtain ⟨loc, hloc, hh⟩ := header_eq_ok hh
  exact .held (hv.2 loc hloc) ⟨header, hh, .inl (Except.ok.inj heq).symm⟩ htarget

theorem Wired.moved (hw : h.Wired w) (moved : Moved h h' roots f) (sound : h'.Sound)
    (hv : h.Taken roots w.object) : h'.Wired (w.relocate f) := by
  have hsuperclass := moved.holds_of_taken sound hv hw.superclass
  obtain ⟨header, hh, heq⟩ := except_bind_eq_ok.mp hw.isa
  obtain ⟨loc, hloc, -⟩ := header_eq_ok hh
  refine ⟨hsuperclass.sane, except_bind_eq_ok.mpr ⟨_, moved.header_of_taken hv hloc hh, ?_⟩,
    hsuperclass⟩
  exact congrArg (fun isa => Except.ok (Value.relocate f isa)) (Except.ok.inj heq)

theorem Fitted.moved (ho : h.Fitted o) (moved : Moved h h' roots f) (whole : h.Whole)
    (sound : h'.Sound) (hv : h.Taken roots o.object) : h'.Fitted (o.relocate f) := by
  have harray : h.Taken roots o.array := Taken.value whole (c := ⟨_, _⟩) hv ho.array
  refine ⟨?title, moved.holds_of_taken sound hv ho.methods, moved.holds_of_taken sound hv ho.array,
    ?size, moved.size harray ho.count, fun {k name} hname => ?names⟩
  case title =>
    obtain ⟨symbol, hsymbol, hs⟩ := ho.title
    exact ⟨_, moved.holds_of_taken sound hv hsymbol,
      moved.spells sound (Taken.value whole (c := ⟨_, _⟩) hv hsymbol) hs⟩
  case size =>
    have hsize := moved.holds_of_taken sound hv ho.instanceSize
    rwa [Value.relocate_ofNat] at hsize
  case names =>
    obtain ⟨symbol, hsymbol, hs⟩ := ho.names hname
    exact ⟨_, moved.holds_of_taken sound harray hsymbol,
      moved.spells sound (Taken.value whole (c := ⟨_, _⟩) harray hsymbol) hs⟩

end Moving

section Ascending

inductive Ascends (h : Heap) : Value → List Value → Prop where
  | nil : Ascends h .nil []
  | cons {v sup : Value} {line : List Value} : h.Holds ⟨v, Slot.Class.superclass⟩ sup →
    Ascends h sup line → Ascends h v (v :: line)

namespace Ascends

variable {line line' : List Value}

theorem unique (ha : h.Ascends v line) (ha' : h.Ascends v line') : line = line' := by
  induction ha generalizing line' with
  | nil =>
    cases ha' with
    | nil => rfl
    | cons hsup => exact absurd rfl hsup.not_isNil
  | cons hsup _ ih =>
    cases ha' with
    | nil => exact absurd rfl hsup.not_isNil
    | cons hsup' ha' =>
      obtain rfl := hsup.unique hsup'
      rw [ih ha']

/-- The walk goes on from each class that it passes. -/
theorem suffix (ha : h.Ascends v line) (hx : x ∈ line) :
    ∃ rest, h.Ascends x rest ∧ rest.length ≤ line.length := by
  induction ha with
  | nil => cases hx
  | cons hsup ha ih =>
    rcases List.mem_cons.mp hx with rfl | hx
    · exact ⟨_, .cons hsup ha, Nat.le_refl _⟩
    · obtain ⟨rest, hrest, hlength⟩ := ih hx
      exact ⟨rest, hrest, Nat.le_succ_of_le hlength⟩

/-- A walk that ends passes no class twice. -/
theorem nodup (ha : h.Ascends v line) : line.Nodup := by
  induction ha with
  | nil => exact .nil
  | @cons v sup line hsup ha ih =>
    refine List.nodup_cons.mpr ⟨fun hmem => ?_, ih⟩
    obtain ⟨rest, hrest, hlength⟩ := ha.suffix hmem
    rw [← unique (.cons hsup ha) hrest, List.length_cons] at hlength
    omega

theorem mem (ha : h.Ascends v line) (hx : x ∈ line) :
    ∃ sup, h.Holds ⟨x, Slot.Class.superclass⟩ sup := by
  induction ha with
  | nil => cases hx
  | cons hsup _ ih =>
    rcases List.mem_cons.mp hx with rfl | hx
    · exact ⟨_, hsup⟩
    · exact ih hx

theorem length_lt (ha : h.Ascends v line) (whole : h.Whole) : line.length < h.chainBound + 1 :=
  Nat.lt_succ_of_le (whole.length_le_used ha.nodup fun _ hx => ⟨_, ha.mem hx⟩)

theorem inheritsFrom (ha : h.Ascends v line) (ancestor : Value) {fuel : Nat}
    (hfuel : line.length < fuel) :
    h.inheritsFrom ancestor fuel v = .ok (decide (ancestor ∈ line)) := by
  induction ha generalizing fuel with
  | nil =>
    obtain ⟨fuel, rfl⟩ := Nat.exists_eq_add_of_lt hfuel
    rfl
  | @cons v sup line hsup _ ih =>
    obtain ⟨fuel, rfl⟩ := Nat.exists_eq_add_of_lt hfuel
    rw [Heap.inheritsFrom, if_neg hsup.not_isNil]
    by_cases hv : v = ancestor
    · simp [hv, pure, Except.pure]
    · rw [if_neg hv, Heap.superclass, hsup.slot]
      have hrest : h.inheritsFrom ancestor ((v :: line).length + fuel) sup =
          .ok (decide (ancestor ∈ line)) := ih (by simp; omega)
      simp only [bind, Except.bind, hrest, List.mem_cons, Ne.symm hv, false_or]

end Ascends

end Ascending

end Heap

namespace Wiring

variable {ws ws' : List Wiring} {v : Value} {line : List Value}

inductive Line (ws : List Wiring) : Value → List Value → Prop where
  | nil : Line ws .nil []
  | cons {w : Wiring} {line : List Value} : w ∈ ws → Line ws w.superclass line →
    Line ws w.object (w.object :: line)

theorem Line.mono (hl : Line ws v line) (hsub : ws ⊆ ws') : Line ws' v line := by
  induction hl with
  | nil => exact .nil
  | cons hw _ ih => exact .cons (hsub hw) ih

theorem Line.relocate (hl : Line ws v line) (f : Address → Address) :
    Line (ws.map (Wiring.relocate f)) (v.relocate f) (line.map (Value.relocate f)) := by
  induction hl with
  | nil => exact .nil
  | cons hw _ ih => exact .cons (w := Wiring.relocate f _) (List.mem_map_of_mem hw) ih

theorem Line.ascends {h : Heap} (hl : Line ws v line) (hws : ∀ w ∈ ws, h.Wired w) :
    h.Ascends v line := by
  induction hl with
  | nil => exact .nil
  | cons hw _ ih => exact .cons (hws _ hw).superclass ih

end Wiring

end ObjectMachine
