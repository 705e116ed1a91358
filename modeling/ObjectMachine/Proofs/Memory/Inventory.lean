import Mathlib.Logic.Relation
import ObjectMachine.Proofs.Memory.Verification

namespace ObjectMachine

/-- A write to the class or a slot of an object leaves all objects where they are. -/
theorem Arenas.Tiled.setWord {a : Arenas} {id : ArenaId} {starts : List Nat}
    (ht : a.Tiled id firstObject starts) (laid : a.Laid) {loc : Address} (hl : a.Allocated loc)
    {j : Nat} (hj : j < a.extent loc) (hj₁ : j ≠ 1) (w : UInt64) :
    (a.setWord loc.arena (loc.word + j) w).Tiled id firstObject starts := by
  refine ht.congr (used_setWord ..) fun x hx h hh => ?_
  obtain ⟨isa, packed, -, hp, rfl⟩ := header_eq_ok_iff.mp hh
  have hx' : a.Allocated ⟨id, x⟩ := (allocated_iff (laid.pad id) ht).mpr hx
  have hsecond : 1 < a.extent ⟨id, x⟩ := by
    rw [extent_eq hh]
    exact Header.headerWords_le_totalWords _
  have hp' : ((a.setWord loc.arena (loc.word + j) w).space id)[x + 1]? = some packed := by
    rw [getElem?_setWord, if_neg, hp]
    rintro ⟨harena, hword⟩
    exact hj₁ (laid.apart hx' hl harena hsecond hj hword).2.symm
  have hlt := Nat.lt_of_succ_lt (Array.getElem?_eq_some_iff.mp hp').1
  exact ⟨_, header_eq_ok_iff.mpr ⟨_, packed, Array.getElem?_eq_getElem hlt, hp', rfl⟩, rfl⟩

inductive Content where
  | slots (values : List Value)
  | bytes (content : Array UInt8)

namespace Content

def arena : Content → ArenaId
  | .slots _ => .pointers
  | .bytes _ => .leaf

def size : Content → Nat
  | .slots values => values.length
  | .bytes content => content.size

/-- The words after the header. Eight bytes go into a word, and the last word may not be full. -/
def payload : Content → List UInt64
  | .slots values => values.map Value.raw
  | .bytes content => (List.range' 0 ((content.size + 7) / 8)).map (Heap.packedWord content)

/-- How many words an object takes, with its header. -/
def extent : Content → Nat
  | .slots values => headerWords + values.length
  | .bytes content => headerWords + (content.size + 7) / 8

theorem extent_eq (c : Content) : c.extent = headerWords + c.payload.length := by
  cases c with
  | slots values => simp [extent, payload]
  | bytes content => simp [extent, payload]

def put (i : Nat) (x : Value) : Content → Content
  | .slots values => .slots (values.set i x)
  | .bytes content => .bytes content

theorem arena_put (i : Nat) (x : Value) (c : Content) : (c.put i x).arena = c.arena := by
  cases c <;> rfl

theorem size_put (i : Nat) (x : Value) (c : Content) : (c.put i x).size = c.size := by
  cases c with
  | slots values => exact List.length_set
  | bytes content => rfl

theorem payload_put {c : Content} (harena : c.arena = .pointers) (i : Nat) (x : Value) :
    (c.put i x).payload = c.payload.set i x.raw := by
  cases c with
  | slots values => exact List.map_set
  | bytes content => cases harena

end Content

structure Item where
  object : Value
  isa : Value
  content : Content

namespace Item

def header (o : Item) (hash : UInt32) : Header :=
  ⟨o.isa, o.content.arena.objectKind, hash, o.content.size.toUInt32⟩

def words (o : Item) (hash : UInt32) : List UInt64 :=
  o.isa.raw :: (o.header hash).packed :: o.content.payload

theorem totalWords_header {o : Item} (hash : UInt32) (small : o.content.size < 0x100000000) :
    (o.header hash).totalWords = o.content.extent := by
  obtain ⟨object, isa, content⟩ := o
  have hsize : content.size.toUInt32.toNat = content.size := by simpa [Nat.toUInt32] using small
  cases content with
  | slots values =>
    simp only [header, Header.totalWords, Header.payloadWords, Content.arena, ArenaId.objectKind,
      hsize]
    rfl
  | bytes content =>
    simp only [header, Header.totalWords, Header.payloadWords, Content.arena, ArenaId.objectKind,
      hsize]
    rfl

end Item

namespace Heap

/-- An object shows what the inventory says. Its class and its size can be read from the header;
reading past its end breaks a rule. -/
structure Presents (h : Heap) (o : Item) : Prop where
  header : ∃ header, h.header o.object = .ok header ∧ header.isa = o.isa ∧
    header.kind = o.content.arena.objectKind ∧ header.size.toNat = o.content.size
  slot : ∀ values, o.content = .slots values → ∀ i, h.slot o.object i =
    match values[i]? with
    | some x => .ok x
    | none => .error (.slotBounds i .pointers values.length)
  bytes : ∀ content, o.content = .bytes content → h.bytes o.object = .ok content
  byteAt : ∀ content, o.content = .bytes content → ∀ i, h.byteAt o.object i =
    match content[i]? with
    | some b => .ok b
    | none => .error (.byteBounds i)

structure Lies (h : Heap) (o : Item) (word : Nat) : Prop where
  place : o.object = .ofAddress ⟨o.content.arena, word⟩
  allocated : h.arenas.Allocated ⟨o.content.arena, word⟩
  small : o.content.size < 0x100000000
  words : ∃ hash, ∀ (k : Nat) (w : UInt64), (o.words hash)[k]? = some w →
    (h.arenas.space o.content.arena)[word + k]? = some w

namespace Lies

variable {h h' : Heap} {o : Item} {word : Nat}

theorem locate (hl : h.Lies o word) (sound : h.Sound) :
    locate o.object = .ok ⟨o.content.arena, word⟩ := by
  have hb := sound.bounds hl.allocated
  simp only [Heap.locate, hl.place, Value.address?_ofAddress hb.1 hb.2]

theorem header (hl : h.Lies o word) : ∃ hash, h.arenas.header ⟨o.content.arena, word⟩ =
      .ok (.ofWords o.isa.raw (o.header hash).packed) ∧
    ∀ (k : Nat) (w : UInt64), o.content.payload[k]? = some w →
      h.arenas.word o.content.arena (word + headerWords + k) = .ok w := by
  obtain ⟨-, -, -, hash, hwords⟩ := hl
  refine ⟨hash, Arenas.header_eq_ok_iff.mpr ⟨_, _, hwords 0 _ rfl, hwords 1 _ rfl, rfl⟩,
    fun k w hk => ?_⟩
  rw [Arenas.word_eq_ok_iff, Nat.add_assoc, Nat.add_comm headerWords]
  exact hwords (k + 2) w hk

theorem extent (hl : h.Lies o word) :
    h.arenas.extent ⟨o.content.arena, word⟩ = o.content.extent := by
  obtain ⟨hash, hh, -⟩ := hl.header
  rw [Arenas.extent_eq hh, Header.totalWords_ofWords_packed, Item.totalWords_header hash hl.small]

/-- Words that stay are all that matters. -/
theorem frame (hl : h.Lies o word) (ha : h'.arenas.Allocated ⟨o.content.arena, word⟩)
    (hsame : ∀ k < o.content.extent,
      (h'.arenas.space o.content.arena)[word + k]? = (h.arenas.space o.content.arena)[word + k]?) :
    h'.Lies o word := by
  obtain ⟨hplace, -, hsmall, hash, hwords⟩ := hl
  refine ⟨hplace, ha, hsmall, hash, fun k w hk => ?_⟩
  have hlength : (o.words hash).length = o.content.extent := by
    rw [Content.extent_eq, Item.words, List.length_cons, List.length_cons, Nat.add_comm headerWords]
    rfl
  rw [hsame k (hlength ▸ (List.getElem?_eq_some_iff.mp hk).1)]
  exact hwords k w hk

/-- The bytes of an object are read off its words. -/
theorem unpacked {content : Array UInt8} (hl : h.Lies o word) (hc : o.content = .bytes content) :
    (h.arenas.words .leaf (word + headerWords)
      (word + headerWords + (content.size + 7) / 8)).map (unpack · content.size) =
        .ok content := by
  obtain ⟨hash, hh, hpayload⟩ := hl.header
  rw [hc] at hh hpayload
  have hword : ∀ k < (content.size + 7) / 8,
      h.arenas.leaf[word + headerWords + k]? = some (packedWord content k) := fun k hk =>
    Arenas.word_eq_ok_iff.mp (hpayload k _ (by simp [Content.payload, hk]))
  have hend : word + headerWords + (content.size + 7) / 8 ≤ h.arenas.used .leaf := by
    rcases Nat.eq_zero_or_pos ((content.size + 7) / 8) with hnone | hsome
    · rw [hnone]
      exact Arenas.lt_used_of_header hh
    · have := (Array.getElem?_eq_some_iff.mp (hword ((content.size + 7) / 8 - 1) (by omega))).1
      rw [Arenas.used, Arenas.space]
      omega
  have hextract : h.arenas.leaf.extract (word + headerWords)
      (word + headerWords + (content.size + 7) / 8) =
        ((List.range' 0 ((content.size + 7) / 8)).map (packedWord content)).toArray := by
    apply Array.ext_getElem?
    intro k
    rw [Arenas.used, Arenas.space] at hend
    rw [Array.getElem?_extract]
    by_cases hk : k < (content.size + 7) / 8
    · rw [if_pos (by omega), hword k hk]
      simp [hk]
    · rw [if_neg (by omega)]
      simp [Nat.le_of_not_lt hk]
  rw [Arenas.words, if_pos ⟨Nat.le_add_right _ _, hend⟩]
  simp only [Arenas.space, Except.map, hextract, unpack_packed]

theorem presents (hl : h.Lies o word) (sound : h.Sound) : h.Presents o := by
  have hbounds : word < addressLimit ∧ 0 < word := sound.bounds hl.allocated
  obtain ⟨hash, hh, hpayload⟩ := hl.header
  have hsize : (o.header hash).size.toNat = o.content.size := by
    simpa [Item.header, Nat.toUInt32] using hl.small
  have hkind : (Header.ofWords o.isa.raw (o.header hash).packed).kind =
      o.content.arena.objectKind := by rw [Header.kind_ofWords, Header.ofBits_packed]; rfl
  have hcount : (Header.ofWords o.isa.raw (o.header hash).packed).size.toNat = o.content.size := by
    rw [Header.size_ofWords, Header.size_packed, hsize]
  refine ⟨⟨_, ?_, rfl, hkind, hcount⟩, fun values hc i => ?_, fun content hc => ?_,
    fun content hc i => ?_⟩
  · rw [hl.place, header_ofAddress h hbounds.1 hbounds.2, hh]
  · rw [hc] at hh hkind hcount hpayload
    rw [hl.place, hc, slot_ofAddress h hbounds.1 hbounds.2 hh, hkind, hcount]
    simp only [Content.size, Content.arena, ArenaId.objectKind, true_and]
    by_cases hi : i < values.length
    · rw [if_pos hi, List.getElem?_eq_getElem hi]
      have := hpayload i values[i].raw (by simp [Content.payload, hi])
      simp only [Content.arena] at this
      rw [this]
      rfl
    · rw [if_neg hi, List.getElem?_eq_none (Nat.le_of_not_lt hi)]
  · rw [hl.place, bytes_ofAddress h hbounds.1 hbounds.2 hh, hcount, hc]
    have hwords : (Header.ofWords o.isa.raw (o.header hash).packed).payloadWords =
        (content.size + 7) / 8 := by
      rw [Header.payloadWords, hkind, hcount, hc]
      rfl
    rw [hwords]
    exact hl.unpacked hc
  · have hlocate := hl.locate sound
    rw [hc] at hlocate hh hcount hpayload
    simp only [Heap.byteAt, hlocate, bind, Except.bind, hh]
    simp only [hcount, Content.size]
    by_cases hi : i < content.size
    · have hword := hpayload (i / 8) (packedWord content (i / 8)) (by
        rw [Content.payload, List.getElem?_map, List.getElem?_range' (by omega)]
        simp)
      rw [if_pos hi, hword, Array.getElem?_eq_getElem hi]
      simp only [pure, Except.pure, byteOfWord_packedWord content (i / 8)
        (Nat.mod_lt i (by decide)),
        Nat.div_add_mod]
      simp [hi]
    · rw [if_neg hi, Array.getElem?_eq_none (Nat.le_of_not_lt hi)]

end Lies

/-- The inventory of a memory: every object of it lies somewhere, and those of an arena stand one
after the other, in the order in which they were made. -/
structure Stocks (h : Heap) (items : List Item) : Prop where
  sound : h.Sound
  lies : ∀ o ∈ items, ∃ word, h.Lies o word
  order : ∀ id, ∃ starts, h.arenas.Tiled id Arenas.firstObject starts ∧
    (items.filter (·.content.arena = id)).map Item.object =
      starts.map fun word => .ofAddress ⟨id, word⟩

structure Revises (f : Item → Item) (o : Item) (j : Nat) (w : UInt64) : Prop where
  object : ∀ p, (f p).object = p.object
  arena : ∀ p, (f p).content.arena = p.content.arena
  size : ∀ p, (f p).content.size = p.content.size
  others : ∀ p, p.object ≠ o.object → f p = p
  words : ∀ p, p.object = o.object → p.content.arena = o.content.arena → ∀ hash,
    (f p).words hash = (p.words hash).set j w

theorem Lies.revise {h : Heap} {o p : Item} {word j : Nat} {w : UInt64} {f : Item → Item}
    (hl : h.Lies p word) (hf : Revises f o j w) (heq : p.object = o.object)
    (harena : p.content.arena = o.content.arena)
    (ha : (h.arenas.setWord p.content.arena (word + j) w).Allocated ⟨p.content.arena, word⟩) :
    Lies { h with arenas := h.arenas.setWord p.content.arena (word + j) w } (f p) word := by
  obtain ⟨hplace, -, hsmall, hash, hwords⟩ := hl
  refine ⟨?_, ?_, ?_, hash, fun k x hk => ?_⟩
  · rw [hf.object, hf.arena, hplace]
  · rwa [hf.arena]
  · rwa [hf.size]
  · rw [hf.words p heq harena] at hk
    rw [hf.arena, Arenas.getElem?_setWord]
    by_cases hjk : j = k
    · subst hjk
      rw [List.getElem?_set_self'] at hk
      obtain ⟨x', hx', rfl⟩ := Option.map_eq_some_iff.mp hk
      rw [if_pos ⟨rfl, rfl⟩, hwords j x' hx']
      rfl
    · rw [List.getElem?_set_ne hjk] at hk
      rw [if_neg (by omega)]
      exact hwords k x hk

namespace Stocks

variable {h h' : Heap} {o p : Item} {items : List Item} {word : Nat}

theorem object_inj (hs : h.Stocks items) (ha : h.arenas.Allocated ⟨o.content.arena, word⟩)
    {word' : Nat} (ha' : h.arenas.Allocated ⟨p.content.arena, word'⟩)
    (heq : Value.ofAddress ⟨p.content.arena, word'⟩ = .ofAddress ⟨o.content.arena, word⟩) :
    p.content.arena = o.content.arena ∧ word' = word := by
  have hb := hs.sound.bounds ha
  have hb' := hs.sound.bounds ha'
  have := (Value.address?_ofAddress hb'.1 hb'.2).symm.trans
    ((congrArg Value.address? heq).trans (Value.address?_ofAddress hb.1 hb.2))
  simpa using this

theorem write (hs : h.Stocks items) (hl : h.Lies o word) {f : Item → Item} {j : Nat} {w : UInt64}
    (hf : Revises f o j w) (hj : j < o.content.extent) (hj₁ : j ≠ 1) :
    Stocks { h with arenas := h.arenas.setWord o.content.arena (word + j) w } (items.map f) := by
  have hj' := hl.extent.symm ▸ hj
  obtain ⟨-, hiff⟩ := hs.sound.laid.setWord hl.allocated hj' hj₁ w
  refine ⟨hs.sound.write hl.allocated hj' hj₁ w, fun q hq => ?_, fun id => ?_⟩
  · obtain ⟨p, hp, rfl⟩ := List.mem_map.mp hq
    obtain ⟨word', hl'⟩ := hs.lies p hp
    refine ⟨word', ?_⟩
    by_cases heq : p.object = o.object
    · obtain ⟨harena, rfl⟩ := hs.object_inj hl.allocated hl'.allocated
        (hl'.place.symm.trans (heq.trans hl.place))
      rw [← harena] at hiff ⊢
      exact hl'.revise hf heq harena ((hiff _).mpr hl'.allocated)
    · rw [hf.others p heq]
      refine hl'.frame ((hiff _).mpr hl'.allocated) fun k hk => ?_
      refine hs.sound.laid.getElem?_setWord hl.allocated hl'.allocated hj' (hl'.extent ▸ hk) ?_
      intro hsame
      exact heq (hl'.place.trans ((congrArg Value.ofAddress hsame).trans hl.place.symm))
  · obtain ⟨starts, ht, horder⟩ := hs.order id
    refine ⟨starts, ht.setWord hs.sound.laid hl.allocated hj' hj₁ w, ?_⟩
    have hfilter : (items.map f).filter (·.content.arena = id) =
        (items.filter (·.content.arena = id)).map f := by
      rw [List.filter_map]
      congr 2
      funext p
      simp only [Function.comp_apply, hf.arena]
    rw [hfilter, List.map_map, ← horder]
    congr 1
    funext p
    exact hf.object p

theorem append (hs : h.Stocks items) {new : Item} (hash : UInt32)
    (place : new.object = .ofAddress ⟨new.content.arena, h.used new.content.arena⟩)
    (small : new.content.size < 0x100000000)
    (hfit : h.used new.content.arena + new.content.extent ≤ h.capacity) (nextHash : Nat)
    (stats : HeapStats) :
    Stocks { h with
      arenas := (h.arenas.append new.content.arena
        (objectWords (new.header hash) new.content.payload.toArray)).2
      nextHash, stats } (items ++ [new]) := by
  have htotal := new.totalWords_header hash small
  have hpayload : new.content.payload.toArray.size = (new.header hash).payloadWords := by
    have := new.content.extent_eq
    rw [Header.totalWords] at htotal
    simp only [List.size_toArray]
    omega
  have hwords : objectWords (new.header hash) new.content.payload.toArray =
      (new.words hash).toArray := by
    apply Array.toList_inj.mp
    simp [objectWords, Item.words, Item.header]
  have hkind : (new.header hash).kind = new.content.arena.objectKind := rfl
  have sound' := hs.sound.append hkind hpayload (htotal ▸ hfit) nextHash stats
  obtain ⟨-, hiff⟩ := hs.sound.laid_append new.content.arena (new.header hash)
    new.content.payload.toArray rfl hpayload
  obtain ⟨after, hafter⟩ : ∃ after, after = (h.arenas.append new.content.arena
    (objectWords (new.header hash) new.content.payload.toArray)).2 := ⟨_, rfl⟩
  rw [← hafter] at hiff sound' ⊢
  have hlast : Lies { h with arenas := after, nextHash, stats } new (h.used new.content.arena) := by
    refine ⟨place, (hiff _).mpr (.inr rfl), small, hash, fun k w hk => ?_⟩
    change (after.space new.content.arena)[h.arenas.used new.content.arena + k]? = some w
    rw [hafter, Arenas.getElem?_append_right, hwords, List.getElem?_toArray, hk]
  refine ⟨sound', fun p hp => ?_, fun id => ?_⟩
  · rcases List.mem_append.mp hp with hp | hp
    · obtain ⟨word, hl⟩ := hs.lies p hp
      refine ⟨word, hl.frame ((hiff _).mpr (.inl hl.allocated)) fun k hk => ?_⟩
      obtain ⟨header, hh, -, -, hend⟩ := hs.sound.laid.object hl.allocated
      have hextent := (Arenas.extent_eq hh).symm.trans hl.extent
      simp only at hend
      rw [hafter, Arenas.getElem?_append_left (by omega)]
    · obtain rfl := List.mem_singleton.mp hp
      exact ⟨_, hlast⟩
  · obtain ⟨starts, ht, horder⟩ := hs.order id
    have hkept : ∀ x ∈ starts, after.header ⟨id, x⟩ = h.arenas.header ⟨id, x⟩ := by
      intro x hx
      obtain ⟨header, hh, -⟩ := ht.object hx
      rw [hh, hafter, Arenas.header_append hh]
    have hused : after.used id = h.arenas.used id +
        if id = new.content.arena then new.content.extent else 0 := by
      rw [hafter, Arenas.used_append, size_objectWords hpayload, htotal]
    by_cases hid : new.content.arena = id
    · subst hid
      obtain ⟨_, hh, -⟩ := hlast.header
      have htotal' := (Arenas.extent_eq hh).symm.trans hlast.extent
      refine ⟨starts ++ [h.used new.content.arena], ht.snoc hh ?_ hkept, ?_⟩
      · rw [htotal', hused, if_pos rfl]
      · rw [List.filter_append, List.map_append, horder, List.map_append]
        simp [place]
    · refine ⟨starts, ht.congr ?_ fun x hx header hh => ⟨header, (hkept x hx).trans hh, rfl⟩, ?_⟩
      · rw [hused, if_neg (Ne.symm hid)]
        rfl
      · rw [List.filter_append, List.map_append, horder]
        simp [hid]

end Stocks

end Heap

/-- What to make: an object with so many slots, or one that holds these bytes. -/
inductive Order where
  | slots (count : Nat)
  | bytes (content : Array UInt8)

namespace Order

def content : Order → Content
  | .slots count => .slots (List.replicate count .nil)
  | .bytes content => .bytes content

def allocate (isa : Value) : Order → Action HeapError Heap Value
  | .slots count => Heap.allocatePointers isa count
  | .bytes content => Heap.allocateBytes isa content

/-- The words that are set aside for an object are those of what it is to hold. -/
theorem allocate_eq (order : Order) (isa : Value) (small : order.content.size < 0x100000000)
    (h : Heap) : ∃ fill, (∀ s, fill s = s ++ order.content.payload.toArray) ∧
      order.allocate isa h = Heap.allocate order.content.arena isa order.content.arena.objectKind
        order.content.size.toUInt32 fill h := by
  have hsize : order.content.size.toUInt32.toNat = order.content.size := by
    simpa [Nat.toUInt32] using small
  cases order with
  | slots count =>
    simp only [content, Content.size, List.length_replicate] at hsize small
    refine ⟨(Heap.pushZeros · count.toUInt32.toNat), fun s => ?_, ?_⟩
    · simp only [Heap.pushZeros_eq, hsize]
      apply Array.toList_inj.mp
      simp [content, Content.payload, Value.nil]
    · simp only [allocate, Heap.allocatePointers, content, Content.size, List.length_replicate]
      rfl
  | bytes content =>
    simp only [Order.content, Content.size] at hsize small
    refine ⟨(Heap.pushPacked content · 0 ((content.size.toUInt32.toNat + 7) / 8)), fun s => ?_, ?_⟩
    · simp only [Heap.pushPacked_eq, hsize]
      rfl
    · simp only [allocate, Heap.allocateBytes, if_pos small, bind_pure]
      rfl

end Order

namespace Item

/-- An object that another was made after. They share no word. -/
def Precedes (o p : Item) : Prop :=
  o.object ≠ p.object ∧ ∃ loc loc', o.object.address? = some loc ∧ p.object.address? = some loc' ∧
    (loc.arena = loc'.arena → loc.word + o.content.extent ≤ loc'.word)

def putSlot (v : Value) (i : Nat) (x : Value) (o : Item) : Item :=
  if o.object = v then { o with content := o.content.put i x } else o

def putClass (v isa : Value) (o : Item) : Item := if o.object = v then { o with isa } else o

theorem revises_putSlot (o : Item) (harena : o.content.arena = .pointers) (i : Nat) (x : Value) :
    Heap.Revises (putSlot o.object i x) o (headerWords + i) x.raw := by
  refine ⟨fun p => ?_, fun p => ?_, fun p => ?_, fun p hne => if_neg hne, fun p heq hp hash => ?_⟩
  all_goals rw [putSlot]
  · split <;> rfl
  · split
    · exact Content.arena_put ..
    · rfl
  · split
    · exact Content.size_put ..
    · rfl
  · rw [if_pos heq]
    have hpayload := Content.payload_put (hp.trans harena) i x
    simp only [words, header, Content.arena_put, Content.size_put, hpayload, headerWords,
      Nat.add_comm 2 i, List.set_cons_succ]

theorem revises_putClass (o : Item) (isa : Value) :
    Heap.Revises (putClass o.object isa) o 0 isa.raw := by
  refine ⟨fun p => ?_, fun p => ?_, fun p => ?_, fun p hne => if_neg hne, fun p heq _ hash => ?_⟩
  all_goals rw [putClass]
  · split <;> rfl
  · split <;> rfl
  · split <;> rfl
  · rw [if_pos heq]
    rfl

end Item

namespace Heap

/-- The memory answers by the inventory: each object shows what it should, no two of them overlap,
and the walk over an arena finds its objects in the order in which they were made. -/
structure Houses (h : Heap) (items : List Item) : Prop where
  presents : ∀ o ∈ items, h.Presents o
  precedes : items.Pairwise Item.Precedes
  starts : ∀ id, ∃ starts, h.starts id = .ok starts ∧
    (items.filter (·.content.arena = id)).map Item.object =
      starts.map fun word => .ofAddress ⟨id, word⟩

namespace Stocks

variable {h h' : Heap} {o p : Item} {items : List Item}

theorem precedes (hs : h.Stocks items) : items.Pairwise Item.Precedes := by
  rw [List.pairwise_iff_forall_sublist]
  intro o p hsub
  obtain ⟨word, hl⟩ := hs.lies o (hsub.subset (by simp))
  obtain ⟨word', hl'⟩ := hs.lies p (hsub.subset (by simp))
  have hb := hs.sound.bounds hl.allocated
  have hb' := hs.sound.bounds hl'.allocated
  have hplace := hl.place ▸ Value.address?_ofAddress hb.1 hb.2
  have hplace' := hl'.place ▸ Value.address?_ofAddress hb'.1 hb'.2
  by_cases harena : p.content.arena = o.content.arena
  · rw [harena] at hplace'
    obtain ⟨starts, ht, horder⟩ := hs.order o.content.arena
    have hpair : [o.object, p.object].Sublist (starts.map fun word =>
        Value.ofAddress ⟨o.content.arena, word⟩) := by
      rw [← horder]
      simpa [harena] using (hsub.filter (·.content.arena = o.content.arena)).map Item.object
    obtain ⟨pair, hpair, hobjects⟩ := List.sublist_map_iff.mp hpair
    obtain ⟨x, y, rfl⟩ : ∃ x y, pair = [x, y] :=
      List.length_eq_two.mp (by simpa using congrArg List.length hobjects.symm)
    simp only [List.map_cons, List.map_nil, List.cons.injEq, and_true] at hobjects
    have hat : ∀ {z}, z ∈ starts → h.arenas.Allocated ⟨o.content.arena, z⟩ := fun hz =>
      (Arenas.allocated_iff (hs.sound.laid.pad _) ht).mpr hz
    have hx := hpair.subset (List.mem_cons_self (a := x))
    have hy := hpair.subset (List.mem_cons_of_mem x (List.mem_singleton_self y))
    obtain ⟨-, rfl⟩ := hs.object_inj (p := o) hl.allocated (hat hx) (hobjects.1.symm.trans hl.place)
    have hlt : x < y := List.pairwise_iff_forall_sublist.mp ht.sorted hpair
    have hy' := hs.sound.bounds (hat hy)
    have hplace'' := hobjects.2 ▸ Value.address?_ofAddress hy'.1 hy'.2
    refine ⟨fun heq => ?_, _, _, hplace, hplace'', fun _ => hl.extent ▸ ht.apart hx hy hlt⟩
    rw [heq, hplace''] at hplace
    simp only [Option.some.injEq, Address.mk.injEq, true_and] at hplace
    omega
  · refine ⟨fun heq => ?_, _, _, hplace, hplace', fun hsame => absurd hsame.symm harena⟩
    rw [heq, hplace'] at hplace
    simp only [Option.some.injEq, Address.mk.injEq] at hplace
    exact harena hplace.1

theorem houses (hs : h.Stocks items) : h.Houses items := by
  refine ⟨fun o ho => ?_, hs.precedes, fun id => ?_⟩
  · obtain ⟨word, hl⟩ := hs.lies o ho
    exact hl.presents hs.sound
  · obtain ⟨starts, ht, horder⟩ := hs.order id
    exact ⟨starts, Arenas.starts_eq (hs.sound.laid.pad id) ht, horder⟩

theorem hash (hs : h.Stocks items) (nextHash : Nat) : Stocks { h with nextHash } items :=
  ⟨hs.sound.hash _, fun o ho => (hs.lies o ho).imp fun _ hl => hl.frame hl.allocated fun _ _ => rfl,
    hs.order⟩

/-- An object is made exactly when there is room for it. An attempt for which there is none leaves
the arenas and the figures as they are. -/
theorem allocate (hs : h.Stocks items) (order : Order) (isa : Value)
    (small : order.content.size < 0x100000000) :
    if h.used order.content.arena + order.content.extent ≤ h.capacity then
      ∃ v h', order.allocate isa h = .ok v h' ∧ h'.Stocks (items ++ [⟨v, isa, order.content⟩]) ∧
        h'.capacity = h.capacity
    else order.allocate isa h = .error (.failure (.exhausted order.content.arena
      order.content.extent (h.used order.content.arena) h.capacity))
        { h with nextHash := hashAfter h.nextHash } := by
  set new : Item :=
    ⟨.ofAddress ⟨order.content.arena, h.used order.content.arena⟩, isa, order.content⟩
  have htotal := new.totalWords_header h.nextHash.toUInt32 small
  obtain ⟨fill, hfill, heq⟩ := order.allocate_eq isa small h
  rw [heq]
  split
  case isTrue hfit =>
    have hnot : ¬h.used order.content.arena + (Header.mk isa order.content.arena.objectKind
        h.nextHash.toUInt32 order.content.size.toUInt32).totalWords > h.capacity := by
      rw [← show new.content.extent = order.content.extent from rfl, ← htotal] at hfit
      exact Nat.not_lt.mpr hfit
    rcases h.allocate_cases order.content.arena isa order.content.arena.objectKind
      order.content.size.toUInt32 hfill with herr | ⟨-, hok⟩
    · simp only [Heap.allocate, if_neg hnot] at herr
      cases herr
    · have hplace : new.object = .ofAddress ⟨new.content.arena, h.used new.content.arena⟩ := rfl
      exact ⟨_, _, hok, hs.append h.nextHash.toUInt32 hplace small hfit _ _, rfl⟩
  case isFalse hfit =>
    rcases h.allocate_cases order.content.arena isa order.content.arena.objectKind
      order.content.size.toUInt32 hfill with herr | ⟨hfit', -⟩
    · rw [herr, ← show new.content.extent = order.content.extent from rfl, ← htotal]
      rfl
    · exact absurd (htotal ▸ hfit' : h.used order.content.arena + new.content.extent ≤ h.capacity)
        hfit

theorem setSlot (hs : h.Stocks items) (ho : o ∈ items) {values : List Value}
    (hc : o.content = .slots values) {i : Nat} (hi : i < values.length) (x : Value) {ε : Type} :
    ∃ h', Heap.setSlot o.object i x (ε := ε) h = .ok () h' ∧
      h'.Stocks (items.map (Item.putSlot o.object i x)) ∧ h'.capacity = h.capacity := by
  obtain ⟨word, hl⟩ := hs.lies o ho
  have harena : o.content.arena = .pointers := by rw [hc]; rfl
  have hj : headerWords + i < o.content.extent := by
    rw [hc]
    exact Nat.add_lt_add_left hi _
  obtain ⟨header, hheader, -, hkind, hsize⟩ := (hl.presents hs.sound).header
  refine ⟨_, ?_, hs.write hl (Item.revises_putSlot o harena i x) hj
    (by simp only [headerWords]; omega), rfl⟩
  have hslot : h.slotWord o.object i = .ok (o.content.arena, word + headerWords + i) := by
    simp only [Heap.header, hl.locate hs.sound, bind, Except.bind] at hheader
    simp only [slotWord, hl.locate hs.sound, bind, Except.bind, hheader, hkind, hsize]
    rw [if_pos ⟨by rw [harena]; rfl, by rw [hc]; exact hi⟩]
    rfl
  obtain ⟨_, hh', -, -, hend⟩ := hs.sound.laid.object hl.allocated
  have hextent := (Arenas.extent_eq hh').symm.trans hl.extent
  simp only at hend
  rw [Heap.setSlot, hslot]
  simp only [Nat.add_assoc word]
  rw [if_pos (by rw [used]; omega)]

theorem setClass (hs : h.Stocks items) (ho : o ∈ items) (isa : Value) {ε : Type} :
    ∃ h', Heap.setClass o.object isa (ε := ε) h = .ok () h' ∧
      h'.Stocks (items.map (Item.putClass o.object isa)) ∧ h'.capacity = h.capacity := by
  obtain ⟨word, hl⟩ := hs.lies o ho
  have hj : 0 < o.content.extent := by
    rw [Content.extent_eq]
    exact Nat.lt_add_right _ Nat.zero_lt_two
  refine ⟨_, ?_, hs.write hl (Item.revises_putClass o isa) hj Nat.zero_ne_one, rfl⟩
  obtain ⟨_, hh, -⟩ := hs.sound.laid.object hl.allocated
  have hlt := Nat.lt_of_succ_lt (Arenas.lt_used_of_header hh)
  simp only [Heap.setClass, hl.locate hs.sound]
  exact if_pos hlt

end Stocks

structure Blank (h : Heap) (words : Nat) : Prop where
  arenas : h.arenas = .empty
  capacity : h.capacity = words
  room : Arenas.firstObject ≤ words
  small : words < 0x100000000

theorem create_blank {settings : HeapSettings} {h : Heap} (hc : create settings = .ok h) :
    h.Blank settings.arenaWords := by
  have hsound := create_sound hc
  have hroom := hsound.fits .pointers
  have hsmall := hsound.small
  rw [create] at hc
  cases hcheck : settings.check with
  | error e => simp [hcheck, bind, Except.bind] at hc
  | ok u =>
    simp only [hcheck, bind, Except.bind, pure, Except.pure] at hc
    cases hc
    exact ⟨rfl, rfl, hroom, hsmall⟩

theorem Blank.stocks {h : Heap} {words : Nat} (blank : h.Blank words) : h.Stocks [] := by
  refine ⟨⟨?_, fun id => ?_, ?_⟩, nofun, fun id => ⟨[], ?_, rfl⟩⟩
  · rw [blank.arenas]
    exact Arenas.laid_empty
  · rw [used, blank.arenas, blank.capacity]
    cases id <;> exact blank.room
  · exact blank.capacity ▸ blank.small
  · rw [blank.arenas]
    cases id <;> rfl

end Heap

namespace Inventory

/-- A step of a program that allocates objects and writes to objects that it made. Any word may be
stored, and a size is less than 2^32. -/
inductive Step : Heap × List Item → Heap × List Item → Prop where
  | made {h h' : Heap} {items : List Item} {order : Order} {isa v : Value} :
    order.content.size < 0x100000000 → order.allocate isa h = .ok v h' →
    Step (h, items) (h', items ++ [⟨v, isa, order.content⟩])
  | refused {h h' : Heap} {items : List Item} {order : Order} {isa : Value} {e : HeapError} :
    order.content.size < 0x100000000 → order.allocate isa h = .error (.failure e) h' →
    Step (h, items) (h', items)
  | slot {h h' : Heap} {items : List Item} {o : Item} {values : List Value} {i : Nat} {x : Value}
      {ε : Type} :
    o ∈ items → o.content = .slots values → i < values.length →
    Heap.setSlot o.object i x (ε := ε) h = .ok () h' →
    Step (h, items) (h', items.map (Item.putSlot o.object i x))
  | isa {h h' : Heap} {items : List Item} {o : Item} {isa : Value} {ε : Type} :
    o ∈ items → Heap.setClass o.object isa (ε := ε) h = .ok () h' →
    Step (h, items) (h', items.map (Item.putClass o.object isa))

theorem Step.stocks {s s' : Heap × List Item} (step : Step s s') (hs : s.1.Stocks s.2) :
    s'.1.Stocks s'.2 ∧ s'.1.capacity = s.1.capacity := by
  cases step with
  | @made h h' items order isa v small heq =>
    have := hs.allocate order isa small
    split at this
    · obtain ⟨v', h₁, heq', hs', hcap⟩ := this
      obtain ⟨rfl, rfl⟩ := EStateM.Result.ok.inj (heq'.symm.trans heq)
      exact ⟨hs', hcap⟩
    · cases heq.symm.trans this
  | @refused h h' items order isa e small heq =>
    have := hs.allocate order isa small
    split at this
    · obtain ⟨v', h₁, heq', -⟩ := this
      cases heq.symm.trans heq'
    · obtain ⟨-, rfl⟩ := EStateM.Result.error.inj (this.symm.trans heq)
      exact ⟨hs.hash _, rfl⟩
  | slot ho hc hi heq =>
    obtain ⟨h₁, heq', hs', hcap⟩ := hs.setSlot ho hc hi _
    obtain ⟨-, rfl⟩ := EStateM.Result.ok.inj (heq'.symm.trans heq)
    exact ⟨hs', hcap⟩
  | isa ho heq =>
    obtain ⟨h₁, heq', hs', hcap⟩ := hs.setClass ho _
    obtain ⟨-, rfl⟩ := EStateM.Result.ok.inj (heq'.symm.trans heq)
    exact ⟨hs', hcap⟩

theorem stocks_of_steps {h₀ : Heap} {words : Nat} {s : Heap × List Item} (blank : h₀.Blank words)
    (run : Relation.ReflTransGen Step (h₀, []) s) : s.1.Stocks s.2 ∧ s.1.capacity = words := by
  induction run with
  | refl => exact ⟨blank.stocks, blank.capacity⟩
  | tail _ step ih =>
    obtain ⟨hs, hcap⟩ := step.stocks ih.1
    exact ⟨hs, hcap.trans ih.2⟩

/-- The memory refines a store of objects. However a program makes objects and writes to them, the
memory answers by the inventory, in which an object changes by writes to itself alone. An object
that it makes next is made exactly when the used words and those of the object are no more than
`words`, and else nothing differs but the next identity hash; a write to a slot that an object has,
or to its class, is done. -/
theorem memory_refines_inventory {h₀ h : Heap} {words : Nat} {items : List Item}
    (blank : h₀.Blank words) (run : Relation.ReflTransGen Step (h₀, []) (h, items)) :
    (∀ settings h₁, Heap.create settings = .ok h₁ → h₁.Blank settings.arenaWords) ∧
    h.Houses items ∧
    (∀ (order : Order) isa, order.content.size < 0x100000000 →
      if h.used order.content.arena + order.content.extent ≤ words then
        ∃ v h', order.allocate isa h = .ok v h' ∧
          Step (h, items) (h', items ++ [⟨v, isa, order.content⟩])
      else order.allocate isa h = .error (.failure (.exhausted order.content.arena
        order.content.extent (h.used order.content.arena) words))
          { h with nextHash := Heap.hashAfter h.nextHash }) ∧
    ∀ o ∈ items, ∀ x,
      (∀ values, o.content = .slots values → ∀ i < values.length,
        ∃ h', Heap.setSlot o.object i x (ε := Empty) h = .ok () h' ∧
          Step (h, items) (h', items.map (Item.putSlot o.object i x))) ∧
      ∃ h', Heap.setClass o.object x (ε := Empty) h = .ok () h' ∧
        Step (h, items) (h', items.map (Item.putClass o.object x)) := by
  obtain ⟨hs, rfl⟩ := stocks_of_steps blank run
  refine ⟨fun settings h₁ => Heap.create_blank, hs.houses, fun order isa small => ?_,
    fun o ho x => ⟨fun values hc i hi => ?_, ?_⟩⟩
  · have hmade := hs.allocate order isa small
    split
    case isTrue hfit =>
      obtain ⟨v, h', heq, -⟩ := (if_pos hfit).mp hmade
      exact ⟨v, h', heq, .made small heq⟩
    case isFalse hfit => exact (if_neg hfit).mp hmade
  · obtain ⟨h', heq, -⟩ := hs.setSlot ho hc hi x
    exact ⟨h', heq, .slot ho hc hi heq⟩
  · obtain ⟨h', heq, -⟩ := hs.setClass ho x
    exact ⟨h', heq, .isa ho heq⟩

def nook (pointers leaf : Array UInt64) (nextHash : Nat) (stats : HeapStats) : Heap :=
  ⟨⟨pointers, leaf⟩, 8, 6, nextHash, stats⟩

/-- An object with two slots and one with nine bytes, of which the first is the class. -/
abbrev stockedNook (last : UInt64) : Heap :=
  nook #[0, 2, 0, 0x200000004, 0, last] #[0, 2, 32, 0x900000009, 0x807060504030201, 9] 3
    { objects := 2, words := 8 }

abbrev nineBytes : Item := ⟨⟨40⟩, ⟨32⟩, .bytes #[1, 2, 3, 4, 5, 6, 7, 8, 9]⟩

theorem nook_steps : Relation.ReflTransGen Step (nook #[0, 2] #[0, 2] 1 {}, [])
    (stockedNook 57, [⟨⟨32⟩, .nil, .slots [.nil, .ofNat 7]⟩, nineBytes]) := by
  have hslots : Step (nook #[0, 2] #[0, 2] 1 {}, [])
      (nook #[0, 2, 0, 0x200000004, 0, 0] #[0, 2] 2 { objects := 1, words := 4 },
        [⟨⟨32⟩, .nil, .slots [.nil, .nil]⟩]) :=
    .made (show (Order.slots 2).content.size < _ by decide) rfl
  have hbytes : Step
      (nook #[0, 2, 0, 0x200000004, 0, 0] #[0, 2] 2 { objects := 1, words := 4 },
        [⟨⟨32⟩, .nil, .slots [.nil, .nil]⟩])
      (stockedNook 0, [⟨⟨32⟩, .nil, .slots [.nil, .nil]⟩, nineBytes]) :=
    .made (show (Order.bytes #[1, 2, 3, 4, 5, 6, 7, 8, 9]).content.size < _ by decide) rfl
  have hwrite : Step (stockedNook 0, [⟨⟨32⟩, .nil, .slots [.nil, .nil]⟩, nineBytes])
      (stockedNook 57, [⟨⟨32⟩, .nil, .slots [.nil, .ofNat 7]⟩, nineBytes]) :=
    .slot (o := ⟨⟨32⟩, .nil, .slots [.nil, .nil]⟩) (i := 1) (x := .ofNat 7) (ε := Empty)
      List.mem_cons_self rfl (by decide) rfl
  exact ((Relation.ReflTransGen.single hslots).tail hbytes).tail hwrite

/-- Nine bytes go into two words, and a write to the last slot of the other object leaves them
alone. There is no room for a second object with slots. -/
theorem memory_refines_inventory_nook :
    (nook #[0, 2] #[0, 2] 1 {}).Blank 8 ∧
      (stockedNook 57).slot ⟨32⟩ 0 = .ok .nil ∧ (stockedNook 57).slot ⟨32⟩ 1 = .ok (.ofNat 7) ∧
      (stockedNook 57).bytes ⟨40⟩ = .ok #[1, 2, 3, 4, 5, 6, 7, 8, 9] ∧
      (stockedNook 57).byteAt ⟨40⟩ 8 = .ok 9 ∧
      Heap.allocatePointers .nil 1 (stockedNook 57) =
        .error (.failure (.exhausted .pointers 3 6 8)) { stockedNook 57 with nextHash := 4 } := by
  have hblank : (nook #[0, 2] #[0, 2] 1 {}).Blank 8 := ⟨rfl, rfl, by decide, by decide⟩
  obtain ⟨-, hhouses, hmade, -⟩ := memory_refines_inventory hblank nook_steps
  have hfirst := hhouses.presents _ List.mem_cons_self
  have hsecond := hhouses.presents _ (List.mem_cons_of_mem _ List.mem_cons_self)
  have hfull := hmade (.slots 1) .nil (by decide)
  rw [if_neg (by decide)] at hfull
  exact ⟨hblank, hfirst.slot _ rfl 0, hfirst.slot _ rfl 1, hsecond.bytes _ rfl,
    hsecond.byteAt _ rfl 8, hfull⟩

end Inventory

end ObjectMachine
