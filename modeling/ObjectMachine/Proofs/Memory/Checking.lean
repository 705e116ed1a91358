import ObjectMachine.Proofs.Memory.Inventory

namespace ObjectMachine

namespace Value

def inArena (id : ArenaId) (v : Value) : Bool := v.address?.any (·.arena = id)

theorem inArena_ofAddress {id : ArenaId} {loc : Address} (small : loc.word < addressLimit)
    (pos : 0 < loc.word) : (ofAddress loc).inArena id = decide (loc.arena = id) := by
  rw [inArena, address?_ofAddress small pos]
  rfl

theorem isReference_iff {v : Value} : v.isReference = true ↔ ∃ loc, v.address? = some loc := by
  rw [address?]
  split <;> simp_all

end Value

namespace Heap

/-- A step of a program that keeps a roster of the objects that it was given, in the order of
allocation. It asks for objects of any size, and stores any words in those of the roster. -/
inductive Roster : Heap × List Value → Heap × List Value → Prop where
  | made {h h' : Heap} {objects : List Value} {order : Order} {isa v : Value} :
    order.allocate isa h = .ok v h' → Roster (h, objects) (h', objects ++ [v])
  | refused {h h' : Heap} {objects : List Value} {order : Order} {isa : Value} {e : HeapError} :
    order.allocate isa h = .error (.failure e) h' → Roster (h, objects) (h', objects)
  | slot {h h' : Heap} {objects : List Value} {o x : Value} {i : Nat} {ε : Type} :
    o ∈ objects → setSlot o i x (ε := ε) h = .ok () h' → Roster (h, objects) (h', objects)
  | isa {h h' : Heap} {objects : List Value} {o x : Value} {ε : Type} :
    o ∈ objects → setClass o x (ε := ε) h = .ok () h' → Roster (h, objects) (h', objects)

/-- What an object holds: its class, and what its slots deliver. -/
def holdings (h : Heap) (o : Value) : List Value :=
  match h.header o with
  | .error _ => []
  | .ok header => header.isa :: (List.range header.size.toNat).filterMap fun i =>
      (h.slot o i).toOption

def references (h : Heap) (objects : List Value) : List (ArenaId × Value) :=
  ArenaId.all.flatMap fun id => (objects.filter (Value.inArena id)).flatMap fun o =>
    (h.holdings o).map (id, ·)

def strays (objects : List Value) (x : Value) : Bool := x.isReference && decide (x ∉ objects)

variable {h h' : Heap} {objects : List Value} {items : List Item}

theorem strays_eq_true {x : Value} :
    strays objects x = true ↔ x.isReference = true ∧ x ∉ objects := by simp [strays]

theorem strays_eq_false {x : Value} :
    strays objects x = false ↔ (x.isReference = true → x ∈ objects) := by simp [strays]

theorem mem_references {holder : ArenaId} {x : Value} : (holder, x) ∈ h.references objects ↔
    ∃ o ∈ objects, o.inArena holder = true ∧ x ∈ h.holdings o := by
  cases holder <;> simp [references, ArenaId.all, and_assoc]

/-- What is delivered is what an order of a size below 2^32 gets as well. -/
theorem allocate_small {order : Order} {isa v : Value} (heq : order.allocate isa h = .ok v h') :
    ∃ order' : Order, order'.content.size < 0x100000000 ∧ order'.allocate isa h = .ok v h' := by
  cases order with
  | slots count =>
    refine ⟨.slots (count % 0x100000000), ?_, ?_⟩
    · simp only [Order.content, Content.size, List.length_replicate]
      exact Nat.mod_lt _ (by decide)
    · rw [Order.allocate, allocatePointers_mod]
      exact heq
  | bytes content =>
    refine ⟨.bytes content, ?_, heq⟩
    rw [Order.allocate, allocateBytes, bind_eq_ok] at heq
    obtain ⟨object, h₁, -, hreturn⟩ := heq
    rw [ite_eq_ok, fault_eq_ok, and_false, or_false] at hreturn
    exact hreturn.1

theorem allocate_refused {order : Order} {isa : Value} {e : HeapError}
    (heq : order.allocate isa h = .error (.failure e) h') :
    h' = { h with nextHash := hashAfter h.nextHash } := by
  have hfailed : ∀ {arena kind size} {fill : Array UInt64 → Array UInt64} {stop},
      allocate arena isa kind size fill h = .error stop h' →
        h' = { h with nextHash := hashAfter h.nextHash } := by
    intro arena kind size fill stop heq
    rw [allocate] at heq
    simp only at heq
    split at heq
    · cases heq
      rfl
    · cases heq
  cases order with
  | slots count =>
    rw [Order.allocate, allocatePointers] at heq
    exact hfailed heq
  | bytes content =>
    rcases bind_eq_error heq with heq | ⟨object, h₁, -, hreturn⟩
    · exact hfailed heq
    · split at hreturn <;> cases hreturn

theorem Stocks.slots_of_setSlot (hs : h.Stocks items) {o : Item} (ho : o ∈ items) {i : Nat}
    {x : Value} {ε : Type} (heq : Heap.setSlot o.object i x (ε := ε) h = .ok () h') :
    ∃ values, o.content = .slots values ∧ i < values.length := by
  obtain ⟨word, hl⟩ := hs.lies o ho
  obtain ⟨header, hheader, -, hkind, hsize⟩ := (hl.presents hs.sound).header
  rw [Heap.setSlot] at heq
  split at heq
  · cases heq
  · rename_i id w hslot
    obtain ⟨loc, header', hv, hh, hpointers, hi, -⟩ := slotWord_eq_ok hslot
    obtain ⟨loc', hv', hh'⟩ := header_eq_ok hheader
    obtain rfl := Option.some.inj (hv.symm.trans hv')
    obtain rfl := Except.ok.inj (hh.symm.trans hh')
    cases hc : o.content with
    | slots values =>
      rw [hc] at hsize
      exact ⟨values, rfl, (show header'.size.toNat = values.length from hsize) ▸ hi⟩
    | bytes content =>
      rw [hc, hpointers] at hkind
      cases hkind

/-- The roster names the objects of an inventory. -/
theorem Roster.stocks {s s' : Heap × List Value} (step : Roster s s') (hs : s.1.Stocks items)
    (ho : items.map Item.object = s.2) :
    ∃ items', s'.1.Stocks items' ∧ items'.map Item.object = s'.2 := by
  cases step with
  | @made h h' objects order isa v heq =>
    obtain ⟨order', small, heq⟩ := allocate_small heq
    have hmade := hs.allocate order' isa small
    split at hmade
    · obtain ⟨v', h₁, heq', hs', -⟩ := hmade
      obtain ⟨rfl, rfl⟩ := EStateM.Result.ok.inj (heq'.symm.trans heq)
      exact ⟨_, hs', by rw [List.map_append, ho]; rfl⟩
    · cases heq.symm.trans hmade
  | refused heq => exact ⟨items, allocate_refused heq ▸ hs.hash _, ho⟩
  | @slot h h' objects v x i ε hmem heq =>
    obtain rfl : items.map Item.object = objects := ho
    obtain ⟨o, hitem, rfl⟩ := List.mem_map.mp hmem
    obtain ⟨values, hc, hi⟩ := hs.slots_of_setSlot hitem heq
    obtain ⟨h₁, heq', hs', -⟩ := hs.setSlot hitem hc hi x
    obtain ⟨-, rfl⟩ := EStateM.Result.ok.inj (heq'.symm.trans heq)
    refine ⟨_, hs', ?_⟩
    rw [List.map_map]
    refine List.map_congr_left fun p _ => ?_
    rw [Function.comp_apply, Item.putSlot]
    split <;> rfl
  | @isa h h' objects v x ε hmem heq =>
    obtain rfl : items.map Item.object = objects := ho
    obtain ⟨o, hitem, rfl⟩ := List.mem_map.mp hmem
    obtain ⟨h₁, heq', hs', -⟩ := hs.setClass hitem x
    obtain ⟨-, rfl⟩ := EStateM.Result.ok.inj (heq'.symm.trans heq)
    refine ⟨_, hs', ?_⟩
    rw [List.map_map]
    refine List.map_congr_left fun p _ => ?_
    rw [Function.comp_apply, Item.putClass]
    split <;> rfl

theorem stocks_of_roster {settings : HeapSettings} {h₀ : Heap} {s : Heap × List Value}
    (hc : create settings = .ok h₀) (run : Relation.ReflTransGen Roster (h₀, []) s) :
    ∃ items, s.1.Stocks items ∧ items.map Item.object = s.2 := by
  induction run with
  | refl => exact ⟨[], (create_blank hc).stocks, rfl⟩
  | tail _ step ih =>
    obtain ⟨items, hs, ho⟩ := ih
    exact step.stocks hs ho

structure Lists (h : Heap) (objects : List Value) : Prop where
  sound : h.Sound
  placed : ∀ o ∈ objects, ∃ loc, o.address? = some loc
  order : ∀ id, ∃ starts, h.arenas.Tiled id Arenas.firstObject starts ∧
    objects.filter (Value.inArena id) = starts.map fun word => .ofAddress ⟨id, word⟩

theorem Stocks.lists (hs : h.Stocks items) : h.Lists (items.map Item.object) := by
  have hbounds : ∀ o ∈ items, ∃ word, o.object = .ofAddress ⟨o.content.arena, word⟩ ∧
      word < addressLimit ∧ 0 < word := by
    intro o ho
    obtain ⟨word, hl⟩ := hs.lies o ho
    exact ⟨word, hl.place, hs.sound.bounds hl.allocated⟩
  refine ⟨hs.sound, fun v hv => ?_, fun id => ?_⟩
  · obtain ⟨o, ho, rfl⟩ := List.mem_map.mp hv
    obtain ⟨word, hplace, hsmall, hpos⟩ := hbounds o ho
    exact ⟨_, hplace ▸ Value.address?_ofAddress hsmall hpos⟩
  · obtain ⟨starts, ht, horder⟩ := hs.order id
    refine ⟨starts, ht, ?_⟩
    rw [← horder, List.filter_map]
    congr 1
    refine List.filter_congr fun o ho => ?_
    obtain ⟨word, hplace, hsmall, hpos⟩ := hbounds o ho
    rw [Function.comp_apply, hplace, Value.inArena_ofAddress hsmall hpos]

namespace Lists

/-- A reference is stale if it names nothing on the roster. -/
theorem stale_iff (hl : h.Lists objects) {x : Value} :
    h.arenas.Stale x ↔ x.isReference = true ∧ x ∉ objects := by
  have hallocated : ∀ {loc}, x.address? = some loc → (h.arenas.Allocated loc ↔ x ∈ objects) := by
    intro loc hx
    obtain ⟨starts, ht, horder⟩ := hl.order loc.arena
    have hin : x ∈ objects ↔ x ∈ objects.filter (Value.inArena loc.arena) := by
      simp [Value.inArena, hx]
    rw [Arenas.allocated_iff (hl.sound.laid.pad _) ht, hin, horder, List.mem_map]
    refine ⟨fun hw => ⟨loc.word, hw, Value.ofAddress_of_address? hx⟩, ?_⟩
    rintro ⟨word, hw, rfl⟩
    have ha := (@Arenas.allocated_iff _ ⟨loc.arena, word⟩ _ (hl.sound.laid.pad _) ht).mpr hw
    obtain ⟨hsmall, hpos⟩ := hl.sound.bounds ha
    rw [Value.address?_ofAddress hsmall hpos] at hx
    rwa [← Option.some.inj hx]
  rw [Value.isReference_iff, Arenas.Stale]
  constructor
  · rintro ⟨loc, hx, hnot⟩
    exact ⟨⟨loc, hx⟩, fun hmem => hnot ((hallocated hx).mpr hmem)⟩
  · rintro ⟨⟨loc, hx⟩, hnot⟩
    exact ⟨loc, hx, fun ha => hnot ((hallocated hx).mp ha)⟩

end Lists

theorem Sound.holdings_eq (sound : h.Sound) {loc : Address} (hl : h.arenas.Allocated loc) :
    h.holdings (.ofAddress loc) = h.arenas.heldAt loc := by
  obtain ⟨hsmall, hpos⟩ := sound.bounds hl
  obtain ⟨header, hh, hkind, -, hend⟩ := sound.laid.object hl
  have hslot := slot_ofAddress h hsmall hpos hh
  rw [holdings, header_ofAddress h hsmall hpos, hh, Arenas.heldAt, hh]
  simp only
  cases harena : loc.arena with
  | pointers =>
    rw [harena] at hkind
    simp only [hkind, ArenaId.objectKind]
    rw [Header.totalWords, Header.payloadWords, hkind] at hend
    simp only [ArenaId.objectKind, Arenas.used] at hend
    congr 1
    rw [← List.filterMap_eq_map]
    refine List.filterMap_congr fun i hi => ?_
    have hi' := List.mem_range.mp hi
    have hlt : loc.word + headerWords + i < (h.arenas.space loc.arena).size := by omega
    rw [hslot, if_pos ⟨hkind, hi'⟩, Arenas.word_eq_ok_iff.mpr (Array.getElem?_eq_getElem hlt)]
    simp [← harena, hlt, Except.map, Except.toOption]
  | leaf =>
    rw [harena] at hkind
    simp only [hkind, ArenaId.objectKind]
    congr 1
    refine List.filterMap_eq_nil_iff.mpr fun i _ => ?_
    rw [hslot, if_neg (by simp [hkind, ArenaId.objectKind])]
    rfl

theorem find?_eq_some_iff {holder : ArenaId} {x : Value} :
    (h.references objects).find? (fun p => strays objects p.2) = some (holder, x) ↔
      ∃ before after, h.references objects = before ++ (holder, x) :: after ∧
        (∀ p ∈ before, p.2.isReference = true → p.2 ∈ objects) ∧
        x.isReference = true ∧ x ∉ objects := by
  rw [List.find?_eq_some_iff_append, strays_eq_true]
  simp only [Bool.not_eq_true', strays_eq_false]
  tauto

namespace Lists

theorem held_eq (hl : h.Lists objects) (id : ArenaId) :
    (objects.filter (Value.inArena id)).flatMap (fun o => (h.holdings o).map (id, ·)) =
      (h.arenas.held id).map (id, ·) := by
  obtain ⟨starts, ht, horder⟩ := hl.order id
  rw [Arenas.held, Arenas.starts_eq (hl.sound.laid.pad _) ht, horder, List.flatMap_map]
  simp only [List.map_flatMap]
  refine List.flatMap_congr fun word hword => ?_
  rw [hl.sound.holdings_eq ((Arenas.allocated_iff (hl.sound.laid.pad id) ht).mpr hword)]

theorem length_eq (hl : h.Lists objects) {pointers leaf : List Nat}
    (hpointers : h.arenas.Tiled .pointers Arenas.firstObject pointers)
    (hleaf : h.arenas.Tiled .leaf Arenas.firstObject leaf) :
    objects.length = pointers.length + leaf.length := by
  have hlength : ∀ {id l}, h.arenas.Tiled id Arenas.firstObject l →
      (objects.filter (Value.inArena id)).length = l.length := by
    intro id l ht
    obtain ⟨starts, ht', horder⟩ := hl.order id
    have hsame := (Arenas.starts_eq (hl.sound.laid.pad _) ht).symm.trans
      (Arenas.starts_eq (hl.sound.laid.pad _) ht')
    rw [horder, List.length_map, Except.ok.inj hsame]
  have hother : ∀ o ∈ objects, (!Value.inArena .pointers o) = Value.inArena .leaf o := by
    intro o ho
    obtain ⟨⟨arena, word⟩, hloc⟩ := hl.placed o ho
    cases arena <;> simp [Value.inArena, hloc]
  rw [← hlength hpointers, ← hlength hleaf, ← List.filter_congr hother]
  exact List.length_eq_length_filter_add _

theorem find?_eq_none_iff (hl : h.Lists objects) :
    (h.references objects).find? (fun p => strays objects p.2) = none ↔
      ∀ o ∈ objects, ∀ x ∈ h.holdings o, x.isReference = true → x ∈ objects := by
  simp only [List.find?_eq_none, Bool.not_eq_true, strays_eq_false, Prod.forall, mem_references]
  constructor
  · intro hnone o ho x hx
    obtain ⟨loc, hloc⟩ := hl.placed o ho
    exact hnone loc.arena x ⟨o, ho, by simp [Value.inArena, hloc], hx⟩
  · rintro hall holder x ⟨o, ho, -, hx⟩
    exact hall o ho x hx

theorem inspect_eq (hl : h.Lists objects) :
    h.inspect = .ok (h,
      match (h.references objects).find? fun p => strays objects p.2 with
      | some (holder, x) => .error (.dangling holder x)
      | none => .ok objects.length) := by
  obtain ⟨pointers, hpointers, -⟩ := hl.order .pointers
  obtain ⟨leaf, hleaf, -⟩ := hl.order .leaf
  have hstale : (fun x => decide (h.arenas.Stale x)) = strays objects := by
    funext x
    rw [Bool.eq_iff_iff, decide_eq_true_iff, hl.stale_iff, strays_eq_true]
  have hfirst : ∀ id, Heap.firstStale h.arenas id =
      (((h.arenas.held id).map (id, ·)).find? fun p => strays objects p.2).map
        fun p => .dangling p.1 p.2 := by
    intro id
    rw [firstStale, hstale, List.find?_map, Option.map_map]
    rfl
  rw [hl.sound.inspect_eq hpointers hleaf, hl.length_eq hpointers hleaf, hfirst, hfirst,
    ← Option.map_or, ← List.find?_append, references, ArenaId.all]
  simp only [List.flatMap_cons, List.flatMap_nil, List.append_nil, hl.held_eq]
  cases ((h.arenas.held .pointers).map (ArenaId.pointers, ·) ++
    (h.arenas.held .leaf).map (ArenaId.leaf, ·)).find? fun p => strays objects p.2 <;> rfl

end Lists

/-- The check for stale references is sound and complete. After any allocations, and any writes of
any words to objects, it passes exactly when every class and slot of every object either is no
reference or names an object, and counts the objects then. Otherwise it reports the first class or
slot, by arena, object and slot, that holds a reference to anything else. It breaks no rule and
leaves the memory as it is. -/
theorem verify_decides {settings : HeapSettings} {h₀ h : Heap} {objects : List Value}
    (hc : create settings = .ok h₀) (run : Relation.ReflTransGen Roster (h₀, []) (h, objects)) :
    ∃ answer, h.inspect = .ok (h, answer) ∧ h.verify = .ok answer ∧
      (∀ n, answer = .ok n ↔
        (∀ o ∈ objects, ∀ x ∈ h.holdings o, x.isReference = true → x ∈ objects) ∧
          n = objects.length) ∧
      ∀ e, answer = .error e ↔ ∃ before holder x after,
        h.references objects = before ++ (holder, x) :: after ∧
          (∀ p ∈ before, p.2.isReference = true → p.2 ∈ objects) ∧
          x.isReference = true ∧ x ∉ objects ∧ e = .dangling holder x := by
  obtain ⟨items, hs, rfl⟩ := stocks_of_roster hc run
  have hl : h.Lists (items.map Item.object) := hs.lists
  generalize items.map Item.object = objects at *
  have hinspect := hl.inspect_eq
  have hverify : ∀ {answer}, h.inspect = .ok (h, answer) → h.verify = .ok answer := by
    intro answer heq
    rw [verify, heq]
    rfl
  cases hfind : (h.references objects).find? fun p => strays objects p.2 with
  | none =>
    rw [hfind] at hinspect
    refine ⟨_, hinspect, hverify hinspect, fun n => ?_, fun e => ⟨by rintro ⟨⟩, ?_⟩⟩
    · rw [Except.ok.injEq, eq_comm, and_iff_right (hl.find?_eq_none_iff.mp hfind)]
    · rintro ⟨before, holder, x, after, hsplit, hbefore, href, hnot, -⟩
      cases hfind.symm.trans
        (find?_eq_some_iff.mpr ⟨before, after, hsplit, hbefore, href, hnot⟩)
  | some p =>
    obtain ⟨holder, x⟩ := p
    rw [hfind] at hinspect
    refine ⟨_, hinspect, hverify hinspect, fun n => ⟨by rintro ⟨⟩, ?_⟩, fun e => ⟨?_, ?_⟩⟩
    · rintro ⟨hall, -⟩
      cases hfind.symm.trans (hl.find?_eq_none_iff.mpr hall)
    · rintro ⟨⟩
      obtain ⟨before, after, hsplit, hbefore, href, hnot⟩ := find?_eq_some_iff.mp hfind
      exact ⟨before, holder, x, after, hsplit, hbefore, href, hnot, rfl⟩
    · rintro ⟨before, holder', x', after, hsplit, hbefore, href, hnot, rfl⟩
      cases hfind.symm.trans
        (find?_eq_some_iff.mpr ⟨before, after, hsplit, hbefore, href, hnot⟩)
      rfl

def shed (pointers leaf : Array UInt64) (nextHash : Nat) (stats : HeapStats) : Heap :=
  ⟨⟨pointers, leaf⟩, 1024, 768, nextHash, stats⟩

abbrev stockedShed (first second isa : UInt64) : Heap :=
  shed #[0, 2, 0, 0x200000004, first, second] #[0, 2, isa, 0x300000009, 0x636261] 3
    { objects := 2, words := 7 }

theorem shed_roster : Relation.ReflTransGen Roster (shed #[0, 2] #[0, 2] 1 {}, [])
    (stockedShed 40 48 8, [⟨32⟩, ⟨40⟩]) := by
  have hslots : Roster (shed #[0, 2] #[0, 2] 1 {}, [])
      (shed #[0, 2, 0, 0x200000004, 0, 0] #[0, 2] 2 { objects := 1, words := 4 }, [⟨32⟩]) :=
    .made (show (Order.slots 2).allocate .nil _ = .ok _ _ from rfl)
  have hbytes : Roster
      (shed #[0, 2, 0, 0x200000004, 0, 0] #[0, 2] 2 { objects := 1, words := 4 }, [⟨32⟩])
      (stockedShed 0 0 32, [⟨32⟩, ⟨40⟩]) :=
    .made (show (Order.bytes #[97, 98, 99]).allocate ⟨32⟩ _ = .ok _ _ from rfl)
  have hfirst : Roster (stockedShed 0 0 32, [⟨32⟩, ⟨40⟩]) (stockedShed 40 0 32, [⟨32⟩, ⟨40⟩]) :=
    .slot (o := ⟨32⟩) (x := ⟨40⟩) (i := 0) (ε := Empty) (by decide) rfl
  have hsecond : Roster (stockedShed 40 0 32, [⟨32⟩, ⟨40⟩]) (stockedShed 40 48 32, [⟨32⟩, ⟨40⟩]) :=
    .slot (o := ⟨32⟩) (x := ⟨48⟩) (i := 1) (ε := Empty) (by decide) rfl
  have hisa : Roster (stockedShed 40 48 32, [⟨32⟩, ⟨40⟩]) (stockedShed 40 48 8, [⟨32⟩, ⟨40⟩]) :=
    .isa (o := ⟨40⟩) (x := ⟨8⟩) (ε := Empty) (by decide) rfl
  exact ((((Relation.ReflTransGen.single hslots).tail hbytes).tail hfirst).tail hsecond).tail hisa

/-- The second slot leads into the middle of its own object, and the class of the bytes to the
reserved word: the slot comes first. -/
theorem verify_decides_shed : create { arenaWords := 1024 } = .ok (shed #[0, 2] #[0, 2] 1 {}) ∧
    (stockedShed 40 48 8).references [⟨32⟩, ⟨40⟩] =
      [(.pointers, .nil), (.pointers, ⟨40⟩)] ++ (.pointers, ⟨48⟩) :: [(.leaf, ⟨8⟩)] ∧
    (stockedShed 40 48 8).inspect =
      .ok (stockedShed 40 48 8, .error (.dangling .pointers ⟨48⟩)) := by
  have hc : create { arenaWords := 1024 } = .ok (shed #[0, 2] #[0, 2] 1 {}) := rfl
  have hsplit : (stockedShed 40 48 8).references [⟨32⟩, ⟨40⟩] =
      [(.pointers, .nil), (.pointers, ⟨40⟩)] ++ (.pointers, ⟨48⟩) :: [(.leaf, ⟨8⟩)] := by decide
  obtain ⟨answer, hinspect, -, -, hreports⟩ := verify_decides hc shed_roster
  refine ⟨hc, hsplit, ?_⟩
  rw [hinspect, (hreports _).mpr ⟨_, _, _, _, hsplit, by decide, by decide, by decide, rfl⟩]

end Heap

end ObjectMachine
