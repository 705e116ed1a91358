import ObjectMachine.Proofs.Memory.Soundness

namespace ObjectMachine

/-- A write to a word of an object changes no word of another object. -/
theorem Arenas.Laid.getElem?_setWord {a : Arenas} (laid : a.Laid) {loc loc' : Address} {j k : Nat}
    {w : UInt64} (hl : a.Allocated loc) (hl' : a.Allocated loc') (hj : j < a.extent loc)
    (hk : k < a.extent loc') (hne : loc' ≠ loc) :
    ((a.setWord loc.arena (loc.word + j) w).space loc'.arena)[loc'.word + k]? =
      (a.space loc'.arena)[loc'.word + k]? := by
  rw [Arenas.getElem?_setWord, if_neg]
  rintro ⟨harena, hword⟩
  exact hne (laid.apart hl' hl harena hk hj hword).1

namespace Heap

def Shows (h : Heap) (v : Value) (slots : List Value) : Prop :=
  ∃ word isa packed, v = .ofAddress ⟨.pointers, word⟩ ∧ h.arenas.Allocated ⟨.pointers, word⟩ ∧
    (Header.ofWords isa packed).size.toNat = slots.length ∧
    ∀ (k : Nat) (w : UInt64), (isa :: packed :: slots.map Value.raw)[k]? = some w →
      (h.arenas.space .pointers)[word + k]? = some w

def Spells (h : Heap) (v : Value) (content : Array UInt8) : Prop :=
  (∃ word, v.address? = some ⟨.leaf, word⟩) ∧ h.bytes v = .ok content

structure Spares (h h' : Heap) (written : List Value) : Prop where
  shows : ∀ {v slots}, v ∉ written → h.Shows v slots → h'.Shows v slots
  spells : ∀ {v content}, h.Spells v content → h'.Spells v content
  allocated : ∀ loc, h.arenas.Allocated loc → h'.arenas.Allocated loc
  collections : h'.stats.collections = h.stats.collections

variable {h h' h'' : Heap} {v x : Value} {slots : List Value} {i : Nat}

theorem Spares.refl (h : Heap) : Spares h h [] :=
  ⟨fun _ hs => hs, fun hs => hs, fun _ hl => hl, rfl⟩

theorem Spares.trans {written written' : List Value} (hs : Spares h h' written)
    (hs' : Spares h' h'' written') : Spares h h'' (written ++ written') where
  shows hv hshows := by
    rw [List.mem_append, not_or] at hv
    exact hs'.shows hv.2 (hs.shows hv.1 hshows)
  spells hc := hs'.spells (hs.spells hc)
  allocated loc hl := hs'.allocated loc (hs.allocated loc hl)
  collections := hs'.collections.trans hs.collections

theorem Sound.bounds (sound : h.Sound) {loc : Address} (hl : h.arenas.Allocated loc) :
    loc.word < addressLimit ∧ 0 < loc.word := by
  obtain ⟨header, -, -, hfirst, hend⟩ := sound.laid.object hl
  have hfits := sound.fits loc.arena
  have hsmall := sound.small
  rw [used] at hfits
  simp only [Arenas.firstObject, headerWords, addressLimit] at *
  omega

theorem Sound.end_bounds (sound : h.Sound) {id : ArenaId} :
    h.used id < addressLimit ∧ 0 < h.used id := by
  have hpad := Arenas.lt_used_of_header (sound.laid.pad id)
  have hfits := sound.fits id
  have hsmall := sound.small
  simp only [addressLimit, used] at *
  omega

theorem Shows.sane (sound : h.Sound) (hs : h.Shows v slots) : h.arenas.Sane v := by
  obtain ⟨word, -, -, rfl, hl, -⟩ := hs
  have hbounds := sound.bounds hl
  exact .inr (.inr ⟨_, Value.address?_ofAddress hbounds.1 hbounds.2, hl⟩)

theorem Spares.sane {written : List Value} (hs : Spares h h' written) (hv : h.arenas.Sane v) :
    h'.arenas.Sane v :=
  hv.imp_right fun hv => hv.imp_right fun ⟨loc, hloc, hl⟩ => ⟨loc, hloc, hs.allocated loc hl⟩

/-- Writes to new objects leave the old ones alone. -/
theorem Spares.fresh {written : List Value} (hs : Spares h h' written) (sound : h.Sound)
    (hnew : ∀ v ∈ written, ¬h.arenas.Sane v) : Spares h h' [] where
  shows _ hshows := hs.shows (fun hv => hnew _ hv (hshows.sane sound)) hshows
  spells := hs.spells
  allocated := hs.allocated
  collections := hs.collections

theorem Sound.header (sound : h.Sound) {word : Nat} {isa packed : UInt64}
    (hl : h.arenas.Allocated ⟨.pointers, word⟩)
    (hwords : ∀ (k : Nat) (w : UInt64), (isa :: packed :: slots.map Value.raw)[k]? = some w →
      (h.arenas.space .pointers)[word + k]? = some w) :
    h.arenas.header ⟨.pointers, word⟩ = .ok (.ofWords isa packed) ∧
      (Header.ofWords isa packed).kind = .pointers := by
  have hh : h.arenas.header ⟨.pointers, word⟩ = .ok (.ofWords isa packed) :=
    Arenas.header_eq_ok_iff.mpr ⟨isa, packed, hwords 0 isa rfl, hwords 1 packed rfl, rfl⟩
  exact ⟨hh, sound.laid.kind _ hl _ hh⟩

theorem Sound.extent (sound : h.Sound) {word : Nat} {isa packed : UInt64}
    (hl : h.arenas.Allocated ⟨.pointers, word⟩)
    (hsize : (Header.ofWords isa packed).size.toNat = slots.length)
    (hwords : ∀ (k : Nat) (w : UInt64), (isa :: packed :: slots.map Value.raw)[k]? = some w →
      (h.arenas.space .pointers)[word + k]? = some w) :
    h.arenas.extent ⟨.pointers, word⟩ = headerWords + slots.length := by
  obtain ⟨hh, hkind⟩ := sound.header hl hwords
  rw [Arenas.extent_eq hh, Header.totalWords, Header.payloadWords, hkind, ← hsize]

theorem Shows.size (sound : h.Sound) (hs : h.Shows v slots) : h.size v = .ok slots.length := by
  obtain ⟨word, isa, packed, rfl, hl, hsize, hwords⟩ := hs
  obtain ⟨hsmall, hpos⟩ := sound.bounds hl
  simp only [Heap.size, header_ofAddress h hsmall hpos, (sound.header hl hwords).1, bind,
    Except.bind, hsize, pure, Except.pure]

theorem Shows.slot (sound : h.Sound) (hs : h.Shows v slots) (hx : slots[i]? = some x) :
    h.slot v i = .ok x := by
  obtain ⟨word, isa, packed, rfl, hl, hsize, hwords⟩ := hs
  obtain ⟨hsmall, hpos⟩ := sound.bounds hl
  obtain ⟨hh, hkind⟩ := sound.header hl hwords
  have hi := (List.getElem?_eq_some_iff.mp hx).1
  have hword := hwords (i + 2) x.raw (by simp [hx])
  rw [slot_ofAddress h hsmall hpos hh, if_pos ⟨hkind, by omega⟩, Nat.add_assoc,
    Nat.add_comm headerWords, Arenas.word_eq_ok_iff.mpr hword]
  rfl

theorem bytes_eq_ok_iff {word : Nat} {content : Array UInt8}
    (hv : v.address? = some ⟨.leaf, word⟩) :
    h.bytes v = .ok content ↔ ∃ header, h.arenas.header ⟨.leaf, word⟩ = .ok header ∧
      word + headerWords + header.payloadWords ≤ h.arenas.leaf.size ∧
      content = unpack (h.arenas.leaf.extract (word + headerWords)
        (word + headerWords + header.payloadWords)) header.size.toNat := by
  simp only [bytes, locate, hv, bind, Except.bind]
  cases hh : h.arenas.header ⟨.leaf, word⟩ with
  | error f => simp
  | ok header =>
    by_cases hend : word + headerWords + header.payloadWords ≤ h.arenas.leaf.size
    · have hin : word + headerWords ≤ word + headerWords + header.payloadWords ∧
          word + headerWords + header.payloadWords ≤ h.arenas.used .leaf :=
        ⟨Nat.le_add_right _ _, hend⟩
      simp [Arenas.words, hin, hend, pure, Except.pure, Arenas.space, eq_comm]
    · have hout : ¬(word + headerWords ≤ word + headerWords + header.payloadWords ∧
          word + headerWords + header.payloadWords ≤ h.arenas.used .leaf) := fun hin => hend hin.2
      simp only [Arenas.words, if_neg hout, reduceCtorEq, false_iff]
      rintro ⟨_, heq, hend', -⟩
      exact hend (Except.ok.inj heq ▸ hend')

/-- Bytes stay where they are when their arena grows. -/
theorem Spells.grow {content : Array UInt8} (hs : h.Spells v content) (more : Array UInt64)
    (hleaf : h'.arenas.leaf = h.arenas.leaf ++ more) : h'.Spells v content := by
  obtain ⟨⟨word, hv⟩, hbytes⟩ := hs
  refine ⟨⟨word, hv⟩, ?_⟩
  obtain ⟨header, hh, hend, rfl⟩ := (bytes_eq_ok_iff hv).mp hbytes
  refine (bytes_eq_ok_iff hv).mpr ⟨header, ?_, ?_, ?_⟩
  · obtain ⟨isa, packed, hisa, hpacked, rfl⟩ := Arenas.header_eq_ok_iff.mp hh
    simp only [Arenas.space] at hisa hpacked
    refine Arenas.header_eq_ok_iff.mpr ⟨isa, packed, ?_, ?_, rfl⟩
    · simp only [Arenas.space]
      rw [hleaf, Array.getElem?_append_left (Array.getElem?_eq_some_iff.mp hisa).1, hisa]
    · simp only [Arenas.space]
      rw [hleaf, Array.getElem?_append_left (Array.getElem?_eq_some_iff.mp hpacked).1, hpacked]
  · rw [hleaf, Array.size_append]
    omega
  · rw [hleaf, Array.extract_append, Nat.sub_eq_zero_of_le hend, Array.extract_zero,
      Array.append_empty]

theorem Shows.setSlot {ε : Type} (sound : h.Sound) (hs : h.Shows v slots) (hi : i < slots.length)
    (x : Value) : ∃ h', Heap.setSlot v i x (ε := ε) h = .ok () h' ∧ h'.Sound ∧
      h'.Shows v (slots.set i x) ∧ Spares h h' [v] := by
  obtain ⟨word, isa, packed, rfl, hl, hsize, hwords⟩ := hs
  obtain ⟨hsmall, hpos⟩ := sound.bounds hl
  obtain ⟨hh, hkind⟩ := sound.header hl hwords
  have hextent := sound.extent hl hsize hwords
  have hj : headerWords + i < h.arenas.extent ⟨.pointers, word⟩ := by omega
  have hused : word + headerWords + i < h.used .pointers := by
    obtain ⟨header, hh', -, -, hend⟩ := sound.laid.object hl
    rw [← Arenas.extent_eq hh', hextent] at hend
    rw [used]
    dsimp only at hend
    omega
  have hlaid := (sound.laid.setWord hl hj (by simp only [headerWords]; omega) x.raw).2
  rw [← Nat.add_assoc] at hlaid
  refine ⟨{ h with arenas := h.arenas.setWord .pointers (word + headerWords + i) x.raw }, ?_, ?_,
    ?_, ?_, ?_, fun loc hl' => (hlaid loc).mpr hl', rfl⟩
  · have hlocate : (Value.ofAddress ⟨.pointers, word⟩).address? = some ⟨.pointers, word⟩ :=
      Value.address?_ofAddress hsmall hpos
    have hin : i < (Header.ofWords isa packed).size.toNat := by omega
    simp only [Heap.setSlot, slotWord, locate, hlocate, bind, Except.bind, hh, hkind, hin, pure,
      Except.pure, true_and, if_true, hused]
  · rw [Nat.add_assoc]
    exact sound.write hl hj (by simp only [headerWords]; omega) x.raw
  · refine ⟨word, isa, packed, rfl, (hlaid _).mpr hl, by rw [List.length_set, hsize],
      fun k w hk => ?_⟩
    change ((h.arenas.setWord _ _ _).space .pointers)[word + k]? = some w
    rw [Arenas.getElem?_setWord]
    rcases k with _ | _ | k
    iterate 2
      rw [if_neg (by simp only [headerWords]; omega)]
      exact hwords _ w hk
    · have hk' : ((slots.set i x).map Value.raw)[k]? = some w := hk
      by_cases hki : k = i
      · subst hki
        rw [List.map_set, List.getElem?_set_self (by simpa using hi)] at hk'
        have hold := hwords (k + 2) (slots[k]).raw (by simp [hi])
        rw [if_pos ⟨rfl, by simp only [headerWords]; omega⟩, Nat.add_assoc,
          Nat.add_comm headerWords, hold]
        exact hk'
      · rw [List.map_set, List.getElem?_set_ne (Ne.symm hki)] at hk'
        rw [if_neg (by simp only [headerWords]; omega)]
        exact hwords (k + 2) w hk'
  · intro v' slots' hne hs'
    obtain ⟨word', isa', packed', rfl, hl', hsize', hwords'⟩ := hs'
    have hextent' := sound.extent hl' hsize' hwords'
    refine ⟨word', isa', packed', rfl, (hlaid _).mpr hl', hsize', fun k w hk => ?_⟩
    have hlt := (List.getElem?_eq_some_iff.mp hk).1
    simp only [List.length_cons, List.length_map] at hlt
    have hother : (⟨.pointers, word'⟩ : Address) ≠ ⟨.pointers, word⟩ := by
      rintro ⟨⟩
      exact hne (.head _)
    have hsame := sound.laid.getElem?_setWord (w := x.raw) hl hl' hj
      (k := k) (by simp only [headerWords] at hextent'; omega) hother
    rw [← Nat.add_assoc] at hsame
    exact hsame.trans (hwords' k w hk)
  · intro v' content hs'
    exact hs'.grow #[] (Array.append_empty).symm

theorem slotWord_eq_ok {id : ArenaId} {w : Nat} (heq : h.slotWord v i = .ok (id, w)) :
    ∃ loc header, v.address? = some loc ∧ h.arenas.header loc = .ok header ∧
      header.kind = .pointers ∧ i < header.size.toNat ∧ id = loc.arena ∧
      w = loc.word + headerWords + i := by
  rw [slotWord, locate] at heq
  cases hv : v.address? with
  | none => simp [hv, bind, Except.bind] at heq
  | some loc =>
    simp only [hv, bind, Except.bind] at heq
    cases hh : h.arenas.header loc with
    | error f => simp [hh] at heq
    | ok header =>
      simp only [hh] at heq
      split at heq
      · rename_i hi
        obtain ⟨rfl, rfl⟩ := Prod.mk.inj (Except.ok.inj heq)
        exact ⟨loc, header, rfl, hh, hi.1, hi.2, rfl, rfl⟩
      · cases heq

theorem slot_eq_ok (heq : h.slot v i = .ok x) :
    ∃ loc header, v.address? = some loc ∧ h.arenas.header loc = .ok header ∧
      header.kind = .pointers ∧ i < header.size.toNat ∧
      h.arenas.word loc.arena (loc.word + headerWords + i) = .ok x.raw := by
  rw [slot] at heq
  cases hw : h.slotWord v i with
  | error f => simp [hw, bind, Except.bind] at heq
  | ok found =>
    obtain ⟨id, w⟩ := found
    obtain ⟨loc, header, hv, hh, hkind, hi, rfl, rfl⟩ := slotWord_eq_ok hw
    refine ⟨loc, header, hv, hh, hkind, hi, ?_⟩
    simp only [hw, bind, Except.bind] at heq
    cases hword : h.arenas.word loc.arena (loc.word + headerWords + i) with
    | error f => simp [hword] at heq
    | ok raw =>
      simp only [hword, pure, Except.pure] at heq
      cases heq
      rfl

theorem Sound.shows_of_slotWord (sound : h.Sound) (sane : h.arenas.Sane v) {id : ArenaId} {w : Nat}
    (heq : h.slotWord v i = .ok (id, w)) : ∃ slots, h.Shows v slots ∧ i < slots.length := by
  obtain ⟨loc, header, hv, hh, hkind, hi, -, -⟩ := slotWord_eq_ok heq
  have hl := sane.allocated hv
  obtain ⟨header', hh', hkind', -, hend⟩ := sound.laid.object hl
  obtain rfl := Except.ok.inj (hh.symm.trans hh')
  obtain ⟨isa, packed, hisa, hpacked, rfl⟩ := Arenas.header_eq_ok_iff.mp hh
  obtain ⟨arena, word⟩ := loc
  obtain rfl : arena = .pointers := by
    cases arena with
    | pointers => rfl
    | leaf => rw [hkind'] at hkind; cases hkind
  let size := (Header.ofWords isa packed).size.toNat
  have htotal : (Header.ofWords isa packed).totalWords = headerWords + size := by
    rw [Header.totalWords, Header.payloadWords, hkind]
  rw [htotal] at hend
  refine ⟨((h.arenas.space .pointers).toList.drop (word + headerWords)).take size |>.map Value.mk,
    ⟨word, isa, packed, (Value.ofAddress_of_address? hv).symm, hl, ?_, fun k w' hk => ?_⟩, ?_⟩
  · simp [Arenas.used] at hend ⊢
    omega
  · rcases k with _ | _ | k
    · simpa using hisa.trans hk
    · simpa using hpacked.trans hk
    · simp only [List.map_take, List.map_map, Function.comp_def, List.map_id',
        List.getElem?_cons_succ, List.getElem?_take, List.map_drop, List.getElem?_drop] at hk
      split at hk
      · rw [Nat.add_assoc k, Nat.add_comm k, ← Nat.add_assoc, ← Array.getElem?_toList]
        exact hk
      · cases hk
  · simp [Arenas.used] at hend ⊢
    omega

theorem Sound.shows_of_slot (sound : h.Sound) (sane : h.arenas.Sane v) (heq : h.slot v i = .ok x) :
    ∃ slots, h.Shows v slots ∧ i < slots.length := by
  rw [slot] at heq
  cases hw : h.slotWord v i with
  | error f => simp [hw, bind, Except.bind] at heq
  | ok found => exact sound.shows_of_slotWord sane hw

/-- A write delivers only if its target is an object, and then it changes no other. -/
theorem Sound.setSlot_spares {ε : Type} (sound : h.Sound) (sane : h.arenas.Sane v)
    (heq : Heap.setSlot v i x (ε := ε) h = .ok () h') : h'.Sound ∧ Spares h h' [v] := by
  have hset := heq
  rw [Heap.setSlot] at hset
  split at hset
  · cases hset
  · rename_i id w hw
    obtain ⟨slots, hs, hi⟩ := sound.shows_of_slotWord sane hw
    obtain ⟨h₁, hok, sound', -, hspares⟩ := hs.setSlot sound hi x (ε := ε)
    rw [hok] at heq
    cases heq
    exact ⟨sound', hspares⟩

/-- What an object holds stays the same when an arena grows. -/
theorem Shows.append {id : ArenaId} {ws : Array UInt64} (hs : h.Shows v slots)
    (harenas : h'.arenas = (h.arenas.append id ws).2)
    (hallocated : ∀ loc, h.arenas.Allocated loc → h'.arenas.Allocated loc) : h'.Shows v slots := by
  obtain ⟨word, isa, packed, rfl, hl, hsize, hwords⟩ := hs
  refine ⟨word, isa, packed, rfl, hallocated _ hl, hsize, fun k w hk => ?_⟩
  have hold := hwords k w hk
  rw [harenas, Arenas.space_append]
  split
  · rename_i hid
    subst hid
    rw [Array.getElem?_append_left (Array.getElem?_eq_some_iff.mp hold).1, hold]
  · exact hold

/-- An object at the end of an arena disturbs no other. -/
theorem Spares.append (id : ArenaId) (ws : Array UInt64)
    (harenas : h'.arenas = (h.arenas.append id ws).2)
    (hallocated : ∀ loc, h.arenas.Allocated loc → h'.arenas.Allocated loc)
    (hcollections : h'.stats.collections = h.stats.collections) : Spares h h' [] where
  shows _ hs := hs.append harenas hallocated
  spells hs := by
    cases id with
    | pointers => exact hs.grow #[] (by rw [harenas, Array.append_empty]; rfl)
    | leaf => exact hs.grow ws (by rw [harenas]; rfl)
  allocated := hallocated
  collections := hcollections

/-- Counts of slots matter modulo 2^32. -/
theorem allocatePointers_mod (isa : Value) (count : Nat) :
    allocatePointers isa (count % 0x100000000) = allocatePointers isa count := by
  have hcount : (count % 0x100000000).toUInt32 = count.toUInt32 := by
    apply UInt32.toNat_inj.mp
    simp [Nat.toUInt32]
  rw [allocatePointers, allocatePointers, hcount]

/-- A new object has nothing but nil in its slots, and is none of those that there were. -/
theorem allocatePointers_shows {isa : Value} {count : Nat} (sound : h.Sound)
    (hcount : count < 0x100000000) (heq : allocatePointers isa count h = .ok v h') :
    h'.Sound ∧ h'.Shows v (List.replicate count .nil) ∧ ¬h.arenas.Sane v ∧ Spares h h' [] := by
  have sound' := (allocatePointers_sound isa count).ok sound heq
  rw [allocatePointers] at heq
  have hsize : count.toUInt32.toNat = count := by
    simpa [Nat.toUInt32] using hcount
  rcases h.allocate_cases .pointers isa .pointers count.toUInt32
    (fun s => pushZeros_eq s count.toUInt32.toNat) with herr | ⟨hfit, hok⟩
  · rw [herr] at heq
    cases heq
  · rw [hok] at heq
    cases heq
    obtain ⟨-, hallocated⟩ := sound.laid_append .pointers
      ⟨isa, .pointers, h.nextHash.toUInt32, count.toUInt32⟩
      (Array.replicate count.toUInt32.toNat 0) rfl (by simp [Header.payloadWords])
    refine ⟨sound', ⟨h.used .pointers, isa.raw,
      (Header.mk isa .pointers h.nextHash.toUInt32 count.toUInt32).packed, rfl,
      (hallocated _).mpr (.inr rfl), ?_, ?_⟩, fun sane => ?_,
      .append .pointers _ rfl (fun loc hl => (hallocated loc).mpr (.inl hl)) rfl⟩
    · rw [Header.size_ofWords, Header.size_packed, hsize, List.length_replicate]
    · intro k w hk
      refine (Arenas.getElem?_append_right k).trans ?_
      rw [objectWords, hsize]
      simpa [← Array.getElem?_toList, Value.nil] using hk
    · have hl := sane.allocated
        (Value.address?_ofAddress sound.end_bounds.1 sound.end_bounds.2)
      obtain ⟨header, -, -, -, hend⟩ := sound.laid.object hl
      have := header.headerWords_le_totalWords
      simp only [headerWords, used] at this hend
      omega

/-- Packed bytes at the end of their arena. -/
theorem spells_append {content : Array UInt8} (isa : Value) (hash : UInt32)
    (hv : v.address? = some ⟨.leaf, h.used .leaf⟩)
    (hcount : content.size.toUInt32.toNat = content.size)
    (hleaf : h'.arenas.leaf = h.arenas.leaf ++
      objectWords ⟨isa, .bytes, hash, content.size.toUInt32⟩
        ((List.range' 0 ((content.size + 7) / 8)).map (packedWord content)).toArray) :
    h'.Spells v content := by
  have hheader : h'.arenas.header ⟨.leaf, h.used .leaf⟩ = .ok (.ofWords isa.raw
      (Header.mk isa .bytes hash content.size.toUInt32).packed) := by
    refine Arenas.header_eq_ok_iff.mpr ⟨_, _, ?_, ?_, rfl⟩
    · simp [Arenas.space, hleaf, used, Arenas.used, objectWords]
    · simp [Arenas.space, hleaf, used, Arenas.used, objectWords]
  have hpayload : (Header.ofWords isa.raw
      (Header.mk isa .bytes hash content.size.toUInt32).packed).payloadWords =
        (content.size + 7) / 8 := by
    rw [Header.payloadWords, Header.kind_ofWords, Header.ofBits_packed, Header.size_ofWords,
      Header.size_packed]
    simp only [hcount]
  refine ⟨⟨_, hv⟩, (bytes_eq_ok_iff hv).mpr ⟨_, hheader, ?_, ?_⟩⟩
  · rw [hpayload, hleaf]
    simp only [objectWords, used, Arenas.used, Arenas.space, headerWords, Array.size_append,
      List.size_toArray, List.length_map, List.length_range', List.length_cons, List.length_nil]
    omega
  · have hstart : h.used .leaf + headerWords = (h.arenas.leaf ++
        #[isa.raw, (Header.mk isa .bytes hash content.size.toUInt32).packed]).size := by
      simp [used, Arenas.used, Arenas.space]
    have hwhole :
        ((List.range' 0 ((content.size + 7) / 8)).map (packedWord content)).toArray.extract 0
          ((content.size + 7) / 8) =
          ((List.range' 0 ((content.size + 7) / 8)).map (packedWord content)).toArray :=
      Array.extract_eq_self_of_le (by simp)
    rw [hpayload, hleaf, Header.size_ofWords, Header.size_packed, hcount, objectWords,
      ← Array.append_assoc, hstart, Array.extract_append_right, hwhole, unpack_packed]

theorem allocateBytes_spells {isa : Value} {content : Array UInt8} (sound : h.Sound)
    (heq : allocateBytes isa content h = .ok v h') :
    h'.Sound ∧ h'.Spells v content ∧ content.size < 0x100000000 ∧ Spares h h' [] := by
  have sound' := (allocateBytes_sound isa content).ok sound heq
  rw [allocateBytes, bind_eq_ok] at heq
  obtain ⟨object, h₁, hallocate, hreturn⟩ := heq
  rw [ite_eq_ok, pure_eq_ok, fault_eq_ok, and_false, or_false] at hreturn
  obtain ⟨hsize, rfl, rfl⟩ := hreturn
  have hcount : content.size.toUInt32.toNat = content.size := by simpa [Nat.toUInt32] using hsize
  rcases h.allocate_cases .leaf isa .bytes content.size.toUInt32
    (fun s => pushPacked_eq content s 0 _) with herr | ⟨hfit, hok⟩
  · rw [herr] at hallocate
    cases hallocate
  · rw [hok] at hallocate
    cases hallocate
    obtain ⟨-, hallocated⟩ := sound.laid_append .leaf
      ⟨isa, .bytes, h.nextHash.toUInt32, content.size.toUInt32⟩
      ((List.range' 0 ((content.size.toUInt32.toNat + 7) / 8)).map (packedWord content)).toArray rfl
      (by simp [Header.payloadWords])
    have hv : (Value.ofAddress ⟨.leaf, h.used .leaf⟩).address? = some ⟨.leaf, h.used .leaf⟩ :=
      Value.address?_ofAddress sound.end_bounds.1 sound.end_bounds.2
    refine ⟨sound', spells_append isa h.nextHash.toUInt32 hv hcount ?_, hsize,
      .append .leaf _ rfl (fun loc hl => (hallocated loc).mpr (.inl hl)) rfl⟩
    rw [hcount]
    rfl

end Heap

end ObjectMachine
