import ObjectMachine.Proofs.Memory.Integrity

namespace ObjectMachine

structure Cell where
  object : Value
  index : Nat
  deriving DecidableEq

/-- A write to a slot misses the headers of all objects. -/
theorem Arenas.Laid.header_setWord {a : Arenas} (laid : a.Laid) {loc loc' : Address}
    (hl : a.Allocated loc) (hl' : a.Allocated loc') {j : Nat} (hj : j < a.extent loc)
    (hslot : headerWords ≤ j) (w : UInt64) :
    (a.setWord loc.arena (loc.word + j) w).header loc' = a.header loc' := by
  obtain ⟨header, hh, -⟩ := laid.object hl'
  have hsame : ∀ k < headerWords,
      ((a.setWord loc.arena (loc.word + j) w).space loc'.arena)[loc'.word + k]? =
        (a.space loc'.arena)[loc'.word + k]? := by
    intro k hk
    rw [Arenas.getElem?_setWord, if_neg]
    rintro ⟨harena, hword⟩
    have hextent : k < a.extent loc' := by
      rw [extent_eq hh]
      exact Nat.lt_of_lt_of_le hk header.headerWords_le_totalWords
    have := (laid.apart hl' hl harena hextent hj hword).2
    omega
  obtain ⟨isa, packed, hisa, hpacked, rfl⟩ := header_eq_ok_iff.mp hh
  rw [hh]
  exact header_eq_ok_iff.mpr
    ⟨isa, packed, (hsame 0 (by decide)).trans hisa, (hsame 1 (by decide)).trans hpacked, rfl⟩

namespace Heap

structure Holds (h : Heap) (c : Cell) (x : Value) : Prop where
  sane : h.arenas.Sane c.object
  slot : h.slot c.object c.index = .ok x

structure Rewrites (h h' : Heap) (c : Cell) (x : Value) : Prop where
  whole : h'.Whole
  grows : Grows h h'
  written : h'.Holds c x
  others : ∀ {d y}, d ≠ c → h.Holds d y → h'.Holds d y
  cells : ∀ {d y}, h'.Holds d y → ∃ z, h.Holds d z
  header : ∀ {v}, h.arenas.Sane v → h'.header v = h.header v
  spells : ∀ {v content}, h.Spells v content → h'.Spells v content

variable {h h' : Heap} {c : Cell} {x y : Value}

theorem Holds.unique (hx : h.Holds c x) (hy : h.Holds c y) : x = y :=
  Except.ok.inj (hx.slot.symm.trans hy.slot)

theorem Holds.value_sane (whole : h.Whole) (hc : h.Holds c x) : h.arenas.Sane x :=
  whole.slot hc.sane hc.slot

theorem Shows.getElem? (sound : h.Sound) {v : Value} {slots : List Value} (hs : h.Shows v slots)
    {i : Nat} (hx : h.slot v i = .ok x) : slots[i]? = some x := by
  by_cases hi : i < slots.length
  · have hread := hs.slot sound (List.getElem?_eq_getElem hi)
    rw [List.getElem?_eq_getElem hi, Except.ok.inj (hread.symm.trans hx)]
  · obtain ⟨word, isa, packed, rfl, hl, hsize, hwords⟩ := hs
    obtain ⟨hsmall, hpos⟩ := sound.bounds hl
    obtain ⟨hh, hkind⟩ := sound.header hl hwords
    rw [slot_ofAddress h hsmall hpos hh, if_neg (by omega)] at hx
    cases hx

theorem Holds.shows (whole : h.Whole) (hc : h.Holds c x) :
    ∃ slots, h.Shows c.object slots ∧ slots[c.index]? = some x := by
  obtain ⟨slots, hshows, -⟩ := whole.sound.shows_of_slot hc.sane hc.slot
  exact ⟨slots, hshows, hshows.getElem? whole.sound hc.slot⟩

theorem Shows.holds (whole : h.Whole) {v : Value} {slots : List Value} (hs : h.Shows v slots)
    {i : Nat} (hx : slots[i]? = some x) : h.Holds ⟨v, i⟩ x :=
  ⟨hs.sane whole.sound, hs.slot whole.sound hx⟩

theorem Sound.exists_slot (sound : h.Sound) {v : Value} {loc : Address} {header : Header} {i : Nat}
    (hv : v.address? = some loc) (hl : h.arenas.Allocated loc)
    (hh : h.arenas.header loc = .ok header) (hkind : header.kind = .pointers)
    (hi : i < header.size.toNat) : ∃ x, h.slot v i = .ok x := by
  obtain ⟨header', hh', -, -, hend⟩ := sound.laid.object hl
  obtain rfl := Except.ok.inj (hh.symm.trans hh')
  have hin : loc.word + headerWords + i < (h.arenas.space loc.arena).size := by
    rw [Header.totalWords, Header.payloadWords, hkind] at hend
    simp only [Arenas.used] at hend
    omega
  have hword := Arenas.word_eq_ok_iff.mpr (Array.getElem?_eq_getElem hin)
  refine ⟨⟨(h.arenas.space loc.arena)[loc.word + headerWords + i]⟩, ?_⟩
  simp only [slot, slotWord, locate, hv, hh, bind, Except.bind, hkind, hi, true_and, if_true, pure,
    Except.pure, hword]

theorem setSlot_unfailing {ε : Type} (v : Value) (i : Nat) (x : Value) :
    (Heap.setSlot v i x : Action ε Heap Unit).Unfailing := by
  intro h e h' heq
  rw [Heap.setSlot] at heq
  split at heq
  · cases heq
  · split at heq <;> cases heq

/-- A write changes nothing but words, and adds none. -/
theorem setSlot_eq_ok {ε : Type} {v : Value} {i : Nat}
    (heq : Heap.setSlot v i x (ε := ε) h = .ok () h') :
    h'.stats = h.stats ∧ ∀ id, h'.used id = h.used id := by
  rw [Heap.setSlot] at heq
  split at heq
  · cases heq
  · split at heq
    · cases heq
      exact ⟨rfl, fun id => Arenas.used_setWord _ _ id _ _⟩
    · cases heq

/-- A write to a slot keeps all objects and their headers. -/
theorem setSlot_keeps {ε : Type} (whole : h.Whole) {v : Value} (hv : h.arenas.Sane v) {i : Nat}
    (heq : Heap.setSlot v i x (ε := ε) h = .ok () h') (loc : Address) :
    (h'.arenas.Allocated loc ↔ h.arenas.Allocated loc) ∧
      (h.arenas.Allocated loc → h'.arenas.header loc = h.arenas.header loc) := by
  rw [Heap.setSlot] at heq
  split at heq
  · cases heq
  · rename_i id word hword
    obtain ⟨target, header, hloc, hh, hkind, hi, rfl, rfl⟩ := slotWord_eq_ok hword
    split at heq
    · cases heq
      have hl := hv.allocated hloc
      have hj : headerWords + i < h.arenas.extent target := by
        rw [Arenas.extent_eq hh, Header.totalWords, Header.payloadWords, hkind]
        exact Nat.add_lt_add_left hi _
      have hj₁ : headerWords + i ≠ 1 := by simp only [headerWords]; omega
      rw [Nat.add_assoc]
      exact ⟨(whole.sound.laid.setWord hl hj hj₁ x.raw).2 loc, fun hl' =>
        whole.sound.laid.header_setWord hl hl' hj (Nat.le_add_right _ _) x.raw⟩
    · cases heq

theorem Holds.write {ε : Type} (whole : h.Whole) (hc : h.Holds c y) (hx : h.arenas.Sane x) :
    ∃ h', Heap.setSlot c.object c.index x (ε := ε) h = .ok () h' ∧ Rewrites h h' c x := by
  obtain ⟨slots, hshows, hy⟩ := hc.shows whole
  have hi := (List.getElem?_eq_some_iff.mp hy).1
  obtain ⟨h', hset, sound, hwritten, hspares⟩ := hshows.setSlot whole.sound hi x (ε := ε)
  obtain ⟨whole', hgrows⟩ := whole.setSlot hc.sane hx hset
  have hkeeps := setSlot_keeps whole hc.sane hset
  refine ⟨h', hset, whole', hgrows, hwritten.holds whole' (List.getElem?_set_self hi), ?_, ?_, ?_,
    hspares.spells⟩
  · intro d z hne hd
    obtain ⟨slots', hshows', hz⟩ := hd.shows whole
    obtain ⟨object, index⟩ := d
    by_cases hobject : object = c.object
    · subst hobject
      -- Another slot of the object that was written to.
      have hindex : index ≠ c.index := fun hindex => hne (by rw [hindex])
      refine hwritten.holds whole' ?_
      rw [List.getElem?_set_ne hindex.symm, hshows.getElem? whole.sound hd.slot]
    · exact (hspares.shows (by simpa using hobject) hshows').holds whole' hz
  · intro d z hd
    obtain ⟨loc, header, hloc, hh, hkind, hindex, -⟩ := slot_eq_ok hd.slot
    have hl := (hkeeps loc).1.mp (hd.sane.allocated hloc)
    rw [(hkeeps loc).2 hl] at hh
    obtain ⟨z', hz'⟩ := whole.sound.exists_slot hloc hl hh hkind hindex
    exact ⟨z', .inr (.inr ⟨loc, hloc, hl⟩), hz'⟩
  · intro v hv
    rw [header, header, locate]
    cases hloc : v.address? with
    | none => rfl
    | some loc => exact (hkeeps loc).2 (hv.allocated hloc)

theorem Whole.rewrites {ε : Type} (whole : h.Whole) {v : Value} {i : Nat} (hv : h.arenas.Sane v)
    (hx : h.arenas.Sane x) (heq : Heap.setSlot v i x (ε := ε) h = .ok () h') :
    Rewrites h h' ⟨v, i⟩ x := by
  have hset := heq
  rw [Heap.setSlot] at hset
  split at hset
  · cases hset
  · rename_i id word hword
    obtain ⟨slots, hshows, hi⟩ := whole.sound.shows_of_slotWord hv hword
    obtain ⟨h₁, hok, hrewrites⟩ :=
      (hshows.holds whole (List.getElem?_eq_getElem hi)).write whole hx (ε := ε)
    rw [hok] at heq
    cases heq
    exact hrewrites

/-- A cell is a slot of some object, which thereby refers to its value. -/
theorem Holds.refers (hc : h.Holds c x) : ∃ loc, c.object.address? = some loc ∧
    h.arenas.Allocated loc ∧ h.arenas.Refers loc x := by
  obtain ⟨loc, header, hloc, hh, hkind, hi, hword⟩ := slot_eq_ok hc.slot
  exact ⟨loc, hloc, hc.sane.allocated hloc, header, hh, .inr ⟨hkind, c.index, hi, hword⟩⟩

/-- A collection takes the cells of reachable objects along. -/
theorem Moved.holds {roots : List Value} {f : Address → Address} (moved : Moved h h' roots f)
    (sound : h'.Sound) (hc : h.Holds c x) {loc : Address} (hloc : c.object.address? = some loc)
    (hreach : h.arenas.Reachable roots loc) :
    h'.Holds ⟨c.object.relocate f, c.index⟩ (x.relocate f) := by
  have hl : h'.arenas.Allocated (f loc) := moved.bijective.mapsTo hreach
  have hbounds := sound.bounds hl
  have hrelocate : c.object.relocate f = .ofAddress (f loc) := by rw [Value.relocate, hloc]
  refine ⟨.inr (.inr ⟨f loc, ?_, hl⟩), ?_⟩
  · rw [hrelocate, Value.address?_ofAddress hbounds.1 hbounds.2]
  · rw [hrelocate, moved.slot loc hreach, Value.ofAddress_of_address? hloc, hc.slot]
    rfl

/-- Different reachable objects stay different. -/
theorem Moved.relocate_ne {roots : List Value} {f : Address → Address} (moved : Moved h h' roots f)
    (sound : h'.Sound) {v w : Value} {loc loc' : Address} (hv : v.address? = some loc)
    (hw : w.address? = some loc') (hreach : h.arenas.Reachable roots loc)
    (hreach' : h.arenas.Reachable roots loc') (hne : v ≠ w) : v.relocate f ≠ w.relocate f := by
  have hbounds := sound.bounds (moved.bijective.mapsTo hreach)
  have hbounds' := sound.bounds (moved.bijective.mapsTo hreach')
  simp only [Value.relocate, hv, hw]
  intro heq
  have hsame : f loc = f loc' := by
    have := congrArg Value.address? heq
    rw [Value.address?_ofAddress hbounds.1 hbounds.2,
      Value.address?_ofAddress hbounds'.1 hbounds'.2] at this
    exact Option.some.inj this
  apply hne
  rw [← Value.ofAddress_of_address? hv, ← Value.ofAddress_of_address? hw,
    moved.bijective.injOn hreach hreach' hsame]

end Heap

end ObjectMachine
