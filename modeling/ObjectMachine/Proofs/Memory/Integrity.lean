import ObjectMachine.Proofs.Memory.Objects

namespace ObjectMachine

namespace Arenas

variable {a b : Arenas} {loc : Address} {v : Value}

theorem sane_nil (a : Arenas) : a.Sane .nil := .inl rfl

theorem Sane.mono (hs : a.Sane v) (keeps : ∀ loc, a.Allocated loc → b.Allocated loc) : b.Sane v :=
  hs.imp_right fun h => h.imp_right fun ⟨loc, hv, hl⟩ => ⟨loc, hv, keeps loc hl⟩

/-- The words of an object that hold values: its class and its slots. -/
def Names (loc : Address) (j : Nat) : Prop := j = 0 ∨ loc.arena = .pointers ∧ 2 ≤ j

theorem refers_of_names {h : Header} (hh : a.header loc = .ok h)
    (hkind : h.kind = loc.arena.objectKind) {j : Nat} (hj : j < h.totalWords) (hname : Names loc j)
    {w : UInt64} (hw : (a.space loc.arena)[loc.word + j]? = some w) : a.Refers loc ⟨w⟩ := by
  refine ⟨h, hh, ?_⟩
  rcases hname with rfl | ⟨harena, hle⟩
  · obtain ⟨isa, packed, hisa, -, rfl⟩ := header_eq_ok_iff.mp hh
    obtain rfl : isa = w := Option.some.inj (hisa.symm.trans hw)
    exact .inl rfl
  · have hpointers : h.kind = .pointers := by rw [hkind, harena]; rfl
    rw [Header.totalWords, Header.payloadWords, hpointers] at hj
    refine .inr ⟨hpointers, j - headerWords, ?_, word_eq_ok_iff.mpr ?_⟩
    · simp only [headerWords] at hj ⊢
      omega
    · rwa [Nat.add_assoc, Nat.add_sub_cancel' hle]

theorem Laid.refers_iff (laid : a.Laid) (hl : a.Allocated loc) : a.Refers loc v ↔
    ∃ j < a.extent loc, Names loc j ∧ (a.space loc.arena)[loc.word + j]? = some v.raw := by
  obtain ⟨h, hh, hkind, -⟩ := laid.object hl
  obtain ⟨isa, packed, hisa, -, rfl⟩ := header_eq_ok_iff.mp hh
  rw [extent_eq hh]
  constructor
  · rintro ⟨h', hh', href⟩
    obtain rfl := Except.ok.inj (hh.symm.trans hh')
    rcases href with rfl | ⟨hpointers, i, hi, hw⟩
    · exact ⟨0, Nat.lt_of_lt_of_le Nat.zero_lt_two (Header.headerWords_le_totalWords _), .inl rfl,
        hisa⟩
    · refine ⟨headerWords + i, ?_, .inr ⟨?_, Nat.le_add_right _ _⟩, ?_⟩
      · rw [Header.totalWords, Header.payloadWords, hpointers]
        exact Nat.add_lt_add_left hi _
      · cases harena : loc.arena with
        | pointers => rfl
        | leaf => rw [hkind, harena] at hpointers; cases hpointers
      · rw [← Nat.add_assoc]
        exact word_eq_ok_iff.mp hw
  · rintro ⟨j, hj, hname, hw⟩
    exact refers_of_names hh hkind hj hname hw

/-- A write of a value that is not stale to the class or a slot of an object. -/
theorem Closed.setWord (closed : a.Closed) (laid : a.Laid) (hl : a.Allocated loc) {j : Nat}
    (hj : j < a.extent loc) (hj₁ : j ≠ 1) {w : UInt64} (hw : a.Sane ⟨w⟩) :
    (a.setWord loc.arena (loc.word + j) w).Closed := by
  obtain ⟨laid', hiff⟩ := laid.setWord hl hj hj₁ w
  intro loc' hl' v href
  have hold := (hiff loc').mp hl'
  have hsame : (a.setWord loc.arena (loc.word + j) w).extent loc' = a.extent loc' := by
    obtain ⟨h, hh, -⟩ := laid.object hold
    obtain ⟨h', hh', -⟩ := laid'.object hl'
    rw [extent_eq hh, extent_eq hh']
    obtain ⟨isa, packed, -, hp, rfl⟩ := header_eq_ok_iff.mp hh
    obtain ⟨isa', packed', -, hp', rfl⟩ := header_eq_ok_iff.mp hh'
    -- The write misses the second word of every header.
    have hmiss : ¬(loc'.arena = loc.arena ∧ loc'.word + 1 = loc.word + j) := by
      rintro ⟨harena, hword⟩
      refine hj₁ (laid.apart hold hl harena ?_ hj hword).2.symm
      rw [extent_eq hh]
      exact Header.headerWords_le_totalWords _
    rw [getElem?_setWord, if_neg hmiss] at hp'
    obtain rfl : packed' = packed := Option.some.inj (hp'.symm.trans hp)
    rfl
  obtain ⟨j', hj', hname, hv⟩ := (laid'.refers_iff hl').mp href
  refine Sane.mono ?_ fun loc hl => (hiff loc).mpr hl
  rw [getElem?_setWord] at hv
  split at hv
  · cases hword : (a.space loc.arena)[loc.word + j]? with
    | none => simp [hword] at hv
    | some old =>
      obtain ⟨raw⟩ := v
      rw [hword] at hv
      obtain rfl : w = raw := Option.some.inj hv
      exact hw
  · exact closed loc' hold v ((laid.refers_iff hold).mpr ⟨j', hsame ▸ hj', hname, hv⟩)

/-- A new object that holds nothing stale. -/
theorem Closed.append (closed : a.Closed) (laid : a.Laid) {id : ArenaId} {ws : Array UInt64}
    (hgrown : (a.append id ws).2.Laid ∧ ∀ loc, (a.append id ws).2.Allocated loc ↔
      a.Allocated loc ∨ loc = ⟨id, a.used id⟩)
    (content : ∀ (j : Nat) (w : UInt64), Names ⟨id, a.used id⟩ j → ws[j]? = some w → a.Sane ⟨w⟩) :
    (a.append id ws).2.Closed := by
  obtain ⟨laid', hiff⟩ := hgrown
  intro loc hl v href
  refine Sane.mono ?_ fun loc hl => (hiff loc).mpr (.inl hl)
  obtain ⟨j, hj, hname, hw⟩ := (laid'.refers_iff hl).mp href
  rcases (hiff loc).mp hl with hold | rfl
  · obtain ⟨h, hh, -, -, hend⟩ := laid.object hold
    rw [extent_eq (header_append hh)] at hj
    rw [getElem?_append_left (Nat.lt_of_lt_of_le (Nat.add_lt_add_left hj _) hend)] at hw
    exact closed loc hold v ((laid.refers_iff hold).mpr ⟨j, extent_eq hh ▸ hj, hname, hw⟩)
  · exact content j v.raw hname ((getElem?_append_right j).symm.trans hw)

namespace Copying

variable {starts : ArenaId → List Nat} {live : Address → Prop} {moves : Moves}
  {source target : Arenas}

/-- The new name of a value that was not stale. -/
theorem sane_settled {scan : Nat} (c : Copying a starts live moves scan [] source target)
    (g : Ground a starts live) {v v' : Value} (hs : moves.Settles v v') (sane : a.Sane v) :
    target.Sane v' := by
  rw [Moves.Settles] at hs
  cases hv : v.address? with
  | none =>
    obtain rfl : v' = v := by simpa [hv] using hs
    refine sane.imp_right fun h => h.imp_right ?_
    rintro ⟨loc, hloc, -⟩
    cases hv.symm.trans hloc
  | some loc =>
    rw [hv] at hs
    obtain ⟨new, hm, rfl⟩ := hs
    obtain ⟨hfirst, -, hsmall⟩ := c.bounds g hm
    have haddress : (Value.ofAddress new).address? = some new :=
      Value.address?_ofAddress hsmall (Nat.lt_of_lt_of_le Nat.zero_lt_two hfirst)
    exact .inr (.inr ⟨new, haddress, c.allocated_iff_moved.mpr ⟨loc, hm⟩⟩)

theorem closed (c : Copying a starts live moves (target.used .pointers) [] source target)
    (g : Ground a starts live) (sane : ∀ loc, live loc → ∀ v, a.Refers loc v → a.Sane v) :
    target.Closed := by
  rintro new hnew v ⟨header, hh, href⟩
  obtain ⟨loc, hm⟩ := c.allocated_iff_moved.mp hnew
  obtain ⟨old, hold, hisa, hcopy⟩ := c.header_settled g hm
  obtain rfl := Except.ok.inj (hcopy.symm.trans hh)
  rcases href with rfl | ⟨hkind, i, hi, hw⟩
  · exact c.sane_settled g hisa (sane loc (c.live hm) _ ⟨old, hold, .inl rfl⟩)
  · obtain ⟨w, hword, hslot, hcopied⟩ := c.slot_settled g hm hold hkind hi
    obtain ⟨raw⟩ := v
    obtain rfl := Except.ok.inj (hcopied.symm.trans hw)
    exact c.sane_settled g hslot (sane loc (c.live hm) _ ⟨old, hold, .inr ⟨hkind, i, hi, hword⟩⟩)

end Copying

theorem closed_empty : empty.Closed := by
  intro loc hl
  have tiled : empty.Tiled loc.arena firstObject [] := by cases loc.arena <;> rfl
  rw [allocated_iff (laid_empty.pad _) tiled] at hl
  cases hl

end Arenas

namespace Heap

structure Whole (h : Heap) : Prop where
  sound : h.Sound
  closed : h.arenas.Closed

def Grows (h h' : Heap) : Prop := ∀ v, h.arenas.Sane v → h'.arenas.Sane v

theorem Grows.refl (h : Heap) : Grows h h := fun _ hv => hv

variable {h h' h'' : Heap} {v x : Value} {i : Nat}

theorem Grows.trans (hg : Grows h h') (hg' : Grows h' h'') : Grows h h'' :=
  fun v hv => hg' v (hg v hv)

theorem empty_whole {capacity limit nextHash : Nat} {stats : HeapStats}
    (hroom : Arenas.firstObject ≤ capacity) (hsmall : capacity < 0x100000000) :
    Whole ⟨.empty, capacity, limit, nextHash, stats⟩ :=
  ⟨⟨Arenas.laid_empty, by intro id; cases id <;> exact hroom, hsmall⟩, Arenas.closed_empty⟩

theorem create_whole {settings : HeapSettings} (hc : create settings = .ok h) : h.Whole := by
  refine ⟨create_sound hc, ?_⟩
  rw [create] at hc
  cases hcheck : settings.check with
  | error e => simp [hcheck, bind, Except.bind] at hc
  | ok u =>
    simp only [hcheck, bind, Except.bind, pure, Except.pure] at hc
    cases hc
    exact Arenas.closed_empty

/-- Where the header of an object was read. -/
theorem header_eq_ok {header : Header} (heq : h.header v = .ok header) :
    ∃ loc, v.address? = some loc ∧ h.arenas.header loc = .ok header := by
  rw [Heap.header, locate] at heq
  cases hv : v.address? with
  | none => simp [hv, bind, Except.bind] at heq
  | some loc => exact ⟨loc, rfl, by simpa [hv, bind, Except.bind] using heq⟩

theorem Whole.header (whole : h.Whole) (sane : h.arenas.Sane v) {header : Header}
    (heq : h.header v = .ok header) : h.arenas.Sane header.isa := by
  obtain ⟨loc, hv, hh⟩ := header_eq_ok heq
  exact whole.closed loc (sane.allocated hv) _ ⟨header, hh, .inl rfl⟩

theorem Whole.slot (whole : h.Whole) (sane : h.arenas.Sane v) (heq : h.slot v i = .ok x) :
    h.arenas.Sane x := by
  obtain ⟨loc, header, hv, hh, hkind, hi, hword⟩ := slot_eq_ok heq
  exact whole.closed loc (sane.allocated hv) _ ⟨header, hh, .inr ⟨hkind, i, hi, hword⟩⟩

/-- A write of a value that is not stale into an object. -/
theorem Whole.write (whole : h.Whole) {loc : Address} (hl : h.arenas.Allocated loc) {j : Nat}
    (hj : j < h.arenas.extent loc) (hj₁ : j ≠ 1) (hx : h.arenas.Sane x) :
    Whole { h with arenas := h.arenas.setWord loc.arena (loc.word + j) x.raw } ∧
      Grows h { h with arenas := h.arenas.setWord loc.arena (loc.word + j) x.raw } :=
  ⟨⟨whole.sound.write hl hj hj₁ x.raw, whole.closed.setWord whole.sound.laid hl hj hj₁ hx⟩,
    fun _ hv => hv.mono fun _ hl' => ((whole.sound.laid.setWord hl hj hj₁ x.raw).2 _).mpr hl'⟩

theorem Whole.setSlot {ε : Type} (whole : h.Whole) (sane : h.arenas.Sane v) (hx : h.arenas.Sane x)
    (heq : Heap.setSlot v i x (ε := ε) h = .ok () h') : h'.Whole ∧ Grows h h' := by
  rw [Heap.setSlot] at heq
  split at heq
  · cases heq
  · rename_i id w hw
    obtain ⟨loc, header, hv, hh, hkind, hi, rfl, rfl⟩ := slotWord_eq_ok hw
    split at heq
    · cases heq
      rw [Nat.add_assoc]
      refine whole.write (sane.allocated hv) ?_ (by simp only [headerWords]; omega) hx
      rw [Arenas.extent_eq hh, Header.totalWords, Header.payloadWords, hkind]
      exact Nat.add_lt_add_left hi _
    · cases heq

theorem Whole.setClass {ε : Type} (whole : h.Whole) (sane : h.arenas.Sane v)
    (hx : h.arenas.Sane x) (heq : Heap.setClass v x (ε := ε) h = .ok () h') :
    h'.Whole ∧ Grows h h' := by
  rw [Heap.setClass, locate] at heq
  cases hv : v.address? with
  | none => simp [hv] at heq
  | some loc =>
    simp only [hv] at heq
    split at heq
    · cases heq
      obtain ⟨header, hh, -⟩ := whole.sound.laid.object (sane.allocated hv)
      refine whole.write (j := 0) (sane.allocated hv) ?_ Nat.zero_ne_one hx
      rw [Arenas.extent_eq hh]
      exact Nat.lt_of_lt_of_le Nat.zero_lt_two header.headerWords_le_totalWords
    · cases heq

/-- An allocation, whether or not there is room. -/
theorem Whole.allocate (whole : h.Whole) (id : ArenaId) (hx : h.arenas.Sane x) (size : UInt32)
    {fill : Array UInt64 → Array UInt64} {payload : Array UInt64}
    (hfill : ∀ s, fill s = s ++ payload)
    (hsize : ∀ hash, payload.size = (Header.mk x id.objectKind hash size).payloadWords)
    (zeros : id = .pointers → ∀ w ∈ payload, w = 0) :
    match Heap.allocate id x id.objectKind size fill h with
    | .ok v h' => h'.Whole ∧ Grows h h' ∧ h'.arenas.Sane v
    | .error _ h' => h'.Whole ∧ Grows h h' := by
  have hkept := allocate_sound id x size hfill hsize h whole.sound
  rcases h.allocate_cases id x id.objectKind size hfill with herr | ⟨hfit, hok⟩
  · rw [herr] at hkept ⊢
    exact ⟨⟨hkept, whole.closed⟩, fun _ hv => hv⟩
  · rw [hok] at hkept ⊢
    have hgrown := whole.sound.laid_append id ⟨x, id.objectKind, h.nextHash.toUInt32, size⟩ payload
      rfl (hsize _)
    refine ⟨⟨hkept, whole.closed.append whole.sound.laid hgrown ?_⟩, fun _ hv =>
      hv.mono fun loc hl => (hgrown.2 loc).mpr (.inl hl),
      .inr (.inr ⟨_, ?_, (hgrown.2 _).mpr (.inr rfl)⟩)⟩
    · intro j w hname hw
      rw [objectWords] at hw
      rcases hname with rfl | ⟨harena, hle⟩
      · obtain rfl : x.raw = w := by simpa using hw
        exact hx
      · rw [Array.getElem?_append_right (by simpa using hle)] at hw
        obtain rfl := zeros harena w (Array.mem_of_getElem? hw)
        exact Arenas.sane_nil _
    · exact Value.address?_ofAddress whole.sound.end_bounds.1 whole.sound.end_bounds.2

/-- A collection. Its roots are again nil, integers and objects. -/
theorem Whole.collect (whole : h.Whole) {roots : List Value}
    (sane : ∀ v ∈ roots, h.arenas.Sane v) :
    ∃ h' roots' live, h.collect roots = .ok (h', roots', .ok live) ∧ h'.Whole ∧
      roots'.length = roots.length ∧ ∀ v ∈ roots', h'.arenas.Sane v := by
  obtain ⟨starts, g⟩ := whole.sound.ground whole.closed sane
  obtain ⟨h', roots', live, moves, source, hcollect, -, c, hroots'⟩ := collect_copies whole.sound g
  refine ⟨h', roots', live, hcollect,
    ⟨whole.sound.collect whole.closed sane hcollect, c.closed g ?_⟩, hroots'.length_eq.symm,
    fun v' hv' => ?_⟩
  · exact fun loc hl v href => whole.closed loc (hl.allocated whole.closed sane) v href
  · obtain ⟨k, hk, rfl⟩ := List.mem_iff_getElem.mp hv'
    have hk' : k < roots.length := hroots'.length_eq ▸ hk
    exact c.sane_settled g (hroots'.get hk' hk) (sane _ (List.getElem_mem hk'))

end Heap

end ObjectMachine
