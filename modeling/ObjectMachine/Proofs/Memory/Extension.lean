import ObjectMachine.Proofs.Memory.Evolution

namespace ObjectMachine

theorem Value.eq_nil_of_isNil {v : Value} (hv : v.isNil = true) : v = .nil :=
  congrArg Value.mk (beq_iff_eq.mp hv)

namespace Heap

structure Extends (written : Cell → Prop) (h h' : Heap) : Prop where
  whole : h'.Whole
  grows : Grows h h'
  kept : ∀ {c y}, ¬written c → h.Holds c y → h'.Holds c y
  header : ∀ {v}, h.arenas.Sane v → h'.header v = h.header v

variable {written written' : Cell → Prop} {h h' h'' : Heap}

theorem Extends.refl (whole : h.Whole) : Extends written h h :=
  ⟨whole, .refl h, fun _ hc => hc, fun _ => rfl⟩

theorem Extends.trans (he : Extends written h h') (he' : Extends written h' h'') :
    Extends written h h'' where
  whole := he'.whole
  grows := he.grows.trans he'.grows
  kept hc hold := he'.kept hc (he.kept hc hold)
  header hv := (he'.header (he.grows _ hv)).trans (he.header hv)

/-- Only cells of old objects matter. -/
theorem Extends.mono (he : Extends written h h')
    (hw : ∀ c, h.arenas.Sane c.object → written c → written' c) : Extends written' h h' where
  whole := he.whole
  grows := he.grows
  kept hc hold := he.kept (fun hwritten => hc (hw _ hold.sane hwritten)) hold
  header := he.header

theorem Rewrites.extends {c : Cell} {x : Value} (hr : Rewrites h h' c x) (hc : written c) :
    Extends written h h' where
  whole := hr.whole
  grows := hr.grows
  kept hd hold := hr.others (fun heq => hd (heq ▸ hc)) hold
  header := hr.header

theorem Extends.identityHash (he : Extends written h h') {v : Value} (hv : h.arenas.Sane v) :
    h'.identityHash v = h.identityHash v := by
  rw [Heap.identityHash, Heap.identityHash, he.header hv]

theorem Extends.size (he : Extends written h h') {v : Value} (hv : h.arenas.Sane v) :
    h'.size v = h.size v := by
  rw [Heap.size, Heap.size, he.header hv]

/-- Everything but a stale reference has a hash. -/
theorem Whole.exists_identityHash (whole : h.Whole) {v : Value} (hv : h.arenas.Sane v) :
    ∃ hash, h.identityHash v = .ok hash := by
  rw [identityHash]
  cases hint : v.toInt? with
  | some n => exact ⟨_, rfl⟩
  | none =>
    by_cases hnil : v.isNil
    · exact ⟨0, by rw [if_pos hnil]⟩
    · rcases hv with hnil' | hinteger | ⟨loc, hloc, hl⟩
      · exact absurd hnil' hnil
      · rw [Value.toInt?, if_pos hinteger] at hint
        cases hint
      · obtain ⟨header, hh, -⟩ := whole.sound.laid.object hl
        refine ⟨header.hash.toNat, ?_⟩
        simp only [if_neg hnil, Heap.header, locate, hloc, bind, Except.bind, hh, pure, Except.pure]

def Allots (h : Heap) : EStateM.Result (Stop HeapError) Heap Value → Prop
  | .ok v h' => Extends (fun _ => False) h h' ∧ h'.arenas.Sane v ∧ ¬h.arenas.Sane v
  | .error (.failure cause) h' => Extends (fun _ => False) h h' ∧
      ∃ arena requested, cause = .exhausted arena requested (h.used arena) h.capacity
  | .error (.fault _) _ => False

theorem Whole.allots (whole : h.Whole) (id : ArenaId) {isa : Value}
    (hisa : h.arenas.Sane isa) (size : UInt32) {fill : Array UInt64 → Array UInt64}
    {payload : Array UInt64} (hfill : ∀ s, fill s = s ++ payload)
    (hsize : ∀ hash, payload.size = (Header.mk isa id.objectKind hash size).payloadWords)
    (zeros : id = .pointers → ∀ w ∈ payload, w = 0) :
    h.Allots (Heap.allocate id isa id.objectKind size fill h) := by
  have hwhole := whole.allocate id hisa size hfill hsize zeros
  obtain ⟨hevolved, hnew⟩ :=
    whole.allocate_evolves id hisa size hfill hsize zeros (W := fun _ _ => False)
  have hkept : ∀ {h' : Heap}, Evolves (fun _ _ => False) h h' → ∀ {c y}, h.Holds c y →
      h'.Holds c y := fun he _ _ hc => he.holds hc nofun
  rcases h.allocate_cases id isa id.objectKind size hfill with herr | ⟨-, hok⟩
  · rw [herr] at hwhole hevolved ⊢
    exact ⟨⟨hwhole.1, hwhole.2, fun _ => hkept hevolved, fun _ => rfl⟩, id, _, rfl⟩
  · have hsane := hnew _ _ hok
    rw [hok] at hwhole hevolved ⊢
    refine ⟨⟨hwhole.1, hwhole.2.1, fun _ => hkept hevolved, fun {v} hv => ?_⟩, hwhole.2.2, hsane⟩
    -- Headers are read from words that stay where they are.
    rw [Heap.header, Heap.header, locate]
    cases hloc : v.address? with
    | none => rfl
    | some loc =>
      obtain ⟨header, hh, -⟩ := whole.sound.laid.object (hv.allocated hloc)
      simp only [bind, Except.bind, hh, Arenas.header_append hh]

/-- However a step of the memory ends, nothing changed but cells, and new objects are instances of
some classes. -/
def Preserved {ε α : Type} (F : Value → Prop) (h : Heap) : EStateM.Result ε Heap α → Prop
  | .ok _ h' => h.Preserves h' ∧ h.Instantiates F h'
  | .error _ h' => h.Preserves h' ∧ h.Instantiates F h'

section Appending

variable {id : ArenaId} {header : Header} {payload : Array UInt64} {c : Cell} {x : Value}

/-- A cell that was not there belongs to the object that was put at the end of an arena. -/
theorem Sound.address_of_append (sound : h.Sound) (hkind : header.kind = id.objectKind)
    (hsize : payload.size = header.payloadWords)
    (harenas : h'.arenas = (h.arenas.append id (objectWords header payload)).2)
    (hc : h'.Holds c x) (hnew : ¬h.arenas.Sane c.object) :
    c.object.address? = some ⟨id, h.used id⟩ := by
  obtain ⟨loc, hloc, hl, -⟩ := hc.refers
  obtain ⟨-, hallocated⟩ := sound.laid_append id header payload hkind hsize
  rw [harenas] at hl
  rcases (hallocated loc).mp hl with hold | rfl
  · exact absurd (.inr (.inr ⟨loc, hloc, hold⟩)) hnew
  · exact hloc

theorem Sound.instantiates_append {F : Value → Prop} (sound : h.Sound) (whole' : h'.Whole)
    (hkind : header.kind = id.objectKind) (hsize : payload.size = header.payloadWords)
    (harenas : h'.arenas = (h.arenas.append id (objectWords header payload)).2)
    (hF : id = .pointers → F header.isa) : h.Instantiates F h' := by
  refine ⟨fun {c x found} hc hnew hfound => ?_⟩
  have hloc := sound.address_of_append hkind hsize harenas hc hnew
  obtain ⟨loc, found', hloc', hh, hpointers, -⟩ := slot_eq_ok hc.slot
  obtain rfl := Option.some.inj (hloc.symm.trans hloc')
  obtain rfl : found = found' := by
    simp only [Heap.header, locate, hloc, bind, Except.bind] at hfound
    exact Except.ok.inj (hfound.symm.trans hh)
  obtain ⟨found', hh', harena, -⟩ := whole'.sound.laid.object (hc.sane.allocated hloc)
  obtain rfl := Except.ok.inj (hh.symm.trans hh')
  rw [harenas] at hh
  have hid : id = .pointers := by
    rw [hpointers] at harena
    cases id with
    | pointers => rfl
    | leaf => cases harena
  -- The first of the words that were put there is the class.
  obtain ⟨w, packed, hw, -, rfl⟩ := Arenas.header_eq_ok_iff.mp hh
  have hfirst : (objectWords header payload)[0]? = some w :=
    (Arenas.getElem?_append_right 0).symm.trans hw
  obtain rfl : header.isa.raw = w := by simpa [objectWords] using hfirst
  exact hF hid

theorem Sound.mem_of_append (sound : h.Sound) (hkind : header.kind = id.objectKind)
    (hsize : payload.size = header.payloadWords)
    (harenas : h'.arenas = (h.arenas.append id (objectWords header payload)).2)
    (hc : h'.Holds c x) (hnew : ¬h.arenas.Sane c.object) : x.raw ∈ payload := by
  have hloc := sound.address_of_append hkind hsize harenas hc hnew
  obtain ⟨loc, found, hloc', -, -, -, hword⟩ := slot_eq_ok hc.slot
  obtain rfl := Option.some.inj (hloc.symm.trans hloc')
  rw [harenas, Arenas.word_eq_ok_iff, Nat.add_assoc] at hword
  have hput : (objectWords header payload)[headerWords + c.index]? = some x.raw :=
    (Arenas.getElem?_append_right _).symm.trans hword
  have hindex : payload[c.index]? = some x.raw := by
    simpa [objectWords, Array.getElem?_append, headerWords, Nat.add_comm] using hput
  exact Array.mem_of_getElem? hindex

end Appending

theorem Whole.allocate_preserves {F : Value → Prop} (whole : h.Whole) (id : ArenaId) {isa : Value}
    (hisa : h.arenas.Sane isa) (size : UInt32) {fill : Array UInt64 → Array UInt64}
    {payload : Array UInt64} (hfill : ∀ s, fill s = s ++ payload)
    (hsize : ∀ hash, payload.size = (Header.mk isa id.objectKind hash size).payloadWords)
    (zeros : id = .pointers → ∀ w ∈ payload, w = 0) (hF : id = .pointers → F isa) :
    h.Preserved F (Heap.allocate id isa id.objectKind size fill h) := by
  have hallots := whole.allots id hisa size hfill hsize zeros
  rcases h.allocate_cases id isa id.objectKind size hfill with herr | ⟨-, hok⟩
  · rw [herr] at hallots ⊢
    exact ⟨⟨hallots.1.header, fun hs => hs, rfl⟩, ⟨fun hc hnew => absurd hc.sane hnew⟩⟩
  · rw [hok] at hallots ⊢
    refine ⟨⟨hallots.1.header, fun hs => ?_, rfl⟩,
      whole.sound.instantiates_append hallots.1.whole rfl (hsize _) rfl hF⟩
    cases id with
    | pointers => exact hs.grow #[] (by rw [Array.append_empty]; rfl)
    | leaf => exact hs.grow _ rfl

theorem Whole.allots_pointers (whole : h.Whole) {isa : Value} (hisa : h.arenas.Sane isa)
    (count : Nat) : h.Allots (allocatePointers isa count h) := by
  apply whole.allots .pointers hisa _ (fun s => pushZeros_eq s _)
  · exact fun _ => Array.size_replicate
  · exact fun _ _ hw => (Array.mem_replicate.mp hw).2

/-- Nothing there was is different, and the cells of new objects hold what they may. -/
structure Introduces (N : Licence) (h h' : Heap) : Prop extends Extends (fun _ => False) h h' where
  introduced : ∀ {c x}, h'.Holds c x → ¬h.arenas.Sane c.object → N c x

section Introducing

variable {N N' : Licence} {c : Cell} {x : Value}

theorem Extends.holds (he : Extends written h h') (whole : h.Whole) (hc : h'.Holds c x)
    (hsane : h.arenas.Sane c.object) : ∃ y, h.Holds c y := by
  obtain ⟨loc, header, hloc, hh, hkind, hindex, -⟩ := slot_eq_ok hc.slot
  have hsame := he.header hsane
  simp only [Heap.header, locate, hloc, bind, Except.bind] at hsame
  obtain ⟨y, hy⟩ :=
    whole.sound.exists_slot hloc (hsane.allocated hloc) (hsame.symm.trans hh) hkind hindex
  exact ⟨y, hsane, hy⟩

/-- A cell that was not written to holds what it held. -/
theorem Extends.holds_of_kept (he : Extends written h h') (whole : h.Whole) (hc : h'.Holds c x)
    (hsane : h.arenas.Sane c.object) (hkept : ¬written c) : h.Holds c x := by
  obtain ⟨y, hy⟩ := he.holds whole hc hsane
  exact (he.kept hkept hy).unique hc ▸ hy

theorem Introduces.refl (whole : h.Whole) : Introduces N h h :=
  ⟨.refl whole, fun hc hnew => absurd hc.sane hnew⟩

theorem Introduces.mono (hi : Introduces N h h') (hN : ∀ c x, N c x → N' c x) :
    Introduces N' h h' := ⟨hi.toExtends, fun hc hnew => hN _ _ (hi.introduced hc hnew)⟩

theorem Introduces.trans (hi : Introduces N h h') (hi' : Introduces N h' h'') :
    Introduces N h h'' := by
  refine ⟨hi.toExtends.trans hi'.toExtends, fun {c x} hc hnew => ?_⟩
  by_cases hsane : h'.arenas.Sane c.object
  · exact hi.introduced (hi'.holds_of_kept hi.whole hc hsane not_false) hnew
  · exact hi'.introduced hc hsane

/-- A new object may be written to. -/
theorem Introduces.rewrites (hi : Introduces N h h') (hnew : ¬h.arenas.Sane c.object)
    (hr : Rewrites h' h'' c x) (hN : ∀ k y, N ⟨c.object, k⟩ y) : Introduces N h h'' := by
  have hother : ∀ {d : Cell}, h.arenas.Sane d.object → d ≠ c := fun hsane heq =>
    hnew (heq ▸ hsane)
  refine ⟨⟨hr.whole, hi.grows.trans hr.grows, fun _ hd => ?_, fun hv =>
    (hr.header (hi.grows _ hv)).trans (hi.header hv)⟩, fun {d y} hd hfresh => ?_⟩
  · exact hr.others (hother hd.sane) (hi.kept not_false hd)
  · by_cases hobject : d.object = c.object
    · exact (hobject ▸ hN d.index y : N ⟨d.object, d.index⟩ y)
    · obtain ⟨z, hz⟩ := hr.cells hd
      have hsame := (hr.others (fun heq => hobject (congrArg Cell.object heq)) hz).unique hd
      exact hi.introduced (hsame ▸ hz) hfresh

/-- What an allocation comes to: a new object whose slots hold nil, or no object at all. -/
theorem Whole.allocatePointers_meets (whole : h.Whole) {isa : Value} (hisa : h.arenas.Sane isa)
    (count : Nat) : Action.Meets
      (fun v h' => h.Introduces (fun c x => c.object = v ∧ x = .nil) h' ∧
        h.Instantiates (· = isa) h' ∧ h'.arenas.Sane v ∧ ¬h.arenas.Sane v)
      (h.Introduces fun _ _ => False) (allocatePointers isa count h) := by
  have hallots := whole.allots_pointers hisa count
  have hzeros : ∀ s, pushZeros s count.toUInt32.toNat = s ++ _ := fun s => pushZeros_eq s _
  have hpreserved := whole.allocate_preserves (F := (· = isa)) .pointers hisa count.toUInt32 hzeros
    (fun _ => Array.size_replicate) (fun _ _ hw => (Array.mem_replicate.mp hw).2) fun _ => rfl
  rw [allocatePointers] at hallots ⊢
  rcases h.allocate_cases .pointers isa .pointers count.toUInt32 hzeros with herr | ⟨-, hok⟩
  · rw [herr] at hallots ⊢
    exact ⟨hallots.1, fun hc hnew => hnew hc.sane⟩
  · rw [ArenaId.objectKind, hok] at hpreserved
    rw [hok] at hallots ⊢
    refine ⟨⟨hallots.1, fun hc hnew => ⟨?_, ?_⟩⟩, hpreserved.2, hallots.2⟩
    · have haddress := whole.sound.address_of_append (show _ = ArenaId.pointers.objectKind from rfl)
        Array.size_replicate rfl hc hnew
      exact (Value.ofAddress_of_address? haddress).symm
    · have hmem := whole.sound.mem_of_append (show _ = ArenaId.pointers.objectKind from rfl)
        Array.size_replicate rfl hc hnew
      exact congrArg Value.mk (Array.mem_replicate.mp hmem).2

end Introducing

/-- Bytes that are too many are a broken rule; otherwise nothing changes but that they are there. -/
theorem Whole.allocateBytes_ends (whole : h.Whole) {isa : Value} (hisa : h.arenas.Sane isa)
    (content : Array UInt8) :
    Action.Ends (Extends (fun _ => False) h) (allocateBytes isa content h) := by
  have hallots := whole.allots .leaf hisa content.size.toUInt32
    (fun s => pushPacked_eq content s 0 ((content.size.toUInt32.toNat + 7) / 8))
    (fun _ => by simp [Header.payloadWords, ArenaId.objectKind]) nofun
  rw [allocateBytes]
  apply Action.Ends.bind
  · intro cause h' heq
    rw [ArenaId.objectKind, heq] at hallots
    exact hallots.1
  · intro v h' heq
    rw [ArenaId.objectKind, heq] at hallots
    split
    · exact hallots.1
    · trivial

end Heap

end ObjectMachine
