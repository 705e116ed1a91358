import ObjectMachine.Proofs.Memory.Collection
import ObjectMachine.Proofs.Memory.Evolution

namespace ObjectMachine

abbrev Track := Value → Value → Prop

def Track.collected (a : Arenas) (roots : List Value) (f : Address → Address) : Track :=
  fun v x => x = v.relocate f ∧ ∀ loc, v.address? = some loc → a.Reachable roots loc

namespace Heap

/-- One memory came out of another, in which values became what a track says. -/
structure Follows (W : Licence) (t : Track) (h h' : Heap) : Prop where
  unique : ∀ {v x y}, t v x → t v y → x = y
  injective : ∀ {v w x}, h.arenas.Sane v → h.arenas.Sane w → t v x → t w x → v = w
  plain : ∀ {v}, v.address? = none → t v v
  sane : ∀ {v x}, h.arenas.Sane v → t v x → h'.arenas.Sane x
  holds : ∀ {v x y i}, t v x → h.Holds ⟨v, i⟩ y →
    ∃ z, h'.Holds ⟨x, i⟩ z ∧ (t y z ∨ W ⟨x, i⟩ z)

variable {W W' : Licence} {t : Track} {h h' h'' : Heap}

theorem Evolves.follows (he : Evolves W h h') (hg : Grows h h') : Follows W Eq h h' where
  unique := by rintro v x y rfl rfl; rfl
  injective := by rintro v w x - - rfl rfl; rfl
  plain _ := rfl
  sane := by
    rintro v x hv rfl
    exact hg v hv
  holds := by
    rintro v x y i rfl hy
    obtain ⟨z, hz, hsame⟩ := he _ y hy
    exact ⟨z, hz, hsame.imp_left Eq.symm⟩

/-- A value that cannot be an object has become itself. -/
theorem Follows.eq_of_plain (hf : Follows W t h h') {v x : Value} (hv : v.address? = none)
    (hx : t v x) : x = v := hf.unique hx (hf.plain hv)

/-- A cell that nothing was written to. -/
theorem Follows.kept (hf : Follows W t h h') {v x y : Value} {i : Nat} (hx : t v x)
    (hy : h.Holds ⟨v, i⟩ y) (hW : ∀ z, ¬W ⟨x, i⟩ z) : ∃ z, h'.Holds ⟨x, i⟩ z ∧ t y z := by
  obtain ⟨z, hz, hsame | hwritten⟩ := hf.holds hx hy
  · exact ⟨z, hz, hsame⟩
  · exact absurd hwritten (hW z)

theorem Follows.mono (hf : Follows W t h h') (hW : ∀ c x, W c x → W' c x) : Follows W' t h h' where
  unique := hf.unique
  injective := hf.injective
  plain := hf.plain
  sane := hf.sane
  holds hx hy := by
    obtain ⟨z, hz, hsame⟩ := hf.holds hx hy
    exact ⟨z, hz, hsame.imp_right (hW _ _)⟩

/-- What happens after objects moved. -/
theorem Follows.evolves (hf : Follows W t h h') (he : Evolves W h' h'') (hg : Grows h' h'') :
    Follows W t h h'' where
  unique := hf.unique
  injective := hf.injective
  plain := hf.plain
  sane hv hx := hg _ (hf.sane hv hx)
  holds hx hy := by
    obtain ⟨z, hz, hsame⟩ := hf.holds hx hy
    obtain ⟨z', hz', rfl | hwritten⟩ := he _ z hz
    · exact ⟨z', hz', hsame⟩
    · exact ⟨z', hz', .inr hwritten⟩

/-- What happens before objects move. -/
theorem Evolves.follows_of (he : Evolves W' h h') (hg : Grows h h') (hf : Follows W t h' h'')
    (hW : ∀ v x y z i, W' ⟨v, i⟩ y → t v x → t y z → W ⟨x, i⟩ z) : Follows W t h h'' where
  unique := hf.unique
  injective hv hw := hf.injective (hg _ hv) (hg _ hw)
  plain := hf.plain
  sane hv hx := hf.sane (hg _ hv) hx
  holds := by
    intro v x y i hx hy
    obtain ⟨y', hy', hsame⟩ := he _ y hy
    obtain ⟨z, hz, hmoved | hwritten⟩ := hf.holds hx hy'
    · refine ⟨z, hz, ?_⟩
      rcases hsame with rfl | hwritten
      · exact .inl hmoved
      · exact .inr (hW v x y' z i hwritten hx hmoved)
    · exact ⟨z, hz, .inr hwritten⟩

/-- A collection writes to no cell. -/
theorem Moved.follows {roots : List Value} {f : Address → Address} (moved : Moved h h' roots f)
    (sound : h'.Sound) : Follows W (.collected h.arenas roots f) h h' where
  unique := by
    rintro v x y ⟨rfl, -⟩ ⟨rfl, -⟩
    rfl
  injective := by
    rintro v w x hv hw ⟨rfl, hreach⟩ ⟨heq, hreach'⟩
    -- An object keeps an address, and what has none stays as it is.
    have haddress : ∀ {u : Value} {loc : Address}, u.address? = some loc →
        h.arenas.Reachable roots loc → (u.relocate f).address? = some (f loc) := by
      intro u loc hu hr
      have hbounds := sound.bounds (moved.bijective.mapsTo hr)
      rw [Value.relocate, hu]
      exact Value.address?_ofAddress hbounds.1 hbounds.2
    cases hv' : v.address? with
    | none =>
      cases hw' : w.address? with
      | none => rwa [Value.relocate, hv', Value.relocate, hw'] at heq
      | some loc =>
        have := haddress hw' (hreach' loc hw')
        rw [← heq, Value.relocate, hv'] at this
        cases hv'.symm.trans this
    | some loc =>
      cases hw' : w.address? with
      | none =>
        have := haddress hv' (hreach loc hv')
        rw [heq, Value.relocate, hw'] at this
        cases hw'.symm.trans this
      | some loc' =>
        by_contra hne
        exact moved.relocate_ne sound hv' hw' (hreach loc hv') (hreach' loc' hw') hne heq
  plain := by
    intro v hv
    refine ⟨?_, fun loc hloc => by cases hv.symm.trans hloc⟩
    rw [Value.relocate, hv]
  sane := by
    rintro v x hv ⟨rfl, hreach⟩
    rcases hv with hnil | hint | ⟨loc, hloc, -⟩
    · have : v.address? = none := by simp [Value.address?, Value.isReference, beq_iff_eq.mp hnil]
      exact .inl (by rwa [Value.relocate, this])
    · have : v.address? = none := by simp [Value.address?, Value.isReference, beq_iff_eq.mp hint]
      exact .inr (.inl (by rwa [Value.relocate, this]))
    · have hl := moved.bijective.mapsTo (hreach loc hloc)
      have hbounds := sound.bounds hl
      refine .inr (.inr ⟨f loc, ?_, hl⟩)
      rw [Value.relocate, hloc]
      exact Value.address?_ofAddress hbounds.1 hbounds.2
  holds := by
    rintro v x y i ⟨rfl, hreach⟩ hy
    obtain ⟨loc, hloc, -, hrefers⟩ := hy.refers
    refine ⟨_, moved.holds sound hy hloc (hreach loc hloc), .inl ⟨rfl, fun target htarget => ?_⟩⟩
    exact .held (hreach loc hloc) hrefers htarget

section Taken

variable {roots : List Value} {f : Address → Address} {v x : Value}

def Taken (h : Heap) (roots : List Value) (v : Value) : Prop :=
  h.arenas.Sane v ∧ ∀ loc, v.address? = some loc → h.arenas.Reachable roots loc

theorem Taken.value (whole : h.Whole) {c : Cell} (hv : h.Taken roots c.object) (hc : h.Holds c x) :
    h.Taken roots x := by
  obtain ⟨loc, hloc, -, hrefers⟩ := hc.refers
  exact ⟨hc.value_sane whole, fun target htarget => .held (hv.2 loc hloc) hrefers htarget⟩

theorem Moved.holds_of_taken (moved : Moved h h' roots f) (sound : h'.Sound) {c : Cell}
    (hv : h.Taken roots c.object) (hc : h.Holds c x) :
    h'.Holds ⟨c.object.relocate f, c.index⟩ (x.relocate f) := by
  obtain ⟨loc, hloc, -⟩ := hc.refers
  exact moved.holds sound hc hloc (hv.2 loc hloc)

theorem Moved.injective (moved : Moved h h' roots f) (sound : h'.Sound) (hv : h.Taken roots v)
    (hx : h.Taken roots x) (heq : v.relocate f = x.relocate f) : v = x :=
  (moved.follows sound (W := fun _ _ => False)).injective hv.1 hx.1 ⟨rfl, hv.2⟩ ⟨heq, hx.2⟩

/-- Bytes are copied as they are. -/
theorem Moved.spells (moved : Moved h h' roots f) (sound : h'.Sound) (hv : h.Taken roots v)
    {content : Array UInt8} (hs : h.Spells v content) : h'.Spells (v.relocate f) content := by
  obtain ⟨⟨word, hloc⟩, hbytes⟩ := hs
  have hreach := hv.2 _ hloc
  obtain ⟨hsmall, hpos⟩ := sound.bounds (moved.bijective.mapsTo hreach)
  obtain ⟨content', hold, hnew⟩ := moved.bytes _ hreach rfl
  rw [Value.ofAddress_of_address? hloc, hbytes] at hold
  cases hold
  have harena : (f ⟨.leaf, word⟩).arena = .leaf := moved.arena _ hreach
  rw [Value.relocate, hloc]
  refine ⟨⟨(f ⟨.leaf, word⟩).word, (Value.address?_ofAddress hsmall hpos).trans ?_⟩, hnew⟩
  generalize f ⟨.leaf, word⟩ = new at harena
  cases new
  cases harena
  rfl

end Taken

/-- The roots of a collection are taken along. -/
theorem collected_of_mem {roots : List Value} {f : Address → Address} {v : Value} (hv : v ∈ roots) :
    Track.collected h.arenas roots f v (v.relocate f) := ⟨rfl, fun _ hloc => .root hv hloc⟩

end Heap

end ObjectMachine
