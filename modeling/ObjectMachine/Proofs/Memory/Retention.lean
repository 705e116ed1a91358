import ObjectMachine.Proofs.Image.Additions
import ObjectMachine.Proofs.Object.Filing

namespace ObjectMachine

namespace Track

def still (h : Heap) : Track := fun v x => x = v ∧ h.arenas.Sane v

/-- A collection took along what it could reach. -/
def taken (h : Heap) (roots : List Value) (f : Address → Address) : Track :=
  fun v x => x = v.relocate f ∧ h.Taken roots v

def after (t' t : Track) : Track := fun v x => ∃ u, t v u ∧ t' u x

end Track

namespace Heap

structure Retains (written : Cell → Prop) (t : Track) (h h' : Heap) : Prop where
  whole : h'.Whole
  sane : ∀ {v x}, t v x → h.arenas.Sane v ∧ h'.arenas.Sane x
  unique : ∀ {v x y}, t v x → t v y → x = y
  injective : ∀ {v w x}, t v x → t w x → v = w
  plain : ∀ {v}, v.address? = none → h.arenas.Sane v → t v v
  kept : ∀ {v x y i}, t v x → h.Holds ⟨v, i⟩ y → ¬written ⟨v, i⟩ → ∃ z, h'.Holds ⟨x, i⟩ z ∧ t y z
  size : ∀ {v x n}, t v x → h.size v = .ok n → h'.size x = .ok n
  identityHash : ∀ {v x n}, t v x → h.identityHash v = .ok n → h'.identityHash x = .ok n
  isa : ∀ {v x c}, t v x → h.isa v = .ok c → ∃ d, h'.isa x = .ok d ∧ t c d
  spells : ∀ {v x content}, t v x → h.Spells v content → h'.Spells x content

variable {written written' : Cell → Prop} {t t' : Track} {h h' h'' : Heap} {roots : List Value}
  {f : Address → Address} {v w x y : Value}

theorem Whole.isa_sane (whole : h.Whole) (hv : h.arenas.Sane v) (hisa : h.isa v = .ok x) :
    h.arenas.Sane x := by
  obtain ⟨header, hh, heq⟩ := except_bind_eq_ok.mp hisa
  obtain ⟨loc, hloc, hheader⟩ := header_eq_ok hh
  exact whole.closed loc (hv.allocated hloc) _ ⟨header, hheader, .inl (Except.ok.inj heq).symm⟩

/-- Additions leave everything where it is. -/
theorem Builds.retains (hb : Builds written h h') (whole : h.Whole) :
    Retains written (.still h) h h' where
  whole := hb.whole
  sane := by
    rintro v x ⟨rfl, hv⟩
    exact ⟨hv, hb.grows _ hv⟩
  unique := by
    rintro v x y ⟨rfl, -⟩ ⟨rfl, -⟩
    rfl
  injective := by
    rintro v w x ⟨rfl, -⟩ ⟨rfl, -⟩
    rfl
  plain _ hv := ⟨rfl, hv⟩
  kept := by
    rintro v x y i ⟨rfl, -⟩ hy hw
    exact ⟨y, hb.kept hw hy, rfl, hy.value_sane whole⟩
  size := by
    rintro v x n ⟨rfl, hv⟩ hn
    exact (hb.toExtends.size hv).trans hn
  identityHash := by
    rintro v x n ⟨rfl, hv⟩ hn
    exact (hb.toExtends.identityHash hv).trans hn
  isa := by
    rintro v x c ⟨rfl, hv⟩ hc
    refine ⟨c, ?_, rfl, whole.isa_sane hv hc⟩
    rw [Heap.isa, hb.header hv]
    exact hc
  spells := by
    rintro v x content ⟨rfl, -⟩ hs
    exact hb.spells hs

/-- A collection writes to no cell. -/
theorem Moved.retains (moved : Moved h h' roots f) (whole : h.Whole) (whole' : h'.Whole) :
    Retains (fun _ => False) (.taken h roots f) h h' where
  whole := whole'
  sane := by
    rintro v x ⟨rfl, hv⟩
    exact ⟨hv.1, (moved.follows whole'.sound (W := fun _ _ => False)).sane hv.1 ⟨rfl, hv.2⟩⟩
  unique := by
    rintro v x y ⟨rfl, -⟩ ⟨rfl, -⟩
    rfl
  injective := by
    rintro v w x ⟨rfl, hv⟩ ⟨heq, hw⟩
    exact moved.injective whole'.sound hv hw heq
  plain := by
    intro v hv hsane
    refine ⟨?_, hsane, fun loc hloc => nomatch hv.symm.trans hloc⟩
    rw [Value.relocate, hv]
  kept := by
    rintro v x y i ⟨rfl, hv⟩ hy -
    exact ⟨_, moved.holds_of_taken whole'.sound hv hy, rfl, hv.value whole hy⟩
  size := by
    rintro v x n ⟨rfl, hv⟩ hn
    exact moved.size hv hn
  identityHash := by
    rintro v x n ⟨rfl, hv⟩ hn
    exact (moved.identityHash whole whole'.sound hv).trans hn
  isa := by
    rintro v x c ⟨rfl, hv⟩ hc
    have hsane := whole.isa_sane hv.1 hc
    obtain ⟨header, hh, heq⟩ := except_bind_eq_ok.mp hc
    obtain rfl : header.isa = c := Except.ok.inj heq
    obtain ⟨loc, hloc, hheader⟩ := header_eq_ok hh
    refine ⟨_, except_bind_eq_ok.mpr ⟨_, moved.header_of_taken hv hloc hh, rfl⟩, rfl, hsane, ?_⟩
    exact fun target htarget => .held (hv.2 loc hloc) ⟨header, hheader, .inl rfl⟩ htarget
  spells := by
    rintro v x content ⟨rfl, hv⟩ hs
    exact moved.spells whole'.sound hv hs

namespace Retains

/-- A cell that was written to later was one of those that may have been. -/
theorem after (hr : Retains written t h h') (hr' : Retains written' t' h' h'')
    (hw : ∀ {v x i}, t v x → written' ⟨x, i⟩ → written ⟨v, i⟩) :
    Retains written (t'.after t) h h'' where
  whole := hr'.whole
  sane := by
    rintro v x ⟨u, hu, hx⟩
    exact ⟨(hr.sane hu).1, (hr'.sane hx).2⟩
  unique := by
    rintro v x y ⟨u, hu, hx⟩ ⟨u', hu', hy⟩
    obtain rfl := hr.unique hu hu'
    exact hr'.unique hx hy
  injective := by
    rintro v w x ⟨u, hu, hx⟩ ⟨u', hu', hx'⟩
    obtain rfl := hr'.injective hx hx'
    exact hr.injective hu hu'
  plain hv hsane := ⟨_, hr.plain hv hsane, hr'.plain hv (hr.sane (hr.plain hv hsane)).2⟩
  kept := by
    rintro v x y i ⟨u, hu, hx⟩ hy hnot
    obtain ⟨z, hz, hyz⟩ := hr.kept hu hy hnot
    obtain ⟨z', hz', hzz⟩ := hr'.kept hx hz fun hwritten => hnot (hw hu hwritten)
    exact ⟨z', hz', z, hyz, hzz⟩
  size := by
    rintro v x n ⟨u, hu, hx⟩ hn
    exact hr'.size hx (hr.size hu hn)
  identityHash := by
    rintro v x n ⟨u, hu, hx⟩ hn
    exact hr'.identityHash hx (hr.identityHash hu hn)
  isa := by
    rintro v x c ⟨u, hu, hx⟩ hc
    obtain ⟨d, hd, hcd⟩ := hr.isa hu hc
    obtain ⟨e, he, hde⟩ := hr'.isa hx hd
    exact ⟨e, he, d, hcd, hde⟩
  spells := by
    rintro v x content ⟨u, hu, hx⟩ hs
    exact hr'.spells hx (hr.spells hu hs)

theorem mono {w : Cell → Prop} (hr : Retains written t h h') (hw : ∀ {c}, written c → w c) :
    Retains w t h h' :=
  { hr with kept := fun hx hy hnot => hr.kept hx hy fun hwritten => hnot (hw hwritten) }

/-- A value that is no object has become itself. -/
theorem eq_of_plain (hr : Retains written t h h') (hx : t v x) (hv : v.address? = none) : x = v :=
  hr.unique hx (hr.plain hv (hr.sane hx).1)

/-- Nothing but itself has become a value that is no object. -/
theorem plain_of_plain (hr : Retains written t h h') (hx : t v x) (hplain : x.address? = none)
    (hsane : h.arenas.Sane x) : v = x :=
  hr.injective hx (hr.plain hplain hsane)

theorem isInteger (hr : Retains written t h h') (hx : t v x) : x.isInteger = v.isInteger := by
  have hnone : ∀ {u : Value}, u.isInteger = true → u.address? = none := fun hu => by
    simp [Value.address?, Value.isReference, beq_iff_eq.mp hu]
  rw [Bool.eq_iff_iff]
  constructor
  · intro hint
    rwa [hr.plain_of_plain hx (hnone hint) (.inr (.inl hint))]
  · intro hint
    rwa [hr.eq_of_plain hx (hnone hint)]

theorem isNil (hr : Retains written t h h') (hx : t v x) : x.isNil = v.isNil := by
  have hnone : (Value.nil).address? = none := rfl
  rw [Bool.eq_iff_iff]
  constructor
  · intro hnil
    obtain rfl := Value.eq_nil_of_isNil hnil
    rwa [hr.plain_of_plain hx hnone (Arenas.sane_nil _)]
  · intro hnil
    obtain rfl := Value.eq_nil_of_isNil hnil
    rwa [hr.eq_of_plain hx hnone]

end Retains

end Heap

end ObjectMachine
