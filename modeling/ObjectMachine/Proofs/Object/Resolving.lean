import ObjectMachine.Proofs.Memory.Retention

namespace ObjectMachine

section Walks

variable {α : Type} {step : α → α → Prop} {v w e e' : α} {vs vs' : List α}

/-- Steps from a place to another, with the places that were left on the way. -/
inductive Walks (step : α → α → Prop) : α → List α → α → Prop where
  | done {v : α} : Walks step v [] v
  | next {v w e : α} {vs : List α} : step v w → Walks step w vs e → Walks step v (v :: vs) e

namespace Walks

theorem stepped (hw : Walks step v vs e) : ∀ u ∈ vs, ∃ w, step u w := by
  induction hw with
  | done => exact nofun
  | next hstep _ ih => exact List.forall_mem_cons.mpr ⟨⟨_, hstep⟩, ih⟩

/-- There is one way to a place that steps do not lead on from. -/
theorem unique (hw : Walks step v vs e) (hw' : Walks step v vs' e')
    (functional : ∀ {v w w'}, step v w → step v w' → w = w') (hend : ∀ u, ¬step e u)
    (hend' : ∀ u, ¬step e' u) : vs = vs' := by
  induction hw generalizing vs' with
  | done =>
    cases hw' with
    | done => rfl
    | next hstep _ => exact absurd hstep (hend _)
  | next hstep _ ih =>
    cases hw' with
    | done => exact absurd hstep (hend' _)
    | next hstep' hrest =>
      obtain rfl := functional hstep hstep'
      rw [ih hrest hend]

theorem suffix (hw : Walks step v vs e) (hmem : w ∈ vs) :
    ∃ vs', Walks step w vs' e ∧ vs'.length ≤ vs.length := by
  induction hw with
  | done => cases hmem
  | next hstep hrest ih =>
    rcases List.mem_cons.mp hmem with rfl | hmem
    · exact ⟨_, .next hstep hrest, Nat.le_refl _⟩
    · obtain ⟨vs', hw', hlength⟩ := ih hmem
      exact ⟨vs', hw', Nat.le_succ_of_le hlength⟩

theorem nodup (hw : Walks step v vs e)
    (functional : ∀ {v w w'}, step v w → step v w' → w = w') (hend : ∀ u, ¬step e u) :
    vs.Nodup := by
  induction hw with
  | done => exact .nil
  | @next v w e vs hstep hrest ih =>
    refine List.nodup_cons.mpr ⟨fun hmem => ?_, ih hend⟩
    -- Who comes by the same place again never arrives.
    obtain ⟨vs', hw', hlength⟩ := hrest.suffix hmem
    have hsame := unique (.next hstep hrest) hw' functional hend hend
    rw [← hsame, List.length_cons] at hlength
    omega

/-- No end is reached from what leads to itself alone. -/
theorem not_of_cycle (honly : ∀ w, step v w → w = v) (hne : v ≠ e) : ¬Walks step v vs e := by
  intro hwalks
  generalize hv : v = u at hwalks
  induction hwalks with
  | done => exact hne hv
  | next h _ ih =>
    subst hv
    exact ih hne (honly _ h).symm

end Walks

end Walks

/-- A walk whose steps leave objects with slots is no longer than there are objects. -/
theorem Walks.length_lt {h : Heap} {step : Value → Value → Prop} {v e : Value} {vs : List Value}
    (hw : Walks step v vs e) (whole : h.Whole)
    (functional : ∀ {v w w'}, step v w → step v w' → w = w') (hend : ∀ u, ¬step e u)
    (hcells : ∀ {u w}, step u w → ∃ i x, h.Holds ⟨u, i⟩ x) : vs.length < h.chainBound + 1 := by
  refine Nat.lt_succ_of_le (whole.length_le_used (hw.nodup functional hend) fun u hu => ?_)
  obtain ⟨w, hstep⟩ := hw.stepped u hu
  exact hcells hstep

namespace Heap

variable {written : Cell → Prop} {t : Track} {h h' : Heap} {idle : Value → Prop}
  {v v' d d' e link cls cls' selector selector' method key key' : Value} {vs : List Value}
  {fuel : Nat} {found : Option Value}

def Passes (h : Heap) (key link next : Value) : Prop :=
  ∃ k, h.Holds ⟨link, Slot.Link.key⟩ k ∧ k ≠ key ∧ h.Holds ⟨link, Slot.Link.next⟩ next

/-- Where a walk through links ends: nowhere, or at the link that holds the key. -/
def Arrives (h : Heap) (key link : Value) : Option Value → Prop
  | none => link = .nil
  | some found => link = found ∧ h.Holds ⟨link, Slot.Link.key⟩ key

theorem Passes.functional {next next' : Value} (hp : h.Passes key link next)
    (hp' : h.Passes key link next') : next = next' := by
  obtain ⟨-, -, -, hnext⟩ := hp
  obtain ⟨-, -, -, hnext'⟩ := hp'
  exact hnext.unique hnext'

theorem Arrives.not_passes (ha : h.Arrives key link found) (next : Value) :
    ¬h.Passes key link next := by
  rintro ⟨k, hk, hne, -⟩
  cases found with
  | none =>
    obtain rfl : link = .nil := ha
    exact hk.not_isNil rfl
  | some found => exact hne (hk.unique ha.2)

theorem walks_of_linkFrom (whole : h.Whole) (hv : h.arenas.Sane v)
    (heq : h.linkFrom key fuel v = .ok found) :
    ∃ vs e, Walks (h.Passes key) v vs e ∧ h.Arrives key e found := by
  induction fuel generalizing v with
  | zero => cases heq
  | succ fuel ih =>
    rw [linkFrom] at heq
    split at heq
    · rename_i hnil
      cases heq
      exact ⟨[], v, .done, Value.eq_nil_of_isNil hnil⟩
    · obtain ⟨k, hk, heq⟩ := except_bind_eq_ok.mp heq
      split at heq
      · rename_i hsame
        cases heq
        exact ⟨[], v, .done, rfl, hv, hsame ▸ hk⟩
      · rename_i hne
        obtain ⟨next, hnext, heq⟩ := except_bind_eq_ok.mp heq
        obtain ⟨vs, e, hwalks, hend⟩ := ih (whole.slot hv hnext) heq
        exact ⟨v :: vs, e, .next ⟨k, ⟨hv, hk⟩, hne, hv, hnext⟩ hwalks, hend⟩

theorem linkFrom_of_walks (hw : Walks (h.Passes key) v vs e) (ha : h.Arrives key e found)
    (hfuel : vs.length < fuel) : h.linkFrom key fuel v = .ok found := by
  induction hw generalizing fuel with
  | @done v =>
    obtain ⟨fuel, rfl⟩ := Nat.exists_eq_add_of_lt hfuel
    cases found with
    | none =>
      obtain rfl : v = .nil := ha
      rfl
    | some found =>
      obtain ⟨rfl, hkey⟩ := ha
      rw [linkFrom, if_neg hkey.not_isNil, hkey.slot]
      exact if_pos rfl
  | next hstep _ ih =>
    obtain ⟨k, hk, hne, hnext⟩ := hstep
    obtain ⟨fuel, rfl⟩ := Nat.exists_eq_add_of_lt hfuel
    rw [linkFrom, if_neg hk.not_isNil, hk.slot]
    simp only [bind, Except.bind, if_neg hne, hnext.slot]
    exact ih ha (by simp only [List.length_cons]; omega)

/-- No link, dictionary or class is read at a cell that may have been written to. -/
theorem Retains.passes (hr : Retains written t h h') (hlow : ∀ v i, i < 3 → ¬written ⟨v, i⟩)
    (hw : Walks (h.Passes key) v vs e) (hv : t v v') (hkey : t key key') :
    ∃ vs' e', Walks (h'.Passes key') v' vs' e' ∧ t e e' := by
  induction hw generalizing v' with
  | done => exact ⟨[], v', .done, hv⟩
  | next hstep _ ih =>
    obtain ⟨k, hk, hne, hnext⟩ := hstep
    obtain ⟨k', hk', hkk⟩ := hr.kept hv hk (hlow _ _ (by decide))
    obtain ⟨n', hn', hnn⟩ := hr.kept hv hnext (hlow _ _ (by decide))
    obtain ⟨vs', e', hw', he⟩ := ih hnn
    refine ⟨v' :: vs', e', .next ⟨k', hk', fun heq => hne ?_, hn'⟩ hw', he⟩
    exact hr.injective hkk (heq ▸ hkey)

theorem Retains.arrives (hr : Retains written t h h') (hlow : ∀ v i, i < 3 → ¬written ⟨v, i⟩)
    {e' : Value} (ha : h.Arrives key e found) (he : t e e') (hkey : t key key') :
    ∃ found', h'.Arrives key' e' found' ∧ Option.Rel t found found' := by
  cases found with
  | none =>
    obtain rfl : e = .nil := ha
    exact ⟨none, hr.eq_of_plain he rfl, .none⟩
  | some found =>
    obtain ⟨rfl, hheld⟩ := ha
    obtain ⟨k', hk', hkk⟩ := hr.kept he hheld (hlow _ _ (by decide))
    obtain rfl := hr.unique hkey hkk
    exact ⟨some e', ⟨rfl, hk'⟩, .some he⟩

theorem Retains.dictionaryAt (hr : Retains written t h h') (whole : h.Whole)
    (hlow : ∀ v i, i < 3 → ¬written ⟨v, i⟩) (hd : t d d') (hidle : ∀ i, ¬written ⟨d, i⟩)
    (hkey : t key key') (heq : h.dictionaryAt d key = .ok found) :
    ∃ found', h'.dictionaryAt d' key' = .ok found' ∧ Option.Rel t found found' := by
  obtain ⟨link, hlink, heq⟩ := except_bind_eq_ok.mp heq
  obtain ⟨bucket, hbucket, hlink⟩ := except_bind_eq_ok.mp hlink
  obtain ⟨n, hsize, hbucket⟩ := except_bind_eq_ok.mp hbucket
  obtain ⟨hash, hhash, hbucket⟩ := except_bind_eq_ok.mp hbucket
  obtain ⟨head, hhead, hfrom⟩ := except_bind_eq_ok.mp hlink
  have hsane := (hr.sane hd).1
  obtain ⟨vs, e, hwalks, hend⟩ := walks_of_linkFrom whole (whole.slot hsane hhead) hfrom
  obtain ⟨head', hhead', hhh⟩ := hr.kept hd ⟨hsane, hhead⟩ (hidle _)
  obtain ⟨vs', e', hwalks', he⟩ := hr.passes hlow hwalks hhh hkey
  obtain ⟨link', hend', hll⟩ := hr.arrives hlow hend he hkey
  have hfrom' := linkFrom_of_walks hwalks' hend' (hwalks'.length_lt hr.whole Passes.functional
    hend'.not_passes fun ⟨_, hk, _⟩ => ⟨_, _, hk⟩)
  have hlink' : h'.dictionaryLink d' key' = .ok link' := by
    simp only [dictionaryLink, bucketSlot, hr.size hd hsize, hr.identityHash hkey hhash, bind,
      Except.bind, pure, Except.pure] at hbucket ⊢
    split at hbucket
    · cases hbucket
    · rename_i hsome
      obtain rfl := Except.ok.inj hbucket
      simp only [if_neg hsome, hhead'.slot]
      exact hfrom'
  simp only [Heap.dictionaryAt, hlink', bind, Except.bind]
  cases hll with
  | none =>
    cases heq
    exact ⟨none, rfl, .none⟩
  | some hll =>
    obtain ⟨x, hx, heq⟩ := except_bind_eq_ok.mp heq
    cases heq
    obtain ⟨x', hx', hxx⟩ := hr.kept hll ⟨(hr.sane hll).1, hx⟩ (hlow _ _ (by decide))
    have hread : h'.slot _ Slot.Link.value = .ok x' := hx'.slot
    simp only [hread]
    exact ⟨some x', rfl, .some hxx⟩

def Lacks (h : Heap) (idle : Value → Prop) (selector cls above : Value) : Prop :=
  ∃ d, h.Holds ⟨cls, Slot.Class.methods⟩ d ∧
    (d.isNil ∨ idle d ∧ h.dictionaryAt d selector = .ok none) ∧
    h.Holds ⟨cls, Slot.Class.superclass⟩ above

def Defines (h : Heap) (idle : Value → Prop) (selector cls method : Value) : Prop :=
  ∃ d, h.Holds ⟨cls, Slot.Class.methods⟩ d ∧ ¬d.isNil ∧ idle d ∧
    h.dictionaryAt d selector = .ok (some method)

/-- A class or the nearest one above it that has one has a method for a selector, and the
dictionaries on the way are out of use otherwise. -/
def Finds (h : Heap) (idle : Value → Prop) (selector cls method : Value) : Prop :=
  ∃ classes owner, Walks (h.Lacks idle selector) cls classes owner ∧
    h.Defines idle selector owner method

theorem Lacks.functional {above above' : Value} (hl : h.Lacks idle selector cls above)
    (hl' : h.Lacks idle selector cls above') : above = above' := by
  obtain ⟨-, -, -, habove⟩ := hl
  obtain ⟨-, -, -, habove'⟩ := hl'
  exact habove.unique habove'

theorem Defines.not_lacks (hd : h.Defines idle selector cls method) (above : Value) :
    ¬h.Lacks idle selector cls above := by
  rintro ⟨d, hheld, hnone, -⟩
  obtain ⟨d', hheld', hnil, -, hsome⟩ := hd
  obtain rfl := hheld.unique hheld'
  rcases hnone with hnil' | ⟨-, hnone⟩
  · exact hnil hnil'
  · cases hnone.symm.trans hsome

theorem lookupFrom_of_walks {owner : Value} {classes : List Value}
    (hw : Walks (h.Lacks idle selector) cls classes owner)
    (hd : h.Defines idle selector owner method) (hfuel : classes.length < fuel) :
    h.lookupFrom selector fuel cls = .ok (some (method, owner)) := by
  induction hw generalizing fuel with
  | done =>
    obtain ⟨fuel, rfl⟩ := Nat.exists_eq_add_of_lt hfuel
    obtain ⟨d, hheld, hnil, -, hsome⟩ := hd
    rw [lookupFrom, if_neg hheld.not_isNil, hheld.slot]
    simp only [bind, Except.bind, if_neg hnil, hsome]
    rfl
  | next hstep _ ih =>
    obtain ⟨d, hheld, hnone, habove⟩ := hstep
    obtain ⟨fuel, rfl⟩ := Nat.exists_eq_add_of_lt hfuel
    have hsup : h.superclass _ = .ok _ := habove.slot
    have hrest := ih hd (Nat.lt_add_right fuel (Nat.lt_succ_self _))
    rw [List.length_cons, lookupFrom, if_neg hheld.not_isNil, hheld.slot]
    by_cases hnil : d.isNil
    · simp only [bind, Except.bind, if_pos hnil, pure, Except.pure, hsup]
      exact hrest
    · obtain ⟨-, hnone⟩ := hnone.resolve_left hnil
      simp only [bind, Except.bind, if_neg hnil, hnone, hsup]
      exact hrest

theorem Finds.lookup (hf : h.Finds idle selector cls method) (whole : h.Whole) :
    ∃ owner, h.lookup cls selector = .ok (some (method, owner)) := by
  obtain ⟨classes, owner, hw, hd⟩ := hf
  exact ⟨owner, lookupFrom_of_walks hw hd
    (hw.length_lt whole Lacks.functional hd.not_lacks fun ⟨_, hheld, _⟩ => ⟨_, _, hheld⟩)⟩

/-- What a class finds for a selector, it finds again. -/
theorem Retains.finds {idle' : Value → Prop} (hr : Retains written t h h') (whole : h.Whole)
    (hlow : ∀ v i, i < 3 → ¬written ⟨v, i⟩) (hwritten : ∀ d, idle d → ∀ i, ¬written ⟨d, i⟩)
    (hidle : ∀ d d', t d d' → idle d → idle' d') (hcls : t cls cls')
    (hselector : t selector selector') (hf : h.Finds idle selector cls method) :
    ∃ method', h'.Finds idle' selector' cls' method' ∧ t method method' := by
  obtain ⟨classes, owner, hw, hd⟩ := hf
  induction hw generalizing cls' with
  | done =>
    obtain ⟨d, hheld, hnil, hmine, hsome⟩ := hd
    obtain ⟨d', hheld', hdd⟩ := hr.kept hcls hheld (hlow _ _ (by decide))
    obtain ⟨found', hfound, hff⟩ :=
      hr.dictionaryAt whole hlow hdd (hwritten d hmine) hselector hsome
    cases hff with
    | some hmm =>
      refine ⟨_, ⟨[], cls', .done, d', hheld', ?_, hidle _ _ hdd hmine, hfound⟩, hmm⟩
      rwa [hr.isNil hdd]
  | next hstep _ ih =>
    obtain ⟨d, hheld, hnone, habove⟩ := hstep
    obtain ⟨d', hheld', hdd⟩ := hr.kept hcls hheld (hlow _ _ (by decide))
    obtain ⟨above', habove', haa⟩ := hr.kept hcls habove (hlow _ _ (by decide))
    obtain ⟨method', ⟨classes', owner', hw', hd'⟩, hmm⟩ := ih haa hd
    refine ⟨method', ⟨_, owner', .next ⟨d', hheld', ?_, habove'⟩ hw', hd'⟩, hmm⟩
    rcases hnone with hnil | ⟨hmine, hnone⟩
    · exact .inl ((hr.isNil hdd).trans hnil)
    · obtain ⟨found', hfound, hff⟩ :=
        hr.dictionaryAt whole hlow hdd (hwritten d hmine) hselector hnone
      cases hff with
      | none => exact .inr ⟨hidle _ _ hdd hmine, hfound⟩

end Heap

end ObjectMachine
