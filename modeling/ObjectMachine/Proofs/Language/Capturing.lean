import ObjectMachine.Proofs.Language.Resolution

namespace ObjectMachine

structure Scope.Narrow (s s' : Scope) : Prop where
  parent : s'.parent = s.parent
  heapVars : s'.heapVars = s.heapVars
  slots : ∀ {i : Nat} {v' : Variable} {slot : UInt8}, s'.vars[i]? = some v' →
    v'.heapSlot = some slot → ∃ v, s.vars[i]? = some v ∧ v.heapSlot = some slot

theorem Scope.Narrow.refl (s : Scope) : s.Narrow s := ⟨rfl, rfl, fun hv hk => ⟨_, hv, hk⟩⟩

namespace ScopeTree

variable {t t' t'' : ScopeTree} {id : Nat} {place : Place} {slot : UInt8}

def Keeps (t : ScopeTree) (place : Place) (slot : UInt8) : Prop :=
  ∃ s v, t.scopes[place.owner]? = some s ∧ s.vars[place.index]? = some v ∧ v.heapSlot = some slot

def Unchained (t : ScopeTree) (place : Place) : Prop :=
  ∀ (id i : Nat) (s : Scope) (slot : UInt8), t.scopes[id]? = some s →
    s.parent = some place.owner → s.heapVars[i]? = some (.chained slot) → ¬t.Keeps place slot

theorem keeps_of_holds (coherent : t.Coherent) (h : t.Holds place.owner slot place) :
    t.Keeps place slot := by
  generalize howner : place.owner = id at h
  cases h with
  | promoted hs hv hslot => exact ⟨_, _, hs, hv, hslot⟩
  | chained hs hparent _ hholds =>
    have hle := hholds.owner_le coherent
    have hlt := (coherent hs).parent _ hparent
    omega

/-- A variable that some scope has in a slot is kept in one of its own scope. -/
theorem Holds.exists_keeps (h : t.Holds id slot place) : ∃ k, t.Keeps place k := by
  induction h with
  | promoted hs hv hslot => exact ⟨_, _, _, hs, hv, hslot⟩
  | chained _ _ _ _ ih => exact ih

/-- Only the scope of the variable has it in a slot. -/
theorem Unchained.owner_eq (h : t.Unchained place) (coherent : t.Coherent)
    (hholds : t.Holds id slot place) : id = place.owner := by
  induction hholds with
  | promoted => rfl
  | chained hs hparent hslot hholds ih =>
    obtain rfl := ih h
    exact absurd (keeps_of_holds coherent hholds) (h _ _ _ _ hs hparent hslot)

theorem Unchained.of_narrow (h : t.Unchained place)
    (hscopes : ∀ {id : Nat} {s' : Scope}, t'.scopes[id]? = some s' →
      s' = { kind := s'.kind, parent := s'.parent } ∨
        ∃ s, t.scopes[id]? = some s ∧ s.Narrow s') :
    t'.Unchained place := by
  rintro id i s' slot hs' hparent hslot ⟨so', v', hso', hv', hkept⟩
  rcases hscopes hs' with hempty | ⟨s, hs, hnarrow⟩
  · rw [hempty] at hslot
    simp at hslot
  rcases hscopes hso' with hempty | ⟨so, hso, hnarrow'⟩
  · rw [hempty] at hv'
    simp at hv'
  obtain ⟨v, hv, hkept'⟩ := hnarrow'.slots hv' hkept
  exact h _ _ _ _ hs (hnarrow.parent.symm.trans hparent) (hnarrow.heapVars ▸ hslot)
    ⟨so, v, hso, hv, hkept'⟩

theorem Unchained.modifyScope {s : Scope} {f : Scope → Scope} (h : t.Unchained place)
    (hs : t.scopes[id]? = some s) (hf : s.Narrow (f s)) :
    (t.modifyScope id f).Unchained place := by
  refine h.of_narrow fun {j s'} hs' => .inr ?_
  rw [getElem?_modifyScope] at hs'
  split at hs'
  · rename_i hj
    rw [hs, Option.map_some, Option.some.injEq] at hs'
    subst hs'
    exact ⟨s, hj ▸ hs, hf⟩
  · exact ⟨s', hs', .refl s'⟩

theorem Unchained.veiled {k : Nat} (h : t.Unchained place) (hv : Veiled k t t') :
    t'.Unchained place := by
  refine h.of_narrow fun {j s'} hs' => .inr ?_
  obtain ⟨s, hs, hlike⟩ := hv.symm.alike hs'
  refine ⟨s, hs, hlike.parent.symm, hlike.heapVars.symm, fun hv' hk => ?_⟩
  obtain ⟨v, hv, -, -, -, hslot⟩ := hlike.vars hv'
  exact ⟨v, hv, hslot.trans hk⟩

theorem Unchained.opened {kind : ScopeKind} {parent : Option Nat} (h : t.Unchained place) :
    (t.opened kind parent).Unchained place := by
  refine h.of_narrow fun {j s'} hs' => ?_
  by_cases hj : j < t.scopes.size
  · rw [opened_old hj] at hs'
    exact .inr ⟨s', hs', .refl s'⟩
  · have hlt := (Array.getElem?_eq_some_iff.mp hs').1
    simp only [ScopeTree.opened, Array.size_push] at hlt
    obtain rfl : j = t.scopes.size := by omega
    rw [opened_new, Option.some.injEq] at hs'
    subst hs'
    exact .inl rfl

theorem Unchained.declareAll {first : Nat} {names : List String} {kind : VariableKind} {s : Scope}
    (h : t.Unchained place) (coherent : t.Coherent) (hs : t.scopes[id]? = some s)
    (heq : declareAll id names kind t = .ok first t') : t'.Unchained place := by
  obtain ⟨-, rfl, -⟩ := declareAll_spec coherent hs heq
  have w := s.widened kind names
  refine h.modifyScope hs ⟨w.parent, w.heapVars, fun {i v' slot} hv' hk => ?_⟩
  by_cases hi : i < s.vars.size
  · exact ⟨v', (w.old i hi).symm.trans hv', hk⟩
  · have hlt := (Array.getElem?_eq_some_iff.mp hv').1
    rw [w.size] at hlt
    obtain ⟨v, hv, -, hnone, -⟩ := w.new (i - s.vars.size) _
      (List.getElem?_eq_getElem (by omega : i - s.vars.size < names.length))
    rw [Nat.add_sub_cancel' (by omega), hv', Option.some.injEq] at hv
    rw [hv, hnone] at hk
    cases hk

section Captures

variable {name : String}

/-- A new slot is none that is copied already. -/
theorem Unchained.promote {index : Nat} {s : Scope} {v : Variable} (h : t.Unchained place)
    (coherent : t.Coherent) (hs : t.scopes[id]? = some s) (hv : s.vars[index]? = some v)
    (heq : promote id index t = .ok slot t') : t'.Unchained place := by
  cases hslot : v.heapSlot with
  | some slot' =>
    rw [promote_eq_some hs hv hslot] at heq
    cases heq
    exact h
  | none =>
    obtain ⟨hroom, hnew, rfl⟩ := promote_eq_none hs hv hslot heq
    have hnumber : slot.toNat = s.heapVars.size := by rw [hnew, toNat_size_toUInt8 hroom]
    -- Copies are what they were.
    have hcopies : ∀ {j i : Nat} {s' : Scope} {k : UInt8}, (t.modifyScope id fun s => { s with
        heapVars := s.heapVars.push v.origin
        vars := s.vars.modify index fun v => { v with heapSlot := some slot } }).scopes[j]? =
          some s' → s'.heapVars[i]? = some (.chained k) →
        ∃ s₀, t.scopes[j]? = some s₀ ∧ s₀.parent = s'.parent ∧
          s₀.heapVars[i]? = some (.chained k) := by
      intro j i s' k hs' hk
      rw [getElem?_modifyScope] at hs'
      split at hs'
      · rename_i hj
        rw [hs, Option.map_some, Option.some.injEq] at hs'
        subst hs'
        rw [Array.getElem?_push] at hk
        split at hk
        · exact absurd (Option.some.inj hk) (Variable.origin_ne_chained v k)
        · exact ⟨s, hj ▸ hs, rfl, hk⟩
      · exact ⟨s', hs', rfl, hk⟩
    rintro j i s' k hs' hparent hk ⟨so', v', hso', hv', hkept⟩
    obtain ⟨s₀, hs₀, hparent₀, hk₀⟩ := hcopies hs' hk
    rw [getElem?_modifyScope] at hso'
    split at hso'
    · rename_i howner
      rw [hs, Option.map_some, Option.some.injEq] at hso'
      subst hso'
      rw [Array.getElem?_modify] at hv'
      split at hv'
      · rename_i hindex
        rw [← hindex, hv] at hv'
        cases hv'
        obtain rfl := Option.some.inj hkept
        obtain ⟨p, sp, hp, hsp, hlt⟩ := (coherent hs₀).chained hk₀
        rw [hparent₀, hparent, Option.some.injEq] at hp
        rw [← hp, howner, hs, Option.some.injEq] at hsp
        subst hsp
        omega
      · exact h _ _ _ _ hs₀ (hparent₀.trans hparent) hk₀ ⟨s, v', howner ▸ hs, hv', hkept⟩
    · exact h _ _ _ _ hs₀ (hparent₀.trans hparent) hk₀ ⟨so', v', hso', hv', hkept⟩

theorem Unchained.pushChained {s : Scope} {parent : Nat} {parentSlot : UInt8} {place' : Place}
    (h : t.Unchained place) (coherent : t.Coherent) (hs : t.scopes[id]? = some s)
    (hparent : s.parent = some parent) (hholds : t.Holds parent parentSlot place')
    (hother : place' ≠ place) (heq : pushHeapVar id (.chained parentSlot) t = .ok slot t') :
    t'.Unchained place := by
  obtain ⟨-, -, rfl⟩ := pushHeapVar_eq_ok hs heq
  have hvars : ∀ {j : Nat} {s' : Scope}, (t.modifyScope id fun s =>
      { s with heapVars := s.heapVars.push (.chained parentSlot) }).scopes[j]? = some s' →
      ∃ s₀, t.scopes[j]? = some s₀ ∧ s₀.vars = s'.vars ∧ s₀.parent = s'.parent ∧
        (s'.heapVars = s₀.heapVars ∨
          j = id ∧ s'.heapVars = s₀.heapVars.push (.chained parentSlot)) := by
    intro j s' hs'
    rw [getElem?_modifyScope] at hs'
    split at hs'
    · rename_i hj
      rw [hs, Option.map_some, Option.some.injEq] at hs'
      subst hs'
      exact ⟨s, hj ▸ hs, rfl, rfl, .inr ⟨hj, rfl⟩⟩
    · exact ⟨s', hs', rfl, rfl, .inl rfl⟩
  rintro j i s' k hs' hparent' hk ⟨so', v', hso', hv', hkept⟩
  obtain ⟨s₀, hs₀, -, hparent₀, hheapVars⟩ := hvars hs'
  obtain ⟨so, hso, hvars', -, -⟩ := hvars hso'
  have hkeeps : t.Keeps place k := ⟨so, v', hso, hvars' ▸ hv', hkept⟩
  rcases hheapVars with hsame | ⟨rfl, hpushed⟩
  · exact h _ _ _ _ hs₀ (hparent₀.trans hparent') (hsame ▸ hk) hkeeps
  · rw [hpushed, Array.getElem?_push] at hk
    split at hk
    · -- The slot would hold two variables.
      obtain rfl := Origin.chained.inj (Option.some.inj hk)
      obtain rfl := Option.some.inj (hs.symm.trans hs₀)
      rw [hparent₀, hparent', Option.some.injEq] at hparent
      subst hparent
      exact hother (hholds.place_unique coherent (.promoted hso (hvars' ▸ hv') hkept))
    · exact h _ _ _ _ hs₀ (hparent₀.trans hparent') hk hkeeps

/-- The slot of a variable is copied only when a block asks for it that is not right inside its
scope. -/
theorem Unchained.capture {c : Capture} (h : t.Unchained place) (coherent : t.Coherent)
    (hid : id < t.scopes.size)
    (hasks : seen (t.inView id) name = some place → id = place.owner)
    (heq : capture name id t = .ok c t') : t'.Unchained place := by
  induction id using Nat.strongRecOn generalizing c t' with
  | ind id ih =>
    obtain ⟨s, hs⟩ : ∃ s, t.scopes[id]? = some s := ⟨_, Array.getElem?_eq_getElem hid⟩
    have hspec := capture_spec coherent hid heq
    rw [ScopeTree.capture, get_bind, scope_eq hs, find?_eq s id] at heq
    rcases seen_inView_cases coherent hs name with
      ⟨place', hown, hview⟩ | ⟨hown, hparent, hview⟩ | ⟨parent, hown, hparent, hlt, hview⟩
    · obtain ⟨rfl, v, hv, -⟩ := seen_shown hown
      simp only [hown, Option.map_some, bind_eq_ok, pure_eq_ok] at heq
      obtain ⟨slot, t₁, hpromote, -, rfl⟩ := heq
      exact h.promote coherent hs hv hpromote
    · rw [hview] at hspec
      exact hspec.2 ▸ h
    · simp only [hown, Option.map_none, hparent, if_pos hlt, bind_eq_ok] at heq
      obtain ⟨c₁, t₁, hcapture, hrest⟩ := heq
      cases hseen : seen (t.inView parent) name with
      | none =>
        rw [hview, hseen] at hspec
        exact hspec.2 ▸ h
      | some place' =>
        -- The variable is another one, for its scope is further out.
        have hother : place' ≠ place := by
          rintro rfl
          have howner := hasks (hview.trans hseen)
          have hle := owner_le_of_seen coherent (Nat.lt_trans hlt hid) hseen
          omega
        have h₁ : t₁.Unchained place := ih parent hlt (Nat.lt_trans hlt hid)
          (fun hsame => absurd (Option.some.inj (hseen.symm.trans hsame)) hother) hcapture
        have hinner := capture_spec coherent (Nat.lt_trans hlt hid) hcapture
        rw [hseen] at hinner
        obtain ⟨hg, hc, parentSlot, isArgument, rfl, hholds⟩ := hinner
        obtain ⟨s₁, hs₁, hgs⟩ := hg.scopes hs
        simp only [get_bind, scope_eq hs₁] at hrest
        cases hchained : s₁.chainedSlot? parentSlot with
        | some slot =>
          simp only [hchained, pure_eq_ok] at hrest
          exact hrest.2 ▸ h₁
        | none =>
          simp only [hchained, bind_eq_ok, pure_eq_ok] at hrest
          obtain ⟨slot, t₂, hpush, -, rfl⟩ := hrest
          exact h₁.pushChained hc hs₁ (hgs.parent.trans hparent) hholds hother hpush

/-- A name is looked up in the scope of the variable or right inside it. -/
theorem Unchained.lookup {r : Binding × Bool} {s : Scope} (h : t.Unchained place)
    (coherent : t.Coherent) (hs : t.scopes[id]? = some s)
    (hshallow : seen (t.inView id) name = some place →
      id = place.owner ∨ s.parent = some place.owner)
    (heq : lookup id name t = .ok r t') : t'.Unchained place := by
  have hid := (Array.getElem?_eq_some_iff.mp hs).1
  rcases lookup_cases coherent hs heq with
    ⟨_, _, -, -, -, rfl⟩ | ⟨-, -, rfl⟩ |
    ⟨parent, place', slot, isArgument, hparent, hlt, hview, hseen, hcapture, -⟩
  · exact h
  · exact h
  · refine h.capture coherent (Nat.lt_trans hlt hid) (fun hsame => ?_) hcapture
    obtain rfl := Option.some.inj (hseen.symm.trans hsame)
    rcases hshallow hview with howner | hright
    · have hle := owner_le_of_seen coherent (Nat.lt_trans hlt hid) hseen
      omega
    · exact Option.some.inj (hparent.symm.trans hright)

end Captures

def Rooted (t T : ScopeTree) : Prop :=
  ∀ (id : Nat) (s : Scope), t.scopes[id]? = some s →
    ∃ S, T.scopes[id]? = some S ∧ S.parent = s.parent

theorem Rooted.trans (h : t.Rooted t') (h' : t'.Rooted t'') : t.Rooted t'' := by
  intro id s hs
  obtain ⟨s', hs', hparent⟩ := h id s hs
  obtain ⟨s'', hs'', hparent'⟩ := h' id s' hs'
  exact ⟨s'', hs'', hparent'.trans hparent⟩

theorem Grown.rooted (h : t.Grown t') : t.Rooted t' := by
  intro id s hs
  obtain ⟨s', hs', hgs⟩ := h.scopes hs
  exact ⟨s', hs', hgs.parent⟩

theorem Veiled.rooted {k : Nat} (h : Veiled k t t') : t.Rooted t' := by
  intro id s hs
  obtain ⟨s', hs', hlike⟩ := h.alike hs
  exact ⟨s', hs', hlike.parent⟩

/-- An occurrence of a name, if it is taken for a variable, stands in the scope of the variable or
right inside it. -/
def Shallow {β : Type} (t : ScopeTree) (place : Place) (id : Nat) (env : Env) (name : String)
    (_ : β) : Prop :=
  seen env.stored name = some place →
    id = place.owner ∨ ∃ s, t.scopes[id]? = some s ∧ s.parent = some place.owner

section FirstPass

variable {T : ScopeTree} {env : Env} {name : String}

theorem Unchained.lookup_shallow {r : Binding × Bool} (h : t.Unchained place)
    (coherent : t.Coherent) (hid : id < t.scopes.size) (view : t.inView id = env.stored)
    (hroot : t'.Rooted T) (hshallow : T.Shallow place id env name ())
    (heq : ScopeTree.lookup id name t = .ok r t') : t'.Unchained place := by
  obtain ⟨s, hs⟩ : ∃ s, t.scopes[id]? = some s := ⟨_, Array.getElem?_eq_getElem hid⟩
  refine h.lookup coherent hs (fun hseen => ?_) heq
  rcases hshallow (view ▸ hseen) with howner | ⟨S, hS, hparent⟩
  · exact .inl howner
  · obtain ⟨S', hS', hsame⟩ := (lookup_spec coherent hid heq).1.rooted.trans hroot id s hs
    obtain rfl := Option.some.inj (hS.symm.trans hS')
    exact .inr (hsame.symm.trans hparent)

mutual

/-- The first pass copies no slot of a variable that is used right inside its scope only. -/
theorem layout_unchained {t t' : ScopeTree} {id : Nat} {inPlace : Bool} {env : Env}
    {n : Node Unit} (coherent : t.Coherent) (hid : id < t.scopes.size)
    (view : t.inView id = env.stored) (h : t.Unchained place) (hroot : t'.Rooted T) :
    ∀ (e : Expr), layout id inPlace e t = .ok n t' →
      Lexical T (T.Shallow place) (fun _ _ _ => True) id inPlace env e n → t'.Unchained place
  | .literal value, heq, _ => by
    simp only [layout, pure_eq_ok] at heq
    exact heq.2 ▸ h
  | .pseudo which, heq, _ => by
    simp only [layout, pure_eq_ok] at heq
    exact heq.2 ▸ h
  | .variable name, heq, hl => by
    simp only [layout, bind_eq_ok, pure_eq_ok] at heq
    obtain ⟨b, t₁, hresolve, rfl, rfl⟩ := heq
    obtain ⟨isArgument, hlookup⟩ := resolve_eq_ok hresolve
    cases hl with
    | «variable» hshallow => exact h.lookup_shallow coherent hid view hroot hshallow hlookup
  | .assign name value, heq, hl => by
    simp only [layout, bind_eq_ok, pure_eq_ok] at heq
    obtain ⟨value', t₁, hvalue, b, t₂, hresolve, rfl, rfl⟩ := heq
    have hlookup := resolveAssignment_eq_ok hresolve
    have hout := layout_laidOut coherent hid view value hvalue
    have hview := hout.grown.view_eq coherent hid view
    have hnext := lookup_laidOut hout.coherent (hout.grown.lt_size hid) hview hlookup
    cases hl with
    | assign hl hshallow =>
      have h₁ := layout_unchained coherent hid view h (hnext.grown.rooted.trans hroot) value
        hvalue hl
      exact h₁.lookup_shallow hout.coherent (hout.grown.lt_size hid) hview hroot hshallow hlookup
  | .send receiver selector args, heq, hl => by
    rw [layout] at heq
    have hpair : ∀ {inPlace : Bool} {receiver' : Node Unit} {args' : List (Node Unit)} {t₁},
        layout id inPlace receiver t = .ok receiver' t₁ →
        layoutAll id inPlace args t₁ = .ok args' t' →
        Lexical T (T.Shallow place) (fun _ _ _ => True) id inPlace env receiver receiver' →
        LexicalAll T (T.Shallow place) (fun _ _ _ => True) id inPlace env args args' →
        t'.Unchained place := by
      intro inPlace receiver' args' t₁ hreceiver hargs hl hls
      have hout := layout_laidOut coherent hid view receiver hreceiver
      have hview := hout.grown.view_eq coherent hid view
      have hout' := layoutAll_laidOut hout.coherent (hout.grown.lt_size hid) hview args hargs
      have h₁ := layout_unchained coherent hid view h (hout'.grown.rooted.trans hroot) receiver
        hreceiver hl
      exact layoutAll_unchained hout.coherent (hout.grown.lt_size hid) hview h₁ hroot args hargs hls
    cases hform : ControlForm.recognize receiver selector args with
    | some form =>
      simp only [hform, bind_eq_ok, pure_eq_ok] at heq
      obtain ⟨receiver', t₁, hreceiver, args', t₂, hargs, rfl, rfl⟩ := heq
      cases hl with
      | control _ hl hls => exact hpair hreceiver hargs hl hls
    | none =>
      simp only [hform, bind_eq_ok, pure_eq_ok] at heq
      obtain ⟨receiver', t₁, hreceiver, args', t₂, hargs, rfl, rfl⟩ := heq
      cases hl with
      | send _ hl hls => exact hpair hreceiver hargs hl hls
  | .superSend selector args, heq, hl => by
    simp only [layout, bind_eq_ok, pure_eq_ok] at heq
    obtain ⟨args', t₁, hargs, rfl, rfl⟩ := heq
    cases hl with
    | superSend hls => exact layoutAll_unchained coherent hid view h hroot args hargs hls
  | .block params temps body, heq, hl => by
    obtain ⟨s, hs⟩ : ∃ s, t.scopes[id]? = some s := ⟨_, Array.getElem?_eq_getElem hid⟩
    rw [layout] at heq
    cases inPlace with
    | true =>
      simp only [if_true, bind_eq_ok, modify_eq_ok, pure_eq_ok] at heq
      obtain ⟨first, t₁, hdeclare, body', t₂, hbody, -, t₃, rfl, rfl, rfl⟩ := heq
      have hveiled := veiled_setVisible t₂ id first temps.length false
      have h₁ := h.declareAll coherent hs hdeclare
      obtain ⟨-, -, hcoherent, hs', hview⟩ := declareAll_spec coherent hs hdeclare
      cases hl with
      | inlined _ _ hls =>
        refine Unchained.veiled ?_ hveiled
        exact layoutAll_unchained hcoherent (Array.getElem?_eq_some_iff.mp hs').1
          (by rw [hview, view, Env.stored_declare, Env.stored_mask]) h₁
          (hveiled.rooted.trans hroot) body hbody hls
    | false =>
      simp only [Bool.false_eq_true, if_false, bind_eq_ok, pure_eq_ok] at heq
      obtain ⟨scope, t₁, hpush, first, t₂, hparams, first', t₃, htemps, body', t₄, hbody, rfl,
        rfl⟩ := heq
      have hparent : ∀ p, some id = some p → p < t.scopes.size := fun p hp =>
        Option.some.inj hp ▸ hid
      obtain ⟨s₃, hs₃⟩ := enters coherent hparent hpush hparams htemps
      obtain ⟨rfl, rfl⟩ := push_eq_ok hpush
      have hc₁ : (t.opened .block (some id)).Coherent := coherent_opened coherent hparent
      obtain ⟨-, -, hc₂, hs₂, -⟩ := declareAll_spec hc₁ opened_new hparams
      have h₁ : (t.opened .block (some id)).Unchained place := h.opened
      have h₃ := (h₁.declareAll hc₁ opened_new hparams).declareAll hc₂ hs₂ htemps
      cases hl with
      | closure _ _ hls =>
        exact layoutAll_unchained hs₃.coherent (Array.getElem?_eq_some_iff.mp hs₃.found).1
          (by rw [hs₃.view, Option.elim_some, view, Env.stored_declare]) h₃ hroot body hbody hls
  | .ret value, heq, hl => by
    simp only [layout, bind_eq_ok, pure_eq_ok] at heq
    obtain ⟨value', t₁, hvalue, rfl, rfl⟩ := heq
    cases hl with
    | ret hl => exact layout_unchained coherent hid view h hroot value hvalue hl
  | .primitive name args, heq, hl => by
    simp only [layout, bind_eq_ok, pure_eq_ok] at heq
    obtain ⟨args', t₁, hargs, rfl, rfl⟩ := heq
    cases hl with
    | primitive hls => exact layoutAll_unchained coherent hid view h hroot args hargs hls

theorem layoutAll_unchained {t t' : ScopeTree} {id : Nat} {inPlace : Bool} {env : Env}
    {ns : List (Node Unit)} (coherent : t.Coherent) (hid : id < t.scopes.size)
    (view : t.inView id = env.stored) (h : t.Unchained place) (hroot : t'.Rooted T) :
    ∀ (es : List Expr), layoutAll id inPlace es t = .ok ns t' →
      LexicalAll T (T.Shallow place) (fun _ _ _ => True) id inPlace env es ns → t'.Unchained place
  | [], heq, _ => by
    simp only [layoutAll, pure_eq_ok] at heq
    exact heq.2 ▸ h
  | e :: es, heq, hls => by
    simp only [layoutAll, bind_eq_ok, pure_eq_ok] at heq
    obtain ⟨n, t₁, hn, ns', t₂, hns, rfl, rfl⟩ := heq
    have hout := layout_laidOut coherent hid view e hn
    have hview := hout.grown.view_eq coherent hid view
    have hout' := layoutAll_laidOut hout.coherent (hout.grown.lt_size hid) hview es hns
    cases hls with
    | cons hl hls =>
      have h₁ := layout_unchained coherent hid view h (hout'.grown.rooted.trans hroot) e hn hl
      exact layoutAll_unchained hout.coherent (hout.grown.lt_size hid) hview h₁ hroot es hns hls

end

end FirstPass

section SecondPass

variable {T : ScopeTree}

theorem temps_of_bindTemps {scope first : Nat} {names : List String} {temps : List (String × Unit)}
    (h : Temps (fun _ _ _ => True) scope first names (t.bindTemps id first temps)) :
    Temps (fun _ _ _ => True) scope first names temps :=
  ⟨(bindTemps_names t id first temps).symm.trans h.1, fun _ _ _ _ => trivial⟩

mutual

/-- Names stand where they stood before they were bound. -/
theorem bind_shallow {t t' : ScopeTree} {id : Nat} {inPlace : Bool} {env : Env} {e : Expr} :
    ∀ (n : Node Unit) {n' : Node Binding}, bind id n t = .ok n' t' →
      Lexical T (T.Shallow place) (fun _ _ _ => True) id inPlace env e n' →
      Lexical T (T.Shallow place) (fun _ _ _ => True) id inPlace env e n
  | .literal value, n', h, hl => by
    simp only [bind, pure_eq_ok] at h
    obtain ⟨rfl, rfl⟩ := h
    cases hl with
    | literal => exact .literal
  | .pseudo which, n', h, hl => by
    simp only [bind, pure_eq_ok] at h
    obtain ⟨rfl, rfl⟩ := h
    cases hl with
    | pseudo => exact .pseudo
  | .variable name site, n', h, hl => by
    simp only [bind, bind_eq_ok, pure_eq_ok] at h
    obtain ⟨b, t₁, -, rfl, rfl⟩ := h
    cases hl with
    | «variable» hshallow => exact .variable hshallow
  | .assign name site value, n', h, hl => by
    simp only [bind, bind_eq_ok, pure_eq_ok] at h
    obtain ⟨value', t₁, hvalue, b, t₂, -, rfl, rfl⟩ := h
    cases hl with
    | assign hl hshallow => exact .assign (bind_shallow value hvalue hl) hshallow
  | .send receiver selector args, n', h, hl => by
    simp only [bind, bind_eq_ok, pure_eq_ok] at h
    obtain ⟨receiver', t₁, hreceiver, args', t₂, hargs, rfl, rfl⟩ := h
    cases hl with
    | send hform hl hls =>
      exact .send hform (bind_shallow receiver hreceiver hl) (bindAll_shallow args hargs hls)
  | .control form receiver args, n', h, hl => by
    simp only [bind, bind_eq_ok, pure_eq_ok] at h
    obtain ⟨receiver', t₁, hreceiver, args', t₂, hargs, rfl, rfl⟩ := h
    cases hl with
    | control hform hl hls =>
      exact .control hform (bind_shallow receiver hreceiver hl) (bindAll_shallow args hargs hls)
  | .superSend selector args, n', h, hl => by
    simp only [bind, bind_eq_ok, pure_eq_ok] at h
    obtain ⟨args', t₁, hargs, rfl, rfl⟩ := h
    cases hl with
    | superSend hls => exact .superSend (bindAll_shallow args hargs hls)
  | .closure scope params temps body, n', h, hl => by
    simp only [bind, bind_eq_ok, get_eq_ok, pure_eq_ok] at h
    obtain ⟨body', t₁, hbody, _, _, ⟨rfl, rfl⟩, rfl, rfl⟩ := h
    cases hl with
    | closure hopens htemps hls =>
      exact .closure hopens (temps_of_bindTemps htemps) (bindAll_shallow body hbody hls)
  | .inlined first temps body, n', h, hl => by
    simp only [bind, bind_eq_ok, modify_eq_ok, get_eq_ok, pure_eq_ok] at h
    obtain ⟨-, t₁, rfl, body', t₂, hbody, -, t₃, rfl, _, _, ⟨rfl, rfl⟩, rfl, rfl⟩ := h
    cases hl with
    | inlined hinlines htemps hls =>
      exact .inlined hinlines (temps_of_bindTemps htemps) (bindAll_shallow body hbody hls)
  | .ret value, n', h, hl => by
    simp only [bind, bind_eq_ok, pure_eq_ok] at h
    obtain ⟨value', t₁, hvalue, rfl, rfl⟩ := h
    cases hl with
    | ret hl => exact .ret (bind_shallow value hvalue hl)
  | .primitive name args, n', h, hl => by
    simp only [bind, bind_eq_ok, pure_eq_ok] at h
    obtain ⟨args', t₁, hargs, rfl, rfl⟩ := h
    cases hl with
    | primitive hls => exact .primitive (bindAll_shallow args hargs hls)

theorem bindAll_shallow {t t' : ScopeTree} {id : Nat} {inPlace : Bool} {env : Env}
    {es : List Expr} :
    ∀ (ns : List (Node Unit)) {ns' : List (Node Binding)}, bindAll id ns t = .ok ns' t' →
      LexicalAll T (T.Shallow place) (fun _ _ _ => True) id inPlace env es ns' →
      LexicalAll T (T.Shallow place) (fun _ _ _ => True) id inPlace env es ns
  | [], ns', h, hls => by
    simp only [bindAll, pure_eq_ok] at h
    obtain ⟨rfl, rfl⟩ := h
    cases hls with
    | nil => exact .nil
  | n :: ns, ns', h, hls => by
    simp only [bindAll, bind_eq_ok, pure_eq_ok] at h
    obtain ⟨n', t₁, hn, ns'', t₂, hns, rfl, rfl⟩ := h
    cases hls with
    | cons hl hls => exact .cons (bind_shallow n hn hl) (bindAll_shallow ns hns hls)

end

end SecondPass

/-- An occurrence of a name, if it stands for a variable, is bound to the slot of the variable: as a
slot of its own scope, or as one of the scope around it. -/
def Direct (t : ScopeTree) (place : Place) (slot : UInt8) (id : Nat) (env : Env) (name : String)
    (b : Binding) : Prop :=
  env.innermost name = some (some place) → id = place.owner ∧ b = .own slot ∨
    (∃ s, t.scopes[id]? = some s ∧ s.parent = some place.owner) ∧ b = .parent slot

theorem Unchained.direct {env : Env} {name : String} {b : Binding} (h : t.Unchained place)
    (coherent : t.Coherent) (hkeeps : t.Keeps place slot) (ho : t.Occurs id env name b)
    (hshallow : t.Shallow place id env name b) : t.Direct place slot id env name b := by
  intro hname
  obtain ⟨so, v, hso, hv, hslot⟩ := hkeeps
  have hheld : t.Holds place.owner slot place := .promoted hso hv hslot
  have hdenotes := ho.lexical place hname
  rcases hshallow (Env.seen_stored hname) with rfl | ⟨s, hs, hparent⟩
  · cases b with
    | register reg =>
      obtain ⟨-, s, w, hs, hw, hnone, -⟩ := hdenotes
      obtain rfl := Option.some.inj (hso.symm.trans hs)
      obtain rfl := Option.some.inj (hv.symm.trans hw)
      exact nomatch hslot.symm.trans hnone
    | own k => exact .inl ⟨rfl, congrArg Binding.own (hdenotes.slot_unique coherent hheld)⟩
    | parent k =>
      obtain ⟨s, parent, hs, hparent, -, hholds⟩ := hdenotes
      have hle := hholds.owner_le coherent
      have hlt := (coherent hs).parent _ hparent
      omega
    | instanceVariable k => exact hdenotes.elim
    | global => exact hdenotes.elim
  · have hlt := (coherent hs).parent _ hparent
    cases b with
    | register reg =>
      have howner := hdenotes.1
      omega
    | own k =>
      have howner := h.owner_eq coherent hdenotes
      omega
    | parent k =>
      obtain ⟨s', parent, hs', hparent', -, hholds⟩ := hdenotes
      obtain rfl := Option.some.inj (hs.symm.trans hs')
      obtain rfl := Option.some.inj (hparent.symm.trans hparent')
      exact .inr ⟨⟨s, hs, hparent⟩, congrArg Binding.parent (hholds.slot_unique coherent hheld)⟩
    | instanceVariable k => exact hdenotes.elim
    | global => exact hdenotes.elim

end ScopeTree

/-- A variable is used in its scope and right inside it only. -/
abbrev ResolvedMethod.UsesShallowly (r : ResolvedMethod) (m : Method) (place : Place) : Prop :=
  LexicalAll r.scopes (r.scopes.Shallow place) (fun _ _ _ => True) 0 false
    (Env.declare [] 0 0 (m.params ++ m.temps)) m.body r.body

abbrev ResolvedMethod.UsesPrivately (r : ResolvedMethod) (m : Method) (place : Place) : Prop :=
  LexicalAll r.scopes
    (fun id env name _ => env.innermost name = some (some place) → id = place.owner)
    (fun _ _ _ => True) 0 false (Env.declare [] 0 0 (m.params ++ m.temps)) m.body r.body

section Methods

variable {m : Method} {instanceVariables : List String} {r : ResolvedMethod} {place : Place}

theorem Method.resolve_unchained (h : m.resolve instanceVariables = .ok r)
    (hshallow : r.UsesShallowly m place) : r.scopes.Unchained place := by
  obtain ⟨t₀, t₁, t₂, first, first', ns, s, hpush, hparams, htemps, hlayout, hbind, hs, -⟩ :=
    resolve_passes h
  obtain ⟨-, rfl⟩ := ScopeTree.push_eq_ok hpush
  have hid := (Array.getElem?_eq_some_iff.mp hs.found).1
  have hempty : ScopeTree.Unchained { instanceVariables } place := by
    intro id i s slot hs
    simp at hs
  have hnone : ∀ p, none = some p → p < (ScopeTree.scopes { instanceVariables }).size := nofun
  have hc₀ : (ScopeTree.opened { instanceVariables } .method none).Coherent :=
    ScopeTree.coherent_opened (fun hs => by simp at hs) hnone
  obtain ⟨-, -, hc₁, hs₁, -⟩ := ScopeTree.declareAll_spec hc₀ ScopeTree.opened_new hparams
  have h₂ : t₂.Unchained place :=
    (hempty.opened.declareAll hc₀ ScopeTree.opened_new hparams).declareAll hc₁ hs₁ htemps
  refine ScopeTree.layoutAll_unchained hs.coherent hid ?_ h₂ (ScopeTree.Grown.refl _).rooted m.body
    hlayout (ScopeTree.bindAll_shallow ns hbind hshallow)
  rw [hs.view, Env.stored_declare]
  rfl

/-- A variable that is used outside its scope is kept in a slot. -/
theorem Method.resolve_keeps (h : m.resolve instanceVariables = .ok r)
    (hcaptured : ¬r.UsesPrivately m place) : ∃ slot, r.scopes.Keeps place slot := by
  by_contra hnone
  obtain ⟨s, hf⟩ := resolve_follows h
  have hown : ∀ {id : Nat} {env : Env} {name : String} {b : Binding},
      r.scopes.Occurs id env name b → env.innermost name = some (some place) →
      id = place.owner := by
    intro id env name b ho hname
    have hdenotes := ho.lexical place hname
    cases b with
    | register reg => exact hdenotes.1.symm
    | own k => exact absurd hdenotes.exists_keeps hnone
    | parent k =>
      obtain ⟨s, parent, -, -, -, hholds⟩ := hdenotes
      exact absurd hholds.exists_keeps hnone
    | instanceVariable k => exact hdenotes.elim
    | global => exact hdenotes.elim
  exact hcaptured (hf.body.carry ⟨fun _ => hown, fun _ _ => trivial, fun _ ho => ⟨_, ho⟩,
    fun _ hi => ⟨_, hi⟩⟩ (Nat.zero_le 0))

/-- All occurrences of such a variable are bound to its slot. -/
theorem Method.resolve_direct {slot : UInt8} (h : m.resolve instanceVariables = .ok r)
    (hshallow : r.UsesShallowly m place) (hkeeps : r.scopes.Keeps place slot) :
    LexicalAll r.scopes (r.scopes.Direct place slot) r.scopes.Denotes 0 false
      (Env.declare [] 0 0 (m.params ++ m.temps)) m.body r.body := by
  obtain ⟨s, hf⟩ := resolve_follows h
  have hunchained := resolve_unchained h hshallow
  refine (hf.body.and hshallow).carry ⟨fun _ ho => ?_, fun _ => id, fun _ ho => ⟨_, ho⟩,
    fun _ hi => ⟨_, hi⟩⟩ (Nat.zero_le 0)
  exact hunchained.direct hf.coherent hkeeps ho.1 ho.2

end Methods

end ObjectMachine
