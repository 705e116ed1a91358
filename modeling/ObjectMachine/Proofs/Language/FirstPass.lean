import Mathlib.Data.List.Nodup
import ObjectMachine.Proofs.Language.Visibility

namespace ObjectMachine.ScopeTree

variable {t t' t'' : ScopeTree} {id : Nat}

def Needs (t : ScopeTree) (id : Nat) (env : Env) (name : String) (_ : Unit) : Prop :=
  ∀ place, seen env.stored name = some place → t.Captured id place

abbrev LaysOut (t : ScopeTree) : Nat → Bool → Env → Expr → Node Unit → Prop :=
  Lexical t t.Needs fun _ _ _ => True

abbrev LaysOutAll (t : ScopeTree) : Nat → Bool → Env → List Expr → List (Node Unit) → Prop :=
  LexicalAll t t.Needs fun _ _ _ => True

theorem Grown.carries (hg : t.Grown t') :
    Carries 0 t t' t.Needs t'.Needs (fun _ _ _ => True) fun _ _ _ => True where
  occurs _ ho place hp := (ho place hp).mono hg
  declares _ _ := trivial
  opens _ h := by
    obtain ⟨s', hs', hgs⟩ := hg.scopes h.found
    exact ⟨s', hs', hgs.kind.trans h.kind, hgs.parent.trans h.parent, h.lt, hgs.args.trans h.args,
      Nat.le_trans h.size hgs.size, (hgs.shown_eq _).trans h.shown⟩
  inlines _ h := by
    obtain ⟨s', hs', hgs⟩ := hg.scopes h.found
    refine ⟨s', hs', fun i name hname => ?_, Nat.le_trans h.size hgs.size, h.above⟩
    obtain ⟨v, hv, hvn⟩ := h.names i name hname
    obtain ⟨v', hv', hgv⟩ := hgs.vars hv
    exact ⟨v', hv', hgv.name.trans hvn⟩

theorem Veiled.carries {k : Nat} (hv : Veiled k t t') :
    Carries k t t' t.Needs t'.Needs (fun _ _ _ => True) fun _ _ _ => True where
  occurs _ ho place hp := (ho place hp).veiled hv
  declares _ _ := trivial
  opens hk h := h.veiled hv hk
  inlines _ h := h.veiled hv

theorem Grown.lt_size (hg : t.Grown t') (hid : id < t.scopes.size) : id < t'.scopes.size := by
  obtain ⟨s', hs', -⟩ := hg.scopes (Array.getElem?_eq_getElem hid)
  exact (Array.getElem?_eq_some_iff.mp hs').1

theorem Grown.view_eq {env : Env} (hg : t.Grown t') (coherent : t.Coherent)
    (hid : id < t.scopes.size) (view : t.inView id = env.stored) : t'.inView id = env.stored :=
  (hg.inView_eq hid coherent).trans view

structure Fresh (t t' : ScopeTree) (places : List Place) : Prop where
  new : ∀ place ∈ places, ¬t.Has place ∧ t'.Has place
  nodup : places.Nodup

theorem Fresh.nil : Fresh t t' [] := ⟨by simp, List.nodup_nil⟩

theorem Fresh.append {ps qs : List Place} (hp : Fresh t t' ps) (hq : Fresh t' t'' qs)
    (before : ∀ place, t.Has place → t'.Has place) (after : ∀ place, t'.Has place → t''.Has place) :
    Fresh t t'' (ps ++ qs) := by
  refine ⟨fun place hmem => ?_, List.nodup_append.mpr ⟨hp.nodup, hq.nodup, ?_⟩⟩
  · rcases List.mem_append.mp hmem with h | h
    · exact ⟨(hp.new place h).1, after place (hp.new place h).2⟩
    · exact ⟨fun hhas => (hq.new place h).1 (before place hhas), (hq.new place h).2⟩
  · rintro p hmem _ hmem' rfl
    exact (hq.new p hmem').1 (hp.new p hmem).2

structure LaidOut (t t' : ScopeTree) (places : List Place) (lexical : Prop) : Prop where
  grown : t.Grown t'
  coherent : t'.Coherent
  lexical : lexical
  fresh : Fresh t t' places

theorem LaidOut.map {places : List Place} {p q : Prop} (h : LaidOut t t' places p) (f : p → q) :
    LaidOut t t' places q := ⟨h.grown, h.coherent, f h.lexical, h.fresh⟩

theorem LaidOut.and {ps qs : List Place} {p p' q r : Prop} (h : LaidOut t t' ps p)
    (h' : LaidOut t' t'' qs q) (hp : p → p') (hr : p' → q → r) : LaidOut t t'' (ps ++ qs) r :=
  ⟨h.grown.trans h'.grown, h'.coherent, hr (hp h.lexical) h'.lexical,
    h.fresh.append h'.fresh (fun _ hh => hh.mono h.grown) fun _ hh => hh.mono h'.grown⟩

theorem lookup_laidOut {name : String} {env : Env} {r : Binding × Bool} (coherent : t.Coherent)
    (hid : id < t.scopes.size) (view : t.inView id = env.stored)
    (h : lookup id name t = .ok r t') : LaidOut t t' [] (t'.Needs id env name ()) := by
  obtain ⟨hg, hc, hneeds⟩ := lookup_spec coherent hid h
  exact ⟨hg, hc, fun place hplace => hneeds place (view ▸ hplace), .nil⟩

theorem resolve_eq_ok {name : String} {b : Binding} (h : resolve id name t = .ok b t') :
    ∃ isArgument, lookup id name t = .ok (b, isArgument) t' := by
  simp only [resolve, bind_eq_ok, pure_eq_ok] at h
  obtain ⟨r, t₁, hlookup, rfl, rfl⟩ := h
  exact ⟨r.2, hlookup⟩

theorem resolveAssignment_eq_ok {name : String} {b : Binding}
    (h : resolveAssignment id name t = .ok b t') : lookup id name t = .ok (b, false) t' := by
  simp only [resolveAssignment, bind_eq_ok] at h
  obtain ⟨⟨b', isArgument⟩, t₁, hlookup, hrest⟩ := h
  cases isArgument with
  | true => simp only [if_true, bind_eq_ok, throw_eq_ok, false_and, exists_false] at hrest
  | false =>
    simp only [Bool.false_eq_true, if_false, pure_eq_ok] at hrest
    obtain ⟨rfl, rfl⟩ := hrest
    exact hlookup

/-- Hiding the temporaries of an inlined block undoes their declaration, but for what they and the
variables around them may have been given meanwhile. -/
theorem grown_of_inlined {s : Scope} {temps : List String} (hs : t.scopes[id]? = some s)
    (hg : (t.modifyScope id (·.withVars .local temps)).Grown t') :
    t.Grown (t'.setVisible id s.vars.size temps.length false) := by
  have w := s.widened .local temps
  have hset : t'.setVisible id s.vars.size temps.length false =
      t'.modifyScope id (Scope.veil s.vars.size temps.length false) := rfl
  refine ⟨hg.instanceVariables, fun {j s₀} hs₀ => ?_⟩
  by_cases hj : j = id
  · subst hj
    obtain rfl := Option.some.inj (hs.symm.trans hs₀)
    obtain ⟨s', hs', hgs⟩ := hg.scopes (scopes_modifyScope_self hs)
    refine ⟨_, by rw [hset, scopes_modifyScope_self hs'], ?_⟩
    have hsize : (s'.veil s.vars.size temps.length false).vars.size = s'.vars.size := by
      simp [Scope.veil]
    have hle := hgs.size
    rw [w.size] at hle
    refine ⟨hgs.kind.trans w.kind, hgs.parent.trans w.parent, hgs.args.trans w.args, by omega,
      fun {i v} hv => ?_, fun {i v'} hi hv' => ?_, fun ho => hgs.heapVars (w.heapVars ▸ ho)⟩
    · have hi := (Array.getElem?_eq_some_iff.mp hv).1
      obtain ⟨v', hv', hgv⟩ := hgs.vars ((w.old i hi).trans hv)
      refine ⟨v', ?_, hgv⟩
      rw [Scope.getElem?_veil, hv', Option.map_some, if_neg (by omega)]
    · rw [Scope.getElem?_veil] at hv'
      obtain ⟨v, hv, rfl⟩ := Option.map_eq_some_iff.mp hv'
      by_cases hin : s.vars.size ≤ i ∧ i < s.vars.size + temps.length
      · rw [if_pos hin]
      · rw [if_neg hin]
        exact hgs.hidden (by rw [w.size]; omega) hv
  · have hs₁ : (t.modifyScope id (·.withVars .local temps)).scopes[j]? = some s₀ := by
      rw [getElem?_modifyScope, if_neg hj, hs₀]
    obtain ⟨s', hs', hgs⟩ := hg.scopes hs₁
    exact ⟨s', by rw [hset, getElem?_modifyScope, if_neg hj, hs'], hgs⟩

theorem fresh_declared {s : Scope} {kind : VariableKind} {names : List String}
    (hs : t.scopes[id]? = some s) :
    Fresh t (t.modifyScope id (·.withVars kind names))
      ((List.range' s.vars.size names.length).map (Place.mk id)) := by
  have w := s.widened kind names
  refine ⟨fun place hmem => ?_, List.Nodup.map (fun i j h => (Place.mk.inj h).2) List.nodup_range'⟩
  obtain ⟨i, hi, rfl⟩ := List.mem_map.mp hmem
  obtain ⟨hle, hlt⟩ := List.mem_range'_1.mp hi
  refine ⟨?_, s.withVars kind names, scopes_modifyScope_self hs, by rw [w.size]; exact hlt⟩
  rintro ⟨s', hs', hlt'⟩
  obtain rfl := Option.some.inj (hs.symm.trans hs')
  exact absurd hlt' (Nat.not_lt.mpr hle)

theorem Has.declared {place : Place} {s : Scope} {kind : VariableKind} {names : List String}
    (h : t.Has place) (hs : t.scopes[id]? = some s) :
    (t.modifyScope id (·.withVars kind names)).Has place := by
  obtain ⟨s', hs', hlt⟩ := h
  have w := s.widened kind names
  by_cases howner : place.owner = id
  · subst howner
    obtain rfl := Option.some.inj (hs.symm.trans hs')
    exact ⟨_, scopes_modifyScope_self hs, by rw [w.size]; omega⟩
  · exact ⟨s', by rw [getElem?_modifyScope, if_neg howner, hs'], hlt⟩

theorem inlined_laidOut {first : Nat} {env : Env} {params temps : List String} {body : List Expr}
    {body' : List (Node Unit)} (coherent : t.Coherent) (hid : id < t.scopes.size)
    (view : t.inView id = env.stored) (hdeclare : declareAll id temps .local t = .ok first t')
    (hbody : t'.Coherent → id < t'.scopes.size →
      t'.inView id = ((env.mask params).declare id first temps).stored →
      LaidOut t' t'' (Node.placesAll id body')
        (t''.LaysOutAll id false ((env.mask params).declare id first temps) body body')) :
    LaidOut t (t''.setVisible id first temps.length false)
      ((Node.inlined first (temps.map (·, ())) body').places id)
      ((t''.setVisible id first temps.length false).LaysOut id true env (.block params temps body)
        (.inlined first (temps.map (·, ())) body')) := by
  obtain ⟨s, hs⟩ : ∃ s, t.scopes[id]? = some s := ⟨_, Array.getElem?_eq_getElem hid⟩
  obtain ⟨rfl, rfl, hcoherent, hs', hview⟩ := declareAll_spec coherent hs hdeclare
  have hid' := (Array.getElem?_eq_some_iff.mp hs').1
  have hout := hbody hcoherent hid' (by rw [hview, view, Env.stored_declare, Env.stored_mask])
  have hveiled := veiled_setVisible t'' id s.vars.size temps.length false
  have hgrown := grown_of_inlined hs hout.grown
  obtain ⟨s₂, hs₂, hgs⟩ := hout.grown.scopes hs'
  have w := s.widened .local temps
  have hinlines : t''.Inlines id s.vars.size env temps s₂ := by
    refine ⟨hs₂, fun i name hname => ?_, w.size ▸ hgs.size, fun name place hmem howner => ?_⟩
    · obtain ⟨v, hv, hvn, -⟩ := w.new i name hname
      obtain ⟨v', hv', hgv⟩ := hgs.vars hv
      exact ⟨v', hv', hgv.name.trans hvn⟩
    · obtain ⟨s₀, hs₀, hlt⟩ := has_of_mem_inView coherent hid (view ▸ hmem)
      rw [howner, hs] at hs₀
      cases hs₀
      exact hlt
  refine ⟨hgrown, Coherent.veiled hout.coherent hveiled, ?_, ?_⟩
  · obtain ⟨s₃, hinlines'⟩ := hinlines.veiled hveiled
    refine .inlined hinlines' ⟨?_, fun _ _ _ _ => trivial⟩
      (hout.lexical.carry hveiled.carries (Nat.le_refl id))
    simp [Function.comp_def]
  · have hnew : Fresh t (t.modifyScope id (·.withVars .local temps)) _ := fresh_declared hs
    have hfresh := hnew.append hout.fresh (fun place h => h.declared hs)
      fun place h => h.mono hout.grown
    rw [Node.places, List.length_map]
    exact ⟨fun place hmem => ⟨(hfresh.new place hmem).1, (hfresh.new place hmem).2.veiled hveiled⟩,
      hfresh.nodup⟩

def opened (t : ScopeTree) (kind : ScopeKind) (parent : Option Nat) : ScopeTree :=
  { t with scopes := t.scopes.push { kind, parent } }

theorem push_eq_ok {kind : ScopeKind} {parent : Option Nat} {scope : Nat}
    (h : push kind parent t = .ok scope t') :
    scope = t.scopes.size ∧ t' = t.opened kind parent := by
  change EStateM.Result.ok t.scopes.size (t.opened kind parent) = .ok scope t' at h
  cases h
  exact ⟨rfl, rfl⟩

section Opened

variable {kind : ScopeKind} {parent : Option Nat}

theorem opened_old {j : Nat} (hj : j < t.scopes.size) :
    (t.opened kind parent).scopes[j]? = t.scopes[j]? := by
  rw [opened, Array.getElem?_push, if_neg (Nat.ne_of_lt hj)]

theorem opened_new : (t.opened kind parent).scopes[t.scopes.size]? = some { kind, parent } := by
  rw [opened, Array.getElem?_push, if_pos rfl]

theorem coherent_opened (coherent : t.Coherent)
    (hparent : ∀ p, parent = some p → p < t.scopes.size) :
    (t.opened kind parent).Coherent := by
  intro j s hs
  by_cases hj : j < t.scopes.size
  · rw [opened_old hj] at hs
    refine (coherent hs).mono fun {p s'} hs' => ?_
    exact ⟨s', by rw [opened_old (Array.getElem?_eq_some_iff.mp hs').1, hs'], Nat.le_refl _⟩
  · have hlt := (Array.getElem?_eq_some_iff.mp hs).1
    simp only [opened, Array.size_push] at hlt
    obtain rfl : j = t.scopes.size := by omega
    rw [opened_new] at hs
    cases hs
    constructor <;> simp
    exact hparent

end Opened

structure Enters (t t' : ScopeTree) (scope : Nat) (which : ScopeKind) (outer : Option Nat)
    (params temps : List String) (s : Scope) : Prop where
  number : scope = t.scopes.size
  grown : t.Grown t'
  coherent : t'.Coherent
  found : t'.scopes[scope]? = some s
  kind : s.kind = which
  parent : s.parent = outer
  args : s.args = params.length
  size : s.vars.size = params.length + temps.length
  shown : s.shown scope = declared scope 0 (params ++ temps)
  view : t'.inView scope = declared scope 0 (params ++ temps) ++ outer.elim [] t.inView
  fresh : Fresh t t' ((List.range (params.length + temps.length)).map (Place.mk scope))

theorem enters {kind : ScopeKind} {parent : Option Nat} {scope first first' : Nat}
    {params temps : List String} {t₁ t₂ t₃ : ScopeTree} (coherent : t.Coherent)
    (hparent : ∀ p, parent = some p → p < t.scopes.size)
    (hpush : push kind parent t = .ok scope t₁)
    (hparams : declareAll scope params .argument t₁ = .ok first t₂)
    (htemps : declareAll scope temps .local t₂ = .ok first' t₃) :
    ∃ s, Enters t t₃ scope kind parent params temps s := by
  obtain ⟨rfl, rfl⟩ := push_eq_ok hpush
  have hc₁ : (t.opened kind parent).Coherent := coherent_opened coherent hparent
  obtain ⟨rfl, rfl, hc₂, hs₂, hview₂⟩ := declareAll_spec hc₁ opened_new hparams
  obtain ⟨rfl, rfl, hc₃, hs₃, hview₃⟩ := declareAll_spec hc₂ hs₂ htemps
  have w₂ := Scope.widened .argument { kind, parent } params
  have w₃ := Scope.widened .local (Scope.withVars .argument { kind, parent } params) temps
  have hshown₀ : ∀ id, Scope.shown { kind, parent } id = [] := fun _ => rfl
  have hsize : (Scope.withVars .argument { kind, parent } params).vars.size = params.length := by
    simp [w₂.size]
  have hview₁ : (t.opened kind parent).inView t.scopes.size = parent.elim [] t.inView := by
    rw [inView_eq opened_new, hshown₀, List.nil_append]
    cases parent with
    | none => rfl
    | some p =>
      simp only [if_pos (hparent p rfl)]
      apply inView_congr
      intro j hj
      exact opened_old (Nat.lt_of_le_of_lt hj (hparent p rfl))
  refine ⟨_, rfl, ?_, hc₃, hs₃, w₃.kind.trans w₂.kind, w₃.parent.trans w₂.parent, ?_, ?_, ?_, ?_,
    ?_⟩
  · refine ⟨rfl, fun {j s} hs => ⟨s, ?_, .refl s⟩⟩
    have hj := (Array.getElem?_eq_some_iff.mp hs).1
    rw [getElem?_modifyScope, if_neg (Nat.ne_of_lt hj), getElem?_modifyScope,
      if_neg (Nat.ne_of_lt hj), opened_old hj, hs]
  · rw [w₃.args, w₂.args]
    simp
  · rw [w₃.size, hsize]
  · rw [w₃.shown, w₂.shown, hshown₀, List.append_nil, hsize, declared_append, Nat.zero_add]
    rfl
  · rw [hview₃, hview₂, hview₁, hsize, declared_append, Nat.zero_add, List.append_assoc]
    rfl
  · refine ⟨fun place hmem => ?_, List.Nodup.map (fun i j h => (Place.mk.inj h).2) List.nodup_range⟩
    obtain ⟨i, hi, rfl⟩ := List.mem_map.mp hmem
    refine ⟨?_, _, hs₃, ?_⟩
    · rintro ⟨s, hs, -⟩
      exact absurd (Array.getElem?_eq_some_iff.mp hs).1 (Nat.lt_irrefl _)
    · rw [w₃.size, hsize]
      exact List.mem_range.mp hi

mutual

/-- The first pass follows the expression. -/
theorem layout_laidOut {t t' : ScopeTree} {id : Nat} {inPlace : Bool} {env : Env}
    {n : Node Unit} (coherent : t.Coherent) (hid : id < t.scopes.size)
    (view : t.inView id = env.stored) :
    ∀ (e : Expr), layout id inPlace e t = .ok n t' →
      LaidOut t t' (n.places id) (t'.LaysOut id inPlace env e n)
  | .literal value, h => by
    simp only [layout, pure_eq_ok] at h
    obtain ⟨rfl, rfl⟩ := h
    exact ⟨.refl t, coherent, .literal, .nil⟩
  | .pseudo which, h => by
    simp only [layout, pure_eq_ok] at h
    obtain ⟨rfl, rfl⟩ := h
    exact ⟨.refl t, coherent, .pseudo, .nil⟩
  | .variable name, h => by
    simp only [layout, bind_eq_ok, pure_eq_ok] at h
    obtain ⟨b, t₁, hresolve, rfl, rfl⟩ := h
    obtain ⟨isArgument, hlookup⟩ := resolve_eq_ok hresolve
    exact (lookup_laidOut coherent hid view hlookup).map .variable
  | .assign name value, h => by
    simp only [layout, bind_eq_ok, pure_eq_ok] at h
    obtain ⟨value', t₁, hvalue, b, t₂, hresolve, rfl, rfl⟩ := h
    have hout := layout_laidOut coherent hid view value hvalue
    have hlookup := lookup_laidOut hout.coherent (hout.grown.lt_size hid)
      (hout.grown.view_eq coherent hid view) (resolveAssignment_eq_ok hresolve)
    rw [Node.places, ← List.append_nil (Node.places id value')]
    exact hout.and hlookup (fun hl => hl.carry hlookup.grown.carries (Nat.zero_le _))
      fun hl hn => .assign hl hn
  | .send receiver selector args, h => by
    rw [layout] at h
    cases hform : ControlForm.recognize receiver selector args with
    | some form =>
      simp only [hform, bind_eq_ok, pure_eq_ok] at h
      obtain ⟨receiver', t₁, hreceiver, args', t₂, hargs, rfl, rfl⟩ := h
      have hout := layout_laidOut coherent hid view receiver hreceiver
      have hout' := layoutAll_laidOut hout.coherent (hout.grown.lt_size hid)
        (hout.grown.view_eq coherent hid view) args hargs
      exact hout.and hout' (fun hl => hl.carry hout'.grown.carries (Nat.zero_le _))
        fun hl hls => .control hform hl hls
    | none =>
      simp only [hform, bind_eq_ok, pure_eq_ok] at h
      obtain ⟨receiver', t₁, hreceiver, args', t₂, hargs, rfl, rfl⟩ := h
      have hout := layout_laidOut coherent hid view receiver hreceiver
      have hout' := layoutAll_laidOut hout.coherent (hout.grown.lt_size hid)
        (hout.grown.view_eq coherent hid view) args hargs
      exact hout.and hout' (fun hl => hl.carry hout'.grown.carries (Nat.zero_le _))
        fun hl hls => .send hform hl hls
  | .superSend selector args, h => by
    simp only [layout, bind_eq_ok, pure_eq_ok] at h
    obtain ⟨args', t₁, hargs, rfl, rfl⟩ := h
    exact (layoutAll_laidOut coherent hid view args hargs).map .superSend
  | .block params temps body, h => by
    rw [layout] at h
    cases inPlace with
    | true =>
      simp only [if_true, bind_eq_ok, modify_eq_ok, pure_eq_ok] at h
      obtain ⟨first, t₁, hdeclare, body', t₂, hbody, -, t₃, rfl, rfl, rfl⟩ := h
      exact inlined_laidOut coherent hid view hdeclare fun hc₁ hid₁ hview₁ =>
        layoutAll_laidOut hc₁ hid₁ hview₁ body hbody
    | false =>
      simp only [Bool.false_eq_true, if_false, bind_eq_ok, pure_eq_ok] at h
      obtain ⟨scope, t₁, hpush, first, t₂, hparams, first', t₃, htemps, body', t₄, hbody,
        rfl, rfl⟩ :=
        h
      obtain ⟨s, hs⟩ := enters coherent (fun p hp => Option.some.inj hp ▸ hid) hpush hparams htemps
      have hout := layoutAll_laidOut hs.coherent (Array.getElem?_eq_some_iff.mp hs.found).1
        (by rw [hs.view, Option.elim_some, view, Env.stored_declare]) body hbody
      have hopens : t₃.Opens scope id params temps s :=
        ⟨hs.found, hs.kind, hs.parent, hs.number ▸ hid, hs.args, Nat.le_of_eq hs.size.symm,
          hs.shown⟩
      refine ⟨hs.grown.trans hout.grown, hout.coherent, ?_, ?_⟩
      · obtain ⟨s', hopens'⟩ := hout.grown.carries.opens (Nat.zero_le id) hopens
        refine .closure hopens' ⟨?_, fun _ _ _ _ => trivial⟩ hout.lexical
        simp [Function.comp_def]
      · have hfresh := hs.fresh.append hout.fresh (fun _ hh => hh.mono hs.grown)
          fun _ hh => hh.mono hout.grown
        rwa [Node.places, List.length_map]
  | .ret value, h => by
    simp only [layout, bind_eq_ok, pure_eq_ok] at h
    obtain ⟨value', t₁, hvalue, rfl, rfl⟩ := h
    exact (layout_laidOut coherent hid view value hvalue).map .ret
  | .primitive name args, h => by
    simp only [layout, bind_eq_ok, pure_eq_ok] at h
    obtain ⟨args', t₁, hargs, rfl, rfl⟩ := h
    exact (layoutAll_laidOut coherent hid view args hargs).map .primitive

theorem layoutAll_laidOut {t t' : ScopeTree} {id : Nat} {inPlace : Bool} {env : Env}
    {ns : List (Node Unit)} (coherent : t.Coherent) (hid : id < t.scopes.size)
    (view : t.inView id = env.stored) :
    ∀ (es : List Expr), layoutAll id inPlace es t = .ok ns t' →
      LaidOut t t' (Node.placesAll id ns) (t'.LaysOutAll id inPlace env es ns)
  | [], h => by
    simp only [layoutAll, pure_eq_ok] at h
    obtain ⟨rfl, rfl⟩ := h
    exact ⟨.refl t, coherent, .nil, .nil⟩
  | e :: es, h => by
    simp only [layoutAll, bind_eq_ok, pure_eq_ok] at h
    obtain ⟨n, t₁, hn, ns', t₂, hns, rfl, rfl⟩ := h
    have hout := layout_laidOut coherent hid view e hn
    have hout' := layoutAll_laidOut hout.coherent (hout.grown.lt_size hid)
      (hout.grown.view_eq coherent hid view) es hns
    exact hout.and hout' (fun hl => hl.carry hout'.grown.carries (Nat.zero_le _))
      fun hl hls => .cons hl hls

end

end ObjectMachine.ScopeTree
