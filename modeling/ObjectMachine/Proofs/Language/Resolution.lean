import ObjectMachine.Code.Compile
import ObjectMachine.Proofs.Language.FirstPass

namespace ObjectMachine

namespace Scope

variable {s : Scope} {first count : Nat}

/-- Hiding what was shown undoes it. -/
theorem veil_veil (hidden : ∀ {i : Nat} {v : Variable}, first ≤ i → s.vars[i]? = some v →
    v.visible = false) : (s.veil first count true).veil first count false = s := by
  have hvars : ((s.veil first count true).veil first count false).vars = s.vars := by
    apply Array.ext_getElem?
    intro i
    rw [getElem?_veil, getElem?_veil]
    cases hv : s.vars[i]? with
    | none => rfl
    | some v =>
      by_cases hi : first ≤ i ∧ i < first + count
      · have hvisible := hidden hi.1 hv
        simp only [Option.map_some, if_pos hi, ← hvisible]
      · simp only [Option.map_some, if_neg hi]
  exact congrArg (fun vars => { s with vars }) hvars

end Scope

namespace ScopeTree

variable {t t' : ScopeTree} {id : Nat}

structure Occurs (t : ScopeTree) (id : Nat) (env : Env) (name : String) (b : Binding) : Prop where
  lexical : ∀ place, env.innermost name = some (some place) → t.Denotes id place b
  free : env.innermost name = none → b = t.classBinding name
  valid : (∃ place, t.Denotes id place b) ∨ b = t.classBinding name

/-- What the second pass makes of an expression. -/
abbrev Binds (t : ScopeTree) : Nat → Bool → Env → Expr → Node Binding → Prop :=
  Lexical t t.Occurs t.Denotes

abbrev BindsAll (t : ScopeTree) : Nat → Bool → Env → List Expr → List (Node Binding) → Prop :=
  LexicalAll t t.Occurs t.Denotes

theorem Veiled.carries_bound {k : Nat} (hv : Veiled k t t') :
    Carries k t t' t.Occurs t'.Occurs t.Denotes t'.Denotes where
  occurs _ ho := by
    have hclass : ∀ name, t'.classBinding name = t.classBinding name := by
      intro name
      rw [classBinding, classBinding, hv.instanceVariables]
    refine ⟨fun place hp => (ho.lexical place hp).veiled hv, fun hn => ?_, ?_⟩
    · rw [hclass]
      exact ho.free hn
    · rcases ho.valid with ⟨place, hd⟩ | hfree
      · exact .inl ⟨place, hd.veiled hv⟩
      · exact .inr (hfree.trans (hclass _).symm)
  declares _ h := h.veiled hv
  opens hk h := h.veiled hv hk
  inlines _ h := h.veiled hv

/-- A look-up in the second pass. -/
theorem lookup_occurs {name : String} {env : Env} {b : Binding} {isArgument : Bool}
    (coherent : t.Coherent) (hid : id < t.scopes.size) (view : t.inView id = env.stored)
    (needs : t.Needs id env name ()) (h : lookup id name t = .ok (b, isArgument) t') :
    t' = t ∧ t.Occurs id env name b := by
  obtain ⟨rfl, hb⟩ := lookup_captured coherent hid h fun place hp => needs place (view ▸ hp)
  rw [view] at hb
  refine ⟨rfl, fun place hp => ?_, fun hn => ?_, ?_⟩
  · rw [Env.seen_stored hp] at hb
    exact hb
  · rw [Env.seen_stored_none hn] at hb
    exact hb
  · cases hseen : seen env.stored name with
    | none =>
      rw [hseen] at hb
      exact .inr hb
    | some place =>
      rw [hseen] at hb
      exact .inl ⟨place, hb⟩

theorem denotes_binding {s : Scope} {v : Variable} {i : Nat} (hs : t.scopes[id]? = some s)
    (hv : s.vars[i]? = some v) : t.Denotes id ⟨id, i⟩ v.binding := by
  rw [Variable.binding]
  cases hslot : v.heapSlot with
  | none => exact ⟨rfl, s, v, hs, hv, hslot, rfl⟩
  | some slot => exact .promoted hs hv hslot

theorem bindTemps_names (t : ScopeTree) (id first : Nat) (temps : List (String × Unit)) :
    (t.bindTemps id first temps).map Prod.fst = temps.map Prod.fst := by
  rw [bindTemps, List.map_map]
  apply List.ext_getElem?
  intro i
  simp only [List.getElem?_map, List.getElem?_zipIdx, Option.map_map]
  cases temps[i]? <;> rfl

theorem bindTemps_temps {s : Scope} {first : Nat} {names : List String}
    {temps : List (String × Unit)} (hs : t.scopes[id]? = some s)
    (hnames : temps.map Prod.fst = names) (hsize : first + names.length ≤ s.vars.size) :
    Temps t.Denotes id first names (t.bindTemps id first temps) := by
  have hlength : temps.length = names.length := by rw [← hnames, List.length_map]
  refine ⟨(bindTemps_names ..).trans hnames, fun i name b hi => ?_⟩
  rw [bindTemps, List.getElem?_map, List.getElem?_zipIdx] at hi
  cases htemp : temps[i]? with
  | none => simp [htemp] at hi
  | some temp =>
    have hlt := (List.getElem?_eq_some_iff.mp htemp).1
    obtain ⟨v, hv⟩ : ∃ v, s.vars[first + i]? = some v :=
      ⟨_, Array.getElem?_eq_getElem (by omega)⟩
    simp only [htemp, Option.map_some, Nat.zero_add, scope_eq hs, Option.some.injEq,
      Prod.mk.injEq] at hi
    obtain ⟨-, rfl⟩ := hi
    have hvar : s.vars.getD (first + i) default = v := by simp [hv]
    rw [hvar]
    exact denotes_binding hs hv

theorem Opens.view {scope : Nat} {params temps : List String} {s : Scope} {env : Env}
    (ho : t.Opens scope id params temps s) (view : t.inView id = env.stored) :
    t.inView scope = (env.declare scope 0 (params ++ temps)).stored := by
  rw [inView_eq ho.found, ho.parent, Env.stored_declare, ← view, ho.shown]
  simp only [if_pos ho.lt]

/-- Showing the temporaries of an inlined block brings them into view, and hiding them again leads
back. -/
theorem setVisible_spec {s : Scope} {first : Nat} {env : Env} {temps : List String}
    (hi : t.Inlines id first env temps s) (view : t.inView id = env.stored) :
    (t.setVisible id first temps.length true).inView id = declared id first temps ++ env.stored ∧
      (t.setVisible id first temps.length true).setVisible id first temps.length false = t ∧
      Veiled id t (t.setVisible id first temps.length true) := by
  have above : ∀ name place, (name, place) ∈ s.shown id → place.index < first := by
    intro name place hmem
    refine hi.above name place ?_ (Scope.of_mem_shownBelow hmem).1
    rw [← view, inView_eq hi.found]
    exact List.mem_append_left _ hmem
  refine ⟨?_, ?_, veiled_setVisible ..⟩
  · rw [← view]
    exact inView_modifyScope hi.found rfl (Scope.shown_veil hi.names hi.size above)
  · refine (modifyScope_modifyScope ..).trans (modifyScope_self hi.found ?_)
    exact Scope.veil_veil fun hle hv => Scope.hidden_of_above above hle hv

theorem size_setVisible (t : ScopeTree) (id first count : Nat) (visible : Bool) :
    (t.setVisible id first count visible).scopes.size = t.scopes.size := by
  simp [setVisible, modifyScope]

mutual

/-- The second pass changes nothing and binds every name as its declaration says. -/
theorem bind_binds {t t' : ScopeTree} {id : Nat} {inPlace : Bool} {env : Env} {e : Expr}
    {n : Node Unit} {n' : Node Binding} (coherent : t.Coherent) (hid : id < t.scopes.size)
    (view : t.inView id = env.stored) (h : bind id n t = .ok n' t') :
    t.LaysOut id inPlace env e n →
      t' = t ∧ t.Binds id inPlace env e n' ∧ n'.places id = n.places id
  | .literal => by
    simp only [bind, pure_eq_ok] at h
    obtain ⟨rfl, rfl⟩ := h
    exact ⟨rfl, .literal, rfl⟩
  | .pseudo => by
    simp only [bind, pure_eq_ok] at h
    obtain ⟨rfl, rfl⟩ := h
    exact ⟨rfl, .pseudo, rfl⟩
  | .variable ho => by
    simp only [bind, bind_eq_ok, pure_eq_ok] at h
    obtain ⟨b, t₁, hresolve, rfl, rfl⟩ := h
    obtain ⟨isArgument, hlookup⟩ := resolve_eq_ok hresolve
    obtain ⟨rfl, hoccurs⟩ := lookup_occurs coherent hid view ho hlookup
    exact ⟨rfl, .variable hoccurs, rfl⟩
  | .assign hv ho => by
    simp only [bind, bind_eq_ok, pure_eq_ok] at h
    obtain ⟨value, t₁, hvalue, b, t₂, hresolve, rfl, rfl⟩ := h
    obtain ⟨rfl, hbinds, hplaces⟩ := bind_binds coherent hid view hvalue hv
    obtain ⟨rfl, hoccurs⟩ :=
      lookup_occurs coherent hid view ho (resolveAssignment_eq_ok hresolve)
    exact ⟨rfl, .assign hbinds hoccurs, hplaces⟩
  | .send hform hr hargs => by
    simp only [bind, bind_eq_ok, pure_eq_ok] at h
    obtain ⟨receiver, t₁, hreceiver, args, t₂, hargs', rfl, rfl⟩ := h
    obtain ⟨rfl, hbinds, hplaces⟩ := bind_binds coherent hid view hreceiver hr
    obtain ⟨rfl, hbinds', hplaces'⟩ := bindAll_binds coherent hid view hargs' hargs
    exact ⟨rfl, .send hform hbinds hbinds', by rw [Node.places, Node.places, hplaces, hplaces']⟩
  | .control hform hr hargs => by
    simp only [bind, bind_eq_ok, pure_eq_ok] at h
    obtain ⟨receiver, t₁, hreceiver, args, t₂, hargs', rfl, rfl⟩ := h
    obtain ⟨rfl, hbinds, hplaces⟩ := bind_binds coherent hid view hreceiver hr
    obtain ⟨rfl, hbinds', hplaces'⟩ := bindAll_binds coherent hid view hargs' hargs
    exact ⟨rfl, .control hform hbinds hbinds', by rw [Node.places, Node.places, hplaces, hplaces']⟩
  | .superSend hargs => by
    simp only [bind, bind_eq_ok, pure_eq_ok] at h
    obtain ⟨args, t₁, hargs', rfl, rfl⟩ := h
    obtain ⟨rfl, hbinds, hplaces⟩ := bindAll_binds coherent hid view hargs' hargs
    exact ⟨rfl, .superSend hbinds, hplaces⟩
  | .closure ho ht hbody => by
    simp only [bind, bind_eq_ok, get_eq_ok, pure_eq_ok] at h
    obtain ⟨body, t₁, hbody', _, _, ⟨rfl, rfl⟩, rfl, rfl⟩ := h
    obtain ⟨rfl, hbinds, hplaces⟩ := bindAll_binds coherent
      (Array.getElem?_eq_some_iff.mp ho.found).1 (ho.view view) hbody' hbody
    have htemps := bindTemps_temps ho.found ht.1 ho.size
    refine ⟨rfl, .closure ho htemps hbinds, ?_⟩
    have hlength := congrArg List.length (htemps.1.trans ht.1.symm)
    simp only [List.length_map] at hlength
    rw [Node.places, Node.places, hplaces, hlength]
  | .inlined hi ht hbody => by
    have hlength : ∀ {temps : List (String × Unit)} {names}, temps.map Prod.fst = names →
        temps.length = names.length := fun h => by rw [← h, List.length_map]
    simp only [bind, bind_eq_ok, modify_eq_ok, get_eq_ok, pure_eq_ok, hlength ht.1] at h
    obtain ⟨-, t₁, rfl, body, t₂, hbody', -, t₃, rfl, _, _, ⟨rfl, rfl⟩, rfl, rfl⟩ := h
    obtain ⟨hview, hback, hveiled⟩ := setVisible_spec hi view
    obtain ⟨rfl, hbinds, hplaces⟩ := bindAll_binds (Coherent.veiled coherent hveiled)
      ((size_setVisible ..).symm ▸ hid) (by rw [hview, Env.stored_declare, Env.stored_mask]) hbody'
      (hbody.carry hveiled.carries (Nat.le_refl id))
    rw [hback]
    have htemps := bindTemps_temps hi.found ht.1 hi.size
    refine ⟨rfl, .inlined hi htemps
      (hbinds.carry hveiled.symm.carries_bound (Nat.le_refl id)), ?_⟩
    have hlength' := congrArg List.length (htemps.1.trans ht.1.symm)
    simp only [List.length_map] at hlength'
    rw [Node.places, Node.places, hplaces, hlength']
  | .ret hv => by
    simp only [bind, bind_eq_ok, pure_eq_ok] at h
    obtain ⟨value, t₁, hvalue, rfl, rfl⟩ := h
    obtain ⟨rfl, hbinds, hplaces⟩ := bind_binds coherent hid view hvalue hv
    exact ⟨rfl, .ret hbinds, hplaces⟩
  | .primitive hargs => by
    simp only [bind, bind_eq_ok, pure_eq_ok] at h
    obtain ⟨args, t₁, hargs', rfl, rfl⟩ := h
    obtain ⟨rfl, hbinds, hplaces⟩ := bindAll_binds coherent hid view hargs' hargs
    exact ⟨rfl, .primitive hbinds, hplaces⟩

theorem bindAll_binds {t t' : ScopeTree} {id : Nat} {inPlace : Bool} {env : Env} {es : List Expr}
    {ns : List (Node Unit)} {ns' : List (Node Binding)} (coherent : t.Coherent)
    (hid : id < t.scopes.size) (view : t.inView id = env.stored)
    (h : bindAll id ns t = .ok ns' t') :
    t.LaysOutAll id inPlace env es ns →
      t' = t ∧ t.BindsAll id inPlace env es ns' ∧ Node.placesAll id ns' = Node.placesAll id ns
  | .nil => by
    simp only [bindAll, pure_eq_ok] at h
    obtain ⟨rfl, rfl⟩ := h
    exact ⟨rfl, .nil, rfl⟩
  | .cons hn hns => by
    simp only [bindAll, bind_eq_ok, pure_eq_ok] at h
    obtain ⟨n', t₁, hn', ns'', t₂, hns', rfl, rfl⟩ := h
    obtain ⟨rfl, hbinds, hplaces⟩ := bind_binds coherent hid view hn' hn
    obtain ⟨rfl, hbinds', hplaces'⟩ := bindAll_binds coherent hid view hns' hns
    exact ⟨rfl, .cons hbinds hbinds', by rw [Node.placesAll, Node.placesAll, hplaces, hplaces']⟩

end

end ScopeTree

structure ResolvedMethod.Follows (r : ResolvedMethod) (m : Method) (instanceVariables : List String)
    (s : Scope) : Prop where
  instanceVariables : r.scopes.instanceVariables = instanceVariables
  coherent : r.scopes.Coherent
  found : r.scopes.scopes[0]? = some s
  kind : s.kind = .method
  parent : s.parent = none
  args : s.args = m.params.length
  size : m.params.length + m.temps.length ≤ s.vars.size
  body : r.scopes.BindsAll 0 false (Env.declare [] 0 0 (m.params ++ m.temps)) m.body r.body
  apart : ((List.range (m.params.length + m.temps.length)).map (Place.mk 0) ++
    Node.placesAll 0 r.body).Nodup
  selector : r.selector = m.selector
  endsWithReturn : r.endsWithReturn = m.endsWithReturn

/-- The two passes over a method. The second leaves the scopes as the first made them. -/
theorem Method.resolve_passes {m : Method} {instanceVariables : List String} {r : ResolvedMethod}
    (h : m.resolve instanceVariables = .ok r) :
    ∃ t₀ t₁ t₂ first first' ns s, ScopeTree.push .method none { instanceVariables } = .ok 0 t₀ ∧
      ScopeTree.declareAll 0 m.params .argument t₀ = .ok first t₁ ∧
      ScopeTree.declareAll 0 m.temps .local t₁ = .ok first' t₂ ∧
      ScopeTree.layoutAll 0 false m.body t₂ = .ok ns r.scopes ∧
      ScopeTree.bindAll 0 ns r.scopes = .ok r.body r.scopes ∧
      ScopeTree.Enters { instanceVariables } t₂ 0 .method none m.params m.temps s ∧
      ScopeTree.LaidOut t₂ r.scopes (Node.placesAll 0 ns) (r.scopes.LaysOutAll 0 false
        (Env.declare [] 0 0 (m.params ++ m.temps)) m.body ns) ∧
      r.scopes.BindsAll 0 false (Env.declare [] 0 0 (m.params ++ m.temps)) m.body r.body ∧
      Node.placesAll 0 r.body = Node.placesAll 0 ns ∧ r.selector = m.selector ∧
      r.endsWithReturn = m.endsWithReturn := by
  rw [resolve] at h
  cases hbody : (ScopeTree.resolveBody m).run { instanceVariables } with
  | error e t => simp [hbody] at h
  | ok body t =>
    simp only [hbody, Except.ok.injEq] at h
    subst h
    simp only [EStateM.run, ScopeTree.resolveBody, bind_eq_ok] at hbody
    obtain ⟨scope, t₀, hpush, first, t₁, hparams, first', t₂, htemps, ns, t₃, hlayout, hbind⟩ :=
      hbody
    have hempty : ScopeTree.Coherent { instanceVariables } := fun hs => by simp at hs
    obtain ⟨s, hs⟩ := ScopeTree.enters hempty (fun p hp => by cases hp) hpush hparams htemps
    obtain rfl : scope = 0 := hs.number
    have hid := (Array.getElem?_eq_some_iff.mp hs.found).1
    have hview : t₂.inView 0 = (Env.declare [] 0 0 (m.params ++ m.temps)).stored := by
      rw [hs.view, Env.stored_declare]
      rfl
    have hout := ScopeTree.layoutAll_laidOut hs.coherent hid hview m.body hlayout
    obtain ⟨rfl, hbinds, hplaces⟩ := ScopeTree.bindAll_binds hout.coherent (hout.grown.lt_size hid)
      (hout.grown.view_eq hs.coherent hid hview) hbind hout.lexical
    exact ⟨t₀, t₁, t₂, first, first', ns, s, hpush, hparams, htemps, hlayout, hbind, hs, hout,
      hbinds, hplaces, rfl, rfl⟩

theorem Method.resolve_follows {m : Method} {instanceVariables : List String} {r : ResolvedMethod}
    (h : m.resolve instanceVariables = .ok r) : ∃ s, r.Follows m instanceVariables s := by
  obtain ⟨-, -, t₂, -, -, ns, s, -, -, -, -, -, hs, hout, hbinds, hplaces, hselector, hreturn⟩ :=
    resolve_passes h
  obtain ⟨s', hs', hgs⟩ := hout.grown.scopes hs.found
  have hfresh := hs.fresh.append hout.fresh (fun _ hh => hh.mono hs.grown)
    fun _ hh => hh.mono hout.grown
  exact ⟨s', (hs.grown.trans hout.grown).instanceVariables, hout.coherent, hs',
    hgs.kind.trans hs.kind, hgs.parent.trans hs.parent, hgs.args.trans hs.args,
    hs.size ▸ hgs.size, hbinds, hplaces ▸ hfresh.nodup, hselector, hreturn⟩

theorem Method.resolve_of_compile {m : Method} {instanceVariables : List String}
    {code : CodeTemplate} (h : m.compile instanceVariables = .ok code) :
    ∃ r, m.resolve instanceVariables = .ok r ∧ r.compile = .ok code := by
  rw [compile] at h
  cases hr : m.resolve instanceVariables with
  | error e => simp [hr] at h
  | ok r =>
    rw [hr] at h
    exact ⟨r, rfl, h⟩

/-- Names are resolved lexically and storage is coherent. Every occurrence of a name leads to its
innermost declaration, unless that is a parameter of a block that is evaluated where it stands, for
which there is no variable. A binding leads to one variable, from one scope to the next, and all
uses of a variable in a scope have one binding. -/
theorem Method.resolve_lexical {m : Method} {instanceVariables : List String} {code : CodeTemplate}
    (h : m.compile instanceVariables = .ok code) :
    ∃ r, m.resolve instanceVariables = .ok r ∧
      r.scopes.BindsAll 0 false (Env.declare [] 0 0 (m.params ++ m.temps)) m.body r.body ∧
      ((List.range (m.params.length + m.temps.length)).map (Place.mk 0) ++
        Node.placesAll 0 r.body).Nodup ∧
      (∀ id slot place place', r.scopes.Holds id slot place → r.scopes.Holds id slot place' →
        place = place') ∧
      ∀ id place b b', r.scopes.Denotes id place b → r.scopes.Denotes id place b' → b = b' := by
  obtain ⟨r, hr, -⟩ := resolve_of_compile h
  obtain ⟨s, hf⟩ := resolve_follows hr
  exact ⟨r, hr, hf.body, hf.apart, fun _ _ _ _ h h' => h.place_unique hf.coherent h',
    fun _ _ _ _ h h' => h.unique hf.coherent h'⟩

def nested : Method where
  selector := "run:"
  params := ["x"]
  temps := ["y"]
  body := [
    .assign "y" (.block ["z"] [] [
      .block [] ["x"] [.assign "x" (.variable "z"), .variable "y"]]),
    .send (.variable "x") "ifTrue:" [.block [] ["t"] [.assign "t" (.variable "x")]]]

theorem nested_compile : ∃ code, nested.compile ["x"] = .ok code := by
  have hok : (nested.compile ["x"]).isOk = true := by decide +kernel
  cases hc : nested.compile ["x"] with
  | error e => simp [hc, Except.isOk, Except.toBool] at hok
  | ok code => exact ⟨code, rfl⟩

theorem nested_resolve_lexical : ∃ code, nested.compile ["x"] = .ok code ∧
    ∃ r, nested.resolve ["x"] = .ok r ∧
      r.scopes.BindsAll 0 false (Env.declare [] 0 0 ["x", "y"]) nested.body r.body := by
  obtain ⟨code, hcode⟩ := nested_compile
  obtain ⟨r, hr, hbody, -⟩ := Method.resolve_lexical hcode
  exact ⟨code, hcode, r, hr, hbody⟩

end ObjectMachine
