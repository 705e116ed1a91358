import Mathlib.Data.List.Nodup
import Mathlib.Data.Option.Basic
import ObjectMachine.Proofs.Language.Evaluation
import ObjectMachine.Proofs.Language.Resolution

namespace ObjectMachine

namespace ControlForm

theorem selector_of_ofSelector? {selector : String} {form : ControlForm}
    (h : ofSelector? selector = some form) : form.selector = selector := by
  have := List.find?_some h
  simpa using this

end ControlForm

theorem BinaryOp.selector_of_ofSelector? {selector : String} {op : BinaryOp}
    (h : ofSelector? selector = some op) : op.selector = selector := by
  have := Array.find?_some h
  simpa using this

/-- No selector is both an operator and a control structure. -/
theorem ControlForm.ofSelector?_eq_none {selector : String} {op : BinaryOp}
    (h : BinaryOp.ofSelector? selector = some op) : ofSelector? selector = none := by
  rw [← BinaryOp.selector_of_ofSelector? h]
  cases op <;> decide

theorem FirstOrderBlocks.all_plain {names : List String} {es : List Expr}
    (h : FirstOrderBlocks names es) : es.all Expr.isPlainBlock = true := by
  induction es with
  | nil => rfl
  | cons e es ih =>
    cases h with
    | cons _ hrest => rw [List.all_cons, ih hrest]; rfl

namespace ControlForm

variable {names : List String} {form : ControlForm} {selector : String} {receiver : Expr}
  {args : List Expr}

theorem recognize_conditional (hform : ofSelector? selector = some form)
    (hloop : form.isLoop = false) (hargs : FirstOrderBlocks names args) :
    recognize receiver selector args = some form := by
  simp [recognize, hform, hloop, hargs.all_plain, guard]

theorem recognize_loop (hform : ofSelector? selector = some form)
    (hblocks : FirstOrderBlocks names (receiver :: args)) :
    recognize receiver selector args = some form := by
  have hall := hblocks.all_plain
  rw [List.all_cons, Bool.and_eq_true] at hall
  simp [recognize, hform, hall.1, hall.2, guard]

theorem recognize_operator {op : BinaryOp} (hop : BinaryOp.ofSelector? selector = some op) :
    recognize receiver selector args = none := by
  simp [recognize, ofSelector?_eq_none hop]

end ControlForm

namespace ScopeTree

def Plain (t : ScopeTree) : Prop :=
  ∃ s, t.scopes[0]? = some s ∧ s.parent = none ∧ s.heapVars = #[]

variable {t t' : ScopeTree}

theorem Plain.modifyScope {f : Scope → Scope} (hp : t.Plain)
    (hparent : ∀ s, (f s).parent = s.parent) (hslots : ∀ s, (f s).heapVars = s.heapVars) :
    (t.modifyScope 0 f).Plain := by
  obtain ⟨s, hs, hnone, hempty⟩ := hp
  exact ⟨f s, scopes_modifyScope_self hs, (hparent s).trans hnone, (hslots s).trans hempty⟩

theorem Plain.declareAll {names : List String} {kind : VariableKind} {first : Nat} (hp : t.Plain)
    (h : declareAll 0 names kind t = .ok first t') : t'.Plain := by
  have ⟨s, hs, _, _⟩ := hp
  rw [ScopeTree.declareAll, get_bind] at h
  simp only [bind_eq_ok, pure_eq_ok] at h
  obtain ⟨u, t₁, hfrom, -, rfl⟩ := h
  obtain ⟨-, rfl⟩ := declareFrom_eq_ok hs hfrom
  exact hp.modifyScope (fun s => (s.widened kind names).parent)
    fun s => (s.widened kind names).heapVars

theorem Plain.lookup {name : String} {r : Binding × Bool} (hp : t.Plain)
    (h : lookup 0 name t = .ok r t') : t' = t := by
  obtain ⟨s, hs, hnone, -⟩ := hp
  rw [ScopeTree.lookup] at h
  split at h
  case isTrue => simp only [bind_eq_ok, throw_eq_ok, false_and, exists_false] at h
  case isFalse =>
    simp only [get_bind, scope_eq hs, hnone] at h
    cases hfind : s.find? name with
    | some index =>
      simp only [hfind, pure_eq_ok] at h
      exact h.2.symm
    | none =>
      simp only [hfind, bind_eq_ok, pure_eq_ok] at h
      obtain ⟨found, _, ⟨rfl, rfl⟩, h⟩ := h
      cases hclass : t.instanceVariables.findIdx? (· == name) <;>
      · simp only [classLookup, hclass, pure_eq_ok] at h
        exact h.2.symm

theorem Plain.resolve {name : String} {b : Binding} (hp : t.Plain)
    (h : resolve 0 name t = .ok b t') : t'.Plain := by
  obtain ⟨_, hlookup⟩ := resolve_eq_ok h
  rwa [hp.lookup hlookup]

theorem Plain.resolveAssignment {name : String} {b : Binding} (hp : t.Plain)
    (h : resolveAssignment 0 name t = .ok b t') : t'.Plain := by
  rwa [hp.lookup (resolveAssignment_eq_ok h)]

theorem layoutAll_cons {t₁ : ScopeTree} {inPlace : Bool} {e : Expr} {es : List Expr}
    {n : Node Unit} {ns : List (Node Unit)} (h : layout 0 inPlace e t = .ok n t₁)
    (hs : layoutAll 0 inPlace es t₁ = .ok ns t') :
    layoutAll 0 inPlace (e :: es) t = .ok (n :: ns) t' := by
  simp only [layoutAll, bind_eq_ok, pure_eq_ok]
  exact ⟨n, t₁, h, ns, t', hs, rfl, rfl⟩

mutual

theorem layout_plain {t t' : ScopeTree} {inPlace : Bool} {names : List String} {e : Expr}
    {n : Node Unit} (hp : t.Plain) (h : layout 0 inPlace e t = .ok n t') :
    FirstOrder names e → t'.Plain
  | .integer | .self | .nil | .true | .false => by
    simp only [layout, pure_eq_ok] at h
    exact h.2 ▸ hp
  | .variable _ => by
    simp only [layout, bind_eq_ok, pure_eq_ok] at h
    obtain ⟨b, _, hresolve, -, rfl⟩ := h
    exact hp.resolve hresolve
  | .assign _ hv => by
    simp only [layout, bind_eq_ok, pure_eq_ok] at h
    obtain ⟨value, t₁, hvalue, b, _, hresolve, -, rfl⟩ := h
    exact (layout_plain hp hvalue hv).resolveAssignment hresolve
  | .ret hv => by
    simp only [layout, bind_eq_ok, pure_eq_ok] at h
    obtain ⟨value, _, hvalue, -, rfl⟩ := h
    exact layout_plain hp hvalue hv
  | .operator hop hr ha => by
    simp only [layout, ControlForm.recognize_operator hop, layoutAll, bind_eq_ok, pure_eq_ok] at h
    obtain ⟨receiver, t₁, hreceiver, args, _, ⟨arg, _, harg, _, _, ⟨rfl, rfl⟩, rfl, rfl⟩, -,
      rfl⟩ := h
    exact layout_plain (layout_plain hp hreceiver hr) harg ha
  | .conditional hform hloop _ hr hargs => by
    simp only [layout, ControlForm.recognize_conditional hform hloop hargs, bind_eq_ok,
      pure_eq_ok] at h
    obtain ⟨receiver, t₁, hreceiver, args, _, hargs', -, rfl⟩ := h
    exact layoutBlocks_plain (layout_plain hp hreceiver hr) hargs' hargs
  | .loop hform _ _ hblocks => by
    simp only [layout, ControlForm.recognize_loop hform hblocks, bind_eq_ok, pure_eq_ok] at h
    obtain ⟨receiver, t₁, hreceiver, args, _, hargs, -, rfl⟩ := h
    exact layoutBlocks_plain hp (layoutAll_cons hreceiver hargs) hblocks

theorem layoutBlocks_plain {t t' : ScopeTree} {names : List String} {es : List Expr}
    {ns : List (Node Unit)} (hp : t.Plain) (h : layoutAll 0 true es t = .ok ns t') :
    FirstOrderBlocks names es → t'.Plain
  | .nil => by
    simp only [layoutAll, pure_eq_ok] at h
    exact h.2 ▸ hp
  | .cons hbody hrest => by
    simp only [layoutAll, layout, if_true, bind_eq_ok, modify_eq_ok, pure_eq_ok] at h
    obtain ⟨_, t₁, ⟨first, t₂, hdeclare, body, t₃, hbody', -, _, rfl, -, rfl⟩, ns', _, hns', -,
      rfl⟩ := h
    have hin := layoutAll_plain (hp.declareAll hdeclare) hbody' hbody
    have hout : ∀ count, (t₃.setVisible 0 first count false).Plain :=
      fun _ => hin.modifyScope (fun _ => rfl) fun _ => rfl
    exact layoutBlocks_plain (hout _) hns' hrest

theorem layoutAll_plain {t t' : ScopeTree} {inPlace : Bool} {names : List String}
    {es : List Expr} {ns : List (Node Unit)} (hp : t.Plain)
    (h : layoutAll 0 inPlace es t = .ok ns t') : FirstOrderAll names es → t'.Plain
  | .nil => by
    simp only [layoutAll, pure_eq_ok] at h
    exact h.2 ▸ hp
  | .cons he hes => by
    simp only [layoutAll, bind_eq_ok, pure_eq_ok] at h
    obtain ⟨n, t₁, hn, ns', _, hns', -, rfl⟩ := h
    exact layoutAll_plain (layout_plain hp hn he) hns' hes

end

theorem Plain.denotes {place : Place} {b : Binding} (hp : t.Plain) (coherent : t.Coherent)
    (h : t.Denotes 0 place b) : ∃ reg, b = .register reg ∧ place.owner = 0 ∧
      reg.toNat = place.index + 1 ∧ ∃ s, t.scopes[0]? = some s ∧ place.index < s.vars.size := by
  obtain ⟨s, hs, hnone, hempty⟩ := hp
  cases b with
  | register reg =>
    obtain ⟨howner, s', v, hs', hv, -, rfl⟩ := h
    exact ⟨v.register, rfl, howner, (coherent hs').register hv, s', hs',
      (Array.getElem?_eq_some_iff.mp hv).1⟩
  | own slot =>
    obtain ⟨s', hs', hlt⟩ := Holds.lt_size coherent h
    obtain rfl := Option.some.inj (hs.symm.trans hs')
    rw [hempty] at hlt
    cases hlt
  | parent slot =>
    obtain ⟨s', parent, hs', hparent, -, -⟩ := h
    obtain rfl := Option.some.inj (hs.symm.trans hs')
    rw [hnone] at hparent
    cases hparent
  | instanceVariable => exact h.elim
  | global => exact h.elim

end ScopeTree

theorem Method.resolve_plain {m : Method} {instanceVariables : List String} {r : ResolvedMethod}
    (hm : m.FirstOrder) (h : m.resolve instanceVariables = .ok r) : r.scopes.Plain := by
  obtain ⟨t₀, t₁, t₂, first, first', ns, s, hpush, hparams, htemps, hlayout, -⟩ :=
    resolve_passes h
  obtain ⟨_, rfl⟩ := ScopeTree.push_eq_ok hpush
  have hopened : ScopeTree.Plain (ScopeTree.opened { instanceVariables } .method none) :=
    ⟨{ kind := .method, parent := none }, ScopeTree.opened_new, rfl, rfl⟩
  exact ScopeTree.layoutAll_plain ((hopened.declareAll hparams).declareAll htemps) hlayout hm

/-- All declarations have variables of their own among the first `size` of the method. -/
structure Env.Registered (env : Env) (size : Nat) : Prop where
  held : ∀ entry ∈ env, ∃ index, entry.2 = some ⟨0, index⟩ ∧ index < size
  apart : (env.map Prod.snd).Nodup

structure Env.Knows (env : Env) (names : List String) (size : Nat) : Prop
    extends env.Registered size where
  names : ∀ name ∈ names, name ∈ env.map Prod.fst

namespace Env

variable {env : Env} {size : Nat} {name : String}

theorem innermost_cons (name' : String) (place : Option Place) :
    innermost ((name', place) :: env) name =
      if name' = name then some place else env.innermost name := by
  rw [innermost, innermost, List.find?_cons]
  by_cases h : name' = name
  · simp [h]
  · rw [beq_false_of_ne h, if_neg h]

theorem innermost_of_mem (h : name ∈ env.map Prod.fst) :
    ∃ place, env.innermost name = some place := by
  obtain ⟨entry, hmem, hname⟩ := List.mem_map.mp h
  have hsome : (env.find? (·.1 == name)).isSome := by
    rw [List.find?_isSome]
    exact ⟨entry, hmem, by simp [hname]⟩
  obtain ⟨found, hfound⟩ := Option.isSome_iff_exists.mp hsome
  exact ⟨found.2, by rw [innermost, hfound, Option.map_some]⟩

theorem mem_of_innermost {place : Option Place} (h : env.innermost name = some place) :
    place ∈ env.map Prod.snd := by
  obtain ⟨entry, hfound, rfl⟩ := Option.map_eq_some_iff.mp h
  exact List.mem_map_of_mem (List.mem_of_find?_eq_some hfound)

theorem Registered.innermost (hreg : env.Registered size) (h : name ∈ env.map Prod.fst) :
    ∃ index, env.innermost name = some (some ⟨0, index⟩) ∧ index < size := by
  obtain ⟨place, hplace⟩ := innermost_of_mem h
  obtain ⟨entry, hmem, rfl⟩ := List.mem_map.mp (mem_of_innermost hplace)
  obtain ⟨index, hindex, hlt⟩ := hreg.held entry hmem
  exact ⟨index, hindex ▸ hplace, hlt⟩

theorem names_declare (owner first : Nat) (names : List String) :
    (env.declare owner first names).map Prod.fst = names.reverse ++ env.map Prod.fst := by
  have hzip : (names.zipIdx first).map Prod.fst = names := List.zipIdx_map_fst ..
  simp only [declare, declared, List.map_append, List.map_map, List.map_reverse]
  rw [← hzip]
  simp [Function.comp_def]

/-- New declarations above all others. -/
theorem Registered.declare {first : Nat} {names : List String} (hreg : env.Registered size)
    (hsize : first + names.length ≤ size)
    (above : ∀ name place, (name, place) ∈ env.stored → place.owner = 0 → place.index < first) :
    (env.declare 0 first names).Registered size := by
  have hnew : ∀ entry ∈ (declared 0 first names).map (fun x => (x.1, some x.2)),
      ∃ index, entry.2 = some ⟨0, index⟩ ∧ first ≤ index ∧ index < first + names.length := by
    intro entry hmem
    simp only [declared, List.map_reverse, List.mem_reverse, List.map_map, List.mem_map] at hmem
    obtain ⟨⟨name, i⟩, hzip, rfl⟩ := hmem
    have := List.mem_zipIdx hzip
    exact ⟨i, rfl, this.1, by omega⟩
  refine ⟨fun entry hmem => ?_, ?_⟩
  · rcases List.mem_append.mp hmem with hmem | hmem
    · obtain ⟨index, hindex, -, hlt⟩ := hnew entry hmem
      exact ⟨index, hindex, by omega⟩
    · exact hreg.held entry hmem
  · rw [Env.declare, List.map_append, List.nodup_append]
    refine ⟨?_, hreg.apart, ?_⟩
    · have hplaces : ((names.zipIdx first).map fun x => some (Place.mk 0 x.2)).Nodup := by
        have hinj : Function.Injective fun i => some (Place.mk 0 i) := fun i j h => by
          simpa using h
        have hrange : ((names.zipIdx first).map Prod.snd).Nodup := by
          rw [List.zipIdx_map_snd]
          exact List.nodup_range'
        have hmapped := hrange.map hinj
        rwa [List.map_map] at hmapped
      simpa [declared, Function.comp_def] using hplaces
    · rintro _ hleft _ hright rfl
      obtain ⟨entry, hmem, rfl⟩ := List.mem_map.mp hleft
      obtain ⟨index, hindex, hle, -⟩ := hnew entry hmem
      obtain ⟨⟨name, place⟩, hmem', heq⟩ := List.mem_map.mp hright
      have hstored : (name, (⟨0, index⟩ : Place)) ∈ env.stored :=
        List.mem_filterMap.mpr ⟨(name, place), hmem', by simp_all⟩
      have := above name ⟨0, index⟩ hstored rfl
      exact absurd this (Nat.not_lt.mpr hle)

theorem Knows.declare {first : Nat} {names temps : List String} (h : env.Knows names size)
    (hsize : first + temps.length ≤ size)
    (above : ∀ name place, (name, place) ∈ env.stored → place.owner = 0 → place.index < first) :
    (env.declare 0 first temps).Knows (temps ++ names) size := by
  refine ⟨h.toRegistered.declare hsize above, fun name hmem => ?_⟩
  rw [names_declare, List.mem_append, List.mem_reverse]
  exact (List.mem_append.mp hmem).imp_right (h.names name)

end Env

end ObjectMachine
