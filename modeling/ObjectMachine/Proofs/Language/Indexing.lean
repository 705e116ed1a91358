import ObjectMachine.Proofs.Language.Resolution

namespace ObjectMachine

section Identifiers

variable {β : Type}

mutual

/-- The identifiers of a tree with what they carry: occurrences of names, and temporaries. -/
def Node.identifiers : Node β → List (String × β)
  | .literal _ | .pseudo _ => []
  | .variable name site => [(name, site)]
  | .assign name site value => (name, site) :: value.identifiers
  | .send receiver _ args => receiver.identifiers ++ identifiersAll args
  | .control _ receiver args => receiver.identifiers ++ identifiersAll args
  | .superSend _ args => identifiersAll args
  | .closure _ _ temps body => temps ++ identifiersAll body
  | .inlined _ temps body => temps ++ identifiersAll body
  | .ret value => value.identifiers
  | .primitive _ args => identifiersAll args
termination_by structural n => n

def Node.identifiersAll : List (Node β) → List (String × β)
  | [] => []
  | n :: ns => n.identifiers ++ identifiersAll ns
termination_by structural ns => ns

end

variable {t : ScopeTree} {occurs : Nat → Env → String → β → Prop}
  {declares : Nat → Place → β → Prop} {P : String × β → Prop}

theorem Temps.forall_mem {id first : Nat} {names : List String} {temps : List (String × β)}
    (h : Temps declares id first names temps)
    (hdeclares : ∀ {id place name site}, declares id place site → P (name, site)) :
    ∀ x ∈ temps, P x := by
  intro x hx
  obtain ⟨i, hi⟩ := List.getElem?_of_mem hx
  exact hdeclares (h.2 i x.1 x.2 hi)

mutual

/-- What is known of occurrences and of declarations holds of all identifiers. -/
theorem Lexical.forall_identifiers {id : Nat} {place : Bool} {env : Env} {e : Expr} {n : Node β}
    (hoccurs : ∀ {id env name site}, occurs id env name site → P (name, site))
    (hdeclares : ∀ {id place name site}, declares id place site → P (name, site)) :
    Lexical t occurs declares id place env e n → ∀ x ∈ n.identifiers, P x
  | .literal | .pseudo => nofun
  | .variable ho => List.forall_mem_singleton.mpr (hoccurs ho)
  | .assign hv ho =>
    List.forall_mem_cons.mpr ⟨hoccurs ho, hv.forall_identifiers hoccurs hdeclares⟩
  | .send _ hr hargs => List.forall_mem_append.mpr
    ⟨hr.forall_identifiers hoccurs hdeclares, hargs.forall_identifiers hoccurs hdeclares⟩
  | .control _ hr hargs => List.forall_mem_append.mpr
    ⟨hr.forall_identifiers hoccurs hdeclares, hargs.forall_identifiers hoccurs hdeclares⟩
  | .superSend hargs => hargs.forall_identifiers hoccurs hdeclares
  | .closure _ ht hbody => List.forall_mem_append.mpr
    ⟨ht.forall_mem hdeclares, hbody.forall_identifiers hoccurs hdeclares⟩
  | .inlined _ ht hbody => List.forall_mem_append.mpr
    ⟨ht.forall_mem hdeclares, hbody.forall_identifiers hoccurs hdeclares⟩
  | .ret hv =>
    have hvalue := hv.forall_identifiers hoccurs hdeclares
    hvalue
  | .primitive hargs => hargs.forall_identifiers hoccurs hdeclares

theorem LexicalAll.forall_identifiers {id : Nat} {place : Bool} {env : Env} {es : List Expr}
    {ns : List (Node β)}
    (hoccurs : ∀ {id env name site}, occurs id env name site → P (name, site))
    (hdeclares : ∀ {id place name site}, declares id place site → P (name, site)) :
    LexicalAll t occurs declares id place env es ns → ∀ x ∈ Node.identifiersAll ns, P x
  | .nil => nofun
  | .cons hn hns => List.forall_mem_append.mpr
    ⟨hn.forall_identifiers hoccurs hdeclares, hns.forall_identifiers hoccurs hdeclares⟩

end

end Identifiers

namespace ScopeTree

variable {t : ScopeTree} {name : String} {i : UInt8}

/-- A name is bound to the instance variable at its first position, cut down to eight bits. -/
theorem classBinding_eq_instanceVariable (h : t.classBinding name = .instanceVariable i) :
    ∃ k, t.instanceVariables[k]? = some name ∧ (∀ j < k, t.instanceVariables[j]? ≠ some name) ∧
      i.toNat = k % 256 := by
  rw [classBinding] at h
  cases hfind : t.instanceVariables.findIdx? (· == name) with
  | none => simp [hfind] at h
  | some k =>
    simp only [hfind, Binding.instanceVariable.injEq] at h
    obtain ⟨hk, hname, hfirst⟩ := List.findIdx?_eq_some_iff_getElem.mp hfind
    refine ⟨k, List.getElem?_eq_some_iff.mpr ⟨hk, beq_iff_eq.mp hname⟩, fun j hj heq => ?_, ?_⟩
    · obtain ⟨hlt, heq⟩ := List.getElem?_eq_some_iff.mp heq
      exact hfirst j hj (beq_iff_eq.mpr heq)
    · rw [← h, Nat.toUInt8, UInt8.toNat_ofNat']

theorem Occurs.instanceVariable {id : Nat} {env : Env}
    (h : t.Occurs id env name (.instanceVariable i)) :
    t.classBinding name = .instanceVariable i := by
  rcases h.valid with ⟨_, hdenotes⟩ | hclass
  · exact hdenotes.elim
  · exact hclass.symm

end ScopeTree

/-- An identifier that is bound to an instance variable has a first position among them, and the
slot is that position modulo 256. So it is the slot of that name if and only if the position is
below 256; beyond that the method compiles all the same. -/
theorem Method.compile_indexes {m : Method} {instanceVariables : List String} {code : CodeTemplate}
    (h : m.compile instanceVariables = .ok code) :
    ∃ r, m.resolve instanceVariables = .ok r ∧ r.compile = .ok code ∧
      ∀ name i, (name, Binding.instanceVariable i) ∈ Node.identifiersAll r.body →
        ∃ k, instanceVariables[k]? = some name ∧ (∀ j < k, instanceVariables[j]? ≠ some name) ∧
          i.toNat = k % 256 ∧ (instanceVariables[i.toNat]? = some name ↔ k < 256) := by
  obtain ⟨r, hr, hcompile⟩ := resolve_of_compile h
  obtain ⟨s, hf⟩ := resolve_follows hr
  refine ⟨r, hr, hcompile, fun name i hmem => ?_⟩
  have hclass := hf.body.forall_identifiers
    (P := fun x => ∀ i, x.2 = .instanceVariable i → r.scopes.classBinding x.1 = .instanceVariable i)
    (fun ho i heq => by
      obtain rfl := heq
      exact ho.instanceVariable)
    (fun hd i heq => by
      obtain rfl := heq
      exact hd.elim) _ hmem i rfl
  obtain ⟨k, hk, hfirst, hi⟩ := ScopeTree.classBinding_eq_instanceVariable hclass
  rw [hf.instanceVariables] at hk hfirst
  refine ⟨k, hk, hfirst, hi, fun hname => ?_, fun hlt => ?_⟩
  · by_contra hge
    exact hfirst _ (by rw [hi]; omega) hname
  · rw [hi, Nat.mod_eq_of_lt hlt, hk]

/-- A class with 257 instance variables, and a method that reads the last of them. -/
def wideNames : List String := (List.range 257).map fun k => s!"v{k}"

def wideReader : Method where
  selector := "m"
  body := [.variable "v256"]

theorem wideReader_compile_indexes : ∃ code r k, wideReader.compile wideNames = .ok code ∧
    wideReader.resolve wideNames = .ok r ∧
    ("v256", Binding.instanceVariable 0) ∈ Node.identifiersAll r.body ∧
    wideNames[k]? = some "v256" ∧ wideNames[0]? = some "v0" ∧ 256 ≤ k := by
  have hevaluated : (match wideReader.resolve wideNames, wideReader.compile wideNames with
      | .ok r, .ok _ => decide (Node.identifiersAll r.body = [("v256", .instanceVariable 0)])
      | _, _ => false) = true ∧ wideNames[0]? = some "v0" := by decide +kernel
  obtain ⟨hbound, hfirst⟩ := hevaluated
  cases hc : wideReader.compile wideNames with
  | error e => cases hr : wideReader.resolve wideNames <;> simp [hr, hc] at hbound
  | ok code =>
    obtain ⟨r, hr, -, hindexed⟩ := Method.compile_indexes hc
    have hmem : ("v256", Binding.instanceVariable 0) ∈ Node.identifiersAll r.body := by
      simp only [hr, hc, decide_eq_true_eq] at hbound
      simp [hbound]
    obtain ⟨k, hk, -, -, hright⟩ := hindexed "v256" 0 hmem
    refine ⟨code, r, k, rfl, hr, hmem, hk, hfirst, Nat.not_lt.mp fun hlt => ?_⟩
    have hwrong : some "v0" = some "v256" := hfirst.symm.trans (hright.mpr hlt)
    exact absurd hwrong (by decide)

end ObjectMachine
