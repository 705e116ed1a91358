import ObjectMachine.Language.Resolve
import ObjectMachine.Proofs.Language.Lookup

namespace ObjectMachine

/-- The declarations around an expression, innermost first, with the variables made for them. The
parameters of a block that is evaluated where it stands have none. -/
abbrev Env := List (String × Option Place)

/-- The variables of scope `owner` that names in a row stand for, the last of them first. -/
def declared (owner first : Nat) (names : List String) : List (String × Place) :=
  ((names.zipIdx first).map fun (name, i) => (name, ⟨owner, i⟩)).reverse

theorem declared_snoc (owner first : Nat) (names : List String) (name : String) :
    declared owner first (names ++ [name]) =
      (name, ⟨owner, first + names.length⟩) :: declared owner first names := by
  simp [declared, List.zipIdx_append]

theorem declared_append (owner first : Nat) (names names' : List String) :
    declared owner first (names ++ names') =
      declared owner (first + names.length) names' ++ declared owner first names := by
  simp [declared, List.zipIdx_append]

namespace Env

def declare (env : Env) (owner first : Nat) (names : List String) : Env :=
  (declared owner first names).map (fun (name, place) => (name, some place)) ++ env

def mask (env : Env) (names : List String) : Env := names.map (·, none) ++ env

def innermost (env : Env) (name : String) : Option (Option Place) :=
  (env.find? (·.1 == name)).map (·.2)

def stored (env : Env) : List (String × Place) :=
  env.filterMap fun (name, place) => place.map (name, ·)

theorem stored_declare (env : Env) (owner first : Nat) (names : List String) :
    (env.declare owner first names).stored = declared owner first names ++ env.stored := by
  rw [stored, declare, List.filterMap_append, List.filterMap_map]
  exact congrArg (· ++ env.stored) List.filterMap_some

theorem stored_mask (env : Env) (names : List String) : (env.mask names).stored = env.stored := by
  simp [mask, stored]

theorem seen_stored {env : Env} {name : String} {place : Place}
    (h : env.innermost name = some (some place)) :
    ScopeTree.seen env.stored name = some place := by
  induction env with
  | nil => cases h
  | cons entry env ih =>
    obtain ⟨name', place'⟩ := entry
    rw [innermost, List.find?_cons] at h
    cases hname : name' == name with
    | true =>
      simp only [hname, Option.map_some, Option.some.injEq] at h
      subst h
      simp [stored, ScopeTree.seen, hname]
    | false =>
      simp only [hname] at h
      have hrest := ih h
      cases place' with
      | none => simpa [stored] using hrest
      | some p => simpa [stored, ScopeTree.seen, hname] using hrest

theorem seen_stored_none {env : Env} {name : String} (h : env.innermost name = none) :
    ScopeTree.seen env.stored name = none := by
  induction env with
  | nil => rfl
  | cons entry env ih =>
    obtain ⟨name', place'⟩ := entry
    rw [innermost, List.find?_cons] at h
    cases hname : name' == name with
    | true => simp [hname] at h
    | false =>
      simp only [hname] at h
      have hrest := ih h
      cases place' with
      | none => simpa [stored] using hrest
      | some p => simpa [stored, ScopeTree.seen, hname] using hrest

end Env

section Lexical

variable {β : Type} (t : ScopeTree) (occurs : Nat → Env → String → β → Prop)
  (declares : Nat → Place → β → Prop)

def Temps (id first : Nat) (names : List String) (temps : List (String × β)) : Prop :=
  temps.map Prod.fst = names ∧ ∀ (i : Nat) (name : String) (site : β),
    temps[i]? = some (name, site) → declares id ⟨id, first + i⟩ site

structure ScopeTree.Opens (scope id : Nat) (params temps : List String) (s : Scope) : Prop where
  found : t.scopes[scope]? = some s
  kind : s.kind = .block
  parent : s.parent = some id
  lt : id < scope
  args : s.args = params.length
  size : params.length + temps.length ≤ s.vars.size
  shown : s.shown scope = declared scope 0 (params ++ temps)

/-- The temporaries of an inlined block come after all that can be seen in the scope around it. -/
structure ScopeTree.Inlines (id first : Nat) (env : Env) (temps : List String) (s : Scope) :
    Prop where
  found : t.scopes[id]? = some s
  names : ∀ (i : Nat) (name : String), temps[i]? = some name →
    ∃ v, s.vars[first + i]? = some v ∧ v.name = name
  size : first + temps.length ≤ s.vars.size
  above : ∀ name place, (name, place) ∈ env.stored → place.owner = id → place.index < first

mutual

/-- A tree for an expression of scope `id`: it has the same form, occurrences of names satisfy
`occurs` in the environment they stand in, and temporaries satisfy `declares`. -/
inductive Lexical : Nat → Bool → Env → Expr → Node β → Prop where
  | literal {id inPlace env value} : Lexical id inPlace env (.literal value) (.literal value)
  | pseudo {id inPlace env which} : Lexical id inPlace env (.pseudo which) (.pseudo which)
  | variable {id inPlace env name site} : occurs id env name site →
    Lexical id inPlace env (.variable name) (.variable name site)
  | assign {id inPlace env name site value value'} : Lexical id false env value value' →
    occurs id env name site → Lexical id inPlace env (.assign name value) (.assign name site value')
  | send {id inPlace env receiver receiver' selector args args'} :
    ControlForm.recognize receiver selector args = none → Lexical id false env receiver receiver' →
    LexicalAll id false env args args' →
    Lexical id inPlace env (.send receiver selector args) (.send receiver' selector args')
  | control {id inPlace env form receiver receiver' selector args args'} :
    ControlForm.recognize receiver selector args = some form →
    Lexical id true env receiver receiver' → LexicalAll id true env args args' →
    Lexical id inPlace env (.send receiver selector args) (.control form receiver' args')
  | superSend {id inPlace env selector args args'} : LexicalAll id false env args args' →
    Lexical id inPlace env (.superSend selector args) (.superSend selector args')
  | closure {id env scope params temps temps' body body' s} : t.Opens scope id params temps s →
    Temps declares scope params.length temps temps' →
    LexicalAll scope false (env.declare scope 0 (params ++ temps)) body body' →
    Lexical id false env (.block params temps body) (.closure scope params temps' body')
  | inlined {id env first params temps temps' body body' s} : t.Inlines id first env temps s →
    Temps declares id first temps temps' →
    LexicalAll id false ((env.mask params).declare id first temps) body body' →
    Lexical id true env (.block params temps body) (.inlined first temps' body')
  | ret {id inPlace env value value'} : Lexical id false env value value' →
    Lexical id inPlace env (.ret value) (.ret value')
  | primitive {id inPlace env name args args'} : LexicalAll id false env args args' →
    Lexical id inPlace env (.primitive name args) (.primitive name args')

inductive LexicalAll : Nat → Bool → Env → List Expr → List (Node β) → Prop where
  | nil {id inPlace env} : LexicalAll id inPlace env [] []
  | cons {id inPlace env e es n ns} : Lexical id inPlace env e n →
    LexicalAll id inPlace env es ns → LexicalAll id inPlace env (e :: es) (n :: ns)

end

variable {t occurs declares}

/-- Trees of the scopes from `k` on can be read in `t'` as they were read in `t`. -/
structure Carries (k : Nat) (t t' : ScopeTree) (occurs occurs' : Nat → Env → String → β → Prop)
    (declares declares' : Nat → Place → β → Prop) : Prop where
  occurs : ∀ {id : Nat} {env : Env} {name : String} {site : β}, k ≤ id →
    occurs id env name site → occurs' id env name site
  declares : ∀ {id : Nat} {place : Place} {site : β}, k ≤ id →
    declares id place site → declares' id place site
  opens : ∀ {scope id : Nat} {params temps : List String} {s : Scope}, k ≤ id →
    t.Opens scope id params temps s → ∃ s', t'.Opens scope id params temps s'
  inlines : ∀ {id first : Nat} {env : Env} {temps : List String} {s : Scope}, k ≤ id →
    t.Inlines id first env temps s → ∃ s', t'.Inlines id first env temps s'

theorem Temps.carry {declares' : Nat → Place → β → Prop} {id first : Nat} {names : List String}
    {temps : List (String × β)} (h : Temps declares id first names temps)
    (hd : ∀ {place : Place} {site : β}, declares id place site → declares' id place site) :
    Temps declares' id first names temps :=
  ⟨h.1, fun i name site hi => hd (h.2 i name site hi)⟩

mutual

theorem Lexical.carry {k : Nat} {t' : ScopeTree} {occurs' : Nat → Env → String → β → Prop}
    {declares' : Nat → Place → β → Prop} {id : Nat} {inPlace : Bool} {env : Env} {e : Expr}
    {n : Node β} (c : Carries k t t' occurs occurs' declares declares') (hk : k ≤ id) :
    Lexical t occurs declares id inPlace env e n → Lexical t' occurs' declares' id inPlace env e n
  | .literal => .literal
  | .pseudo => .pseudo
  | .variable ho => .variable (c.occurs hk ho)
  | .assign hv ho => .assign (hv.carry c hk) (c.occurs hk ho)
  | .send hform hrec hargs => .send hform (hrec.carry c hk) (hargs.carry c hk)
  | .control hform hrec hargs => .control hform (hrec.carry c hk) (hargs.carry c hk)
  | .superSend hargs => .superSend (hargs.carry c hk)
  | .closure ho ht hbody =>
    have hscope := Nat.le_trans hk (Nat.le_of_lt ho.lt)
    have ⟨_, ho'⟩ := c.opens hk ho
    .closure ho' (ht.carry (c.declares hscope)) (hbody.carry c hscope)
  | .inlined hi ht hbody =>
    have ⟨_, hi'⟩ := c.inlines hk hi
    .inlined hi' (ht.carry (c.declares hk)) (hbody.carry c hk)
  | .ret hv => .ret (hv.carry c hk)
  | .primitive hargs => .primitive (hargs.carry c hk)

theorem LexicalAll.carry {k : Nat} {t' : ScopeTree} {occurs' : Nat → Env → String → β → Prop}
    {declares' : Nat → Place → β → Prop} {id : Nat} {inPlace : Bool} {env : Env} {es : List Expr}
    {ns : List (Node β)} (c : Carries k t t' occurs occurs' declares declares') (hk : k ≤ id) :
    LexicalAll t occurs declares id inPlace env es ns →
      LexicalAll t' occurs' declares' id inPlace env es ns
  | .nil => .nil
  | .cons h hs => .cons (h.carry c hk) (hs.carry c hk)

end

section And

variable {occurs' : Nat → Env → String → β → Prop} {declares' : Nat → Place → β → Prop}

mutual

/-- What is known of occurrences by two readings of a tree is known of each of them. -/
theorem Lexical.and {id : Nat} {inPlace : Bool} {env : Env} {e : Expr} {n : Node β} :
    Lexical t occurs declares id inPlace env e n → Lexical t occurs' declares' id inPlace env e n →
    Lexical t (fun id env name site => occurs id env name site ∧ occurs' id env name site) declares
      id inPlace env e n
  | .literal, _ => .literal
  | .pseudo, _ => .pseudo
  | .variable ho, .variable ho' => .variable ⟨ho, ho'⟩
  | .assign hv ho, .assign hv' ho' => .assign (hv.and hv') ⟨ho, ho'⟩
  | .send hform hrec hargs, .send _ hrec' hargs' => .send hform (hrec.and hrec') (hargs.and hargs')
  | .control hform hrec hargs, .control _ hrec' hargs' =>
    .control hform (hrec.and hrec') (hargs.and hargs')
  | .superSend hargs, .superSend hargs' => .superSend (hargs.and hargs')
  | .closure ho ht hbody, .closure _ _ hbody' => .closure ho ht (hbody.and hbody')
  | .inlined hi ht hbody, .inlined _ _ hbody' => .inlined hi ht (hbody.and hbody')
  | .ret hv, .ret hv' => .ret (hv.and hv')
  | .primitive hargs, .primitive hargs' => .primitive (hargs.and hargs')

theorem LexicalAll.and {id : Nat} {inPlace : Bool} {env : Env} {es : List Expr}
    {ns : List (Node β)} : LexicalAll t occurs declares id inPlace env es ns →
    LexicalAll t occurs' declares' id inPlace env es ns →
    LexicalAll t (fun id env name site => occurs id env name site ∧ occurs' id env name site)
      declares id inPlace env es ns
  | .nil, _ => .nil
  | .cons h hs, .cons h' hs' => .cons (h.and h') (hs.and hs')

end

end And

end Lexical

section Places

variable {β : Type}

mutual

def Node.places (id : Nat) : Node β → List Place
  | .literal _ | .pseudo _ | .variable .. => []
  | .assign _ _ value => value.places id
  | .send receiver _ args => receiver.places id ++ placesAll id args
  | .control _ receiver args => receiver.places id ++ placesAll id args
  | .superSend _ args => placesAll id args
  | .closure scope params temps body =>
    (List.range (params.length + temps.length)).map (Place.mk scope) ++ placesAll scope body
  | .inlined first temps body =>
    (List.range' first temps.length).map (Place.mk id) ++ placesAll id body
  | .ret value => value.places id
  | .primitive _ args => placesAll id args
termination_by structural n => n

def Node.placesAll (id : Nat) : List (Node β) → List Place
  | [] => []
  | n :: ns => n.places id ++ placesAll id ns
termination_by structural ns => ns

end

end Places

end ObjectMachine
