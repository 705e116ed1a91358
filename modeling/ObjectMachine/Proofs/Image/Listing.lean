import ObjectMachine.Proofs.Code.Tending
import ObjectMachine.Proofs.Image.Accepting
import ObjectMachine.Proofs.Scheduling.Launching

namespace ObjectMachine

section Environment

/-- The variables of the classes that names stand for, once some classes were made. -/
def ClassCode.environment (e : String → Option (List String)) :
    List ClassCode → String → Option (List String)
  | [] => e
  | c :: cs => environment (Function.update e c.definition.name (some c.names)) cs

variable {e : String → Option (List String)} {cs cs' : List ClassCode} {c : ClassCode}
  {name : String} {k : Nat}

namespace ClassCode

theorem environment_append : environment e (cs ++ cs') = environment (environment e cs) cs' := by
  induction cs generalizing e with
  | nil => rfl
  | cons c cs ih => exact ih

theorem environment_of_not_mem (hname : ∀ c ∈ cs, c.definition.name ≠ name) :
    environment e cs name = e name := by
  induction cs generalizing e with
  | nil => rfl
  | cons c cs ih =>
    obtain ⟨hc, hcs⟩ := List.forall_mem_cons.mp hname
    rw [environment, ih hcs, Function.update_of_ne hc.symm]

/-- The last definition of a name counts. -/
theorem environment_of_latest (hlater : ∀ c' ∈ cs', c'.definition.name ≠ c.definition.name) :
    environment e (cs ++ c :: cs') c.definition.name = some c.names := by
  rw [environment_append, environment, environment_of_not_mem hlater, Function.update_self]

end ClassCode

inductive ClassCode.Inherit : (String → Option (List String)) → List ClassCode → Prop
  | nil (e : String → Option (List String)) : Inherit e []
  | cons {e : String → Option (List String)} {inherited : List String} {c : ClassCode}
      {cs : List ClassCode} : e c.definition.superclass = some inherited →
    c.names = inherited ++ c.definition.instanceVariables →
    Inherit (Function.update e c.definition.name (some c.names)) cs → Inherit e (c :: cs)

theorem ClassCode.Inherit.names (h : Inherit e cs) (hc : cs[k]? = some c) :
    ∃ inherited, environment e (cs.take k) c.definition.superclass = some inherited ∧
      c.names = inherited ++ c.definition.instanceVariables := by
  induction h generalizing k with
  | nil => cases hc
  | cons hsup hnames _ ih =>
    cases k with
    | zero =>
      obtain rfl := Option.some.inj hc
      exact ⟨_, hsup, hnames⟩
    | succ k => exact ih hc

end Environment

namespace Program

/-- A class of a program that is the first of its name, below a class that the program does not
define, or one whose only definition so far is of that kind itself. -/
inductive Settled (classes : List ClassDefinition) : Nat → Prop
  | outside {k : Nat} {d : ClassDefinition} : classes[k]? = some d →
    (∀ j < k, ∀ d', classes[j]? = some d' → d'.name ≠ d.name) →
    (∀ d' ∈ classes, d'.name ≠ d.superclass) → Settled classes k
  | inside {j k : Nat} {d s : ClassDefinition} : classes[k]? = some d →
    (∀ j < k, ∀ d', classes[j]? = some d' → d'.name ≠ d.name) →
    j < k → classes[j]? = some s → s.name = d.superclass →
    (∀ l < k, j < l → ∀ d', classes[l]? = some d' → d'.name ≠ d.superclass) →
    Settled classes j → Settled classes k

variable {p : Program} {i : Image} {k : Nat} {d : ClassDefinition}
  {e : String → Option (List String)} {cs : List ClassCode} {c : ClassCode}

theorem find?_of_first (hd : p.classes[k]? = some d)
    (hfirst : ∀ j < k, ∀ d', p.classes[j]? = some d' → d'.name ≠ d.name) :
    p.classes.find? (·.name == d.name) = some d := by
  obtain ⟨hk, rfl⟩ := List.getElem?_eq_some_iff.mp hd
  refine List.find?_eq_some_iff_getElem.mpr ⟨beq_self_eq_true _, k, hk, rfl, fun j hj => ?_⟩
  simpa using hfirst j hj _ (List.getElem?_eq_getElem (Nat.lt_trans hj hk))

theorem getElem?_definition (hcs : cs.map ClassCode.definition = p.classes) :
    p.classes[k]? = some d ↔ ∃ c, cs[k]? = some c ∧ c.definition = d := by
  rw [← hcs, List.getElem?_map, Option.map_eq_some_iff]

/-- A definition in the program hides the image. -/
theorem variablesOf_of_first {fuel : Nat} {inherited : List String} (hd : p.classes[k]? = some d)
    (hfirst : ∀ j < k, ∀ d', p.classes[j]? = some d' → d'.name ≠ d.name)
    (hsup : p.variablesOf i fuel d.superclass = .ok inherited) :
    p.variablesOf i (fuel + 1) d.name = .ok (inherited ++ d.instanceVariables) := by
  rw [variablesOf, find?_of_first hd hfirst]
  simp only [hsup, bind, Except.bind, pure, Except.pure]

/-- The listing takes a class that is below the older one of its name for one below itself. -/
theorem variablesOf_of_namesake (hd : p.classes.find? (·.name == d.name) = some d)
    (hsup : d.superclass = d.name) (fuel : Nat) :
    p.variablesOf i fuel d.name = .error .endless := by
  induction fuel with
  | zero => rw [variablesOf, hd]
  | succ fuel ih =>
    rw [variablesOf, hd]
    simp only [hsup, ih, bind, Except.bind]

theorem Settled.variablesOf (h : Settled p.classes k) (hc : cs[k]? = some c)
    (hcs : cs.map ClassCode.definition = p.classes) (hinherit : ClassCode.Inherit e cs)
    (he : ∀ {name names}, e name = some names →
      ∃ v, i.global? name = .ok (some v) ∧ i.heap.instanceVariables v = .ok names) :
    ∀ fuel, k < fuel → p.variablesOf i fuel c.definition.name = .ok c.names := by
  induction h generalizing c with
  | @outside k d hd hfirst houtside =>
    rintro (_ | fuel) hfuel
    · exact absurd hfuel (Nat.not_lt_zero _)
    obtain ⟨inherited, hsup, hnames⟩ := hinherit.names hc
    obtain rfl : c.definition = d := by
      obtain ⟨c', hc', rfl⟩ := (getElem?_definition hcs).mp hd
      rw [Option.some.inj (hc.symm.trans hc')]
    rw [ClassCode.environment_of_not_mem fun c' hc' => houtside _
      (hcs ▸ List.mem_map_of_mem (List.mem_of_mem_take hc'))] at hsup
    obtain ⟨v, hv, hvars⟩ := he hsup
    have hnone : p.classes.find? (·.name == c.definition.superclass) = none := by
      simpa using houtside
    rw [hnames]
    refine variablesOf_of_first hd hfirst ?_
    rw [Program.variablesOf, hnone]
    simp only [hv, hvars, bind, Except.bind]
  | @inside j k d s hd hfirst hj hs hname hbetween _ ih =>
    rintro (_ | fuel) hfuel
    · exact absurd hfuel (Nat.not_lt_zero _)
    obtain ⟨inherited, hsup, hnames⟩ := hinherit.names hc
    obtain rfl : c.definition = d := by
      obtain ⟨c', hc', rfl⟩ := (getElem?_definition hcs).mp hd
      rw [Option.some.inj (hc.symm.trans hc')]
    obtain ⟨c', hc', rfl⟩ := (getElem?_definition hcs).mp hs
    -- Among the classes made so far the superclass is the last of its name.
    have hsplit : cs.take k = cs.take j ++ c' :: (cs.take k).drop (j + 1) := by
      obtain ⟨hj', rfl⟩ := List.getElem?_eq_some_iff.mp hc'
      have hj'' : j < (cs.take k).length := by rw [List.length_take]; omega
      rw [← List.getElem_take (h := hj''), ← List.drop_eq_getElem_cons hj'',
        ← Nat.min_eq_left (Nat.le_of_lt hj), ← List.take_take, Nat.min_eq_left (Nat.le_of_lt hj),
        List.take_append_drop]
    have hlater : ∀ c'' ∈ (cs.take k).drop (j + 1),
        c''.definition.name ≠ c'.definition.name := by
      intro c'' hmem
      obtain ⟨l, hl⟩ := List.mem_iff_getElem?.mp hmem
      rw [List.getElem?_drop, List.getElem?_take] at hl
      split at hl
      · rename_i hlk
        rw [hname]
        exact hbetween _ hlk (by omega) _ ((getElem?_definition hcs).mpr ⟨c'', hl, rfl⟩)
      · cases hl
    rw [← hname, hsplit, ClassCode.environment_of_latest hlater] at hsup
    obtain rfl := Option.some.inj hsup
    rw [hnames]
    refine variablesOf_of_first hd hfirst ?_
    rw [← hname]
    exact ih hc' fuel (by omega)

end Program

section Loading

variable {p : Program} {i : Image} {w w' : World} {ws : List Wiring} {os : List Outfit}
  {ds : List Definition} {classes : List ClassDefinition} {g : String → Option Value}
  {e : String → Option (List String)}

def ClassDefinition.Grounded (given : String → Prop) (classes : List ClassDefinition) : Prop :=
  ∀ (k : Nat) (d : ClassDefinition), classes[k]? = some d →
    (∃ j < k, ∃ s, classes[j]? = some s ∧ s.name = d.superclass) ∨ given d.superclass

theorem ClassDefinition.Grounded.tail {given given' : String → Prop} {d : ClassDefinition}
    (h : Grounded given (d :: classes)) (hd : given' d.name)
    (hgiven : ∀ name, given name → given' name) : Grounded given' classes := by
  intro k s hs
  obtain ⟨_ | j, hj, s', hs', hname⟩ | hgrounded := h (k + 1) s hs
  · obtain rfl := Option.some.inj hs'
    exact .inr (hname ▸ hd)
  · exact .inl ⟨j, Nat.lt_of_succ_lt_succ hj, s', hs', hname⟩
  · exact .inr (hgiven _ hgrounded)

/-- The classes of a program that is accepted get the variables that their superclasses have by
then. -/
theorem Image.Keeps.loadClasses_inherit (hk : Image.Keeps w.image.known ws os w.image)
    (hm : w.image.Means g) (he : Image.Knows ws os g e)
    (hgrounded : ClassDefinition.Grounded (fun name => (e name).isSome) classes)
    (heq : Program.loadClasses classes w = .ok () w') :
    ∃ cs, cs.map ClassCode.definition = classes ∧ Image.Loads cs w.image w'.image ∧
      ClassCode.Inherit e cs := by
  induction classes generalizing w ws os g e with
  | nil =>
    obtain ⟨-, rfl⟩ := pure_eq_ok.mp heq
    exact ⟨[], rfl, .nil _, .nil e⟩
  | cons d classes ih =>
    obtain ⟨cls, w₁, hfirst, hrest⟩ := bind_eq_ok.mp heq
    obtain ⟨i₁, hload, rfl⟩ := World.onImage_eq_ok.mp hfirst
    obtain ⟨inherited, hinherited⟩ : ∃ inherited, e d.superclass = some inherited := by
      obtain ⟨j, hj, -⟩ | hgiven := hgrounded 0 d rfl
      · exact absurd hj (Nat.not_lt_zero j)
      · exact Option.isSome_iff_exists.mp hgiven
    obtain ⟨x, hx, hsup, o, ho, hsame, rfl⟩ := he hinherited
    obtain ⟨c, rfl, hmakes, hnames, hknown, ws', os', hws, hos, hk', hm', x', hx', rfl, o', ho',
      hsame', hnames'⟩ := hk.loadClass_makes hm hsup hx ho hsame hload
    have he' : Image.Knows ws' os' (Function.update g c.definition.name (some x'.object))
        (Function.update e c.definition.name (some c.names)) :=
      hnames' ▸ he.update hws hos hx' ho' hsame' c.definition.name
    have hgrounded' : ClassDefinition.Grounded
        (fun name => (Function.update e c.definition.name (some c.names) name).isSome) classes := by
      refine hgrounded.tail (by rw [Function.update_self]; rfl) fun name hname => ?_
      by_cases hnew : name = c.definition.name
      · rw [hnew, Function.update_self]
        rfl
      · rw [Function.update_of_ne hnew]
        exact hname
    obtain ⟨cs, rfl, hloads, hinherit⟩ :=
      ih (w := { w with image := i₁ }) (hknown ▸ hk') hm' he' hgrounded' hrest
    exact ⟨c :: cs, rfl, .cons hmakes hloads, .cons hinherited hnames hinherit⟩

end Loading

section Texts

/-- Compiled code is always listed. -/
theorem ScopeTree.Codes.listingAt {t : ScopeTree} {id : Nat} {template : CodeTemplate}
    (h : t.Codes id template) (depth : Nat) : ∃ text, template.listingAt depth = .ok text := by
  induction h generalizing depth with
  | @intro id s code template inner _ hbytecode _ _ _ _ ih =>
    obtain ⟨selector, bytecode, literals, args, temps, heapVars, stack⟩ := template
    have hliteral : ∀ pad index, ∀ c ∈ literals,
        ∃ text, CodeTemplate.listingLiteral depth pad index c = .ok text := by
      intro pad index c hc
      cases c with
      | block b =>
        obtain ⟨text, htext⟩ := ih b hc (depth + 1)
        exact ⟨_, by rw [CodeTemplate.listingLiteral, htext]; rfl⟩
      | integer | string | symbol | array => exact ⟨_, rfl⟩
    have hliterals : ∀ cs, (∀ c ∈ cs, c ∈ literals) → ∀ pad index,
        ∃ text, CodeTemplate.listingLiterals depth pad index cs = .ok text := by
      intro cs hcs
      induction cs with
      | nil => exact fun pad index => ⟨_, rfl⟩
      | cons c cs ih =>
        intro pad index
        obtain ⟨hc, hcs⟩ := List.forall_mem_cons.mp hcs
        obtain ⟨line, hline⟩ := hliteral pad index c hc
        obtain ⟨rest, hrest⟩ := ih hcs pad (index + 1)
        exact ⟨_, by rw [CodeTemplate.listingLiterals, hline]; simp only [hrest]; rfl⟩
    obtain ⟨rest, hrest⟩ := hliterals literals (fun _ hc => hc) (String.ofList
      (List.replicate (2 * depth) ' ')) 0
    have hcode : bytecode = (encodeAll code).toArray := hbytecode
    rw [CodeTemplate.listingAt, Code.listing, hcode, decodeAll_encodeAll, hrest]
    exact ⟨_, rfl⟩

theorem Method.compile_listing {m : Method} {vars : List String} {t : CodeTemplate}
    (h : m.compile vars = .ok t) : ∃ text, t.listing = .ok text := by
  obtain ⟨r, hr, -⟩ := resolve_of_compile h
  exact (Method.compile_codes hr h).listingAt 0

def ClassCode.sideText (className side : String) : List CodeTemplate → Except DecodeError String
  | [] => return ""
  | t :: ts => do
    let text ← t.listing
    return className ++ side ++ ">>" ++ t.selector ++ "\n" ++ text ++
      (← sideText className side ts)

def ClassCode.text (c : ClassCode) : Except DecodeError String :=
  return (← sideText c.definition.name "" c.methods) ++
    (← sideText c.definition.name " class" c.classMethods)

def ClassCode.texts : List ClassCode → Except DecodeError String
  | [] => return ""
  | c :: cs => return (← c.text) ++ (← texts cs)

def DoIt.texts : List DoIt → List CodeTemplate → Except DecodeError String
  | d :: ds, t :: ts => do
    let text ← t.listing
    return d.name ++ "\n" ++ text ++ (← texts ds ts)
  | _, _ => return ""

namespace Program

variable {p : Program} {i : Image} {w w' : World} {vars : List String} {className side : String}
  {cs : List ClassCode} {c : ClassCode}

theorem compiledListing_eq {r : Except (Stop CompileError) CodeTemplate} {t : CodeTemplate}
    {text : String} (head : String → String) (hr : r = .ok t) (ht : t.listing = .ok text) :
    compiledListing r head = .ok (head t.selector ++ text) := by
  simp only [compiledListing, hr, ht]

theorem sideListing_eq {ms : List Method} {ts : List CodeTemplate}
    (h : List.Forall₂ (fun m t => m.compile vars = .ok t) ms ts) :
    ∃ text, ClassCode.sideText className side ts = .ok text ∧
      sideListing className side vars ms = .ok text := by
  induction h with
  | nil => exact ⟨"", rfl, rfl⟩
  | @cons m t ms ts hcompile _ ih =>
    obtain ⟨text, htext⟩ := Method.compile_listing hcompile
    obtain ⟨rest, hrest, hrest'⟩ := ih
    refine ⟨_, by rw [ClassCode.sideText, htext]; simp only [hrest]; rfl, ?_⟩
    rw [sideListing, compiledListing_eq _ hcompile htext]
    simp only [hrest']
    rfl

theorem classListings_cons (ds : List ClassDefinition)
    (hvars : p.variablesOf i p.classes.length c.definition.name = .ok c.names)
    (hmethods : List.Forall₂ (fun m t => m.compile c.names = .ok t) c.definition.methods c.methods)
    (hclassMethods : List.Forall₂ (fun m t => m.compile KernelClass.classVariables = .ok t)
      c.definition.classMethods c.classMethods) :
    ∃ text, c.text = .ok text ∧ p.classListings i (c.definition :: ds) =
      return text ++ (← p.classListings i ds) := by
  obtain ⟨instanceSide, hinstance, hinstance'⟩ := sideListing_eq hmethods
  obtain ⟨classSide, hclass, hclass'⟩ := sideListing_eq hclassMethods
  refine ⟨instanceSide ++ classSide, by rw [ClassCode.text, hinstance, hclass]; rfl, ?_⟩
  rw [classListings, hvars]
  simp only [pure_bind, hinstance', hclass']
  rfl

theorem classListings_eq (h : ∀ c ∈ cs,
      p.variablesOf i p.classes.length c.definition.name = .ok c.names ∧
      List.Forall₂ (fun m t => m.compile c.names = .ok t) c.definition.methods c.methods ∧
      List.Forall₂ (fun m t => m.compile KernelClass.classVariables = .ok t)
        c.definition.classMethods c.classMethods) :
    ∃ text, ClassCode.texts cs = .ok text ∧
      p.classListings i (cs.map ClassCode.definition) = .ok text := by
  induction cs with
  | nil => exact ⟨"", rfl, rfl⟩
  | cons c cs ih =>
    obtain ⟨⟨hvars, hmethods, hclassMethods⟩, hcs⟩ := List.forall_mem_cons.mp h
    obtain ⟨rest, hrest, hrest'⟩ := ih hcs
    obtain ⟨text, htext, hlisting⟩ := classListings_cons (cs.map ClassCode.definition)
      hvars hmethods hclassMethods
    refine ⟨_, by rw [ClassCode.texts, htext]; simp only [hrest]; rfl, ?_⟩
    rw [List.map_cons, hlisting, hrest']
    rfl

theorem doItListings_eq {ds : List DoIt} {ts : List CodeTemplate}
    (h : List.Forall₂ (fun d t => (Image.doItMethod d.temps d.body).compile [] = .ok t) ds ts) :
    ∃ text, DoIt.texts ds ts = .ok text ∧ doItListings ds = .ok text := by
  induction h with
  | nil => exact ⟨"", rfl, rfl⟩
  | @cons d t ds ts hcompile _ ih =>
    obtain ⟨text, htext⟩ := Method.compile_listing hcompile
    obtain ⟨rest, hrest, hrest'⟩ := ih
    refine ⟨_, by rw [DoIt.texts, htext]; simp only [hrest]; rfl, ?_⟩
    rw [doItListings, compiledListing_eq _ hcompile htext]
    simp only [hrest']
    rfl

/-- The statement lists of a program that is accepted compile. -/
theorem spawnAll_compiled {ds : List DoIt} {ids : List Nat} (heq : spawnAll ds w = .ok ids w') :
    ∃ ts, List.Forall₂ (fun d t => (Image.doItMethod d.temps d.body).compile [] = .ok t) ds ts := by
  induction ds generalizing w w' ids with
  | nil => exact ⟨[], .nil⟩
  | cons d ds ih =>
    obtain ⟨method, w₁, hmethod, heq⟩ := bind_eq_ok.mp heq
    obtain ⟨i₁, hcompile, rfl⟩ := World.onImage_eq_ok.mp hmethod
    obtain ⟨t, i₂, hcompiled, -⟩ := bind_eq_ok.mp hcompile
    obtain ⟨id, w₂, -, heq⟩ := bind_eq_ok.mp heq
    obtain ⟨ids', w₃, hrest, -⟩ := bind_eq_ok.mp heq
    obtain ⟨ts, hts⟩ := ih hrest
    exact ⟨t :: ts, .cons (Image.compiled_eq_ok hcompiled).1 hts⟩

/-- A program that is accepted, by an image with classes that were defined, is listed with the code
that loading makes: the class methods always, the methods of a class if the class is settled. If
all classes are, the listing comes to an end and is that of the code of the program. -/
theorem listing_shows_load (p : Program) (w : World) (ds : List Definition) :
    match p.load w with
    | .error _ _ => True
    | .ok _ _ => w.image.Surveyed ds →
      ClassDefinition.Grounded
        (fun name => ∃ v, w.image.global? name = .ok (some v) ∧ w.image.Defined ds v) p.classes →
      ∃ cs i ts, cs.map ClassCode.definition = p.classes ∧ Image.Loads cs w.image i ∧
        List.Forall₂ (fun d t => (Image.doItMethod d.temps d.body).compile [] = .ok t)
          p.doIts ts ∧
        (∀ c ∈ cs, ∃ text,
          ClassCode.sideText c.definition.name " class" c.classMethods = .ok text ∧
          sideListing c.definition.name " class" KernelClass.classVariables
            c.definition.classMethods = .ok text) ∧
        (∀ k c, cs[k]? = some c → Settled p.classes k →
          p.variablesOf w.image p.classes.length c.definition.name = .ok c.names ∧
          ∃ text, c.text = .ok text ∧ p.classListings w.image [c.definition] = .ok text) ∧
        ((∀ k < p.classes.length, Settled p.classes k) →
          ∃ classes doIts, ClassCode.texts cs = .ok classes ∧ DoIt.texts p.doIts ts = .ok doIts ∧
            p.listing w.image = .ok (classes ++ doIts)) := by
  split
  · trivial
  · rename_i ids w' hload
    intro hs hgrounded
    obtain ⟨_, w₁, hclasses, hspawn⟩ := bind_eq_ok.mp hload
    obtain ⟨ws, os, g, e, hk, hm, hknows, he⟩ := Image.Surveyed.knows hs
    have hgiven : ClassDefinition.Grounded (fun name => (e name).isSome) p.classes := by
      refine fun k d hd => (hgrounded k d hd).imp_right fun ⟨v, hname, hv⟩ => ?_
      obtain ⟨_, hoffers⟩ := Image.Surveyed.offers hs hname hv
      exact Option.isSome_of_eq_some (he.mpr hoffers)
    obtain ⟨cs, hcs, hloads, hinherit⟩ := hk.loadClasses_inherit hm hknows hgiven hclasses
    obtain ⟨ts, hts⟩ := spawnAll_compiled hspawn
    have hcompiled := hloads.compiled
    have hvars : ∀ k c, cs[k]? = some c → Settled p.classes k →
        p.variablesOf w.image p.classes.length c.definition.name = .ok c.names := by
      intro k c hc hsettled
      have hlength : cs.length = p.classes.length := by rw [← hcs, List.length_map]
      exact hsettled.variablesOf hc hcs hinherit
        (fun hname => (he.mp hname).imp fun _ h => ⟨h.1, h.2.2⟩) _
        (hlength ▸ (List.getElem?_eq_some_iff.mp hc).1)
    refine ⟨cs, w₁.image, ts, hcs, hloads, hts, fun c hc => sideListing_eq (hcompiled c hc).2,
      fun k c hc hsettled => ⟨hvars k c hc hsettled, ?one⟩, fun hsettled => ?all⟩
    case one =>
      obtain ⟨hmethods, hclassMethods⟩ := hcompiled c (List.mem_of_getElem? hc)
      obtain ⟨text, htext, hlisting⟩ :=
        classListings_cons [] (hvars k c hc hsettled) hmethods hclassMethods
      refine ⟨text, htext, hlisting.trans ?_⟩
      simp [classListings, pure, Except.pure, bind, Except.bind]
    case all =>
      obtain ⟨classes, hclasses', hlisting⟩ : ∃ text, ClassCode.texts cs = .ok text ∧
          p.classListings w.image (cs.map ClassCode.definition) = .ok text := by
        refine classListings_eq fun c hc => ?_
        obtain ⟨k, hk'⟩ := List.mem_iff_getElem?.mp hc
        have hlt : k < p.classes.length := by
          rw [← hcs, List.length_map]
          exact (List.getElem?_eq_some_iff.mp hk').1
        exact ⟨hvars k c hk' (hsettled k hlt), hcompiled c hc⟩
      obtain ⟨doIts, hdoIts, hdoIts'⟩ := doItListings_eq hts
      refine ⟨classes, doIts, hclasses', hdoIts, ?_⟩
      rw [listing, ← hcs, hlisting]
      simp only [hdoIts']
      rfl

def drawingCode : CodeTemplate where
  selector := "doIt"
  bytecode := #[6, 0, 15, 1, 6, 1, 22, 1, 0, 31]
  literals := [.integer 3, .integer 4]
  args := 0
  temps := 0
  heapVars := 0
  stack := 1

theorem drawing_settled : ∀ k < drawing.classes.length, Settled drawing.classes k := by
  have hpoint : Settled drawing.classes 0 :=
    .outside rfl (fun j hj => absurd hj (Nat.not_lt_zero j)) (by decide +kernel)
  intro k hk
  match k, hk with
  | 0, _ => exact hpoint
  | 1, _ =>
    refine .inside (j := 0) (s := drawing.classes[0]) rfl (fun j hj d' hd' => ?_) (by decide)
      rfl rfl (fun l hl hpos => absurd hl (by omega)) hpoint
    obtain rfl := Nat.lt_one_iff.mp hj
    obtain rfl := Option.some.inj hd'
    decide

/-- A small program is loaded, and listed as it was loaded. -/
theorem listing_shows_drawing : ∃ i ids w' cs ts classes doIts, Image.boot {} = .ok i ∧
    drawing.load { image := i } = .ok ids w' ∧ cs.map ClassCode.definition = drawing.classes ∧
    ClassCode.texts cs = .ok classes ∧ DoIt.texts drawing.doIts ts = .ok doIts ∧
    drawing.listing i = .ok (classes ++ doIts) := by
  obtain ⟨i, i₁, hboot, hclasses, hi, hs, hroom⟩ := drawing_loads
  -- The start shall not be computed.
  generalize ({} : HeapSettings) = settings at hboot ⊢
  have hcode : (Image.doItMethod [] [.ret (.binary (.int 3) "+" (.int 4))]).compile [] =
      .ok drawingCode := Method.compile_of_integers [3, 4] rfl (by decide +kernel)
  have hrest : i₁.heap.Affords (drawingCode.methodParts ++ Part.process ⟨0, 0, 0, 1⟩ "main") :=
    hroom _ (by rintro (_ | _) <;> decide +kernel)
  obtain ⟨method, i₂, hcompile, htakes, ha, hmethod, hembodies⟩ :=
    Image.compileDoIt_affords [3, 4] hi hs hcode rfl (by decide) (by decide) (by decide +kernel)
      hrest.of_append
  obtain ⟨id, w', hspawn, -⟩ := World.spawnMethod_affords (World.intact_fresh ha.intact)
    ha.spelled hembodies rfl (by decide) hmethod (Arenas.sane_nil _) (.inl rfl)
    (htakes.affords hrest)
  have hload : drawing.load { image := i } = .ok [id] w' := by
    refine bind_eq_ok.mpr ⟨(), _, hclasses, bind_eq_ok.mpr ⟨method, { image := i₂ }, ?_, ?_⟩⟩
    · exact World.onImage_eq_ok.mpr ⟨i₂, hcompile, rfl⟩
    · exact bind_eq_ok.mpr ⟨id, w', hspawn, rfl⟩
  have hgrounded : ClassDefinition.Grounded
      (fun name => ∃ v, i.global? name = .ok (some v) ∧ i.Defined i.kernelDefinitions v)
      drawing.classes := by
    intro k d hd
    match k, hd with
    | 0, hd =>
      obtain rfl := Option.some.inj hd
      exact .inr ⟨_, Image.boot_names hboot .object, _,
        List.mem_map_of_mem (KernelClass.mem_all .object), .inl rfl⟩
    | 1, hd =>
      obtain rfl := Option.some.inj hd
      exact .inl ⟨0, Nat.one_pos, _, rfl, rfl⟩
  have hlisting := listing_shows_load drawing { image := i } i.kernelDefinitions
  rw [hload] at hlisting
  obtain ⟨cs, -, ts, hcs, -, -, -, -, hall⟩ := hlisting (Image.boot_surveyed hboot) hgrounded
  obtain ⟨classes, doIts, htexts, hdoIts, hlisted⟩ := hall drawing_settled
  exact ⟨i, _, w', cs, ts, classes, doIts, hboot, hload, hcs, htexts, hdoIts, hlisted⟩

end Program

end Texts

end ObjectMachine
