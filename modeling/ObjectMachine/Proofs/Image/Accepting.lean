import ObjectMachine.Proofs.Image.Hierarchy
import ObjectMachine.Proofs.Image.Starting

namespace ObjectMachine

section Environments

variable {i : Image} {w : World} {ws : List Wiring} {os : List Outfit} {ds : List Definition}
  {classes : List ClassDefinition} {g : String → Option Value} {e : String → Option (List String)}

/-- The names of classes on record stand for the variables on record. -/
def Image.Knows (ws : List Wiring) (os : List Outfit) (g : String → Option Value)
    (e : String → Option (List String)) : Prop :=
  ∀ {name names}, e name = some names → ∃ w ∈ ws, g name = some w.object ∧
    ∃ o ∈ os, o.object = w.object ∧ o.names = names

/-- A class with a name of its own is known from then on. -/
theorem Image.Knows.update {ws' : List Wiring} {os' : List Outfit} {w : Wiring} {o : Outfit}
    (he : Image.Knows ws os g e) (hws : ws ⊆ ws') (hos : os ⊆ os') (hw : w ∈ ws') (ho : o ∈ os')
    (hsame : o.object = w.object) (new : String) :
    Image.Knows ws' os' (Function.update g new (some w.object))
      (Function.update e new (some o.names)) := by
  intro name names hname
  by_cases hnew : name = new
  · subst hnew
    rw [Function.update_self] at hname ⊢
    obtain rfl := Option.some.inj hname
    exact ⟨w, hw, rfl, o, ho, hsame, rfl⟩
  · rw [Function.update_of_ne hnew] at hname ⊢
    obtain ⟨y, hy, hg, u, hu, hobject, hnames⟩ := he hname
    exact ⟨y, hws hy, hg, u, hos hu, hobject, hnames⟩

def Image.Offers (i : Image) (ds : List Definition) (name : String) (names : List String) : Prop :=
  ∃ v, i.global? name = .ok (some v) ∧ i.Defined ds v ∧ i.heap.instanceVariables v = .ok names

theorem Image.Offers.unique {name : String} {names names' : List String}
    (h : i.Offers ds name names) (h' : i.Offers ds name names') : names = names' := by
  obtain ⟨v, hname, -, hvars⟩ := h
  obtain ⟨v', hname', -, hvars'⟩ := h'
  obtain rfl := Option.some.inj (Except.ok.inj (hname.symm.trans hname'))
  exact Except.ok.inj (hvars.symm.trans hvars')

theorem Image.Offers.exists_environment (i : Image) (ds : List Definition) :
    ∃ e : String → Option (List String), ∀ {name names}, e name = some names ↔
      i.Offers ds name names := by
  have hname : ∀ name, ∃ r : Option (List String), ∀ names, r = some names ↔
      i.Offers ds name names := by
    intro name
    by_cases h : ∃ names, i.Offers ds name names
    · obtain ⟨names, hoffers⟩ := h
      exact ⟨some names, fun names' =>
        ⟨fun heq => Option.some.inj heq ▸ hoffers, fun h' => congrArg some (hoffers.unique h')⟩⟩
    · exact ⟨none, fun names => ⟨nofun, fun hoffers => absurd ⟨names, hoffers⟩ h⟩⟩
  choose e he using hname
  exact ⟨e, fun {name names} => he name names⟩

theorem Image.Registers.offers {ts : List Filing} (hr : i.Registers ws os ts)
    (hc : Chart (i.kernelClass .object) (i.kernelClass .metaclass) ws os ds) {name : String}
    {v : Value} (hname : i.global? name = .ok (some v)) (hv : i.Defined ds v) :
    ∃ w ∈ ws, w.object = v ∧ ∃ o ∈ os, o.object = w.object ∧ i.Offers ds name o.names := by
  obtain ⟨w, hw, rfl, o, ho, hsame, -⟩ := hv.recorded hr hc
  exact ⟨w, hw, rfl, o, ho, hsame, _, hname, hv, hsame ▸ (hr.fitted o ho).instanceVariables⟩

theorem Image.Surveyed.offers (hs : i.Surveyed ds) {name : String} {v : Value}
    (hname : i.global? name = .ok (some v)) (hv : i.Defined ds v) :
    ∃ names, i.Offers ds name names := by
  obtain ⟨ws, os, ⟨-, _, hr⟩, hc⟩ := hs
  obtain ⟨_, _, _, o, _, _, hoffers⟩ := hr.offers hc hname hv
  exact ⟨o.names, hoffers⟩

/-- What the names of classes stand for is on record. -/
theorem Image.Surveyed.knows (hs : i.Surveyed ds) : ∃ ws os g e, Image.Keeps i.known ws os i ∧
    i.Means g ∧ Image.Knows ws os g e ∧
    ∀ {name names}, e name = some names ↔ i.Offers ds name names := by
  obtain ⟨ws, os, hk, hc⟩ := hs
  obtain ⟨-, _, hr⟩ := id hk
  obtain ⟨g, hm⟩ := hr.means
  obtain ⟨e, he⟩ := Image.Offers.exists_environment i ds
  refine ⟨ws, os, g, e, hk, hm, fun {name names} hname => ?_, he⟩
  have hoffers := he.mp hname
  obtain ⟨v, hglobal, hv, -⟩ := id hoffers
  obtain ⟨x, hx, rfl, o, ho, hsame, hoffers'⟩ := hr.offers hc hglobal hv
  exact ⟨x, hx, Except.ok.inj ((hm name).symm.trans hglobal), o, ho, hsame,
    hoffers'.unique hoffers⟩

end Environments

section Accepting

variable {w : World} {ws : List Wiring} {os : List Outfit} {classes : List ClassDefinition}
  {g : String → Option Value} {e : String → Option (List String)}

/-- Classes below known ones, with methods that compile, and all that is made of them. -/
inductive ClassDefinition.Accepted :
    (String → Option (List String)) → List ClassDefinition → List Part → Prop
  | nil (e : String → Option (List String)) : Accepted e [] []
  | cons {e : String → Option (List String)} {d : ClassDefinition} {classes : List ClassDefinition}
      {inherited names : List String} {parts : List Part} : e d.superclass = some inherited →
    Image.extendVariables inherited d.instanceVariables = .ok names →
    (∀ m ∈ d.methods, ∃ t, m.compile names = .ok t) →
    (∀ m ∈ d.classMethods, ∃ t, m.compile KernelClass.classVariables = .ok t) →
    Accepted (Function.update e d.name (some names)) classes parts →
    Accepted e (d :: classes) (Part.definition d.name names ++ (Part.methods names d.methods ++
      Part.methods KernelClass.classVariables d.classMethods) ++ parts)

/-- Where there is room for them, all classes of a program are made. -/
theorem Image.Keeps.loadClasses_affords {parts : List Part}
    (h : ClassDefinition.Accepted e classes parts)
    (hk : Image.Keeps w.image.known ws os w.image) (hm : w.image.Means g)
    (he : Image.Knows ws os g e) (hfits : parts.findSome? Part.misfit? = none)
    (hroom : w.image.heap.Affords parts) :
    ∃ i ws' os', Program.loadClasses classes w = .ok () { w with image := i } ∧
      w.image.heap.Takes parts i.heap ∧ Image.Keeps i.known ws' os' i := by
  induction h generalizing w ws os g with
  | nil => exact ⟨w.image, ws, os, rfl, .refl _, hk⟩
  | @cons e d classes inherited names parts hsup hnames hmethods hclassMethods _ ih =>
    obtain ⟨x, hx, hglobal, o, ho, hsame, rfl⟩ := he hsup
    obtain ⟨-, _, hr⟩ := id hk
    rw [List.findSome?_append, Option.or_eq_none_iff] at hfits
    obtain ⟨cls, i₁, hload, htakes⟩ := (Image.loadClass_completes hr hx ho hsame
      ((hm _).trans (congrArg _ hglobal)) hnames hmethods hclassMethods).delivers hfits.1
        hroom.of_append
    obtain ⟨c, rfl, -, hextended, hknown, ws', os', hws, hos, hk', hm', x', hx', rfl, o', ho',
      hsame', hnames'⟩ := hk.loadClass_makes hm hglobal hx ho hsame hload
    obtain rfl : o'.names = names :=
      (hnames'.trans hextended).trans (Image.extendVariables_eq_ok hnames).1.symm
    have he' : Image.Knows ws' os' (Function.update g c.definition.name (some x'.object))
        (Function.update e c.definition.name (some o'.names)) :=
      he.update hws hos hx' ho' hsame' c.definition.name
    obtain ⟨i₂, ws₂, os₂, hrest, htakes', hk₂⟩ :=
      ih (w := { w with image := i₁ }) (hknown ▸ hk') hm' he' hfits.2 (htakes.affords hroom)
    refine ⟨i₂, ws₂, os₂, bind_eq_ok.mpr ⟨x'.object, _, ?_, hrest⟩, htakes.trans htakes', hk₂⟩
    exact World.onImage_eq_ok.mpr ⟨i₁, hload, rfl⟩

namespace Program

/-- A class with two variables, one below it, and a statement list. -/
def drawing : Program where
  classes := [
    { name := "Point", superclass := "Object", instanceVariables := ["x", "y"]
      methods := [
        { selector := "x", body := [.ret (.variable "x")] },
        { selector := "x:y:", params := ["a", "b"]
          body := [.assign "x" (.variable "a"), .assign "y" (.variable "b")] }]
      classMethods := [
        { selector := "x:y:", params := ["a", "b"]
          body := [.ret (.send (.unary .self "new") "x:y:" [.variable "a", .variable "b"])] }] },
    { name := "Spot", superclass := "Point", instanceVariables := ["size"]
      methods := [
        { selector := "reach"
          body := [.ret (.binary (.variable "x") "+" (.variable "size"))] }] }]
  doIts := [{ name := "main", body := [.ret (.binary (.int 3) "+" (.int 4))] }]

/-- The classes of a small program are made in a fresh image, and room is left. -/
theorem drawing_loads : ∃ i i₁, Image.boot {} = .ok i ∧
    loadClasses drawing.classes { image := i } = .ok () { image := i₁ } ∧ Intact i₁ ∧ i₁.Spelled ∧
    ∀ parts, (∀ id, Part.room parts id ≤ 0x1000) → i₁.heap.Affords parts := by
  obtain ⟨i, hboot, hleft⟩ := Image.boot_default
  -- The start shall not be computed.
  generalize ({} : HeapSettings) = settings at hboot ⊢
  obtain ⟨ws, os, g, e, hk, hm, hknows, he⟩ := (Image.boot_surveyed hboot).knows
  have hobject : e "Object" = some [] :=
    he.mpr ⟨_, Image.boot_names hboot .object,
      ⟨_, List.mem_map_of_mem (KernelClass.mem_all .object), .inl rfl⟩,
      Image.boot_variables hboot .object⟩
  obtain ⟨parts, haccepted, hfits, hsmall⟩ : ∃ parts,
      ClassDefinition.Accepted e drawing.classes parts ∧
      parts.findSome? Part.misfit? = none ∧ ∀ id, Part.room parts id ≤ 0x1000 := by
    refine ⟨_, .cons hobject rfl (Method.exists_compile (by decide +kernel))
      (Method.exists_compile (by decide +kernel)) (.cons (Function.update_self ..) rfl
        (Method.exists_compile (by decide +kernel)) (List.forall_mem_nil _) (.nil _)),
      by decide +kernel, by rintro (_ | _) <;> decide +kernel⟩
  have hroom : ∀ rest, (∀ id, Part.room rest id ≤ 0x1000) → i.heap.Affords (parts ++ rest) :=
    fun rest hrest => hleft _ fun id => by
      rw [Part.room_append]
      exact (Nat.add_le_add (hsmall id) (hrest id)).trans (by decide)
  obtain ⟨i₁, ws', os', hclasses, htakes, -, _, hr⟩ := Image.Keeps.loadClasses_affords
    (w := { image := i }) haccepted hk hm hknows hfits (hroom [] fun _ => Nat.zero_le _).of_append
  exact ⟨i, i₁, hboot, hclasses, hr.intact, hr.spelled,
    fun rest hrest => htakes.affords (hroom rest hrest)⟩

end Program

end Accepting

end ObjectMachine
