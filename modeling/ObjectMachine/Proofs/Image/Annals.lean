import ObjectMachine.Proofs.Image.Starting

namespace ObjectMachine

/-- An image with the classes that were defined in it so far, the latest first. -/
structure Annals where
  image : Image
  definitions : List Definition

/-- What can be asked of an image. A collection is made on behalf of a schedule, and takes objects
to where the map says. -/
inductive Call where
  | define (name : String) (superclass : Value) (vars : List String)
  | load (definition : ClassDefinition)
  | collect (schedule : Schedule) (moves : Address → Address)

namespace Annals

def after (definitions : List Definition) :
    EStateM.Result (Stop RuntimeError) Image Value → Option Annals
  | .ok _ image => some ⟨image, definitions⟩
  | .error (.failure _) image => some ⟨image, definitions⟩
  | .error (.fault _) _ => none

/-- The classes on record once a class was to be made. It is there even if one of its methods then
turns out to be wrong. -/
def extended (a : Annals) (name : String) (sup : Value) (vars : List String) : List Definition :=
  match Image.defineClass name sup vars a.image with
  | .ok cls _ => ⟨cls, sup, vars⟩ :: a.definitions
  | .error .. => a.definitions

end Annals

namespace Call

open Classical in
/-- What comes of a call. Superclasses must be classes or metaclasses that were defined, and a
collection must keep all classes. -/
noncomputable def serve (a : Annals) : Call → Option Annals
  | define name sup vars =>
    if a.image.Defined a.definitions sup then
      Annals.after (a.extended name sup vars) (Image.defineClass name sup vars a.image)
    else none
  | load d =>
    match a.image.global? d.superclass with
    | .error _ => none
    | .ok none => Annals.after a.definitions (Image.loadClass d a.image)
    | .ok (some sup) =>
      if a.image.Defined a.definitions sup then
        Annals.after (a.extended d.name sup d.instanceVariables) (Image.loadClass d a.image)
      else none
  | collect s f =>
    match a.image.collect s with
    | .error _ => none
    | .ok (_, _, image) =>
      if (∀ v ∈ s.roots, Sane a.image v) ∧
          (∀ d ∈ a.definitions, a.image.heap.Taken (a.image.roots ++ s.roots) d.cls) ∧
          Image.Relocates f s a.image image then
        some ⟨image, a.definitions.map (Definition.relocate f)⟩
      else none

end Call

namespace Annals

variable {a a' : Annals} {sup : Value}

def Surveyed (a : Annals) : Prop := a.image.Surveyed a.definitions

theorem after_surveyed {ds : List Definition} {r : EStateM.Result (Stop RuntimeError) Image Value}
    (hend : Action.Ends (Image.Surveyed · ds) r) (heq : after ds r = some a') : a'.Surveyed := by
  match r, hend with
  | .ok _ _, hend =>
    cases heq
    exact hend
  | .error (.failure _) _, hend =>
    cases heq
    exact hend
  | .error (.fault _) _, _ => cases heq

theorem Surveyed.define (ha : a.Surveyed) (hsup : a.image.Defined a.definitions sup)
    (name : String) (vars : List String) :
    Action.Ends (Image.Surveyed · (a.extended name sup vars))
      (Image.defineClass name sup vars a.image) := by
  rw [extended]
  cases heq : Image.defineClass name sup vars a.image with
  | ok cls i => exact Image.Surveyed.defineClass_ok ha hsup heq
  | error e i =>
    cases e with
    | failure cause => exact Image.Surveyed.defineClass_error ha hsup heq
    | fault f => trivial

theorem Surveyed.load (ha : a.Surveyed) {d : ClassDefinition}
    (hfound : a.image.global? d.superclass = .ok (some sup))
    (hsup : a.image.Defined a.definitions sup) :
    Action.Ends (Image.Surveyed · (a.extended d.name sup d.instanceVariables))
      (Image.loadClass d a.image) := by
  have hdefine := ha.define hsup d.name d.instanceVariables
  rw [Image.loadClass_of_global hfound]
  cases heq : Image.defineClass d.name sup d.instanceVariables a.image with
  | ok cls i =>
    rw [heq] at hdefine
    rw [bind_of_eq_ok heq]
    refine Image.Surveyed.addAll hdefine (d := ⟨cls, sup, d.instanceVariables⟩) ?_ _ _
    rw [extended, heq]
    exact List.mem_cons_self
  | error e i =>
    rw [heq] at hdefine
    rw [bind_of_eq_error heq]
    cases e <;> exact hdefine

theorem Surveyed.serve (ha : a.Surveyed) {c : Call} (heq : c.serve a = some a') :
    a'.Surveyed := by
  cases c with
  | define name sup vars =>
    rw [Call.serve] at heq
    split at heq
    · rename_i hsup
      exact after_surveyed (ha.define hsup name vars) heq
    · cases heq
  | load d =>
    rw [Call.serve] at heq
    split at heq
    · cases heq
    · rename_i hfound
      have hread : (Action.query (·.global? d.superclass) : ImageAction (Option Value)) a.image =
          .ok none a.image := query_of_eq_ok hfound
      rw [Image.loadClass, bind_of_eq_ok hread] at heq
      cases heq
      exact ha
    · rename_i sup hfound
      split at heq
      · rename_i hsup
        exact after_surveyed (ha.load hfound hsup) heq
      · cases heq
  | collect s f =>
    rw [Call.serve] at heq
    split at heq
    · cases heq
    · split at heq
      · rename_i hkept
        cases heq
        exact Image.Surveyed.collect ha hkept.1 hkept.2.1 hkept.2.2
      · cases heq

theorem Surveyed.intact (ha : a.Surveyed) : Intact a.image := by
  obtain ⟨_, _, ⟨-, _, hr⟩, -⟩ := ha
  exact hr.intact

/-- Classes that programs have names for are kept. -/
theorem Surveyed.taken (ha : a.Surveyed) {s : Schedule} {d : Definition}
    (hd : (∃ name, a.image.global? name = .ok (some d.cls)) ∨
      ∃ k, a.image.kernelClass k = d.cls) :
    a.image.heap.Taken (a.image.roots ++ s.roots) d.cls := by
  obtain ⟨_, _, ⟨-, _, hr⟩, -⟩ := ha
  rcases hd with ⟨name, hname⟩ | ⟨k, hk⟩
  · exact hr.global_taken hname _
  · exact hk ▸ Image.taken_of_values hr.intact (a.image.kernelClass_mem_values k)

/-- A collection that keeps all classes can be made at any time. -/
theorem Surveyed.exists_collect (ha : a.Surveyed) {s : Schedule}
    (hs : ∀ v ∈ s.roots, Sane a.image v)
    (hkept : ∀ d ∈ a.definitions, a.image.heap.Taken (a.image.roots ++ s.roots) d.cls) :
    ∃ f i, (Call.collect s f).serve a = some ⟨i, a.definitions.map (Definition.relocate f)⟩ := by
  obtain ⟨f, i, hrel⟩ := Image.exists_relocates ha.intact hs
  obtain ⟨live, hcollect⟩ := hrel.collected
  refine ⟨f, i, ?_⟩
  simp only [Call.serve, hcollect]
  rw [if_pos ⟨hs, hkept, hrel⟩]

section Serving

variable {name : String} {vars : List String} {cls : Value} {cause : RuntimeError} {i : Image}

theorem serve_define_made (hsup : a.image.Defined a.definitions sup)
    (heq : Image.defineClass name sup vars a.image = .ok cls i) :
    (Call.define name sup vars).serve a = some ⟨i, ⟨cls, sup, vars⟩ :: a.definitions⟩ := by
  rw [Call.serve, if_pos hsup, extended, heq]
  rfl

theorem serve_define_refused (hsup : a.image.Defined a.definitions sup)
    (heq : Image.defineClass name sup vars a.image = .error (.failure cause) i) :
    (Call.define name sup vars).serve a = some ⟨i, a.definitions⟩ := by
  rw [Call.serve, if_pos hsup, extended, heq]
  rfl

end Serving

noncomputable def annals (settings : HeapSettings) (calls : List Call) : Option Annals :=
  match Image.boot settings with
  | .ok image => calls.foldlM (fun a c => c.serve a) ⟨image, image.kernelDefinitions⟩
  | .error _ => none

theorem annals_of_boot {settings : HeapSettings} {i : Image} (hboot : Image.boot settings = .ok i)
    (calls : List Call) : annals settings calls =
      calls.foldlM (fun a c => c.serve a) ⟨i, i.kernelDefinitions⟩ := by
  rw [annals, hboot]

theorem Surveyed.serves (ha : a.Surveyed) {calls : List Call}
    (heq : calls.foldlM (fun a c => c.serve a) a = some a') : a'.Surveyed := by
  induction calls generalizing a with
  | nil =>
    cases heq
    exact ha
  | cons c calls ih =>
    rw [List.foldlM_cons] at heq
    obtain ⟨b, hc, hrest⟩ := Option.bind_eq_some_iff.mp heq
    exact ih (ha.serve hc) hrest

theorem annals_surveyed {settings : HeapSettings} {calls : List Call}
    (heq : annals settings calls = some a) : a.Surveyed := by
  rw [annals] at heq
  split at heq
  · rename_i image hboot
    have hstart : Surveyed ⟨image, image.kernelDefinitions⟩ := Image.boot_surveyed hboot
    exact hstart.serves heq
  · cases heq

end Annals

/-- Whatever was defined below what was there, and however often garbage was collected since, all
classes with their metaclasses are where they belong. The check of a new class never fails, and a
class whose variables come twice leaves nothing behind. -/
theorem hierarchy_orderly (settings : HeapSettings) (calls : List Call) :
    match Annals.annals settings calls with
    | some a => (∀ d ∈ a.definitions, ∃ metaclass, a.image.Orderly d metaclass) ∧
        ∀ name sup vars, a.image.Defined a.definitions sup →
          Image.defineClass name sup vars a.image = Image.defineUnchecked name sup vars a.image ∧
          match Image.defineClass name sup vars a.image with
          | .error (.failure (.compile e)) i => a.image.Undisturbed i ∧
              ∃ inherited twice before after,
                a.image.heap.instanceVariables sup = .ok inherited ∧
                e = .instanceVariableTwice twice ∧ vars = before ++ twice :: after ∧
                twice ∈ inherited ++ before
          | _ => True
    | none => True := by
  split
  · rename_i a heq
    have ha := Annals.annals_surveyed heq
    refine ⟨fun d hd => Image.Surveyed.orderly ha hd, fun name sup vars hsup =>
      ⟨Image.Surveyed.defineClass_unchecked ha hsup name vars, ?_⟩⟩
    split
    · rename_i hdefine
      exact Image.Surveyed.rejected ha hsup hdefine
    · trivial
  · trivial

/-- A class is defined, one that would have a variable twice is turned down, and garbage is
collected. -/
theorem hierarchy_orderly_point : ∃ object point f a b,
    Annals.annals {} [.define "Point" object ["x", "y"]] = some a ∧
    (∃ i, Image.defineClass "Spot" point ["size", "y"] a.image =
      .error (.failure (.compile (.instanceVariableTwice "y"))) i ∧ a.image.Undisturbed i) ∧
    Annals.annals {} [.define "Point" object ["x", "y"], .define "Spot" point ["size", "y"],
      .collect {} f] = some b ∧
    (∀ d ∈ b.definitions, ∃ metaclass, b.image.Orderly d metaclass) ∧
    b.definitions.map Definition.own =
      ["x", "y"] :: KernelClass.all.map KernelClass.ownVariables := by
  obtain ⟨i, hboot, hleft⟩ := Image.boot_default
  -- The start shall not be computed.
  generalize ({} : HeapSettings) = settings at hboot ⊢
  let object := i.kernelClass .object
  have hstart : Annals.Surveyed ⟨i, i.kernelDefinitions⟩ := Image.boot_surveyed hboot
  have hobject : i.Defined i.kernelDefinitions object :=
    ⟨_, List.mem_map_of_mem (KernelClass.mem_all .object), .inl rfl⟩
  have hread : i.heap.instanceVariables object = .ok [] := Image.boot_variables hboot .object
  have hroom : i.heap.Affords (Part.definition "Point" ["x", "y"] ++
      [.slots Slot.Class.count, .slots Slot.Class.count]) :=
    hleft _ (by rintro (_ | _) <;> decide +kernel)
  have hnames : Image.extendVariables [] ["x", "y"] = .ok ["x", "y"] := rfl
  obtain ⟨point, i₁, hdefine, htakes, hknown, hvars, hglobal⟩ := Image.Surveyed.defineClass_delivers
    hstart hobject hread "Point" hnames hroom.of_append
  let definitions := ⟨point, object, ["x", "y"]⟩ :: i.kernelDefinitions
  have hfirst : (Call.define "Point" object ["x", "y"]).serve ⟨i, i.kernelDefinitions⟩ =
      some ⟨i₁, definitions⟩ := Annals.serve_define_made hobject hdefine
  have hs₁ : Annals.Surveyed ⟨i₁, definitions⟩ := hstart.serve hfirst
  have hpoint : i₁.Defined definitions point := ⟨_, List.mem_cons_self, .inl rfl⟩
  have htwice : Image.extendVariables ["x", "y"] ["size", "y"] =
      .error (.instanceVariableTwice "y") := rfl
  obtain ⟨i₂, hrejected⟩ := Image.Surveyed.defineClass_repeats hs₁ hpoint hvars "Spot" htwice
    (htakes.affords hroom)
  have hsecond : (Call.define "Spot" point ["size", "y"]).serve ⟨i₁, definitions⟩ =
      some ⟨i₂, definitions⟩ := Annals.serve_define_refused hpoint hrejected
  have hs₂ : Annals.Surveyed ⟨i₂, definitions⟩ := hs₁.serve hsecond
  obtain ⟨hundisturbed, -⟩ := Image.Surveyed.rejected hs₁ hpoint hrejected
  have hnamed : ∀ d ∈ definitions, (∃ name, i₂.global? name = .ok (some d.cls)) ∨
      ∃ k, i₂.kernelClass k = d.cls :=
    List.forall_mem_cons.mpr ⟨.inl ⟨"Point", hundisturbed.global _ ▸ hglobal⟩,
      List.forall_mem_map.mpr fun k _ =>
        .inr ⟨k, Image.kernelClass_eq (hundisturbed.known.trans hknown) k⟩⟩
  obtain ⟨f, i₃, hthird⟩ := hs₂.exists_collect (s := {})
    (fun v hv => (World.intact_fresh hs₂.intact).held v (List.mem_append_right _ hv))
    fun d hd => hs₂.taken (hnamed d hd)
  have hcall : Annals.annals settings [.define "Point" object ["x", "y"]] =
      some ⟨i₁, definitions⟩ := by
    rw [Annals.annals_of_boot hboot, List.foldlM_cons, hfirst]
    rfl
  have hcalls : Annals.annals settings [.define "Point" object ["x", "y"],
      .define "Spot" point ["size", "y"], .collect {} f] =
      some ⟨i₃, definitions.map (Definition.relocate f)⟩ := by
    rw [Annals.annals_of_boot hboot, List.foldlM_cons, hfirst, Option.bind_eq_bind,
      Option.bind_some, List.foldlM_cons, hsecond, Option.bind_eq_bind, Option.bind_some,
      List.foldlM_cons, hthird]
    rfl
  have hdefined := hierarchy_orderly settings [.define "Point" object ["x", "y"]]
  have hcollected := hierarchy_orderly settings [.define "Point" object ["x", "y"],
    .define "Spot" point ["size", "y"], .collect {} f]
  rw [hcall] at hdefined
  rw [hcalls] at hcollected
  have hspot := (hdefined.2 "Spot" point ["size", "y"] hpoint).2
  rw [hrejected] at hspot
  have howns : (definitions.map (Definition.relocate f)).map Definition.own =
      ["x", "y"] :: KernelClass.all.map KernelClass.ownVariables := by
    rw [List.map_map, List.map_cons, Image.kernelDefinitions, List.map_map]
    rfl
  exact ⟨object, point, f, ⟨i₁, definitions⟩, ⟨i₃, _⟩, hcall, ⟨i₂, hrejected, hspot.1⟩, hcalls,
    hcollected.1, howns⟩

end ObjectMachine
