import ObjectMachine.Proofs.Image.Naming
import ObjectMachine.Proofs.Scheduling.Answering
import ObjectMachine.Program

namespace ObjectMachine

structure ClassCode where
  definition : ClassDefinition
  names : List String
  methods : List CodeTemplate
  classMethods : List CodeTemplate

namespace Image

/-- Methods that were entered in a class one after the other. Each was compiled with the names of
the variables that the class has by then, and the method object reads as the template. -/
inductive Enters (cls : Value) (names : List String) :
    List Method → List CodeTemplate → Image → Image → Prop
  | nil (i : Image) : Enters cls names [] [] i i
  | cons {i i₁ i' : Image} {m : Method} {t : CodeTemplate} {method : Value} {ms : List Method}
      {ts : List CodeTemplate} : i.heap.instanceVariables cls = .ok names →
    m.compile names = .ok t → addMethod cls m i = .ok method i₁ →
    i₁.ReadsCode (¬Sane i ·) cls t method → Enters cls names ms ts i₁ i' →
    Enters cls names (m :: ms) (t :: ts) i i'

def Makes (i : Image) (c : ClassCode) (i' : Image) : Prop :=
  ∃ sup cls metaclass i₁ i₂, i.global? c.definition.superclass = .ok (some sup) ∧
    defineClass c.definition.name sup c.definition.instanceVariables i = .ok cls i₁ ∧
    Enters cls c.names c.definition.methods c.methods i₁ i₂ ∧
    i₂.heap.isa cls = .ok metaclass ∧
    Enters metaclass KernelClass.classVariables c.definition.classMethods c.classMethods i₂ i' ∧
    loadClass c.definition i = .ok cls i'

inductive Loads : List ClassCode → Image → Image → Prop
  | nil (i : Image) : Loads [] i i
  | cons {i i₁ i' : Image} {c : ClassCode} {cs : List ClassCode} : Makes i c i₁ →
    Loads cs i₁ i' → Loads (c :: cs) i i'

theorem Enters.compiled {cls : Value} {names : List String} {ms : List Method}
    {templates : List CodeTemplate} {i i' : Image} (he : Enters cls names ms templates i i') :
    List.Forall₂ (fun m t => m.compile names = .ok t) ms templates := by
  induction he with
  | nil => exact .nil
  | cons _ hcompile _ _ _ ih => exact .cons hcompile ih

theorem Loads.compiled {cs : List ClassCode} {i i' : Image} (hl : Loads cs i i') :
    ∀ c ∈ cs, List.Forall₂ (fun m t => m.compile c.names = .ok t) c.definition.methods c.methods ∧
      List.Forall₂ (fun m t => m.compile KernelClass.classVariables = .ok t)
        c.definition.classMethods c.classMethods := by
  induction hl with
  | nil => exact List.forall_mem_nil _
  | cons hmakes _ ih =>
    obtain ⟨_, _, _, _, _, -, -, hmethods, -, hclassMethods, -⟩ := hmakes
    exact List.forall_mem_cons.mpr ⟨⟨hmethods.compiled, hclassMethods.compiled⟩, ih⟩

variable {i i' : Image} {ws : List Wiring} {os : List Outfit} {o : Outfit} {known : Array Value}
  {g : String → Option Value}

/-- Methods that are entered change no name, and are compiled with the variables on record. -/
theorem Keeps.addMethods_enters (hk : Keeps known ws os i) (hm : i.Means g) (ho : o ∈ os)
    {ms : List Method} {u : Unit} (heq : Image.addMethods o.object ms i = .ok u i') :
    (∃ templates, Enters o.object o.names ms templates i i') ∧ Keeps known ws os i' ∧
      i'.Means g := by
  induction ms generalizing i with
  | nil =>
    obtain ⟨-, rfl⟩ := pure_eq_ok.mp heq
    exact ⟨⟨[], .nil _⟩, hk, hm⟩
  | cons m ms ih =>
    obtain ⟨method, i₁, hfirst, hrest⟩ := bind_eq_ok.mp heq
    have hkept := hk.addMethod ho m
    rw [hfirst] at hkept
    obtain ⟨-, ts, hr⟩ := hk
    have hcls : Sane i o.object := (hr.fitted o ho).methods.sane
    obtain ⟨names, t, hnames, hcompile, hreads⟩ :=
      addMethod_reads hr.intact hr.spelled hcls hfirst
    obtain rfl := Except.ok.inj ((hr.fitted o ho).instanceVariables.symm.trans hnames)
    have hm₁ := hm.addMethod hr ho hfirst
    obtain ⟨⟨templates, henters⟩, hk', hm'⟩ := ih hkept hm₁ hrest
    exact ⟨⟨t :: templates, .cons hnames hcompile hfirst hreads henters⟩, hk', hm'⟩

/-- A class that was made below one on record is on record, with the variables of its superclass and
then its own, and its name stands for it. -/
theorem Keeps.loadClass_makes (hk : Keeps i.known ws os i) (hm : i.Means g) {d : ClassDefinition}
    {cls : Value} {w : Wiring} (hsup : g d.superclass = some w.object) (hw : w ∈ ws) (ho : o ∈ os)
    (hsame : o.object = w.object) (heq : loadClass d i = .ok cls i') :
    ∃ c : ClassCode, c.definition = d ∧ i.Makes c i' ∧ c.names = o.names ++ d.instanceVariables ∧
      i'.known = i.known ∧ ∃ ws' os', ws ⊆ ws' ∧ os ⊆ os' ∧ Keeps i.known ws' os' i' ∧
        i'.Means (Function.update g d.name (some cls)) ∧
        ∃ w' ∈ ws', w'.object = cls ∧ ∃ o' ∈ os', o'.object = cls ∧ o'.names = c.names := by
  have hglobal : i.global? d.superclass = .ok (some w.object) := (hm _).trans (congrArg _ hsup)
  obtain ⟨-, ts, hr⟩ := hk
  have hload := heq
  rw [loadClass_of_global hglobal] at hload
  obtain ⟨cls', i₁, hdefine, hmethods⟩ := bind_eq_ok.mp hload
  have hdefines := (defineClass_defines hr hw ho hsame d.name d.instanceVariables).1
  rw [hdefine] at hdefines
  cases hdefines with
  | @made _ metaclass p q ts₁ i₀ _ ha hsane hset hr₁ hknown hp hextend hq hqnames =>
    have hm₁ := (hm.adds hr ha).setGlobal (hr.adds ha) hsane hset
    have hnames := (extendVariables_eq_ok hextend).1
    subst hp
    obtain ⟨_, i₂, hfirst, hmethods⟩ := bind_eq_ok.mp hmethods
    obtain ⟨⟨templates, henters⟩, hk₂, hm₂⟩ := hr₁.keeps.addMethods_enters hm₁ (by simp) hfirst
    obtain ⟨metaclass', hisa, hmethods⟩ := query_bind_eq_ok.mp hmethods
    obtain ⟨-, ts₂, hr₂⟩ := id hk₂
    obtain rfl : metaclass = metaclass' :=
      Except.ok.inj ((hr₂.wired _ List.mem_cons_self).isa.symm.trans hisa)
    subst hq
    obtain ⟨_, i₃, hsecond, hdone⟩ := bind_eq_ok.mp hmethods
    obtain ⟨rfl, rfl⟩ := pure_eq_ok.mp hdone
    obtain ⟨⟨classTemplates, henters'⟩, hk₃, hm₃⟩ :=
      hk₂.addMethods_enters hm₂ List.mem_cons_self hsecond
    rw [hqnames] at henters'
    refine ⟨⟨d, p.names, templates, classTemplates⟩, rfl,
      ⟨_, _, _, _, _, hglobal, hdefine, henters, hisa, henters', heq⟩, hnames,
      hk₃.1.trans hknown, _, _, ?_, ?_, hknown ▸ hk₃, hm₃, _, List.mem_cons_self, rfl, p,
      by simp, rfl, rfl⟩
    · exact fun _ h => List.mem_cons_of_mem _ (List.mem_cons_of_mem _ h)
    · exact fun _ h => List.mem_cons_of_mem _ (List.mem_cons_of_mem _ h)

end Image

end ObjectMachine
