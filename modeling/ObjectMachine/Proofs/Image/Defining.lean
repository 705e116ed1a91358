import ObjectMachine.Proofs.Image.Registry

namespace ObjectMachine

namespace Image

variable {i i' : Image} {ws : List Wiring} {os : List Outfit} {ts : List Filing}

section Refusing

def Frugal {α : Type} (act : ImageAction α) : Prop :=
  ∀ i i' e, act i = .error (.failure e) i' → ∃ cause, e = .allocation cause

variable {α β : Type}

theorem Frugal.of_unfailing {act : ImageAction α} (hact : act.Unfailing) : Frugal act :=
  fun i i' e heq => absurd heq (hact i e i')

theorem Frugal.bind {act : ImageAction α} {next : α → ImageAction β} (hact : Frugal act)
    (hnext : ∀ a, Frugal (next a)) : Frugal (act >>= next) := by
  intro i i' e heq
  cases hfirst : act i with
  | ok a i₁ =>
    rw [bind_of_eq_ok hfirst] at heq
    exact hnext a _ _ _ heq
  | error e₁ i₁ =>
    rw [bind_of_eq_error hfirst] at heq
    cases heq
    exact hact _ _ _ hfirst

theorem frugal_onHeap (act : Action HeapError Heap α) : Frugal (onHeap act) := by
  intro i i' e heq
  rw [onHeap_apply] at heq
  split at heq
  · cases heq
  · rename_i stop heap hstop
    cases stop with
    | fault f => cases heq
    | failure cause =>
      cases heq
      exact ⟨cause, rfl⟩

theorem frugal_intern (name : String) : Frugal (intern name) := by
  refine .bind (.of_unfailing .get) fun i => ?_
  split
  · exact .of_unfailing (.pure _)
  · exact .bind (frugal_onHeap _) fun _ => .of_unfailing (.bind (.modify _) fun _ => .pure _)

theorem frugal_internAll (names : List String) : Frugal (internAll names) := by
  induction names with
  | nil => exact .of_unfailing (.pure _)
  | cons name names ih =>
    exact .bind (frugal_intern name) fun _ => .bind ih fun _ => .of_unfailing (.pure _)

theorem frugal_fillSlots (v : Value) (k : Nat) (items : List Value) :
    Frugal (fillSlots v k items) := by
  induction items generalizing k with
  | nil => exact .of_unfailing (.pure _)
  | cons x items ih => exact .bind (frugal_onHeap _) fun _ => ih (k + 1)

theorem frugal_furnish (cls : Value) (name : String) (vars : List String) (size : Nat) :
    Frugal (furnish cls name vars size) := by
  have hnewArray : ∀ items, Frugal (newArray items) := fun items =>
    .bind (.of_unfailing .get) fun _ => .bind (frugal_onHeap _) fun array =>
      .bind (frugal_fillSlots array 0 items) fun _ => .of_unfailing (.pure _)
  refine .bind (frugal_intern name) fun _ => .bind (.of_unfailing .get) fun _ => ?_
  refine .bind (frugal_onHeap _) fun _ => .bind (frugal_internAll vars) fun symbols => ?_
  refine .bind (hnewArray symbols) fun _ => .bind (frugal_onHeap _) fun _ => ?_
  exact .bind (frugal_onHeap _) fun _ => .bind (frugal_onHeap _) fun _ => frugal_onHeap _

theorem frugal_furnishPair (cls : Value) (name : String) (vars : List String) :
    Frugal (furnishPair cls name vars) :=
  .bind (.of_unfailing (.query _)) fun metaclass => .bind (frugal_furnish cls name vars _) fun _ =>
    frugal_furnish metaclass _ _ _

theorem frugal_setGlobal (name : String) (v : Value) : Frugal (setGlobal name v) :=
  .bind (frugal_intern name) fun _ => .bind (.of_unfailing .get) fun _ =>
    .bind (frugal_onHeap _) fun _ => .of_unfailing (.pure _)

end Refusing

section Defining

theorem extendVariables_eq_ok {names vars all : List String}
    (heq : extendVariables names vars = .ok all) :
    all = names ++ vars ∧ (names.Nodup → all.Nodup) := by
  induction vars generalizing names with
  | nil =>
    cases heq
    exact ⟨(List.append_nil _).symm, id⟩
  | cons name vars ih =>
    rw [extendVariables] at heq
    split at heq
    · cases heq
    · rename_i hnew
      obtain ⟨rfl, hnodup⟩ := ih heq
      refine ⟨List.append_assoc .., fun hnames => hnodup ?_⟩
      rw [List.nodup_append]
      refine ⟨hnames, List.nodup_singleton _, fun a ha b hb hab => hnew ?_⟩
      rw [List.contains_iff_mem, ← List.mem_singleton.mp hb, ← hab]
      exact ha

/-- What remains to be done for a class once it is wired. -/
def completeClass (cls : Value) (name : String) (sup : Value) (vars : List String) :
    ImageAction Value := do
  let inherited ← ask (·.instanceVariables sup)
  match extendVariables inherited vars with
  | .error e => Action.fail (.compile e)
  | .ok names =>
    furnishPair cls name names
    setGlobal name cls
    return cls

/-- The definition of a class without the check that its wiring follows the rule. -/
def defineUnchecked (name : String) (sup : Value) (vars : List String) : ImageAction Value := do
  let cls ← onHeap (Heap.allocatePointers .nil Slot.Class.count)
  let metaclass ← onHeap (Heap.allocatePointers .nil Slot.Class.count)
  let i ← EStateM.get
  onHeap (Heap.wire cls metaclass sup (i.kernelClass .object) (i.kernelClass .metaclass))
  completeClass cls name sup vars

theorem defineClass_eq (name : String) (sup : Value) (vars : List String) :
    defineClass name sup vars = (do
      let cls ← onHeap (Heap.allocatePointers .nil Slot.Class.count)
      let metaclass ← onHeap (Heap.allocatePointers .nil Slot.Class.count)
      let i ← EStateM.get
      onHeap (Heap.wire cls metaclass sup (i.kernelClass .object) (i.kernelClass .metaclass))
      let cls ← completeClass cls name sup vars
      ask (·.checkWiring cls (i.kernelClass .object) (i.kernelClass .metaclass))
      return cls) := by
  rw [defineClass]
  simp only [completeClass, bind_assoc]
  refine bind_congr fun cls => bind_congr fun metaclass => bind_congr fun i => bind_congr fun _ =>
    bind_congr fun inherited => ?_
  cases extendVariables inherited vars with
  | error e => rfl
  | ok names => simp only [bind_assoc, pure_bind]

/-- How the definition of a class below another may end: the class and its metaclass are on record,
made of new objects before the global was set; a name comes twice, and nothing but new objects was
made; or there is no room. -/
inductive Defines (i : Image) (ws : List Wiring) (os : List Outfit) (w : Wiring) (o : Outfit)
    (name : String) (vars : List String) :
    EStateM.Result (Stop RuntimeError) Image Value → Prop where
  | made {cls metaclass : Value} {p q : Outfit} {ts : List Filing} {i₁ i' : Image} :
    Adds (fun _ => False) i i₁ → Sane i₁ cls → Image.setGlobal name cls i₁ = .ok () i' →
    i'.Registers (⟨cls, metaclass, w.object⟩ :: ⟨metaclass, i.kernelClass .metaclass,
      if w.object = i.kernelClass .object then i.kernelClass .metaclass else w.isa⟩ :: ws)
      (q :: p :: os) ts → i'.known = i.known → p.object = cls →
    extendVariables o.names vars = .ok p.names → q.object = metaclass →
    q.names = KernelClass.classVariables → Defines i ws os w o name vars (.ok cls i')
  | repeated {e : CompileError} {i' : Image} : extendVariables o.names vars = .error e →
    Adds (fun _ => False) i i' → i'.symbols = i.symbols →
    Defines i ws os w o name vars (.error (.failure (.compile e)) i')
  | refused {cause : HeapError} {i' : Image} : Keeps i.known ws os i' →
    Defines i ws os w o name vars (.error (.failure (.allocation cause)) i')
  | broken {f : Fault} {i' : Image} : Defines i ws os w o name vars (.error (.fault f) i')

variable {w : Wiring} {o : Outfit}

theorem completeClass_defines {i₁ : Image} {cls metaclass : Value} {ws' : List Wiring}
    (hr : i.Registers ws os ts) (ha : Adds (fun _ => False) i i₁)
    (hsymbols : i₁.symbols = i.symbols) (hr₁ : i₁.Registers ws' os ts)
    (hws : ws' = ⟨cls, metaclass, w.object⟩ :: ⟨metaclass, i.kernelClass .metaclass,
      if w.object = i.kernelClass .object then i.kernelClass .metaclass else w.isa⟩ :: ws)
    (hcls : ¬Sane i cls) (hmeta : ¬Sane i metaclass) (hne : cls ≠ metaclass) (ho : o ∈ os)
    (hsame : o.object = w.object) (name : String) (vars : List String) :
    Defines i ws os w o name vars (completeClass cls name w.object vars i₁) := by
  have hfirst : (⟨cls, metaclass, w.object⟩ : Wiring) ∈ ws' := by simp [hws]
  have hsecond : (⟨metaclass, i.kernelClass .metaclass,
      if w.object = i.kernelClass .object then i.kernelClass .metaclass else w.isa⟩ : Wiring) ∈
      ws' := by simp [hws]
  have hwired := hr₁.wired _ hfirst
  have hnew : ∀ o ∈ os, o.object ≠ cls ∧ o.object ≠ metaclass := fun o ho =>
    ⟨fun heq => hcls (heq ▸ (hr.fitted o ho).methods.sane),
      fun heq => hmeta (heq ▸ (hr.fitted o ho).methods.sane)⟩
  have hvars : (ask (·.instanceVariables w.object) : ImageAction (List String)) i₁ =
      .ok o.names i₁ := query_of_eq_ok (hsame ▸ (hr₁.fitted o ho).instanceVariables)
  rw [completeClass, bind_of_eq_ok hvars]
  cases hextend : extendVariables o.names vars with
  | error e => exact .repeated hextend ha hsymbols
  | ok names =>
    dsimp only
    have hleaves := furnishPair_leaves ha hwired.sane hwired.isa name names (absurd · hcls)
      (absurd · hmeta)
    cases hfurnish : furnishPair cls name names i₁ with
    | error stop i₂ =>
      rw [bind_of_eq_error hfurnish]
      cases stop with
      | fault f => exact .broken
      | failure e =>
        obtain ⟨cause, rfl⟩ := frugal_furnishPair _ _ _ _ _ _ hfurnish
        have hi₂ := hleaves.failure hfurnish
        exact .refused (hi₂.known ▸ (hr.adds hi₂).keeps)
    | ok u i₂ =>
      rw [bind_of_eq_ok hfurnish]
      obtain ⟨p, q, ts', hr₂, hknown₂, hp, rfl, hq, hqnames⟩ :=
        hr₁.furnishPair hfirst hsecond rfl hne hnew hfurnish
      have hknown : i₂.known = i.known := hknown₂.trans ha.known
      have hcls₂ : Sane i₂ cls := (hr₂.wired _ hfirst).sane
      have hglobal := hr₂.keeps.setGlobal name hcls₂
      cases hset : setGlobal name cls i₂ with
      | error stop i₃ =>
        rw [hset] at hglobal
        rw [bind_of_eq_error hset]
        cases stop with
        | fault f => exact .broken
        | failure e =>
          obtain ⟨cause, rfl⟩ := frugal_setGlobal _ _ _ _ _ hset
          obtain ⟨hknown₃, ts'', hr₃⟩ := hglobal
          refine .refused ⟨hknown₃.trans hknown, ts'', hr₃.mono ?_ ?_⟩
          · simp [hws]
          · simp
      | ok u i₃ =>
        rw [hset] at hglobal
        obtain ⟨hknown₃, ts'', hr₃⟩ := hglobal
        rw [bind_of_eq_ok hset]
        rw [hfurnish] at hleaves
        exact .made hleaves.1 hcls₂ hset (hws ▸ hr₃) (hknown₃.trans hknown) hp hextend hq hqnames

/-- A class that was made follows the wiring rule. -/
theorem Defines.checked {name : String} {vars : List String} {cls : Value} {i' : Image}
    (hw : w ∈ ws)
    (hdefines : Defines i ws os w o name vars (.ok cls i')) :
    i'.heap.checkWiring cls (i.kernelClass .object) (i.kernelClass .metaclass) = .ok () := by
  cases hdefines with
  | @made _ metaclass p q ts _ _ _ _ _ hr hknown hp hextend hq hqnames =>
    have hsup := hr.wired w (List.mem_cons_of_mem _ (List.mem_cons_of_mem _ hw))
    exact Heap.checkWiring_of_wired (hr.wired _ List.mem_cons_self)
      (hr.wired _ (List.mem_cons_of_mem _ List.mem_cons_self))
      (hr.fitted p (List.mem_cons_of_mem _ List.mem_cons_self)) hp
      (fun hnil => absurd (congrArg Value.isNil hnil) hsup.not_isNil) (hsup.metaclassSuper _ _)

theorem Defines.unchecked {name : String} {vars : List String} {cls : Value} {i₁ : Image}
    (hw : w ∈ ws)
    (hdefines : Defines i ws os w o name vars (completeClass cls name w.object vars i₁)) :
    (completeClass cls name w.object vars >>= fun cls =>
      ask (·.checkWiring cls (i.kernelClass .object) (i.kernelClass .metaclass)) >>= fun _ =>
        pure cls : ImageAction Value) i₁ = completeClass cls name w.object vars i₁ := by
  cases hcomplete : completeClass cls name w.object vars i₁ with
  | error e i' => rw [bind_of_eq_error hcomplete]
  | ok v i' =>
    rw [hcomplete] at hdefines
    have hask : (ask (·.checkWiring v (i.kernelClass .object) (i.kernelClass .metaclass)) :
        ImageAction Unit) i' = .ok () i' := query_of_eq_ok (hdefines.checked hw)
    rw [bind_of_eq_ok hcomplete, bind_of_eq_ok hask]
    rfl

/-- How defining a class below one on record may end. The check of the wiring rule always passes. -/
theorem defineClass_defines (hr : i.Registers ws os ts) (hw : w ∈ ws) (ho : o ∈ os)
    (hsame : o.object = w.object) (name : String) (vars : List String) :
    Defines i ws os w o name vars (defineClass name w.object vars i) ∧
      defineClass name w.object vars i = defineUnchecked name w.object vars i := by
  rw [defineClass_eq, defineUnchecked]
  obtain ⟨cls, i₁, hmade, ha₁, hsymbols₁, hcls₁, hcls, hslots⟩ | ⟨cause, i₁, hmade, ha₁, -⟩ :=
    allocatePointers_cases hr.intact hr.spelled (Arenas.sane_nil _) Slot.Class.count (by decide)
  case inr =>
    rw [bind_of_eq_error hmade, bind_of_eq_error hmade]
    exact ⟨.refused (ha₁.known ▸ (hr.adds ha₁).keeps), rfl⟩
  rw [bind_of_eq_ok hmade, bind_of_eq_ok hmade]
  obtain ⟨metaclass, i₂, hmade', ha₂, hsymbols₂, hmeta₂, hmeta, hslots'⟩ |
      ⟨cause, i₂, hmade', ha₂, -⟩ :=
    allocatePointers_cases ha₁.intact ha₁.spelled (Arenas.sane_nil _) Slot.Class.count (by decide)
  case inr =>
    rw [bind_of_eq_error hmade', bind_of_eq_error hmade']
    exact ⟨.refused ((ha₁.trans ha₂).known ▸ (hr.adds (ha₁.trans ha₂)).keeps), rfl⟩
  rw [bind_of_eq_ok hmade', bind_of_eq_ok hmade']
  have ha := ha₁.trans ha₂
  have hne : cls ≠ metaclass := fun heq => hmeta (heq ▸ hcls₁)
  have hmeta' : ¬Sane i metaclass := fun hold => hmeta (ha₁.sane hold)
  have hkernel : ∀ k, Sane i₂ (i₂.kernelClass k) := fun k =>
    ha.intact.held _ (i₂.kernelClass_mem_values k)
  have hsup : Sane i₂ w.object := ha.sane (hr.wired w hw).sane
  have hget : (EStateM.get : ImageAction Image) i₂ = .ok i₂ i₂ := rfl
  rw [bind_of_eq_ok hget, bind_of_eq_ok hget]
  cases hwire : Heap.wire cls metaclass w.object (i₂.kernelClass .object)
      (i₂.kernelClass .metaclass) (ε := HeapError) i₂.heap with
  | error e heap =>
    have hon := onHeap_apply (Heap.wire cls metaclass w.object (i₂.kernelClass .object)
      (i₂.kernelClass .metaclass)) i₂
    rw [hwire] at hon
    rw [bind_of_eq_error hon, bind_of_eq_error hon]
    cases e with
    | failure cause => exact absurd hwire (Heap.wire_unfailing _ _ _ _ _ _ _ _)
    | fault f => exact ⟨.broken, rfl⟩
  | ok u heap =>
    have hon := onHeap_eq_ok.mpr ⟨heap, hwire, rfl⟩
    rw [bind_of_eq_ok hon, bind_of_eq_ok hon, ha.kernelClass, ha.kernelClass]
    obtain ⟨msup, hreshapes, hmsup, hwired, hwired'⟩ := ha.intact.whole.wires
      (ha₂.heap.kept id (hslots _ (by decide))) (hslots' _ (by decide)) hne hsup (hkernel _)
      (hkernel _) hwire
    have hnew : ∀ v ∈ [cls, metaclass], ¬Sane i v := by simpa using ⟨hcls, hmeta'⟩
    have ha₃ := ha.reshape hreshapes hnew
    have hold := (hr.adds ha₃).wired w hw
    rw [hold.metaclassSuper] at hmsup
    obtain rfl := Except.ok.inj hmsup
    rw [ha.kernelClass, ha.kernelClass] at hwired'
    have hdefines := completeClass_defines hr ha₃ (hsymbols₂.trans hsymbols₁)
      (hr.wire ha₃ (List.forall_mem_cons.mpr ⟨hcls, List.forall_mem_singleton.mpr hmeta'⟩)
        (List.forall_mem_cons.mpr ⟨hwired, List.forall_mem_singleton.mpr hwired'⟩))
      rfl hcls hmeta' hne ho hsame name vars
    rw [hdefines.unchecked hw]
    exact ⟨hdefines, rfl⟩

end Defining

end Image

end ObjectMachine
