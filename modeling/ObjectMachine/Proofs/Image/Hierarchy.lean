import ObjectMachine.Proofs.Image.Charting

namespace ObjectMachine

namespace Image

variable {i i' : Image} {ws : List Wiring} {os : List Outfit} {ds : List Definition} {sup : Value}

def kernelDefinitions (i : Image) : List Definition :=
  KernelClass.all.map fun k =>
    ⟨i.kernelClass k, (k.superclass?.map i.kernelClass).getD .nil, k.ownVariables⟩

def Defined (i : Image) (ds : List Definition) (v : Value) : Prop :=
  ∃ d ∈ ds, v = d.cls ∨ i.heap.isa d.cls = .ok v

def Surveyed (i : Image) (ds : List Definition) : Prop :=
  ∃ ws os, Keeps i.known ws os i ∧ Chart (i.kernelClass .object) (i.kernelClass .metaclass) ws os ds

/-- The kernel classes of a fresh image are on record. -/
theorem boot_surveyed {settings : HeapSettings} (hboot : boot settings = .ok i) :
    i.Surveyed i.kernelDefinitions := by
  obtain ⟨cls, metaOf, os, horigin⟩ := boot_originates hboot
  obtain rfl : i.kernelClass = cls := funext horigin.known
  exact ⟨_, os, horigin.keeps, kernel_chart horigin.distinct horigin.furnished⟩

section Steps

theorem kernelClass_eq (hknown : i'.known = i.known) (k : KernelClass) :
    i'.kernelClass k = i.kernelClass k := by
  rw [kernelClass, hknown, kernelClass]

theorem Surveyed.keep {root rootMeta : Value} (hk : Keeps i.known ws os i')
    (hc : Chart root rootMeta ws os ds) (hroot : i.kernelClass .object = root)
    (hrootMeta : i.kernelClass .metaclass = rootMeta) : i'.Surveyed ds := by
  refine ⟨ws, os, hk.1 ▸ hk, ?_⟩
  rw [kernelClass_eq hk.1, kernelClass_eq hk.1, hroot, hrootMeta]
  exact hc

theorem Defined.recorded {ts : List Filing} (hsup : i.Defined ds sup)
    (hr : i.Registers ws os ts)
    (hc : Chart (i.kernelClass .object) (i.kernelClass .metaclass) ws os ds) :
    ∃ w ∈ ws, w.object = sup ∧ ∃ o ∈ os, o.object = w.object ∧ o.names.Nodup := by
  obtain ⟨d, hd, hsup⟩ := hsup
  obtain ⟨metaclass, msup, hcls, hmeta, ⟨q, hq, hqobject, hqnames⟩, -⟩ := hc.wired d hd
  rcases hsup with rfl | hisa
  · obtain ⟨p, hp, hobject, hnodup, -⟩ := hc.fitted d hd
    exact ⟨_, hcls, rfl, p, hp, hobject, hnodup⟩
  · obtain rfl := Except.ok.inj ((hr.wired _ hcls).isa.symm.trans hisa)
    exact ⟨_, hmeta, rfl, q, hq, hqobject, hqnames ▸ by decide⟩

theorem Surveyed.defineClass_unchecked (hs : i.Surveyed ds) (hsup : i.Defined ds sup)
    (name : String) (vars : List String) :
    defineClass name sup vars i = defineUnchecked name sup vars i := by
  obtain ⟨ws, os, ⟨-, ts, hr⟩, hc⟩ := hs
  obtain ⟨w, hw, rfl, o, ho, hsame, -⟩ := hsup.recorded hr hc
  exact (defineClass_defines hr hw ho hsame name vars).2

theorem Surveyed.defineClass_ok (hs : i.Surveyed ds) (hsup : i.Defined ds sup) {name : String}
    {vars : List String} {cls : Value} (heq : defineClass name sup vars i = .ok cls i') :
    i'.Surveyed (⟨cls, sup, vars⟩ :: ds) := by
  obtain ⟨ws, os, ⟨-, ts, hr⟩, hc⟩ := hs
  obtain ⟨w, hw, rfl, o, ho, hsame, hnodup⟩ := hsup.recorded hr hc
  have hdefines := (defineClass_defines hr hw ho hsame name vars).1
  rw [heq] at hdefines
  cases hdefines with
  | made _ _ _ hr' hknown hp hextend hq hqnames =>
    obtain ⟨hnames, hnodup'⟩ := extendVariables_eq_ok hextend
    exact .keep (hknown ▸ hr'.keeps)
      (hc.extend hw ho hsame hp hnames (hnodup' hnodup) hq hqnames) rfl rfl

theorem Surveyed.defineClass_error (hs : i.Surveyed ds) (hsup : i.Defined ds sup) {name : String}
    {vars : List String} {e : RuntimeError}
    (heq : defineClass name sup vars i = .error (.failure e) i') : i'.Surveyed ds := by
  obtain ⟨ws, os, ⟨-, ts, hr⟩, hc⟩ := hs
  obtain ⟨w, hw, rfl, o, ho, hsame, -⟩ := hsup.recorded hr hc
  have hdefines := (defineClass_defines hr hw ho hsame name vars).1
  rw [heq] at hdefines
  cases hdefines with
  | repeated _ ha _ => exact .keep (ha.known ▸ (hr.adds ha).keeps) hc rfl rfl
  | refused hk => exact .keep hk hc rfl rfl

/-- Methods change nothing on record. -/
theorem Surveyed.addAll (hs : i.Surveyed ds) {d : Definition} (hd : d ∈ ds)
    (ms ms' : List Method) : Action.Ends (Surveyed · ds) ((do
      addMethods d.cls ms
      let metaclass ← ask (·.isa d.cls)
      addMethods metaclass ms'
      return d.cls : ImageAction Value) i) := by
  obtain ⟨ws, os, hk, hc⟩ := hs
  obtain ⟨metaclass, msup, hcls, hmeta, ⟨q, hq, hqobject, -⟩, -⟩ := hc.wired d hd
  obtain ⟨p, hp, hobject, -⟩ := hc.fitted d hd
  have hend := hk.addAll hcls hp hq hobject.symm hqobject.symm ms ms'
  rw [hobject] at hend
  exact hend.mono fun i' hk' => .keep hk' hc rfl rfl

theorem loadClass_of_global {d : ClassDefinition}
    (hfound : i.global? d.superclass = .ok (some sup)) :
    loadClass d i = (defineClass d.name sup d.instanceVariables >>= fun cls => do
      addMethods cls d.methods
      let metaclass ← ask (·.isa cls)
      addMethods metaclass d.classMethods
      return cls : ImageAction Value) i := by
  have hread : (Action.query (·.global? d.superclass) : ImageAction (Option Value)) i =
      .ok (some sup) i := query_of_eq_ok hfound
  rw [loadClass, bind_of_eq_ok hread]

/-- A collection that takes the classes along. -/
theorem Surveyed.collect {f : Address → Address} {s : Schedule} (hs : i.Surveyed ds)
    (hroots : ∀ v ∈ s.roots, Sane i v)
    (hkept : ∀ d ∈ ds, i.heap.Taken (i.roots ++ s.roots) d.cls) (hrel : Relocates f s i i') :
    i'.Surveyed (ds.map (Definition.relocate f)) := by
  obtain ⟨ws, os, ⟨-, ts, hr⟩, hc⟩ := hs
  have hws : ∀ w ∈ ws, i.heap.Taken (i.roots ++ s.roots) w.object := by
    intro w hw
    obtain ⟨d, hd, hobject | ⟨x, hx, hcls, hisa⟩⟩ := hc.objects w hw
    · exact hobject ▸ hkept d hd
    · exact hisa ▸ (hr.wired x hx).isa_taken hr.intact.whole (hcls ▸ hkept d hd)
  have hos : ∀ o ∈ os, i.heap.Taken (i.roots ++ s.roots) o.object := by
    intro o ho
    obtain ⟨w, hw, heq⟩ := hc.outfits o ho
    exact heq ▸ hws w hw
  obtain ⟨ts', hr'⟩ := hr.collect hrel hroots hws hos
  have hkernel : ∀ k, i'.kernelClass k = (i.kernelClass k).relocate f := fun k =>
    hrel.get (.kernelClass k)
  refine ⟨_, _, hr'.keeps, ?_⟩
  rw [hkernel, hkernel]
  have hroot : i.heap.Taken (i.roots ++ s.roots) (i.kernelClass .object) :=
    taken_of_values hr.intact (i.kernelClass_mem_values _)
  exact hc.relocate fun w hw heq =>
    hrel.moved.injective (hrel.intact hr.intact hroots).whole.sound (hws w hw) hroot heq

end Steps

section Orderly

/-- The walk from a class along the superclasses ends, and it is how inheritance is decided. -/
def Walks (i : Image) (v : Value) (line : List Value) : Prop :=
  i.heap.Ascends v line ∧ ∀ ancestor, i.inheritsFrom v ancestor = .ok (decide (ancestor ∈ line))

structure Orderly (i : Image) (d : Definition) (metaclass : Value) : Prop where
  isa : i.heap.isa d.cls = .ok metaclass
  metaclassIsa : i.heap.isa metaclass = .ok (i.kernelClass .metaclass)
  superclass : i.heap.superclass d.cls = .ok d.superclass
  rootless : d.superclass = .nil ↔ d.cls = i.kernelClass .object
  metaclassSuperclass : i.heap.superclass metaclass =
    if d.superclass = .nil then .ok (i.kernelClass .object)
    else if d.superclass = i.kernelClass .object then .ok (i.kernelClass .metaclass)
    else i.heap.isa d.superclass
  checked : i.heap.checkWiring d.cls (i.kernelClass .object) (i.kernelClass .metaclass) = .ok ()
  walk : ∃ line, i.Walks d.cls line ∧ i.kernelClass .object ∈ line
  metaclassWalk : ∃ line, i.Walks metaclass line ∧ i.kernelClass .object ∈ line ∧
    (d.cls ≠ i.kernelClass .object → i.kernelClass .metaclass ∈ line)
  names : ∃ inherited,
    (if d.superclass = .nil then inherited = []
      else i.heap.instanceVariables d.superclass = .ok inherited) ∧
    i.heap.instanceVariables d.cls = .ok (inherited ++ d.own) ∧ (inherited ++ d.own).Nodup ∧
    i.heap.instanceSize d.cls = .ok (inherited ++ d.own).length
  metaclassNames : i.heap.instanceVariables metaclass = .ok KernelClass.classVariables ∧
    i.heap.instanceSize metaclass = .ok KernelClass.classVariables.length

theorem Registers.walks {ts : List Filing} (hr : i.Registers ws os ts) {v : Value}
    {classes : List Value} (hp : Wiring.Passes ws v classes) :
    ∃ line, i.Walks v line ∧ classes ⊆ line := by
  obtain ⟨line, hline, hsub⟩ := hp
  have hascends := hline.ascends hr.wired
  exact ⟨line, ⟨hascends, fun ancestor =>
    hascends.inheritsFrom ancestor (hascends.length_lt hr.intact.whole)⟩, hsub⟩

theorem Surveyed.orderly (hs : i.Surveyed ds) {d : Definition} (hd : d ∈ ds) :
    ∃ metaclass, i.Orderly d metaclass := by
  obtain ⟨ws, os, ⟨-, ts, hr⟩, hc⟩ := hs
  obtain ⟨metaclass, msup, hcls, hmeta, ⟨q, hq, hqobject, hqnames⟩, hbelow⟩ := hc.wired d hd
  obtain ⟨p, hp, hobject, hnodup, hnames⟩ := hc.fitted d hd
  have hwired := hr.wired _ hcls
  have hwired' := hr.wired _ hmeta
  have hfitted := hr.fitted p hp
  have hnonnil : ∀ {w}, w ∈ ws → d.superclass = w.object → d.superclass ≠ .nil :=
    fun hw heq hnil => (hr.wired _ hw).not_isNil (by rw [← heq, hnil]; rfl)
  have hsuper : i.heap.metaclassSuper d.superclass (i.kernelClass .object)
      (i.kernelClass .metaclass) = .ok msup := by
    rcases hbelow with ⟨hsup, -, rfl⟩ | ⟨w, hw, hsup, rfl⟩
    · rw [hsup]
      rfl
    · rw [hsup, (hr.wired w hw).metaclassSuper]
      rfl
  have hrootless : d.superclass = .nil ↔ d.cls = i.kernelClass .object := by
    refine ⟨fun hnil => ?_, fun hroot => ?_⟩
    · rcases hbelow with ⟨-, hroot, -⟩ | ⟨w, hw, hsup, -⟩
      · exact hroot
      · exact absurd hnil (hnonnil hw hsup)
    · obtain ⟨o, ho, horoot, hnil⟩ := hc.origin
      obtain ⟨_, _, hocls, -⟩ := hc.wired o ho
      have hsame := (hr.wired _ hocls).superclass
      rw [horoot, ← hroot] at hsame
      exact (hwired.superclass.unique hsame).trans hnil
  refine ⟨metaclass, hwired.isa, hwired'.isa, hwired.superclass.slot, hrootless, ?super,
    Heap.checkWiring_of_wired hwired hwired' hfitted hobject hrootless.mp hsuper,
    ?walk, ?metaclassWalk, ?names, ?metaclassNames⟩
  case super =>
    refine (hwired'.superclass.slot : i.heap.superclass metaclass = .ok msup).trans ?_
    rcases hbelow with ⟨hsup, -, rfl⟩ | ⟨w, hw, hsup, rfl⟩
    · rw [if_pos hsup]
    · rw [if_neg (hnonnil hw hsup), hsup, Wiring.across]
      split
      · rfl
      · exact (hr.wired w hw).isa.symm
  case walk =>
    obtain ⟨line, hwalks, hsub⟩ := hr.walks (hc.rooted.up _ hcls)
    exact ⟨line, hwalks, hsub (by simp)⟩
  case metaclassWalk =>
    by_cases hroot : d.cls = i.kernelClass .object
    · obtain ⟨line, hwalks, hsub⟩ := hr.walks (hc.rooted.up _ hmeta)
      exact ⟨line, hwalks, hsub (by simp), absurd hroot⟩
    · have hpasses := hc.rooted.across _ hcls
      rw [Wiring.across, if_neg hroot] at hpasses
      obtain ⟨line, hwalks, hsub⟩ := hr.walks hpasses
      exact ⟨line, hwalks, hsub (by simp), fun _ => hsub (by simp)⟩
  case names =>
    have hread := hobject ▸ hfitted.instanceVariables
    have hsize := hobject ▸ hfitted.instanceSize_eq
    rcases hnames with ⟨hsup, hnames⟩ | ⟨o, ho, hsup, hnames⟩
    · refine ⟨[], by rw [if_pos hsup], ?_⟩
      exact hnames ▸ ⟨hread, hnodup, hsize⟩
    · refine ⟨o.names, ?_, hnames ▸ ⟨hread, hnodup, hsize⟩⟩
      have hnil : d.superclass ≠ .nil := hsup ▸ fun hnil =>
        (hr.fitted o ho).array.not_isNil (by rw [hnil]; rfl)
      rw [if_neg hnil, ← hsup]
      exact (hr.fitted o ho).instanceVariables
  case metaclassNames =>
    have hq' := hr.fitted q hq
    exact hqobject ▸ hqnames ▸ ⟨hq'.instanceVariables, hq'.instanceSize_eq⟩

end Orderly

section Rejecting

/-- A name that comes twice is found where it comes for the second time. -/
theorem extendVariables_eq_error {names vars : List String} {e : CompileError}
    (heq : extendVariables names vars = .error e) :
    ∃ name before after, e = .instanceVariableTwice name ∧ vars = before ++ name :: after ∧
      name ∈ names ++ before := by
  induction vars generalizing names with
  | nil => cases heq
  | cons name vars ih =>
    rw [extendVariables] at heq
    split at heq
    · rename_i hmem
      cases heq
      exact ⟨name, [], vars, rfl, rfl, by simpa using hmem⟩
    · obtain ⟨twice, before, after, he, hvars, hmem⟩ := ih heq
      exact ⟨twice, name :: before, after, he, congrArg (name :: ·) hvars, by simpa using hmem⟩

structure Undisturbed (i i' : Image) : Prop where
  symbols : i'.symbols = i.symbols
  known : i'.known = i.known
  global : ∀ name, i'.global? name = i.global? name
  header : ∀ v, Sane i v → i'.heap.header v = i.heap.header v
  slot : ∀ v k x, Sane i v → i.heap.slot v k = .ok x → i'.heap.slot v k = .ok x
  content : ∀ v bytes, i.heap.Spells v bytes → i'.heap.Spells v bytes

theorem Registers.undisturbed {ts : List Filing} (hr : i.Registers ws os ts)
    (ha : Adds (fun _ => False) i i') (hsymbols : i'.symbols = i.symbols) : Undisturbed i i' := by
  refine ⟨hsymbols, ha.known, fun name => ?_, fun v hv => ha.heap.header hv,
    fun v k x hv hx => (ha.heap.kept (c := ⟨v, k⟩) id ⟨hv, hx⟩).slot, fun v bytes => ha.heap.spells⟩
  rw [global?, global?, hsymbols]
  cases hlookup : i.symbols.lookup name with
  | none => rfl
  | some symbol =>
    obtain ⟨t, ht, hglobals⟩ := hr.globals
    have hsymbol : Sane i symbol := by
      refine hr.intact.held _ ?_
      simp [values, roots, SymbolTable.mem_roots_iff.mpr ⟨name, hlookup⟩]
    have hold := (hr.shelves.files t ht).dictionaryAt hr.intact.whole hsymbol
    have hnew := ((hr.adds ha).shelves.files t ht).dictionaryAt ha.intact.whole (ha.sane hsymbol)
    rw [hglobals] at hold hnew
    exact (ha.globals ▸ hnew).trans hold.symm

/-- A class whose variables come twice leaves nothing behind. -/
theorem Surveyed.rejected (hs : i.Surveyed ds) (hsup : i.Defined ds sup) {name : String}
    {vars : List String} {e : CompileError}
    (heq : defineClass name sup vars i = .error (.failure (.compile e)) i') :
    Undisturbed i i' ∧ ∃ inherited twice before after,
      i.heap.instanceVariables sup = .ok inherited ∧ e = .instanceVariableTwice twice ∧
      vars = before ++ twice :: after ∧ twice ∈ inherited ++ before := by
  obtain ⟨ws, os, ⟨-, ts, hr⟩, hc⟩ := hs
  obtain ⟨w, hw, rfl, o, ho, hsame, -⟩ := hsup.recorded hr hc
  have hdefines := (defineClass_defines hr hw ho hsame name vars).1
  rw [heq] at hdefines
  cases hdefines with
  | repeated hextend ha hsymbols =>
    exact ⟨hr.undisturbed ha hsymbols, o.names, by
      obtain ⟨twice, before, after, h⟩ := extendVariables_eq_error hextend
      exact ⟨twice, before, after, hsame ▸ (hr.fitted o ho).instanceVariables, h⟩⟩

end Rejecting

end Image

end ObjectMachine
