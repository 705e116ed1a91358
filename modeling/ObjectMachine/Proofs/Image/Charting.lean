import ObjectMachine.Proofs.Image.Origin

namespace ObjectMachine

namespace Wiring

variable {ws ws' : List Wiring} {w : Wiring} {root rootMeta v : Value}

/-- The walk from a class ends and passes some classes. -/
def Passes (ws : List Wiring) (v : Value) (classes : List Value) : Prop :=
  ∃ line, Line ws v line ∧ classes ⊆ line

namespace Passes

variable {classes classes' : List Value}

theorem mono (hp : Passes ws v classes) (hsub : ws ⊆ ws') : Passes ws' v classes :=
  hp.imp fun _ h => ⟨h.1.mono hsub, h.2⟩

theorem fewer (hp : Passes ws v classes) (hsub : classes' ⊆ classes) : Passes ws v classes' :=
  hp.imp fun _ h => ⟨h.1, List.Subset.trans hsub h.2⟩

/-- A class below another passes what that one passes, and itself. -/
theorem below (hp : Passes ws w.superclass classes) (hw : w ∈ ws) :
    Passes ws w.object (w.object :: classes) := by
  obtain ⟨line, hline, hsub⟩ := hp
  exact ⟨_, .cons hw hline, List.cons_subset_cons _ hsub⟩

theorem relocate (hp : Passes ws v classes) (f : Address → Address) :
    Passes (ws.map (Wiring.relocate f)) (v.relocate f) (classes.map (Value.relocate f)) := by
  obtain ⟨line, hline, hsub⟩ := hp
  exact ⟨_, hline.relocate f, List.map_subset _ hsub⟩

end Passes

/-- The superclass that the wiring rule asks of the metaclass of a class below this one. -/
def across (root rootMeta : Value) (w : Wiring) : Value :=
  if w.object = root then rootMeta else w.isa

theorem across_relocate {f : Address → Address}
    (hroot : w.object.relocate f = root.relocate f → w.object = root) :
    (w.across root rootMeta).relocate f =
      (w.relocate f).across (root.relocate f) (rootMeta.relocate f) := by
  have hiff : (w.relocate f).object = root.relocate f ↔ w.object = root :=
    ⟨hroot, congrArg (Value.relocate f)⟩
  rw [across, across, if_congr hiff rfl rfl]
  split <;> rfl

/-- All walks pass the root, and those from metaclasses also pass the class of metaclasses. -/
structure Rooted (root rootMeta : Value) (ws : List Wiring) : Prop where
  base : Passes ws rootMeta [root, rootMeta]
  up : ∀ w ∈ ws, Passes ws w.object [root]
  across : ∀ w ∈ ws, Passes ws (w.across root rootMeta) [root, rootMeta]

def pair (root rootMeta cls metaclass : Value) (w : Wiring) : List Wiring :=
  [⟨cls, metaclass, w.object⟩, ⟨metaclass, rootMeta, w.across root rootMeta⟩]

theorem Rooted.extend (hr : Rooted root rootMeta ws) (hw : w ∈ ws) (cls metaclass : Value) :
    Rooted root rootMeta (w.pair root rootMeta cls metaclass ++ ws) := by
  have hsub : ws ⊆ w.pair root rootMeta cls metaclass ++ ws := List.subset_append_right _ _
  have hcls := ((hr.up w hw).mono hsub).below (w := ⟨cls, metaclass, w.object⟩) (by simp [pair])
  have hmeta := ((hr.across w hw).mono hsub).below
    (w := ⟨metaclass, rootMeta, w.across root rootMeta⟩) (by simp [pair])
  have hbase := hr.base.mono hsub
  refine ⟨hbase, List.forall_mem_append.mpr ⟨?up, fun w hw => (hr.up w hw).mono hsub⟩,
    List.forall_mem_append.mpr ⟨?across, fun w hw => (hr.across w hw).mono hsub⟩⟩
  case up =>
    exact List.forall_mem_cons.mpr ⟨hcls.fewer (by simp),
      List.forall_mem_singleton.mpr (hmeta.fewer (by simp))⟩
  case across =>
    refine List.forall_mem_cons.mpr ⟨?_, List.forall_mem_singleton.mpr ?_⟩
    all_goals rw [Wiring.across]; split
    · exact hbase
    · exact hmeta.fewer (by simp)
    · exact hbase
    · exact hbase

theorem Rooted.relocate {f : Address → Address} (hr : Rooted root rootMeta ws)
    (hroot : ∀ w ∈ ws, w.object.relocate f = root.relocate f → w.object = root) :
    Rooted (root.relocate f) (rootMeta.relocate f) (ws.map (Wiring.relocate f)) where
  base := hr.base.relocate f
  up := List.forall_mem_map.mpr fun w hw => (hr.up w hw).relocate f
  across := List.forall_mem_map.mpr fun w hw =>
    across_relocate (hroot w hw) ▸ (hr.across w hw).relocate f

end Wiring

/-- A class with the class that it was defined below and the names of the variables it adds. -/
structure Definition where
  cls : Value
  superclass : Value
  own : List String

def Definition.relocate (f : Address → Address) (d : Definition) : Definition :=
  ⟨d.cls.relocate f, d.superclass.relocate f, d.own⟩

section Charting

variable {root rootMeta : Value} {ws ws' : List Wiring} {os os' : List Outfit} {d : Definition}
  {ds : List Definition}

def Definition.Wired (root rootMeta : Value) (ws : List Wiring) (os : List Outfit)
    (d : Definition) : Prop :=
  ∃ metaclass msup, ⟨d.cls, metaclass, d.superclass⟩ ∈ ws ∧ ⟨metaclass, rootMeta, msup⟩ ∈ ws ∧
    (∃ q ∈ os, q.object = metaclass ∧ q.names = KernelClass.classVariables) ∧
    (d.superclass = .nil ∧ d.cls = root ∧ msup = root ∨
      ∃ w ∈ ws, d.superclass = w.object ∧ msup = w.across root rootMeta)

def Definition.Fitted (os : List Outfit) (d : Definition) : Prop :=
  ∃ p ∈ os, p.object = d.cls ∧ p.names.Nodup ∧
    (d.superclass = .nil ∧ p.names = d.own ∨
      ∃ o ∈ os, o.object = d.superclass ∧ p.names = o.names ++ d.own)

theorem Definition.Wired.mono (hd : d.Wired root rootMeta ws os) (hws : ws ⊆ ws') (hos : os ⊆ os') :
    d.Wired root rootMeta ws' os' := by
  obtain ⟨metaclass, msup, hcls, hmeta, ⟨q, hq, hqs⟩, hbelow⟩ := hd
  exact ⟨metaclass, msup, hws hcls, hws hmeta, ⟨q, hos hq, hqs⟩,
    hbelow.imp_right fun ⟨w, hw, h⟩ => ⟨w, hws hw, h⟩⟩

theorem Definition.Fitted.mono (hd : d.Fitted os) (hos : os ⊆ os') : d.Fitted os' := by
  obtain ⟨p, hp, hobject, hnodup, hnames⟩ := hd
  exact ⟨p, hos hp, hobject, hnodup, hnames.imp_right fun ⟨o, ho, h⟩ => ⟨o, hos ho, h⟩⟩

/-- The classes on record with their wiring and what they are fitted with, and no others. -/
structure Chart (root rootMeta : Value) (ws : List Wiring) (os : List Outfit)
    (ds : List Definition) : Prop where
  rooted : Wiring.Rooted root rootMeta ws
  origin : ∃ d ∈ ds, d.cls = root ∧ d.superclass = .nil
  wired : ∀ d ∈ ds, d.Wired root rootMeta ws os
  fitted : ∀ d ∈ ds, d.Fitted os
  objects : ∀ w ∈ ws, ∃ d ∈ ds, w.object = d.cls ∨ ∃ x ∈ ws, x.object = d.cls ∧ w.object = x.isa
  outfits : ∀ o ∈ os, ∃ w ∈ ws, o.object = w.object

/-- A class is defined below one on record. -/
theorem Chart.extend (hc : Chart root rootMeta ws os ds) {w : Wiring} {o p q : Outfit} (hw : w ∈ ws)
    (ho : o ∈ os) (hsame : o.object = w.object) {cls metaclass : Value} {own : List String}
    (hp : p.object = cls) (hnames : p.names = o.names ++ own) (hnodup : p.names.Nodup)
    (hq : q.object = metaclass) (hqnames : q.names = KernelClass.classVariables) :
    Chart root rootMeta (w.pair root rootMeta cls metaclass ++ ws) (q :: p :: os)
      (⟨cls, w.object, own⟩ :: ds) := by
  have hsub : ws ⊆ w.pair root rootMeta cls metaclass ++ ws := List.subset_append_right _ _
  have hsub' : os ⊆ q :: p :: os := by simp
  refine ⟨hc.rooted.extend hw cls metaclass,
    hc.origin.imp fun _ h => ⟨List.mem_cons_of_mem _ h.1, h.2⟩,
    List.forall_mem_cons.mpr ⟨?wired, fun d hd => (hc.wired d hd).mono hsub hsub'⟩,
    List.forall_mem_cons.mpr ⟨?fitted, fun d hd => (hc.fitted d hd).mono hsub'⟩, ?objects, ?outfits⟩
  case wired =>
    exact ⟨metaclass, w.across root rootMeta, by simp [Wiring.pair], by simp [Wiring.pair],
      ⟨q, by simp, hq, hqnames⟩,
      .inr ⟨w, hsub hw, rfl, rfl⟩⟩
  case fitted => exact ⟨p, by simp, hp, hnodup, .inr ⟨o, hsub' ho, hsame, hnames⟩⟩
  case objects =>
    refine List.forall_mem_cons.mpr ⟨⟨_, List.mem_cons_self, .inl rfl⟩, List.forall_mem_cons.mpr
      ⟨⟨_, List.mem_cons_self, .inr ⟨_, List.mem_cons_self, rfl, rfl⟩⟩, fun v hv => ?_⟩⟩
    obtain ⟨d, hd, hobject⟩ := hc.objects v hv
    exact ⟨d, List.mem_cons_of_mem _ hd, hobject.imp_right fun ⟨x, hx, h⟩ => ⟨x, hsub hx, h⟩⟩
  case outfits =>
    refine List.forall_mem_cons.mpr ⟨⟨_, List.mem_cons_of_mem _ List.mem_cons_self, hq⟩,
      List.forall_mem_cons.mpr ⟨⟨_, List.mem_cons_self, hp⟩, fun o ho => ?_⟩⟩
    obtain ⟨w, hw, heq⟩ := hc.outfits o ho
    exact ⟨w, hsub hw, heq⟩

/-- The same record after objects were taken to other places. -/
theorem Chart.relocate {f : Address → Address} (hc : Chart root rootMeta ws os ds)
    (hroot : ∀ w ∈ ws, w.object.relocate f = root.relocate f → w.object = root) :
    Chart (root.relocate f) (rootMeta.relocate f) (ws.map (Wiring.relocate f))
      (os.map (Outfit.relocate f)) (ds.map (Definition.relocate f)) := by
  refine ⟨hc.rooted.relocate hroot, ?origin, List.forall_mem_map.mpr fun d hd => ?wired,
    List.forall_mem_map.mpr fun d hd => ?fitted, List.forall_mem_map.mpr fun w hw => ?objects,
    List.forall_mem_map.mpr fun o ho => ?outfits⟩
  case origin =>
    obtain ⟨d, hd, hcls, hsup⟩ := hc.origin
    exact ⟨_, List.mem_map_of_mem hd, congrArg (Value.relocate f) hcls,
      congrArg (Value.relocate f) hsup⟩
  case wired =>
    obtain ⟨metaclass, msup, hcls, hmeta, ⟨q, hq, rfl, hqnames⟩, hbelow⟩ := hc.wired d hd
    refine ⟨_, msup.relocate f, List.mem_map_of_mem hcls, List.mem_map_of_mem hmeta,
      ⟨_, List.mem_map_of_mem hq, rfl, hqnames⟩, ?_⟩
    rcases hbelow with ⟨hsup, hcls, rfl⟩ | ⟨w, hw, hsup, rfl⟩
    · exact .inl ⟨congrArg (Value.relocate f) hsup, congrArg (Value.relocate f) hcls, rfl⟩
    · exact .inr ⟨_, List.mem_map_of_mem hw, congrArg (Value.relocate f) hsup,
        Wiring.across_relocate (hroot w hw)⟩
  case fitted =>
    obtain ⟨p, hp, hobject, hnodup, hnames⟩ := hc.fitted d hd
    refine ⟨_, List.mem_map_of_mem hp, congrArg (Value.relocate f) hobject, hnodup, ?_⟩
    rcases hnames with ⟨hsup, hnames⟩ | ⟨o, ho, hsup, hnames⟩
    · exact .inl ⟨congrArg (Value.relocate f) hsup, hnames⟩
    · exact .inr ⟨_, List.mem_map_of_mem ho, congrArg (Value.relocate f) hsup, hnames⟩
  case objects =>
    obtain ⟨d, hd, hobject⟩ := hc.objects w hw
    refine ⟨_, List.mem_map_of_mem hd, ?_⟩
    rcases hobject with hobject | ⟨x, hx, hcls, hisa⟩
    · exact .inl (congrArg (Value.relocate f) hobject)
    · exact .inr ⟨_, List.mem_map_of_mem hx, congrArg (Value.relocate f) hcls,
        congrArg (Value.relocate f) hisa⟩
  case outfits =>
    obtain ⟨w, hw, heq⟩ := hc.outfits o ho
    exact ⟨_, List.mem_map_of_mem hw, congrArg (Value.relocate f) heq⟩

end Charting

namespace Image

section Kernel

variable {cls metaOf : KernelClass → Value} {os : List Outfit}

/-- All kernel classes are at most two steps below the root. -/
theorem kernel_shallow (k : KernelClass) : k = .object ∨ k.superclass? = some .object ∨
    ∃ s, k.superclass? = some s ∧ s ≠ .object ∧ s.superclass? = some .object := by
  cases k <;> simp [KernelClass.superclass?]

theorem kernel_vars {k s : KernelClass} (hs : k.superclass? = some s) :
    k.vars = s.vars ++ k.ownVariables := by
  cases k <;> cases hs <;> rfl

theorem kernel_nodup (k : KernelClass) : k.vars.Nodup := by cases k <;> decide

theorem kernel_rooted :
    Wiring.Rooted (cls .object) (cls .metaclass)
      (KernelClass.all.flatMap (KernelClass.wirings cls metaOf)) := by
  let ws := KernelClass.all.flatMap (KernelClass.wirings cls metaOf)
  have hmem : ∀ k : KernelClass, ∀ w ∈ k.wirings cls metaOf, w ∈ ws := fun k w hw =>
    List.mem_flatMap.mpr ⟨k, k.mem_all, hw⟩
  have hup : ∀ {k s : KernelClass} {classes}, k.superclass? = some s →
      Wiring.Passes ws (cls s) classes → Wiring.Passes ws (cls k) (cls k :: classes) :=
    fun {k s _} hs hp => hp.below (w := ⟨cls k, metaOf k, cls s⟩)
      (hmem k _ (by simp [KernelClass.wirings, hs]))
  have hmetaUp : ∀ {k s : KernelClass} {classes}, k.superclass? = some s →
      Wiring.Passes ws (if s = .object then cls .metaclass else metaOf s) classes →
      Wiring.Passes ws (metaOf k) (metaOf k :: classes) :=
    fun {k s _} hs hp => hp.below
      (w := ⟨metaOf k, cls .metaclass, if s = .object then cls .metaclass else metaOf s⟩)
      (hmem k _ (by simp [KernelClass.wirings, hs]))
  have hnil : Wiring.Passes ws .nil [] := ⟨[], .nil, List.Subset.refl _⟩
  have hroot : Wiring.Passes ws (cls .object) [cls .object] :=
    hnil.below (w := ⟨cls .object, metaOf .object, .nil⟩) (hmem .object _ List.mem_cons_self)
  have hbase : Wiring.Passes ws (cls .metaclass) [cls .object, cls .metaclass] :=
    (hup rfl hroot).fewer (by simp)
  have hcls : ∀ k, Wiring.Passes ws (cls k) [cls .object] := by
    intro k
    obtain rfl | hs | ⟨s, hs, -, hs'⟩ := kernel_shallow k
    · exact hroot
    · exact (hup hs hroot).fewer (by simp)
    · exact (hup hs (hup hs' hroot)).fewer (by simp)
  have hshallow : ∀ {k : KernelClass}, k.superclass? = some .object →
      Wiring.Passes ws (metaOf k) [cls .object, cls .metaclass] := fun hs =>
    (hmetaUp hs (by rwa [if_pos rfl])).fewer (List.subset_cons_self _ _)
  have hmeta : ∀ {k : KernelClass}, k ≠ .object →
      Wiring.Passes ws (metaOf k) [cls .object, cls .metaclass] := by
    intro k hk
    obtain rfl | hs | ⟨s, hs, hne, hs'⟩ := kernel_shallow k
    · exact absurd rfl hk
    · exact hshallow hs
    · exact (hmetaUp hs (by rw [if_neg hne]; exact hshallow hs')).fewer (List.subset_cons_self _ _)
  have hrootMeta : Wiring.Passes ws (metaOf .object) [cls .object] :=
    (hroot.below (w := ⟨metaOf .object, cls .metaclass, cls .object⟩)
      (hmem .object _ (List.mem_cons_of_mem _ List.mem_cons_self))).fewer (by simp)
  refine ⟨hbase, fun w hw => ?_, fun w hw => ?_⟩
  all_goals obtain ⟨k, -, hw⟩ := List.mem_flatMap.mp hw
  · rcases KernelClass.mem_wirings hw with heq | heq <;> rw [heq]
    · exact hcls k
    · by_cases hk : k = .object
      · exact hk ▸ hrootMeta
      · exact (hmeta hk).fewer (by simp)
  · rw [Wiring.across]
    split
    · exact hbase
    · rename_i hne
      rcases List.mem_cons.mp hw with rfl | hw
      · exact hmeta fun hk => hne (congrArg cls hk)
      · rw [List.mem_singleton.mp hw]
        exact hbase

theorem kernel_chart (hd : KernelClass.Distinct cls metaOf)
    (hos : Furnished cls metaOf KernelClass.all os) :
    Chart (cls .object) (cls .metaclass) (KernelClass.all.flatMap (KernelClass.wirings cls metaOf))
      os (KernelClass.all.map fun k =>
        ⟨cls k, (k.superclass?.map cls).getD .nil, k.ownVariables⟩) := by
  have hmem : ∀ k : KernelClass, ∀ w ∈ k.wirings cls metaOf,
      w ∈ KernelClass.all.flatMap (KernelClass.wirings cls metaOf) := fun k w hw =>
    List.mem_flatMap.mpr ⟨k, k.mem_all, hw⟩
  refine ⟨kernel_rooted, ⟨_, List.mem_map_of_mem (KernelClass.mem_all .object), rfl, rfl⟩,
    List.forall_mem_map.mpr fun k _ => ?wired,
    List.forall_mem_map.mpr fun k _ => ?fitted, fun w hw => ?objects, fun o ho => ?outfits⟩
  case wired =>
    obtain ⟨q, hq⟩ := hos.metaclasses k k.mem_all
    refine ⟨metaOf k, _, hmem k _ List.mem_cons_self,
      hmem k _ (List.mem_cons_of_mem _ List.mem_cons_self), ⟨q, hq⟩, ?_⟩
    cases hs : k.superclass? with
    | none =>
      obtain rfl : k = .object := by
        rcases kernel_shallow k with h | h | ⟨s, h, -⟩
        · exact h
        · exact nomatch hs.symm.trans h
        · exact nomatch hs.symm.trans h
      exact .inl ⟨rfl, rfl, rfl⟩
    | some s =>
      refine .inr ⟨_, hmem s _ List.mem_cons_self, rfl, ?_⟩
      simp only [Wiring.across, hd.classes.eq_iff, Option.elim_some]
  case fitted =>
    obtain ⟨p, hp, hobject, hnames⟩ := hos.classes k k.mem_all
    refine ⟨p, hp, hobject, hnames ▸ kernel_nodup k, ?_⟩
    cases hs : k.superclass? with
    | none => exact .inl ⟨rfl, by rw [hnames, KernelClass.vars, hs]; rfl⟩
    | some s =>
      obtain ⟨o, ho, hsame, honames⟩ := hos.classes s s.mem_all
      exact .inr ⟨o, ho, hsame, by rw [hnames, honames, kernel_vars hs]⟩
  case objects =>
    obtain ⟨k, -, hw⟩ := List.mem_flatMap.mp hw
    refine ⟨_, List.mem_map_of_mem k.mem_all, ?_⟩
    exact (KernelClass.mem_wirings hw).imp_right fun h => ⟨_, hmem k _ List.mem_cons_self, rfl, h⟩
  case outfits =>
    obtain ⟨k, -, hobject | hobject⟩ := hos.only o ho
    · exact ⟨_, hmem k _ List.mem_cons_self, hobject⟩
    · exact ⟨_, hmem k _ (List.mem_cons_of_mem _ List.mem_cons_self), hobject⟩

end Kernel

end Image

end ObjectMachine
