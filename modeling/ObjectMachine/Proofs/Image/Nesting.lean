import ObjectMachine.Image.Define
import ObjectMachine.Proofs.Image.Reading

namespace ObjectMachine

namespace Heap

variable {base h : Heap} {d key v : Value}

/-- What old objects hold is old if they were not written to. -/
theorem Extends.yields_slot (he : Extends (fun _ => False) base h) (whole : base.Whole)
    (hv : base.arenas.Sane v) (k : Nat) : Yields base (h.slot v k) := by
  intro x hx y hy
  obtain rfl := List.mem_singleton.mp hy
  have hold : h.Holds ⟨v, k⟩ y := ⟨he.grows v hv, hx⟩
  exact (he.holds_of_kept whole hold hv id).value_sane whole

/-- A put into an old dictionary writes to old objects. -/
theorem Extends.old_of_enters (he : Extends (fun _ => False) base h) (whole : base.Whole)
    (hd : base.arenas.Sane d) {c : Cell} (hc : h.Enters d key c) : base.arenas.Sane c.object := by
  rw [Enters] at hc
  cases hlink : h.dictionaryLink d key with
  | error f =>
    rw [hlink] at hc
    exact hc.elim
  | ok found =>
    rw [hlink] at hc
    cases found with
    | none =>
      obtain rfl : c.object = d := hc
      exact hd
    | some link =>
      obtain rfl : c = ⟨link, Slot.Link.value⟩ := hc
      exact yields_dictionaryLink (he.yields_slot whole) hd key _ hlink link (by simp)

end Heap

namespace Image

variable {i₀ i i' : Image} {new : Value → Prop} {cls code method : Value} {u : Unit}

/-- Entering a new method in an old class writes to old objects. -/
theorem install_enlarges {selector : String} (hi₀ : Intact i₀)
    (he : Enlarges (fun _ => False) i₀ i) (hcls : Sane i₀ cls) (hmethod : Sane i method)
    (heq : install cls selector method i = .ok u i') :
    Enlarges (fun c => Sane i₀ c.object) i i' := by
  obtain ⟨symbol, i₁, hsymbol, heq⟩ := bind_eq_ok.mp heq
  obtain ⟨he₁, hsane, -⟩ := intern_enlarges he.intact he.spelled hsymbol
  obtain ⟨_, _, hget, heq⟩ := bind_eq_ok.mp heq
  cases hget
  obtain ⟨heap, hinstall, rfl⟩ := onHeap_eq_ok.mp heq
  obtain ⟨methods, hmethods, hentered⟩ := query_bind_eq_ok.mp hinstall
  obtain ⟨link, _, hput, hdone⟩ := bind_eq_ok.mp hentered
  obtain ⟨-, rfl⟩ := pure_eq_ok.mp hdone
  have hold : Heap.Extends (fun _ => False) i₀.heap i₁.heap := (he.trans he₁).heap.toExtends
  have hold_methods : Sane i₀ methods :=
    hold.yields_slot hi₀.whole hcls _ _ hmethods methods (by simp)
  have hi₁ : Intact i₁.heap := ⟨he₁.intact.whole, fun _ hv => nomatch hv⟩
  have hgrown := (Heap.dictionaryPut_leaves (W := fun c _ => i₁.heap.Enters methods symbol c)
    (F := fun _ => True) hi₁.grown (kernelClass_sane he₁.intact .link) (hold.grows _ hold_methods)
    hsane (he₁.sane hmethod) trivial fun _ _ _ hc => hc).ok hput
  refine (he₁.mono fun _ _ => False.elim).trans (Adds.enlarges ?_ rfl)
  exact {
    intact := ⟨hgrown.intact.whole, fun v hv => hgrown.grows v (he₁.intact.held v hv)⟩
    spelled := fun hname => hgrown.preserves.spells (he₁.spelled hname)
    heap := {
      whole := hgrown.intact.whole
      grows := hgrown.grows
      kept := fun hc hx => hgrown.evolves.holds hx fun _ hentered =>
        absurd (hold.old_of_enters hi₀.whole hold_methods hentered) hc
      header := hgrown.preserves.header
      spells := hgrown.preserves.spells }
    known := rfl
    symbols := id }

/-- A method that was compiled and entered in a class reads as its template. -/
theorem addMethod_reads {m : Method} (hi : Intact i) (hs : i.Spelled) (hcls : Sane i cls)
    (heq : addMethod cls m i = .ok method i') :
    ∃ vars t, i.heap.instanceVariables cls = .ok vars ∧ m.compile vars = .ok t ∧
      i'.ReadsCode (¬Sane i ·) cls t method := by
  obtain ⟨vars, hvars, heq⟩ := query_bind_eq_ok.mp heq
  obtain ⟨t, i₁, hcompiled, heq⟩ := bind_eq_ok.mp heq
  obtain ⟨method', i₂, hload, heq⟩ := bind_eq_ok.mp heq
  obtain ⟨_, i₃, hinstall, hdone⟩ := bind_eq_ok.mp heq
  obtain ⟨rfl, rfl⟩ := pure_eq_ok.mp hdone
  obtain ⟨ht, rfl⟩ : m.compile vars = .ok t ∧ i₁ = i := by
    cases hresult : m.compile vars with
    | error e =>
      rw [hresult] at hcompiled
      cases hcompiled
    | ok t' =>
      rw [hresult] at hcompiled
      obtain ⟨rfl, rfl⟩ := pure_eq_ok.mp hcompiled
      exact ⟨rfl, rfl⟩
  obtain ⟨he, hmade, hreads⟩ := load_reads hi hs hcls hload
  have he' := install_enlarges hi he hcls hmade.sane hinstall
  exact ⟨vars, t, hvars, ht, hreads.later he' (fun _ => id) (fun _ hold hnew => hnew hold)
    fun _ hold => hmade.new hold⟩

/-- The code objects of a template: that of the template itself, and those of the blocks that are
in such code, at any depth. -/
inductive Nests (i : Image) (t : CodeTemplate) (code : Value) : CodeTemplate → Value → Prop where
  | self : Nests i t code t code
  | block {t' t'' : CodeTemplate} {code' table block : Value} {k : Nat} : Nests i t code t' code' →
    t'.literals[k]? = some (.block t'') → i.heap.Holds ⟨code', Slot.Code.literals⟩ table →
    i.heap.Holds ⟨table, k⟩ block → Nests i t code t'' block

theorem ReadsFrom.getElem? {array : Value} {cs : List Constant} {c : Constant} {first k : Nat}
    (hr : i.ReadsFrom new cls array first cs) (hc : cs[k]? = some c) :
    ∃ v, i.heap.Holds ⟨array, first + k⟩ v ∧ i.Reads new cls c v := by
  induction cs generalizing first k with
  | nil => cases hc
  | cons c' cs ih =>
    rw [ReadsFrom] at hr
    obtain ⟨hfirst, hrest⟩ := hr
    cases k with
    | zero => exact Option.some.inj hc ▸ hfirst
    | succ k =>
      rw [← Nat.add_assoc, Nat.add_right_comm]
      exact ih hrest hc

theorem ReadsCode.nests {t t' : CodeTemplate} {code' : Value} (hr : i.ReadsCode new cls t code)
    (hn : i.Nests t code t' code') : i.ReadsCode new cls t' code' := by
  induction hn with
  | self => exact hr
  | @block t' t'' code' table block k _ hk htable hblock ih =>
    obtain ⟨_, _, literals, _, _, _, _⟩ := t'
    rw [ReadsCode] at ih
    obtain ⟨-, ⟨table', htable', -, -, hfrom⟩, -⟩ := ih
    obtain rfl := htable.unique htable'
    obtain ⟨v, hv, hreads⟩ := hfrom.getElem? hk
    rw [Nat.zero_add] at hv
    obtain rfl := hblock.unique hv
    rw [Reads] at hreads
    exact hreads.2.1

theorem ReadsCode.methodClass {t : CodeTemplate} (hr : i.ReadsCode new cls t code) :
    i.heap.Holds ⟨code, Slot.Code.methodClass⟩ cls := by
  obtain ⟨_, _, _, _, _, _, _⟩ := t
  rw [ReadsCode] at hr
  exact hr.2.2.2.2

end Image

end ObjectMachine
