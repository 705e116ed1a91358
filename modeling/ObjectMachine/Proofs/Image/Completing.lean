import ObjectMachine.Proofs.Image.Naming
import ObjectMachine.Proofs.Image.Provision

namespace ObjectMachine

namespace Heap

variable {h h' h'' : Heap} {isa v x : Value} {written : Cell → Prop} {n : Nat} {parts : List Part}

section Cells

/-- The first cells of an object are there, whatever they hold. -/
def Spans (h : Heap) (v : Value) (count : Nat) : Prop := ∀ k < count, ∃ x, h.Holds ⟨v, k⟩ x

/-- A cell that is there may be written to, but it stays. -/
theorem Extends.cell (he : Extends written h h') {c : Cell} (hc : h.Holds c x) :
    ∃ y, h'.Holds c y := by
  obtain ⟨loc, header, hloc, hh, hkind, hi, -⟩ := slot_eq_ok hc.slot
  have hsane := he.grows _ hc.sane
  have hsame := he.header hc.sane
  simp only [Heap.header, locate, hloc, bind, Except.bind] at hsame
  obtain ⟨y, hy⟩ := he.whole.sound.exists_slot hloc (hsane.allocated hloc) (hsame.trans hh) hkind hi
  exact ⟨y, hsane, hy⟩

theorem Extends.spans (he : Extends written h h') (hv : h.Spans v n) : h'.Spans v n :=
  fun k hk => (hv k hk).elim fun _ hx => he.cell hx

theorem Holds.exists_isa {c : Cell} (hc : h.Holds c x) : ∃ cls, h.isa c.object = .ok cls := by
  obtain ⟨loc, header, hloc, hh, -⟩ := slot_eq_ok hc.slot
  refine ⟨header.isa, except_bind_eq_ok.mpr ⟨header, ?_, rfl⟩⟩
  simpa only [Heap.header, locate, hloc, bind, Except.bind] using hh

end Cells

section Room

/-- What takes no words takes no more than any parts. -/
theorem Takes.of_nil (ht : Takes [] h h') : Takes parts h h' :=
  ⟨ht.capacity, fun id => (ht.used id).trans (Nat.add_le_add_left (Nat.zero_le _) _)⟩

theorem Takes.then (ht : Takes parts h h') (ht' : Takes [] h' h'') : Takes parts h h'' := by
  simpa using ht.trans ht'

theorem Holds.recast {ε : Type} (whole : h.Whole) {k : Nat} {y : Value} (hc : h.Holds ⟨v, k⟩ y)
    (hx : h.arenas.Sane x) :
    ∃ h', setClass v x (ε := ε) h = .ok () h' ∧ Recasts h h' v x ∧ Takes [] h h' := by
  obtain ⟨loc, header, hloc, hh, -⟩ := slot_eq_ok hc.slot
  have hin : loc.word < h.used loc.arena :=
    Nat.lt_of_succ_lt (Arenas.lt_used_of_header hh)
  have hset : setClass v x (ε := ε) h =
      .ok () { h with arenas := h.arenas.setWord loc.arena loc.word x.raw } := by
    simp only [setClass, locate, hloc, if_pos hin]
  exact ⟨_, hset, whole.recasts hc hx hset, rfl, fun id => (Arenas.used_setWord _ _ id _ _).le⟩

/-- A class can be wired below nothing or below another class, and no cell is lost. -/
theorem Whole.wire_affords {ε : Type} {cls metaclass sup root rootMeta a b : Value}
    (whole : h.Whole) (hcls : h.Holds ⟨cls, Slot.Class.superclass⟩ a)
    (hmeta : h.Holds ⟨metaclass, Slot.Class.superclass⟩ b)
    (hsup : sup = .nil ∨ ∃ y, h.Holds ⟨sup, Slot.Class.superclass⟩ y)
    (hroot : h.arenas.Sane root) (hrootMeta : h.arenas.Sane rootMeta) :
    ∃ h', wire cls metaclass sup root rootMeta (ε := ε) h = .ok () h' ∧ Takes [] h h' ∧
      ∀ v n, h.Spans v n → h'.Spans v n := by
  obtain ⟨h₁, hset₁, hr₁, ht₁⟩ := hcls.recast whole hmeta.sane (ε := ε)
  obtain ⟨h₂, hset₂, hr₂, ht₂⟩ :=
    (hr₁.cells hmeta).recast hr₁.whole (hr₁.grows _ hrootMeta) (ε := ε)
  have hgrows₂ := hr₁.grows.trans hr₂.grows
  have hsane : h.arenas.Sane sup := by
    rcases hsup with rfl | ⟨y, hy⟩
    · exact Arenas.sane_nil _
    · exact hy.sane
  obtain ⟨h₃, hset₃, hr₃⟩ :=
    (hr₂.cells (hr₁.cells hcls)).write hr₂.whole (hgrows₂ _ hsane) (ε := ε)
  have hgrows₃ := hgrows₂.trans hr₃.grows
  have he₃ : Extends (fun _ => True) h₂ h₃ := hr₃.extends trivial
  obtain ⟨m, hm⟩ : ∃ m, h₃.metaclassSuper sup root rootMeta = .ok m := by
    rw [metaclassSuper]
    rcases hsup with rfl | ⟨y, hy⟩
    · exact ⟨root, rfl⟩
    · obtain ⟨z, hz⟩ := he₃.cell (hr₂.cells (hr₁.cells hy))
      rw [if_neg hz.not_isNil]
      split
      · exact ⟨rootMeta, rfl⟩
      · exact hz.exists_isa
  have hm_sane : h₃.arenas.Sane m :=
    hr₃.whole.yields_metaclassSuper (hgrows₃ _ hsane) (hgrows₃ _ hroot) (hgrows₃ _ hrootMeta) _ hm
      m (by simp)
  obtain ⟨z, hz⟩ := he₃.cell (hr₂.cells (hr₁.cells hmeta))
  obtain ⟨h₄, hset₄, hr₄⟩ := hz.write hr₃.whole hm_sane (ε := ε)
  have he₄ : Extends (fun _ => True) h₃ h₄ := hr₄.extends trivial
  refine ⟨h₄, ?_, ((ht₁.then ht₂).then (setSlot_takes hset₃)).then (setSlot_takes hset₄),
    fun v n hv => he₄.spans (he₃.spans fun k hk => (hv k hk).imp fun _ hx =>
      hr₂.cells (hr₁.cells hx))⟩
  refine bind_eq_ok.mpr ⟨(), h₁, hset₁, bind_eq_ok.mpr ⟨(), h₂, hset₂, ?_⟩⟩
  exact bind_eq_ok.mpr ⟨(), h₃, hset₃, query_bind_eq_ok.mpr ⟨m, hm, hset₄⟩⟩

theorem Whole.newDictionary_affords (whole : h.Whole) (hisa : h.arenas.Sane isa)
    (hroom : h.Affords [.slots (Slot.Dictionary.buckets + n)]) : ∃ d h',
    newDictionary isa n h = .ok d h' ∧ Takes [.slots (Slot.Dictionary.buckets + n)] h h' := by
  have hcount := whole.count_lt hroom
  obtain ⟨d, h₁, hnew, htakes⟩ := whole.allocatePointers_affords isa hroom
  obtain ⟨hext, -, hshows⟩ := whole.allocatePointers_ok hisa hnew
  rw [Nat.mod_eq_of_lt hcount] at hshows
  have hslot : (List.replicate (Slot.Dictionary.buckets + n) Value.nil)[Slot.Dictionary.tally]? =
      some .nil := by
    rw [List.getElem?_replicate, if_pos (Nat.lt_of_lt_of_le Nat.zero_lt_one (Nat.le_add_right _ _))]
  have htally : h₁.Holds ⟨d, Slot.Dictionary.tally⟩ .nil := hshows.holds hext.whole hslot
  obtain ⟨h₂, hset, -⟩ :=
    htally.write hext.whole (x := .ofNat 0) (.inr (.inl (by simp))) (ε := HeapError)
  exact ⟨d, h₂, bind_eq_ok.mpr ⟨d, h₁, hnew, bind_eq_ok.mpr ⟨(), h₂, hset, rfl⟩⟩,
    htakes.then (setSlot_takes hset)⟩

theorem Puts.exists_eq_ok {t : Filing} {k : Value} {r : EStateM.Result (Stop HeapError) Heap Value}
    (hputs : h.Puts t k x r) (hfails : ∀ cause h', r ≠ .error (.failure cause) h') :
    ∃ link h', r = .ok link h' := by
  cases hputs with
  | done => exact ⟨_, _, rfl⟩
  | refused => exact absurd rfl (hfails _ _)

/-- Where there is room for a link, whatever is put into a dictionary gets there. -/
theorem Files.put_affords {t : Filing} {linkClass k : Value} (hf : h.Files t) (whole : h.Whole)
    (hclass : h.arenas.Sane linkClass) (hk : h.arenas.Sane k) (hx : h.arenas.Sane x)
    (hroom : h.Affords [.slots Slot.Link.count]) : ∃ link h',
    dictionaryPut linkClass t.ledger.object k x h = .ok link h' ∧
      Takes [.slots Slot.Link.count] h h' := by
  have hputs := hf.put whole hclass hk hx
  rw [dictionaryPut] at hputs ⊢
  cases hlink : h.dictionaryLink t.ledger.object k with
  | error f =>
    have hquery : (Action.query (·.dictionaryLink t.ledger.object k) :
        Action HeapError Heap (Option Value)) h = .error (.fault f) h := by
      rw [Action.query, hlink]
    rw [bind_of_eq_error hquery] at hputs
    cases hputs
  | ok found =>
    have hquery : (Action.query (·.dictionaryLink t.ledger.object k) :
        Action HeapError Heap (Option Value)) h = .ok found h := query_of_eq_ok hlink
    rw [bind_of_eq_ok hquery] at hputs ⊢
    cases found with
    | some old =>
      have hunfailing : (do setSlot old Slot.Link.value x; return old :
          Action HeapError Heap Value).Unfailing :=
        .bind (setSlot_unfailing _ _ _) fun _ => .pure _
      obtain ⟨link, h', heq⟩ := hputs.exists_eq_ok fun cause h' => hunfailing h cause h'
      obtain ⟨_, h₁, hset, hdone⟩ := bind_eq_ok.mp heq
      obtain ⟨-, rfl⟩ := pure_eq_ok.mp hdone
      exact ⟨link, _, heq, (setSlot_takes hset).of_nil⟩
    | none =>
      obtain ⟨link, h₁, hnew, htakes⟩ := whole.allocatePointers_affords linkClass hroom
      dsimp only at hputs ⊢
      rw [bind_of_eq_ok hnew] at hputs ⊢
      obtain ⟨link', h', heq⟩ := hputs.exists_eq_ok fun cause h' => by
        refine Action.Unfailing.bind (.query _) (fun _ => .bind (setSlot_unfailing _ _ _) fun _ =>
          .bind (setSlot_unfailing _ _ _) fun _ => .bind (.query _) fun _ =>
          .bind (setSlot_unfailing _ _ _) fun _ => .bind (setSlot_unfailing _ _ _) fun _ =>
          .bind (.query _) fun _ => .bind (setSlot_unfailing _ _ _) fun _ => .pure _) h₁ cause h'
      refine ⟨link', h', heq, ?_⟩
      obtain ⟨bucket, -, heq⟩ := query_bind_eq_ok.mp heq
      obtain ⟨_, h₂, hset₂, heq⟩ := bind_eq_ok.mp heq
      obtain ⟨_, h₃, hset₃, heq⟩ := bind_eq_ok.mp heq
      obtain ⟨head, -, heq⟩ := query_bind_eq_ok.mp heq
      obtain ⟨_, h₄, hset₄, heq⟩ := bind_eq_ok.mp heq
      obtain ⟨_, h₅, hset₅, heq⟩ := bind_eq_ok.mp heq
      obtain ⟨tally, -, heq⟩ := query_bind_eq_ok.mp heq
      obtain ⟨_, h₆, hset₆, hdone⟩ := bind_eq_ok.mp heq
      obtain ⟨-, rfl⟩ := pure_eq_ok.mp hdone
      exact ((((htakes.then (setSlot_takes hset₂)).then (setSlot_takes hset₃)).then
        (setSlot_takes hset₄)).then (setSlot_takes hset₅)).then (setSlot_takes hset₆)

end Room

end Heap

namespace Part

abbrev symbol (name : String) : Part := .bytes (Text.toBytes name).size

/-- What is made when something is entered in a dictionary under a name. -/
def entry (name : String) : List Part := [symbol name, .slots Slot.Link.count]

/-- What a class gets besides its own object: a name, a dictionary and the names of variables. -/
def outfit (name : String) (vars : List String) : List Part :=
  symbol name :: .slots (Slot.Dictionary.buckets + Heap.methodBuckets) ::
    (vars.map symbol ++ [.slots vars.length])

def outfits (name : String) (vars : List String) : List Part :=
  outfit name vars ++ outfit (name ++ " class") KernelClass.classVariables

/-- What is made of methods that compile for a class with these variables. -/
def methods (vars : List String) (ms : List Method) : List Part :=
  ms.flatMap fun m => match m.compile vars with
    | .ok t => t.methodParts ++ entry t.selector
    | .error _ => []

/-- What is made of a class with these variables, inherited ones included. -/
def definition (name : String) (vars : List String) : List Part :=
  .slots Slot.Class.count :: .slots Slot.Class.count :: (outfits name vars ++ entry name)

/-- A definition asks for no integers. -/
theorem definition_fits (name : String) (vars : List String) :
    (definition name vars).findSome? misfit? = none :=
  findSome?_misfit_eq_none.mpr fun n hn => by
    simp [definition, outfits, outfit, entry] at hn

end Part

namespace Image

variable {i i' : Image} {ws : List Wiring} {os : List Outfit} {ts : List Filing} {w : Wiring}
  {o : Outfit} {t : Filing} {parts : List Part} {cls metaclass v x : Value} {α β : Type}

namespace Completes

/-- Where there is room, all that fits is made. -/
theorem delivers {r : EStateM.Result (Stop RuntimeError) Image α} (hc : Completes parts i r)
    (hfits : parts.findSome? Part.misfit? = none) (hroom : i.heap.Affords parts) :
    ∃ a i', r = .ok a i' ∧ i.heap.Takes parts i'.heap := by
  have hend := hc hroom
  rwa [hfits] at hend

theorem pure (a : α) (i : Image) : Completes [] i ((Pure.pure a : ImageAction α) i) :=
  fun _ => ⟨a, i, rfl, .refl _⟩

/-- Some parts are made already when the others come. -/
theorem resume (parts : List Part) {r : EStateM.Result (Stop RuntimeError) Image α}
    (hparts : parts.findSome? Part.misfit? = none) (hfirst : i.heap.Affords parts →
      ∃ i', i.heap.Takes parts i'.heap ∧ Completes parts' i' r) :
    Completes (parts ++ parts') i r := by
  intro hroom
  obtain ⟨i', htakes, hrest⟩ := hfirst hroom.of_append
  replace hrest := hrest (htakes.affords hroom)
  rw [List.findSome?_append, hparts, Option.none_or]
  split at hrest
  · obtain ⟨a, i'', heq, htakes'⟩ := hrest
    exact ⟨a, i'', heq, htakes.trans htakes'⟩
  · exact hrest

/-- What takes up no words may come first. -/
theorem after {act : ImageAction α} {next : α → ImageAction β} {a : α} (heq : act i = .ok a i')
    (htakes : i.heap.Takes [] i'.heap) (hnext : Completes parts i' (next a i')) :
    Completes parts i ((act >>= next) i) :=
  .resume [] rfl fun _ => ⟨i', htakes, bind_of_eq_ok heq ▸ hnext⟩

/-- What takes up no words may come last. -/
theorem before {act : ImageAction α} {next : α → ImageAction β} (hact : Completes parts i (act i))
    (hnext : ∀ a i', act i = .ok a i' → Completes [] i' (next a i')) :
    Completes parts i ((act >>= next) i) :=
  List.append_nil parts ▸ hact.bind fun a i' heq _ => hnext a i' heq

theorem query {f : Image → Except Fault α} {next : α → ImageAction β} {a : α} (hread : f i = .ok a)
    (hnext : Completes parts i (next a i)) : Completes parts i ((Action.query f >>= next) i) :=
  .after (query_of_eq_ok hread) (.refl _) hnext

theorem onHeap {act : Action HeapError Heap α} (hparts : parts.findSome? Part.misfit? = none)
    (hact : i.heap.Affords parts → ∃ a h', act i.heap = .ok a h' ∧ i.heap.Takes parts h') :
    Completes parts i (Image.onHeap act i) := by
  intro hroom
  rw [hparts]
  obtain ⟨a, heap, heq, htakes⟩ := hact hroom
  exact ⟨a, _, onHeap_eq_ok.mpr ⟨heap, heq, rfl⟩, htakes⟩

theorem setSlot {n k : Nat} {next : Unit → ImageAction α} (hi : Intact i) (hs : i.Spelled)
    (hv : i.heap.Spans v n) (hk : k < n) (hx : Sane i x)
    (hnext : ∀ i', Adds (fun _ => True) i i' → Completes [] i' (next () i')) :
    Completes [] i ((Image.onHeap (Heap.setSlot v k x) >>= next) i) := by
  obtain ⟨y, hy⟩ := hv k hk
  refine (setSlot_completes hi hy hx).bind fun _ i' hset _ => hnext i' ?_
  exact (setSlot_enlarges hi hs hy.sane hx hset).1.toAdds.mono fun _ _ _ => trivial

end Completes

theorem newDictionary_completes (hi : Intact i) {isa : Value} (hisa : Sane i isa) (n : Nat) :
    Completes [.slots (Slot.Dictionary.buckets + n)] i (onHeap (Heap.newDictionary isa n) i) :=
  have hwhole : i.heap.Whole := hi.whole
  .onHeap rfl fun hroom => hwhole.newDictionary_affords hisa hroom

theorem internAll_completes (hi : Intact i) (hs : i.Spelled) (names : List String) :
    Completes (names.map Part.symbol) i (internAll names i) := by
  induction names generalizing i with
  | nil => exact .pure _ _
  | cons name names ih =>
    refine (intern_completes hi name).bind fun symbol i₁ hintern _ => ?_
    obtain ⟨ha, -⟩ := intern_eq_ok hi hs hintern
    exact .map _ (ih ha.intact ha.spelled)

section Furnishing

theorem furnish_completes (hi : Intact i) (hs : i.Spelled)
    (hcls : i.heap.Spans cls Slot.Class.count) (name : String) (vars : List String) (size : Nat) :
    Completes (Part.outfit name vars) i (furnish cls name vars size i) := by
  refine (intern_completes hi name).bind fun symbol i₁ hintern _ => .get ?_
  obtain ⟨ha₁, hsymbol, -⟩ := intern_eq_ok hi hs hintern
  have hclass : Sane i₁ (i₁.kernelClass .dictionary) := kernelClass_sane ha₁.intact .dictionary
  refine (newDictionary_completes ha₁.intact hclass _).bind fun methods i₂ hmade _ => ?_
  obtain ⟨ha₂, hmethods⟩ := Adds.of_ok (fun _ => False) [i₁.kernelClass .dictionary]
    (newDictionary_adds (by simp) _) ha₁.intact ha₁.spelled (by simpa using hclass) hmade
  refine (internAll_completes ha₂.intact ha₂.spelled vars).bind fun symbols i₃ hinterned _ => ?_
  obtain ⟨ha₃, hsymbols, hnames⟩ := internAll_eq_ok ha₂.intact ha₂.spelled hinterned
  rw [hnames.length_eq]
  refine (newArray_completes ha₃.intact ha₃.spelled hsymbols).before fun array i₄ harray => ?_
  obtain ⟨ha₄, harray⟩ := Adds.of_ok (fun _ => False) symbols
    (newArray_adds fun _ => trusted_of_mem) ha₃.intact ha₃.spelled hsymbols harray
  have hsymbol₄ : Sane i₄ symbol := ha₄.sane (ha₃.sane (ha₂.sane hsymbol))
  have hmethods₄ : Sane i₄ methods := ha₄.sane (ha₃.sane (hmethods _ (by simp)))
  have hcls₄ := (ha₁.trans (ha₂.trans (ha₃.trans ha₄))).heap.spans hcls
  refine .setSlot ha₄.intact ha₄.spelled hcls₄ (by decide) hsymbol₄ fun i₅ ha₅ => ?_
  refine .setSlot ha₅.intact ha₅.spelled (ha₅.heap.spans hcls₄) (by decide) (ha₅.sane hmethods₄)
    fun i₆ ha₆ => ?_
  refine .setSlot ha₆.intact ha₆.spelled (ha₆.heap.spans (ha₅.heap.spans hcls₄)) (by decide)
    (ha₆.sane (ha₅.sane (harray _ (by simp)))) fun i₇ ha₇ => ?_
  obtain ⟨y, hy⟩ := ha₇.heap.spans (ha₆.heap.spans (ha₅.heap.spans hcls₄)) Slot.Class.instanceSize
    (by decide)
  exact setSlot_completes ha₇.intact hy (.inr (.inl (by simp)))

theorem furnishPair_completes (hi : Intact i) (hs : i.Spelled)
    (hcls : i.heap.Spans cls Slot.Class.count) (hmeta : i.heap.Spans metaclass Slot.Class.count)
    (hisa : i.heap.isa cls = .ok metaclass) (name : String) (vars : List String) :
    Completes (Part.outfits name vars) i (furnishPair cls name vars i) := by
  obtain ⟨_, hx⟩ := hcls 0 (by decide)
  have hsane : Sane i cls := hx.sane
  refine .query hisa ((furnish_completes hi hs hcls name vars _).bind fun _ i₁ hfurnish _ => ?_)
  obtain ⟨ha, -⟩ := Adds.of_ok (fun _ => True) [cls]
    (furnish_adds (by simp) _ _ _ fun _ _ _ => trivial) hi hs (by simpa using hsane) hfurnish
  exact furnish_completes ha.intact ha.spelled (ha.heap.spans hmeta) _ _ _

end Furnishing

section Entering

variable (hr : i.Registers ws os ts)
include hr

theorem Registers.put_completes (ht : t ∈ ts) {linkClass k : Value} (hclass : Sane i linkClass)
    (hk : Sane i k) (hx : Sane i x) :
    Completes [.slots Slot.Link.count] i
      (onHeap (Heap.dictionaryPut linkClass t.ledger.object k x) i) :=
  .onHeap rfl fun hroom =>
    (hr.shelves.files t ht).put_affords hr.intact.whole hclass hk hx hroom

theorem setGlobal_completes (name : String) (hv : Sane i v) :
    Completes (Part.entry name) i (setGlobal name v i) := by
  refine (intern_completes hr.intact name).bind fun symbol i₁ hintern _ => .get ?_
  obtain ⟨ha, hsymbol, -⟩ := intern_eq_ok hr.intact hr.spelled hintern
  have hr₁ := hr.adds ha
  obtain ⟨t, ht, hglobals⟩ := hr₁.globals
  rw [← hglobals]
  exact .map _ (hr₁.put_completes ht (kernelClass_sane ha.intact .link) hsymbol (ha.sane hv))

theorem install_completes (ho : o ∈ os) (selector : String) {method : Value}
    (hmethod : Sane i method) :
    Completes (Part.entry selector) i (install o.object selector method i) := by
  refine (intern_completes hr.intact selector).bind fun symbol i₁ hintern _ => .get ?_
  obtain ⟨ha, hsymbol, -⟩ := intern_eq_ok hr.intact hr.spelled hintern
  have hr₁ := hr.adds ha
  obtain ⟨t, ht, hmethods⟩ := hr₁.methods o ho
  refine .onHeap rfl fun hroom => ?_
  obtain ⟨link, heap, hput, htakes⟩ := (hr₁.shelves.files t ht).put_affords ha.intact.whole
    (kernelClass_sane ha.intact .link) hsymbol (ha.sane hmethod) hroom
  rw [hmethods] at hput
  exact ⟨(), heap, query_bind_eq_ok.mpr ⟨_, (hr₁.fitted o ho).methods.slot,
    bind_eq_ok.mpr ⟨link, heap, hput, rfl⟩⟩, htakes⟩

theorem addMethod_completes (ho : o ∈ os) {m : Method} {t : CodeTemplate}
    (ht : m.compile o.names = .ok t) :
    Completes (t.methodParts ++ Part.entry t.selector) i (addMethod o.object m i) := by
  refine .query (hr.fitted o ho).instanceVariables ?_
  rw [ht]
  have hcls : Sane i o.object := (hr.fitted o ho).methods.sane
  refine (load_completes hr.intact hr.spelled hcls).bind fun method i₁ hload _ => .map _ ?_
  obtain ⟨ha, hmethod⟩ := Adds.of_ok (fun _ => False) [o.object]
    (load_adds t (by simp)) hr.intact hr.spelled (by simpa using hcls) hload
  exact install_completes (hr.adds ha) ho _ (hmethod _ (by simp))

end Entering

theorem addMethods_completes (hr : i.Registers ws os ts) (ho : o ∈ os) {ms : List Method}
    (hms : ∀ m ∈ ms, ∃ t, m.compile o.names = .ok t) :
    Completes (Part.methods o.names ms) i (addMethods o.object ms i) := by
  induction ms generalizing i ts with
  | nil => exact .pure _ _
  | cons m ms ih =>
    obtain ⟨⟨t, ht⟩, hms⟩ := List.forall_mem_cons.mp hms
    rw [Part.methods, List.flatMap_cons, ht]
    refine (addMethod_completes hr ho ht).bind fun _ i₁ hadd _ => ?_
    have hkeeps := hr.keeps.addMethod ho m
    rw [hadd] at hkeeps
    obtain ⟨-, ts₁, hr₁⟩ := hkeeps
    exact ih hr₁ hms

section Defining

variable (hr : i.Registers ws os ts) (hw : w ∈ ws) (ho : o ∈ os) (hsame : o.object = w.object)
include hr hw ho hsame

/-- A class and its metaclass are made and wired before anything is known of the variables. -/
theorem defineUnchecked_affords (name : String) (vars : List String)
    (hroom : i.heap.Affords [.slots Slot.Class.count, .slots Slot.Class.count]) :
    ∃ cls metaclass i', defineUnchecked name w.object vars i =
        completeClass cls name w.object vars i' ∧
      i.heap.Takes [.slots Slot.Class.count, .slots Slot.Class.count] i'.heap ∧
      Adds (fun _ => False) i i' ∧ ¬Sane i cls ∧ ¬Sane i metaclass ∧ Sane i' cls ∧
      i'.heap.isa cls = .ok metaclass ∧ i'.heap.Spans cls Slot.Class.count ∧
      i'.heap.Spans metaclass Slot.Class.count ∧
      i'.heap.instanceVariables w.object = .ok o.names := by
  obtain ⟨cls, i₁, hmade, htakes₁⟩ :=
    allocatePointers_completes hr.intact .nil Slot.Class.count (Heap.Affords.of_append hroom)
  obtain ⟨he₁, hcls, -, hslots⟩ :=
    allocatePointers_enlarges hr.intact hr.spelled (Arenas.sane_nil _) hmade
  obtain ⟨metaclass, i₂, hmade', htakes₂⟩ :=
    allocatePointers_completes he₁.intact .nil Slot.Class.count (htakes₁.affords hroom)
  obtain ⟨he₂, hmeta, -, hslots'⟩ :=
    allocatePointers_enlarges he₁.intact he₁.spelled (Arenas.sane_nil _) hmade'
  have ha := he₁.toAdds.trans he₂.toAdds
  have hcells : ∀ k < Slot.Class.count, i₂.heap.Holds ⟨cls, k⟩ .nil := fun k hk =>
    he₂.heap.kept id (hslots k hk)
  have hwhole : i₂.heap.Whole := ha.intact.whole
  have hsup := (hr.adds ha).wired w hw
  obtain ⟨heap, hwire, htakes, hspans⟩ := hwhole.wire_affords (ε := HeapError)
    (hcells _ (by decide)) (hslots' _ (by decide)) (.inr ⟨_, hsup.superclass⟩)
    (kernelClass_sane ha.intact .object) (kernelClass_sane ha.intact .metaclass)
  obtain ⟨_, hreshapes, -, hwired, -⟩ := hwhole.wires (hcells _ (by decide)) (hslots' _ (by decide))
    (fun heq => hmeta.new (heq ▸ hcls.sane)) hsup.sane (kernelClass_sane ha.intact .object)
    (kernelClass_sane ha.intact .metaclass) hwire
  have hmeta' : ¬Sane i metaclass := fun hold => hmeta.new (he₁.sane hold)
  have ha₃ := ha.reshape hreshapes (by simpa using ⟨hcls.new, hmeta'⟩)
  refine ⟨cls, metaclass, { i₂ with heap }, ?_, (htakes₁.trans htakes₂).then htakes, ha₃, hcls.new,
    hmeta', hwired.sane, hwired.isa, hspans _ _ fun k hk => ⟨_, hcells k hk⟩,
    hspans _ _ fun k hk => ⟨_, hslots' k hk⟩,
    hsame ▸ ((hr.adds ha₃).fitted o ho).instanceVariables⟩
  rw [defineUnchecked, bind_of_eq_ok hmade, bind_of_eq_ok hmade']
  exact bind_of_eq_ok (onHeap_eq_ok.mpr ⟨heap, hwire, rfl⟩)

theorem defineClass_completes (name : String) {vars names : List String}
    (hnames : extendVariables o.names vars = .ok names) :
    Completes (Part.definition name names) i (defineClass name w.object vars i) := by
  rw [(defineClass_defines hr hw ho hsame name vars).2]
  refine .resume [_, _] rfl fun hroom => ?_
  obtain ⟨cls, metaclass, i₁, heq, htakes, ha, hcls, hmeta, hsane, hisa, hspans, hspans', hvars⟩ :=
    defineUnchecked_affords hr hw ho hsame name vars hroom
  refine ⟨i₁, htakes, ?_⟩
  rw [heq]
  refine .query hvars ?_
  rw [hnames]
  refine (furnishPair_completes ha.intact ha.spelled hspans hspans' hisa name names).bind
    fun _ i₂ hfurnish _ => ?_
  have hleaves := furnishPair_leaves ha hsane hisa name names (absurd · hcls) (absurd · hmeta)
  rw [hfurnish] at hleaves
  exact .map _ (setGlobal_completes (hr.adds hleaves.1) name (hleaves.2.1.sane hsane))

/-- Names that come twice are told before the class is furnished. -/
theorem defineClass_repeats (name : String) {vars : List String} {e : CompileError}
    (he : extendVariables o.names vars = .error e)
    (hroom : i.heap.Affords [.slots Slot.Class.count, .slots Slot.Class.count]) :
    ∃ i', defineClass name w.object vars i = .error (.failure (.compile e)) i' ∧
      i.heap.Takes [.slots Slot.Class.count, .slots Slot.Class.count] i'.heap := by
  obtain ⟨cls, metaclass, i₁, heq, htakes, -, -, -, -, -, -, -, hvars⟩ :=
    defineUnchecked_affords hr hw ho hsame name vars hroom
  have hask : (ask (·.instanceVariables w.object) : ImageAction (List String)) i₁ =
      .ok o.names i₁ := query_of_eq_ok hvars
  refine ⟨i₁, ?_, htakes⟩
  rw [(defineClass_defines hr hw ho hsame name vars).2, heq, completeClass, bind_of_eq_ok hask, he]
  rfl

theorem loadClass_completes {d : ClassDefinition} {names : List String}
    (hfound : i.global? d.superclass = .ok (some w.object))
    (hnames : extendVariables o.names d.instanceVariables = .ok names)
    (hmethods : ∀ m ∈ d.methods, ∃ t, m.compile names = .ok t)
    (hclassMethods : ∀ m ∈ d.classMethods, ∃ t, m.compile KernelClass.classVariables = .ok t) :
    Completes (Part.definition d.name names ++ (Part.methods names d.methods ++
      Part.methods KernelClass.classVariables d.classMethods)) i (loadClass d i) := by
  rw [loadClass_of_global hfound]
  refine (defineClass_completes hr hw ho hsame d.name hnames).bind fun cls i₁ hdefine _ => ?_
  have hdefines := (defineClass_defines hr hw ho hsame d.name d.instanceVariables).1
  rw [hdefine] at hdefines
  cases hdefines with
  | @made _ metaclass p q ts _ _ _ _ _ hr₁ hknown hp hextend hq hqnames =>
    obtain rfl := Except.ok.inj (hextend.symm.trans hnames)
    have hpos : p ∈ q :: p :: os := List.mem_cons_of_mem _ List.mem_cons_self
    rw [← hp]
    refine (addMethods_completes hr₁ hpos hmethods).bind fun _ i₂ hadd _ => ?_
    have hkeeps := hr₁.keeps.addMethods hpos d.methods
    rw [hadd] at hkeeps
    obtain ⟨-, ts₂, hr₂⟩ := hkeeps
    refine .query (hp ▸ (hr₂.wired _ List.mem_cons_self).isa) ?_
    rw [← hq, ← hqnames]
    exact .map _ (addMethods_completes hr₂ List.mem_cons_self (hqnames ▸ hclassMethods))

end Defining

section Surveying

variable {ds : List Definition} {sup : Value} {vars inherited : List String}
  (hs : i.Surveyed ds) (hsup : i.Defined ds sup)
  (hread : i.heap.instanceVariables sup = .ok inherited)
include hs hsup hread

/-- Where there is room, a class is made below any that was defined. -/
theorem Surveyed.defineClass_delivers (name : String) {names : List String}
    (hnames : extendVariables inherited vars = .ok names)
    (hroom : i.heap.Affords (Part.definition name names)) :
    ∃ cls i', defineClass name sup vars i = .ok cls i' ∧
      i.heap.Takes (Part.definition name names) i'.heap ∧ i'.known = i.known ∧
      i'.heap.instanceVariables cls = .ok names ∧ i'.global? name = .ok (some cls) := by
  obtain ⟨ws, os, ⟨-, ts, hr⟩, hc⟩ := hs
  obtain ⟨w, hw, rfl, o, ho, hsame, -⟩ := hsup.recorded hr hc
  obtain rfl := Except.ok.inj ((hsame ▸ (hr.fitted o ho).instanceVariables).symm.trans hread)
  obtain ⟨cls, i', heq, htakes⟩ := (defineClass_completes hr hw ho hsame name hnames).delivers
    (Part.definition_fits name names) hroom
  have hdefines := (defineClass_defines hr hw ho hsame name vars).1
  rw [heq] at hdefines
  cases hdefines with
  | made ha hsane hset hr' hknown hp hextend _ _ =>
    obtain rfl := Except.ok.inj (hextend.symm.trans hnames)
    obtain ⟨g, hm⟩ := (hr.adds ha).means
    have hglobal := hm.setGlobal (hr.adds ha) hsane hset name
    rw [Function.update_self] at hglobal
    exact ⟨cls, i', heq, htakes, hknown, hp ▸ (hr'.fitted _ (by simp)).instanceVariables, hglobal⟩

theorem Surveyed.defineClass_repeats (name : String) {e : CompileError}
    (he : extendVariables inherited vars = .error e)
    (hroom : i.heap.Affords [.slots Slot.Class.count, .slots Slot.Class.count]) :
    ∃ i', defineClass name sup vars i = .error (.failure (.compile e)) i' := by
  obtain ⟨ws, os, ⟨-, ts, hr⟩, hc⟩ := hs
  obtain ⟨w, hw, rfl, o, ho, hsame, -⟩ := hsup.recorded hr hc
  obtain rfl := Except.ok.inj ((hsame ▸ (hr.fitted o ho).instanceVariables).symm.trans hread)
  obtain ⟨i', heq, -⟩ := Image.defineClass_repeats hr hw ho hsame name he hroom
  exact ⟨i', heq⟩

end Surveying

theorem compileDoIt_completes (hi : Intact i) (hs : i.Spelled) {temps : List String}
    {body : List Expr} {t : CodeTemplate} (ht : (doItMethod temps body).compile [] = .ok t) :
    Completes t.methodParts i (compileDoIt temps body i) := by
  rw [compileDoIt, ht]
  exact load_completes hi hs (kernelClass_sane hi .undefinedObject)

end Image

end ObjectMachine
