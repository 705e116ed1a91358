import ObjectMachine.Proofs.Object.Classes
import ObjectMachine.Proofs.Object.Shelving

namespace ObjectMachine

/-- The dictionaries that classes keep their methods in. -/
abbrev Catalogue := Value → Option Filing

namespace Catalogue

variable {b b' : Catalogue} {line : List Value} {cls selector selector' method : Value}

/-- The method that a class has itself for a selector: what its dictionary holds under it. -/
def method? (b : Catalogue) (cls selector : Value) : Option Value :=
  (b cls).bind fun t => (t.entries.find? (·.key = selector)).map Entry.value

def first? (b : Catalogue) (selector : Value) (line : List Value) : Option (Value × Value) :=
  line.findSome? fun cls => (b.method? cls selector).map (·, cls)

def Exposes (b : Catalogue) (line : List Value) (selector cls : Value) : Prop :=
  ∃ before after, line = before ++ cls :: after ∧ ∀ c ∈ before, b.method? c selector = none

theorem Exposes.mem (he : b.Exposes line selector cls) : cls ∈ line := by
  obtain ⟨before, after, rfl, -⟩ := he
  simp

theorem exposes_self : b.Exposes (cls :: line) selector cls :=
  ⟨[], line, rfl, List.forall_mem_nil _⟩

theorem Exposes.cons {c : Value} (he : b.Exposes line selector cls)
    (hc : b.method? c selector = none) : b.Exposes (c :: line) selector cls := by
  obtain ⟨before, after, rfl, hbefore⟩ := he
  exact ⟨c :: before, after, rfl, List.forall_mem_cons.mpr ⟨hc, hbefore⟩⟩

structure Revises (b b' : Catalogue) (cls selector method : Value) : Prop where
  revised : b'.method? cls selector = some method
  others : ∀ c s, ¬(c = cls ∧ s = selector) → b'.method? c s = b.method? c s

namespace Revises

theorem first?_of_exposes (hr : b.Revises b' cls selector method)
    (he : b.Exposes line selector cls) : b'.first? selector line = some (method, cls) := by
  obtain ⟨before, after, rfl, hbefore⟩ := he
  induction before with
  | nil => simp [first?, hr.revised]
  | cons c before ih =>
    obtain ⟨hc, hbefore⟩ := List.forall_mem_cons.mp hbefore
    rw [first?, List.cons_append, List.findSome?_cons]
    by_cases heq : c = cls
    · simp [heq, hr.revised]
    · rw [hr.others c selector fun hboth => heq hboth.1, hc]
      exact ih hbefore

theorem first?_of_not_exposes (hr : b.Revises b' cls selector method)
    (hn : ¬(selector' = selector ∧ b.Exposes line selector cls)) :
    b'.first? selector' line = b.first? selector' line := by
  induction line with
  | nil => rfl
  | cons c line ih =>
    have hsame : b'.method? c selector' = b.method? c selector' := by
      refine hr.others c selector' ?_
      rintro ⟨rfl, rfl⟩
      exact hn ⟨rfl, exposes_self⟩
    rw [first?, first?, List.findSome?_cons, List.findSome?_cons, hsame]
    cases hc : b.method? c selector' with
    | some m => rfl
    | none =>
      refine ih ?_
      rintro ⟨rfl, he⟩
      exact hn ⟨rfl, he.cons hc⟩

end Revises

end Catalogue

namespace Heap

variable {h h' : Heap} {classes : Set Value} {b : Catalogue} {t t' : Filing}
  {cls selector method linkClass k x : Value} {line : List Value} {fuel : Nat}

/-- What a dictionary holds under a key is what was put there last. -/
theorem Files.find?_entries (hf : h.Files t) (k : Value) :
    (t.entries.find? (·.key = k)).map Entry.value = t.ledger.puts.lookup k := by
  cases hfind : t.entries.find? (·.key = k) with
  | some e =>
    have hkey : e.key = k := by simpa using List.find?_some hfind
    exact ((hf.latest k e.value).mpr ⟨e, List.mem_of_find?_eq_some hfind, hkey, rfl⟩).symm
  | none =>
    refine (Option.eq_none_iff_forall_ne_some.mpr fun x hx => ?_).symm
    obtain ⟨e, he, hkey, -⟩ := (hf.latest k x).mp hx
    exact List.find?_eq_none.mp hfind e he (by simpa using hkey)

/-- Cells of other objects than the classes of a line do not matter. -/
theorem Ascends.frame (ha : h.Ascends cls line)
    (hkept : ∀ a ∈ line, ∀ i y, h.Holds ⟨a, i⟩ y → h'.Holds ⟨a, i⟩ y) : h'.Ascends cls line := by
  induction ha with
  | nil => exact .nil
  | cons hsup _ ih =>
    obtain ⟨hcls, hrest⟩ := List.forall_mem_cons.mp hkept
    exact .cons (hcls _ _ hsup) (ih hrest)

/-- Classes with superclasses among them, as far as the lines go, which end. Each class has a
dictionary of its own for its methods or none at all. No two dictionaries have an object in common,
and no class is part of one. -/
structure Hierarchy (h : Heap) (classes : Set Value) (b : Catalogue) : Prop where
  whole : h.Whole
  ascends : ∀ c ∈ classes, ∃ line, h.Ascends c line ∧ ∀ a ∈ line, a ∈ classes
  methods : ∀ c ∈ classes,
    h.Holds ⟨c, Slot.Class.methods⟩ ((b c).elim .nil fun t => t.ledger.object)
  files : ∀ c ∈ classes, ∀ t ∈ b c, h.Files t
  apart : ∀ c ∈ classes, ∀ t ∈ b c, ∀ a ∈ classes, a ∉ t.parts
  separate : ∀ c ∈ classes, ∀ t ∈ b c, ∀ a ∈ classes, ∀ u ∈ b a, c ≠ a → t.parts.Disjoint u.parts

namespace Hierarchy

/-- The walk up a line stops at the first class that has a method for the selector. -/
theorem lookupFrom (hh : h.Hierarchy classes b) (ha : h.Ascends cls line)
    (hline : ∀ a ∈ line, a ∈ classes) (hs : h.arenas.Sane selector) (hfuel : line.length < fuel) :
    h.lookupFrom selector fuel cls = .ok (b.first? selector line) := by
  induction ha generalizing fuel with
  | nil =>
    obtain ⟨fuel, rfl⟩ := Nat.exists_eq_add_of_lt hfuel
    rfl
  | @cons cls sup line hsup _ ih =>
    obtain ⟨fuel, rfl⟩ := Nat.exists_eq_add_of_lt hfuel
    obtain ⟨hcls, hline⟩ := List.forall_mem_cons.mp hline
    have hmethods := hh.methods cls hcls
    have hrest : h.lookupFrom selector ((cls :: line).length + fuel) sup =
        .ok (b.first? selector line) := ih hline (by simp only [List.length_cons]; omega)
    have hsuper : h.superclass cls = .ok sup := hsup.slot
    rw [Heap.lookupFrom, if_neg hsup.not_isNil, hmethods.slot, Catalogue.first?,
      List.findSome?_cons, Catalogue.method?]
    cases ht : b cls with
    | none =>
      simp only [Option.elim, Option.bind, bind, Except.bind, Value.isNil, Value.nil, pure,
        Except.pure, hsuper]
      exact hrest
    | some t =>
      have hf := hh.files cls hcls t ht
      have hat := hf.dictionaryAt hh.whole hs
      rw [← hf.find?_entries] at hat
      simp only [Option.elim, bind, Except.bind, if_neg hf.tally.not_isNil, hat, Option.bind]
      cases (t.entries.find? (·.key = selector)).map Entry.value with
      | some method => rfl
      | none =>
        simp only [Option.map_none, hsuper]
        exact hrest

/-- What a class and those above it have for a selector, the first of them first. -/
theorem lookup (hh : h.Hierarchy classes b) (hcls : cls ∈ classes) (ha : h.Ascends cls line)
    (hs : h.arenas.Sane selector) : h.lookup cls selector = .ok (b.first? selector line) := by
  obtain ⟨line', ha', hline⟩ := hh.ascends cls hcls
  obtain rfl := ha.unique ha'
  exact hh.lookupFrom ha hline hs (ha.length_lt hh.whole)

/-- Lines stay where no class is written to. -/
theorem kept {written : Cell → Prop} (hh : h.Hierarchy classes b) (he : Extends written h h')
    (hwritten : ∀ c ∈ classes, ∀ i, ¬written ⟨c, i⟩) {c : Value} (hc : c ∈ classes)
    {line : List Value}
    (ha : h.Ascends c line) : h'.Ascends c line := by
  obtain ⟨line', ha', hline⟩ := hh.ascends c hc
  obtain rfl := ha.unique ha'
  exact ha.frame fun a hmem i _ hold => he.kept (hwritten a (hline a hmem) i) hold

/-- Objects that are added change nothing about the classes. -/
theorem extended (hh : h.Hierarchy classes b) (he : Extends (fun _ => False) h h') :
    h'.Hierarchy classes b where
  whole := he.whole
  ascends c hc := by
    obtain ⟨line, ha, hline⟩ := hh.ascends c hc
    exact ⟨line, hh.kept he (fun _ _ _ => id) hc ha, hline⟩
  methods c hc := he.kept id (hh.methods c hc)
  files c hc t ht := (hh.files c hc t ht).frame hh.whole he fun _ _ => id
  apart := hh.apart
  separate := hh.separate

/-- A dictionary that stands for another with the same object takes its place. -/
theorem revise (hh : h.Hierarchy classes b) (hcls : cls ∈ classes) (ht : b cls = some t)
    (he : Extends (fun c => c.object ∈ t.parts) h h') (hfiles : h'.Files t')
    (hobject : t'.ledger.object = t.ledger.object)
    (hparts : ∀ v ∈ t'.parts, v ∈ t.parts ∨ ¬h.arenas.Sane v) :
    h'.Hierarchy classes (Function.update b cls (some t')) := by
  have hclasses : ∀ c ∈ classes, ∀ i, ¬(⟨c, i⟩ : Cell).object ∈ t.parts := fun c hc _ =>
    hh.apart cls hcls t ht c hc
  -- The parts of the dictionary that were added are nothing that there was.
  have hfresh : ∀ v ∈ t'.parts, h.arenas.Sane v → v ∈ t.parts := fun v hv hsane =>
    (hparts v hv).resolve_right (not_not_intro hsane)
  have hdisjoint : ∀ a ∈ classes, a ≠ cls → ∀ u ∈ b a, t'.parts.Disjoint u.parts :=
    fun a ha hne u hu v hv hv' => hh.separate cls hcls t ht a ha u hu hne.symm
      (hfresh v hv ((hh.files a ha u hu).part_sane hv')) hv'
  refine ⟨he.whole, ?ascends, ?methods, ?files, ?apart, ?separate⟩
  case ascends =>
    intro c hc
    obtain ⟨line, ha, hline⟩ := hh.ascends c hc
    exact ⟨line, hh.kept he hclasses hc ha, hline⟩
  case methods =>
    intro c hc
    have hold := he.kept (hclasses c hc _) (hh.methods c hc)
    by_cases hsame : c = cls
    · subst hsame
      rw [Function.update_self]
      rw [ht] at hold
      simpa [hobject] using hold
    · rwa [Function.update_of_ne hsame]
  case files =>
    intro c hc u hu
    by_cases hsame : c = cls
    · subst hsame
      rw [Function.update_self] at hu
      cases hu
      exact hfiles
    · rw [Function.update_of_ne hsame] at hu
      refine (hh.files c hc u hu).frame hh.whole he fun cell hc' hwritten => ?_
      exact hh.separate c hc u hu cls hcls t ht hsame hc' hwritten
  case apart =>
    intro c hc u hu a ha hmem
    by_cases hsame : c = cls
    · subst hsame
      rw [Function.update_self] at hu
      cases hu
      exact hh.apart c hc t ht a ha (hfresh a hmem (hh.methods a ha).sane)
    · rw [Function.update_of_ne hsame] at hu
      exact hh.apart c hc u hu a ha hmem
  case separate =>
    intro c hc u hu a ha w hw hne
    by_cases hsame : c = cls
    · subst hsame
      rw [Function.update_self] at hu
      rw [Function.update_of_ne hne.symm] at hw
      cases hu
      exact hdisjoint a ha hne.symm w hw
    · rw [Function.update_of_ne hsame] at hu
      by_cases hother : a = cls
      · subst hother
        rw [Function.update_self] at hw
        cases hw
        exact (hdisjoint c hc hsame u hu).symm
      · rw [Function.update_of_ne hother] at hw
        exact hh.separate c hc u hu a ha w hw hne

end Hierarchy

/-- A dictionary with one more pair is a revision of the catalogue. -/
theorem Files.revises (hf : h.Files t) (ht : b cls = some t) (hf' : h'.Files t')
    (hnote : t'.ledger = t.ledger.note selector method) :
    b.Revises (Function.update b cls (some t')) cls selector method := by
  have hmine : ∀ s, Catalogue.method? (Function.update b cls (some t')) cls s =
      ((selector, method) :: t.ledger.puts).lookup s := fun s => by
    rw [Catalogue.method?, Function.update_self, Option.bind_some, hf'.find?_entries, hnote]
    rfl
  refine ⟨by rw [hmine, List.lookup_cons_self], fun c s hne => ?_⟩
  by_cases hsame : c = cls
  · subst hsame
    have hs : ¬s = selector := fun heq => hne ⟨rfl, heq⟩
    rw [hmine, List.lookup_cons, beq_eq_false_iff_ne.mpr hs, Catalogue.method?, ht,
      Option.bind_some, hf.find?_entries]
  · rw [Catalogue.method?, Catalogue.method?, Function.update_of_ne hsame]

/-- How an installation may end: the class has the method, and the classes stand as they stood; or
there was no room, and nothing changed; or the class has no dictionary, which breaks a rule. -/
inductive Installs (h : Heap) (classes : Set Value) (b : Catalogue) (cls selector method : Value) :
    EStateM.Result (Stop HeapError) Heap Unit → Prop where
  | done {b' : Catalogue} {h' : Heap} : h'.Hierarchy classes b' →
    b.Revises b' cls selector method →
    (∀ c ∈ classes, ∀ line, h.Ascends c line → h'.Ascends c line) → h.Grows h' →
    Installs h classes b cls selector method (.ok () h')
  | refused {arena : ArenaId} {requested : Nat} {h' : Heap} : h'.Hierarchy classes b →
    (∀ c ∈ classes, ∀ line, h.Ascends c line → h'.Ascends c line) → h.Grows h' →
    Installs h classes b cls selector method
      (.error (.failure (.exhausted arena requested (h.used arena) h.capacity)) h')
  | faulted {f : Fault} : b cls = none →
    Installs h classes b cls selector method (.error (.fault f) h)

theorem Hierarchy.install (hh : h.Hierarchy classes b) (hcls : cls ∈ classes)
    (hclass : h.arenas.Sane linkClass) (hs : h.arenas.Sane selector) (hm : h.arenas.Sane method) :
    h.Installs classes b cls selector method (installMethod linkClass cls selector method h) := by
  have hread : (Action.query (·.slot cls Slot.Class.methods) : Action HeapError Heap Value) h =
      .ok ((b cls).elim .nil fun t => t.ledger.object) h :=
    query_of_eq_ok (hh.methods cls hcls).slot
  rw [installMethod, bind_of_eq_ok hread]
  cases ht : b cls with
  | none => exact .faulted ht
  | some t =>
    have hf := hh.files cls hcls t ht
    have hwritten : ∀ c ∈ classes, ∀ i, ¬(⟨c, i⟩ : Cell).object ∈ t.parts := fun c hc _ =>
      hh.apart cls hcls t ht c hc
    have hput := hf.put hh.whole hclass hs hm
    generalize heq : dictionaryPut linkClass t.ledger.object selector method h = r at hput
    cases hput with
    | @done t' link h' hnote hf' he hparts =>
      simp only [Option.elim]
      rw [bind_of_eq_ok heq]
      exact .done (hh.revise hcls ht he hf' (by rw [hnote, Ledger.note]) hparts)
        (hf.revises ht hf' hnote) (fun c hc line => hh.kept he hwritten hc) he.grows
    | refused he =>
      simp only [Option.elim]
      rw [bind_of_eq_error heq]
      exact .refused (hh.extended he) (fun c hc line => hh.kept he (fun _ _ _ => id) hc) he.grows

/-- Methods are inherited. From a class the lookup delivers the method of the first class on its
line whose dictionary holds the selector, with that class, or nothing if there is none. Once a
method is installed in a class, it is what the lookup delivers for its selector from all classes on
whose lines no class before that one has a method for it; all other lookups deliver what they did,
and so they do where there was no room for the method. -/
theorem lookup_inherits (hh : h.Hierarchy classes b) :
    (∀ c ∈ classes, ∀ s, h.arenas.Sane s → ∃ line, h.Ascends c line ∧
      h.lookup c s = .ok (b.first? s line)) ∧
    ∀ d ∈ classes, ∀ linkClass s m, h.arenas.Sane linkClass → h.arenas.Sane s → h.arenas.Sane m →
      (∀ h', installMethod linkClass d s m h = .ok () h' →
        (∃ b', h'.Hierarchy classes b' ∧ b.Revises b' d s m) ∧
        ∀ c ∈ classes, ∀ line, h.Ascends c line → h'.Ascends c line ∧ ∀ k, h.arenas.Sane k →
          (k = s ∧ b.Exposes line s d → h'.lookup c k = .ok (some (m, d))) ∧
          (¬(k = s ∧ b.Exposes line s d) → h'.lookup c k = h.lookup c k)) ∧
      ((b d).isSome → (∃ h', installMethod linkClass d s m h = .ok () h') ∨
        ∃ arena requested h', installMethod linkClass d s m h =
            .error (.failure (.exhausted arena requested (h.used arena) h.capacity)) h' ∧
          ∀ c ∈ classes, ∀ k, h.arenas.Sane k → h'.lookup c k = h.lookup c k) := by
  refine ⟨fun c hc s hs => ?_, fun d hd linkClass s m hclass hs hm => ?_⟩
  · obtain ⟨line, ha, -⟩ := hh.ascends c hc
    exact ⟨line, ha, hh.lookup hc ha hs⟩
  have hend := hh.install hd hclass hs hm
  generalize installMethod linkClass d s m h = r at hend
  cases hend with
  | @done b' h' hh' hr hlines hgrows =>
    refine ⟨fun _ heq => ?_, fun _ => .inl ⟨h', rfl⟩⟩
    obtain ⟨-, rfl⟩ := EStateM.Result.ok.inj heq
    refine ⟨⟨b', hh', hr⟩, fun c hc line ha => ⟨hlines c hc line ha, fun k hk => ?_⟩⟩
    rw [hh'.lookup hc (hlines c hc line ha) (hgrows k hk), hh.lookup hc ha hk]
    refine ⟨?_, fun hn => by rw [hr.first?_of_not_exposes hn]⟩
    rintro ⟨rfl, he⟩
    rw [hr.first?_of_exposes he]
  | @refused arena requested h' hh' hlines hgrows =>
    refine ⟨nofun, fun _ => .inr ⟨arena, requested, h', rfl, fun c hc k hk => ?_⟩⟩
    obtain ⟨line, ha, -⟩ := hh.ascends c hc
    rw [hh'.lookup hc (hlines c hc line ha) (hgrows k hk), hh.lookup hc ha hk]
  | faulted hnone => exact ⟨nofun, fun hsome => by simp [hnone] at hsome⟩

/-- A small memory: two empty dictionaries, a class with the first of them, and a class below it
with the second. -/
def kennel : Heap :=
  Ledger.desk #[0, 2, 0, 0x200000004, 1, 0, 0, 0x200000008, 1, 0, 0, 0x50000000c, 0, 0, 32, 0, 0,
    0, 0x500000010, 0, 160, 96, 0, 0] 5 { objects := 4, words := 22 }

def bareKennel : Heap :=
  Ledger.desk #[0, 2, 0, 0x200000004, 0, 0, 0, 0x200000008, 0, 0, 0, 0x50000000c, 0, 0, 0, 0, 0,
    0, 0x500000010, 0, 0, 0, 0, 0] 5 { objects := 4, words := 22 }

theorem bareKennel_whole : bareKennel.Whole := by
  have hallocate : ∀ {n : Nat} {h h' : Heap} {v : Value}, h.Whole →
      Heap.allocatePointers .nil n h = .ok v h' → h'.Whole := by
    intro n h h' v whole heq
    have hallots := whole.allots_pointers (Arenas.sane_nil _) n
    rw [heq] at hallots
    exact hallots.1.whole
  have hdictionaries := hallocate (n := 2) (v := ⟨96⟩)
    (hallocate (n := 2) (v := ⟨32⟩) Ledger.desk_whole rfl) rfl
  exact hallocate (n := 5) (v := ⟨272⟩)
    (hallocate (n := 5) (v := ⟨160⟩) hdictionaries rfl) rfl

theorem bareKennel_sane : ∀ v ∈ [(⟨32⟩ : Value), ⟨96⟩, ⟨160⟩, ⟨272⟩], bareKennel.arenas.Sane v := by
  have hstarts : bareKennel.arenas.starts .pointers = .ok [2, 6, 10, 17] := by decide +kernel
  have hplace : ∀ (v : Value) (word : Nat), v.address? = some ⟨.pointers, word⟩ →
      word ∈ [2, 6, 10, 17] → bareKennel.arenas.Sane v :=
    fun _ _ haddress hword => .inr (.inr ⟨_, haddress, _, hstarts, hword⟩)
  simp only [List.forall_mem_cons, List.not_mem_nil, false_imp_iff, implies_true, and_true]
  refine ⟨hplace _ 2 ?_ ?_, hplace _ 6 ?_ ?_, hplace _ 10 ?_ ?_, hplace _ 17 ?_ ?_⟩ <;>
    decide +kernel

theorem kennel_whole : kennel.Whole ∧ Grows bareKennel kennel := by
  obtain ⟨hd, hd', ha, hb, -⟩ : bareKennel.arenas.Sane ⟨32⟩ ∧ bareKennel.arenas.Sane ⟨96⟩ ∧
      bareKennel.arenas.Sane ⟨160⟩ ∧ bareKennel.arenas.Sane ⟨272⟩ ∧ True := by
    simpa using bareKennel_sane
  have hset : ∀ {h h' : Heap} {v x : Value} {i : Nat}, h.Whole ∧ Grows bareKennel h →
      bareKennel.arenas.Sane v → bareKennel.arenas.Sane x →
      Heap.setSlot v i x (ε := HeapError) h = .ok () h' → h'.Whole ∧ Grows bareKennel h' := by
    intro h h' v x i ⟨whole, hgrows⟩ hv hx heq
    have hr := whole.rewrites (hgrows v hv) (hgrows x hx) heq
    exact ⟨hr.whole, hgrows.trans hr.grows⟩
  have hzero : bareKennel.arenas.Sane (.ofNat 0) := .inr (.inl (by decide))
  have htallies := hset (i := Slot.Dictionary.tally)
    (hset (i := Slot.Dictionary.tally) ⟨bareKennel_whole, .refl _⟩ hd hzero rfl) hd' hzero rfl
  have hmethods := hset (i := Slot.Class.methods)
    (hset (i := Slot.Class.methods) htallies ha hd rfl) hb hd' rfl
  exact hset (i := Slot.Class.superclass) hmethods hb ha rfl

/-- The dictionary of the upper class, and that of the lower one. -/
def kennelBooks : Catalogue :=
  fun c => some ⟨⟨if c = ⟨160⟩ then ⟨32⟩ else ⟨96⟩, []⟩, [[]]⟩

theorem kennel_lines : kennel.Ascends ⟨160⟩ [⟨160⟩] ∧ kennel.Ascends ⟨272⟩ [⟨272⟩, ⟨160⟩] := by
  have hsuper : ∀ (v sup : Value), v ∈ [(⟨32⟩ : Value), ⟨96⟩, ⟨160⟩, ⟨272⟩] →
      kennel.slot v Slot.Class.superclass = .ok sup → kennel.Holds ⟨v, Slot.Class.superclass⟩ sup :=
    fun v _ hv hslot => ⟨kennel_whole.2 v (bareKennel_sane v hv), hslot⟩
  have habove : kennel.Ascends ⟨160⟩ [⟨160⟩] :=
    .cons (hsuper _ _ (by simp) (by decide +kernel)) .nil
  exact ⟨habove, .cons (hsuper _ _ (by simp) (by decide +kernel)) habove⟩

theorem kennel_hierarchy : kennel.Hierarchy {⟨160⟩, ⟨272⟩} kennelBooks := by
  obtain ⟨whole, hgrows⟩ := kennel_whole
  have hholds : ∀ (v : Value) (i : Nat) (x : Value), v ∈ [(⟨32⟩ : Value), ⟨96⟩, ⟨160⟩, ⟨272⟩] →
      kennel.slot v i = .ok x → kennel.Holds ⟨v, i⟩ x :=
    fun v _ _ hv hslot => ⟨hgrows v (bareKennel_sane v hv), hslot⟩
  have hfiles : ∀ d, d ∈ [(⟨32⟩ : Value), ⟨96⟩] →
      kennel.slot d Slot.Dictionary.tally = .ok (.ofNat 0) →
      kennel.slot d Slot.Dictionary.buckets = .ok .nil → kennel.size d = .ok 2 →
      kennel.Files ⟨⟨d, []⟩, [[]]⟩ := by
    intro d hd htally hbucket hsize
    have hmem : d ∈ [(⟨32⟩ : Value), ⟨96⟩, ⟨160⟩, ⟨272⟩] := by
      simp only [List.mem_cons, List.not_mem_nil, or_false] at hd ⊢
      tauto
    have htally := hholds d _ _ hmem htally
    refine ⟨by simp, htally.sane, hsize, htally, fun {i es} hes => ?_, fun {i es} hes => ?_,
      .nil, by simp [Filing.parts, Filing.entries], by simp [Filing.entries]⟩
    · obtain ⟨rfl, rfl⟩ : i = 0 ∧ [] = es := by simpa [List.getElem?_singleton] using hes
      exact ⟨.nil, hholds d _ _ hmem hbucket, .nil⟩
    · obtain ⟨rfl, rfl⟩ : i = 0 ∧ [] = es := by simpa [List.getElem?_singleton] using hes
      exact List.forall_mem_nil _
  refine ⟨whole, ?ascends, ?methods, ?files, ?apart, ?separate⟩
  all_goals simp only [Set.mem_insert_iff, Set.mem_singleton_iff, forall_eq_or_imp, forall_eq]
  case ascends =>
    exact ⟨⟨_, kennel_lines.1, by simp⟩, _, kennel_lines.2, by simp⟩
  case methods =>
    exact ⟨hholds _ _ _ (by simp) (by decide +kernel), hholds _ _ _ (by simp) (by decide +kernel)⟩
  case files =>
    simp only [kennelBooks, Option.mem_def, Option.some.injEq, forall_eq']
    exact ⟨hfiles _ (by simp) (by decide +kernel) (by decide +kernel) (by decide +kernel),
      hfiles _ (by simp) (by decide +kernel) (by decide +kernel) (by decide +kernel)⟩
  case apart =>
    simp only [kennelBooks, Option.mem_def, Option.some.injEq, forall_eq']
    decide
  case separate =>
    simp [kennelBooks, Filing.parts, Filing.entries]

def upperKennel : Heap :=
  Ledger.desk #[0, 2, 0, 0x200000004, 9, 384, 0, 0x200000008, 1, 0, 0, 0x50000000c, 0, 0, 32, 0, 0,
    0, 0x500000010, 0, 160, 96, 0, 0, 0, 0x300000014, 57, 65, 0] 6 { objects := 5, words := 27 }

def fullKennel : Heap :=
  Ledger.desk #[0, 2, 0, 0x200000004, 9, 384, 0, 0x200000008, 9, 464, 0, 0x50000000c, 0, 0, 32, 0,
    0,
    0, 0x500000010, 0, 160, 96, 0, 0, 0, 0x300000014, 57, 65, 0, 0, 0x300000018, 57, 73, 0] 7
    { objects := 6, words := 32 }

/-- The lower class finds the method that is installed in the upper one, until it has a method of
its own for the selector; the upper one finds its own method all along. -/
theorem lookup_inherits_kennel :
    kennel.Hierarchy {⟨160⟩, ⟨272⟩} kennelBooks ∧
    installMethod .nil ⟨160⟩ (.ofNat 7) (.ofNat 8) kennel = .ok () upperKennel ∧
    installMethod .nil ⟨272⟩ (.ofNat 7) (.ofNat 9) upperKennel = .ok () fullKennel ∧
    upperKennel.lookup ⟨272⟩ (.ofNat 7) = .ok (some (.ofNat 8, ⟨160⟩)) ∧
    fullKennel.lookup ⟨272⟩ (.ofNat 7) = .ok (some (.ofNat 9, ⟨272⟩)) ∧
    fullKennel.lookup ⟨160⟩ (.ofNat 7) = .ok (some (.ofNat 8, ⟨160⟩)) := by
  have hsane : ∀ {h : Heap} {n : Nat}, h.arenas.Sane (.ofNat n) := .inr (.inl (by simp))
  have hfirst : installMethod .nil ⟨160⟩ (.ofNat 7) (.ofNat 8) kennel = .ok () upperKennel := rfl
  have hsecond : installMethod .nil ⟨272⟩ (.ofNat 7) (.ofNat 9) upperKennel = .ok () fullKennel :=
    rfl
  obtain ⟨⟨b, hh, hr⟩, hlookups⟩ := ((lookup_inherits kennel_hierarchy).2 ⟨160⟩ (by simp) .nil
    (.ofNat 7) (.ofNat 8) (Arenas.sane_nil _) hsane hsane).1 _ hfirst
  obtain ⟨habove, hupper⟩ := hlookups ⟨160⟩ (by simp) _ kennel_lines.1
  obtain ⟨hbelow, hlower⟩ := hlookups ⟨272⟩ (by simp) _ kennel_lines.2
  have hinherited := (hlower (.ofNat 7) hsane).1 ⟨rfl, Catalogue.exposes_self.cons (by decide)⟩
  have hkept := (hupper (.ofNat 7) hsane).1 ⟨rfl, Catalogue.exposes_self⟩
  obtain ⟨-, hlookups'⟩ := ((lookup_inherits hh).2 ⟨272⟩ (by simp) .nil (.ofNat 7) (.ofNat 9)
    (Arenas.sane_nil _) hsane hsane).1 _ hsecond
  have hown := ((hlookups' ⟨272⟩ (by simp) _ hbelow).2 (.ofNat 7) hsane).1
    ⟨rfl, Catalogue.exposes_self⟩
  have hstays := ((hlookups' ⟨160⟩ (by simp) _ habove).2 (.ofNat 7) hsane).2
    fun hboth => absurd hboth.2.mem (by decide)
  exact ⟨kennel_hierarchy, hfirst, hsecond, hinherited, hown, hstays.trans hkept⟩

end Heap

end ObjectMachine
