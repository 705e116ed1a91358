import Mathlib.Logic.Relation
import ObjectMachine.Proofs.Object.Filing

namespace ObjectMachine

/-- The memory that a step leaves, short of a broken rule. -/
inductive Heap.Left {α : Type} : EStateM.Result (Stop HeapError) Heap α → Heap → Prop where
  | ok {a : α} {h : Heap} : Left (.ok a h) h
  | refused {cause : HeapError} {h : Heap} : Left (.error (.failure cause) h) h

namespace Ledger

abbrev Shelf := Heap × List Ledger

/-- What a program does with dictionaries, and what it does beside them. A new dictionary has at
least one bucket: the condition is on the size of the dictionary that is made, so that counts which
the 32-bit size cuts to no bucket are left out. Collections keep all dictionaries. -/
inductive Step : Shelf → Shelf → Prop where
  | create {h h' : Heap} {shelf : List Ledger} {isa d : Value} {count slots : Nat} :
    h.arenas.Sane isa → Heap.newDictionary isa count h = .ok d h' → h'.size d = .ok slots →
    1 < slots → Step (h, shelf) (h', ⟨d, []⟩ :: shelf)
  | createRefused {h h' : Heap} {shelf : List Ledger} {isa : Value} {count : Nat}
    {cause : HeapError} : h.arenas.Sane isa →
    Heap.newDictionary isa count h = .error (.failure cause) h' → Step (h, shelf) (h', shelf)
  | put {h h' : Heap} {before after : List Ledger} {g : Ledger} {linkClass k x link : Value} :
    h.arenas.Sane linkClass → h.arenas.Sane k → h.arenas.Sane x →
    Heap.dictionaryPut linkClass g.object k x h = .ok link h' →
    Step (h, before ++ g :: after) (h', before ++ g.note k x :: after)
  | putRefused {h h' : Heap} {shelf : List Ledger} {g : Ledger} {linkClass k x : Value}
    {cause : HeapError} : g ∈ shelf → h.arenas.Sane linkClass → h.arenas.Sane k →
    h.arenas.Sane x → Heap.dictionaryPut linkClass g.object k x h = .error (.failure cause) h' →
    Step (h, shelf) (h', shelf)
  | pointers {h h' : Heap} {shelf : List Ledger} {isa : Value} {count : Nat} :
    h.arenas.Sane isa → Heap.Left (Heap.allocatePointers isa count h) h' →
    Step (h, shelf) (h', shelf)
  | bytes {h h' : Heap} {shelf : List Ledger} {isa : Value} {content : Array UInt8} :
    h.arenas.Sane isa → Heap.Left (Heap.allocateBytes isa content h) h' →
    Step (h, shelf) (h', shelf)
  | collect {h h' : Heap} {shelf : List Ledger} {roots roots' : List Value}
    {r : Except HeapError Collection} {f : Address → Address} :
    (∀ v ∈ roots, h.arenas.Sane v) →
    (∀ g ∈ shelf, ∃ loc, g.object.address? = some loc ∧ h.arenas.Reachable roots loc) →
    h.collect roots = .ok (h', roots', r) → Heap.Moved h h' roots f →
    Step (h, shelf) (h', shelf.map (Ledger.relocate f))

end Ledger

namespace Heap

variable {h h' : Heap} {shelf : List Ledger}

/-- A dictionary answers by the record of what was put into it: under each key the value put last,
if any, and every key once. -/
structure Answers (h : Heap) (g : Ledger) : Prop where
  at_key : ∀ k, h.arenas.Sane k → h.dictionaryAt g.object k = .ok (g.puts.lookup k)
  size : h.dictionarySize g.object = .ok (g.puts.map Prod.fst).dedup.length
  keys : ∃ keys, h.dictionaryKeys g.object = .ok keys ∧ keys.Nodup ∧
    ∀ k, k ∈ keys ↔ k ∈ g.puts.map Prod.fst

/-- Nothing that can be read of a dictionary differs, nor where its keys are filed. -/
structure Alike (h h' : Heap) (g : Ledger) : Prop where
  link : ∀ k, h.arenas.Sane k → h'.dictionaryLink g.object k = h.dictionaryLink g.object k
  at_key : ∀ k, h.arenas.Sane k → h'.dictionaryAt g.object k = h.dictionaryAt g.object k
  size : h'.dictionarySize g.object = h.dictionarySize g.object
  keys : h'.dictionaryKeys g.object = h.dictionaryKeys g.object

theorem Files.answers {t : Filing} (hf : h.Files t) (whole : h.Whole) : h.Answers t.ledger where
  at_key _ hk := hf.dictionaryAt whole hk
  size := hf.dictionarySize whole
  keys := ⟨_, hf.dictionaryKeys whole, hf.keys, fun _ => hf.mem_keys_iff⟩

theorem Files.alike {t : Filing} (hf : h.Files t) (hf' : h'.Files t) (whole : h.Whole)
    (whole' : h'.Whole) (hg : h.Grows h') : h.Alike h' t.ledger where
  link k hk := by
    by_cases hkey : ∃ e ∈ t.entries, e.key = k
    · obtain ⟨e, he, rfl⟩ := hkey
      rw [hf.dictionaryLink_of_mem whole he, hf'.dictionaryLink_of_mem whole' he]
    · have hkeys : ∀ e ∈ t.entries, e.key ≠ k := fun e he heq => hkey ⟨e, he, heq⟩
      rw [hf.dictionaryLink_of_not_mem whole hk hkeys,
        hf'.dictionaryLink_of_not_mem whole' (hg _ hk) hkeys]
  at_key k hk := (hf'.dictionaryAt whole' (hg _ hk)).trans (hf.dictionaryAt whole hk).symm
  size := (hf'.dictionarySize whole').trans (hf.dictionarySize whole).symm
  keys := (hf'.dictionaryKeys whole').trans (hf.dictionaryKeys whole).symm

structure Shelves (h : Heap) (filings : List Filing) : Prop where
  whole : h.Whole
  files : ∀ t ∈ filings, h.Files t
  disjoint : filings.Pairwise fun t u => t.parts.Disjoint u.parts

namespace Shelves

variable {filings : List Filing}

/-- Objects that are added are in no dictionary. -/
theorem extended (hs : h.Shelves filings) (he : Extends (fun _ => False) h h') :
    h'.Shelves filings where
  whole := he.whole
  files t ht := (hs.files t ht).frame hs.whole he fun _ _ => id
  disjoint := hs.disjoint

theorem alike_of_extended (hs : h.Shelves filings) (he : Extends (fun _ => False) h h') {t : Filing}
    (ht : t ∈ filings) : h.Alike h' t.ledger :=
  (hs.files t ht).alike ((hs.extended he).files t ht) hs.whole he.whole he.grows

theorem create (hs : h.Shelves filings) {isa d : Value} {count slots : Nat}
    (hisa : h.arenas.Sane isa) (heq : newDictionary isa count h = .ok d h')
    (hsize : h'.size d = .ok slots) (hslots : 1 < slots) :
    h'.Shelves (⟨⟨d, []⟩, List.replicate (slots - 1) []⟩ :: filings) := by
  obtain ⟨hnew, hext, hfresh⟩ := newDictionary_files hs.whole hisa heq hsize hslots
  have hs' := hs.extended hext
  refine ⟨hext.whole, List.forall_mem_cons.mpr ⟨hnew, hs'.files⟩,
    List.pairwise_cons.mpr ⟨fun u hu v hv hv' => ?_, hs'.disjoint⟩⟩
  -- A new dictionary has no other part than itself, and that was nowhere before.
  obtain rfl : v = d := by simpa [Filing.parts, Filing.entries] using hv
  exact hfresh ((hs.files u hu).part_sane hv')

/-- A put into one of the dictionaries changes no other. -/
theorem put {ts us : List Filing} {t t' : Filing} (hs : h.Shelves (ts ++ t :: us))
    (hfiles : h'.Files t') (he : Extends (fun c => c.object ∈ t.parts) h h')
    (hparts : ∀ v ∈ t'.parts, v ∈ t.parts ∨ ¬h.arenas.Sane v) :
    h'.Shelves (ts ++ t' :: us) ∧ ∀ u ∈ ts ++ us, h.Alike h' u.ledger := by
  have hdisjoint := (List.pairwise_middle fun h => h.symm).mp hs.disjoint
  obtain ⟨hothers, hrest⟩ := List.pairwise_cons.mp hdisjoint
  have hmem : ∀ u ∈ ts ++ us, u ∈ ts ++ t :: us := fun u hu => by
    simp only [List.mem_append, List.mem_cons] at hu ⊢
    tauto
  have hkept : ∀ u ∈ ts ++ us, h'.Files u := fun u hu =>
    (hs.files u (hmem u hu)).frame hs.whole he fun _ hc hc' => hothers u hu hc' hc
  refine ⟨⟨he.whole, fun u hu => ?_, (List.pairwise_middle fun h => h.symm).mpr
    (List.pairwise_cons.mpr ⟨fun u hu v hv hv' => ?_, hrest⟩)⟩, fun u hu => ?_⟩
  · rcases List.mem_append.mp hu with hu | hu
    · exact hkept u (List.mem_append_left _ hu)
    · rcases List.mem_cons.mp hu with rfl | hu
      · exact hfiles
      · exact hkept u (List.mem_append_right _ hu)
  · rcases hparts v hv with hold | hfresh
    · exact hothers u hu hold hv'
    · exact hfresh ((hs.files u (hmem u hu)).part_sane hv')
  · exact (hs.files u (hmem u hu)).alike (hkept u hu) hs.whole he.whole he.grows

/-- A collection that keeps the dictionaries. -/
theorem moved (hs : h.Shelves filings) {roots : List Value} {f : Address → Address}
    (moved : Moved h h' roots f) (whole : h'.Whole)
    (htaken : ∀ t ∈ filings, h.Taken roots t.ledger.object) :
    h'.Shelves (filings.map (Filing.relocate f)) := by
  refine ⟨whole, fun t' ht' => ?_, List.pairwise_map.mpr ?_⟩
  · obtain ⟨t, ht, rfl⟩ := List.mem_map.mp ht'
    exact (hs.files t ht).moved moved hs.whole whole.sound (htaken t ht)
  · refine hs.disjoint.imp_of_mem fun {t u} ht hu hdisjoint v hv hv' => ?_
    rw [Filing.parts_relocate] at hv hv'
    obtain ⟨v₁, hv₁, rfl⟩ := List.mem_map.mp hv
    obtain ⟨v₂, hv₂, heq⟩ := List.mem_map.mp hv'
    have htaken₁ := (hs.files t ht).part_taken hs.whole (htaken t ht) hv₁
    have htaken₂ := (hs.files u hu).part_taken hs.whole (htaken u hu) hv₂
    obtain rfl := moved.injective whole.sound htaken₂ htaken₁ heq
    exact hdisjoint hv₁ hv₂

/-- How a put among other dictionaries may end. -/
theorem puts_among {ts us : List Filing} {t : Filing} {linkClass k x : Value}
    (hs : h.Shelves (ts ++ t :: us)) (hclass : h.arenas.Sane linkClass) (hk : h.arenas.Sane k)
    (hx : h.arenas.Sane x) :
    (∃ link h' t', dictionaryPut linkClass t.ledger.object k x h = .ok link h' ∧
      t'.ledger = t.ledger.note k x ∧ h'.Shelves (ts ++ t' :: us) ∧
      (∀ u ∈ ts ++ us, h.Alike h' u.ledger) ∧
      h'.dictionaryLink t.ledger.object k = .ok (some link) ∧
      ∀ old, h.dictionaryLink t.ledger.object k = .ok (some old) →
        link = old ∧ ∀ id, h'.used id = h.used id) ∨
    ∃ arena requested h', dictionaryPut linkClass t.ledger.object k x h =
        .error (.failure (.exhausted arena requested (h.used arena) h.capacity)) h' ∧
      h'.Shelves (ts ++ t :: us) ∧ ∀ u ∈ ts ++ t :: us, h.Alike h' u.ledger := by
  have hput := (hs.files t (by simp)).put hs.whole hclass hk hx
  cases hr : dictionaryPut linkClass t.ledger.object k x h with
  | ok link h' =>
    rw [hr] at hput
    cases hput with
    | @done t' _ _ hnote hfiles hext hparts hlink hreuse =>
      obtain ⟨hs', halike⟩ := hs.put hfiles hext hparts
      exact .inl ⟨link, h', t', rfl, hnote, hs', halike, hlink, hreuse⟩
  | error stop h' =>
    rw [hr] at hput
    cases hput with
    | refused hext =>
      exact .inr ⟨_, _, h', rfl, hs.extended hext, fun u hu => hs.alike_of_extended hext hu⟩

end Shelves

end Heap

namespace Ledger

open Heap

def Kept (s : Shelf) : Prop := ∃ filings, filings.map Filing.ledger = s.2 ∧ s.1.Shelves filings

theorem newDictionary_refused {h h' : Heap} {isa : Value} {count : Nat} {cause : HeapError}
    (heq : newDictionary isa count h = .error (.failure cause) h') :
    allocatePointers isa (Slot.Dictionary.buckets + count) h = .error (.failure cause) h' := by
  cases hnew : allocatePointers isa (Slot.Dictionary.buckets + count) h with
  | error stop h₁ => rwa [newDictionary, bind_of_eq_error hnew] at heq
  | ok d h₁ =>
    -- A write cannot be refused.
    rw [newDictionary, bind_of_eq_ok hnew] at heq
    exact absurd heq ((setSlot_unfailing d _ _).bind (fun _ => .pure d) h₁ cause h')

theorem Step.kept {s s' : Shelf} (step : Step s s') (hs : Kept s) : Kept s' := by
  obtain ⟨filings, hshelf, hs⟩ := hs
  cases step with
  | create hisa heq hsize hslots =>
    subst hshelf
    exact ⟨_, rfl, hs.create hisa heq hsize hslots⟩
  | @createRefused _ _ _ _ count _ hisa heq =>
    have hallots := hs.whole.allots_pointers hisa (Slot.Dictionary.buckets + count)
    rw [newDictionary_refused heq] at hallots
    exact ⟨filings, hshelf, hs.extended hallots.1⟩
  | @put h h' before after g linkClass k x link hclass hk hx heq =>
    obtain ⟨ts, us, rfl, rfl, hus⟩ := List.map_eq_append_iff.mp hshelf
    obtain ⟨t, us, rfl, rfl, rfl⟩ := List.map_eq_cons_iff.mp hus
    obtain ⟨link', h₁, t', heq', hnote, hs', -⟩ | ⟨arena, requested, h₁, heq', -⟩ :=
      hs.puts_among hclass hk hx
    · rw [heq'] at heq
      cases heq
      exact ⟨ts ++ t' :: us, by simp [hnote], hs'⟩
    · rw [heq'] at heq
      cases heq
  | @putRefused h h' shelf g linkClass k x cause hg hclass hk hx heq =>
    subst hshelf
    obtain ⟨t, ht, rfl⟩ := List.mem_map.mp hg
    obtain ⟨ts, us, rfl⟩ := List.append_of_mem ht
    obtain ⟨link', h₁, t', heq', -⟩ | ⟨arena, requested, h₁, heq', hs', -⟩ :=
      hs.puts_among hclass hk hx
    · rw [heq'] at heq
      cases heq
    · rw [heq'] at heq
      cases heq
      exact ⟨_, rfl, hs'⟩
  | @pointers h h' shelf isa count hisa hleft =>
    have hallots := hs.whole.allots_pointers hisa count
    generalize allocatePointers isa count h = r at hallots hleft
    cases hleft with
    | ok => exact ⟨filings, hshelf, hs.extended hallots.1⟩
    | refused => exact ⟨filings, hshelf, hs.extended hallots.1⟩
  | @bytes h h' shelf isa content hisa hleft =>
    have hends := hs.whole.allocateBytes_ends hisa content
    generalize allocateBytes isa content h = r at hends hleft
    cases hleft with
    | ok => exact ⟨filings, hshelf, hs.extended hends⟩
    | refused => exact ⟨filings, hshelf, hs.extended hends⟩
  | @collect h h' shelf roots roots' r f hroots hreach heq moved =>
    subst hshelf
    obtain ⟨h₁, roots₁, live, heq', whole', -⟩ := hs.whole.collect hroots
    rw [heq'] at heq
    cases heq
    refine ⟨filings.map (Filing.relocate f), by simp [Filing.relocate], hs.moved moved whole' ?_⟩
    intro t ht
    obtain ⟨loc, hloc, hr⟩ := hreach _ (List.mem_map_of_mem ht)
    refine ⟨(hs.files t ht).sane, fun loc' hloc' => ?_⟩
    rwa [Option.some.inj (hloc'.symm.trans hloc)]

theorem kept_of_steps {h₀ : Heap} {s : Shelf} (whole : h₀.Whole)
    (run : Relation.ReflTransGen Step (h₀, []) s) : Kept s := by
  induction run with
  | refl => exact ⟨[], rfl, whole, nofun, .nil⟩
  | tail _ step ih => exact step.kept ih

/-- Dictionaries are finite maps. However dictionaries are made, filled and moved by collections
that keep them, each of them answers by the record of what was put into it. A put delivers, in which
case no other dictionary differs and a key that was there keeps its link; or it is refused for want
of room, and then nothing differs at all. -/
theorem dictionaries_refine_maps {h₀ h : Heap} {shelf : List Ledger} (whole : h₀.Whole)
    (run : Relation.ReflTransGen Step (h₀, []) (h, shelf)) :
    (∀ g ∈ shelf, h.Answers g) ∧
    ∀ before g after, shelf = before ++ g :: after → ∀ linkClass k x, h.arenas.Sane linkClass →
      h.arenas.Sane k → h.arenas.Sane x →
      (∃ link h', dictionaryPut linkClass g.object k x h = .ok link h' ∧
        h'.Answers (g.note k x) ∧ (∀ g' ∈ before ++ after, h'.Answers g' ∧ h.Alike h' g') ∧
        h'.dictionaryLink g.object k = .ok (some link) ∧
        ∀ old, h.dictionaryLink g.object k = .ok (some old) →
          link = old ∧ ∀ id, h'.used id = h.used id) ∨
      ∃ arena requested h', dictionaryPut linkClass g.object k x h =
          .error (.failure (.exhausted arena requested (h.used arena) h.capacity)) h' ∧
        ∀ g' ∈ shelf, h'.Answers g' ∧ h.Alike h' g' := by
  obtain ⟨filings, rfl, hs⟩ := kept_of_steps whole run
  have hanswers : ∀ {h' : Heap} {ts : List Filing}, h'.Shelves ts → ∀ t ∈ ts, h'.Answers t.ledger :=
    fun hs' t ht => (hs'.files t ht).answers hs'.whole
  refine ⟨List.forall_mem_map.mpr (hanswers hs), ?_⟩
  intro before g after hshelf linkClass k x hclass hk hx
  obtain ⟨ts, us, rfl, rfl, hus⟩ := List.map_eq_append_iff.mp hshelf
  obtain ⟨t, us, rfl, rfl, rfl⟩ := List.map_eq_cons_iff.mp hus
  obtain ⟨link, h', t', heq, hnote, hs', halike, hlink, hreuse⟩ |
    ⟨arena, requested, h', heq, hs', halike⟩ := hs.puts_among hclass hk hx
  · refine .inl ⟨link, h', heq, hnote ▸ hanswers hs' t' (by simp), ?_, hlink, hreuse⟩
    rw [← List.map_append]
    refine List.forall_mem_map.mpr fun u hu => ⟨hanswers hs' u ?_, halike u hu⟩
    simp only [List.mem_append, List.mem_cons] at hu ⊢
    tauto
  · exact .inr ⟨arena, requested, h', heq,
      List.forall_mem_map.mpr fun u hu => ⟨hanswers hs' u hu, halike u hu⟩⟩

def desk (pointers : Array UInt64) (nextHash : Nat) (stats : HeapStats) : Heap :=
  ⟨{ pointers, leaf := #[0, 2] }, 64, 48, nextHash, stats⟩

/-- A dictionary of two buckets, in which 8 replaced 7 under the key 5. -/
abbrev filledDesk : Heap :=
  desk #[0, 2, 0, 0x300000004, 9, 0, 112, 0, 0x300000008, 41, 65, 0] 3
    { objects := 2, words := 10 }

theorem desk_steps : Relation.ReflTransGen Step (desk #[0, 2] 1 {}, [])
    (filledDesk, [⟨⟨32⟩, [(.ofNat 5, .ofNat 8), (.ofNat 5, .ofNat 7)]⟩]) := by
  have hsane : ∀ {a : Arenas} {n : Nat}, a.Sane (.ofNat n) := fun {_ _} => .inr (.inl (by simp))
  have hcreate : Step (desk #[0, 2] 1 {}, []) (desk #[0, 2, 0, 0x300000004, 1, 0, 0] 2
      { objects := 1, words := 5 }, [⟨⟨32⟩, []⟩]) :=
    @Step.create _ _ [] .nil _ 2 3 (Arenas.sane_nil _) rfl rfl (by decide)
  have hput : Step (desk #[0, 2, 0, 0x300000004, 1, 0, 0] 2 { objects := 1, words := 5 },
      [⟨⟨32⟩, []⟩]) (desk #[0, 2, 0, 0x300000004, 9, 0, 112, 0, 0x300000008, 41, 57, 0] 3
      { objects := 2, words := 10 }, [⟨⟨32⟩, [(.ofNat 5, .ofNat 7)]⟩]) :=
    @Step.put _ _ [] [] ⟨⟨32⟩, _⟩ .nil _ _ ⟨112⟩ (Arenas.sane_nil _) hsane hsane rfl
  have hreplace : Step (desk #[0, 2, 0, 0x300000004, 9, 0, 112, 0, 0x300000008, 41, 57, 0] 3
      { objects := 2, words := 10 }, [⟨⟨32⟩, [(.ofNat 5, .ofNat 7)]⟩])
      (filledDesk, [⟨⟨32⟩, [(.ofNat 5, .ofNat 8), (.ofNat 5, .ofNat 7)]⟩]) :=
    @Step.put _ _ [] [] ⟨⟨32⟩, _⟩ .nil _ _ ⟨112⟩ (Arenas.sane_nil _) hsane hsane rfl
  exact ((Relation.ReflTransGen.single hcreate).tail hput).tail hreplace

theorem desk_whole : (desk #[0, 2] 1 {}).Whole := empty_whole (by decide) (by decide)

/-- The dictionary is kept by a collection, and the key is found wherever it moved to. -/
theorem dictionaries_refine_maps_desk :
    (desk #[0, 2] 1 {}).Whole ∧ ∃ h f,
      Relation.ReflTransGen Step (desk #[0, 2] 1 {}, [])
        (h, [Ledger.relocate f ⟨⟨32⟩, [(.ofNat 5, .ofNat 8), (.ofNat 5, .ofNat 7)]⟩]) ∧
      h.dictionaryAt ((⟨32⟩ : Value).relocate f) (.ofNat 5) = .ok (some (.ofNat 8)) ∧
      h.dictionarySize ((⟨32⟩ : Value).relocate f) = .ok 1 := by
  obtain ⟨filings, hshelf, hs⟩ := kept_of_steps desk_whole desk_steps
  obtain ⟨t, rest, rfl, hledger, -⟩ := List.map_eq_cons_iff.mp hshelf
  have hroots : ∀ v ∈ [(⟨32⟩ : Value)], filledDesk.arenas.Sane v := by
    have hobject := (hs.files t List.mem_cons_self).sane
    rw [hledger] at hobject
    simpa using hobject
  obtain ⟨h, roots, live, f, heq, moved, -⟩ :=
    collect_isomorphic hs.whole.sound hs.whole.closed hroots
  have hkept : ∀ g ∈ [(⟨⟨32⟩, [(.ofNat 5, .ofNat 8), (.ofNat 5, .ofNat 7)]⟩ : Ledger)], ∃ loc,
      g.object.address? = some loc ∧ filledDesk.arenas.Reachable [⟨32⟩] loc := by
    intro g hg
    obtain rfl := List.mem_singleton.mp hg
    exact ⟨⟨.pointers, 2⟩, rfl, .root List.mem_cons_self rfl⟩
  have hcollect := Step.collect hroots hkept heq moved
  have hsteps := desk_steps.tail hcollect
  have hanswers := (dictionaries_refine_maps desk_whole hsteps).1 _ List.mem_cons_self
  refine ⟨desk_whole, h, f, hsteps, ?_, ?_⟩
  · have := hanswers.at_key (.ofNat 5) (.inr (.inl (by simp)))
    simpa [Ledger.relocate, Value.relocate_ofNat] using this
  · have := hanswers.size
    simpa [Ledger.relocate, Value.relocate_ofNat] using this

end Ledger

end ObjectMachine
