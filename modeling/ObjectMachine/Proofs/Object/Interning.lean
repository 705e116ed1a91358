import Mathlib.Data.List.Dedup
import Mathlib.Data.List.Perm.Basic
import ObjectMachine.Image.Basic
import ObjectMachine.Proofs.Object.Shelving
import ObjectMachine.Proofs.Object.Stability

namespace ObjectMachine

theorem Text.toBytes_injective {name name' : String} (heq : toBytes name = toBytes name') :
    name = name' :=
  String.toByteArray_inj.mp (ByteArray.ext heq)

namespace SymbolTable

variable {t : SymbolTable} {name : String} {v : Value}

theorem lookup_insert (t : SymbolTable) (name name' : String) (v : Value) :
    (t.insert name v).lookup name' = if name = name' then some v else t.lookup name' := by
  rw [lookup, insert, Std.HashMap.getElem?_insert]
  simp only [beq_iff_eq]
  rfl

/-- Symbols that moved are found under the same names. -/
theorem lookup_withRoots (t : SymbolTable) (move : Value → Value) (name : String) :
    (t.withRoots (t.roots.map move)).lookup name = (t.lookup name).map move := by
  have hentries : t.symbols.toList.zipWith (fun e v => (e.1, v)) (t.roots.map move) =
      t.symbols.toList.map fun e => (e.1, move e.2) := by
    rw [roots, List.map_map, List.zipWith_map_right, List.zipWith_self]
    rfl
  rw [lookup, withRoots, hentries]
  cases hname : t.lookup name with
  | none =>
    refine Std.HashMap.getElem?_ofList_of_contains_eq_false ?_
    rw [List.map_map, Bool.eq_false_iff, Ne, List.contains_iff_mem]
    intro hmem
    obtain ⟨⟨_, v⟩, hentry, rfl⟩ := List.mem_map.mp hmem
    have hfound := Std.HashMap.mem_toList_iff_getElem?_eq_some.mp hentry
    cases hname.symm.trans hfound
  | some v =>
    have hmem : (name, v) ∈ t.symbols.toList :=
      Std.HashMap.mem_toList_iff_getElem?_eq_some.mpr hname
    refine Std.HashMap.getElem?_ofList_of_mem BEq.rfl ?_
      (List.mem_map_of_mem (f := fun e : String × Value => (e.1, move e.2)) hmem)
    exact List.pairwise_map.mpr Std.HashMap.distinct_keys_toList

theorem intern_of_some (hname : t.lookup name = some v) (isa : Value) (h : Heap) :
    t.intern isa name h = .ok (v, t) h := by
  rw [intern, hname]
  rfl

theorem intern_of_none (hname : t.lookup name = none) (isa : Value) (h : Heap) :
    t.intern isa name h =
      match Heap.allocateBytes isa (Text.toBytes name) h with
      | .ok symbol h' => .ok (symbol, t.insert name symbol) h'
      | .error e h' => .error e h' := by
  rw [intern, hname]
  cases hnew : Heap.allocateBytes isa (Text.toBytes name) h with
  | ok symbol h' => exact bind_of_eq_ok hnew
  | error e h' => exact bind_of_eq_error hnew

theorem length_roots (t : SymbolTable) : t.roots.length = t.size := by simp [roots, size]

/-- The size of a table is the number of its names. -/
theorem size_eq {names : List String} (hnames : ∀ name, (t.lookup name).isSome ↔ name ∈ names) :
    t.size = names.dedup.length := by
  rw [size, ← Std.HashMap.length_keys]
  refine ((List.perm_ext_iff_of_nodup Std.HashMap.nodup_keys names.nodup_dedup).mpr ?_).length_eq
  intro name
  rw [List.mem_dedup, ← hnames, Std.HashMap.mem_keys, Std.HashMap.mem_iff_isSome_getElem?]
  rfl

end SymbolTable

namespace Heap

/-- What names are made of stays: headers and bytes. -/
structure Quiet (h h' : Heap) : Prop where
  whole : h'.Whole
  grows : Grows h h'
  header : ∀ {v}, h.arenas.Sane v → h'.header v = h.header v
  spells : ∀ {v content}, h.Spells v content → h'.Spells v content

variable {h h' : Heap}

theorem Extends.quiet {written : Cell → Prop} (he : Extends written h h')
    (spells : ∀ {v content}, h.Spells v content → h'.Spells v content) : Quiet h h' :=
  ⟨he.whole, he.grows, he.header, spells⟩

theorem Rewrites.quiet {c : Cell} {x : Value} (hr : Rewrites h h' c x) : Quiet h h' :=
  ⟨hr.whole, hr.grows, hr.header, hr.spells⟩

/-- Bytes stay where they are, whether or not there is room for another object. -/
theorem allocate_spells (h : Heap) (id : ArenaId) (isa : Value) (kind : ObjectKind) (size : UInt32)
    {fill : Array UInt64 → Array UInt64} {payload : Array UInt64}
    (hfill : ∀ s, fill s = s ++ payload) :
    Action.Ends (fun h' => ∀ {v content}, h.Spells v content → h'.Spells v content)
      (allocate id isa kind size fill h) := by
  rcases h.allocate_cases id isa kind size hfill with herr | ⟨-, hok⟩
  · rw [herr]
    intro v content hs
    exact hs
  · rw [hok]
    intro v content hs
    cases id with
    | pointers => exact hs.grow #[] (by rw [Array.append_empty]; rfl)
    | leaf => exact hs.grow _ rfl

theorem Allots.ends {r : EStateM.Result (Stop HeapError) Heap Value} (hr : h.Allots r) :
    Action.Ends (Extends (fun _ => False) h) r := by
  match r, hr with
  | .ok _ _, hr => exact hr.1
  | .error (.failure _) _, hr => exact hr.1

theorem Whole.allocatePointers_quiet (whole : h.Whole) {isa : Value} (hisa : h.arenas.Sane isa)
    (count : Nat) : Action.Ends (Quiet h) (allocatePointers isa count h) := by
  have hspells := h.allocate_spells .pointers isa .pointers count.toUInt32
    (fun s => pushZeros_eq s count.toUInt32.toNat)
  exact ((whole.allots_pointers hisa count).ends.and hspells).mono fun _ hq => hq.1.quiet hq.2

theorem Whole.allocateBytes_quiet (whole : h.Whole) {isa : Value} (hisa : h.arenas.Sane isa)
    (content : Array UInt8) : Action.Ends (Quiet h) (allocateBytes isa content h) := by
  have hspells := h.allocate_spells .leaf isa .bytes content.size.toUInt32
    (fun s => pushPacked_eq content s 0 ((content.size.toUInt32.toNat + 7) / 8))
  have hspells' : Action.Ends (fun h' => ∀ {v content}, h.Spells v content → h'.Spells v content)
      (allocateBytes isa content h) := by
    refine hspells.andThen fun object h' hs => ?_
    split
    · exact hs
    · trivial
  exact ((whole.allocateBytes_ends hisa content).and hspells').mono fun _ hq => hq.1.quiet hq.2

/-- Bytes that are not too many are allocated, or there is no room for them. -/
theorem Whole.allots_bytes (whole : h.Whole) {isa : Value} (hisa : h.arenas.Sane isa)
    {content : Array UInt8} (small : content.size < 0x100000000) :
    h.Allots (allocateBytes isa content h) := by
  rw [allocateBytes]
  simp only [if_pos small, bind_pure]
  exact whole.allots .leaf hisa content.size.toUInt32 (fun s => pushPacked_eq content s 0 _)
    (fun _ => by simp [Header.payloadWords, ArenaId.objectKind]) (by rintro ⟨⟩)

end Heap

/-- A memory and the symbols in it, with a record of the names that were interned and the identity
hash that the symbol of each had then. -/
structure Glossary where
  heap : Heap
  table : SymbolTable
  record : List (String × Nat)

namespace Glossary

/-- What a program does with symbols, and what it does beside them. The table is among the roots of
every collection. -/
inductive Step : Glossary → Glossary → Prop where
  | intern {g : Glossary} {h' : Heap} {t' : SymbolTable} {isa v : Value} {name : String}
    {hash : Nat} : g.heap.arenas.Sane isa → g.table.intern isa name g.heap = .ok (v, t') h' →
    h'.identityHash v = .ok hash → Step g ⟨h', t', g.record ++ [(name, hash)]⟩
  | refused {g : Glossary} {h' : Heap} {isa : Value} {name : String} {cause : HeapError} :
    g.heap.arenas.Sane isa → g.table.intern isa name g.heap = .error (.failure cause) h' →
    Step g { g with heap := h' }
  | pointers {g : Glossary} {h' : Heap} {isa : Value} {count : Nat} : g.heap.arenas.Sane isa →
    Heap.Left (Heap.allocatePointers isa count g.heap) h' → Step g { g with heap := h' }
  | bytes {g : Glossary} {h' : Heap} {isa : Value} {content : Array UInt8} :
    g.heap.arenas.Sane isa → Heap.Left (Heap.allocateBytes isa content g.heap) h' →
    Step g { g with heap := h' }
  | write {g : Glossary} {h' : Heap} {v x : Value} {i : Nat} : g.heap.arenas.Sane v →
    g.heap.arenas.Sane x → Heap.setSlot v i x (ε := HeapError) g.heap = .ok () h' →
    Step g { g with heap := h' }
  | collect {g : Glossary} {h' : Heap} {others roots : List Value}
    {r : Except HeapError Collection} : (∀ v ∈ others, g.heap.arenas.Sane v) →
    g.heap.collect (g.table.roots ++ others) = .ok (h', roots, r) →
    Step g { g with heap := h', table := g.table.withRoots (roots.take g.table.size) }

structure Denotes (h : Heap) (record : List (String × Nat)) (name : String) (v : Value) : Prop where
  sane : h.arenas.Sane v
  spells : h.Spells v (Text.toBytes name)
  hash : ∃ hash, record.lookup name = some hash ∧ h.identityHash v = .ok hash

structure Kept (g : Glossary) : Prop where
  whole : g.heap.Whole
  names : ∀ name, (g.table.lookup name).isSome ↔ name ∈ g.record.map Prod.fst
  symbol : ∀ {name v}, g.table.lookup name = some v → Denotes g.heap g.record name v

variable {g g' : Glossary} {h' : Heap} {name : String} {v : Value}

theorem Denotes.quiet {h : Heap} {record : List (String × Nat)} (hd : Denotes h record name v)
    (hq : h.Quiet h') : Denotes h' record name v where
  sane := hq.grows _ hd.sane
  spells := hq.spells hd.spells
  hash := by
    obtain ⟨hash, hrecord, hhash⟩ := hd.hash
    refine ⟨hash, hrecord, ?_⟩
    rw [Heap.identityHash, hq.header hd.sane]
    exact hhash

/-- A name that was recorded before keeps its first entry. -/
theorem Denotes.append {h : Heap} {record : List (String × Nat)} (hd : Denotes h record name v)
    (more : List (String × Nat)) : Denotes h (record ++ more) name v where
  sane := hd.sane
  spells := hd.spells
  hash := by
    obtain ⟨hash, hrecord, hhash⟩ := hd.hash
    exact ⟨hash, by rw [List.lookup_append, hrecord, Option.some_or], hhash⟩

theorem Denotes.moved {h : Heap} {record : List (String × Nat)} (hd : Denotes h record name v)
    {roots : List Value} {f : Address → Address} (moved : Heap.Moved h h' roots f) (whole : h.Whole)
    (whole' : h'.Whole) (hv : v ∈ roots) : Denotes h' record name (v.relocate f) := by
  have htaken : h.Taken roots v := ⟨hd.sane, fun _ hloc => .root hv hloc⟩
  obtain ⟨hash, hrecord, hhash⟩ := hd.hash
  refine ⟨?_, moved.spells whole'.sound htaken hd.spells, hash, hrecord, ?_⟩
  · exact (moved.follows whole'.sound (W := fun _ _ => False)).sane hd.sane ⟨rfl, htaken.2⟩
  · exact (moved.identityHash whole whole'.sound htaken).trans hhash

theorem Kept.quiet (hk : g.Kept) (hq : g.heap.Quiet h') : Kept { g with heap := h' } :=
  ⟨hq.whole, hk.names, fun hv => (hk.symbol hv).quiet hq⟩

theorem Kept.left {r : EStateM.Result (Stop HeapError) Heap Value} (hk : g.Kept)
    (hr : Action.Ends g.heap.Quiet r) (hleft : Heap.Left r h') : Kept { g with heap := h' } := by
  cases hleft with
  | ok => exact hk.quiet hr
  | refused => exact hk.quiet hr

/-- A collection takes the symbols along. -/
theorem Kept.collect (hk : g.Kept) {others roots : List Value} {r : Except HeapError Collection}
    (hothers : ∀ v ∈ others, g.heap.arenas.Sane v)
    (heq : g.heap.collect (g.table.roots ++ others) = .ok (h', roots, r)) :
    Kept { g with heap := h', table := g.table.withRoots (roots.take g.table.size) } := by
  have hroots : ∀ v ∈ g.table.roots ++ others, g.heap.arenas.Sane v := by
    intro v hv
    rcases List.mem_append.mp hv with hv | hv
    · obtain ⟨name, hname⟩ := SymbolTable.mem_roots_iff.mp hv
      exact (hk.symbol hname).sane
    · exact hothers v hv
  obtain ⟨h₁, roots₁, live, f, hcollect, moved, rfl⟩ :=
    Heap.collect_isomorphic hk.whole.sound hk.whole.closed hroots
  obtain ⟨_, _, _, hcollect', whole', -⟩ := hk.whole.collect hroots
  rw [hcollect] at hcollect' heq
  cases hcollect'
  cases heq
  have htable : ((g.table.roots ++ others).map (Value.relocate f)).take g.table.size =
      g.table.roots.map (Value.relocate f) := by
    rw [List.map_append, ← g.table.length_roots, List.take_left' (List.length_map _)]
  rw [htable]
  refine ⟨whole', fun name => ?_, fun {name v'} hv' => ?_⟩
  · rw [← hk.names, SymbolTable.lookup_withRoots, Option.isSome_map]
  · rw [SymbolTable.lookup_withRoots] at hv'
    obtain ⟨v, hv, rfl⟩ := Option.map_eq_some_iff.mp hv'
    have hmem := List.mem_append_left others (SymbolTable.mem_roots_iff.mpr ⟨name, hv⟩)
    exact (hk.symbol hv).moved moved hk.whole whole' hmem

theorem Kept.intern (hk : g.Kept) {isa : Value} {t' : SymbolTable} {hash : Nat}
    (hisa : g.heap.arenas.Sane isa) (heq : g.table.intern isa name g.heap = .ok (v, t') h')
    (hhash : h'.identityHash v = .ok hash) : Kept ⟨h', t', g.record ++ [(name, hash)]⟩ := by
  cases hlookup : g.table.lookup name with
  | some symbol =>
    rw [SymbolTable.intern_of_some hlookup] at heq
    cases heq
    refine ⟨hk.whole, fun other => ?_, fun hv => (hk.symbol hv).append _⟩
    have hname := (hk.names name).mp (Option.isSome_iff_exists.mpr ⟨_, hlookup⟩)
    rw [hk.names, List.map_append, List.mem_append]
    refine ⟨.inl, fun hmem => hmem.elim id fun hmem => ?_⟩
    obtain rfl := List.mem_singleton.mp hmem
    exact hname
  | none =>
    rw [SymbolTable.intern_of_none hlookup] at heq
    split at heq <;> cases heq
    rename_i hnew
    have hquiet := hk.whole.allocateBytes_quiet hisa (Text.toBytes name)
    obtain ⟨-, hspells, hsmall, -⟩ := Heap.allocateBytes_spells hk.whole.sound hnew
    have hallots := hk.whole.allots_bytes hisa hsmall
    rw [hnew] at hquiet hallots
    have hunknown : name ∉ g.record.map Prod.fst := by
      rw [← hk.names, hlookup]
      exact Bool.false_ne_true
    refine ⟨hquiet.whole, fun other => ?_, fun {other v} hv => ?_⟩
    · rw [SymbolTable.lookup_insert, List.map_append, List.mem_append, ← hk.names]
      split
      case isTrue hsame => simp [hsame]
      case isFalse hdiffers => simp [Ne.symm hdiffers]
    · rw [SymbolTable.lookup_insert] at hv
      split at hv
      case isTrue hsame =>
        obtain rfl := Option.some.inj hv
        subst hsame
        refine ⟨hallots.2.1, hspells, hash, ?_, hhash⟩
        have hnone : g.record.lookup name = none := by
          rw [List.lookup_eq_none_iff]
          intro p hp
          rw [bne_iff_ne]
          rintro rfl
          exact hunknown (List.mem_map_of_mem hp)
        simp [List.lookup_append, hnone]
      case isFalse => exact ((hk.symbol hv).quiet hquiet).append _

theorem Step.kept (step : Step g g') (hk : g.Kept) : g'.Kept := by
  cases step with
  | intern hisa heq hhash => exact hk.intern hisa heq hhash
  | @refused h' isa name cause hisa heq =>
    cases hlookup : g.table.lookup name with
    | some symbol =>
      rw [SymbolTable.intern_of_some hlookup] at heq
      cases heq
    | none =>
      rw [SymbolTable.intern_of_none hlookup] at heq
      split at heq <;> cases heq
      rename_i hnew
      have hquiet := hk.whole.allocateBytes_quiet hisa (Text.toBytes name)
      rw [hnew] at hquiet
      exact hk.quiet hquiet
  | pointers hisa hleft => exact hk.left (hk.whole.allocatePointers_quiet hisa _) hleft
  | bytes hisa hleft => exact hk.left (hk.whole.allocateBytes_quiet hisa _) hleft
  | write hv hx heq => exact hk.quiet (hk.whole.rewrites hv hx heq).quiet
  | collect hothers heq => exact hk.collect hothers heq

theorem kept_of_steps {h₀ : Heap} (whole : h₀.Whole)
    (run : Relation.ReflTransGen Step ⟨h₀, {}, []⟩ g) : g.Kept := by
  induction run with
  | refl =>
    have hnone : ∀ name, ({} : SymbolTable).lookup name = none := fun _ =>
      Std.HashMap.getElem?_empty
    exact ⟨whole, fun name => by simp [hnone], fun hv => nomatch (hnone _).symm.trans hv⟩
  | tail _ step ih => exact step.kept ih

/-- Two names have the same symbol only if they are the same. -/
theorem Kept.injective (hk : g.Kept) {name' : String} (hv : g.table.lookup name = some v)
    (hv' : g.table.lookup name' = some v) : name = name' := by
  have hbytes := (hk.symbol hv).spells.2
  have hbytes' := (hk.symbol hv').spells.2
  exact Text.toBytes_injective (Except.ok.inj (hbytes.symm.trans hbytes'))

/-- How interning a name may end. -/
theorem Kept.interns (hk : g.Kept) {isa : Value} (hisa : g.heap.arenas.Sane isa)
    (small : (Text.toBytes name).size < 0x100000000) :
    (∃ v t' h' hash, g.table.intern isa name g.heap = .ok (v, t') h' ∧
      h'.identityHash v = .ok hash) ∨
    ∃ arena requested h', g.table.intern isa name g.heap = .error (.failure
      (.exhausted arena requested (g.heap.used arena) g.heap.capacity)) h' := by
  cases hlookup : g.table.lookup name with
  | some symbol =>
    obtain ⟨hash, -, hhash⟩ := (hk.symbol hlookup).hash
    exact .inl ⟨symbol, _, _, hash, SymbolTable.intern_of_some hlookup _ _, hhash⟩
  | none =>
    have hallots := hk.whole.allots_bytes hisa small
    rw [SymbolTable.intern_of_none hlookup]
    cases hnew : Heap.allocateBytes isa (Text.toBytes name) g.heap with
    | ok symbol h' =>
      rw [hnew] at hallots
      obtain ⟨hash, hhash⟩ := hallots.1.whole.exists_identityHash hallots.2.1
      exact .inl ⟨symbol, _, h', hash, rfl, hhash⟩
    | error e h' =>
      rw [hnew] at hallots
      cases e with
      | failure cause =>
        obtain ⟨-, arena, requested, rfl⟩ := hallots
        exact .inr ⟨arena, requested, h', rfl⟩
      | fault f => exact hallots.elim

end Glossary

namespace Image

theorem onHeap_apply {α : Type} (act : Action HeapError Heap α) (i : Image) :
    onHeap act i = match act i.heap with
      | .ok a heap => .ok a { i with heap }
      | .error e heap => .error (e.map .allocation) { i with heap } := rfl

theorem intern_eq (i : Image) (name : String) :
    intern name i = match i.symbols.intern (i.kernelClass .symbol) name i.heap with
      | .ok (symbol, symbols) heap => .ok symbol { i with heap, symbols }
      | .error e heap => .error (e.map .allocation) { i with heap } := by
  rw [intern, bind_of_eq_ok (rfl : EStateM.get i = .ok i i)]
  cases hlookup : i.symbols.lookup name with
  | some symbol =>
    rw [SymbolTable.intern_of_some hlookup]
    rfl
  | none =>
    have hon := onHeap_apply (Heap.allocateBytes (i.kernelClass .symbol) (Text.toBytes name)) i
    rw [SymbolTable.intern_of_none hlookup]
    cases hnew : Heap.allocateBytes (i.kernelClass .symbol) (Text.toBytes name) i.heap with
    | ok symbol heap =>
      rw [hnew] at hon
      exact bind_of_eq_ok hon
    | error e heap =>
      rw [hnew] at hon
      exact bind_of_eq_error hon

theorem intern_bind {β : Type} {i : Image} {name : String} {symbol : Value}
    {next : Value → ImageAction β} (h : i.symbols.lookup name = some symbol) :
    (intern name >>= next) i = next symbol i := by
  refine bind_of_eq_ok ?_
  rw [intern_eq, SymbolTable.intern_of_some h]

end Image

namespace Glossary

/-- Interning is injective and stable. However names are interned, other objects are allocated and
garbage is collected: two names that were interned have the same symbol exactly when they are equal,
and a symbol spells its name and has the identity hash that it was given first. The size of the
table is the number of different names that were interned. A further name is interned, or is refused
for want of room; then the table stays as it is, in an image as well. -/
theorem interning_injective_stable {h₀ : Heap} {g : Glossary} (whole : h₀.Whole)
    (run : Relation.ReflTransGen Step ⟨h₀, {}, []⟩ g) :
    (∀ a ∈ g.record.map Prod.fst, ∀ b ∈ g.record.map Prod.fst,
      g.table.lookup a = g.table.lookup b ↔ a = b) ∧
    (∀ name ∈ g.record.map Prod.fst, ∃ v hash, g.record.lookup name = some hash ∧
      g.table.lookup name = some v ∧
        (∀ isa, g.table.intern isa name g.heap = .ok (v, g.table) g.heap) ∧
      g.heap.bytes v = .ok (Text.toBytes name) ∧ g.heap.identityHash v = .ok hash) ∧
    (∀ name ∉ g.record.map Prod.fst, g.table.lookup name = none) ∧
    g.table.size = (g.record.map Prod.fst).dedup.length ∧
    (∀ isa name, g.heap.arenas.Sane isa → (Text.toBytes name).size < 0x100000000 →
      (∃ v t' h' hash, g.table.intern isa name g.heap = .ok (v, t') h' ∧
        Step g ⟨h', t', g.record ++ [(name, hash)]⟩) ∨
      ∃ arena requested h', g.table.intern isa name g.heap = .error (.failure
          (.exhausted arena requested (g.heap.used arena) g.heap.capacity)) h' ∧
        Step g { g with heap := h' }) ∧
    ∀ (i i' : Image) name cause, Image.intern name i = .error (.failure cause) i' →
      i'.symbols = i.symbols := by
  have hk := kept_of_steps whole run
  have hfound : ∀ {name}, name ∈ g.record.map Prod.fst → ∃ v, g.table.lookup name = some v :=
    fun hname => Option.isSome_iff_exists.mp ((hk.names _).mpr hname)
  refine ⟨fun a ha b hb => ⟨fun heq => ?_, congrArg _⟩, fun name hname => ?_, fun name hname => ?_,
    SymbolTable.size_eq hk.names, fun isa name hisa small => ?_, fun i i' name cause heq => ?_⟩
  · obtain ⟨v, hv⟩ := hfound ha
    exact hk.injective hv (heq ▸ hv)
  · obtain ⟨v, hv⟩ := hfound hname
    obtain ⟨hash, hrecord, hhash⟩ := (hk.symbol hv).hash
    exact ⟨v, hash, hrecord, hv, fun isa => SymbolTable.intern_of_some hv isa g.heap,
      (hk.symbol hv).spells.2, hhash⟩
  · rwa [← hk.names, Option.not_isSome_iff_eq_none] at hname
  · obtain ⟨v, t', h', hash, heq, hhash⟩ | ⟨arena, requested, h', heq⟩ := hk.interns hisa small
    · exact .inl ⟨v, t', h', hash, heq, .intern hisa heq hhash⟩
    · exact .inr ⟨arena, requested, h', heq, .refused hisa heq⟩
  · rw [Image.intern_eq] at heq
    split at heq
    · cases heq
    · obtain ⟨-, rfl⟩ := EStateM.Result.error.inj heq
      rfl

def jotter (leaf : Array UInt64) (nextHash : Nat) (stats : HeapStats) : Heap :=
  ⟨{ pointers := #[0, 2], leaf }, 8, 6, nextHash, stats⟩

theorem jotter_steps : Relation.ReflTransGen Step ⟨jotter #[0, 2] 1 {}, {}, []⟩
    ⟨jotter #[0, 2, 0, 0x100000005, 0x61, 0, 0x100000009, 0x62] 3 { objects := 2, words := 6 },
      (({} : SymbolTable).insert "a" ⟨40⟩).insert "b" ⟨88⟩, [("a", 1), ("b", 2)]⟩ := by
  have hnone : ({} : SymbolTable).lookup "a" = none := Std.HashMap.getElem?_empty
  have hnone' : (({} : SymbolTable).insert "a" ⟨40⟩).lookup "b" = none := by
    rw [SymbolTable.lookup_insert, if_neg (by decide)]
    exact Std.HashMap.getElem?_empty
  have hfirst : Step ⟨jotter #[0, 2] 1 {}, {}, []⟩ ⟨jotter #[0, 2, 0, 0x100000005, 0x61] 2
      { objects := 1, words := 3 }, ({} : SymbolTable).insert "a" ⟨40⟩, [("a", 1)]⟩ :=
    .intern (g := ⟨jotter #[0, 2] 1 {}, {}, []⟩) (Arenas.sane_nil _)
      (SymbolTable.intern_of_none hnone .nil _) rfl
  have hsecond : Step ⟨jotter #[0, 2, 0, 0x100000005, 0x61] 2 { objects := 1, words := 3 },
      ({} : SymbolTable).insert "a" ⟨40⟩, [("a", 1)]⟩
      ⟨jotter #[0, 2, 0, 0x100000005, 0x61, 0, 0x100000009, 0x62] 3 { objects := 2, words := 6 },
        (({} : SymbolTable).insert "a" ⟨40⟩).insert "b" ⟨88⟩, [("a", 1), ("b", 2)]⟩ :=
    .intern (Arenas.sane_nil _) (SymbolTable.intern_of_none hnone' .nil _) rfl
  exact (Relation.ReflTransGen.single hfirst).tail hsecond

/-- After a collection, the symbols differ as the names do, and they are the symbols that they
were. -/
theorem interning_injective_stable_jotter :
    (jotter #[0, 2] 1 {}).Whole ∧ ∃ g,
      Relation.ReflTransGen Step ⟨jotter #[0, 2] 1 {}, {}, []⟩ g ∧
      g.table.lookup "a" ≠ g.table.lookup "b" ∧ g.table.size = 2 ∧ ∃ v,
        g.table.lookup "b" = some v ∧ g.heap.bytes v = .ok #[0x62] ∧
        g.heap.identityHash v = .ok 2 := by
  have hwhole : (jotter #[0, 2] 1 {}).Whole := Heap.empty_whole (by decide) (by decide)
  have hk := kept_of_steps hwhole jotter_steps
  have hroots : ∀ v ∈ ((({} : SymbolTable).insert "a" ⟨40⟩).insert "b" ⟨88⟩).roots ++ [],
      (jotter #[0, 2, 0, 0x100000005, 0x61, 0, 0x100000009, 0x62] 3
        { objects := 2, words := 6 }).arenas.Sane v := by
    intro v hv
    rw [List.append_nil] at hv
    obtain ⟨name, hname⟩ := SymbolTable.mem_roots_iff.mp hv
    exact (hk.symbol hname).sane
  obtain ⟨h', roots, live, hcollect, -⟩ := hk.whole.collect hroots
  have hrun := jotter_steps.tail (.collect (List.forall_mem_nil _) hcollect)
  obtain ⟨hsame, hsymbols, -, hsize, -⟩ := interning_injective_stable hwhole hrun
  obtain ⟨v, hash, hrecord, hv, -, hbytes, hhash⟩ := hsymbols "b" (by simp)
  obtain rfl : 2 = hash := Option.some.inj hrecord
  refine ⟨hwhole, _, hrun, fun heq => ?_, hsize, v, hv, hbytes, hhash⟩
  exact absurd ((hsame "a" (by simp) "b" (by simp)).mp heq) (by decide)

end Glossary

end ObjectMachine
