import ObjectMachine.Proofs.Object.Dictionaries

namespace ObjectMachine

namespace Heap

variable {h h' : Heap} {isa d v : Value}

section Creating

/-- A new object has nil in all its slots. -/
theorem Whole.allocatePointers_ok {count : Nat} (whole : h.Whole) (hisa : h.arenas.Sane isa)
    (heq : allocatePointers isa count h = .ok v h') :
    Extends (fun _ => False) h h' ∧ ¬h.arenas.Sane v ∧
      h'.Shows v (List.replicate (count % 0x100000000) .nil) := by
  have hallots := whole.allots_pointers hisa count
  rw [heq] at hallots
  rw [← allocatePointers_mod] at heq
  obtain ⟨-, hshows, -⟩ :=
    allocatePointers_shows whole.sound (Nat.mod_lt _ (by decide)) heq
  exact ⟨hallots.1, hallots.2.2, hshows⟩

theorem newDictionary_files {count slots : Nat} (whole : h.Whole) (hisa : h.arenas.Sane isa)
    (heq : newDictionary isa count h = .ok d h') (hsize : h'.size d = .ok slots)
    (hslots : 1 < slots) :
    h'.Files ⟨⟨d, []⟩, List.replicate (slots - 1) []⟩ ∧ Extends (fun _ => False) h h' ∧
      ¬h.arenas.Sane d := by
  rw [newDictionary] at heq
  obtain ⟨v, h₁, hnew, heq⟩ := bind_eq_ok.mp heq
  obtain ⟨_, h₂, hset, heq⟩ := bind_eq_ok.mp heq
  obtain ⟨rfl, rfl⟩ := pure_eq_ok.mp heq
  obtain ⟨hext, hfresh, hshows⟩ := whole.allocatePointers_ok hisa hnew
  have hsane := hshows.sane hext.whole.sound
  have hr : Rewrites h₁ h₂ ⟨v, Slot.Dictionary.tally⟩ (.ofNat 0) :=
    hext.whole.rewrites hsane (.inr (.inl (by simp))) hset
  have hext' : Extends (fun c => c = ⟨v, Slot.Dictionary.tally⟩) h₁ h₂ := hr.extends rfl
  have hcount : (Slot.Dictionary.buckets + count) % 0x100000000 = slots := by
    have hsize₁ := hshows.size hext.whole.sound
    rw [← hext'.size hsane, hsize, List.length_replicate] at hsize₁
    exact (Except.ok.inj hsize₁).symm
  rw [hcount] at hshows
  have hentries : (Filing.mk ⟨v, []⟩ (List.replicate (slots - 1) [])).entries = [] := by
    simp [Filing.entries]
  refine ⟨?_, ((hext.mono fun _ _ h => h.elim).trans hext').mono fun c hc hw => ?_, hfresh⟩
  · refine ⟨?nonempty, hr.grows _ hsane, ?size, ?tally, ?chained, ?hashed, ?keys, ?distinct,
    ?latest⟩
    case nonempty => simp; omega
    case size => rw [hsize, List.length_replicate, Nat.sub_add_cancel (by omega)]
    case tally =>
      rw [hentries]
      exact hr.written
    case chained =>
      intro i es hes
      obtain ⟨hi, rfl⟩ := List.getElem?_eq_some_iff.mp hes
      simp only [List.length_replicate] at hi
      refine ⟨.nil, hr.others (by simp) (hshows.holds hext.whole ?_), by simpa using .nil⟩
      simp only [List.getElem?_replicate, Slot.Dictionary.buckets]
      rw [if_pos (by omega)]
    case hashed =>
      intro i es hes e he
      rw [List.getElem?_replicate] at hes
      simp_all
    case keys => simp [hentries]
    case distinct => simp [Filing.parts, hentries]
    case latest => simp [hentries]
  · subst hw
    exact hfresh hc

end Creating

section Putting

variable {t : Filing} {linkClass k x : Value}

/-- How a put may end: the dictionary has the new pair, and no other object was written to; or there
was no room for a link, and nothing was written at all. -/
inductive Puts (h : Heap) (t : Filing) (k x : Value) :
    EStateM.Result (Stop HeapError) Heap Value → Prop where
  | done {t' : Filing} {link : Value} {h' : Heap} : t'.ledger = t.ledger.note k x → h'.Files t' →
    Extends (fun c => c.object ∈ t.parts) h h' →
    (∀ v ∈ t'.parts, v ∈ t.parts ∨ ¬h.arenas.Sane v) →
    h'.dictionaryLink t.ledger.object k = .ok (some link) →
    (∀ old, h.dictionaryLink t.ledger.object k = .ok (some old) →
      link = old ∧ ∀ id, h'.used id = h.used id) →
    Puts h t k x (.ok link h')
  | refused {arena : ArenaId} {requested : Nat} {h' : Heap} : Extends (fun _ => False) h h' →
    Puts h t k x (.error (.failure (.exhausted arena requested (h.used arena) h.capacity)) h')

theorem Files.put_replaces (hf : h.Files t) (whole : h.Whole) (hx : h.arenas.Sane x) {e : Entry}
    (he : e ∈ t.entries) :
    h.Puts t e.key x (dictionaryPut linkClass t.ledger.object e.key x h) := by
  have hlink := hf.dictionaryLink_of_mem whole he
  obtain ⟨h', hset, hr⟩ := (hf.entry he).2.write whole hx (ε := HeapError)
  have hf' := hf.replace whole he hr
  have hput : dictionaryPut linkClass t.ledger.object e.key x h = .ok e.link h' :=
    query_bind_eq_ok.mpr ⟨some e.link, hlink, bind_eq_ok.mpr ⟨(), h', hset, rfl⟩⟩
  rw [hput]
  have hpart : e.link ∈ t.parts := List.mem_cons_of_mem _ (List.mem_map_of_mem he)
  refine .done rfl hf' (hr.extends hpart) (fun v hv => .inl ?_) ?_ fun old hold => ?_
  · rwa [Filing.parts_replace] at hv
  · have hentry : { e with value := x } ∈ (t.replace e.key x).entries := by
      rw [Filing.entries_replace]
      exact List.mem_map.mpr ⟨e, he, if_pos rfl⟩
    exact hf'.dictionaryLink_of_mem hr.whole (e := { e with value := x }) hentry
  · rw [hlink] at hold
    exact ⟨Option.some.inj (Except.ok.inj hold), fun id => (setSlot_eq_ok hset).2 id⟩

theorem Files.put_fills {link head : Value} {hash i : Nat} {es : List Entry} (hf : h.Files t)
    (whole : h.Whole) (hshows : h.Shows link (List.replicate Slot.Link.count .nil))
    (hlink : link ∉ t.parts) (hk : h.arenas.Sane k) (hx : h.arenas.Sane x)
    (hkeys : ∀ e ∈ t.entries, e.key ≠ k) (hhash : h.identityHash k = .ok hash)
    (hi : hash % t.chains.length = i) (hes : t.chains[i]? = some es)
    (hhead : h.Holds ⟨t.ledger.object, Slot.Dictionary.buckets + i⟩ head) :
    ∃ h₂ h₃ h₄ h₅ h₆,
      setSlot link Slot.Link.key k (ε := HeapError) h = .ok () h₂ ∧
      setSlot link Slot.Link.value x (ε := HeapError) h₂ = .ok () h₃ ∧
      h₃.slot t.ledger.object (Slot.Dictionary.buckets + i) = .ok head ∧
      setSlot link Slot.Link.next head (ε := HeapError) h₃ = .ok () h₄ ∧
      setSlot t.ledger.object (Slot.Dictionary.buckets + i) link (ε := HeapError) h₄ = .ok () h₅ ∧
      h₅.slot t.ledger.object Slot.Dictionary.tally = .ok (.ofNat t.entries.length) ∧
      setSlot t.ledger.object Slot.Dictionary.tally (.ofNat (t.entries.length + 1))
        (ε := HeapError) h₅ = .ok () h₆ ∧
      Extends (fun c => c.object = link ∨ c.object = t.ledger.object) h h₆ ∧
      h₆.Files (t.insert i es ⟨link, k, x⟩) := by
  have hd : t.ledger.object ≠ link := fun heq => hlink (heq ▸ List.mem_cons_self)
  have hslot : ∀ {j}, j < Slot.Link.count → h.Holds ⟨link, j⟩ .nil := fun hj =>
    hshows.holds whole (by rw [List.getElem?_replicate, if_pos hj])
  have hplaces : Slot.Dictionary.tally ≠ Slot.Dictionary.buckets + i := by
    simp only [Slot.Dictionary.tally, Slot.Dictionary.buckets]
    omega
  obtain ⟨h₂, hset₂, hr₂⟩ :=
    (hslot (j := Slot.Link.key) (by decide)).write whole hk (ε := HeapError)
  have hvalue₂ := hr₂.others (d := ⟨link, Slot.Link.value⟩) (by simp) (hslot (by decide))
  obtain ⟨h₃, hset₃, hr₃⟩ := hvalue₂.write hr₂.whole (hr₂.grows _ hx) (ε := HeapError)
  have hhead₃ := hr₃.others (by simp [hd]) (hr₂.others (by simp [hd]) hhead)
  have hnext₃ := hr₃.others (d := ⟨link, Slot.Link.next⟩) (by simp)
    (hr₂.others (by simp) (hslot (by decide)))
  obtain ⟨h₄, hset₄, hr₄⟩ :=
    hnext₃.write hr₃.whole (hhead₃.value_sane hr₃.whole) (ε := HeapError)
  have hhead₄ := hr₄.others (by simp [hd]) hhead₃
  obtain ⟨h₅, hset₅, hr₅⟩ := hhead₄.write hr₄.whole (hnext₃.sane |> hr₄.grows _) (ε := HeapError)
  have htally₅ := hr₅.others (by simp [hplaces]) (hr₄.others (by simp [hd])
    (hr₃.others (by simp [hd]) (hr₂.others (by simp [hd]) hf.tally)))
  obtain ⟨h₆, hset₆, hr₆⟩ := htally₅.write hr₅.whole
    (x := .ofNat (t.entries.length + 1)) (.inr (.inl (by simp))) (ε := HeapError)
  have hext : Extends (fun c => c.object = link ∨
      c = ⟨t.ledger.object, Slot.Dictionary.buckets + i⟩ ∨
      c = ⟨t.ledger.object, Slot.Dictionary.tally⟩) h h₆ :=
    (((hr₂.extends (.inl rfl)).trans (hr₃.extends (.inl rfl))).trans
      (hr₄.extends (.inl rfl))).trans ((hr₅.extends (.inr (.inl rfl))).trans
        (hr₆.extends (.inr (.inr rfl))))
  refine ⟨h₂, h₃, h₄, h₅, h₆, hset₂, hset₃, hhead₃.slot, hset₄, hset₅, htally₅.slot, hset₆,
    hext.mono ?_, ?_⟩
  · rintro c - (hc | rfl | rfl)
    · exact .inl hc
    · exact .inr rfl
    · exact .inr rfl
  · have hlater : ∀ {j y}, h₄.Holds ⟨link, j⟩ y → h₆.Holds ⟨link, j⟩ y := fun hold =>
      hr₆.others (by simp [hd.symm]) (hr₅.others (by simp [hd.symm]) hold)
    refine hf.insert whole hext hlink ((hext.identityHash hk).trans hhash) hi hes hkeys hhead
      (hlater ?_) (hlater ?_) (hlater hr₄.written) (hr₆.others (by simp) hr₅.written)
      hr₆.written
    · exact hr₄.others (by simp) (hr₃.others (by simp) hr₂.written)
    · exact hr₄.others (by simp) hr₃.written

theorem Files.put_inserts (hf : h.Files t) (whole : h.Whole) (hclass : h.arenas.Sane linkClass)
    (hk : h.arenas.Sane k) (hx : h.arenas.Sane x) (hkeys : ∀ e ∈ t.entries, e.key ≠ k) :
    h.Puts t k x (dictionaryPut linkClass t.ledger.object k x h) := by
  have hnone := hf.dictionaryLink_of_not_mem whole hk hkeys
  have hallots := whole.allots_pointers hclass Slot.Link.count
  cases hnew : allocatePointers linkClass Slot.Link.count h with
  | error stop h' =>
    rw [hnew] at hallots
    have hquery : (Action.query (·.dictionaryLink t.ledger.object k) :
        Action HeapError Heap (Option Value)) h = .ok none h := query_of_eq_ok hnone
    rw [dictionaryPut, bind_of_eq_ok hquery]
    simp only
    rw [bind_of_eq_error hnew]
    cases stop with
    | fault f => exact hallots.elim
    | failure cause =>
      obtain ⟨hext, arena, requested, rfl⟩ := hallots
      exact .refused hext
  | ok link h₁ =>
    obtain ⟨hext, hfresh, hshows⟩ := whole.allocatePointers_ok hclass hnew
    have hf₁ := hf.frame whole hext fun _ _ => id
    have hlink : link ∉ t.parts := fun hmem => hfresh (hf.part_sane hmem)
    have hk₁ := hext.grows _ hk
    obtain ⟨hash, es, head, hhash, hslot, hes, hhead, hc⟩ := hf₁.bucket hext.whole hk₁
    obtain ⟨h₂, h₃, h₄, h₅, h₆, hset₂, hset₃, hhead₃, hset₄, hset₅, htally₅, hset₆, hext', hf'⟩ :=
      hf₁.put_fills hext.whole hshows hlink hk₁ (hext.grows _ hx) hkeys hhash rfl hes hhead
    have hsmall := hf.length_small whole
    have hcount : (Value.ofInt? ((Value.ofNat t.entries.length).toInt?.getD 0 + 1)).getD .nil =
        .ofNat (t.entries.length + 1) := by
      rw [Value.toInt?_ofNat (by omega), Option.getD_some, ← Nat.cast_succ,
        Value.ofInt?_natCast (by omega), Option.getD_some]
    have hput : dictionaryPut linkClass t.ledger.object k x h = .ok link h₆ := by
      rw [dictionaryPut]
      refine query_bind_eq_ok.mpr ⟨none, hnone, bind_eq_ok.mpr ⟨link, h₁, hnew, ?_⟩⟩
      refine query_bind_eq_ok.mpr ⟨_, hslot, ?_⟩
      refine bind_eq_ok.mpr ⟨(), h₂, hset₂, bind_eq_ok.mpr ⟨(), h₃, hset₃, ?_⟩⟩
      refine query_bind_eq_ok.mpr ⟨head, hhead₃, ?_⟩
      refine bind_eq_ok.mpr ⟨(), h₄, hset₄, bind_eq_ok.mpr ⟨(), h₅, hset₅, ?_⟩⟩
      refine query_bind_eq_ok.mpr ⟨_, htally₅, bind_eq_ok.mpr ⟨(), h₆, ?_, rfl⟩⟩
      rw [hcount]
      exact hset₆
    have hparts := Filing.parts_insert hes ⟨link, k, x⟩
    rw [hput]
    refine .done rfl hf' (((hext.mono nofun).trans hext').mono ?_) (fun v hv => ?_) ?_
      fun old hold => ?_
    · rintro c hsane (hc | hc)
      · exact absurd (hc ▸ hsane) hfresh
      · exact hc ▸ List.mem_cons_self
    · rcases List.mem_cons.mp (hparts.mem_iff.mp hv) with rfl | hv
      · exact .inr hfresh
      · exact .inl hv
    · exact hf'.dictionaryLink_of_mem hext'.whole (e := ⟨link, k, x⟩)
        ((Filing.entries_insert hes ⟨link, k, x⟩).mem_iff.mpr List.mem_cons_self)
    · rw [hnone] at hold
      cases hold

theorem Files.put (hf : h.Files t) (whole : h.Whole) (hclass : h.arenas.Sane linkClass)
    (hk : h.arenas.Sane k) (hx : h.arenas.Sane x) :
    h.Puts t k x (dictionaryPut linkClass t.ledger.object k x h) := by
  by_cases hkey : ∃ e ∈ t.entries, e.key = k
  · obtain ⟨e, he, rfl⟩ := hkey
    exact hf.put_replaces whole hx he
  · exact hf.put_inserts whole hclass hk hx fun e he heq => hkey ⟨e, he, heq⟩

end Putting

end Heap

section Moving

def Ledger.relocate (f : Address → Address) (g : Ledger) : Ledger :=
  ⟨g.object.relocate f, g.puts.map fun p => (p.1.relocate f, p.2.relocate f)⟩

def Entry.relocate (f : Address → Address) (e : Entry) : Entry :=
  ⟨e.link.relocate f, e.key.relocate f, e.value.relocate f⟩

def Filing.relocate (f : Address → Address) (t : Filing) : Filing :=
  ⟨t.ledger.relocate f, t.chains.map (List.map (Entry.relocate f))⟩

theorem Filing.entries_relocate (f : Address → Address) (t : Filing) :
    (t.relocate f).entries = t.entries.map (Entry.relocate f) := by
  rw [entries, entries, relocate, List.map_flatten]

theorem Filing.keys_relocate (f : Address → Address) (t : Filing) :
    (t.relocate f).entries.map Entry.key = (t.entries.map Entry.key).map (Value.relocate f) := by
  rw [entries_relocate, List.map_map, List.map_map]
  rfl

theorem Filing.parts_relocate (f : Address → Address) (t : Filing) :
    (t.relocate f).parts = t.parts.map (Value.relocate f) := by
  rw [parts, parts, entries_relocate, List.map_map, List.map_cons, List.map_map]
  rfl

/-- Pairs are found by what their keys became, as long as different keys stay different. -/
theorem lookup_map {g : Value → Value} {puts : List (Value × Value)}
    (hinj : ∀ a ∈ puts.map Prod.fst, ∀ b ∈ puts.map Prod.fst, g a = g b → a = b) {k' v' : Value} :
    (puts.map fun p => (g p.1, g p.2)).lookup k' = some v' ↔
      ∃ k v, puts.lookup k = some v ∧ g k = k' ∧ g v = v' := by
  induction puts with
  | nil => simp
  | cons p puts ih =>
    obtain ⟨key, value⟩ := p
    have hrest := ih fun a ha b hb =>
      hinj a (List.mem_cons_of_mem _ ha) b (List.mem_cons_of_mem _ hb)
    have hmem : ∀ {k v}, puts.lookup k = some v → k ∈ puts.map Prod.fst := fun hk => by
      obtain ⟨pre, post, rfl, -⟩ := List.lookup_eq_some_iff.mp hk
      simp
    simp only [List.map_cons, lookup_cons_eq_some_iff, hrest]
    constructor
    · rintro (⟨rfl, rfl⟩ | ⟨hne, k, v, hk, rfl, rfl⟩)
      · exact ⟨key, value, .inl ⟨rfl, rfl⟩, rfl, rfl⟩
      · exact ⟨k, v, .inr ⟨fun heq => hne (heq ▸ rfl), hk⟩, rfl, rfl⟩
    · rintro ⟨k, v, ⟨rfl, rfl⟩ | ⟨hne, hk⟩, rfl, rfl⟩
      · exact .inl ⟨rfl, rfl⟩
      · refine .inr ⟨fun heq => hne ?_, k, v, hk, rfl, rfl⟩
        exact hinj k (List.mem_cons_of_mem _ (hmem hk)) key List.mem_cons_self heq

namespace Heap

variable {h h' : Heap} {roots : List Value} {f : Address → Address} {v x : Value}

theorem Moved.header_of_taken (moved : Moved h h' roots f) (hv : h.Taken roots v) {loc : Address}
    (hloc : v.address? = some loc) {header : Header} (hh : h.header v = .ok header) :
    h'.header (v.relocate f) = .ok { header with isa := header.isa.relocate f } := by
  obtain ⟨header', hold, hnew⟩ := moved.header loc (hv.2 loc hloc)
  rw [Value.ofAddress_of_address? hloc, hh] at hold
  cases hold
  rwa [Value.relocate, hloc]

theorem identityHash_of_address {loc : Address} {header : Header} (hv : v.address? = some loc)
    (hh : h.header v = .ok header) : h.identityHash v = .ok header.hash.toNat := by
  have href : v.isReference := by
    by_contra hnot
    rw [Value.address?, if_neg hnot] at hv
    cases hv
  simp only [Value.isReference, Bool.and_eq_true, bne_iff_ne, beq_iff_eq] at href
  have hint : v.toInt? = none := by
    rw [Value.toInt?, Value.isInteger, href.2]
    rfl
  simp only [Heap.identityHash, hint, Value.isNil, beq_eq_false_iff_ne.mpr href.1, hh, bind,
    Except.bind, pure, Except.pure, Bool.false_eq_true, if_false]

/-- Hashes stay, wherever objects go. -/
theorem Moved.identityHash (moved : Moved h h' roots f) (whole : h.Whole) (sound : h'.Sound)
    (hv : h.Taken roots v) : h'.identityHash (v.relocate f) = h.identityHash v := by
  cases hloc : v.address? with
  | none =>
    rw [Value.relocate, hloc]
    simp only [Heap.identityHash, Heap.header, locate, hloc]
    rfl
  | some loc =>
    obtain ⟨hsmall, hpos⟩ := sound.bounds (moved.bijective.mapsTo (hv.2 loc hloc))
    have hnew : (v.relocate f).address? = some (f loc) := by
      rw [Value.relocate, hloc]
      exact Value.address?_ofAddress hsmall hpos
    obtain ⟨header, hh, -⟩ := whole.sound.laid.object (hv.1.allocated hloc)
    have hold : h.header v = .ok header := by
      rw [Heap.header, locate, hloc]
      exact hh
    rw [identityHash_of_address hloc hold,
      identityHash_of_address hnew (moved.header_of_taken hv hloc hold)]

theorem Moved.size (moved : Moved h h' roots f) (hv : h.Taken roots v) {n : Nat}
    (hsize : h.size v = .ok n) : h'.size (v.relocate f) = .ok n := by
  obtain ⟨header, hh, hn⟩ := except_bind_eq_ok.mp hsize
  obtain ⟨loc, hloc, -⟩ := header_eq_ok hh
  exact except_bind_eq_ok.mpr ⟨_, moved.header_of_taken hv hloc hh, hn⟩

theorem Chained.taken {es : List Entry} (hc : h.Chained v es) (whole : h.Whole)
    (hv : h.Taken roots v) {e : Entry} (he : e ∈ es) :
    h.Taken roots e.link ∧ h.Taken roots e.key := by
  induction hc with
  | nil => cases he
  | cons hkey _ hnext _ ih =>
    rcases List.mem_cons.mp he with rfl | he
    · exact ⟨hv, hv.value whole hkey⟩
    · exact ih (hv.value whole hnext) he

theorem Chained.moved {es : List Entry} (hc : h.Chained v es) (moved : Moved h h' roots f)
    (whole : h.Whole) (sound : h'.Sound) (hv : h.Taken roots v) :
    h'.Chained (v.relocate f) (es.map (Entry.relocate f)) := by
  induction hc with
  | nil => exact .nil
  | @cons e next es hkey hvalue hnext _ ih =>
    exact .cons (e := e.relocate f) (moved.holds_of_taken sound hv hkey)
      (moved.holds_of_taken sound hv hvalue) (moved.holds_of_taken sound hv hnext)
      (ih (hv.value whole hnext))

namespace Files

variable {t : Filing}

theorem entry_taken (hf : h.Files t) (whole : h.Whole) (hd : h.Taken roots t.ledger.object)
    {e : Entry} (he : e ∈ t.entries) : h.Taken roots e.link ∧ h.Taken roots e.key := by
  obtain ⟨i, es, hes, he⟩ := Filing.mem_entries.mp he
  obtain ⟨head, hhead, hc⟩ := hf.chained hes
  exact hc.taken whole (hd.value whole hhead) he

theorem key_taken (hf : h.Files t) (whole : h.Whole) (hd : h.Taken roots t.ledger.object)
    (hv : v ∈ t.entries.map Entry.key) : h.Taken roots v := by
  obtain ⟨e, he, rfl⟩ := List.mem_map.mp hv
  exact (hf.entry_taken whole hd he).2

/-- A dictionary that can be reached is taken along with all its parts. -/
theorem part_taken (hf : h.Files t) (whole : h.Whole) (hd : h.Taken roots t.ledger.object)
    (hv : v ∈ t.parts) : h.Taken roots v := by
  rcases List.mem_cons.mp hv with rfl | hv
  · exact hd
  · obtain ⟨e, he, rfl⟩ := List.mem_map.mp hv
    exact (hf.entry_taken whole hd he).1

/-- A dictionary that is taken along is the same dictionary. -/
theorem moved (hf : h.Files t) (moved : Moved h h' roots f) (whole : h.Whole) (sound : h'.Sound)
    (hd : h.Taken roots t.ledger.object) : h'.Files (t.relocate f) := by
  have hkeys : ∀ k ∈ t.entries.map Entry.key, ∀ l ∈ t.entries.map Entry.key,
      k.relocate f = l.relocate f → k = l := fun k hk l hl =>
    moved.injective sound (hf.key_taken whole hd hk) (hf.key_taken whole hd hl)
  have hsplit : ∀ {i : Nat} {es' : List Entry}, (t.relocate f).chains[i]? = some es' → ∃ es,
      t.chains[i]? = some es ∧ es.map (Entry.relocate f) = es' := by
    intro i es' hes'
    rw [Filing.relocate, List.getElem?_map] at hes'
    exact Option.map_eq_some_iff.mp hes'
  have hlength : (t.relocate f).chains.length = t.chains.length := List.length_map _
  have htally := moved.holds_of_taken sound hd hf.tally
  refine ⟨?nonempty, htally.sane, ?size, ?tally, ?chained, ?hashed, ?keys, ?distinct, ?latest⟩
  case nonempty => simpa [Filing.relocate] using hf.buckets
  case size =>
    rw [hlength]
    exact moved.size hd hf.size
  case tally =>
    rw [Filing.entries_relocate, List.length_map]
    rwa [Value.relocate_ofNat] at htally
  case chained =>
    intro i es' hes'
    obtain ⟨es, hes, rfl⟩ := hsplit hes'
    obtain ⟨head, hhead, hc⟩ := hf.chained hes
    exact ⟨head.relocate f, moved.holds_of_taken sound hd hhead,
      hc.moved moved whole sound (hd.value whole hhead)⟩
  case hashed =>
    intro i es' hes' e' he'
    obtain ⟨es, hes, rfl⟩ := hsplit hes'
    obtain ⟨e, he, rfl⟩ := List.mem_map.mp he'
    have hentry := Filing.mem_entries.mpr ⟨i, es, hes, he⟩
    rw [hlength, Entry.relocate, moved.identityHash whole sound (hf.entry_taken whole hd hentry).2]
    exact hf.hashed hes e he
  case keys =>
    rw [Filing.keys_relocate]
    exact hf.keys.map_on hkeys
  case distinct =>
    rw [Filing.parts_relocate]
    exact hf.distinct.map_on fun v hv w hw =>
      moved.injective sound (hf.part_taken whole hd hv) (hf.part_taken whole hd hw)
  case latest =>
    intro k' v'
    have hinj : ∀ a ∈ t.ledger.puts.map Prod.fst, ∀ b ∈ t.ledger.puts.map Prod.fst,
        a.relocate f = b.relocate f → a = b := fun a ha b hb =>
      hkeys a (hf.mem_keys_iff.mpr ha) b (hf.mem_keys_iff.mpr hb)
    refine (lookup_map hinj).trans ?_
    rw [Filing.entries_relocate]
    constructor
    · rintro ⟨k, v, hk, rfl, rfl⟩
      obtain ⟨e, he, rfl, rfl⟩ := (hf.latest k v).mp hk
      exact ⟨e.relocate f, List.mem_map_of_mem he, rfl, rfl⟩
    · rintro ⟨e', he', rfl, rfl⟩
      obtain ⟨e, he, rfl⟩ := List.mem_map.mp he'
      exact ⟨e.key, e.value, (hf.latest _ _).mpr ⟨e, he, rfl, rfl⟩, rfl, rfl⟩

end Files

end Heap

end Moving

end ObjectMachine
