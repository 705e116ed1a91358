import Mathlib.Data.List.Dedup
import ObjectMachine.Proofs.Memory.Extension
import ObjectMachine.Proofs.Memory.Tracking

namespace ObjectMachine

structure Entry where
  link : Value
  key : Value
  value : Value

structure Ledger where
  object : Value
  puts : List (Value × Value)

def Ledger.note (g : Ledger) (key value : Value) : Ledger := ⟨g.object, (key, value) :: g.puts⟩

/-- What was put last under a key hides what was put under it before. -/
theorem lookup_cons_eq_some_iff {puts : List (Value × Value)} {key value k v : Value} :
    ((key, value) :: puts).lookup k = some v ↔
      k = key ∧ v = value ∨ k ≠ key ∧ puts.lookup k = some v := by
  rw [List.lookup_cons]
  by_cases hk : k = key
  · simp [hk, eq_comm]
  · simp [hk, beq_eq_false_iff_ne.mpr hk]

structure Filing where
  ledger : Ledger
  chains : List (List Entry)

namespace Filing

def entries (t : Filing) : List Entry := t.chains.flatten

def parts (t : Filing) : List Value := t.ledger.object :: t.entries.map Entry.link

theorem mem_entries {t : Filing} {e : Entry} :
    e ∈ t.entries ↔ ∃ (i : Nat) (es : List Entry), t.chains[i]? = some es ∧ e ∈ es := by
  rw [entries, List.mem_flatten]
  constructor
  · rintro ⟨es, hes, he⟩
    obtain ⟨i, hi⟩ := List.mem_iff_getElem?.mp hes
    exact ⟨i, es, hi, he⟩
  · rintro ⟨i, es, hi, he⟩
    exact ⟨es, List.mem_of_getElem? hi, he⟩

def insert (t : Filing) (i : Nat) (es : List Entry) (e : Entry) : Filing :=
  ⟨t.ledger.note e.key e.value, t.chains.set i (e :: es)⟩

theorem entries_insert {t : Filing} {i : Nat} {es : List Entry} (hes : t.chains[i]? = some es)
    (e : Entry) : (t.insert i es e).entries.Perm (e :: t.entries) := by
  obtain ⟨hi, rfl⟩ := List.getElem?_eq_some_iff.mp hes
  have hsplit : t.chains = t.chains.take i ++ t.chains[i] :: t.chains.drop (i + 1) := by
    rw [← List.drop_eq_getElem_cons hi, List.take_append_drop]
  rw [entries, entries, insert, List.set_eq_take_append_cons_drop, if_pos hi]
  nth_rewrite 4 [hsplit]
  simp only [List.flatten_append, List.flatten_cons, List.cons_append]
  exact List.perm_middle

theorem getElem?_insert {t : Filing} {i j : Nat} {es es' : List Entry} {e : Entry}
    (hes : t.chains[i]? = some es) (hes' : (t.insert i es e).chains[j]? = some es') :
    i = j ∧ es' = e :: es ∨ i ≠ j ∧ t.chains[j]? = some es' := by
  rw [insert, List.getElem?_set] at hes'
  split at hes'
  · rename_i hij
    rw [if_pos (List.getElem?_eq_some_iff.mp hes).1] at hes'
    exact .inl ⟨hij, (Option.some.inj hes').symm⟩
  · rename_i hij
    exact .inr ⟨hij, hes'⟩

theorem parts_insert {t : Filing} {i : Nat} {es : List Entry} (hes : t.chains[i]? = some es)
    (e : Entry) : (t.insert i es e).parts.Perm (e.link :: t.parts) :=
  (((entries_insert hes e).map Entry.link).cons _).trans (.swap _ _ _)

def replace (t : Filing) (key value : Value) : Filing :=
  ⟨t.ledger.note key value,
    t.chains.map fun es => es.map fun e => if e.key = key then { e with value } else e⟩

theorem entries_replace (t : Filing) (key value : Value) : (t.replace key value).entries =
    t.entries.map fun e => if e.key = key then { e with value } else e := by
  rw [entries, entries, replace, List.map_flatten]

@[simp] theorem keys_replace (t : Filing) (key value : Value) :
    (t.replace key value).entries.map Entry.key = t.entries.map Entry.key := by
  rw [entries_replace, List.map_map]
  refine List.map_congr_left fun e _ => ?_
  simp only [Function.comp]
  split <;> rfl

@[simp] theorem parts_replace (t : Filing) (key value : Value) :
    (t.replace key value).parts = t.parts := by
  rw [parts, parts, entries_replace, List.map_map]
  congr 1
  refine List.map_congr_left fun e _ => ?_
  simp only [Function.comp]
  split <;> rfl

end Filing

namespace Heap

variable {h h' : Heap} {v : Value} {es : List Entry}

inductive Chained (h : Heap) : Value → List Entry → Prop where
  | nil : Chained h .nil []
  | cons {e : Entry} {next : Value} {es : List Entry} : h.Holds ⟨e.link, Slot.Link.key⟩ e.key →
    h.Holds ⟨e.link, Slot.Link.value⟩ e.value → h.Holds ⟨e.link, Slot.Link.next⟩ next →
    Chained h next es → Chained h e.link (e :: es)

namespace Chained

theorem sane (hc : h.Chained v es) {e : Entry} (he : e ∈ es) :
    h.Holds ⟨e.link, Slot.Link.key⟩ e.key ∧ h.Holds ⟨e.link, Slot.Link.value⟩ e.value := by
  induction hc with
  | nil => cases he
  | cons hkey hvalue _ _ ih =>
    rcases List.mem_cons.mp he with rfl | he
    · exact ⟨hkey, hvalue⟩
    · exact ih he

/-- Cells of other objects do not matter. -/
theorem frame (hc : h.Chained v es)
    (hkept : ∀ e ∈ es, ∀ i y, h.Holds ⟨e.link, i⟩ y → h'.Holds ⟨e.link, i⟩ y) :
    h'.Chained v es := by
  induction hc with
  | nil => exact .nil
  | cons hkey hvalue hnext _ ih =>
    have hhead := hkept _ List.mem_cons_self
    exact .cons (hhead _ _ hkey) (hhead _ _ hvalue) (hhead _ _ hnext)
      (ih fun e he => hkept e (List.mem_cons_of_mem _ he))

theorem linkFrom_of_mem (hc : h.Chained v es) (hnodup : (es.map Entry.key).Nodup) {e : Entry}
    (he : e ∈ es) {fuel : Nat} (hfuel : es.length < fuel) :
    h.linkFrom e.key fuel v = .ok (some e.link) := by
  induction hc generalizing fuel with
  | nil => cases he
  | @cons head next es hkey _ hnext _ ih =>
    obtain ⟨fuel, rfl⟩ := Nat.exists_eq_add_of_lt hfuel
    rw [List.map_cons, List.nodup_cons] at hnodup
    rw [linkFrom, if_neg hkey.not_isNil, hkey.slot]
    simp only [bind, Except.bind]
    rcases List.mem_cons.mp he with rfl | he
    · rw [if_pos rfl]
      rfl
    · have hne : head.key ≠ e.key := fun heq => hnodup.1 (heq ▸ List.mem_map_of_mem he)
      rw [if_neg hne, hnext.slot]
      exact ih hnodup.2 he (by simp at hfuel ⊢; omega)

theorem linkFrom_of_not_mem (hc : h.Chained v es) {key : Value} (hkey : ∀ e ∈ es, e.key ≠ key)
    {fuel : Nat} (hfuel : es.length < fuel) : h.linkFrom key fuel v = .ok none := by
  induction hc generalizing fuel with
  | nil =>
    obtain ⟨fuel, rfl⟩ := Nat.exists_eq_add_of_lt hfuel
    rfl
  | cons hhead _ hnext _ ih =>
    obtain ⟨fuel, rfl⟩ := Nat.exists_eq_add_of_lt hfuel
    rw [linkFrom, if_neg hhead.not_isNil, hhead.slot]
    simp only [bind, Except.bind]
    rw [if_neg (hkey _ List.mem_cons_self), hnext.slot]
    exact ih (fun e he => hkey e (List.mem_cons_of_mem _ he)) (by simp at hfuel ⊢; omega)

theorem keysFrom (hc : h.Chained v es) {fuel : Nat} (hfuel : es.length < fuel) :
    h.keysFrom fuel v = .ok (es.map Entry.key) := by
  induction hc generalizing fuel with
  | nil =>
    obtain ⟨fuel, rfl⟩ := Nat.exists_eq_add_of_lt hfuel
    rfl
  | cons hhead _ hnext _ ih =>
    obtain ⟨fuel, rfl⟩ := Nat.exists_eq_add_of_lt hfuel
    rw [Heap.keysFrom, if_neg hhead.not_isNil, hhead.slot, hnext.slot]
    simp only [bind, Except.bind]
    rw [ih (by simp at hfuel ⊢; omega)]
    rfl

theorem replace (hc : h.Chained v es) {e : Entry} {x : Value}
    (hr : Rewrites h h' ⟨e.link, Slot.Link.value⟩ x)
    (hsame : ∀ e' ∈ es, (e'.key = e.key ↔ e'.link = e.link)) :
    h'.Chained v (es.map fun e' => if e'.key = e.key then { e' with value := x } else e') := by
  induction hc with
  | nil => exact .nil
  | @cons head next es hkey hvalue hnext _ ih =>
    have hrest := ih fun e' he' => hsame e' (List.mem_cons_of_mem _ he')
    have hkey' := hr.others (by simp) hkey
    have hnext' := hr.others (by simp) hnext
    rw [List.map_cons]
    by_cases hhead : head.key = e.key
    · rw [if_pos hhead]
      have hlink := (hsame head List.mem_cons_self).mp hhead
      exact .cons (e := { head with value := x }) hkey' (hlink ▸ hr.written) hnext' hrest
    · rw [if_neg hhead]
      have hlink := mt (hsame head List.mem_cons_self).mpr hhead
      exact .cons hkey' (hr.others (by simp [hlink]) hvalue) hnext' hrest

end Chained

structure Files (h : Heap) (t : Filing) : Prop where
  buckets : t.chains ≠ []
  sane : h.arenas.Sane t.ledger.object
  size : h.size t.ledger.object = .ok (t.chains.length + 1)
  tally : h.Holds ⟨t.ledger.object, Slot.Dictionary.tally⟩ (.ofNat t.entries.length)
  chained : ∀ {i es}, t.chains[i]? = some es →
    ∃ head, h.Holds ⟨t.ledger.object, Slot.Dictionary.buckets + i⟩ head ∧ h.Chained head es
  hashed : ∀ {i es}, t.chains[i]? = some es → ∀ e ∈ es,
    ∃ hash, h.identityHash e.key = .ok hash ∧ hash % t.chains.length = i
  keys : (t.entries.map Entry.key).Nodup
  distinct : t.parts.Nodup
  latest : ∀ k v, t.ledger.puts.lookup k = some v ↔ ∃ e ∈ t.entries, e.key = k ∧ e.value = v

/-- Objects with slots stand at different words. -/
theorem Whole.length_le_used (whole : h.Whole) {vs : List Value} (hnodup : vs.Nodup)
    (hcells : ∀ v ∈ vs, ∃ i x, h.Holds ⟨v, i⟩ x) : vs.length ≤ h.used .pointers := by
  have hplace : ∀ v ∈ vs, ∃ word, word < h.used .pointers ∧ v = .ofAddress ⟨.pointers, word⟩ := by
    intro v hv
    obtain ⟨i, x, hc⟩ := hcells v hv
    obtain ⟨slots, ⟨word, isa, packed, hword, hl, -⟩, -⟩ := hc.shows whole
    obtain ⟨header, -, -, -, hend⟩ := whole.sound.laid.object hl
    have := header.headerWords_le_totalWords
    simp only [headerWords] at this hend
    exact ⟨word, by simp only [used]; omega, hword⟩
  have hsub : vs ⊆ (List.range (h.used .pointers)).map fun w => .ofAddress ⟨.pointers, w⟩ := by
    intro v hv
    obtain ⟨word, hlt, rfl⟩ := hplace v hv
    exact List.mem_map_of_mem (List.mem_range.mpr hlt)
  simpa using (List.subperm_of_subset hnodup hsub).length_le

namespace Files

variable {t : Filing} {k : Value}

theorem entry (hf : h.Files t) {e : Entry} (he : e ∈ t.entries) :
    h.Holds ⟨e.link, Slot.Link.key⟩ e.key ∧ h.Holds ⟨e.link, Slot.Link.value⟩ e.value := by
  obtain ⟨i, es, hes, he⟩ := Filing.mem_entries.mp he
  obtain ⟨head, -, hc⟩ := hf.chained hes
  exact hc.sane he

theorem part_sane (hf : h.Files t) (hv : v ∈ t.parts) : h.arenas.Sane v := by
  rcases List.mem_cons.mp hv with rfl | hv
  · exact hf.sane
  · obtain ⟨e, he, rfl⟩ := List.mem_map.mp hv
    exact (hf.entry he).1.sane

/-- A dictionary has no more entries than there are words for their links. -/
theorem length_le (hf : h.Files t) (whole : h.Whole) : t.entries.length ≤ h.used .pointers := by
  have hlinks := whole.length_le_used hf.distinct.of_cons fun v hv => by
    obtain ⟨e, he, rfl⟩ := List.mem_map.mp hv
    exact ⟨_, _, (hf.entry he).1⟩
  simpa using hlinks

theorem length_small (hf : h.Files t) (whole : h.Whole) : t.entries.length < 0x100000000 :=
  ((hf.length_le whole).trans (whole.sound.fits _)).trans_lt whole.sound.small

/-- No chain is too long to be followed. -/
theorem chain_length (hf : h.Files t) (whole : h.Whole) {i : Nat} (hes : t.chains[i]? = some es) :
    es.length < h.chainBound + 1 :=
  Nat.lt_succ_of_le ((List.sublist_flatten_of_mem (List.mem_of_getElem? hes)).length_le.trans
    (hf.length_le whole))

theorem bucket (hf : h.Files t) (whole : h.Whole) (hk : h.arenas.Sane k) :
    ∃ hash es head, h.identityHash k = .ok hash ∧
      h.bucketSlot t.ledger.object k =
        .ok (Slot.Dictionary.buckets + hash % t.chains.length) ∧
      t.chains[hash % t.chains.length]? = some es ∧
      h.Holds ⟨t.ledger.object, Slot.Dictionary.buckets + hash % t.chains.length⟩ head ∧
      h.Chained head es := by
  obtain ⟨hash, hhash⟩ := whole.exists_identityHash hk
  have hpos : 0 < t.chains.length := List.length_pos_iff.mpr hf.buckets
  have hes := List.getElem?_eq_getElem (Nat.mod_lt hash hpos)
  obtain ⟨head, hhead, hc⟩ := hf.chained hes
  refine ⟨hash, _, head, hhash, ?_, hes, hhead, hc⟩
  simp only [bucketSlot, hf.size, hhash, bind, Except.bind, bucketCount, Nat.add_eq_zero_iff,
    Nat.one_ne_zero, and_false, if_false, Nat.add_sub_cancel, hpos.ne', pure, Except.pure]

theorem dictionaryLink_of_mem (hf : h.Files t) (whole : h.Whole) {e : Entry} (he : e ∈ t.entries) :
    h.dictionaryLink t.ledger.object e.key = .ok (some e.link) := by
  obtain ⟨hash, es, head, hhash, hslot, hes, hhead, hc⟩ :=
    hf.bucket whole ((hf.entry he).1.value_sane whole)
  -- The entry is in the chain of its hash.
  have hmem : e ∈ es := by
    obtain ⟨i, es', hes', he'⟩ := Filing.mem_entries.mp he
    obtain ⟨hash', hhash', rfl⟩ := hf.hashed hes' e he'
    obtain rfl := Except.ok.inj (hhash.symm.trans hhash')
    rwa [Option.some.inj (hes.symm.trans hes')]
  have hnodup : (es.map Entry.key).Nodup :=
    hf.keys.sublist ((List.sublist_flatten_of_mem (List.mem_of_getElem? hes)).map _)
  simp only [dictionaryLink, hslot, bind, Except.bind, hhead.slot]
  exact hc.linkFrom_of_mem hnodup hmem (hf.chain_length whole hes)

theorem dictionaryLink_of_not_mem (hf : h.Files t) (whole : h.Whole) (hk : h.arenas.Sane k)
    (hkey : ∀ e ∈ t.entries, e.key ≠ k) : h.dictionaryLink t.ledger.object k = .ok none := by
  obtain ⟨hash, es, head, hhash, hslot, hes, hhead, hc⟩ := hf.bucket whole hk
  simp only [dictionaryLink, hslot, bind, Except.bind, hhead.slot]
  exact hc.linkFrom_of_not_mem (fun e he => hkey e (Filing.mem_entries.mpr ⟨_, es, hes, he⟩))
    (hf.chain_length whole hes)

theorem dictionaryAt (hf : h.Files t) (whole : h.Whole) (hk : h.arenas.Sane k) :
    h.dictionaryAt t.ledger.object k = .ok (t.ledger.puts.lookup k) := by
  by_cases hkey : ∃ e ∈ t.entries, e.key = k
  · obtain ⟨e, he, rfl⟩ := hkey
    rw [(hf.latest e.key e.value).mpr ⟨e, he, rfl, rfl⟩]
    simp only [Heap.dictionaryAt, hf.dictionaryLink_of_mem whole he, bind, Except.bind,
      (hf.entry he).2.slot]
    rfl
  · have hnone : t.ledger.puts.lookup k = none := by
      refine Option.eq_none_iff_forall_ne_some.mpr fun x hx => hkey ?_
      obtain ⟨e, he, heq, -⟩ := (hf.latest k x).mp hx
      exact ⟨e, he, heq⟩
    simp only [Heap.dictionaryAt, bind, Except.bind, hnone,
      hf.dictionaryLink_of_not_mem whole hk fun e he heq => hkey ⟨e, he, heq⟩]
    rfl

theorem mem_keys_iff (hf : h.Files t) :
    k ∈ t.entries.map Entry.key ↔ k ∈ t.ledger.puts.map Prod.fst := by
  calc k ∈ t.entries.map Entry.key
    _ ↔ ∃ x, t.ledger.puts.lookup k = some x := by simp [hf.latest]
    _ ↔ k ∈ t.ledger.puts.map Prod.fst := by
      rw [← Option.isSome_iff_exists, List.lookup_isSome_iff, List.mem_map]
      simp only [beq_iff_eq, eq_comm (a := k)]

theorem dictionarySize (hf : h.Files t) (whole : h.Whole) :
    h.dictionarySize t.ledger.object = .ok (t.ledger.puts.map Prod.fst).dedup.length := by
  have hperm : (t.entries.map Entry.key).Perm (t.ledger.puts.map Prod.fst).dedup :=
    (List.perm_ext_iff_of_nodup hf.keys (List.nodup_dedup _)).mpr fun k => by
      rw [List.mem_dedup, hf.mem_keys_iff]
  have hsmall := hf.length_small whole
  rw [← hperm.length_eq, List.length_map]
  simp only [Heap.dictionarySize, count, hf.tally.slot, bind, Except.bind, pure, Except.pure,
    Value.toNat?_ofNat (hsmall.trans (by decide)), Option.getD_some]

theorem keysOfBuckets (hf : h.Files t) (whole : h.Whole) {i : Nat} {rest : List (List Entry)}
    (hrest : t.chains.drop i = rest) :
    h.keysOfBuckets t.ledger.object (Slot.Dictionary.buckets + i) rest.length =
      .ok (rest.flatten.map Entry.key) := by
  induction rest generalizing i with
  | nil => rfl
  | cons es rest ih =>
    have hes : t.chains[i]? = some es := by
      rw [← List.head?_drop, hrest]
      rfl
    obtain ⟨head, hhead, hc⟩ := hf.chained hes
    have hnext : t.chains.drop (i + 1) = rest := by
      rw [← List.tail_drop, hrest]
      rfl
    simp only [List.length_cons, Heap.keysOfBuckets, hhead.slot, bind, Except.bind,
      hc.keysFrom (hf.chain_length whole hes)]
    rw [Nat.add_assoc, ih hnext]
    simp [pure, Except.pure]

theorem dictionaryKeys (hf : h.Files t) (whole : h.Whole) :
    h.dictionaryKeys t.ledger.object = .ok (t.entries.map Entry.key) := by
  simp only [Heap.dictionaryKeys, hf.size, bind, Except.bind, Nat.add_sub_cancel]
  exact hf.keysOfBuckets whole (List.drop_zero)

/-- Entries stay in their buckets. -/
theorem hashed_of_extends {written : Cell → Prop} {i : Nat} (hf : h.Files t) (whole : h.Whole)
    (he : Extends written h h') (hes : t.chains[i]? = some es) {e : Entry} (hmem : e ∈ es) :
    ∃ hash, h'.identityHash e.key = .ok hash ∧ hash % t.chains.length = i := by
  have hentry := Filing.mem_entries.mpr ⟨_, _, hes, hmem⟩
  rw [he.identityHash ((hf.entry hentry).1.value_sane whole)]
  exact hf.hashed hes e hmem

/-- Writes elsewhere do not matter. -/
theorem frame {written : Cell → Prop} (hf : h.Files t) (whole : h.Whole)
    (he : Extends written h h') (hwritten : ∀ c, c.object ∈ t.parts → ¬written c) :
    h'.Files t where
  buckets := hf.buckets
  sane := he.grows _ hf.sane
  size := (he.size hf.sane).trans hf.size
  tally := he.kept (hwritten _ List.mem_cons_self) hf.tally
  chained hes := by
    obtain ⟨head, hhead, hc⟩ := hf.chained hes
    refine ⟨head, he.kept (hwritten _ List.mem_cons_self) hhead, hc.frame fun e hmem i y hold => ?_⟩
    have hentry := Filing.mem_entries.mpr ⟨_, _, hes, hmem⟩
    exact he.kept (hwritten _ (List.mem_cons_of_mem _ (List.mem_map_of_mem hentry))) hold
  hashed hes _ hmem := hf.hashed_of_extends whole he hes hmem
  keys := hf.keys
  distinct := hf.distinct
  latest := hf.latest

/-- A key that was not there gets a link of its own, which does not belong to anything yet. -/
theorem insert {e : Entry} {i hash : Nat} {head : Value} (hf : h.Files t) (whole : h.Whole)
    (he : Extends (fun c => c.object = e.link ∨ c = ⟨t.ledger.object, Slot.Dictionary.buckets + i⟩ ∨
      c = ⟨t.ledger.object, Slot.Dictionary.tally⟩) h h')
    (hlink : e.link ∉ t.parts) (hhash : h'.identityHash e.key = .ok hash)
    (hi : hash % t.chains.length = i) (hes : t.chains[i]? = some es)
    (hkeys : ∀ e' ∈ t.entries, e'.key ≠ e.key)
    (hhead : h.Holds ⟨t.ledger.object, Slot.Dictionary.buckets + i⟩ head)
    (hkey : h'.Holds ⟨e.link, Slot.Link.key⟩ e.key)
    (hvalue : h'.Holds ⟨e.link, Slot.Link.value⟩ e.value)
    (hnext : h'.Holds ⟨e.link, Slot.Link.next⟩ head)
    (hbucket : h'.Holds ⟨t.ledger.object, Slot.Dictionary.buckets + i⟩ e.link)
    (htally : h'.Holds ⟨t.ledger.object, Slot.Dictionary.tally⟩ (.ofNat (t.entries.length + 1))) :
    h'.Files (t.insert i es e) := by
  -- Chains go on as before: their links are neither the new one nor the dictionary.
  have hchains : ∀ {j : Nat} {es' head'}, t.chains[j]? = some es' → h.Chained head' es' →
      h'.Chained head' es' := by
    intro j es' head' hes' hc
    refine hc.frame fun e' he' k y hold => he.kept ?_ hold
    have hpart : e'.link ∈ t.entries.map Entry.link :=
      List.mem_map_of_mem (Filing.mem_entries.mpr ⟨j, es', hes', he'⟩)
    have hobject : e'.link ≠ t.ledger.object :=
      fun heq => (List.nodup_cons.mp hf.distinct).1 (heq ▸ hpart)
    rintro (heq | heq | heq)
    · exact hlink (heq ▸ List.mem_cons_of_mem _ hpart)
    · exact hobject (congrArg Cell.object heq)
    · exact hobject (congrArg Cell.object heq)
  have hlength : (t.insert i es e).chains.length = t.chains.length := List.length_set
  have hentries := Filing.entries_insert hes e
  refine ⟨?buckets, he.grows _ hf.sane, ?size, ?tally, ?chained, ?hashed, ?keys, ?distinct, ?latest⟩
  case buckets =>
    rw [← List.length_pos_iff, hlength, List.length_pos_iff]
    exact hf.buckets
  case size =>
    rw [hlength]
    exact (he.size hf.sane).trans hf.size
  case tally =>
    rw [hentries.length_eq]
    exact htally
  case chained =>
    intro j es' hes'
    rcases Filing.getElem?_insert hes hes' with ⟨rfl, rfl⟩ | ⟨hij, hes'⟩
    · obtain ⟨head', hhead', hc⟩ := hf.chained hes
      obtain rfl := hhead.unique hhead'
      exact ⟨e.link, hbucket, .cons hkey hvalue hnext (hchains hes hc)⟩
    · obtain ⟨head', hhead', hc⟩ := hf.chained hes'
      refine ⟨head', he.kept ?_ hhead', hchains hes' hc⟩
      rintro (heq | heq | heq)
      · exact hlink (heq ▸ List.mem_cons_self)
      · exact hij (Nat.add_left_cancel (congrArg Cell.index heq)).symm
      · have := congrArg Cell.index heq
        simp only [Slot.Dictionary.buckets, Slot.Dictionary.tally] at this
        omega
  case hashed =>
    intro j es' hes' e' he'
    rw [hlength]
    rcases Filing.getElem?_insert hes hes' with ⟨rfl, rfl⟩ | ⟨-, hes'⟩
    · rcases List.mem_cons.mp he' with rfl | he'
      · exact ⟨hash, hhash, hi⟩
      · exact hf.hashed_of_extends whole he hes he'
    · exact hf.hashed_of_extends whole he hes' he'
  case keys =>
    refine (hentries.map Entry.key).nodup_iff.mpr (List.nodup_cons.mpr ⟨fun hmem => ?_, hf.keys⟩)
    obtain ⟨e', he', heq⟩ := List.mem_map.mp hmem
    exact hkeys e' he' heq
  case distinct =>
    exact (Filing.parts_insert hes e).nodup_iff.mpr (List.nodup_cons.mpr ⟨hlink, hf.distinct⟩)
  case latest =>
    intro k v
    refine lookup_cons_eq_some_iff.trans ?_
    simp only [hentries.mem_iff, List.mem_cons, exists_eq_or_imp, hf.latest]
    constructor
    · rintro (⟨rfl, rfl⟩ | ⟨-, hold⟩)
      · exact .inl ⟨rfl, rfl⟩
      · exact .inr hold
    · rintro (⟨rfl, rfl⟩ | ⟨e', he', rfl, rfl⟩)
      · exact .inl ⟨rfl, rfl⟩
      · exact .inr ⟨hkeys e' he', e', he', rfl, rfl⟩

theorem replace {e : Entry} {x : Value} (hf : h.Files t) (whole : h.Whole) (hentry : e ∈ t.entries)
    (hr : Rewrites h h' ⟨e.link, Slot.Link.value⟩ x) : h'.Files (t.replace e.key x) := by
  have he : Extends (fun c => c = ⟨e.link, Slot.Link.value⟩) h h' := hr.extends rfl
  have hlinks : (t.entries.map Entry.link).Nodup := hf.distinct.of_cons
  have hobject : t.ledger.object ≠ e.link := fun heq =>
    (List.nodup_cons.mp hf.distinct).1 (heq ▸ List.mem_map_of_mem hentry)
  have hkept : ∀ {i y}, h.Holds ⟨t.ledger.object, i⟩ y → h'.Holds ⟨t.ledger.object, i⟩ y :=
    fun hold => he.kept (fun heq => hobject (congrArg Cell.object heq)) hold
  have hlength : (t.replace e.key x).chains.length = t.chains.length := List.length_map _
  -- An entry is known by its key as well as by its link.
  have hsame : ∀ e' ∈ t.entries, (e'.key = e.key ↔ e'.link = e.link) := fun e' he' =>
    ⟨fun heq => congrArg Entry.link (List.inj_on_of_nodup_map hf.keys he' hentry heq),
      fun heq => congrArg Entry.key (List.inj_on_of_nodup_map hlinks he' hentry heq)⟩
  have hchains : ∀ {i : Nat} {es'}, (t.replace e.key x).chains[i]? = some es' → ∃ es,
      t.chains[i]? = some es ∧
        es.map (fun e' => if e'.key = e.key then { e' with value := x } else e') = es' := by
    intro i es' hes'
    rw [Filing.replace, List.getElem?_map] at hes'
    exact Option.map_eq_some_iff.mp hes'
  refine ⟨?buckets, he.grows _ hf.sane, ?size, ?tally, ?chained, ?hashed, ?keys, ?distinct, ?latest⟩
  case buckets => simpa [Filing.replace] using hf.buckets
  case size =>
    rw [hlength]
    exact (he.size hf.sane).trans hf.size
  case tally =>
    rw [Filing.entries_replace, List.length_map]
    exact hkept hf.tally
  case chained =>
    intro i es' hes'
    obtain ⟨es, hes, rfl⟩ := hchains hes'
    obtain ⟨head, hhead, hc⟩ := hf.chained hes
    exact ⟨head, hkept hhead, hc.replace hr fun e' he' =>
      hsame e' (Filing.mem_entries.mpr ⟨_, _, hes, he'⟩)⟩
  case hashed =>
    intro i es' hes' e' he'
    obtain ⟨es, hes, rfl⟩ := hchains hes'
    obtain ⟨e₀, he₀, rfl⟩ := List.mem_map.mp he'
    rw [hlength]
    have hhash := hf.hashed_of_extends whole he hes he₀
    split <;> exact hhash
  case keys =>
    rw [Filing.keys_replace]
    exact hf.keys
  case distinct =>
    rw [Filing.parts_replace]
    exact hf.distinct
  case latest =>
    intro k v
    refine lookup_cons_eq_some_iff.trans ?_
    rw [Filing.entries_replace]
    simp only [List.mem_map, exists_exists_and_eq_and, hf.latest]
    constructor
    · rintro (⟨rfl, rfl⟩ | ⟨hk, e', he', rfl, rfl⟩)
      · exact ⟨e, hentry, by rw [if_pos rfl], by rw [if_pos rfl]⟩
      · exact ⟨e', he', by rw [if_neg hk], by rw [if_neg hk]⟩
    · rintro ⟨e', he', rfl, rfl⟩
      split
      · rename_i heq
        exact .inl ⟨heq, rfl⟩
      · rename_i hne
        exact .inr ⟨hne, e', he', rfl, rfl⟩

end Files

end Heap

end ObjectMachine
