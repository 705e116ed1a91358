import ObjectMachine.Proofs.Memory.Integrity

namespace ObjectMachine

namespace Arenas

/-- The search by halves finds what an ordered array holds. -/
theorem foundBetween_of_getElem {xs : Array Nat}
    (sorted : ∀ i j (hj : j < xs.size) (hij : i < j), xs[i] < xs[j]) {k lo hi : Nat}
    (hk : k < xs.size) (hlo : lo ≤ k) (hhi : k < hi) (hsize : hi ≤ xs.size) :
    foundBetween xs xs[k] lo hi = true := by
  fun_induction foundBetween xs xs[k] lo hi with
  | case1 => rfl
  | case2 lo hi hlt mid y hne hsmall ih =>
    have hmid : mid < xs.size := by omega
    have hy : y = xs[mid] := by simp [y, hmid]
    -- The middle is below what is looked for, so that lies above the middle.
    have hle : ¬k ≤ mid := by
      intro hle
      rcases Nat.eq_or_lt_of_le hle with rfl | hlt
      · exact hne hy
      · have := sorted k mid hmid hlt
        omega
    exact ih (by omega) hhi hsize
  | case3 lo hi hlt mid y hne hlarge ih =>
    have hmid : mid < xs.size := by omega
    have hy : y = xs[mid] := by simp [y, hmid]
    have hlt : k < mid := by
      by_contra hge
      rcases Nat.eq_or_lt_of_le (Nat.le_of_not_lt hge) with rfl | hlt
      · exact hne hy
      · have := sorted mid k hk hlt
        omega
    exact ih hlo hlt (by omega)
  | case4 => omega

/-- What the search by halves finds is there, ordered or not. -/
theorem mem_of_foundBetween {xs : Array Nat} {x lo hi : Nat} (hsize : hi ≤ xs.size)
    (hfound : foundBetween xs x lo hi = true) : x ∈ xs := by
  fun_induction foundBetween xs x lo hi with
  | case1 lo hi hlt mid y heq =>
    have hmid : mid < xs.size := by omega
    have hy : y = xs[mid] := by simp [y, hmid]
    exact heq ▸ hy ▸ Array.getElem_mem hmid
  | case2 lo hi hlt mid y hne hsmall ih => exact ih hsize hfound
  | case3 lo hi hlt mid y hne hlarge ih => exact ih (by omega) hfound
  | case4 => cases hfound

variable {a : Arenas} {id : ArenaId} {i : Nat} {l : List Nat}

/-- Objects come in address order. -/
theorem Tiled.sorted (ht : a.Tiled id i l) : l.Pairwise (· < ·) := by
  induction l generalizing i with
  | nil => exact .nil
  | cons start rest ih =>
    obtain ⟨rfl, h, -, hrest⟩ := ht
    refine List.pairwise_cons.mpr ⟨fun x hx => ?_, ih hrest⟩
    obtain ⟨-, -, hle, -⟩ := hrest.object hx
    have := h.headerWords_le_totalWords
    simp only [headerWords] at this
    omega

theorem Tiled.found_iff (ht : a.Tiled id i l) {x : Nat} :
    foundBetween l.toArray x 0 l.toArray.size = true ↔ x ∈ l := by
  refine ⟨fun hfound => List.mem_toArray.mp (mem_of_foundBetween (Nat.le_refl _) hfound),
    fun hx => ?_⟩
  obtain ⟨k, hk, rfl⟩ := List.mem_iff_getElem.mp hx
  have hsorted : ∀ i j (hj : j < l.toArray.size) (hij : i < j),
      l.toArray[i] < l.toArray[j] := fun i j hj hij =>
    List.pairwise_iff_getElem.mp ht.sorted i j (Nat.lt_trans hij hj) hj hij
  exact foundBetween_of_getElem hsorted hk (Nat.zero_le k) hk (Nat.le_refl _)

/-- Whether an object starts at an address is found by walking over its arena. -/
instance (a : Arenas) (loc : Address) : Decidable (a.Allocated loc) :=
  match h : a.starts loc.arena with
  | .ok l => decidable_of_iff (loc.word ∈ l) (by simp [Allocated, h])
  | .error _ => isFalse (by simp [Allocated, h])

def Stale (a : Arenas) (v : Value) : Prop := ∃ loc, v.address? = some loc ∧ ¬a.Allocated loc

instance (a : Arenas) : DecidablePred a.Stale := fun v =>
  match h : v.address? with
  | some loc => decidable_of_iff (¬a.Allocated loc) (by simp [Stale, h])
  | none => isFalse (by simp [Stale, h])

theorem Sane.not_stale {v : Value} (sane : a.Sane v) : ¬a.Stale v :=
  fun ⟨_, hv, hl⟩ => hl (sane.allocated hv)

/-- What the object at an address holds: its class, and then its slots, if it has slots. -/
def heldAt (a : Arenas) (loc : Address) : List Value :=
  match a.header loc with
  | .error _ => []
  | .ok h =>
    match h.kind with
    | .pointers => h.isa :: (List.range h.size.toNat).map fun i =>
        ⟨(a.space loc.arena).getD (loc.word + headerWords + i) 0⟩
    | .bytes => [h.isa]
    | .pad | .forwarded => []

/-- What the objects of an arena hold, in address order. -/
def held (a : Arenas) (id : ArenaId) : List Value :=
  match a.starts id with
  | .error _ => []
  | .ok l => l.flatMap fun x => a.heldAt ⟨id, x⟩

theorem refers_of_mem_heldAt {loc : Address} {h : Header} (hh : a.header loc = .ok h)
    (hend : loc.word + h.totalWords ≤ a.used loc.arena) {v : Value} (hv : v ∈ a.heldAt loc) :
    a.Refers loc v := by
  rw [heldAt, hh] at hv
  simp only at hv
  split at hv
  · rename_i hkind
    rcases List.mem_cons.mp hv with rfl | hv
    · exact ⟨h, hh, .inl rfl⟩
    · obtain ⟨i, hi, rfl⟩ := List.mem_map.mp hv
      have hi' := List.mem_range.mp hi
      rw [Header.totalWords, Header.payloadWords, hkind] at hend
      simp only [used] at hend
      have hlt : loc.word + headerWords + i < (a.space loc.arena).size := by omega
      refine ⟨h, hh, .inr ⟨hkind, i, hi', word_eq_ok_iff.mpr ?_⟩⟩
      simp [hlt]
  · obtain rfl := List.mem_singleton.mp hv
    exact ⟨h, hh, .inl rfl⟩
  · cases hv
  · cases hv

section Reading

variable {σ : Type} {fix : σ → Arenas → Value → Except Fault (σ × Arenas × Value)}
  {note : σ → Value → σ}

theorem fixWord_reads {s : σ} {w : UInt64} (hw : a.word id i = .ok w)
    (reads : fix s a ⟨w⟩ = .ok (note s ⟨w⟩, a, ⟨w⟩)) :
    fixWord fix id s a i = .ok (note s ⟨w⟩, a) := by
  simp only [fixWord, hw, bind, Except.bind, reads, pure, Except.pure]
  rw [setWord_self (word_eq_ok_iff.mp hw)]

theorem fixWords_reads {count : Nat} (hend : i + count ≤ a.used id)
    (reads : ∀ s, ∀ k < count, fix s a ⟨(a.space id).getD (i + k) 0⟩ =
      .ok (note s ⟨(a.space id).getD (i + k) 0⟩, a, ⟨(a.space id).getD (i + k) 0⟩)) (s : σ) :
    fixWords fix id s a i count =
      .ok (((List.range count).map fun k => ⟨(a.space id).getD (i + k) 0⟩).foldl note s, a) := by
  induction count generalizing i s with
  | zero => rfl
  | succ count ih =>
    have hlt : i < (a.space id).size := by
      simp only [used] at hend
      omega
    have hw : a.word id i = .ok ((a.space id).getD i 0) := by
      rw [word_eq_ok_iff]
      simp [hlt]
    have hfirst := reads s 0 (Nat.zero_lt_succ _)
    rw [Nat.add_zero] at hfirst
    have hrest : ∀ s, ∀ k < count, fix s a ⟨(a.space id).getD (i + 1 + k) 0⟩ =
        .ok (note s ⟨(a.space id).getD (i + 1 + k) 0⟩, a, ⟨(a.space id).getD (i + 1 + k) 0⟩) := by
      intro s k hk
      rw [Nat.add_right_comm]
      exact reads s (k + 1) (Nat.succ_lt_succ hk)
    have hshift :
        (List.range count).map ((fun k => Value.mk ((a.space id).getD (i + k) 0)) ∘ Nat.succ) =
        (List.range count).map fun k => ⟨(a.space id).getD (i + 1 + k) 0⟩ := by
      refine List.map_congr_left fun k _ => ?_
      rw [Function.comp_apply, Nat.succ_eq_add_one, Nat.add_right_comm, Nat.add_assoc]
    simp only [fixWords, fixWord_reads hw hfirst, bind, Except.bind]
    rw [ih (by omega) hrest, List.range_succ_eq_map, List.map_cons, List.foldl_cons, List.map_map,
      hshift]
    rfl

/-- A walk whose visits put back what they are shown takes note of everything that the objects
hold, in order, and leaves the arenas as they are. -/
theorem scan_reads (ht : a.Tiled id i l)
    (reads : ∀ x ∈ l, ∀ v ∈ a.heldAt ⟨id, x⟩, ∀ s, fix s a v = .ok (note s v, a, v)) (s : σ) :
    scan fix id s a i (a.used id) =
      .ok ((l.flatMap fun x => a.heldAt ⟨id, x⟩).foldl note s, a) := by
  induction l generalizing i s with
  | nil =>
    rw [scan, if_neg (by rw [show i = a.used id from ht]; omega)]
    rfl
  | cons start rest ih =>
    obtain ⟨rfl, h, hh, hrest⟩ := ht
    have hin := lt_used_of_header hh
    simp only at hin
    have hnext := ih hrest fun x hx => reads x (List.mem_cons_of_mem _ hx)
    have hreads := reads start List.mem_cons_self
    obtain ⟨isa, packed, hisa, -, rfl⟩ := header_eq_ok_iff.mp hh
    rw [scan, if_pos (by omega), hh, List.flatMap_cons, List.foldl_append]
    simp only [bind, Except.bind]
    rw [heldAt, hh] at hreads ⊢
    simp only at hreads ⊢
    cases hkind : (Header.ofWords isa packed).kind with
    | pad => exact hnext s
    | forwarded => exact hnext s
    | bytes =>
      simp only [hkind] at hreads
      have hclass := fixWord_reads (word_eq_ok_iff.mpr hisa) (hreads _ List.mem_cons_self s)
      simp only [hclass, reduceCtorEq, if_false, fixWords, pure, Except.pure, hh]
      exact hnext _
    | pointers =>
      simp only [hkind] at hreads
      have hclass := fixWord_reads (word_eq_ok_iff.mpr hisa) (hreads _ List.mem_cons_self s)
      have hend : start + headerWords + (Header.ofWords isa packed).size.toNat ≤ a.used id := by
        have := hrest.le_used
        rwa [Header.totalWords, Header.payloadWords, hkind, ← Nat.add_assoc] at this
      have hslots := fixWords_reads hend (fun s k hk => hreads _ (List.mem_cons_of_mem _
        (List.mem_map.mpr ⟨k, List.mem_range.mpr hk, rfl⟩)) s) (note s ⟨isa⟩)
      simp only [hclass, if_true, hslots, hh]
      exact hnext _

end Reading

end Arenas

namespace Heap

variable {h : Heap}

open Arenas

def noted (a : Arenas) (holder : ArenaId) (problem : Option HeapError) (v : Value) :
    Option HeapError :=
  if a.Stale v then problem.or (some (.dangling holder v)) else problem

theorem found_iff_allocated {a : Arenas} (laid : a.Laid) {loc : Address} {l : List Nat}
    (ht : a.Tiled loc.arena firstObject l) :
    foundBetween l.toArray loc.word 0 l.length = true ↔ a.Allocated loc := by
  rw [← List.size_toArray, ht.found_iff, allocated_iff (laid.pad _) ht]

theorem isObject_of_allocated {a : Arenas} (laid : a.Laid) {loc : Address}
    (hl : a.Allocated loc) : ∃ header, a.header loc = .ok header ∧ header.kind.isObject = true := by
  obtain ⟨header, hh, hkind, -⟩ := laid.object hl
  refine ⟨header, hh, ?_⟩
  rw [hkind]
  cases loc.arena <;> rfl

/-- An address is looked up among the objects first, so only the header of an object is read. -/
theorem noteDangling_eq (laid : h.arenas.Laid) {pointers leaf : List Nat}
    (hpointers : h.arenas.Tiled .pointers firstObject pointers)
    (hleaf : h.arenas.Tiled .leaf firstObject leaf) (holder : ArenaId)
    (problem : Option HeapError) (v : Value) :
    noteDangling pointers.toArray leaf.toArray holder problem h.arenas v =
      .ok (noted h.arenas holder problem v, h.arenas, v) := by
  rw [noteDangling, noted]
  cases hv : v.address? with
  | none => simp [Stale, hv, pure, Except.pure]
  | some loc =>
    have hstale : h.arenas.Stale v ↔ ¬h.arenas.Allocated loc := by simp [Stale, hv]
    have hfound : ∀ {l}, h.arenas.Tiled loc.arena firstObject l →
        (foundBetween l.toArray loc.word 0 l.length = true ↔ h.arenas.Allocated loc) :=
      fun ht => found_iff_allocated laid ht
    by_cases hl : h.arenas.Allocated loc
    · obtain ⟨header, hh, hlive⟩ := isObject_of_allocated laid hl
      obtain ⟨arena, word⟩ := loc
      cases arena with
      | pointers =>
        simp [hstale, hl, (hfound hpointers).mpr hl, hh, hlive, bind, Except.bind, pure,
          Except.pure]
      | leaf =>
        simp [hstale, hl, (hfound hleaf).mpr hl, hh, hlive, bind, Except.bind, pure, Except.pure]
    · obtain ⟨arena, word⟩ := loc
      cases arena with
      | pointers =>
        simp [hstale, hl, mt (hfound hpointers).mp hl, bind, Except.bind, pure, Except.pure]
      | leaf => simp [hstale, hl, mt (hfound hleaf).mp hl, bind, Except.bind, pure, Except.pure]

def firstStale (a : Arenas) (holder : ArenaId) : Option HeapError :=
  ((a.held holder).find? (a.Stale ·)).map (.dangling holder)

theorem foldl_noted (a : Arenas) (holder : ArenaId) (vs : List Value)
    (problem : Option HeapError) :
    vs.foldl (noted a holder) problem =
      problem.or ((vs.find? (a.Stale ·)).map (.dangling holder)) := by
  induction vs generalizing problem with
  | nil => simp
  | cons v vs ih =>
    rw [List.foldl_cons, ih, noted, List.find?_cons]
    by_cases hv : a.Stale v
    · cases problem <;> simp [hv]
    · simp [hv]

/-- An inspection reports the first stale reference, those of the pointer arena before those of the
leaf arena, and changes nothing. -/
theorem Sound.inspect_eq (sound : h.Sound) {pointers leaf : List Nat}
    (hpointers : h.arenas.Tiled .pointers firstObject pointers)
    (hleaf : h.arenas.Tiled .leaf firstObject leaf) :
    h.inspect = .ok (h, match (firstStale h.arenas .pointers).or (firstStale h.arenas .leaf) with
      | some e => .error e
      | none => .ok (pointers.length + leaf.length)) := by
  have hstarts : ∀ {id l}, h.arenas.Tiled id firstObject l → h.arenas.starts id = .ok l :=
    fun ht => starts_eq (sound.laid.pad _) ht
  have hscan : ∀ {id l}, h.arenas.Tiled id firstObject l → ∀ problem,
      h.arenas.scan (noteDangling pointers.toArray leaf.toArray id) id problem firstObject
        (h.arenas.used id) = .ok (problem.or (firstStale h.arenas id), h.arenas) := by
    intro id l ht problem
    rw [scan_reads ht (fun _ _ v _ problem =>
      noteDangling_eq sound.laid hpointers hleaf id problem v), foldl_noted, firstStale, held,
      hstarts ht]
  simp only [inspect, starts, hstarts hpointers, hstarts hleaf, bind, Except.bind,
    hscan hpointers, hscan hleaf, Option.none_or]
  cases (firstStale h.arenas .pointers).or (firstStale h.arenas .leaf) <;> rfl

theorem Whole.not_stale_of_mem (whole : h.Whole) {id : ArenaId} {v : Value}
    (hv : v ∈ h.arenas.held id) : ¬h.arenas.Stale v := by
  obtain ⟨l, ht⟩ := whole.sound.laid.tiled id
  rw [held, starts_eq (whole.sound.laid.pad _) ht] at hv
  obtain ⟨x, hx, hv⟩ := List.mem_flatMap.mp hv
  obtain ⟨header, hh, -, hend⟩ := ht.object hx
  have hl : h.arenas.Allocated ⟨id, x⟩ := (allocated_iff (whole.sound.laid.pad _) ht).mpr hx
  exact (whole.closed _ hl v (refers_of_mem_heldAt hh hend hv)).not_stale

/-- The check passes on every heap without stale references. -/
theorem Whole.verify (whole : h.Whole) : ∃ count, h.verify = .ok (.ok count) := by
  obtain ⟨pointers, hpointers⟩ := whole.sound.laid.tiled .pointers
  obtain ⟨leaf, hleaf⟩ := whole.sound.laid.tiled .leaf
  have hnone : ∀ id, firstStale h.arenas id = none := fun id =>
    Option.map_eq_none_iff.mpr (List.find?_eq_none.mpr fun v hv => by
      simpa using whole.not_stale_of_mem hv)
  refine ⟨pointers.length + leaf.length, ?_⟩
  simp only [Heap.verify, whole.sound.inspect_eq hpointers hleaf, hnone, bind, Except.bind]
  rfl

end Heap

end ObjectMachine
