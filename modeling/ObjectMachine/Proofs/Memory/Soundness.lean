import Mathlib.Logic.Relation
import ObjectMachine.Proofs.Action
import ObjectMachine.Proofs.Memory.Collection

namespace ObjectMachine

namespace Arenas

variable {a b : Arenas}

/-- The layout depends on nothing but the lengths in the headers. -/
theorem Laid.congr (laid : a.Laid) (used : ∀ id, b.used id = a.used id)
    (pad : ∀ id, b.header ⟨id, 0⟩ = a.header ⟨id, 0⟩)
    (same : ∀ loc, a.Allocated loc →
      (b.space loc.arena)[loc.word + 1]? = (a.space loc.arena)[loc.word + 1]?) :
    b.Laid ∧ ∀ loc, b.Allocated loc ↔ a.Allocated loc := by
  have header : ∀ loc, a.Allocated loc → ∀ h, a.header loc = .ok h →
      ∃ isa, b.header loc = .ok { h with isa := isa } := by
    intro loc hl h hh
    obtain ⟨w, p, hw, hp, rfl⟩ := header_eq_ok_iff.mp hh
    have hp' := (same loc hl).trans hp
    have hlt : loc.word < (b.space loc.arena).size :=
      Nat.lt_of_succ_lt (Array.getElem?_eq_some_iff.mp hp').1
    exact ⟨⟨_⟩, header_eq_ok_iff.mpr ⟨_, p, Array.getElem?_eq_getElem hlt, hp', rfl⟩⟩
  choose l ht using laid.tiled
  have allocated : ∀ loc, a.Allocated loc ↔ loc.word ∈ l loc.arena :=
    fun loc => allocated_iff (laid.pad loc.arena) (ht loc.arena)
  have ht' : ∀ id, b.Tiled id firstObject (l id) := by
    intro id
    refine (ht id).congr (used id) fun x hx h hh => ?_
    obtain ⟨isa, hh'⟩ := header ⟨id, x⟩ ((allocated ⟨id, x⟩).mpr hx) h hh
    exact ⟨_, hh', rfl⟩
  have pad' : ∀ id, b.header ⟨id, 0⟩ = .ok (Header.pad 0) := fun id => (pad id).trans (laid.pad id)
  have hiff : ∀ loc, b.Allocated loc ↔ a.Allocated loc := by
    intro loc
    rw [allocated loc, allocated_iff (pad' loc.arena) (ht' loc.arena)]
  refine ⟨⟨pad', fun id => ⟨l id, ht' id⟩, fun loc hl h hh => ?_⟩, hiff⟩
  obtain ⟨h', hh', hkind, -⟩ := laid.object ((hiff loc).mp hl)
  obtain ⟨isa, hb⟩ := header loc ((hiff loc).mp hl) h' hh'
  obtain rfl := Except.ok.inj (hb.symm.trans hh)
  exact hkind

/-- Two objects do not share a word. -/
theorem Laid.apart (laid : a.Laid) {loc loc' : Address} (hl : a.Allocated loc)
    (hl' : a.Allocated loc') (harena : loc.arena = loc'.arena) {j j' : Nat}
    (hj : j < a.extent loc) (hj' : j' < a.extent loc')
    (same : loc.word + j = loc'.word + j') : loc = loc' ∧ j = j' := by
  obtain ⟨l, ht⟩ := laid.tiled loc.arena
  have hx := (allocated_iff (laid.pad _) ht).mp hl
  have hy := (allocated_iff (laid.pad loc'.arena) (harena ▸ ht)).mp hl'
  rcases Nat.lt_trichotomy loc.word loc'.word with hlt | heq | hlt
  · have : loc.word + a.extent loc ≤ loc'.word := ht.apart hx hy hlt
    omega
  · refine ⟨?_, by omega⟩
    obtain ⟨_, _⟩ := loc
    obtain ⟨_, _⟩ := loc'
    simp_all
  · rw [harena] at ht
    have : loc'.word + a.extent loc' ≤ loc.word := ht.apart hy hx hlt
    omega

/-- Any word of an object but the second may be overwritten. -/
theorem Laid.setWord (laid : a.Laid) {loc : Address} (hl : a.Allocated loc) {j : Nat}
    (hj : j < a.extent loc) (hj₁ : j ≠ 1) (w : UInt64) :
    (a.setWord loc.arena (loc.word + j) w).Laid ∧
      ∀ loc', (a.setWord loc.arena (loc.word + j) w).Allocated loc' ↔ a.Allocated loc' := by
  obtain ⟨-, -, -, hfirst, -⟩ := laid.object hl
  simp only [firstObject, headerWords] at hfirst
  refine laid.congr (fun id => used_setWord ..) (fun id => ?_) fun loc' hl' => ?_
  · obtain ⟨w', p, hw', hp, heq⟩ := header_eq_ok_iff.mp (laid.pad id)
    rw [laid.pad id, header_eq_ok_iff]
    refine ⟨w', p, ?_, ?_, heq⟩
    · rw [getElem?_setWord, if_neg, hw']
      simp only
      omega
    · rw [getElem?_setWord, if_neg, hp]
      simp only
      omega
  · rw [getElem?_setWord, if_neg]
    rintro ⟨harena, hword⟩
    obtain ⟨h', hh', -⟩ := laid.object hl'
    have hpos : 1 < a.extent loc' := by
      rw [extent_eq hh']
      exact h'.headerWords_le_totalWords
    exact hj₁ (laid.apart hl' hl harena hpos hj hword).2.symm

/-- One more object at the end of an arena. -/
theorem Laid.append (laid : a.Laid) {id : ArenaId} {header : Header} {ws : Array UInt64}
    (kind : header.kind = id.objectKind) (h₀ : ws[0]? = some header.isa.raw)
    (h₁ : ws[1]? = some header.packed) (size : ws.size = header.totalWords) :
    (a.append id ws).2.Laid ∧ ∀ loc, (a.append id ws).2.Allocated loc ↔
      a.Allocated loc ∨ loc = ⟨id, a.used id⟩ := by
  have last : (a.append id ws).2.header ⟨id, a.used id⟩ =
      .ok (.ofWords header.isa.raw header.packed) := by
    refine header_eq_ok_iff.mpr ⟨_, _, ?_, ?_, rfl⟩
    · exact (getElem?_append_right 0).trans h₀
    · exact (getElem?_append_right 1).trans h₁
  choose l ht using laid.tiled
  have pad : ∀ id', (a.append id ws).2.header ⟨id', 0⟩ = .ok (Header.pad 0) :=
    fun id' => header_append (laid.pad id')
  have ht' : ∀ id', (a.append id ws).2.Tiled id' firstObject
      (if id' = id then l id ++ [a.used id] else l id') := by
    intro id'
    by_cases hid : id' = id
    · subst hid
      rw [if_pos rfl]
      refine (ht id').snoc last ?_ fun x hx => ?_
      · rw [used_append, if_pos rfl, size, header.totalWords_ofWords_packed]
      · obtain ⟨h, hh, -⟩ := (ht id').object hx
        rw [hh, header_append hh]
    · rw [if_neg hid]
      exact (ht id').congr (by rw [used_append, if_neg hid, Nat.add_zero])
        fun x _ h hh => ⟨h, header_append hh, rfl⟩
  have hiff : ∀ loc, (a.append id ws).2.Allocated loc ↔
      a.Allocated loc ∨ loc = ⟨id, a.used id⟩ := by
    intro loc
    rw [allocated_iff (pad _) (ht' _), allocated_iff (laid.pad _) (ht _)]
    obtain ⟨arena, x⟩ := loc
    by_cases hid : arena = id
    · subst hid
      simp
    · simp [hid]
  refine ⟨⟨pad, fun id' => ⟨_, ht' id'⟩, fun loc hl h hh => ?_⟩, hiff⟩
  rcases (hiff loc).mp hl with hl | rfl
  · obtain ⟨h', hh', hkind, -⟩ := laid.object hl
    obtain rfl := Except.ok.inj ((header_append hh').symm.trans hh)
    exact hkind
  · obtain rfl := Except.ok.inj (last.symm.trans hh)
    rw [Header.kind_ofWords, header.ofBits_packed, kind]

theorem laid_empty : empty.Laid := by
  have pad : ∀ id, empty.header ⟨id, 0⟩ = .ok (Header.pad 0) := by
    intro id
    cases id <;> decide
  have tiled : ∀ id, empty.Tiled id firstObject [] := by
    intro id
    cases id <;> rfl
  refine ⟨pad, fun id => ⟨[], tiled id⟩, fun loc hl => ?_⟩
  rw [allocated_iff (pad _) (tiled _)] at hl
  cases hl

end Arenas

namespace Heap

theorem pushZeros_eq (s : Array UInt64) (n : Nat) : pushZeros s n = s ++ Array.replicate n 0 := by
  induction n generalizing s with
  | zero => simp [pushZeros]
  | succ n ih =>
    rw [pushZeros, ih]
    apply Array.toList_inj.mp
    simp [List.replicate_succ]

theorem pushPacked_eq (bytes : Array UInt8) (s : Array UInt64) (i n : Nat) :
    pushPacked bytes s i n = s ++ ((List.range' i n).map (packedWord bytes)).toArray := by
  induction n generalizing s i with
  | zero => simp [pushPacked]
  | succ n ih => rw [pushPacked, ih, List.range'_succ, List.map_cons]; simp

def objectWords (header : Header) (payload : Array UInt64) : Array UInt64 :=
  #[header.isa.raw, header.packed] ++ payload

/-- What an allocation does: it fails and uses up a hash, or puts an object at the end. -/
theorem allocate_cases (h : Heap) (arena : ArenaId) (isa : Value) (kind : ObjectKind)
    (size : UInt32) {fill : Array UInt64 → Array UInt64} {payload : Array UInt64}
    (hfill : ∀ s, fill s = s ++ payload) :
    allocate arena isa kind size fill h =
      .error (.failure (.exhausted arena (Header.mk isa kind h.nextHash.toUInt32 size).totalWords
        (h.used arena) h.capacity)) { h with nextHash := hashAfter h.nextHash } ∨
    (h.used arena + (Header.mk isa kind h.nextHash.toUInt32 size).totalWords ≤ h.capacity ∧
      allocate arena isa kind size fill h = .ok (.ofAddress ⟨arena, h.used arena⟩)
        { h with
          arenas := (h.arenas.append arena
            (objectWords ⟨isa, kind, h.nextHash.toUInt32, size⟩ payload)).2
          nextHash := hashAfter h.nextHash
          stats := { h.stats with
            objects := h.stats.objects + 1
            words := h.stats.words +
              (Header.mk isa kind h.nextHash.toUInt32 size).totalWords } }) := by
  by_cases hfit :
      h.used arena + (Header.mk isa kind h.nextHash.toUInt32 size).totalWords ≤ h.capacity
  · refine .inr ⟨hfit, ?_⟩
    simp only [allocate, if_neg (Nat.not_lt.mpr hfit)]
    congr 2
    rw [Arenas.append]
    simp only
    congr 1
    funext s
    rw [hfill, objectWords]
    apply Array.toList_inj.mp
    simp
  · left
    simp only [allocate, if_pos (Nat.lt_of_not_le hfit)]

theorem size_objectWords {header : Header} {payload : Array UInt64}
    (size : payload.size = header.payloadWords) :
    (objectWords header payload).size = header.totalWords := by
  simp [objectWords, size, Header.totalWords]

theorem Sound.laid_append {h : Heap} (sound : h.Sound) (arena : ArenaId) (header : Header)
    (payload : Array UInt64) (kind : header.kind = arena.objectKind)
    (size : payload.size = header.payloadWords) :
    (h.arenas.append arena (objectWords header payload)).2.Laid ∧
      ∀ loc, (h.arenas.append arena (objectWords header payload)).2.Allocated loc ↔
        h.arenas.Allocated loc ∨ loc = ⟨arena, h.used arena⟩ := by
  have h₀ : (objectWords header payload)[0]? = some header.isa.raw := by simp [objectWords]
  have h₁ : (objectWords header payload)[1]? = some header.packed := by
    rw [objectWords, Array.getElem?_append_left (by simp)]
    rfl
  exact sound.laid.append kind h₀ h₁ (size_objectWords size)

theorem Sound.append {h : Heap} (sound : h.Sound) {arena : ArenaId} {header : Header}
    {payload : Array UInt64} (kind : header.kind = arena.objectKind)
    (size : payload.size = header.payloadWords)
    (hfit : h.used arena + header.totalWords ≤ h.capacity) (nextHash : Nat) (stats : HeapStats) :
    Sound { h with
      arenas := (h.arenas.append arena (objectWords header payload)).2, nextHash, stats } := by
  refine ⟨(sound.laid_append arena header payload kind size).1, fun id => ?_, sound.small⟩
  change Arenas.used _ id ≤ h.capacity
  have hused := sound.fits id
  rw [Arenas.used_append, size_objectWords size]
  split
  case isTrue hid => subst hid; exact hfit
  case isFalse => exact hused

theorem Sound.hash {h : Heap} (sound : h.Sound) (nextHash : Nat) : Sound { h with nextHash } :=
  ⟨sound.laid, sound.fits, sound.small⟩

/-- An allocation leaves a sound heap, whether or not there was room. -/
theorem allocate_sound (arena : ArenaId) (isa : Value) (size : UInt32)
    {fill : Array UInt64 → Array UInt64} {payload : Array UInt64}
    (hfill : ∀ s, fill s = s ++ payload)
    (hsize : ∀ hash, payload.size = (Header.mk isa arena.objectKind hash size).payloadWords) :
    Action.Keeps (allocate arena isa arena.objectKind size fill) Sound := by
  intro h sound
  rcases h.allocate_cases arena isa arena.objectKind size hfill with herr | ⟨hfit, hok⟩
  · rw [herr]
    exact sound.hash _
  · rw [hok]
    exact sound.append rfl (hsize _) hfit _ _

theorem allocatePointers_sound (isa : Value) (slots : Nat) :
    Action.Keeps (allocatePointers isa slots) Sound :=
  allocate_sound .pointers isa _ (fun s => pushZeros_eq s _) fun _ => Array.size_replicate

theorem allocateBytes_sound (isa : Value) (bytes : Array UInt8) :
    Action.Keeps (allocateBytes isa bytes) Sound := by
  apply Action.Keeps.bind
  · apply allocate_sound .leaf isa _ fun s => pushPacked_eq bytes s 0 _
    intro hash
    simp [Header.payloadWords, ArenaId.objectKind]
  · intro object
    split
    · exact .pure object
    · exact .fault _

variable {h h' : Heap}

theorem Sound.write (sound : h.Sound) {loc : Address} (hl : h.arenas.Allocated loc) {j : Nat}
    (hj : j < h.arenas.extent loc) (hj₁ : j ≠ 1) (w : UInt64) :
    Sound { h with arenas := h.arenas.setWord loc.arena (loc.word + j) w } := by
  refine ⟨(sound.laid.setWord hl hj hj₁ w).1, fun id => ?_, sound.small⟩
  change Arenas.used _ id ≤ h.capacity
  rw [Arenas.used_setWord]
  exact sound.fits id

theorem Sound.setClass (sound : h.Sound) {ε : Type} {v isa : Value} (sane : h.arenas.Sane v)
    (hset : Heap.setClass v isa (ε := ε) h = .ok () h') : h'.Sound := by
  rw [Heap.setClass, locate] at hset
  cases hv : v.address? with
  | none => simp [hv] at hset
  | some loc =>
    have hl := sane.allocated hv
    obtain ⟨header, hh, -⟩ := sound.laid.object hl
    have hpos : 0 < h.arenas.extent loc := by
      rw [Arenas.extent_eq hh]
      exact Nat.lt_of_lt_of_le Nat.zero_lt_two header.headerWords_le_totalWords
    simp only [hv] at hset
    split at hset
    · cases hset
      exact sound.write hl hpos Nat.zero_ne_one isa.raw
    · cases hset

theorem Sound.setSlot (sound : h.Sound) {ε : Type} {v x : Value} {i : Nat} (sane : h.arenas.Sane v)
    (hset : Heap.setSlot v i x (ε := ε) h = .ok () h') : h'.Sound := by
  rw [Heap.setSlot, slotWord, locate] at hset
  cases hv : v.address? with
  | none => simp [hv, bind, Except.bind] at hset
  | some loc =>
    have hl := sane.allocated hv
    obtain ⟨header, hh, -⟩ := sound.laid.object hl
    simp only [hv, bind, Except.bind, hh] at hset
    by_cases hi : header.kind = .pointers ∧ i < header.size.toNat
    · have hj : headerWords + i < h.arenas.extent loc := by
        rw [Arenas.extent_eq hh, Header.totalWords, Header.payloadWords, hi.1]
        exact Nat.add_lt_add_left hi.2 _
      simp only [if_pos hi, pure, Except.pure] at hset
      split at hset
      · cases hset
        rw [Nat.add_assoc]
        exact sound.write hl hj (by simp only [headerWords]; omega) x.raw
      · cases hset
    · simp only [if_neg hi] at hset
      cases hset

theorem Sound.collect (sound : h.Sound) (closed : h.arenas.Closed) {roots roots' : List Value}
    (sane : ∀ v ∈ roots, h.arenas.Sane v) {r : Except HeapError Collection}
    (hc : h.collect roots = .ok (h', roots', r)) : h'.Sound := by
  obtain ⟨starts, g⟩ := sound.ground closed sane
  obtain ⟨h₁, roots₁, live, moves, source, hcollect, hcap, c, -⟩ := collect_copies sound g
  obtain ⟨rfl, -⟩ := Prod.mk.inj (Except.ok.inj (hcollect.symm.trans hc))
  refine ⟨c.laid g, fun id => ?_, hcap ▸ sound.small⟩
  rw [hcap]
  exact Nat.le_trans (c.used_le g id) (sound.fits id)

theorem create_sound {settings : HeapSettings} (hc : create settings = .ok h) : h.Sound := by
  rw [create] at hc
  cases hcheck : settings.check with
  | error e => simp [hcheck, bind, Except.bind] at hc
  | ok u =>
    simp only [hcheck, bind, Except.bind, pure, Except.pure] at hc
    cases hc
    have hbounds : 1024 ≤ settings.arenaWords ∧ settings.arenaWords < 0x100000000 := by
      rw [HeapSettings.check] at hcheck
      split at hcheck
      · cases hcheck
      · split at hcheck
        · cases hcheck
        · omega
    refine ⟨Arenas.laid_empty, fun id => ?_, hbounds.2⟩
    have hused : Arenas.empty.used id ≤ 1024 := by cases id <;> decide
    exact Nat.le_trans hused hbounds.1

/-- A step of a program on the heap. Only objects are written to, and a collection finds nothing
but nil, integers and objects. -/
inductive Step : Heap → Heap → Prop where
  | pointers {h h' : Heap} {isa v : Value} {slots : Nat} :
    allocatePointers isa slots h = .ok v h' → Step h h'
  | bytes {h h' : Heap} {isa v : Value} {content : Array UInt8} :
    allocateBytes isa content h = .ok v h' → Step h h'
  | pointersRefused {h h' : Heap} {isa : Value} {slots : Nat} {e : HeapError} :
    allocatePointers isa slots h = .error (.failure e) h' → Step h h'
  | bytesRefused {h h' : Heap} {isa : Value} {content : Array UInt8} {e : HeapError} :
    allocateBytes isa content h = .error (.failure e) h' → Step h h'
  | slot {h h' : Heap} {ε : Type} {v x : Value} {i : Nat} :
    h.arenas.Sane v → setSlot v i x (ε := ε) h = .ok () h' → Step h h'
  | isa {h h' : Heap} {ε : Type} {v x : Value} :
    h.arenas.Sane v → setClass v x (ε := ε) h = .ok () h' → Step h h'
  | collect {h h' : Heap} {roots roots' : List Value} {r : Except HeapError Collection} :
    h.arenas.Closed → (∀ v ∈ roots, h.arenas.Sane v) → h.collect roots = .ok (h', roots', r) →
    Step h h'

theorem Step.sound (step : Step h h') (hs : h.Sound) : h'.Sound := by
  cases step with
  | pointers heq => exact (allocatePointers_sound _ _).ok hs heq
  | bytes heq => exact (allocateBytes_sound _ _).ok hs heq
  | pointersRefused heq => exact (allocatePointers_sound _ _).error hs heq
  | bytesRefused heq => exact (allocateBytes_sound _ _).error hs heq
  | slot sane heq => exact hs.setSlot sane heq
  | isa sane heq => exact hs.setClass sane heq
  | collect closed sane heq => exact hs.collect closed sane heq

/-- Whatever a program does with a new heap, the heap is sound. -/
theorem sound_of_steps {settings : HeapSettings} (hc : create settings = .ok h)
    (steps : Relation.ReflTransGen Step h h') : h'.Sound := by
  induction steps with
  | refl => exact create_sound hc
  | tail _ step ih => exact step.sound ih

end Heap

end ObjectMachine
