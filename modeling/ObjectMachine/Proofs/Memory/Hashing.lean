import Mathlib.Tactic.SplitIfs
import ObjectMachine.Proofs.Memory.Accounting

namespace ObjectMachine

namespace Heap

def hashOf (attempt : Nat) : Nat := (attempt - 1) % (hashLimit - 1) + 1

theorem hashOf_pos (k : Nat) : 0 < hashOf k := Nat.succ_pos _

theorem hashOf_lt (k : Nat) : hashOf k < hashLimit := by
  simp only [hashOf, hashLimit]
  omega

theorem hashAfter_hashOf (n : Nat) : hashAfter (hashOf (n + 1)) = hashOf (n + 2) := by
  rw [hashAfter]
  split
  all_goals
    simp only [hashOf, hashLimit] at *
    omega

/-- Attempts that are not a whole round of the counter apart use up different hashes. -/
theorem hashOf_ne {j k : Nat} (hj : 0 < j) (hlt : j < k) (hnear : k < j + (hashLimit - 1)) :
    hashOf j ≠ hashOf k := by
  simp only [hashOf, hashLimit] at *
  omega

/-- A heap with a register of its objects: how often an allocation was attempted, and which attempt
made which of the objects that are left. -/
structure Register where
  heap : Heap
  attempts : Nat
  born : Value → Nat → Prop

/-- An object was made at the end of its arena, and the next hash went into its header. -/
structure Numbers (h h' : Heap) (v : Value) : Prop where
  sound : h'.Sound
  nextHash : h'.nextHash = hashAfter h.nextHash
  place : ∃ new, v = .ofAddress new ∧ ¬h.arenas.Allocated new ∧
    (∀ loc, h'.arenas.Allocated loc ↔ h.arenas.Allocated loc ∨ loc = new) ∧
    ∃ header, h'.arenas.header new = .ok header ∧ header.hash.toNat = h.nextHash
  header : ∀ {loc header}, h.arenas.header loc = .ok header → h'.arenas.header loc = .ok header

variable {h h' : Heap} {v isa : Value} {order : Order}

theorem allocate_numbers (sound : h.Sound) (hhash : h.nextHash < hashLimit) (id : ArenaId)
    {size : UInt32} {fill : Array UInt64 → Array UInt64} {payload : Array UInt64}
    (hfill : ∀ s, fill s = s ++ payload)
    (hsize : ∀ hash, payload.size = (Header.mk isa id.objectKind hash size).payloadWords)
    (heq : allocate id isa id.objectKind size fill h = .ok v h') : h.Numbers h' v := by
  have sound' := (allocate_sound id isa size hfill hsize).ok sound heq
  let header : Header := ⟨isa, id.objectKind, h.nextHash.toUInt32, size⟩
  have hfits : header.hash.toNat = h.nextHash := by
    simp only [hashLimit] at hhash
    simp [header, Nat.toUInt32]
    omega
  obtain ⟨-, hallocated⟩ := sound.laid_append id header payload rfl (hsize _)
  rcases h.allocate_cases id isa id.objectKind size hfill with herr | ⟨-, hok⟩
  · cases herr.symm.trans heq
  · obtain ⟨rfl, rfl⟩ := EStateM.Result.ok.inj (hok.symm.trans heq)
    have h₀ : (objectWords header payload)[0]? = some isa.raw := by simp [objectWords, header]
    have h₁ : (objectWords header payload)[1]? = some header.packed := by
      rw [objectWords, Array.getElem?_append_left (by simp)]
      rfl
    have hlast : (h.arenas.append id (objectWords header payload)).2.header ⟨id, h.used id⟩ =
        .ok header := by
      refine Arenas.header_eq_ok_iff.mpr ⟨isa.raw, header.packed,
        (Arenas.getElem?_append_right 0).trans h₀, (Arenas.getElem?_append_right 1).trans h₁, ?_⟩
      exact (Header.ofWords_packed (hfits ▸ hhash)).symm
    refine ⟨sound', rfl, ⟨⟨id, h.used id⟩, rfl, fun hl => ?_, hallocated, header, hlast, hfits⟩,
      Arenas.header_append⟩
    -- No object starts where the arena ends.
    obtain ⟨header', -, -, -, hend⟩ := sound.laid.object hl
    have := header'.headerWords_le_totalWords
    simp only [headerWords, used] at this hend
    omega

theorem order_numbers (sound : h.Sound) (hhash : h.nextHash < hashLimit)
    (heq : order.allocate isa h = .ok v h') : h.Numbers h' v := by
  cases order with
  | slots count =>
    exact allocate_numbers sound hhash .pointers (fun s => pushZeros_eq s _)
      (fun _ => Array.size_replicate) heq
  | bytes content =>
    rw [Order.allocate, allocateBytes, bind_eq_ok] at heq
    obtain ⟨object, h₁, hallocate, hreturn⟩ := heq
    rw [ite_eq_ok, pure_eq_ok, fault_eq_ok, and_false, or_false] at hreturn
    obtain ⟨-, rfl, rfl⟩ := hreturn
    refine allocate_numbers sound hhash .leaf (fun s => pushPacked_eq content s 0 _)
      (fun _ => ?_) hallocate
    simp [Header.payloadWords, ArenaId.objectKind]

/-- However an attempt ends, it uses up a hash. -/
theorem allocate_nextHash (id : ArenaId) (isa : Value) (kind : ObjectKind) (size : UInt32)
    (fill : Array UInt64 → Array UInt64) (h : Heap) :
    match allocate id isa kind size fill h with
    | .ok _ h' | .error _ h' => h'.nextHash = hashAfter h.nextHash := by
  simp only [allocate]
  split_ifs <;> rfl

theorem order_nextHash (order : Order) (isa : Value) (h : Heap) :
    match order.allocate isa h with
    | .ok _ h' | .error _ h' => h'.nextHash = hashAfter h.nextHash := by
  cases order with
  | slots count =>
    simp only [Order.allocate, allocatePointers]
    exact allocate_nextHash ..
  | bytes content =>
    have hhash := allocate_nextHash .leaf isa .bytes content.size.toUInt32
      (pushPacked content · 0 ((content.size.toUInt32.toNat + 7) / 8)) h
    simp only [Order.allocate, allocateBytes]
    cases hallocate : allocate .leaf isa .bytes content.size.toUInt32
      (pushPacked content · 0 ((content.size.toUInt32.toNat + 7) / 8)) h with
    | ok v h₁ =>
      rw [hallocate] at hhash
      rw [bind_of_eq_ok hallocate]
      split_ifs <;> exact hhash
    | error e h₁ =>
      rw [hallocate] at hhash
      rw [bind_of_eq_error hallocate]
      exact hhash

theorem collect_nextHash {roots roots' : List Value} {answer : Except HeapError Collection}
    (heq : h.collect roots = .ok (h', roots', answer)) : h'.nextHash = h.nextHash := by
  obtain ⟨⟨source, target, moved⟩, -, heq⟩ := except_bind_eq_ok.mp heq
  obtain ⟨⟨source', target'⟩, -, heq⟩ := except_bind_eq_ok.mp heq
  dsimp only at heq
  split at heq <;> cases heq <;> rfl

theorem Sound.ofAddress_inj (sound : h.Sound) {loc loc' : Address} (hl : h.arenas.Allocated loc)
    (hl' : h.arenas.Allocated loc') (heq : Value.ofAddress loc = .ofAddress loc') : loc = loc' := by
  have hb := sound.bounds hl
  have hb' := sound.bounds hl'
  have hloc := Value.address?_ofAddress hb.1 hb.2
  rw [heq, Value.address?_ofAddress hb'.1 hb'.2] at hloc
  exact (Option.some.inj hloc).symm

theorem Sound.identityHash (sound : h.Sound) {loc : Address} (hl : h.arenas.Allocated loc)
    {header : Header} (hh : h.arenas.header loc = .ok header) :
    h.identityHash (.ofAddress loc) = .ok header.hash.toNat := by
  obtain ⟨hsmall, hpos⟩ := sound.bounds hl
  have hloc := Value.address?_ofAddress hsmall hpos
  have href : (Value.ofAddress loc).isReference := by
    by_contra hnot
    rw [Value.address?, if_neg hnot] at hloc
    cases hloc
  simp only [Value.isReference, Bool.and_eq_true, bne_iff_ne, beq_iff_eq] at href
  have hinteger : (Value.ofAddress loc).toInt? = none := by
    simp [Value.toInt?, Value.isInteger, href]
  have hnil : (Value.ofAddress loc).isNil = false := by simp [Value.isNil, href]
  simp only [Heap.identityHash, hinteger, hnil, header_ofAddress h hsmall hpos, hh, bind,
    Except.bind]
  rfl

namespace Register

/-- What is left of the register after a collection that took objects where `f` says. -/
def collected (c : Register) (h' : Heap) (roots : List Value) (f : Address → Address) :
    Register where
  heap := h'
  attempts := c.attempts
  born v k := ∃ loc, c.born (.ofAddress loc) k ∧ c.heap.arenas.Reachable roots loc ∧
    v = .ofAddress (f loc)

/-- An attempt to allocate that succeeds or is refused, or a collection. Its roots, and what the
objects hold, are nil, integers and objects. -/
inductive Step : Register → Register → Prop where
  | made {c : Register} {order : Order} {isa v : Value} {h' : Heap} :
    order.allocate isa c.heap = .ok v h' →
    Step c ⟨h', c.attempts + 1, fun w k => c.born w k ∨ w = v ∧ k = c.attempts + 1⟩
  | refused {c : Register} {order : Order} {isa : Value} {h' : Heap} {e : HeapError} :
    order.allocate isa c.heap = .error (.failure e) h' → Step c ⟨h', c.attempts + 1, c.born⟩
  | collected {c : Register} {h' : Heap} {roots roots' : List Value} {f : Address → Address}
      {answer : Except HeapError Collection} :
    c.heap.arenas.Closed → (∀ v ∈ roots, c.heap.arenas.Sane v) →
    c.heap.collect roots = .ok (h', roots', answer) → Moved c.heap h' roots f →
    roots' = roots.map (Value.relocate f) → Step c (c.collected h' roots f)

/-- What holds of a register: the next hash is that of the next attempt, and every object has the
hash of the attempt that made it. -/
structure Kept (c : Register) : Prop where
  sound : c.heap.Sound
  nextHash : c.heap.nextHash = hashOf (c.attempts + 1)
  born : ∀ {v k}, c.born v k → 0 < k ∧ k ≤ c.attempts ∧ ∃ loc, v = .ofAddress loc ∧
    c.heap.arenas.Allocated loc ∧ ∃ header, c.heap.arenas.header loc = .ok header ∧
      header.hash.toNat = hashOf k
  unique : ∀ {v w k}, c.born v k → c.born w k → v = w
  total : ∀ {loc}, c.heap.arenas.Allocated loc → ∃ k, c.born (.ofAddress loc) k

variable {c c' : Register}

theorem Kept.nextHash_lt (hk : c.Kept) : c.heap.nextHash < hashLimit := by
  rw [hk.nextHash]
  exact hashOf_lt _

theorem Kept.hash (hk : c.Kept) {k : Nat} (hb : c.born v k) :
    c.heap.identityHash v = .ok (hashOf k) := by
  obtain ⟨-, -, loc, rfl, hl, header, hh, hhash⟩ := hk.born hb
  rw [hk.sound.identityHash hl hh, hhash]

theorem Kept.sane (hk : c.Kept) {k : Nat} (hb : c.born v k) : c.heap.arenas.Sane v := by
  obtain ⟨-, -, loc, rfl, hl, -⟩ := hk.born hb
  have hbounds := hk.sound.bounds hl
  exact .inr (.inr ⟨loc, Value.address?_ofAddress hbounds.1 hbounds.2, hl⟩)

theorem Kept.made (hk : c.Kept) (heq : order.allocate isa c.heap = .ok v h') :
    Kept ⟨h', c.attempts + 1, fun w k => c.born w k ∨ w = v ∧ k = c.attempts + 1⟩ := by
  obtain ⟨sound', hnext, ⟨new, rfl, hfresh, hallocated, header, hh, hhash⟩, hheader⟩ :=
    order_numbers hk.sound hk.nextHash_lt heq
  refine ⟨sound', ?_, ?_, ?_, fun {loc} hl => ?_⟩
  · rw [hnext, hk.nextHash, hashAfter_hashOf]
  · rintro w k (hb | ⟨rfl, rfl⟩)
    · obtain ⟨hpos, hle, loc, rfl, hl, header', hh', hhash'⟩ := hk.born hb
      exact ⟨hpos, Nat.le_succ_of_le hle, loc, rfl, (hallocated loc).mpr (.inl hl), header',
        hheader hh', hhash'⟩
    · exact ⟨Nat.succ_pos _, Nat.le_refl _, new, rfl, (hallocated new).mpr (.inr rfl), header, hh,
        hhash.trans hk.nextHash⟩
  · -- The new object is the only one of its attempt.
    rintro w x k (hb | ⟨rfl, rfl⟩) (hb' | ⟨rfl, hlast⟩)
    · exact hk.unique hb hb'
    · have := (hk.born hb).2.1
      omega
    · have := (hk.born hb').2.1
      omega
    · rfl
  · rcases (hallocated loc).mp hl with hl | rfl
    · obtain ⟨k, hb⟩ := hk.total hl
      exact ⟨k, .inl hb⟩
    · exact ⟨_, .inr ⟨rfl, rfl⟩⟩

theorem Kept.refused (hk : c.Kept) {e : HeapError}
    (heq : order.allocate isa c.heap = .error (.failure e) h') :
    Kept ⟨h', c.attempts + 1, c.born⟩ := by
  obtain rfl := allocate_refused heq
  refine ⟨hk.sound.hash _, ?_, fun hb => ?_, hk.unique, hk.total⟩
  · change hashAfter c.heap.nextHash = _
    rw [hk.nextHash, hashAfter_hashOf]
  · obtain ⟨hpos, hle, hplace⟩ := hk.born hb
    exact ⟨hpos, Nat.le_succ_of_le hle, hplace⟩

/-- A copy has the hash of the original. -/
theorem Kept.copied {roots : List Value} {f : Address → Address} (sound : c.heap.Sound)
    (sound' : h'.Sound) (moved : Moved c.heap h' roots f) {loc : Address}
    (hl : c.heap.arenas.Allocated loc) (hr : c.heap.arenas.Reachable roots loc) {header : Header}
    (hh : c.heap.arenas.header loc = .ok header) : h'.arenas.Allocated (f loc) ∧
      ∃ header', h'.arenas.header (f loc) = .ok header' ∧ header'.hash = header.hash := by
  have hl' : h'.arenas.Allocated (f loc) := moved.bijective.mapsTo hr
  obtain ⟨header', hread, hread'⟩ := moved.header loc hr
  rw [header_ofAddress _ (sound.bounds hl).1 (sound.bounds hl).2, hh] at hread
  rw [header_ofAddress _ (sound'.bounds hl').1 (sound'.bounds hl').2] at hread'
  obtain rfl := Except.ok.inj hread
  exact ⟨hl', _, hread', rfl⟩

theorem Kept.collected (hk : c.Kept) (closed : c.heap.arenas.Closed) {roots roots' : List Value}
    (sane : ∀ v ∈ roots, c.heap.arenas.Sane v) {answer : Except HeapError Collection}
    (heq : c.heap.collect roots = .ok (h', roots', answer)) {f : Address → Address}
    (moved : Moved c.heap h' roots f) : (c.collected h' roots f).Kept := by
  have sound' := hk.sound.collect closed sane heq
  refine ⟨sound', (collect_nextHash heq).trans hk.nextHash, ?_, ?_, fun {loc} hl => ?_⟩
  · rintro _ k ⟨loc, hb, hr, rfl⟩
    obtain ⟨hpos, hle, old, hold, hl, header, hh, hhash⟩ := hk.born hb
    obtain rfl := hk.sound.ofAddress_inj (hr.allocated closed sane) hl hold
    obtain ⟨hl', header', hh', hsame⟩ := copied hk.sound sound' moved hl hr hh
    exact ⟨hpos, hle, f loc, rfl, hl', header', hh', hsame ▸ hhash⟩
  · rintro _ _ k ⟨loc, hb, hr, rfl⟩ ⟨loc', hb', hr', rfl⟩
    rw [hk.sound.ofAddress_inj (hr.allocated closed sane) (hr'.allocated closed sane)
      (hk.unique hb hb')]
  · obtain ⟨old, hr, rfl⟩ := moved.bijective.surjOn hl
    obtain ⟨k, hb⟩ := hk.total (hr.allocated closed sane)
    exact ⟨k, old, hb, hr, rfl⟩

theorem Step.kept (step : Step c c') (hk : c.Kept) : c'.Kept := by
  cases step with
  | made heq => exact hk.made heq
  | refused heq => exact hk.refused heq
  | collected closed sane heq moved => exact hk.collected closed sane heq moved

def blank (h : Heap) : Register := ⟨h, 0, fun _ _ => False⟩

theorem kept_blank {settings : HeapSettings} (hc : create settings = .ok h) : (blank h).Kept := by
  have hnext : h.nextHash = 1 := by
    rw [create] at hc
    obtain ⟨-, -, hc⟩ := except_bind_eq_ok.mp hc
    cases hc
    rfl
  refine ⟨create_sound hc, hnext, False.elim, fun hv _ => hv.elim, fun {loc} hl => ?_⟩
  -- There is nothing in it.
  obtain ⟨starts, ht, hnone⟩ := (create_blank hc).stocks.order loc.arena
  have hmem := (Arenas.allocated_iff ((create_sound hc).laid.pad _) ht).mp hl
  obtain rfl : starts = [] := by simpa using hnone.symm
  cases hmem

theorem kept_of_steps {settings : HeapSettings} (hc : create settings = .ok h)
    (run : Relation.ReflTransGen Step (blank h) c) : c.Kept := by
  induction run with
  | refl => exact kept_blank hc
  | tail _ step ih => exact step.kept ih

/-- Attempts to allocate, successful or not, use up the hashes in turn, and after the largest one
they start again from one. Every object has the hash of the attempt that made it, which is positive
and below 2^30; so two objects share a hash only if their attempts were at least 2^30 - 1 apart. A
collection takes every object that the roots reach along with its hash. -/
theorem identity_hashes {settings : HeapSettings} {h₀ : Heap} (hc : create settings = .ok h₀)
    (run : Relation.ReflTransGen Step (blank h₀) c) :
    (c.heap.nextHash = hashOf (c.attempts + 1) ∧ ∀ (order : Order) isa,
      match order.allocate isa c.heap with
      | .ok v h' => h'.nextHash = hashOf (c.attempts + 2) ∧
          h'.identityHash v = .ok (hashOf (c.attempts + 1))
      | .error _ h' => h'.nextHash = hashOf (c.attempts + 2)) ∧
    (∀ loc, c.heap.arenas.Allocated loc → ∃ k, c.born (.ofAddress loc) k) ∧
    (∀ v k, c.born v k → 1 ≤ k ∧ k ≤ c.attempts ∧ c.heap.identityHash v = .ok (hashOf k) ∧
      0 < hashOf k ∧ hashOf k < 2 ^ 30) ∧
    (∀ v w j k, c.born v j → c.born w k → v ≠ w → j < k + (2 ^ 30 - 1) → k < j + (2 ^ 30 - 1) →
      c.heap.identityHash v ≠ c.heap.identityHash w) ∧
    ∀ roots, c.heap.arenas.Closed → (∀ v ∈ roots, c.heap.arenas.Sane v) →
      ∃ h' live f, c.heap.collect roots = .ok (h', roots.map (Value.relocate f), .ok live) ∧
        Step c (c.collected h' roots f) ∧
        ∀ loc, c.heap.arenas.Reachable roots loc →
          (∀ k, c.born (.ofAddress loc) k →
            (c.collected h' roots f).born (.ofAddress (f loc)) k) ∧
          h'.identityHash (.ofAddress (f loc)) = c.heap.identityHash (.ofAddress loc) := by
  have hk := kept_of_steps hc run
  refine ⟨⟨hk.nextHash, fun order isa => ?_⟩, fun loc => hk.total, fun v k hb => ?_,
    fun v w j k hj hb hne hlt hlt' => ?_, fun roots closed sane => ?_⟩
  · have hnext := order_nextHash order isa c.heap
    rw [hk.nextHash, hashAfter_hashOf] at hnext
    cases heq : order.allocate isa c.heap with
    | ok v h' =>
      rw [heq] at hnext
      exact ⟨hnext, (hk.made heq).hash (.inr ⟨rfl, rfl⟩)⟩
    | error e h' =>
      rw [heq] at hnext
      exact hnext
  · exact ⟨(hk.born hb).1, (hk.born hb).2.1, hk.hash hb, hashOf_pos k, hashOf_lt k⟩
  · rw [hk.hash hj, hk.hash hb]
    intro heq
    have hjpos := (hk.born hj).1
    have hkpos := (hk.born hb).1
    rcases Nat.lt_trichotomy j k with hjk | rfl | hjk
    · exact hashOf_ne hjpos hjk hlt' (Except.ok.inj heq)
    · exact hne (hk.unique hj hb)
    · exact hashOf_ne hkpos hjk hlt (Except.ok.inj heq).symm
  · obtain ⟨h', roots', live, f, hcollect, moved, rfl⟩ := collect_isomorphic hk.sound closed sane
    refine ⟨h', live, f, hcollect, .collected closed sane hcollect moved rfl, fun loc hr =>
      ⟨fun k hb => ⟨loc, hb, hr, rfl⟩, ?_⟩⟩
    have hl := hr.allocated closed sane
    obtain ⟨header, hh, -⟩ := hk.sound.laid.object hl
    have sound' := hk.sound.collect closed sane hcollect
    obtain ⟨hl', header', hh', hsame⟩ := Kept.copied hk.sound sound' moved hl hr hh
    rw [sound'.identityHash hl' hh', hk.sound.identityHash hl hh, hsame]

/-- An object without slots and one with a byte, made after an attempt that was refused. -/
def littered : Register where
  heap := shed #[0, 2, 0, 8] #[0, 2, 32, 0x10000000d, 97] 4 { objects := 2, words := 5 }
  attempts := 3
  born w k := (False ∨ w = ⟨32⟩ ∧ k = 2) ∨ w = ⟨40⟩ ∧ k = 3

/-- The first hash goes to no object. The other two stay with their objects. -/
theorem identity_hashes_littered :
    create { arenaWords := 1024 } = .ok (shed #[0, 2] #[0, 2] 1 {}) ∧
    Relation.ReflTransGen Step (blank (shed #[0, 2] #[0, 2] 1 {})) littered ∧
    littered.heap.identityHash ⟨32⟩ = .ok 2 ∧
    littered.heap.identityHash ⟨32⟩ ≠ littered.heap.identityHash ⟨40⟩ ∧
    ∃ h' live f, littered.heap.collect [⟨40⟩] =
        .ok (h', [Value.relocate f ⟨40⟩], .ok live) ∧
      h'.identityHash (.ofAddress (f ⟨.leaf, 2⟩)) = littered.heap.identityHash ⟨40⟩ := by
  have hc : create { arenaWords := 1024 } = .ok (shed #[0, 2] #[0, 2] 1 {}) := rfl
  have hrefused : Step (blank (shed #[0, 2] #[0, 2] 1 {}))
      ⟨shed #[0, 2] #[0, 2] 2 {}, 1, fun _ _ => False⟩ :=
    .refused (show (Order.slots 2000).allocate .nil _ = .error (.failure _) _ from rfl)
  have hfirst : Step ⟨shed #[0, 2] #[0, 2] 2 {}, 1, fun _ _ => False⟩
      ⟨shed #[0, 2, 0, 8] #[0, 2] 3 { objects := 1, words := 2 }, 2,
        fun w k => False ∨ w = ⟨32⟩ ∧ k = 2⟩ :=
    .made (show (Order.slots 0).allocate .nil _ = .ok _ _ from rfl)
  have hsecond : Step ⟨shed #[0, 2, 0, 8] #[0, 2] 3 { objects := 1, words := 2 }, 2,
        fun w k => False ∨ w = ⟨32⟩ ∧ k = 2⟩ littered :=
    .made (show (Order.bytes #[97]).allocate ⟨32⟩ _ = .ok _ _ from rfl)
  have hbegun := (Relation.ReflTransGen.single hrefused).tail hfirst
  have hsane := (kept_of_steps hc hbegun).sane (v := ⟨32⟩) (k := 2) (.inr ⟨rfl, rfl⟩)
  have hsteps : Relation.ReflTransGen ValidStep (shed #[0, 2] #[0, 2] 1 {}) littered.heap :=
    ((Relation.ReflTransGen.single (.refused (Arenas.sane_nil _)
      (show (Order.slots 2000).allocate .nil _ = .error (.failure _) _ from rfl))).tail
      (.made (Arenas.sane_nil _) (show (Order.slots 0).allocate .nil _ = .ok _ _ from rfl))).tail
      (.made hsane (show (Order.bytes #[97]).allocate ⟨32⟩ _ = .ok _ _ from rfl))
  have hrun := hbegun.tail hsecond
  have hlast : littered.born ⟨40⟩ 3 := .inr ⟨rfl, rfl⟩
  have hclosed := (whole_of_steps hc hsteps).closed
  have hroot : ∀ v ∈ ([⟨40⟩] : List Value), littered.heap.arenas.Sane v := by
    intro v hv
    obtain rfl := List.mem_singleton.mp hv
    exact (kept_of_steps hc hrun).sane hlast
  obtain ⟨-, -, hborn, happart, hcollected⟩ := identity_hashes hc hrun
  obtain ⟨h', live, f, hcollect, -, hkept⟩ := hcollected [⟨40⟩] hclosed hroot
  exact ⟨hc, hrun, (hborn ⟨32⟩ 2 (.inl (.inr ⟨rfl, rfl⟩))).2.2.1,
    happart ⟨32⟩ ⟨40⟩ 2 3 (.inl (.inr ⟨rfl, rfl⟩)) hlast (by decide) (by decide) (by decide),
    h', live, f, hcollect, (hkept ⟨.leaf, 2⟩ (.root (.head _) rfl)).2⟩

end Register

end Heap

end ObjectMachine
