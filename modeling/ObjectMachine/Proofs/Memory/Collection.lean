import Mathlib.Tactic.IntervalCases
import ObjectMachine.Proofs.Memory.Scanning

namespace ObjectMachine

def Arenas.Moves.apply (moves : Arenas.Moves) (loc : Address) : Address := (moves loc).getD loc

theorem Arenas.Moves.apply_of_eq_some {moves : Arenas.Moves} {loc new : Address}
    (hm : moves loc = some new) : moves.apply loc = new := by rw [Moves.apply, hm, Option.getD_some]

theorem Arenas.Moves.Settles.eq_relocate {moves : Arenas.Moves} {v v' : Value}
    (hs : moves.Settles v v') : v' = v.relocate moves.apply := by
  rw [Moves.Settles] at hs
  rw [Value.relocate]
  cases h : v.address? with
  | none => simpa [h] using hs
  | some loc =>
    rw [h] at hs
    obtain ⟨new, hm, rfl⟩ := hs
    simp [Moves.apply, hm]

theorem Arenas.Moves.settles_all {moves : Arenas.Moves} {vs vs' : List Value}
    (hs : List.Forall₂ moves.Settles vs vs') :
    vs' = vs.map (Value.relocate moves.apply) ∧ ∀ v ∈ vs, ∃ v', moves.Settles v v' := by
  induction hs with
  | nil => exact ⟨rfl, fun v hv => nomatch hv⟩
  | cons hv _ ih =>
    refine ⟨by rw [List.map_cons, ← hv.eq_relocate, ← ih.1], fun u hu => ?_⟩
    rcases List.mem_cons.mp hu with rfl | hu
    · exact ⟨_, hv⟩
    · exact ih.2 u hu

namespace Arenas.Copying

variable {a : Arenas} {starts : ArenaId → List Nat} {live : Address → Prop} {moves : Moves}
  {source target : Arenas}

/-- After the last scan, every class and slot of a copy holds a new name. -/
theorem settled_word (c : Copying a starts live moves (target.used .pointers) [] source target)
    (g : Ground a starts live) {loc new : Address} (hm : moves loc = some new) {j : Nat}
    (hj : j < a.extent loc) (hname : j = 0 ∨ loc.arena = .pointers ∧ j ≠ 1) {w : UInt64}
    (hw : (a.space loc.arena)[loc.word + j]? = some w) :
    ∃ w', (target.space new.arena)[new.word + j]? = some w' ∧ moves.Settles ⟨w⟩ ⟨w'⟩ := by
  obtain ⟨w₁, w', hw₁, hw', hs, -⟩ := c.copied hm j hj
  obtain rfl : w₁ = w := Option.some.inj (hw₁.symm.trans hw)
  refine ⟨w', (c.arena hm) ▸ hw', hs ⟨by omega, ?_⟩⟩
  have hend := (c.bounds g hm).2.1
  obtain ⟨arena, x⟩ := loc
  cases arena with
  | pointers => simp only at hend ⊢; omega
  | leaf => exact ⟨hname.resolve_right (fun h => nomatch h.1), List.not_mem_nil⟩

theorem header_settled (c : Copying a starts live moves (target.used .pointers) [] source target)
    (g : Ground a starts live) {loc new : Address} (hm : moves loc = some new) :
    ∃ h, a.header loc = .ok h ∧ moves.Settles h.isa (h.isa.relocate moves.apply) ∧
      target.header new = .ok { h with isa := h.isa.relocate moves.apply } := by
  obtain ⟨h, w', hh, hh'⟩ := c.header_copy g hm
  have hpos := g.extent_pos (c.live hm)
  obtain ⟨w, p, hw, -, rfl⟩ := header_eq_ok_iff.mp hh
  obtain ⟨w₁, hw₁, hs⟩ := c.settled_word g hm (j := 0) (by omega) (.inl rfl) hw
  obtain ⟨w₂, p₂, hw₂, -, heq⟩ := header_eq_ok_iff.mp hh'
  have hisa : (⟨w'⟩ : Value) = ⟨w₂⟩ := congrArg Header.isa heq
  obtain rfl : w₂ = w₁ := Option.some.inj (hw₂.symm.trans hw₁)
  have hrel := hs.eq_relocate
  refine ⟨_, hh, hrel ▸ hs, ?_⟩
  rw [hh', hisa, hrel]
  rfl

theorem slot_settled (c : Copying a starts live moves (target.used .pointers) [] source target)
    (g : Ground a starts live) {loc new : Address} {h : Header} {i : Nat}
    (hm : moves loc = some new) (hh : a.header loc = .ok h) (hkind : h.kind = .pointers)
    (hi : i < h.size.toNat) :
    ∃ w, a.word loc.arena (loc.word + headerWords + i) = .ok w ∧
      moves.Settles ⟨w⟩ ((Value.mk w).relocate moves.apply) ∧
      target.word new.arena (new.word + headerWords + i) =
        .ok ((Value.mk w).relocate moves.apply).raw := by
  have hext : a.extent loc = headerWords + h.size.toNat := by
    rw [extent_eq hh, Header.totalWords, Header.payloadWords, hkind]
  have harena : loc.arena = .pointers := by
    have := g.kind (g.allocated (c.live hm)) hh
    rw [hkind] at this
    cases hl : loc.arena with
    | pointers => rfl
    | leaf => rw [hl] at this; cases this
  obtain ⟨w, -, hw, -⟩ := c.copied hm (headerWords + i) (by omega)
  obtain ⟨w', hw', hs⟩ := c.settled_word g hm (by omega)
    (.inr ⟨harena, by simp only [headerWords]; omega⟩) hw
  have hrel := hs.eq_relocate
  refine ⟨w, ?_, hrel ▸ hs, ?_⟩
  · rw [word_eq_ok_iff, Nat.add_assoc, hw]
  · rw [word_eq_ok_iff, Nat.add_assoc, hw', ← hrel]

theorem reached {roots : List Value}
    (c : Copying a starts (a.Reachable roots) moves (target.used .pointers) [] source target)
    (g : Ground a starts (a.Reachable roots))
    (hroots : ∀ v ∈ roots, ∃ v', moves.Settles v v') {loc : Address}
    (hl : a.Reachable roots loc) : ∃ new, moves loc = some new := by
  have named : ∀ {v v' : Value} {loc}, moves.Settles v v' → v.address? = some loc →
      ∃ new, moves loc = some new := by
    intro v v' loc hs hv
    rw [Moves.Settles, hv] at hs
    obtain ⟨new, hm, -⟩ := hs
    exact ⟨new, hm⟩
  induction hl with
  | root hmem hv =>
    obtain ⟨v', hs⟩ := hroots _ hmem
    exact named hs hv
  | held _ href hv ih =>
    obtain ⟨new, hm⟩ := ih
    obtain ⟨h, hh, rfl | ⟨hkind, i, hi, hw⟩⟩ := href
    · obtain ⟨h', hh', hs, -⟩ := c.header_settled g hm
      obtain rfl : h' = h := Except.ok.inj (hh'.symm.trans hh)
      exact named hs hv
    · obtain ⟨w, hw', hs, -⟩ := c.slot_settled g hm hh hkind hi
      obtain rfl := Except.ok.inj (hw'.symm.trans hw)
      exact named hs hv

theorem apply_eq {roots : List Value}
    (c : Copying a starts (a.Reachable roots) moves (target.used .pointers) [] source target)
    (g : Ground a starts (a.Reachable roots))
    (hroots : ∀ v ∈ roots, ∃ v', moves.Settles v v') {loc : Address}
    (hl : a.Reachable roots loc) : moves loc = some (moves.apply loc) := by
  obtain ⟨new, hm⟩ := c.reached g hroots hl
  rw [Moves.apply_of_eq_some hm, hm]

/-- The copies are all that the new arenas hold. -/
theorem allocated_iff_moved {scan : Nat} (c : Copying a starts live moves scan [] source target)
    {new : Address} : target.Allocated new ↔ ∃ loc, moves loc = some new := by
  obtain ⟨news, ht, hmem⟩ := c.tiled new.arena
  rw [allocated_iff (c.pad new.arena) ht, hmem]

theorem laid {scan : Nat} (c : Copying a starts live moves scan [] source target)
    (g : Ground a starts live) : target.Laid where
  pad := c.pad
  tiled id := by
    obtain ⟨news, ht, -⟩ := c.tiled id
    exact ⟨news, ht⟩
  kind new hnew h hh := by
    obtain ⟨loc, hm⟩ := c.allocated_iff_moved.mp hnew
    obtain ⟨header, w, hheader, hcopy⟩ := c.header_copy g hm
    obtain rfl := Except.ok.inj (hcopy.symm.trans hh)
    have hkind : header.kind = loc.arena.objectKind := g.kind (g.allocated (c.live hm)) hheader
    rw [c.arena hm, ← hkind]

theorem payload_copied {scan : Nat} (c : Copying a starts live moves scan [] source target)
    (g : Ground a starts live) {loc new : Address} (hm : moves loc = some new)
    (harena : loc.arena = .leaf) {h : Header} (hh : a.header loc = .ok h) :
    ∃ ws, a.words loc.arena (loc.word + headerWords) (loc.word + headerWords + h.payloadWords) =
        .ok ws ∧
      target.words new.arena (new.word + headerWords) (new.word + headerWords + h.payloadWords) =
        .ok ws := by
  have hext : a.extent loc = headerWords + h.payloadWords := extent_eq hh
  obtain ⟨h', hh', -, -, hend, -⟩ := g.object (c.live hm)
  obtain rfl : h' = h := Except.ok.inj (hh'.symm.trans hh)
  rw [← extent_eq hh, hext, ← Nat.add_assoc] at hend
  have hend' := (c.bounds g hm).2.1
  rw [hext, ← c.arena hm, ← Nat.add_assoc] at hend'
  refine ⟨_, if_pos ⟨Nat.le_add_right _ _, hend⟩, ?_⟩
  rw [words, if_pos ⟨Nat.le_add_right _ _, hend'⟩]
  congr 1
  apply Array.ext_getElem?
  intro j
  rw [Arenas.used] at hend hend'
  rw [Array.getElem?_extract, Array.getElem?_extract]
  by_cases hj : j < h'.payloadWords
  · rw [if_pos (by omega), if_pos (by omega)]
    obtain ⟨w, w', hw, hw', -, hsame⟩ := c.copied hm (headerWords + j) (by omega)
    obtain rfl := hsame fun hs => by simp [Settled, harena] at hs
    rw [← c.arena hm] at hw'
    rw [Nat.add_assoc, Nat.add_assoc, hw, hw']
  · rw [if_neg (by omega), if_neg (by omega)]

end Arenas.Copying

namespace Heap

theorem header_ofAddress (h : Heap) {loc : Address} (small : loc.word < addressLimit)
    (pos : 0 < loc.word) : h.header (.ofAddress loc) = h.arenas.header loc := by
  simp [header, locate, Value.address?_ofAddress small pos, bind, Except.bind]

theorem slot_ofAddress (h : Heap) {loc : Address} (small : loc.word < addressLimit)
    (pos : 0 < loc.word) {header : Header} (hh : h.arenas.header loc = .ok header) (i : Nat) :
    h.slot (.ofAddress loc) i =
      if header.kind = .pointers ∧ i < header.size.toNat then
        (h.arenas.word loc.arena (loc.word + headerWords + i)).map Value.mk
      else .error (.slotBounds i header.kind header.size.toNat) := by
  simp only [slot, slotWord, locate, Value.address?_ofAddress small pos, bind, Except.bind, hh]
  by_cases hi : header.kind = .pointers ∧ i < header.size.toNat
  · simp only [if_pos hi, pure, Except.pure]
    cases h.arenas.word loc.arena (loc.word + headerWords + i) <;> rfl
  · simp only [if_neg hi]

theorem bytes_ofAddress (h : Heap) {loc : Address} (small : loc.word < addressLimit)
    (pos : 0 < loc.word) {header : Header} (hh : h.arenas.header loc = .ok header) :
    h.bytes (.ofAddress loc) =
      (h.arenas.words loc.arena (loc.word + headerWords)
        (loc.word + headerWords + header.payloadWords)).map (unpack · header.size.toNat) := by
  simp only [bytes, locate, Value.address?_ofAddress small pos, bind, Except.bind, hh]
  cases h.arenas.words loc.arena (loc.word + headerWords)
    (loc.word + headerWords + header.payloadWords) <;> rfl

variable {h h' : Heap} {roots : List Value}

/-- Any set of objects that holds all that its members refer to can be collected. -/
theorem Sound.ground_of (sound : h.Sound) {live : Address → Prop}
    (allocated : ∀ {loc}, live loc → h.arenas.Allocated loc)
    (closed : ∀ {loc v target}, live loc → h.arenas.Refers loc v → v.address? = some target →
      live target) :
    ∃ starts, Arenas.Ground h.arenas starts live := by
  choose starts ht using sound.laid.tiled
  have hiff : ∀ {loc : Address}, h.arenas.Allocated loc ↔ loc.word ∈ starts loc.arena :=
    fun {loc} => Arenas.allocated_iff (sound.laid.pad loc.arena) (ht loc.arena)
  refine ⟨starts, ht, fun hmem hh => sound.laid.kind _ (hiff.mpr hmem) _ hh, fun id => ?_,
    fun hl => hiff.mp (allocated hl), closed⟩
  have hfits := sound.fits id
  have hsmall := sound.small
  rw [used] at hfits
  simp only [addressLimit]
  omega

theorem Sound.ground (sound : h.Sound) (closed : h.arenas.Closed)
    (hroots : ∀ v ∈ roots, h.arenas.Sane v) :
    ∃ starts, Arenas.Ground h.arenas starts (h.arenas.Reachable roots) :=
  sound.ground_of (fun hl => hl.allocated closed hroots) fun hl href hv => .held hl href hv

/-- The two halves of a collection come to their ends: first move the roots, then all that the
objects that moved hold. -/
theorem collect_halves {starts : ArenaId → List Nat}
    (g : Arenas.Ground h.arenas starts (h.arenas.Reachable roots)) :
    ∃ source₁ target₁ roots' source₂ target₂ moves,
      Arenas.evacuateAll (h.arenas.used .leaf + 2) h.arenas .empty roots =
        .ok (source₁, target₁, roots') ∧
      Arenas.drain (h.arenas.used .leaf + 2) (h.arenas.used .pointers + 2) source₁ target₁
        Arenas.firstObject = .ok (source₂, target₂) ∧
      Arenas.Copying h.arenas starts (h.arenas.Reachable roots) moves (target₂.used .pointers) []
        source₂ target₂ ∧
      List.Forall₂ moves.Settles roots roots' := by
  have hleaf := Arenas.unmoved_le_used g (fun _ => none) .leaf
  have movable : ∀ v ∈ roots, Arenas.Copying.Movable (h.arenas.Reachable roots) v :=
    fun v hmem loc hv => .root hmem hv
  obtain ⟨source₁, target₁, moves₁, roots', h₁, c₁, -, hroots'⟩ :=
    Arenas.copying_empty.evacuateAll_settles g (h.arenas.used .leaf + 2) movable (by omega)
  have hpointers := Arenas.unmoved_le_used g moves₁ .pointers
  have hleaf₁ := Arenas.unmoved_le_used g moves₁ .leaf
  have hdone : Arenas.Row h.arenas moves₁ Arenas.firstObject Arenas.firstObject [] := rfl
  obtain ⟨source₂, target₂, moves₂, h₂, c₂, hext⟩ :=
    c₁.drain_settles g (h.arenas.used .leaf + 2) (h.arenas.used .pointers + 2) hdone (by omega)
      (.inl (by omega))
  exact ⟨source₁, target₁, roots', source₂, target₂, moves₂, h₁, h₂, c₂,
    hroots'.imp fun _ _ hs => hs.mono hext⟩

/-- What a collection does whose halves come to their ends and whose arenas are not overfull. -/
theorem collect_of_halves {source₁ target₁ source₂ target₂ : Arenas} {roots' : List Value}
    (h₁ : Arenas.evacuateAll (h.arenas.used .leaf + 2) h.arenas .empty roots =
      .ok (source₁, target₁, roots'))
    (h₂ : Arenas.drain (h.arenas.used .leaf + 2) (h.arenas.used .pointers + 2) source₁ target₁
      Arenas.firstObject = .ok (source₂, target₂))
    (fits : ∀ id, target₂.used id ≤ h.capacity) :
    ∃ h' live, h.collect roots = .ok (h', roots', .ok live) ∧ h'.arenas = target₂ ∧
      h'.capacity = h.capacity ∧ live.livePointers = target₂.used .pointers ∧
      live.liveLeaf = target₂.used .leaf ∧
      live.freed = h.arenas.used .pointers + h.arenas.used .leaf -
        (target₂.used .pointers + target₂.used .leaf) := by
  have hroom : overfull? h.capacity target₂ = none := by simp [overfull?, ArenaId.all, fits]
  let live : Collection := ⟨target₂.used .pointers, target₂.used .leaf, 0⟩
  let result : Collection :=
    { live with freed := h.arenas.used .pointers + h.arenas.used .leaf - live.live }
  have hcollect : h.collect roots = .ok ({ h with
      arenas := target₂
      stats := { h.stats with collections := h.stats.collections + 1, last := result } },
      roots', .ok result) := by
    simp only [collect, h₁, h₂, bind, Except.bind, hroom]
    rfl
  exact ⟨_, _, hcollect, rfl, rfl, rfl, rfl, rfl⟩

/-- A collection comes to its end, and no arena is larger than before. -/
theorem collect_copies (sound : h.Sound) {starts : ArenaId → List Nat}
    (g : Arenas.Ground h.arenas starts (h.arenas.Reachable roots)) :
    ∃ h' roots' live moves source, h.collect roots = .ok (h', roots', .ok live) ∧
      h'.capacity = h.capacity ∧
      Arenas.Copying h.arenas starts (h.arenas.Reachable roots) moves (h'.used .pointers) [] source
        h'.arenas ∧ List.Forall₂ moves.Settles roots roots' := by
  obtain ⟨source₁, target₁, roots', source₂, target₂, moves, h₁, h₂, c, hroots'⟩ := collect_halves g
  obtain ⟨h', live, hcollect, rfl, hcap, -⟩ := collect_of_halves h₁ h₂ fun id =>
    Nat.le_trans (c.used_le g id) (sound.fits id)
  exact ⟨h', roots', live, moves, source₂, hcollect, hcap, c, hroots'⟩

theorem moved_of_copying {starts : ArenaId → List Nat} {moves : Arenas.Moves} {source : Arenas}
    (g : Arenas.Ground h.arenas starts (h.arenas.Reachable roots))
    (c : Arenas.Copying h.arenas starts (h.arenas.Reachable roots) moves (h'.used .pointers) []
      source h'.arenas)
    (hroots : ∀ v ∈ roots, ∃ v', moves.Settles v v') : Moved h h' roots moves.apply := by
  have moved : ∀ {loc}, h.arenas.Reachable roots loc →
      moves loc = some (moves.apply loc) := fun hl =>
    c.apply_eq g hroots hl
  have bounds : ∀ {loc}, h.arenas.Reachable roots loc → loc.word < addressLimit ∧ 0 < loc.word :=
    g.bounds
  have bounds' : ∀ {loc}, h.arenas.Reachable roots loc →
      (moves.apply loc).word < addressLimit ∧ 0 < (moves.apply loc).word := by
    intro loc hl
    obtain ⟨hfirst, -, hsmall⟩ := c.bounds g (moved hl)
    exact ⟨hsmall, Nat.lt_of_lt_of_le Nat.zero_lt_two hfirst⟩
  constructor
  case bijective =>
    refine ⟨fun loc hl => ?_, fun loc hl loc' hl' heq => ?_, fun new hnew => ?_⟩
    · exact c.allocated_iff_moved.mpr ⟨loc, moved hl⟩
    · exact c.injective (moved hl) (heq ▸ moved hl')
    · obtain ⟨loc, hm⟩ := c.allocated_iff_moved.mp hnew
      exact ⟨loc, c.live hm, Arenas.Moves.apply_of_eq_some hm⟩
  case arena => exact fun loc hl => c.arena (moved hl)
  case header =>
    intro loc hl
    obtain ⟨header, hh, -, hh'⟩ := c.header_settled g (moved hl)
    refine ⟨header, ?_, ?_⟩
    · rw [header_ofAddress h (bounds hl).1 (bounds hl).2, hh]
    · rw [header_ofAddress h' (bounds' hl).1 (bounds' hl).2, hh']
  case slot =>
    intro loc hl i
    obtain ⟨header, hh, -, hh'⟩ := c.header_settled g (moved hl)
    rw [slot_ofAddress h (bounds hl).1 (bounds hl).2 hh,
      slot_ofAddress h' (bounds' hl).1 (bounds' hl).2 hh']
    by_cases hi : header.kind = .pointers ∧ i < header.size.toNat
    · obtain ⟨w, hw, -, hw'⟩ := c.slot_settled g (moved hl) hh hi.1 hi.2
      simp only [if_pos hi, hw, hw']
      rfl
    · simp only [if_neg hi]
      rfl
  case bytes =>
    intro loc hl harena
    obtain ⟨header, hh, -, hh'⟩ := c.header_settled g (moved hl)
    obtain ⟨ws, hws, hws'⟩ := c.payload_copied g (moved hl) harena hh
    refine ⟨unpack ws header.size.toNat, ?_, ?_⟩
    · rw [bytes_ofAddress h (bounds hl).1 (bounds hl).2 hh, hws]
      rfl
    · rw [bytes_ofAddress h' (bounds' hl).1 (bounds' hl).2 hh']
      change Except.map _ (h'.arenas.words _ _ (_ + header.payloadWords)) = _
      rw [hws']
      rfl

/-- A collection leaves the graph of the reachable objects as it was, at new addresses. -/
theorem collect_isomorphic (sound : h.Sound) (closed : h.arenas.Closed)
    (sane : ∀ v ∈ roots, h.arenas.Sane v) :
    ∃ h' roots' live f, h.collect roots = .ok (h', roots', .ok live) ∧
      Moved h h' roots f ∧ roots' = roots.map (Value.relocate f) := by
  obtain ⟨starts, g⟩ := sound.ground closed sane
  obtain ⟨h', roots', live, moves, source, hcollect, -, c, hroots'⟩ := collect_copies sound g
  obtain ⟨rfl, hsettled⟩ := Arenas.Moves.settles_all hroots'
  exact ⟨h', _, live, moves.apply, hcollect, moved_of_copying g c hsettled, rfl⟩

/-- A heap with garbage at word 2, and at word 4 an object that holds itself and an integer and
whose class is a byte object, which in turn is an instance of it. -/
def knot : Heap where
  arenas :=
    { pointers := #[0, 2, 0, 4, 40, 0x200000008, 64, 57]
      leaf := #[0, 2, 64, 0x30000000d, 0x636261] }
  capacity := 1024
  limit := 768
  nextHash := 4
  stats := {}

def knotStarts : ArenaId → List Nat
  | .pointers => [2, 4]
  | .leaf => [2]

theorem knot_pad (id : ArenaId) : knot.arenas.header ⟨id, 0⟩ = .ok (Header.pad 0) := by
  cases id <;> decide

theorem knot_tiled (id : ArenaId) :
    knot.arenas.Tiled id Arenas.firstObject (knotStarts id) := by
  cases id with
  | pointers =>
    exact ⟨rfl, ⟨⟨0⟩, .pointers, 1, 0⟩, by decide, rfl, ⟨⟨40⟩, .pointers, 2, 2⟩, by decide, rfl⟩
  | leaf => exact ⟨rfl, ⟨⟨64⟩, .bytes, 3, 3⟩, by decide, rfl⟩

theorem knot_allocated (loc : Address) :
    knot.arenas.Allocated loc ↔ loc.word ∈ knotStarts loc.arena :=
  Arenas.allocated_iff (knot_pad _) (knot_tiled _)

theorem knot_objects {loc : Address} {header : Header} (hl : knot.arenas.Allocated loc)
    (hh : knot.arenas.header loc = .ok header) :
    loc = ⟨.pointers, 2⟩ ∧ header = ⟨⟨0⟩, .pointers, 1, 0⟩ ∨
    loc = ⟨.pointers, 4⟩ ∧ header = ⟨⟨40⟩, .pointers, 2, 2⟩ ∨
    loc = ⟨.leaf, 2⟩ ∧ header = ⟨⟨64⟩, .bytes, 3, 3⟩ := by
  rw [knot_allocated] at hl
  obtain ⟨arena, x⟩ := loc
  cases arena with
  | pointers =>
    rcases (show x = 2 ∨ x = 4 by simpa [knotStarts] using hl) with rfl | rfl
    · exact .inl ⟨rfl, Except.ok.inj (hh.symm.trans (by decide))⟩
    · exact .inr (.inl ⟨rfl, Except.ok.inj (hh.symm.trans (by decide))⟩)
  | leaf =>
    obtain rfl : x = 2 := by simpa [knotStarts] using hl
    exact .inr (.inr ⟨rfl, Except.ok.inj (hh.symm.trans (by decide))⟩)

theorem knot_sound : knot.Sound := by
  refine ⟨⟨knot_pad, fun id => ⟨_, knot_tiled id⟩, fun loc hl header hh => ?_⟩, fun id => ?_,
    by decide⟩
  · rcases knot_objects hl hh with ⟨rfl, rfl⟩ | ⟨rfl, rfl⟩ | ⟨rfl, rfl⟩ <;> rfl
  · cases id <;> decide

theorem knot_sane {v : Value} (hv : v = ⟨0⟩ ∨ v = ⟨40⟩ ∨ v = ⟨57⟩ ∨ v = ⟨64⟩) :
    knot.arenas.Sane v := by
  rcases hv with rfl | rfl | rfl | rfl
  · exact .inl rfl
  · exact .inr (.inr ⟨⟨.leaf, 2⟩, by decide, (knot_allocated _).mpr (by decide)⟩)
  · exact .inr (.inl rfl)
  · exact .inr (.inr ⟨⟨.pointers, 4⟩, by decide, (knot_allocated _).mpr (by decide)⟩)

theorem knot_closed : knot.arenas.Closed := by
  rintro loc hl v ⟨header, hh, hv⟩
  apply knot_sane
  rcases knot_objects hl hh with ⟨rfl, rfl⟩ | ⟨rfl, rfl⟩ | ⟨rfl, rfl⟩
  · rcases hv with rfl | ⟨-, i, hi, -⟩
    · simp
    · exact absurd hi (Nat.not_lt_zero i)
  · rcases hv with rfl | ⟨-, i, hi, hw⟩
    · simp
    · have hi' : i < 2 := hi
      obtain ⟨raw⟩ := v
      interval_cases i
      · obtain rfl : raw = 64 := Except.ok.inj (hw.symm.trans (by decide))
        simp
      · obtain rfl : raw = 57 := Except.ok.inj (hw.symm.trans (by decide))
        simp
  · rcases hv with rfl | ⟨hkind, -⟩
    · simp
    · cases hkind

theorem collect_isomorphic_knot :
    ∃ h' roots' live f, knot.collect [⟨64⟩, ⟨57⟩, .nil, ⟨64⟩] = .ok (h', roots', .ok live) ∧
      Moved knot h' [⟨64⟩, ⟨57⟩, .nil, ⟨64⟩] f ∧
      roots' = [⟨64⟩, ⟨57⟩, .nil, ⟨64⟩].map (Value.relocate f) :=
  collect_isomorphic knot_sound knot_closed fun v hv => knot_sane (by
    simp only [List.mem_cons, Value.nil, List.not_mem_nil, or_false] at hv
    tauto)

end Heap

end ObjectMachine
