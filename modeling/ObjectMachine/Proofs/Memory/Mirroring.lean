import ObjectMachine.Proofs.Memory.Integrity

namespace ObjectMachine

namespace Arenas

variable {a a' : Arenas} {starts starts' : ArenaId → List Nat} {live live' : Address → Prop}
  {f : Address → Address}

/-- `f` takes the objects of `a` to images in `a'`, which hold the images of what the objects
hold. -/
structure Mirror (a a' : Arenas) (live live' : Address → Prop) (f : Address → Address) : Prop where
  image : ∀ {loc}, live loc → live' (f loc)
  arena : ∀ {loc}, live loc → (f loc).arena = loc.arena
  injective : ∀ {loc loc'}, live loc → live loc' → f loc = f loc' → loc = loc'
  header : ∀ {loc h}, live loc → a.header loc = .ok h →
    a'.header (f loc) = .ok { h with isa := h.isa.relocate f }
  names : ∀ {loc j w}, live loc → j < a.extent loc → Names loc j →
    (a.space loc.arena)[loc.word + j]? = some w →
    (a'.space loc.arena)[(f loc).word + j]? = some ((Value.mk w).relocate f).raw

theorem Ground.refers (g : Ground a starts live) {loc : Address} (hl : live loc) {j : Nat}
    (hj : j < a.extent loc) (hname : Names loc j) {w : UInt64}
    (hw : (a.space loc.arena)[loc.word + j]? = some w) : a.Refers loc ⟨w⟩ := by
  obtain ⟨h, hh, hkind, -, -, hext⟩ := g.object hl
  exact refers_of_names hh hkind (hext ▸ hj) hname hw

namespace Mirror

theorem address (mirror : Mirror a a' live live' f) (g' : Ground a' starts' live') {v : Value}
    {loc : Address} (hv : v.address? = some loc) (hl : live loc) :
    (v.relocate f).address? = some (f loc) := by
  obtain ⟨hsmall, hpos⟩ := g'.bounds (mirror.image hl)
  rw [Value.relocate, hv]
  exact Value.address?_ofAddress hsmall hpos

theorem extent (mirror : Mirror a a' live live' f) (g : Ground a starts live) {loc : Address}
    (hl : live loc) : a'.extent (f loc) = a.extent loc := by
  obtain ⟨h, hh, -⟩ := g.object hl
  rw [extent_eq hh, extent_eq (mirror.header hl hh)]
  rfl

end Mirror

theorem used_setClass {b : Arenas} {loc : Address} {isa : Value} (heq : a.setClass loc isa = .ok b)
    (id : ArenaId) : b.used id = a.used id := by
  rw [setClass] at heq
  split at heq
  · cases heq
    exact used_setWord ..
  · cases heq

/-- Two collections have moved the same objects to the same words. -/
structure Agree (f : Address → Address) (live : Address → Prop)
    (source target source' target' : Arenas) : Prop where
  forwarding : ∀ {loc}, live loc → source'.forwarding? (f loc) = source.forwarding? loc
  used : ∀ id, target'.used id = target.used id

section Moving

variable {moves moves' : Moves} {scan scan' : Nat} {moving moving' : List Nat}
  {source target source' target' : Arenas}

theorem Copying.forwarding_eq (g : Ground a starts live)
    (c : Copying a starts live moves scan moving source target) {loc : Address} (hl : live loc) :
    source.forwarding? loc = .ok (moves loc) := by
  cases hm : moves loc with
  | none => exact c.forwarding_unmoved g hl hm
  | some new => exact c.forwarding_moved g hm

theorem agree_iff (g : Ground a starts live) (g' : Ground a' starts' live')
    (mirror : Mirror a a' live live' f)
    (c : Copying a starts live moves scan moving source target)
    (c' : Copying a' starts' live' moves' scan' moving' source' target') :
    Agree f live source target source' target' ↔
      (∀ {loc}, live loc → moves' (f loc) = moves loc) ∧
        ∀ id, target'.used id = target.used id := by
  have hiff : ∀ {loc}, live loc → (source'.forwarding? (f loc) = source.forwarding? loc ↔
      moves' (f loc) = moves loc) := by
    intro loc hl
    rw [c.forwarding_eq g hl, c'.forwarding_eq g' (mirror.image hl), Except.ok.injEq]
  exact ⟨fun h => ⟨fun hl => (hiff hl).mp (h.forwarding hl), h.used⟩,
    fun h => ⟨fun hl => (hiff hl).mpr (h.1 hl), h.2⟩⟩

/-- An object and its image move to the same words, and their classes along with them. -/
theorem moveObject_agree (g : Ground a starts live) (g' : Ground a' starts' live')
    (mirror : Mirror a a' live live' f) {fuel fuel' : Nat}
    (c : Copying a starts live moves scan moving source target)
    (c' : Copying a' starts' live' moves' scan' moving' source' target')
    (agree : Agree f live source target source' target') {old new new' : Address} (hl : live old)
    {s t s' t' : Arenas} (heq : moveObject fuel source target old = .ok (s, t, new))
    (heq' : moveObject fuel' source' target' (f old) = .ok (s', t', new')) :
    Agree f live s t s' t' ∧ new' = new := by
  induction fuel generalizing fuel' moves moves' moving moving' source target source' target' old
    new new' s t s' t' with
  | zero => cases heq
  | succ fuel ih =>
    cases fuel' with
    | zero => cases heq'
    | succ fuel' =>
    have hl' := mirror.image hl
    obtain ⟨hmoves, hused⟩ := (agree_iff g g' mirror c c').mp agree
    cases hm : moves old with
    | some new₀ =>
      rw [c.moveObject_moved g fuel hm] at heq
      rw [c'.moveObject_moved g' fuel' ((hmoves hl).trans hm)] at heq'
      cases heq
      cases heq'
      exact ⟨agree, rfl⟩
    | none =>
      obtain ⟨h, hh, -⟩ := g.object hl
      have hnew : (⟨old.arena, target.used old.arena⟩ : Address) =
          ⟨(f old).arena, target'.used (f old).arena⟩ := by
        rw [mirror.arena hl, hused]
      obtain ⟨source₁, target₁, c₁, hused₁, -, hmove⟩ := c.moveObject_unmoved g fuel hl hm hh rfl
      obtain ⟨source₁', target₁', c₁', hused₁', -, hmove'⟩ :=
        c'.moveObject_unmoved g' fuel' hl' ((hmoves hl).trans hm) (mirror.header hl hh) hnew
      have agree₁ : Agree f live source₁ target₁ source₁' target₁' := by
        refine (agree_iff g g' mirror c₁ c₁').mpr ⟨fun {loc} hloc => ?_, fun id => ?_⟩
        · by_cases hsame : loc = old
          · rw [hsame, Function.update_self, Function.update_self]
          · rw [Function.update_of_ne hsame, Function.update_of_ne, hmoves hloc]
            exact fun himage => hsame (mirror.injective hloc hl himage)
        · rw [hused₁, hused₁', hused, mirror.arena hl, mirror.extent g hl]
      rw [hmove] at heq
      rw [hmove', mirror.arena hl] at heq'
      cases harena : old.arena with
      | pointers =>
        simp only [harena] at heq heq'
        cases heq
        cases heq'
        exact ⟨agree₁, rfl⟩
      | leaf =>
        simp only [harena] at heq heq'
        cases hcls : h.isa.address? with
        | none =>
          simp only [Value.relocate, hcls] at heq heq'
          cases heq
          cases heq'
          exact ⟨agree₁, rfl⟩
        | some cls =>
          -- The classes are an object and its image as well, and there is less fuel for them.
          have hlcls := g.closed hl ⟨h, hh, .inl rfl⟩ hcls
          simp only [hcls] at heq
          simp only [mirror.address g' hcls hlcls] at heq'
          obtain ⟨⟨source₂, target₂, cls₂⟩, hcall, heq⟩ := except_bind_eq_ok.mp heq
          obtain ⟨⟨source₂', target₂', cls₂'⟩, hcall', heq'⟩ := except_bind_eq_ok.mp heq'
          obtain ⟨target₃, hset, heq⟩ := except_bind_eq_ok.mp heq
          obtain ⟨target₃', hset', heq'⟩ := except_bind_eq_ok.mp heq'
          obtain ⟨agree₂, rfl⟩ := ih c₁ c₁' agree₁ hlcls hcall hcall'
          cases heq
          cases heq'
          refine ⟨⟨agree₂.forwarding, fun id => ?_⟩, rfl⟩
          rw [used_setClass hset, used_setClass hset', agree₂.used]

end Moving

structure Abreast (g : Ground a starts live) (g' : Ground a' starts' live') (f : Address → Address)
    (fuel fuel' : Nat) (moves moves' : Moves) (scan : Nat)
    (source target source' target' : Arenas) : Prop where
  one : Copying a starts live moves scan [] source target
  other : Copying a' starts' live' moves' scan [] source' target'
  agree : Agree f live source target source' target'
  enough : unmoved starts moves .leaf < fuel
  enough' : unmoved starts' moves' .leaf < fuel'

namespace Abreast

variable {g : Ground a starts live} {g' : Ground a' starts' live'} {fuel fuel' : Nat}
  {moves moves' : Moves} {scan : Nat} {source target source' target' : Arenas}

theorem moves_image (ab : Abreast g g' f fuel fuel' moves moves' scan source target source' target')
    (mirror : Mirror a a' live live' f) {loc : Address} (hl : live loc) :
    moves' (f loc) = moves loc :=
  ((agree_iff g g' mirror ab.one ab.other).mp ab.agree).1 hl

/-- What a value names and what its image names move to the same words. -/
theorem evacuate (ab : Abreast g g' f fuel fuel' moves moves' scan source target source' target')
    (mirror : Mirror a a' live live' f) {v : Value} (hv : Copying.Movable live v) :
    ∃ s t m s' t' m' w, Arenas.evacuate fuel source target v = .ok (s, t, w) ∧
      Arenas.evacuate fuel' source' target' (v.relocate f) = .ok (s', t', w) ∧
      Abreast g g' f fuel fuel' m m' scan s t s' t' ∧ m.Extends moves := by
  have hv' : Copying.Movable live' (v.relocate f) := by
    intro loc hloc
    cases hold : v.address? with
    | none => simp [Value.relocate, hold] at hloc
    | some old =>
      obtain rfl := Option.some.inj ((mirror.address g' hold (hv old hold)).symm.trans hloc)
      exact mirror.image (hv old hold)
  obtain ⟨s, t, m, w, heq, c, hext, -⟩ := ab.one.evacuate_settles g hv ab.enough
  obtain ⟨s', t', m', w', heq', c', hext', -⟩ := ab.other.evacuate_settles g' hv' ab.enough'
  have hsame : Agree f live s t s' t' ∧ w' = w := by
    rw [Arenas.evacuate] at heq heq'
    cases hold : v.address? with
    | none =>
      simp only [Value.relocate, hold] at heq heq'
      cases heq
      cases heq'
      exact ⟨ab.agree, rfl⟩
    | some old =>
      simp only [hold] at heq
      simp only [mirror.address g' hold (hv old hold)] at heq'
      obtain ⟨⟨s₁, t₁, new⟩, hmove, hreturn⟩ := except_bind_eq_ok.mp heq
      obtain ⟨⟨s₁', t₁', new'⟩, hmove', hreturn'⟩ := except_bind_eq_ok.mp heq'
      obtain ⟨agree, rfl⟩ :=
        moveObject_agree g g' mirror ab.one ab.other ab.agree (hv old hold) hmove hmove'
      cases hreturn
      cases hreturn'
      exact ⟨agree, rfl⟩
  obtain ⟨agree, rfl⟩ := hsame
  exact ⟨s, t, m, s', t', m', w', heq, heq',
    ⟨c, c', agree, Nat.lt_of_le_of_lt (unmoved_le hext _) ab.enough,
      Nat.lt_of_le_of_lt (unmoved_le hext' _) ab.enough'⟩, hext⟩

theorem evacuateAll {vs : List Value}
    (ab : Abreast g g' f fuel fuel' moves moves' scan source target source' target')
    (mirror : Mirror a a' live live' f) (hvs : ∀ v ∈ vs, Copying.Movable live v) :
    ∃ s t m s' t' m' ws, Arenas.evacuateAll fuel source target vs = .ok (s, t, ws) ∧
      Arenas.evacuateAll fuel' source' target' (vs.map (Value.relocate f)) = .ok (s', t', ws) ∧
      Abreast g g' f fuel fuel' m m' scan s t s' t' ∧ m.Extends moves := by
  induction vs generalizing moves moves' source target source' target' with
  | nil => exact ⟨_, _, moves, _, _, moves', [], rfl, rfl, ab, .refl _⟩
  | cons v vs ih =>
    obtain ⟨s₁, t₁, m₁, s₁', t₁', m₁', w, h₁, h₁', ab₁, hext₁⟩ :=
      ab.evacuate mirror (hvs v List.mem_cons_self)
    obtain ⟨s₂, t₂, m₂, s₂', t₂', m₂', ws, h₂, h₂', ab₂, hext₂⟩ :=
      ih ab₁ fun u hu => hvs u (List.mem_cons_of_mem _ hu)
    rw [List.map_cons, Arenas.evacuateAll, Arenas.evacuateAll, h₁, h₁']
    simp only [bind, Except.bind, h₂, h₂']
    exact ⟨s₂, t₂, m₂, s₂', t₂', m₂', w :: ws, rfl, rfl, ab₂, hext₂.trans hext₁⟩

theorem fixWord {loc new : Address} {j : Nat}
    (ab : Abreast g g' f fuel fuel' moves moves' (new.word + j) source target source' target')
    (mirror : Mirror a a' live live' f) (hm : moves loc = some new)
    (harena : loc.arena = .pointers) (hj : j < a.extent loc) (hname : Names loc j) :
    ∃ s t m s' t' m',
      Arenas.fixWord (Arenas.evacuate fuel) .pointers source target (new.word + j) = .ok (s, t) ∧
      Arenas.fixWord (Arenas.evacuate fuel') .pointers source' target' (new.word + j) =
        .ok (s', t') ∧
      Abreast g g' f fuel fuel' m m' (new.word + j + 1) s t s' t' ∧ m.Extends moves := by
  have hl := ab.one.live hm
  have hm' : moves' (f loc) = some new := (ab.moves_image mirror hl).trans hm
  have harena' : (f loc).arena = .pointers := (mirror.arena hl).trans harena
  have hj₁ : j ≠ 1 := by
    rcases hname with rfl | ⟨-, hle⟩ <;> omega
  have hj' : j < a'.extent (f loc) := (mirror.extent g hl).symm ▸ hj
  have hname' : Names (f loc) j := hname.imp_right fun h => ⟨harena', h.2⟩
  obtain ⟨s, t, m, heq, c, hext⟩ := ab.one.fixWord_settles g hm harena hj hj₁
    (fun w hw => g.refers hl hj hname hw) ab.enough
  obtain ⟨s', t', m', heq', c', hext'⟩ := ab.other.fixWord_settles g' hm' harena' hj' hj₁
    (fun w hw => g'.refers (mirror.image hl) hj' hname' hw) ab.enough'
  -- Neither word was visited before: they still hold what the objects held.
  have hunsettled : ∀ {loc : Address}, loc.arena = .pointers →
      ¬Settled (new.word + j) [] loc new j := by
    intro loc harena hs
    rw [Settled, harena] at hs
    exact Nat.lt_irrefl _ hs.2
  obtain ⟨w, w₁, hw, hw₁, -, hsame⟩ := ab.one.copied hm j hj
  obtain rfl := hsame (hunsettled harena)
  obtain ⟨w', w₁', hw', hw₁', -, hsame'⟩ := ab.other.copied hm' j hj'
  obtain rfl := hsame' (hunsettled harena')
  have himage := mirror.names hl hj hname hw
  rw [mirror.arena hl] at hw' hw₁'
  obtain rfl := Option.some.inj (hw'.symm.trans himage)
  rw [harena] at hw₁ hw₁'
  have hv : Copying.Movable live ⟨w₁⟩ := fun _ ht => g.closed hl (g.refers hl hj hname hw) ht
  obtain ⟨s₁, t₁, m₁, s₁', t₁', m₁', v, h₁, h₁', ab₁, -⟩ := ab.evacuate mirror hv
  have hfix := fixWord_eq (word_eq_ok_iff.mpr hw₁) h₁
  have hfix' := fixWord_eq (word_eq_ok_iff.mpr hw₁') h₁'
  obtain ⟨rfl, rfl⟩ := Prod.mk.inj (Except.ok.inj (heq.symm.trans hfix))
  obtain ⟨rfl, rfl⟩ := Prod.mk.inj (Except.ok.inj (heq'.symm.trans hfix'))
  refine ⟨_, _, m, _, _, m', hfix, hfix', ⟨c, c', ⟨ab₁.agree.forwarding, fun id => ?_⟩,
    Nat.lt_of_le_of_lt (unmoved_le hext _) ab.enough,
    Nat.lt_of_le_of_lt (unmoved_le hext' _) ab.enough'⟩, hext⟩
  rw [used_setWord, used_setWord, ab₁.agree.used]

/-- Visits of the slots of a copy and of its image. -/
theorem fixWords {loc new : Address} {h : Header} (mirror : Mirror a a' live live' f)
    (hh : a.header loc = .ok h) (hkind : h.kind = .pointers) (harena : loc.arena = .pointers)
    (count : Nat) {i : Nat} (hi : i + count ≤ h.size.toNat)
    (ab : Abreast g g' f fuel fuel' moves moves' (new.word + headerWords + i) source target
      source' target') (hm : moves loc = some new) :
    ∃ s t m s' t' m',
      Arenas.fixWords (Arenas.evacuate fuel) .pointers source target (new.word + headerWords + i)
        count = .ok (s, t) ∧
      Arenas.fixWords (Arenas.evacuate fuel') .pointers source' target'
        (new.word + headerWords + i) count = .ok (s', t') ∧
      Abreast g g' f fuel fuel' m m' (new.word + headerWords + i + count) s t s' t' ∧
      m.Extends moves := by
  induction count generalizing i moves moves' source target source' target' with
  | zero => exact ⟨_, _, moves, _, _, moves', rfl, rfl, ab, .refl _⟩
  | succ count ih =>
    have hext : a.extent loc = headerWords + h.size.toNat := by
      rw [extent_eq hh, Header.totalWords, Header.payloadWords, hkind]
    rw [Nat.add_assoc] at ab
    obtain ⟨s₁, t₁, m₁, s₁', t₁', m₁', h₁, h₁', ab₁, hext₁⟩ :=
      ab.fixWord mirror hm harena (by omega) (.inr ⟨harena, Nat.le_add_right _ _⟩)
    obtain ⟨s₂, t₂, m₂, s₂', t₂', m₂', h₂, h₂', ab₂, hext₂⟩ :=
      ih (i := i + 1) (by omega) (by simpa only [Nat.add_assoc] using ab₁) (hext₁ _ _ hm)
    refine ⟨s₂, t₂, m₂, s₂', t₂', m₂', ?_, ?_, ?_, hext₂.trans hext₁⟩
    · rw [Arenas.fixWords, Nat.add_assoc, h₁]
      simpa only [bind, Except.bind, Nat.add_assoc] using h₂
    · rw [Arenas.fixWords, Nat.add_assoc, h₁']
      simpa only [bind, Except.bind, Nat.add_assoc] using h₂'
    · have hsum : new.word + headerWords + i + (count + 1) =
          new.word + headerWords + (i + 1) + count := by omega
      rwa [hsum]

theorem scan_object {loc : Address} {i stop : Nat}
    (ab : Abreast g g' f fuel fuel' moves moves' i source target source' target')
    (mirror : Mirror a a' live live' f) (hm : moves loc = some ⟨.pointers, i⟩) (hstop : i < stop) :
    ∃ s t m s' t' m',
      target.scan (Arenas.evacuate fuel) .pointers source i stop =
        t.scan (Arenas.evacuate fuel) .pointers s (i + a.extent loc) stop ∧
      target'.scan (Arenas.evacuate fuel') .pointers source' i stop =
        t'.scan (Arenas.evacuate fuel') .pointers s' (i + a.extent loc) stop ∧
      Abreast g g' f fuel fuel' m m' (i + a.extent loc) s t s' t' ∧ m.Extends moves := by
  have hl := ab.one.live hm
  have harena : loc.arena = .pointers := (ab.one.arena hm).symm
  have hm' : moves' (f loc) = some ⟨.pointers, i⟩ := (ab.moves_image mirror hl).trans hm
  obtain ⟨h, w, hh, hcopy⟩ := ab.one.header_copy g hm
  obtain ⟨h', w', hh', hcopy'⟩ := ab.other.header_copy g' hm'
  obtain rfl := Except.ok.inj (hh'.symm.trans (mirror.header hl hh))
  have hkind : h.kind = .pointers := by
    rw [g.kind (g.allocated hl) hh, harena]
    rfl
  have hpos := g.extent_pos hl
  obtain ⟨s₁, t₁, m₁, s₁', t₁', m₁', h₁, h₁', ab₁, hext₁⟩ :=
    Abreast.fixWord (j := 0) ab mirror hm harena (by omega) (.inl rfl)
  have hm₁ := hext₁ _ _ hm
  have ab₂ : Abreast g g' f fuel fuel' m₁ m₁' (i + headerWords) s₁ t₁ s₁' t₁' :=
    { ab₁ with
      one := Copying.skip_packed g ab₁.one hm₁ harena
      other := Copying.skip_packed g' ab₁.other
        ((ab₁.moves_image mirror hl).trans hm₁) ((mirror.arena hl).trans harena) }
  obtain ⟨s₂, t₂, m₂, s₂', t₂', m₂', h₂, h₂', ab₃, hext₂⟩ :=
    Abreast.fixWords (i := 0) mirror hh hkind harena h.size.toNat
      (by omega) ab₂ hm₁
  have hm₂ := hext₂ _ _ hm₁
  obtain ⟨h₃, u, hu, hend⟩ := ab₃.one.header_copy g hm₂
  obtain rfl : h = h₃ := Except.ok.inj (hh.symm.trans hu)
  obtain ⟨_, u', hu', hend'⟩ :=
    ab₃.other.header_copy g' ((ab₃.moves_image mirror hl).trans hm₂)
  obtain rfl := Except.ok.inj (hu'.symm.trans (mirror.header hl hh))
  have hext : a.extent loc = headerWords + h.size.toNat := by
    rw [extent_eq hh, Header.totalWords, Header.payloadWords, hkind]
  refine ⟨s₂, t₂, m₂, s₂', t₂', m₂', ?_, ?_, ?_, hext₂.trans hext₁⟩
  · rw [scan_eq hstop hcopy hkind h₁ h₂ hend rfl, extent_eq hh]
    rfl
  · rw [scan_eq hstop hcopy' hkind h₁' h₂' hend' rfl, extent_eq hh]
    rfl
  · rw [hext, ← Nat.add_assoc]
    exact ab₃

/-- Scans of a row of copies and of their images. -/
theorem scan_row {i stop : Nat} {l : List Nat}
    (ab : Abreast g g' f fuel fuel' moves moves' i source target source' target')
    (mirror : Mirror a a' live live' f) (hr : Row a moves stop i l) :
    ∃ s t m s' t' m',
      target.scan (Arenas.evacuate fuel) .pointers source i stop = .ok (s, t) ∧
      target'.scan (Arenas.evacuate fuel') .pointers source' i stop = .ok (s', t') ∧
      Abreast g g' f fuel fuel' m m' stop s t s' t' ∧ m.Extends moves := by
  induction l generalizing i moves moves' source target source' target' with
  | nil =>
    obtain rfl : i = stop := hr
    refine ⟨source, target, moves, source', target', moves', ?_, ?_, ab, .refl _⟩
    all_goals
      rw [Arenas.scan, if_neg (Nat.lt_irrefl _)]
      rfl
  | cons start rest ih =>
    obtain ⟨rfl, loc, hm, hrest⟩ := hr
    have hpos := g.extent_pos (ab.one.live hm)
    have hle := hrest.le
    obtain ⟨s₁, t₁, m₁, s₁', t₁', m₁', h₁, h₁', ab₁, hext₁⟩ :=
      ab.scan_object mirror hm (show start < stop by omega)
    obtain ⟨s₂, t₂, m₂, s₂', t₂', m₂', h₂, h₂', ab₂, hext₂⟩ := ih ab₁ (hrest.mono hext₁)
    exact ⟨s₂, t₂, m₂, s₂', t₂', m₂', h₁.trans h₂, h₁'.trans h₂', ab₂, hext₂.trans hext₁⟩

/-- Two collections in step end in step. -/
theorem drain {rounds rounds' : Nat} {done : List Nat} {s t s' t' : Arenas}
    (ab : Abreast g g' f fuel fuel' moves moves' scan source target source' target')
    (mirror : Mirror a a' live live' f) (hdone : Row a moves scan firstObject done)
    (heq : Arenas.drain fuel rounds source target scan = .ok (s, t))
    (heq' : Arenas.drain fuel' rounds' source' target' scan = .ok (s', t')) :
    ∃ m m', Abreast g g' f fuel fuel' m m' (t.used .pointers) s t s' t' := by
  induction rounds generalizing rounds' moves moves' scan source target source' target' done with
  | zero => cases heq
  | succ rounds ih =>
    cases rounds' with
    | zero => cases heq'
    | succ rounds' =>
    rw [Arenas.drain] at heq heq'
    simp only [ab.agree.used] at heq'
    by_cases hend : scan = target.used .pointers
    · simp only [if_pos hend] at heq heq'
      cases heq
      cases heq'
      exact ⟨moves, moves', hend ▸ ab⟩
    · simp only [if_neg hend] at heq heq'
      obtain ⟨news, ht, hmem⟩ := ab.one.tiled .pointers
      have hall := ab.one.row g ht fun y hy => (hmem y).mp hy
      obtain ⟨rest, hrest⟩ := ab.one.row_split g hdone hall ab.one.scanned
      obtain ⟨s₁, t₁, m₁, s₁', t₁', m₁', h₁, h₁', ab₁, hext₁⟩ := ab.scan_row mirror hrest
      simp only [h₁, bind, Except.bind] at heq
      simp only [h₁', bind, Except.bind] at heq'
      exact ih ab₁ (hall.mono hext₁) heq heq'

end Abreast

section Still

variable {moves : Moves} {scan : Nat} {source target : Arenas}

/-- A name of an object that moves to where it is stays as it is. -/
theorem Moves.Settles.eq_of_still {v v' : Value} (hs : moves.Settles v v')
    (still : ∀ loc new, moves loc = some new → new = loc) : v' = v := by
  rw [Settles] at hs
  cases hv : v.address? with
  | none => simpa [hv] using hs
  | some loc =>
    rw [hv] at hs
    obtain ⟨new, hm, rfl⟩ := hs
    rw [still loc new hm, Value.ofAddress_of_address? hv]

/-- A memory whose objects all move to where they are stays as it is. -/
theorem Copying.eq_of_still (c : Copying a starts live moves scan [] source target)
    (g : Ground a starts live) (laid : a.Laid) (still : ∀ loc new, moves loc = some new → new = loc)
    (all : ∀ id, ∀ x ∈ starts id, (moves ⟨id, x⟩).isSome) : target = a := by
  have hused : ∀ id, target.used id = a.used id := by
    intro id
    rw [c.used, (g.tiled id).used_eq, movedWords]
    congr 2
    exact List.map_congr_left fun x hx => if_pos (all id x hx)
  have hspace : ∀ id, target.space id = a.space id := by
    intro id
    apply Array.ext_getElem?
    intro i
    by_cases hi : i < a.used id
    · by_cases hfirst : i < firstObject
      · obtain ⟨h₀, h₁⟩ := words_of_header (laid.pad id)
        obtain ⟨h₀', h₁'⟩ := words_of_header (c.pad id)
        obtain rfl | rfl : i = 0 ∨ i = 1 := by
          simp only [firstObject, headerWords] at hfirst
          omega
        · exact h₀'.trans h₀.symm
        · exact h₁'.trans h₁.symm
      · obtain ⟨x, hx, hle, hlt⟩ := (g.tiled id).covers (Nat.le_of_not_lt hfirst) hi
        obtain ⟨new, hm⟩ := Option.isSome_iff_exists.mp (all id x hx)
        obtain rfl := still _ _ hm
        obtain ⟨w, w', hw, hw', hset, hunset⟩ := c.copied hm (i - x) (by omega)
        have hsame : w' = w := by
          by_cases hs : Settled scan [] ⟨id, x⟩ ⟨id, x⟩ (i - x)
          · exact congrArg Value.raw ((hset hs).eq_of_still still)
          · exact hunset hs
        simp only [Nat.add_sub_cancel' hle] at hw hw'
        rw [hw', hw, hsame]
    · have hi' : ¬i < target.used id := hused id ▸ hi
      rw [Array.getElem?_eq_none (Nat.le_of_not_lt hi),
        Array.getElem?_eq_none (Nat.le_of_not_lt hi')]
  exact congrArg₂ Arenas.mk (hspace .pointers) (hspace .leaf)

end Still

/-- What a collection leaves is an image of what it found. -/
theorem Copying.mirror {roots : List Value} {moves : Moves} {source target : Arenas}
    (c : Copying a starts (a.Reachable roots) moves (target.used .pointers) [] source target)
    (g : Ground a starts (a.Reachable roots)) (hroots : ∀ v ∈ roots, ∃ v', moves.Settles v v') :
    Mirror a target (a.Reachable roots) target.Allocated moves.apply := by
  have moved : ∀ {loc}, a.Reachable roots loc → moves loc = some (moves.apply loc) := fun hl =>
    c.apply_eq g hroots hl
  refine ⟨fun hl => c.allocated_iff_moved.mpr ⟨_, moved hl⟩, fun hl => c.arena (moved hl),
    fun hl hl' heq => c.injective (moved hl) (heq ▸ moved hl'), fun {loc h} hl hh => ?_,
    fun {loc j w} hl hj hname hw => ?_⟩
  · obtain ⟨h', hh', -, hcopy⟩ := c.header_settled g (moved hl)
    obtain rfl := Except.ok.inj (hh'.symm.trans hh)
    exact hcopy
  · obtain ⟨w', hw', hs⟩ := c.settled_word g (moved hl) hj
      (hname.imp_right fun h => ⟨h.1, by omega⟩) hw
    rw [← c.arena (moved hl), hw', ← hs.eq_relocate]

/-- A collection of what another one left does the same again. -/
theorem Copying.again {roots roots' : List Value} {moves : Moves}
    {source₁ target₁ source target : Arenas}
    (c : Copying a starts (a.Reachable roots) moves (target.used .pointers) [] source target)
    (g : Ground a starts (a.Reachable roots)) (g' : Ground target starts' target.Allocated)
    (laid : target.Laid)
    (hroots : evacuateAll (a.used .leaf + 2) a .empty roots = .ok (source₁, target₁, roots'))
    (hrest : drain (a.used .leaf + 2) (a.used .pointers + 2) source₁ target₁ firstObject =
      .ok (source, target))
    (settles : List.Forall₂ moves.Settles roots roots') :
    ∃ source₁' target₁' source',
      evacuateAll (target.used .leaf + 2) target .empty roots' =
        .ok (source₁', target₁', roots') ∧
      drain (target.used .leaf + 2) (target.used .pointers + 2) source₁' target₁' firstObject =
        .ok (source', target) := by
  obtain ⟨himages, hsettled⟩ := Moves.settles_all settles
  have mirror := c.mirror g hsettled
  have hstart : Abreast g g' moves.apply (a.used .leaf + 2) (target.used .leaf + 2)
      (fun _ => none) (fun _ => none) firstObject a .empty target .empty := by
    have hleaf := unmoved_le_used g (fun _ => none) .leaf
    have hleaf' := unmoved_le_used g' (fun _ => none) .leaf
    refine ⟨copying_empty, copying_empty, ?_, by omega, by omega⟩
    exact (agree_iff g g' mirror copying_empty copying_empty).mpr ⟨fun _ => rfl, fun _ => rfl⟩
  obtain ⟨s, t, m₁, s', t', m₁', ws, h₁, h₁', ab₁, -⟩ :=
    hstart.evacuateAll mirror fun v hv loc hloc => .root hv hloc
  cases hroots.symm.trans h₁
  rw [← himages] at h₁'
  have hdone : ∀ {b : Arenas} {n : Moves}, Row b n firstObject firstObject [] := rfl
  have hpointers' := unmoved_le_used g' m₁' .pointers
  obtain ⟨source', target', m', h₂', -, -⟩ := ab₁.other.drain_settles g' (target.used .leaf + 2)
    (target.used .pointers + 2) hdone ab₁.enough' (.inl (by omega))
  obtain ⟨m, m', ab⟩ := ab₁.drain mirror hdone hrest h₂'
  have hsame : ∀ {loc}, a.Reachable roots loc → m loc = moves loc := by
    intro loc hl
    exact Except.ok.inj ((ab.one.forwarding_eq g hl).symm.trans (c.forwarding_eq g hl))
  have himage : ∀ {new}, target.Allocated new → m' new = some new := by
    intro new hnew
    obtain ⟨loc, hm⟩ := c.allocated_iff_moved.mp hnew
    have hl := c.live hm
    have hloc : moves.apply loc = new := Moves.apply_of_eq_some hm
    rw [← hloc, ab.moves_image mirror hl, hsame hl, hm, hloc]
  refine ⟨s', t', source', h₁', ?_⟩
  rw [h₂', ab.other.eq_of_still g' laid (fun loc new hm => ?_) fun id x hx => ?_]
  · exact Option.some.inj (hm.symm.trans (himage (ab.other.live hm)))
  · rw [himage ((allocated_iff (laid.pad id) (g'.tiled id)).mpr hx)]
    rfl

end Arenas

namespace Heap

variable {h : Heap} {roots : List Value}

/-- Collecting twice is collecting once. A collection that follows another one, with the roots as
that one left them, leaves every word of both arenas and every root as it is, and frees nothing. -/
theorem collect_idempotent (whole : h.Whole) (sane : ∀ v ∈ roots, h.arenas.Sane v) :
    ∃ h₁ roots₁ live₁ h₂ live₂, h.collect roots = .ok (h₁, roots₁, .ok live₁) ∧
      h₁.collect roots₁ = .ok (h₂, roots₁, .ok live₂) ∧ h₂.arenas = h₁.arenas ∧
      live₂.freed = 0 := by
  obtain ⟨starts, g⟩ := whole.sound.ground whole.closed sane
  obtain ⟨source₁, target₁, roots₁, source₂, target₂, moves, hroots, hrest, c, hsettles⟩ :=
    collect_halves g
  obtain ⟨h₁, live₁, hcollect, harenas, hcap, -⟩ := collect_of_halves hroots hrest fun id =>
    Nat.le_trans (c.used_le g id) (whole.sound.fits id)
  obtain ⟨whole₁, sane₁⟩ : h₁.Whole ∧ ∀ v ∈ roots₁, h₁.arenas.Sane v := by
    obtain ⟨h', roots', live', heq, hwhole, -, hsane⟩ := whole.collect sane
    cases heq.symm.trans hcollect
    exact ⟨hwhole, hsane⟩
  obtain ⟨starts₁, g₁⟩ := whole₁.sound.ground_of (fun {loc} (hl : h₁.arenas.Allocated loc) => hl)
    fun hl href hv => (whole₁.closed _ hl _ href).allocated hv
  subst harenas
  obtain ⟨source₃, target₃, source₄, hroots₁, hrest₁⟩ :=
    c.again g g₁ whole₁.sound.laid hroots hrest hsettles
  obtain ⟨h₂, live₂, hcollect₁, harenas₁, -, -, -, hfreed⟩ :=
    collect_of_halves hroots₁ hrest₁ whole₁.sound.fits
  exact ⟨h₁, roots₁, live₁, h₂, live₂, hcollect, hcollect₁, harenas₁,
    hfreed.trans (Nat.sub_self _)⟩

theorem collect_idempotent_knot :
    ∃ h₁ roots₁ live₁ h₂ live₂,
      knot.collect [⟨64⟩, ⟨57⟩, .nil, ⟨64⟩] = .ok (h₁, roots₁, .ok live₁) ∧
      h₁.collect roots₁ = .ok (h₂, roots₁, .ok live₂) ∧ h₂.arenas = h₁.arenas ∧
      live₂.freed = 0 :=
  collect_idempotent ⟨knot_sound, knot_closed⟩ fun v hv => knot_sane (by
    simp only [List.mem_cons, Value.nil, List.not_mem_nil, or_false] at hv
    tauto)

end Heap

end ObjectMachine
