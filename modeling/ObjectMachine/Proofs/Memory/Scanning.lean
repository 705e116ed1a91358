import ObjectMachine.Proofs.Memory.Copying

namespace ObjectMachine.Arenas

section Visits

variable {σ : Type} {fix : σ → Arenas → Value → Except Fault (σ × Arenas × Value)} {id : ArenaId}
  {s s₁ s₂ : σ} {a a₁ a₂ : Arenas} {i : Nat}

theorem fixWord_eq {w : UInt64} {v : Value} (hw : a.word id i = .ok w)
    (hfix : fix s a ⟨w⟩ = .ok (s₁, a₁, v)) :
    fixWord fix id s a i = .ok (s₁, a₁.setWord id i v.raw) := by
  simp only [fixWord, hw, hfix, bind, Except.bind]
  rfl

/-- A scan visits the class of an object with slots, then its slots, and goes on behind it. -/
theorem scan_eq {stop : Nat} {h h₂ : Header} (hstop : i < stop) (hh : a.header ⟨id, i⟩ = .ok h)
    (hkind : h.kind = .pointers) (hclass : fixWord fix id s a i = .ok (s₁, a₁))
    (hslots : fixWords fix id s₁ a₁ (i + headerWords) h.size.toNat = .ok (s₂, a₂))
    (hend : a₂.header ⟨id, i⟩ = .ok h₂) (hsame : h₂.totalWords = h.totalWords) :
    a.scan fix id s i stop = a₂.scan fix id s₂ (i + h.totalWords) stop := by
  rw [Arenas.scan, if_pos hstop, hh]
  simp only [bind, Except.bind, hkind, hclass, if_true, hslots, hend, hsame]

end Visits

variable {a : Arenas} {starts : ArenaId → List Nat} {live : Address → Prop}

namespace Copying

variable {moves : Moves} {scan : Nat} {source target : Arenas}

def Movable (live : Address → Prop) (v : Value) : Prop := ∀ loc, v.address? = some loc → live loc

theorem evacuate_settles (g : Ground a starts live) {fuel : Nat}
    (c : Copying a starts live moves scan [] source target) {v : Value} (hv : Movable live v)
    (hfuel : unmoved starts moves .leaf < fuel) :
    ∃ source' target' moves' v', evacuate fuel source target v = .ok (source', target', v') ∧
      Copying a starts live moves' scan [] source' target' ∧ moves'.Extends moves ∧
      moves'.Settles v v' := by
  rw [evacuate]
  cases h : v.address? with
  | none => exact ⟨source, target, moves, v, rfl, c, .refl _, by rw [Moves.Settles, h]⟩
  | some old =>
    obtain ⟨source', target', moves', new, hmove, hc, hext, hm⟩ :=
      c.moveObject_moves g fuel (hv old h) hfuel
    simp only [hmove, bind, Except.bind]
    refine ⟨source', target', moves', _, rfl, hc, hext, ?_⟩
    rw [Moves.Settles, h]
    exact ⟨new, hm, rfl⟩

theorem evacuateAll_settles (g : Ground a starts live) (fuel : Nat) {vs : List Value}
    (c : Copying a starts live moves scan [] source target) (hvs : ∀ v ∈ vs, Movable live v)
    (hfuel : unmoved starts moves .leaf < fuel) :
    ∃ source' target' moves' vs', evacuateAll fuel source target vs = .ok (source', target', vs') ∧
      Copying a starts live moves' scan [] source' target' ∧ moves'.Extends moves ∧
      List.Forall₂ moves'.Settles vs vs' := by
  induction vs generalizing moves source target with
  | nil => exact ⟨source, target, moves, [], rfl, c, .refl _, .nil⟩
  | cons v vs ih =>
    obtain ⟨source₁, target₁, moves₁, v', h₁, c₁, hext₁, hv'⟩ :=
      c.evacuate_settles g (hvs v List.mem_cons_self) hfuel
    obtain ⟨source₂, target₂, moves₂, vs', h₂, c₂, hext₂, hvs'⟩ :=
      ih c₁ (fun u hu => hvs u (List.mem_cons_of_mem _ hu))
        (Nat.lt_of_le_of_lt (unmoved_le hext₁ _) hfuel)
    simp only [evacuateAll, h₁, h₂, bind, Except.bind]
    exact ⟨source₂, target₂, moves₂, v' :: vs', rfl, c₂, hext₂.trans hext₁,
      .cons (hv'.mono hext₂) hvs'⟩

/-- Which words are settled is all that the scan position says. -/
theorem rescan {scan' : Nat} (c : Copying a starts live moves scan [] source target)
    (hset : ∀ {loc new j}, moves loc = some new → j < a.extent loc →
      (Settled scan' [] loc new j ↔ Settled scan [] loc new j))
    (hscan : scan' ≤ target.used .pointers) :
    Copying a starts live moves scan' [] source target := by
  refine { c with copied := fun {loc new} hm j hj => ?_, scanned := hscan }
  obtain ⟨w, w', hw, hw', hs, hu⟩ := c.copied hm j hj
  exact ⟨w, w', hw, hw', fun h => hs ((hset hm hj).mp h), fun h => hu (h ∘ (hset hm hj).mpr)⟩

/-- The second word of a header needs no visit. -/
theorem skip_packed (g : Ground a starts live) {loc new : Address}
    (c : Copying a starts live moves (new.word + 1) [] source target)
    (hm : moves loc = some new) (harena : loc.arena = .pointers) :
    Copying a starts live moves (new.word + headerWords) [] source target := by
  have hpos := g.extent_pos (c.live hm)
  have hend := (c.bounds g hm).2.1
  refine c.rescan (fun {loc' new' j'} hm' hj' => ?_)
    (by rw [harena] at hend; simp only [headerWords]; omega)
  obtain ⟨arena, x⟩ := loc'
  cases arena with
  | leaf => rfl
  | pointers =>
    simp only [Settled, headerWords]
    refine and_congr_right fun hne => ⟨fun hlt => ?_, fun hlt => by omega⟩
    by_contra hge
    have hsame : ⟨.pointers, x⟩ = loc ∧ j' = 1 :=
      c.apart g hm' hm harena.symm hj' (by omega) (by omega)
    exact hne hsame.2

/-- A visit of the word at the scan position settles it. -/
theorem fixWord_settles (g : Ground a starts live) {fuel : Nat} {loc new : Address} {j : Nat}
    (c : Copying a starts live moves (new.word + j) [] source target) (hm : moves loc = some new)
    (harena : loc.arena = .pointers) (hj : j < a.extent loc) (hj₁ : j ≠ 1)
    (href : ∀ w, (a.space loc.arena)[loc.word + j]? = some w → a.Refers loc ⟨w⟩)
    (hfuel : unmoved starts moves .leaf < fuel) :
    ∃ source' target' moves',
      fixWord (evacuate fuel) .pointers source target (new.word + j) = .ok (source', target') ∧
      Copying a starts live moves' (new.word + j + 1) [] source' target' ∧
      moves'.Extends moves := by
  have hun : ¬Settled (new.word + j) [] loc new j := by
    rw [Settled, harena]
    exact fun h => Nat.lt_irrefl _ h.2
  obtain ⟨w, w', hw, hw', -, hsame⟩ := c.copied hm j hj
  obtain rfl := hsame hun
  rw [harena] at hw'
  have hlive : Movable live ⟨w'⟩ := fun target htarget => g.closed (c.live hm) (href w' hw) htarget
  obtain ⟨source', target', moves', v, hev, c', hext, hv⟩ := c.evacuate_settles g hlive hfuel
  have hm' := hext _ _ hm
  have hend := (c'.bounds g hm').2.1
  rw [harena] at hend
  refine ⟨source', target'.setWord .pointers (new.word + j) v.raw, moves', ?_, ?_, hext⟩
  · exact fixWord_eq (word_eq_ok_iff.mpr hw') hev
  · rw [← harena]
    refine c'.settle g hm' hj hj₁ hw hv (fun {loc' new' j'} hm'' hj'' => ?_) (by omega) (by simp)
    obtain ⟨arena, x⟩ := loc'
    cases arena with
    | leaf =>
      refine (or_iff_left ?_).symm
      rintro ⟨rfl, -⟩
      cases harena
    | pointers =>
      constructor
      · rintro ⟨hne, hlt⟩
        by_cases heq : new'.word + j' = new.word + j
        · exact .inr (c'.apart g hm'' hm' harena.symm hj'' hj heq)
        · exact .inl ⟨hne, by simp only at hlt ⊢; omega⟩
      · rintro (⟨hne, hlt⟩ | ⟨rfl, rfl⟩)
        · exact ⟨hne, by simp only at hlt ⊢; omega⟩
        · obtain rfl : new' = new := Option.some.inj (hm''.symm.trans hm')
          exact ⟨hj₁, by simp only; omega⟩

/-- Visits of the slots of a copy settle them one after the other. -/
theorem fixWords_settle (g : Ground a starts live) {fuel : Nat} {loc new : Address} {h : Header}
    (hh : a.header loc = .ok h) (hkind : h.kind = .pointers) (harena : loc.arena = .pointers)
    (count : Nat) {i : Nat} (hi : i + count ≤ h.size.toNat)
    (c : Copying a starts live moves (new.word + headerWords + i) [] source target)
    (hm : moves loc = some new) (hfuel : unmoved starts moves .leaf < fuel) :
    ∃ source' target' moves',
      fixWords (evacuate fuel) .pointers source target (new.word + headerWords + i) count =
        .ok (source', target') ∧
      Copying a starts live moves' (new.word + headerWords + i + count) [] source' target' ∧
      moves'.Extends moves := by
  induction count generalizing i moves source target with
  | zero => exact ⟨source, target, moves, rfl, c, .refl _⟩
  | succ count ih =>
    have hext : a.extent loc = headerWords + h.size.toNat := by
      rw [extent_eq hh, Header.totalWords, Header.payloadWords, hkind]
    have href : ∀ w, (a.space loc.arena)[loc.word + (headerWords + i)]? = some w →
        a.Refers loc ⟨w⟩ := by
      intro w hw
      refine ⟨h, hh, .inr ⟨hkind, i, by omega, word_eq_ok_iff.mpr ?_⟩⟩
      rw [Nat.add_assoc, hw]
    rw [Nat.add_assoc] at c
    obtain ⟨source₁, target₁, moves₁, h₁, c₁, hext₁⟩ :=
      c.fixWord_settles g hm harena (by omega) (by simp only [headerWords]; omega) href hfuel
    obtain ⟨source₂, target₂, moves₂, h₂, c₂, hext₂⟩ :=
      ih (i := i + 1) (by omega) (by simpa only [Nat.add_assoc] using c₁) (hext₁ _ _ hm)
        (Nat.lt_of_le_of_lt (unmoved_le hext₁ _) hfuel)
    refine ⟨source₂, target₂, moves₂, ?_, ?_, hext₂.trans hext₁⟩
    · rw [fixWords, Nat.add_assoc, h₁]
      simpa only [bind, Except.bind, Nat.add_assoc] using h₂
    · have hsum : new.word + headerWords + i + (count + 1) =
          new.word + headerWords + (i + 1) + count := by omega
      rwa [hsum]

end Copying

def Row (a : Arenas) (moves : Moves) (stop : Nat) : Nat → List Nat → Prop
  | i, [] => i = stop
  | i, start :: rest =>
    start = i ∧ ∃ loc, moves loc = some ⟨.pointers, i⟩ ∧ Row a moves stop (i + a.extent loc) rest

theorem Row.mono {earlier later : Moves} {stop i : Nat} {l : List Nat}
    (hr : Row a earlier stop i l) (he : later.Extends earlier) : Row a later stop i l := by
  induction l generalizing i with
  | nil => exact hr
  | cons start rest ih =>
    obtain ⟨rfl, loc, hm, hrest⟩ := hr
    exact ⟨rfl, loc, he _ _ hm, ih hrest⟩

theorem Row.le {moves : Moves} {stop i : Nat} {l : List Nat} (hr : Row a moves stop i l) :
    i ≤ stop := by
  induction l generalizing i with
  | nil => exact Nat.le_of_eq hr
  | cons start rest ih =>
    obtain ⟨-, loc, -, hrest⟩ := hr
    exact Nat.le_trans (Nat.le_add_right _ _) (ih hrest)

namespace Copying

variable {moves : Moves} {scan : Nat} {source target : Arenas}

/-- The copies that stand from the first word on. -/
theorem row (g : Ground a starts live)
    (c : Copying a starts live moves scan [] source target) {i : Nat} {l : List Nat}
    (ht : target.Tiled .pointers i l)
    (hmem : ∀ y ∈ l, ∃ loc, moves loc = some ⟨.pointers, y⟩) :
    Row a moves (target.used .pointers) i l := by
  induction l generalizing i with
  | nil => exact ht
  | cons start rest ih =>
    obtain ⟨rfl, h, hh, hrest⟩ := ht
    obtain ⟨loc, hm⟩ := hmem start List.mem_cons_self
    refine ⟨rfl, loc, hm, ?_⟩
    rw [← c.extent_copy g hm, extent_eq hh]
    exact ih hrest fun y hy => hmem y (List.mem_cons_of_mem _ hy)

theorem row_split (g : Ground a starts live)
    (c : Copying a starts live moves scan [] source target) {mid stop i : Nat} {l r : List Nat}
    (hl : Row a moves mid i l) (hr : Row a moves stop i r) (hle : mid ≤ stop) :
    ∃ rest, Row a moves stop mid rest := by
  induction l generalizing i r with
  | nil => exact ⟨r, (show i = mid from hl) ▸ hr⟩
  | cons start l ih =>
    obtain ⟨rfl, loc, hm, hl⟩ := hl
    have hpos := g.extent_pos (c.live hm)
    cases r with
    | nil =>
      have hstop : start = stop := hr
      have := hl.le
      omega
    | cons start' r =>
      obtain ⟨rfl, loc', hm', hr⟩ := hr
      obtain rfl := c.injective hm hm'
      exact ih hl hr

theorem scan_object (g : Ground a starts live) {fuel : Nat} {loc : Address} {i stop : Nat}
    (c : Copying a starts live moves i [] source target) (hm : moves loc = some ⟨.pointers, i⟩)
    (hstop : i < stop) (hfuel : unmoved starts moves .leaf < fuel) :
    ∃ source' target' moves',
      target.scan (evacuate fuel) .pointers source i stop =
        target'.scan (evacuate fuel) .pointers source' (i + a.extent loc) stop ∧
      Copying a starts live moves' (i + a.extent loc) [] source' target' ∧
      moves'.Extends moves := by
  have harena : loc.arena = .pointers := (c.arena hm).symm
  obtain ⟨h, w, hh, hh'⟩ := c.header_copy g hm
  have hkind : h.kind = .pointers := by
    rw [g.kind (g.allocated (c.live hm)) hh, harena]
    rfl
  have hext : a.extent loc = headerWords + h.size.toNat := by
    rw [extent_eq hh, Header.totalWords, Header.payloadWords, hkind]
  have href : ∀ w, (a.space loc.arena)[loc.word + 0]? = some w → a.Refers loc ⟨w⟩ := by
    intro w hw
    obtain ⟨w', p, hw', -, rfl⟩ := header_eq_ok_iff.mp hh
    obtain rfl : w' = w := Option.some.inj (hw'.symm.trans hw)
    exact ⟨_, hh, .inl rfl⟩
  obtain ⟨source₁, target₁, moves₁, h₁, c₁, hext₁⟩ :=
    Copying.fixWord_settles (j := 0) g c hm harena (by rw [hext]; simp) (by omega) href hfuel
  have hm₁ := hext₁ _ _ hm
  have c₂ := c₁.skip_packed g hm₁ harena
  obtain ⟨source₃, target₃, moves₃, h₃, c₃, hext₃⟩ :=
    Copying.fixWords_settle (i := 0) g hh hkind harena h.size.toNat (by omega) c₂ hm₁
      (Nat.lt_of_le_of_lt (unmoved_le hext₁ _) hfuel)
  obtain ⟨h', w', hh₃, hh₃'⟩ := c₃.header_copy g (hext₃ _ _ hm₁)
  obtain rfl : h' = h := Except.ok.inj (hh₃.symm.trans hh)
  refine ⟨source₃, target₃, moves₃, ?_, ?_, hext₃.trans hext₁⟩
  · rw [scan_eq hstop hh' hkind h₁ h₃ hh₃' rfl, extent_eq hh]
    rfl
  · rw [hext, ← Nat.add_assoc]
    exact c₃

theorem scan_settles (g : Ground a starts live) {fuel : Nat} {i stop : Nat} {l : List Nat}
    (c : Copying a starts live moves i [] source target) (hr : Row a moves stop i l)
    (hfuel : unmoved starts moves .leaf < fuel) :
    ∃ source' target' moves',
      target.scan (evacuate fuel) .pointers source i stop = .ok (source', target') ∧
      Copying a starts live moves' stop [] source' target' ∧ moves'.Extends moves := by
  induction l generalizing i moves source target with
  | nil =>
    obtain rfl : i = stop := hr
    refine ⟨source, target, moves, ?_, c, .refl _⟩
    rw [Arenas.scan, if_neg (Nat.lt_irrefl _)]
    rfl
  | cons start rest ih =>
    obtain ⟨rfl, loc, hm, hrest⟩ := hr
    have hpos := g.extent_pos (c.live hm)
    have hle := hrest.le
    have hstop : start < stop := by omega
    obtain ⟨source₁, target₁, moves₁, h₁, c₁, hext₁⟩ := c.scan_object g hm hstop hfuel
    obtain ⟨source₂, target₂, moves₂, h₂, c₂, hext₂⟩ :=
      ih c₁ (hrest.mono hext₁) (Nat.lt_of_le_of_lt (unmoved_le hext₁ _) hfuel)
    exact ⟨source₂, target₂, moves₂, h₁.trans h₂, c₂, hext₂.trans hext₁⟩

/-- An arena grows only when an object moves to it. -/
theorem unmoved_lt {moves' : Moves} {scan' : Nat} {source' target' : Arenas}
    (c : Copying a starts live moves scan [] source target)
    (c' : Copying a starts live moves' scan' [] source' target') (he : moves'.Extends moves)
    {id : ArenaId} (hne : target'.used id ≠ target.used id) :
    unmoved starts moves' id < unmoved starts moves id := by
  obtain ⟨x, hx, hnone, hsome⟩ : ∃ x ∈ starts id, moves ⟨id, x⟩ = none ∧ moves' ⟨id, x⟩ ≠ none := by
    by_contra! hall
    apply hne
    rw [c.used, c'.used, movedWords, movedWords]
    congr 2
    apply List.map_congr_left
    intro x hx
    cases hm : moves ⟨id, x⟩ with
    | none => rw [hall x hx hm]
    | some new => rw [he _ _ hm]
  apply List.sum_lt_sum
  · intro y _
    cases hm : moves ⟨id, y⟩ with
    | none => split <;> simp
    | some new => simp [he _ _ hm]
  · refine ⟨x, hx, ?_⟩
    obtain ⟨new, hnew⟩ := Option.ne_none_iff_exists'.mp hsome
    simp [hnone, hnew]

/-- Scanning what was moved ends, and leaves nothing unsettled. -/
theorem drain_settles (g : Ground a starts live) (fuel rounds : Nat) {done : List Nat}
    (c : Copying a starts live moves scan [] source target)
    (hdone : Row a moves scan firstObject done) (hfuel : unmoved starts moves .leaf < fuel)
    (hrounds : unmoved starts moves .pointers + 2 ≤ rounds ∨
      1 ≤ rounds ∧ scan = target.used .pointers) :
    ∃ source' target' moves', drain fuel rounds source target scan = .ok (source', target') ∧
      Copying a starts live moves' (target'.used .pointers) [] source' target' ∧
      moves'.Extends moves := by
  induction rounds generalizing moves scan source target done with
  | zero => omega
  | succ rounds ih =>
    by_cases hend : scan = target.used .pointers
    · refine ⟨source, target, moves, ?_, hend ▸ c, .refl _⟩
      rw [drain]
      simp only [hend, if_true]
      rfl
    · obtain ⟨news, ht, hmem⟩ := c.tiled .pointers
      have hall := c.row g ht fun y hy => (hmem y).mp hy
      obtain ⟨rest, hrest⟩ := c.row_split g hdone hall c.scanned
      obtain ⟨source₁, target₁, moves₁, h₁, c₁, hext₁⟩ := c.scan_settles g hrest hfuel
      have hrounds₁ : unmoved starts moves₁ .pointers + 2 ≤ rounds ∨
          1 ≤ rounds ∧ target.used .pointers = target₁.used .pointers := by
        by_cases hsame : target₁.used .pointers = target.used .pointers
        · exact .inr ⟨by omega, hsame.symm⟩
        · have := c.unmoved_lt c₁ hext₁ hsame
          exact .inl (by omega)
      obtain ⟨source₂, target₂, moves₂, h₂, c₂, hext₂⟩ :=
        ih c₁ (hall.mono hext₁) (Nat.lt_of_le_of_lt (unmoved_le hext₁ _) hfuel) hrounds₁
      refine ⟨source₂, target₂, moves₂, ?_, c₂, hext₂.trans hext₁⟩
      rw [drain]
      simp only [if_neg hend, h₁, bind, Except.bind]
      exact h₂

end Copying

theorem copying_empty :
    Copying a starts live (fun _ => none) firstObject [] a .empty where
  live h := nomatch h
  arena h := nomatch h
  injective h := nomatch h
  forwarded h := nomatch h
  untouched _ _ := rfl
  usedSource _ := rfl
  pad id := by cases id <;> decide
  tiled id := ⟨[], by cases id <;> rfl, by simp⟩
  copied h := nomatch h
  used id := by cases id <;> simp [movedWords] <;> rfl
  scanned := Nat.le_refl _
  moving x hx := nomatch hx

theorem unmoved_le_used (g : Ground a starts live) (moves : Moves) (id : ArenaId) :
    unmoved starts moves id + 2 ≤ a.used id := by
  rw [(g.tiled id).used_eq, Nat.add_comm]
  apply Nat.add_le_add_left
  apply List.sum_le_sum
  intro x hx
  obtain ⟨h, hh, -⟩ := (g.tiled id).object hx
  have := h.headerWords_le_totalWords
  simp only [headerWords] at this
  rw [extent_eq hh]
  split <;> omega

end ObjectMachine.Arenas
