import ObjectMachine.Proofs.Memory.Checking
import ObjectMachine.Proofs.Memory.Extension

namespace ObjectMachine

namespace Arenas

section Visits

variable {σ : Type} {fix fix' : σ → Arenas → Value → Except Fault (σ × Arenas × Value)}
  {id : ArenaId} {s : σ} {a : Arenas} {i : Nat} {r : σ × Arenas}

theorem fixWord_mono (more : ∀ s a v r, fix s a v = .ok r → fix' s a v = .ok r)
    (heq : fixWord fix id s a i = .ok r) : fixWord fix' id s a i = .ok r := by
  obtain ⟨w, hw, heq⟩ := except_bind_eq_ok.mp heq
  obtain ⟨p, hfix, heq⟩ := except_bind_eq_ok.mp heq
  exact except_bind_eq_ok.mpr ⟨w, hw, except_bind_eq_ok.mpr ⟨p, more _ _ _ _ hfix, heq⟩⟩

theorem fixWords_mono (more : ∀ s a v r, fix s a v = .ok r → fix' s a v = .ok r) {count : Nat}
    (heq : fixWords fix id s a i count = .ok r) : fixWords fix' id s a i count = .ok r := by
  induction count generalizing s a i with
  | zero => exact heq
  | succ count ih =>
    obtain ⟨p, hfirst, heq⟩ := except_bind_eq_ok.mp heq
    exact except_bind_eq_ok.mpr ⟨p, fixWord_mono more hfirst, ih heq⟩

theorem scan_mono (more : ∀ s a v r, fix s a v = .ok r → fix' s a v = .ok r) {stop : Nat}
    (heq : a.scan fix id s i stop = .ok r) : a.scan fix' id s i stop = .ok r := by
  fun_induction Arenas.scan fix id s a i stop with
  | case1 s a i hstop ihSkip ihVisit =>
    rw [Arenas.scan, if_pos hstop]
    obtain ⟨h, hh, heq⟩ := except_bind_eq_ok.mp heq
    refine except_bind_eq_ok.mpr ⟨h, hh, ?_⟩
    cases hkind : h.kind with
    | pad | forwarded =>
      simp only [hkind] at heq ⊢
      exact ihSkip h heq
    | pointers | bytes =>
      simp only [hkind] at heq ⊢
      obtain ⟨p, hclass, heq⟩ := except_bind_eq_ok.mp heq
      obtain ⟨q, hslots, heq⟩ := except_bind_eq_ok.mp heq
      obtain ⟨h', hh', heq⟩ := except_bind_eq_ok.mp heq
      exact except_bind_eq_ok.mpr ⟨p, fixWord_mono more hclass, except_bind_eq_ok.mpr
        ⟨q, fixWords_mono more hslots, except_bind_eq_ok.mpr ⟨h', hh', ihVisit _ _ _ heq⟩⟩⟩
  | case2 s a i hstop =>
    rw [Arenas.scan, if_neg hstop]
    exact heq

end Visits

section Bounds

variable {fuel fuel' : Nat} {source target : Arenas}

/-- More fuel changes nothing. -/
theorem moveObject_mono (hle : fuel ≤ fuel') {old : Address} {r : Arenas × Arenas × Address}
    (heq : moveObject fuel source target old = .ok r) :
    moveObject fuel' source target old = .ok r := by
  induction fuel generalizing fuel' source target old r with
  | zero => cases heq
  | succ fuel ih =>
    obtain ⟨fuel', rfl⟩ : ∃ n, fuel' = n + 1 := ⟨fuel' - 1, by omega⟩
    rw [moveObject] at heq ⊢
    obtain ⟨new?, hforwarding, heq⟩ := except_bind_eq_ok.mp heq
    refine except_bind_eq_ok.mpr ⟨new?, hforwarding, ?_⟩
    cases new? with
    | some new => exact heq
    | none =>
      obtain ⟨h, hh, heq⟩ := except_bind_eq_ok.mp heq
      obtain ⟨ws, hws, heq⟩ := except_bind_eq_ok.mp heq
      obtain ⟨source₁, hforward, heq⟩ := except_bind_eq_ok.mp heq
      refine except_bind_eq_ok.mpr ⟨h, hh, except_bind_eq_ok.mpr ⟨ws, hws,
        except_bind_eq_ok.mpr ⟨source₁, hforward, ?_⟩⟩⟩
      cases harena : old.arena with
      | pointers => simpa only [harena] using heq
      | leaf =>
        simp only [harena] at heq ⊢
        cases hcls : h.isa.address? with
        | none => simpa only [hcls] using heq
        | some cls =>
          simp only [hcls] at heq ⊢
          obtain ⟨moved, hmove, heq⟩ := except_bind_eq_ok.mp heq
          exact except_bind_eq_ok.mpr ⟨moved, ih (by omega) hmove, heq⟩

theorem evacuate_mono (hle : fuel ≤ fuel') {v : Value} {r : Arenas × Arenas × Value}
    (heq : evacuate fuel source target v = .ok r) : evacuate fuel' source target v = .ok r := by
  rw [evacuate] at heq ⊢
  cases hv : v.address? with
  | none => simpa only [hv] using heq
  | some old =>
    simp only [hv] at heq ⊢
    obtain ⟨moved, hmove, heq⟩ := except_bind_eq_ok.mp heq
    exact except_bind_eq_ok.mpr ⟨moved, moveObject_mono hle hmove, heq⟩

theorem evacuateAll_mono (hle : fuel ≤ fuel') {vs : List Value} {r : Arenas × Arenas × List Value}
    (heq : evacuateAll fuel source target vs = .ok r) :
    evacuateAll fuel' source target vs = .ok r := by
  induction vs generalizing source target r with
  | nil => exact heq
  | cons v vs ih =>
    obtain ⟨first, hfirst, heq⟩ := except_bind_eq_ok.mp heq
    obtain ⟨rest, hrest, heq⟩ := except_bind_eq_ok.mp heq
    exact except_bind_eq_ok.mpr ⟨first, evacuate_mono hle hfirst,
      except_bind_eq_ok.mpr ⟨rest, ih hrest, heq⟩⟩

theorem drain_mono (hle : fuel ≤ fuel') {rounds rounds' scanned : Nat} (hrounds : rounds ≤ rounds')
    {r : Arenas × Arenas} (heq : drain fuel rounds source target scanned = .ok r) :
    drain fuel' rounds' source target scanned = .ok r := by
  induction rounds generalizing rounds' scanned source target with
  | zero => cases heq
  | succ rounds ih =>
    obtain ⟨rounds', rfl⟩ : ∃ n, rounds' = n + 1 := ⟨rounds' - 1, by omega⟩
    rw [drain] at heq ⊢
    by_cases hend : scanned = target.used .pointers
    · simp only [if_pos hend] at heq ⊢
      exact heq
    · simp only [if_neg hend] at heq ⊢
      obtain ⟨next, hscan, heq⟩ := except_bind_eq_ok.mp heq
      exact except_bind_eq_ok.mpr ⟨next, scan_mono (fun _ _ _ _ => evacuate_mono hle) hscan,
        ih (by omega) heq⟩

end Bounds

end Arenas

namespace Heap

variable {h h' : Heap}

/-- A step of a program that stores nothing but nil, integers and objects. -/
inductive ValidStep : Heap → Heap → Prop where
  | made {h h' : Heap} {order : Order} {isa v : Value} :
    h.arenas.Sane isa → order.allocate isa h = .ok v h' → ValidStep h h'
  | refused {h h' : Heap} {order : Order} {isa : Value} {e : HeapError} :
    h.arenas.Sane isa → order.allocate isa h = .error (.failure e) h' → ValidStep h h'
  | slot {h h' : Heap} {o x : Value} {i : Nat} {ε : Type} :
    h.arenas.Sane o → h.arenas.Sane x → setSlot o i x (ε := ε) h = .ok () h' → ValidStep h h'
  | isa {h h' : Heap} {o x : Value} {ε : Type} :
    h.arenas.Sane o → h.arenas.Sane x → setClass o x (ε := ε) h = .ok () h' → ValidStep h h'
  | collect {h h' : Heap} {roots roots' : List Value} {answer : Except HeapError Collection} :
    (∀ v ∈ roots, h.arenas.Sane v) → h.collect roots = .ok (h', roots', answer) → ValidStep h h'

theorem Whole.fills (whole : h.Whole) {isa : Value} (hisa : h.arenas.Sane isa) (order : Order) :
    Action.Ends Whole (order.allocate isa h) := by
  cases order with
  | slots count =>
    have hallots := whole.allots_pointers hisa count
    refine Action.Ends.intro (fun v h' heq => ?_) fun cause h' heq => ?_
    all_goals
      rw [Order.allocate] at heq
      rw [heq] at hallots
      exact hallots.1.whole
  | bytes content => exact (whole.allocateBytes_ends hisa content).mono fun _ he => he.whole

theorem ValidStep.whole (step : ValidStep h h') (whole : h.Whole) : h'.Whole := by
  cases step with
  | @made order isa v hisa heq =>
    have hends := whole.fills hisa order
    rwa [heq] at hends
  | @refused order isa e hisa heq =>
    have hends := whole.fills hisa order
    rwa [heq] at hends
  | slot ho hx heq => exact (whole.setSlot ho hx heq).1
  | isa ho hx heq => exact (whole.setClass ho hx heq).1
  | collect sane heq =>
    obtain ⟨h₁, roots₁, live, heq', whole₁, -⟩ := whole.collect sane
    cases heq'.symm.trans heq
    exact whole₁

theorem whole_of_steps {settings : HeapSettings} {h₀ : Heap} (hc : create settings = .ok h₀)
    (steps : Relation.ReflTransGen ValidStep h₀ h) : h.Whole := by
  induction steps with
  | refl => exact create_whole hc
  | tail _ step ih => exact step.whole ih

/-- Both loops of a collection come to their ends by themselves: with all fuel and all rounds from
some number on they do the same. -/
theorem Whole.collect_unbounded (whole : h.Whole) {roots : List Value}
    (sane : ∀ v ∈ roots, h.arenas.Sane v) :
    ∃ source₁ target₁ roots' source₂ target₂,
      (∀ fuel ≥ h.used .leaf + 2,
        Arenas.evacuateAll fuel h.arenas .empty roots = .ok (source₁, target₁, roots')) ∧
      (∀ fuel ≥ h.used .leaf + 2, ∀ rounds ≥ h.used .pointers + 2,
        Arenas.drain fuel rounds source₁ target₁ Arenas.firstObject = .ok (source₂, target₂)) ∧
      (∀ id, target₂.used id ≤ h.used id) := by
  obtain ⟨starts, g⟩ := whole.sound.ground whole.closed sane
  obtain ⟨source₁, target₁, roots', source₂, target₂, moves, hroots, hrest, c, -⟩ :=
    collect_halves g
  exact ⟨source₁, target₁, roots', source₂, target₂,
    fun fuel hfuel => Arenas.evacuateAll_mono hfuel hroots,
    fun fuel hfuel rounds hrounds => Arenas.drain_mono hfuel hrounds hrest, c.used_le g⟩

/-- No collection fails, and its accounts are exact. Whatever a program did that stored nothing but
nil, integers and objects, a collection with such roots delivers its figures and leaves no arena
larger than before. What is live and what was freed come to what was in use, and what is live is
not more than that. The loop over what was copied needs no bound on its rounds. -/
theorem collect_accounts {settings : HeapSettings} {h₀ : Heap} (hc : create settings = .ok h₀)
    (steps : Relation.ReflTransGen ValidStep h₀ h) {roots : List Value}
    (sane : ∀ v ∈ roots, h.arenas.Sane v) :
    ∃ h' roots' live, h.collect roots = .ok (h', roots', .ok live) ∧
      (∀ id, h'.used id ≤ h.used id) ∧
      live.livePointers = h'.used .pointers ∧ live.liveLeaf = h'.used .leaf ∧
      live.livePointers + live.liveLeaf ≤ h.used .pointers + h.used .leaf ∧
      live.livePointers + live.liveLeaf + live.freed = h.used .pointers + h.used .leaf ∧
      ∃ source₁ target₁ source₂, ∀ fuel ≥ h.used .leaf + 2,
        Arenas.evacuateAll fuel h.arenas .empty roots = .ok (source₁, target₁, roots') ∧
        ∀ rounds ≥ h.used .pointers + 2,
          Arenas.drain fuel rounds source₁ target₁ Arenas.firstObject =
            .ok (source₂, h'.arenas) := by
  have whole := whole_of_steps hc steps
  obtain ⟨source₁, target₁, roots', source₂, target₂, hroots, hrest, hused⟩ :=
    whole.collect_unbounded sane
  obtain ⟨h', live, hcollect, rfl, -, hpointers, hleaf, hfreed⟩ :=
    collect_of_halves (hroots _ (Nat.le_refl _)) (hrest _ (Nat.le_refl _) _ (Nat.le_refl _))
      fun id => Nat.le_trans (hused id) (whole.sound.fits id)
  have hfits : h'.used .pointers + h'.used .leaf ≤ h.used .pointers + h.used .leaf :=
    Nat.add_le_add (hused .pointers) (hused .leaf)
  have hbalance : live.livePointers + live.liveLeaf + live.freed =
      h.used .pointers + h.used .leaf := by
    rw [hpointers, hleaf, hfreed]
    exact Nat.add_sub_cancel' hfits
  refine ⟨h', roots', live, hcollect, hused, hpointers, hleaf, ?_, hbalance, source₁, target₁,
    source₂, fun fuel hfuel => ⟨hroots fuel hfuel, hrest fuel hfuel⟩⟩
  rw [hpointers, hleaf]
  exact hfits

/-- An object with two slots, one with three bytes, and one without slots that nothing names. -/
abbrev crowdedShed (first second isa : UInt64) : Heap :=
  shed #[0, 2, 0, 0x200000004, first, second, 0, 12] #[0, 2, isa, 0x300000009, 0x636261] 4
    { objects := 3, words := 9 }

theorem crowdedShed_sane {first second isa : UInt64} {v : Value}
    (hv : v = ⟨0⟩ ∨ v = ⟨32⟩ ∨ v = ⟨40⟩) : (crowdedShed first second isa).arenas.Sane v := by
  have hpad : ∀ id, (crowdedShed first second isa).arenas.header ⟨id, 0⟩ = .ok (Header.pad 0) := by
    intro id
    cases id <;> exact Arenas.header_eq_ok_iff.mpr ⟨0, 2, rfl, rfl, by decide⟩
  have hpointers :
      (crowdedShed first second isa).arenas.Tiled .pointers Arenas.firstObject [2, 6] :=
    ⟨rfl, .ofWords 0 0x200000004, Arenas.header_eq_ok_iff.mpr ⟨_, _, rfl, rfl, rfl⟩, rfl,
      .ofWords 0 12, Arenas.header_eq_ok_iff.mpr ⟨_, _, rfl, rfl, rfl⟩, rfl⟩
  have hleaf : (crowdedShed first second isa).arenas.Tiled .leaf Arenas.firstObject [2] :=
    ⟨rfl, .ofWords isa 0x300000009, Arenas.header_eq_ok_iff.mpr ⟨_, _, rfl, rfl, rfl⟩,
      show 2 + (Header.ofWords 0 0x300000009).totalWords = 5 by decide⟩
  rcases hv with rfl | rfl | rfl
  · exact .inl rfl
  · refine .inr (.inr ⟨⟨.pointers, 2⟩, rfl, ?_⟩)
    exact (Arenas.allocated_iff (hpad .pointers) hpointers).mpr (by decide)
  · refine .inr (.inr ⟨⟨.leaf, 2⟩, rfl, ?_⟩)
    exact (Arenas.allocated_iff (hpad .leaf) hleaf).mpr (by decide)

theorem shed_validSteps : Relation.ReflTransGen ValidStep (shed #[0, 2] #[0, 2] 1 {})
    (crowdedShed 40 32 32) := by
  have hslots : ValidStep (shed #[0, 2] #[0, 2] 1 {})
      (shed #[0, 2, 0, 0x200000004, 0, 0] #[0, 2] 2 { objects := 1, words := 4 }) :=
    .made (Arenas.sane_nil _) (show (Order.slots 2).allocate .nil _ = .ok _ _ from rfl)
  have hbytes : ValidStep
      (shed #[0, 2, 0, 0x200000004, 0, 0] #[0, 2] 2 { objects := 1, words := 4 })
      (stockedShed 0 0 0) :=
    .made (Arenas.sane_nil _) (show (Order.bytes #[97, 98, 99]).allocate .nil _ = .ok _ _ from rfl)
  have hgarbage : ValidStep (stockedShed 0 0 0) (crowdedShed 0 0 0) :=
    .made (Arenas.sane_nil _) (show (Order.slots 0).allocate .nil _ = .ok _ _ from rfl)
  have hfirst : ValidStep (crowdedShed 0 0 0) (crowdedShed 40 0 0) :=
    .slot (o := ⟨32⟩) (x := ⟨40⟩) (i := 0) (ε := Empty) (crowdedShed_sane (by simp))
      (crowdedShed_sane (by simp)) rfl
  have hsecond : ValidStep (crowdedShed 40 0 0) (crowdedShed 40 32 0) :=
    .slot (o := ⟨32⟩) (x := ⟨32⟩) (i := 1) (ε := Empty) (crowdedShed_sane (by simp))
      (crowdedShed_sane (by simp)) rfl
  have hisa : ValidStep (crowdedShed 40 32 0) (crowdedShed 40 32 32) :=
    .isa (o := ⟨40⟩) (x := ⟨32⟩) (ε := Empty) (crowdedShed_sane (by simp))
      (crowdedShed_sane (by simp)) rfl
  exact (((((Relation.ReflTransGen.single hslots).tail hbytes).tail hgarbage).tail hfirst).tail
    hsecond).tail hisa

/-- Nothing names the last object of the first arena. The figures come to the 13 words in use. -/
theorem collect_accounts_shed :
    create { arenaWords := 1024 } = .ok (shed #[0, 2] #[0, 2] 1 {}) ∧
    ∃ h' roots' live, (crowdedShed 40 32 32).collect [⟨32⟩, .nil, ⟨32⟩] =
        .ok (h', roots', .ok live) ∧
      live.livePointers + live.liveLeaf + live.freed = 13 := by
  have hc : create { arenaWords := 1024 } = .ok (shed #[0, 2] #[0, 2] 1 {}) := rfl
  have sane : ∀ v ∈ ([⟨32⟩, .nil, ⟨32⟩] : List Value), (crowdedShed 40 32 32).arenas.Sane v :=
    fun v hv => crowdedShed_sane (by
      simp only [List.mem_cons, Value.nil, List.not_mem_nil, or_false] at hv
      tauto)
  obtain ⟨h', roots', live, hcollect, -, -, -, -, hbalance, -⟩ :=
    collect_accounts hc shed_validSteps sane
  exact ⟨hc, h', roots', live, hcollect, hbalance⟩

end Heap

end ObjectMachine
