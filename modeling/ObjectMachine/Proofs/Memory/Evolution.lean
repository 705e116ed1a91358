import ObjectMachine.Proofs.Memory.Cells
import ObjectMachine.Proofs.Object.Stability

namespace ObjectMachine

abbrev Licence := Cell → Value → Prop

namespace Heap

/-- Every cell there was is there. It holds what it held, or a value that it may come to hold. -/
def Evolves (W : Licence) (h h' : Heap) : Prop :=
  ∀ c y, h.Holds c y → ∃ z, h'.Holds c z ∧ (z = y ∨ W c z)

variable {W W' : Licence} {h h' h'' : Heap}

theorem Evolves.refl (h : Heap) : Evolves W h h := fun _ y hc => ⟨y, hc, .inl rfl⟩

theorem Evolves.trans (he : Evolves W h h') (he' : Evolves W h' h'') : Evolves W h h'' := by
  intro c y hc
  obtain ⟨z, hz, hsame⟩ := he c y hc
  obtain ⟨z', hz', hsame'⟩ := he' c z hz
  refine ⟨z', hz', ?_⟩
  rcases hsame' with rfl | hW
  · exact hsame
  · exact .inr hW

/-- Only what may become of old objects matters. -/
theorem Evolves.mono (he : Evolves W h h')
    (hW : ∀ c x, h.arenas.Sane c.object → W c x → W' c x) : Evolves W' h h' := by
  intro c y hc
  obtain ⟨z, hz, hsame⟩ := he c y hc
  exact ⟨z, hz, hsame.imp_right (hW c z hc.sane)⟩

theorem Evolves.holds (he : Evolves W h h') {c : Cell} {y : Value} (hc : h.Holds c y)
    (hW : ∀ x, W c x → x = y) : h'.Holds c y := by
  obtain ⟨z, hz, rfl | hWz⟩ := he c y hc
  · exact hz
  · exact hW z hWz ▸ hz

theorem Holds.not_isNil {c : Cell} {x : Value} (hc : h.Holds c x) : ¬c.object.isNil := by
  intro hnil
  obtain ⟨loc, hloc, -, -⟩ := hc.refers
  rw [show c.object = .nil from congrArg Value.mk (beq_iff_eq.mp hnil)] at hloc
  cases hloc

/-- No cell changes when objects are added. -/
theorem Spares.evolves (hs : Spares h h' []) (whole : h.Whole) (whole' : h'.Whole) :
    Evolves W h h' := by
  intro c y hc
  obtain ⟨slots, hshows, hy⟩ := hc.shows whole
  exact ⟨y, (hs.shows (by simp) hshows).holds whole' hy, .inl rfl⟩

/-- However a step of the memory ends, cells changed only as they may. -/
def Evolved {ε α : Type} (W : Licence) (h : Heap) : EStateM.Result ε Heap α → Prop
  | .ok _ h' => Evolves W h h'
  | .error _ h' => Evolves W h h'

/-- An allocation disturbs no cell, and a new object is none of those that there were. -/
theorem Whole.allocate_evolves (whole : h.Whole) (id : ArenaId) {isa : Value}
    (hisa : h.arenas.Sane isa) (size : UInt32) {fill : Array UInt64 → Array UInt64}
    {payload : Array UInt64} (hfill : ∀ s, fill s = s ++ payload)
    (hsize : ∀ hash, payload.size = (Header.mk isa id.objectKind hash size).payloadWords)
    (zeros : id = .pointers → ∀ w ∈ payload, w = 0) :
    Evolved W h (Heap.allocate id isa id.objectKind size fill h) ∧
      ∀ v h', Heap.allocate id isa id.objectKind size fill h = .ok v h' → ¬h.arenas.Sane v := by
  have hwhole := whole.allocate id hisa size hfill hsize zeros
  rcases h.allocate_cases id isa id.objectKind size hfill with herr | ⟨hfit, hok⟩
  · rw [herr]
    exact ⟨fun c y hc => ⟨y, ⟨hc.sane, hc.slot⟩, .inl rfl⟩, nofun⟩
  · rw [hok] at hwhole ⊢
    obtain ⟨-, hallocated⟩ := whole.sound.laid_append id
      ⟨isa, id.objectKind, h.nextHash.toUInt32, size⟩ payload rfl (hsize _)
    refine ⟨Spares.evolves ?_ whole hwhole.1, fun v h' heq sane => ?_⟩
    · exact .append id _ rfl (fun loc hl => (hallocated loc).mpr (.inl hl)) rfl
    · -- The new object stands where the arena ended.
      cases heq
      have hl := sane.allocated
        (Value.address?_ofAddress whole.sound.end_bounds.1 whole.sound.end_bounds.2)
      obtain ⟨header, -, -, -, hend⟩ := whole.sound.laid.object hl
      have := header.headerWords_le_totalWords
      simp only [headerWords, used] at this hend
      omega

end Heap

section Leaving

variable {ε σ α β : Type} [Store σ] [Holder α] [Holder β]

/-- Short of a broken rule, a step takes no object away, leaves a state with a property and
delivers nothing stale. -/
def Leaves (P : σ → Prop) (s : σ) : EStateM.Result (Stop ε) σ α → Prop
  | .ok a s' => P s' ∧ Grows s s' ∧ ∀ v ∈ held a, Sane s' v
  | .error (.failure _) s' => P s' ∧ Grows s s'
  | .error (.fault _) _ => True

namespace Leaves

variable {P Q : σ → Prop} {s : σ}

theorem pure {a : α} (hs : P s) (ha : ∀ v ∈ held a, Sane s v) :
    Leaves P s ((Pure.pure a : Action ε σ α) s) := ⟨hs, fun _ hv => hv, ha⟩

theorem fail {cause : ε} (hs : P s) : Leaves P s ((Action.fail cause : Action ε σ α) s) :=
  ⟨hs, fun _ hv => hv⟩

theorem fault {f : Fault} : Leaves P s ((Action.fault f : Action ε σ α) s) := trivial

theorem bind {act : Action ε σ α} {next : α → Action ε σ β} (hact : Leaves P s (act s))
    (hnext : ∀ a s', act s = .ok a s' → P s' → Grows s s' → (∀ v ∈ held a, Sane s' v) →
      Leaves P s' (next a s')) : Leaves P s ((act >>= next) s) := by
  change Leaves P s (EStateM.bind act next s)
  rw [EStateM.bind]
  cases heq : act s with
  | error e s' =>
    rw [heq] at hact
    cases e with
    | failure cause => exact hact
    | fault f => trivial
  | ok a s' =>
    rw [heq] at hact
    obtain ⟨hs', hgrows, ha⟩ := hact
    have hlater := hnext a s' heq hs' hgrows ha
    dsimp only
    cases hend : next a s' with
    | ok b s'' =>
      rw [hend] at hlater
      exact ⟨hlater.1, hgrows.trans hlater.2.1, hlater.2.2⟩
    | error e s'' =>
      rw [hend] at hlater
      cases e with
      | failure cause => exact ⟨hlater.1, hgrows.trans hlater.2⟩
      | fault f => trivial

theorem mono {r : EStateM.Result (Stop ε) σ α} (hr : Leaves P s r) (himp : ∀ s', P s' → Q s') :
    Leaves Q s r := by
  cases r with
  | ok a s' => exact ⟨himp s' hr.1, hr.2⟩
  | error e s' =>
    cases e with
    | failure cause => exact ⟨himp s' hr.1, hr.2⟩
    | fault f => trivial

/-- What the step keeps however it ends is had as well. -/
theorem and_keeps {act : Action ε σ α} (hact : Leaves P s (act s)) (hkeeps : act.Keeps Q)
    (hs : Q s) : Leaves (fun s => P s ∧ Q s) s (act s) := by
  have hkept := hkeeps s hs
  cases heq : act s with
  | ok a s' =>
    rw [heq] at hact hkept
    exact ⟨⟨hact.1, hkept⟩, hact.2⟩
  | error e s' =>
    rw [heq] at hact hkept
    cases e with
    | failure cause => exact ⟨⟨hact.1, hkept⟩, hact.2⟩
    | fault f => trivial

/-- A change to what stands beside the memory. -/
theorem modify {f : σ → σ} (hs : P (f s)) (hheap : Store.heap (f s) = Store.heap s) :
    Leaves P s ((modify f : Action ε σ PUnit) s) := by
  refine ⟨hs, fun v hv => ?_, fun v hv => nomatch hv⟩
  rw [hheap]
  exact hv

omit [Holder α] in
/-- A read leaves everything as it was. -/
theorem query {f : σ → Except Fault α} {next : α → Action ε σ β}
    (hnext : ∀ a, f s = .ok a → Leaves P s (next a s)) :
    Leaves P s ((Action.query f >>= next) s) := by
  change Leaves P s (EStateM.bind (Action.query f) next s)
  rw [EStateM.bind, Action.query]
  cases heq : f s with
  | ok a => exact hnext a heq
  | error e => trivial

/-- A step of a part of the state that has the memory in it. -/
theorem within {τ δ : Type} [Store τ] {act : Action δ τ α} {whole : Action ε σ α} {Q : τ → Prop}
    (part : σ → τ) (put : σ → τ → σ) (f : δ → ε) (hact : Leaves Q (part s) (act (part s)))
    (heq : whole s = match act (part s) with
      | .ok a t => .ok a (put s t)
      | .error e t => .error (e.map f) (put s t))
    (heap_part : Store.heap (part s) = Store.heap s)
    (heap_put : ∀ t, Store.heap (put s t) = Store.heap t)
    (hput : ∀ t, Q t → Grows s (put s t) → P (put s t)) : Leaves P s (whole s) := by
  have hgrows : ∀ t, Grows (part s) t → Grows s (put s t) := by
    intro t ht v hv
    rw [heap_put]
    exact ht v (heap_part ▸ hv)
  rw [heq]
  cases hend : act (part s) with
  | ok a t =>
    rw [hend] at hact
    obtain ⟨ht, hg, ha⟩ := hact
    refine ⟨hput t ht (hgrows t hg), hgrows t hg, fun v hv => ?_⟩
    rw [Sane, heap_put]
    exact ha v hv
  | error e t =>
    rw [hend] at hact
    cases e with
    | fault f => trivial
    | failure cause => exact ⟨hput t hact.1 (hgrows t hact.2), hgrows t hact.2⟩

theorem ok {r : EStateM.Result (Stop ε) σ α} (hr : Leaves P s r) {a : α} {s' : σ}
    (heq : r = .ok a s') : P s' := by
  rw [heq] at hr
  exact hr.1

theorem failure {r : EStateM.Result (Stop ε) σ α} (hr : Leaves P s r) {cause : ε} {s' : σ}
    (heq : r = .error (.failure cause) s') : P s' := by
  rw [heq] at hr
  exact hr.1

theorem ends {r : EStateM.Result (Stop ε) σ α} (hr : Leaves P s r) : Action.Ends P r := by
  match r, hr with
  | .ok _ _, hr => exact hr.1
  | .error (.failure _) _, hr => exact hr.1
  | .error (.fault _) _, _ => trivial

end Leaves

end Leaving

section Since

variable {σ : Type} [Store σ]

/-- A state without stale references in which every object of an earlier memory is still there,
with cells that changed only as they may. -/
structure Since (W : Licence) (h : Heap) (s : σ) : Prop where
  intact : Intact s
  grows : h.Grows (Store.heap s)
  evolves : h.Evolves W (Store.heap s)

theorem Intact.since {W : Licence} {s : σ} (hs : Intact s) : Since W (Store.heap s) s :=
  ⟨hs, .refl _, .refl _⟩

variable {W : Licence} {h : Heap} {s : σ}

theorem Since.sane (hs : Since W h s) {v : Value} (hv : h.arenas.Sane v) : Sane s v :=
  hs.grows v hv

/-- An object that an older memory knows nothing of. -/
theorem Since.fresh (hs : Since W h s) {v : Value} (hv : ¬Sane s v) : ¬h.arenas.Sane v :=
  fun hold => hv (hs.sane hold)

structure Heap.Preserves (h h' : Heap) : Prop where
  header : ∀ {v}, h.arenas.Sane v → h'.header v = h.header v
  spells : ∀ {v content}, h.Spells v content → h'.Spells v content
  collections : h'.stats.collections = h.stats.collections

theorem Heap.Preserves.refl (h : Heap) : h.Preserves h := ⟨fun _ => rfl, id, rfl⟩

theorem Heap.Preserves.trans {h h' h'' : Heap} (hp : h.Preserves h') (hg : h.Grows h')
    (hp' : h'.Preserves h'') : h.Preserves h'' where
  header hv := (hp'.header (hg _ hv)).trans (hp.header hv)
  spells hs := hp'.spells (hp.spells hs)
  collections := hp'.collections.trans hp.collections

/-- Every new object that has cells is an instance of one of some classes. -/
structure Heap.Instantiates (F : Value → Prop) (h h' : Heap) : Prop where
  isa : ∀ {c x header}, h'.Holds c x → ¬h.arenas.Sane c.object →
    h'.header c.object = .ok header → F header.isa

variable {F : Value → Prop}

theorem Heap.Instantiates.refl (h : Heap) : h.Instantiates F h :=
  ⟨fun hc hnew => absurd hc.sane hnew⟩

theorem Heap.Preserves.holds {h h' : Heap} (hp : h.Preserves h') (whole : h.Whole) {c : Cell}
    {x : Value} (hc : h'.Holds c x) (hsane : h.arenas.Sane c.object) : ∃ y, h.Holds c y := by
  obtain ⟨loc, header, hloc, hh, hkind, hindex, -⟩ := slot_eq_ok hc.slot
  have hsame := hp.header hsane
  simp only [Heap.header, locate, hloc, bind, Except.bind] at hsame
  obtain ⟨y, hy⟩ :=
    whole.sound.exists_slot hloc (hsane.allocated hloc) (hsame.symm.trans hh) hkind hindex
  exact ⟨y, hsane, hy⟩

theorem Heap.Instantiates.trans {h h' h'' : Heap} (hi : h.Instantiates F h') (whole : h'.Whole)
    (hp : h'.Preserves h'') (hi' : h'.Instantiates F h'') : h.Instantiates F h'' := by
  refine ⟨fun {c x header} hc hnew hheader => ?_⟩
  by_cases hsane : h'.arenas.Sane c.object
  · obtain ⟨y, hy⟩ := hp.holds whole hc hsane
    exact hi.isa hy hnew ((hp.header hsane).symm.trans hheader)
  · exact hi'.isa hc hsane hheader

/-- Moreover nothing but cells changed, and new objects are instances of some classes. -/
structure Grown (W : Licence) (F : Value → Prop) (h : Heap) (s : σ) : Prop extends
    Since W h s where
  preserves : h.Preserves (Store.heap s)
  instantiates : h.Instantiates F (Store.heap s)

theorem Intact.grown {W : Licence} {s : σ} (hs : Intact s) : Grown W F (Store.heap s) s :=
  ⟨hs.since, .refl _, .refl _⟩

end Since

section Upholding

variable {ε σ α β : Type} [Store σ] [Holder α] [Holder β]

/-- A step that leaves every state as it should be, if the values it is given are not stale. -/
def Upholds (P : σ → Prop) (known : List Value) (act : Action ε σ α) : Prop :=
  ∀ s, P s → (∀ v ∈ known, Sane s v) → Leaves P s (act s)

namespace Upholds

variable {P : σ → Prop} {known : List Value}

theorem pure {a : α} (ha : ∀ v ∈ held a, Trusted known v) :
    Upholds P known (Pure.pure a : Action ε σ α) :=
  fun _ hs hknown => .pure hs fun v hv => (ha v hv).sane hknown

theorem fail (cause : ε) : Upholds P known (Action.fail cause : Action ε σ α) :=
  fun _ hs _ => .fail hs

theorem fault (f : Fault) : Upholds P known (Action.fault f : Action ε σ α) :=
  fun _ _ _ => .fault

/-- What is known of everything that a step can deliver may be used after it. -/
theorem bind_of {act : Action ε σ α} {next : α → Action ε σ β} {R : α → Prop}
    (hact : Upholds P known act)
    (hR : ∀ s a s', P s → (∀ v ∈ known, Sane s v) → act s = .ok a s' → R a)
    (hnext : ∀ a, R a → Upholds P (held a ++ known) (next a)) : Upholds P known (act >>= next) := by
  intro s hs hknown
  refine .bind (hact s hs hknown) fun a s' heq hs' hgrows ha =>
    hnext a (hR s a s' hs hknown heq) s' hs' fun v hv => ?_
  exact (List.mem_append.mp hv).elim (ha v) fun hv => hgrows.sane (hknown v hv)

theorem bind {act : Action ε σ α} {next : α → Action ε σ β} (hact : Upholds P known act)
    (hnext : ∀ a, Upholds P (held a ++ known) (next a)) : Upholds P known (act >>= next) :=
  .bind_of (R := fun _ => True) hact (fun _ _ _ _ _ _ => trivial) fun a _ => hnext a

/-- What is known about the state is known about what is read off it. -/
theorem get_bind {next : σ → Action ε σ β} (hP : ∀ s, P s → Intact s)
    (hnext : ∀ s, P s → Upholds P (held s ++ known) (next s)) :
    Upholds P known (MonadState.get >>= next) := by
  intro s hs hknown
  refine hnext s hs s hs fun v hv => ?_
  exact (List.mem_append.mp hv).elim ((hP s hs).held v) (hknown v)

theorem query {f : σ → Except Fault α}
    (hf : ∀ s, P s → (∀ v ∈ known, Sane s v) → Yields (Store.heap s) (f s)) :
    Upholds P known (Action.query f : Action ε σ α) := by
  intro s hs hknown
  rw [Action.query]
  cases heq : f s with
  | ok a => exact ⟨hs, fun _ hv => hv, hf s hs hknown a heq⟩
  | error e => trivial

/-- A read that delivers no values at all. -/
theorem inspect {f : σ → Except Fault α} (hα : ∀ a : α, held a = []) :
    Upholds P known (Action.query f : Action ε σ α) :=
  .query fun _ _ _ a _ v hv => by
    rw [hα a] at hv
    cases hv

theorem modify {f : σ → σ} (hP : ∀ s, P s → (∀ v ∈ known, Sane s v) → P (f s))
    (hheap : ∀ s, Store.heap (f s) = Store.heap s) :
    Upholds P known (modify f : Action ε σ PUnit) :=
  fun s hs hknown => .modify (hP s hs hknown) (hheap s)

end Upholds

end Upholding

end ObjectMachine
