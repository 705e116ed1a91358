import ObjectMachine.Proofs.Scheduling.Positions
import ObjectMachine.Proofs.Scheduling.Preemption

namespace ObjectMachine

namespace Machine

variable {m m' : Machine}

/-- Synchronizing a variable changes no register of the machine. -/
theorem execute_sync_eq_ok {own parent reg : UInt8}
    (heq : execute (.sync own parent reg) m = .ok () m') : m' = { m with image := m'.image } := by
  have hset : ∀ {v x : Value} {k : Nat} {m₁ m₂ : Machine}, m₁ = { m with image := m₁.image } →
      setSlot v k x m₁ = .ok () m₂ → m₂ = { m with image := m₂.image } := by
    intro v x k m₁ m₂ hsame hset
    obtain ⟨heap, -, rfl⟩ := setSlot_eq_ok hset
    rw [hsame]
  obtain ⟨mine, -, heq⟩ := query_bind_eq_ok.mp heq
  obtain ⟨theirs, -, heq⟩ := query_bind_eq_ok.mp heq
  obtain ⟨value, -, heq⟩ := query_bind_eq_ok.mp heq
  obtain ⟨agreed, -, heq⟩ := query_bind_eq_ok.mp heq
  rcases ite_eq_ok.mp heq with ⟨-, heq⟩ | ⟨-, heq⟩
  · obtain ⟨_, m₁, hfirst, heq⟩ := bind_eq_ok.mp heq
    exact hset (hset rfl hfirst) heq
  · obtain ⟨theirValue, -, heq⟩ := query_bind_eq_ok.mp heq
    obtain ⟨_, m₁, hfirst, heq⟩ := bind_eq_ok.mp heq
    exact hset (hset rfl hfirst) heq

theorem execute_storeRegister_rewrites {reg : UInt8} (hm : Intact m)
    (heq : execute (.storeRegister reg) m = .ok () m') :
    m'.image.heap.Holds ⟨m.context, Slot.Context.registers + reg.toNat⟩ m.accumulator := by
  obtain ⟨heap, hset, rfl⟩ := setSlot_eq_ok (show setSlot m.context
    (Slot.Context.registers + reg.toNat) m.accumulator m = .ok () m' from heq)
  exact (hm.whole.rewrites (hm.held m.context (by simp)) (hm.held m.accumulator (by simp))
    hset).written

end Machine

namespace Stage

variable {s s' : Stage} {d : Deed} {t : Track} {m m₁ : Machine} {i : Instruction}
  {v v' p p' x : Value}

def Keeps (s : Stage) (v p x : Value) : Prop :=
  (∃ m, s = .running m ∧ m.context = v ∧ m.accumulator = x) ∨
    ¬s.RunsFor p ∧ s.heap.Holds ⟨p, Slot.Process.context⟩ v ∧
      s.heap.Holds ⟨p, Slot.Process.accumulator⟩ x

theorem Keeps.accumulator_eq (h : (running m).Keeps v m.process x) : m.accumulator = x := by
  rcases h with ⟨_, hm, -, hx⟩ | ⟨hidle, -⟩
  · cases hm
    exact hx
  · exact absurd rfl hidle

/-- The machine works for the same process after an instruction. -/
theorem Step.runsFor_moved (hs : (running m).Sound)
    (hstep : (running m).Step (.execute i m₁) t s') (hp : t p p')
    (hsane : (running m).heap.arenas.Sane p) (hruns : s'.RunsFor p') : m.process = p := by
  have hmoved := hstep.process_moved hs
  have hfollows := (hstep.sound_follows hs).2
  cases hstep with
  | fail => exact hruns.elim
  | @execute _ m₀ _ m' _ _ hstop hf hpaused heq =>
    have hstop₀ : m₀.stop = none := by
      obtain ⟨_, _, _, _, rfl⟩ := hf.eq
      exact hstop
    have hleaves := (hpaused.pause.leaves (hf.intact hs.1) hstop₀ (by simp [heq])).2
    rw [heq] at hleaves
    obtain ⟨hcontinues, -, -⟩ := hleaves
    have hsame : m₁.process = p' := hcontinues.process.symm.trans hruns
    exact hfollows.injective (hs.1.held m.process (by simp)) hsane (hsame ▸ hmoved) hp

/-- Where a process that does not run has its registers, they stay, unless the program stores over
them or the process is taken for a context. -/
theorem Step.saved_kept {k : Nat} {y : Value} (hs : s.Sound) (hstep : s.Step d t s') (hp : t p p')
    (hy : s.heap.Holds ⟨p, k⟩ y) (hk : k = Slot.Process.context ∨ k = Slot.Process.accumulator)
    (hidle : ¬s.RunsFor p) (hworks : ¬s.WorksIn d p') (hstores : ¬d.Stores ⟨p', k⟩) :
    ∃ z, s'.heap.Holds ⟨p', k⟩ z ∧ t y z := by
  obtain ⟨-, hfollows⟩ := hstep.sound_follows hs
  refine hfollows.kept hp hy fun z hz => ?_
  have hlink : k ≠ Slot.Process.link := by rcases hk with rfl | rfl <;> decide
  have hstate : k ≠ Slot.Process.state := by rcases hk with rfl | rfl <;> decide
  generalize hcell : (⟨p', k⟩ : Cell) = c at hz
  have hprocess : ∀ {m m₁ i}, s = .running m → d = .execute i m₁ → p' ≠ m₁.process := by
    rintro m m₁ i rfl rfl rfl
    exact hidle (hfollows.injective (hs.1.held m.process (by simp)) hy.sane
      (hstep.process_moved hs) hp)
  cases hz with
  | outside h => exact hstores (hcell ▸ h)
  | spawn | dispatch => exact hlink (congrArg Cell.index hcell)
  | abort => exact hstate (congrArg Cell.index hcell)
  | pause h =>
    cases h with
    | position => exact hworks (.inl (congrArg Cell.object hcell).symm)
    | context | accumulator => exact hprocess rfl rfl (congrArg Cell.object hcell)
  | instruction h =>
    cases h with
    | position => exact hworks (.inl (congrArg Cell.object hcell).symm)
    | ended h =>
      obtain rfl := congrArg Cell.object hcell
      exact hworks (.inr h)
    | @register r _ _ =>
      have hindex : k = Slot.Context.registers + r.toNat := congrArg Cell.index hcell
      rcases hk with rfl | rfl <;>
        simp only [Slot.Process.context, Slot.Process.accumulator,
          Slot.Context.registers] at hindex <;>
        omega
    | stored h => exact hstores (hcell ▸ h)
    | link => exact hlink (congrArg Cell.index hcell)
    | state => exact hstate (congrArg Cell.index hcell)
  | spill h =>
    cases hstep
    obtain rfl := hp
    cases h with
    | position => exact hworks (congrArg Cell.object hcell).symm
    | context | accumulator => exact hidle (congrArg Cell.object hcell).symm
  | settle h =>
    cases hstep
    obtain rfl := hp
    cases h with
    | own _ => exact hidle (hs.2.trans (congrArg Cell.object hcell).symm)
    | runnable | waiting => exact hlink (congrArg Cell.index hcell)

/-- A register of a context stays, unless the program stores over it, an instruction that is
executed in the context sets it, or the context is taken for a process. -/
theorem Step.register_kept {r : UInt8} {y : Value} (hs : s.Sound) (hstep : s.Step d t s')
    (hv : t v v') (hy : s.heap.Holds ⟨v, Slot.Context.registers + r.toNat⟩ y)
    (hstores : ¬d.Stores ⟨v', Slot.Context.registers + r.toNat⟩)
    (hprocess : ¬s.RunsFor v) (hsets : ∀ m i m₁, s = .running m → m.context = v →
      d = .execute i m₁ → Machine.setRegister? i ≠ some r) :
    ∃ z, s'.heap.Holds ⟨v', Slot.Context.registers + r.toNat⟩ z ∧ t y z := by
  obtain ⟨-, hfollows⟩ := hstep.sound_follows hs
  refine hfollows.kept hv hy fun z hz => ?_
  -- Everything else that is written has an index below those of registers.
  have hindex : ∀ {o : Value} {k : Nat},
      (⟨v', Slot.Context.registers + r.toNat⟩ : Cell) = ⟨o, k⟩ → 7 ≤ k := by
    rintro _ _ ⟨⟩
    exact Nat.le_add_right 7 _
  generalize hcell : (⟨v', Slot.Context.registers + r.toNat⟩ : Cell) = c at hz
  cases hz with
  | outside h => exact hstores (hcell ▸ h)
  | spawn | dispatch | abort => exact absurd (hindex hcell) (by decide)
  | pause h | spill h => cases h <;> exact absurd (hindex hcell) (by decide)
  | settle h =>
    cases hstep
    obtain rfl := hv
    cases h with
    | own _ => exact hprocess (hs.2.trans (congrArg Cell.object hcell).symm)
    | runnable | waiting => exact absurd (hindex hcell) (by decide)
  | @instruction m m₁ i _ _ h =>
    cases h with
    | position | ended | link | state => exact absurd (hindex hcell) (by decide)
    | stored h => exact hstores (hcell ▸ h)
    | @register r' _ hset =>
      have hsame : v' = m₁.context := congrArg Cell.object hcell
      have hregister : Slot.Context.registers + r.toNat = Slot.Context.registers + r'.toNat :=
        congrArg Cell.index hcell
      obtain rfl : r = r' := UInt8.toNat_inj.mp (by omega)
      exact hsets m i m₁ rfl (hfollows.injective (hs.1.held m.context (by simp)) hy.sane
        (hsame ▸ hstep.context_moved hs) hv) rfl hset

/-- An activation that does nothing but synchronize copies goes on with the same accumulator. -/
theorem Step.keeps (hs : s.Sound) (hstep : s.Step d t s') (hv : t v v') (hp : t p p')
    (hkeeps : s.Keeps v p x)
    (hruns : ∀ m, s = .running m → m.context = v → m.process = p ∧ ¬GivesUp d s' ∧
      ∀ i m₁, d = .execute i m₁ → ∃ own parent reg, i = .sync own parent reg)
    (hworks : ¬s.WorksIn d p') (hstores : ∀ k, k = Slot.Process.context ∨
      k = Slot.Process.accumulator → ¬d.Stores ⟨p', k⟩) :
    ∃ x', t x x' ∧ s'.Keeps v' p' x' := by
  rcases hkeeps with ⟨m, rfl, rfl, rfl⟩ | ⟨hidle, hcontext, haccumulator⟩
  · obtain ⟨rfl, hgoes, hsyncs⟩ := hruns m rfl rfl
    cases hstep with
    | @execute _ m₀ m₁ m' i _ hstop hf hpaused heq =>
      obtain ⟨own, parent, reg, rfl⟩ := hsyncs _ _ rfl
      cases hpaused with
      | pausing hpauses =>
        exact absurd hpauses (by simp [Machine.Pauses, Machine.call?])
      | straight _ =>
        obtain rfl := hv
        obtain ⟨_, _, _, _, rfl⟩ := hf.eq
        have hsame := Machine.execute_sync_eq_ok heq
        exact ⟨_, rfl, .inl ⟨m', rfl, by rw [hsame], by rw [hsame]⟩⟩
    | fail | reject => exact absurd (.inl ⟨_, rfl⟩) hgoes
    | leave hquits hsettle =>
      have houtcome : ∀ w, _ ≠ RunOutcome.returned w := fun w hw =>
        hgoes (.inr (.inl ⟨w, congrArg Deed.leave hw⟩))
      obtain ⟨-, -, -, hcontext, haccumulator⟩ :=
        Step.left hs (.leave hquits hsettle) houtcome
      obtain rfl := hv
      obtain rfl := hp
      exact ⟨_, rfl, .inr ⟨id, hcontext, haccumulator⟩⟩
  · have hfollows := (hstep.sound_follows hs).2
    obtain ⟨c, hcontext', hc⟩ := hstep.saved_kept hs hp hcontext (.inl rfl) hidle hworks
      (hstores _ (.inl rfl))
    obtain rfl := hfollows.unique hc hv
    obtain ⟨x', haccumulator', hx⟩ := hstep.saved_kept hs hp haccumulator (.inr rfl) hidle hworks
      (hstores _ (.inr rfl))
    refine ⟨x', hx, ?_⟩
    by_cases hruns' : s'.RunsFor p'
    · -- It is taken up.
      cases hstep with
      | outside | interrupts | collect | spawn | fail | reject | leave | abort =>
        exact hruns'.elim
      | @dispatch w w₁ p₁ m hdequeue hunspill =>
        obtain ⟨-, -, -, -, hcontext₁, haccumulator₁, -⟩ :=
          Step.taken_up hs (.dispatch hdequeue hunspill)
        obtain rfl : m.process = p' := hruns'
        exact .inl ⟨m, rfl, Except.ok.inj (hcontext₁.symm.trans hcontext'.slot),
          Except.ok.inj (haccumulator₁.symm.trans haccumulator'.slot)⟩
      | execute hstop hf hpaused heq =>
        exact absurd (Step.runsFor_moved hs (.execute hstop hf hpaused heq) hp hcontext.sane hruns')
          hidle
    · exact .inr ⟨hruns', hcontext', haccumulator'⟩

end Stage

section Histories

variable {stage : Nat → Stage} {deed : Nat → Deed} {track : Nat → Track} {n j e : Nat}
  {bytecode : Array UInt8} {context process : Nat → Value}

def Executes (stage : Nat → Stage) (deed : Nat → Deed) (context : Nat → Value) (j e : Nat)
    (P : Instruction → Prop) : Prop :=
  ∀ q < e, ∀ m i m₁, stage (j + q) = .running m → m.context = context (j + q) →
    deed (j + q) = .execute i m₁ → P i

/-- An activation goes on with its accumulator as long as it does nothing but synchronize copies. -/
theorem Activated.keeps_along (activated : Activated stage deed track n bytecode context process)
    (history : History stage deed track n) (hn : j + e ≤ n) {x : Value}
    (hkeeps : (stage j).Keeps (context j) (process j) x)
    (hsyncs : Executes stage deed context j e fun i => ∃ own parent reg, i = .sync own parent reg) :
    ∃ x', Track.along track j e x x' ∧
      (stage (j + e)).Keeps (context (j + e)) (process (j + e)) x' := by
  induction e with
  | zero => exact ⟨x, rfl, hkeeps⟩
  | succ e ih =>
    obtain ⟨y, hy, hkeeps⟩ := ih (by omega) fun q hq => hsyncs q (Nat.lt_succ_of_lt hq)
    have hlt : j + e < n := hn
    obtain ⟨x', hx', hkeeps'⟩ := (history.step _ hlt).keeps (history.sound_at hlt.le)
      (activated.context_moved _ hlt) (activated.process_moved _ hlt) hkeeps
      (fun m hm hcontext => ⟨(activated.code _ hlt.le m hm hcontext).2,
        activated.carries_on _ hlt (by rw [hm]; exact hcontext),
        fun i m₁ => hsyncs e (Nat.lt_succ_self e) m i m₁ hm hcontext⟩)
      (activated.apart _ hlt).2 (activated.saves _ hlt)
    exact ⟨x', ⟨y, hy, hx'⟩, hkeeps'⟩

/-- A register of an activation stays until it executes an instruction that sets it. -/
theorem Activated.register_along {r : UInt8} {y : Value}
    (activated : Activated stage deed track n bytecode context process)
    (history : History stage deed track n) (hn : j + e ≤ n)
    (hy : (stage j).heap.Holds ⟨context j, Slot.Context.registers + r.toNat⟩ y)
    (hsets : Executes stage deed context j e fun i => Machine.setRegister? i ≠ some r) :
    ∃ y', Track.along track j e y y' ∧
      (stage (j + e)).heap.Holds ⟨context (j + e), Slot.Context.registers + r.toNat⟩ y' := by
  induction e with
  | zero => exact ⟨y, rfl, hy⟩
  | succ e ih =>
    obtain ⟨z, hz, hheld⟩ := ih (by omega) fun q hq => hsets q (Nat.lt_succ_of_lt hq)
    have hlt : j + e < n := hn
    obtain ⟨y', hy', hmoved⟩ := (history.step _ hlt).register_kept (history.sound_at hlt.le)
      (activated.context_moved _ hlt) hheld
      (activated.stores _ hlt _ (.inr (Nat.le_add_right _ _))) (activated.apart _ hlt).1
      fun m i m₁ hm hcontext => hsets e (Nat.lt_succ_self e) m i m₁ hm hcontext
    exact ⟨y', ⟨z, hz, hmoved⟩, hy'⟩

end Histories

end ObjectMachine
