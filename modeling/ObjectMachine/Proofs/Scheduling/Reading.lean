import ObjectMachine.Proofs.Machine.Reconciliation
import ObjectMachine.Proofs.Scheduling.History

namespace ObjectMachine

/-- Which value each value has become some steps after a step. -/
def Track.along (track : Nat → Track) (start : Nat) : Nat → Track
  | 0 => Eq
  | d + 1 => fun x z => ∃ y, along track start d x y ∧ track (start + d) y z

/-- Where nothing moves, everything is what it was. -/
theorem Track.along_eq {start d : Nat} {x y : Value} (h : along (fun _ => Eq) start d x y) :
    x = y := by
  induction d generalizing y with
  | zero => exact h
  | succ d ih =>
    obtain ⟨z, hz, rfl⟩ := h
    exact ih hz

theorem Track.along_of_steps {track : Nat → Track} {start d : Nat} {f : Nat → Value}
    (h : ∀ i < d, track (start + i) (f (start + i)) (f (start + i + 1))) :
    along track start d (f start) (f (start + d)) := by
  induction d with
  | zero => rfl
  | succ d ih => exact ⟨_, ih fun i hi => h i (Nat.lt_succ_of_lt hi), h d (Nat.lt_succ_self d)⟩

/-- Neither the block's copy nor the value agreed on changes. -/
def Copies.Kept (t : Track) (c c' : Copies) : Prop := t c.own c'.own ∧ t c.agreed c'.agreed

theorem Stage.Sound.whole {s : Stage} (hs : s.Sound) : s.heap.Whole := by
  cases s with
  | idle w => exact Intact.whole hs
  | running m => exact hs.1.whole
  | failed w => exact Intact.whole hs

theorem Stage.Sound.roots_sane {s : Stage} (hs : s.Sound) :
    ∀ v ∈ s.schedule.roots, Sane s.world v := by
  cases s with
  | idle w => exact fun v hv => hs.held v (List.mem_append_right _ hv)
  | running m => exact Machine.schedule_roots_sane hs.1
  | failed w => exact fun v hv => hs.held v (List.mem_append_right _ hv)

/-- An activation does about a chained variable what is to be done in its course. -/
def Stage.Tends (stage : Stage) (d : Deed) (a : Activation) (s : SyncedSlot) (u : Upkeep) : Prop :=
  ∃ m m₁, stage = .running m ∧ d = .execute (u.instruction s) m₁ ∧ m.context = a.context

section Following

variable {stage : Nat → Stage} {deed : Nat → Deed} {track : Nat → Track} {n start d : Nat}
  {x y z : Value}

theorem History.along_unique (history : History stage deed track n) (hd : start + d ≤ n)
    (hy : Track.along track start d x y) (hz : Track.along track start d x z) : y = z := by
  induction d generalizing y z with
  | zero => exact hy.symm.trans hz
  | succ d ih =>
    obtain ⟨y', hy', hy⟩ := hy
    obtain ⟨z', hz', hz⟩ := hz
    obtain rfl := ih (by omega) hy' hz'
    exact (history.follows_at hd).unique hy hz

theorem History.along_sane (history : History stage deed track n) (hd : start + d ≤ n)
    (hx : (stage start).heap.arenas.Sane x) (hy : Track.along track start d x y) :
    (stage (start + d)).heap.arenas.Sane y := by
  induction d generalizing y with
  | zero => exact hy ▸ hx
  | succ d ih =>
    obtain ⟨y', hy', hy⟩ := hy
    exact (history.follows_at hd).sane (ih (by omega) hy') hy

theorem History.along_injective (history : History stage deed track n) (hd : start + d ≤ n)
    (hx : (stage start).heap.arenas.Sane x) (hy : (stage start).heap.arenas.Sane y)
    (hxz : Track.along track start d x z) (hyz : Track.along track start d y z) : x = y := by
  induction d generalizing z with
  | zero => exact hxz.trans hyz.symm
  | succ d ih =>
    obtain ⟨x', hx', hxz⟩ := hxz
    obtain ⟨y', hy', hyz⟩ := hyz
    obtain rfl := (history.follows_at hd).injective (history.along_sane (by omega) hx hx')
      (history.along_sane (by omega) hy hy') hxz hyz
    exact ih (by omega) hx' hy'

end Following

/-- An activation that is followed wherever it moves, with the values of a variable that it
chains. -/
structure Chained (stage : Nat → Stage) (track : Nat → Track) (n : Nat) (s : SyncedSlot)
    (a : Nat → Activation) (c : Nat → Copies) : Prop where
  chains : ∀ k ≤ n, (stage k).heap.Chains (a k) s (c k)
  context : ∀ k < n, track k (a k).context (a (k + 1)).context
  theirs : ∀ k < n, track k (a k).theirs (a (k + 1)).theirs

section Reading

variable {stage : Nat → Stage} {deed : Nat → Deed} {track : Nat → Track} {n k : Nat}
  {s : SyncedSlot} {a : Nat → Activation} {c : Nat → Copies} {u : Upkeep}

theorem Machine.not_pauses_upkeep {m : Machine} (u : Upkeep) : ¬m.Pauses (u.instruction s) := by
  cases u <;> simp [Upkeep.instruction, Machine.Pauses, Machine.call?]

theorem Heap.Chains.unique_of_context {h : Heap} {a a' : Activation} {c c' : Copies}
    (hc : h.Chains a s c) (hc' : h.Chains a' s c') (hcontext : a.context = a'.context) :
    c = c' := by
  have hmine : a.mine = a'.mine := hc.mine.unique (hcontext ▸ hc'.mine)
  have htheirs : a.theirs = a'.theirs := hc.theirs.unique (hcontext ▸ hc'.theirs)
  obtain ⟨context, mine, theirs, _, _, _⟩ := a
  obtain ⟨context', mine', theirs', _, _, _⟩ := a'
  cases hcontext
  cases hmine
  cases htheirs
  exact hc.unique hc'

/-- What the activation does about the variable is done without a pause. -/
theorem Stage.Step.tended {m m₁ : Machine} {t : Track} {stage' : Stage} {a : Activation}
    {c : Copies} (hs : (Stage.running m).Sound)
    (hstep : (Stage.running m).Step (.execute (u.instruction s) m₁) t stage')
    (hc : m.image.heap.Chains a s c) (hcontext : m.context = a.context) :
    t = Eq ∧ stage'.heap.Chains a s (u.apply c) := by
  have hexecutes : ∀ {m₀}, m.Fetches (u.instruction s) m₀ → ∃ m',
      Machine.execute (u.instruction s) m₀ = .ok () m' ∧
        m'.image.heap.Chains a s (u.apply c) := by
    intro m₀ hf
    have hm₀ := hf.intact hs.1
    obtain ⟨_, _, _, _, rfl⟩ := hf.eq
    exact Machine.execute_upkeep hm₀.whole hc hcontext u
  cases hstep with
  | execute hstop hf hp heq =>
    obtain ⟨m', heq', hchains⟩ := hexecutes hf
    obtain rfl := (EStateM.Result.ok.inj (heq'.symm.trans heq)).2
    cases hp with
    | pausing hpauses => exact absurd hpauses (Machine.not_pauses_upkeep u)
    | straight _ => exact ⟨rfl, hchains⟩
  | fail hstop hf hp heq =>
    obtain ⟨m', heq', -⟩ := hexecutes hf
    exact nomatch heq'.symm.trans heq

/-- What a step of the activation makes of the values. -/
theorem Chained.tended (chained : Chained stage track n s a c)
    (history : History stage deed track n) (hk : k < n)
    (htends : (stage k).Tends (deed k) (a k) s u) : track k = Eq ∧ c (k + 1) = u.apply (c k) := by
  obtain ⟨m, m₁, hstage, hdeed, hcontext⟩ := htends
  have hbefore := chained.chains k hk.le
  have hstep := history.step k hk
  have hsound := history.sound_at hk.le
  rw [hstage] at hbefore hsound hstep
  rw [hdeed] at hstep
  obtain ⟨hstill, hchains⟩ := hstep.tended hsound hbefore hcontext
  have hsame := chained.context k hk
  rw [hstill] at hsame
  exact ⟨hstill, (chained.chains (k + 1) hk).unique_of_context hchains hsame.symm⟩

/-- Only a step that writes to it changes the parent's slot. -/
theorem Chained.parent_kept (chained : Chained stage track n s a c)
    (history : History stage deed track n) (hk : k < n)
    (hwrites : ∀ x, ¬(stage k).Writes (deed k) ((a (k + 1)).parentCell s) x) :
    track k (c k).parent (c (k + 1)).parent := by
  obtain ⟨z, hz, hmoved⟩ := (history.follows_at hk).kept (chained.theirs k hk)
    (chained.chains k hk.le).parent hwrites
  exact (chained.chains (k + 1) hk).parent.unique hz ▸ hmoved

/-- An activation of a block that only reads a variable. Whatever other processes do in between, a
step that tends to the variable changes the slot of the parent exactly if it is a restoration, or a
reconciliation of a copy that differs from what was agreed on, and the slot no longer has the value
that it had after the step that tended to it before. That value is then back in the slot. A step
that does not tend to the variable and does not write to the slot leaves it as it is. -/
theorem History.reader_overwrites_iff (history : History stage deed track n)
    (chained : Chained stage track n s a c) {j d : Nat} {u₀ u : Upkeep} (hn : j + 1 + d < n)
    (hfirst : (stage j).Tends (deed j) (a j) s u₀)
    (hread : ∀ i < d, (c (j + 1 + i)).Kept (track (j + 1 + i)) (c (j + 1 + i + 1)))
    (hlast : (stage (j + 1 + d)).Tends (deed (j + 1 + d)) (a (j + 1 + d)) s u) :
    ((c (j + 1 + d + 1)).parent ≠ (c (j + 1 + d)).parent ↔
      (u = .restore ∨ u = .sync ∧ (c (j + 1)).own ≠ (c (j + 1)).agreed) ∧
        ¬Track.along track (j + 1) d (c (j + 1)).parent (c (j + 1 + d)).parent) ∧
    ((c (j + 1 + d + 1)).parent ≠ (c (j + 1 + d)).parent →
      Track.along track (j + 1) d (c (j + 1)).parent (c (j + 1 + d + 1)).parent) ∧
    ∀ k < n, (∀ x, ¬(stage k).Writes (deed k) ((a (k + 1)).parentCell s) x) →
      track k (c k).parent (c (k + 1)).parent := by
  have hn' : j + 1 + d ≤ n := hn.le
  have hstart := chained.chains (j + 1) (by omega)
  have whole := (history.sound_at (k := j + 1) (by omega)).whole
  have hown : Track.along track (j + 1) d (c (j + 1)).own (c (j + 1 + d)).own :=
    Track.along_of_steps (f := fun i => (c i).own) fun i hi => (hread i hi).1
  have hagreed : Track.along track (j + 1) d (c (j + 1)).agreed (c (j + 1 + d)).agreed :=
    Track.along_of_steps (f := fun i => (c i).agreed) fun i hi => (hread i hi).2
  -- A step that tends to the variable leaves the copy and the slot with one value.
  have hequal : (c (j + 1)).parent = (c (j + 1)).own := by
    rw [(chained.tended history (by omega) hfirst).2]
    cases u₀ <;> rfl
  have hsame : Track.along track (j + 1) d (c (j + 1)).parent (c (j + 1 + d)).parent ↔
      (c (j + 1 + d)).own = (c (j + 1 + d)).parent := by
    rw [hequal]
    exact ⟨fun h => history.along_unique hn' hown h, fun h => h ▸ hown⟩
  have hchanged : (c (j + 1)).own = (c (j + 1)).agreed ↔
      (c (j + 1 + d)).own = (c (j + 1 + d)).agreed := by
    refine ⟨fun h => history.along_unique hn' hown (h ▸ hagreed), fun h => ?_⟩
    exact history.along_injective hn' (hstart.own.value_sane whole)
      (hstart.agreed.value_sane whole) hown (h ▸ hagreed)
  rw [← and_assoc]
  refine ⟨?_, fun k hk hwrites => chained.parent_kept history hk hwrites⟩
  rw [(chained.tended history hn hlast).2, hsame, hequal, ne_eq, ne_eq, hchanged]
  cases u with
  | promote => simp [Upkeep.apply]
  | restore => exact ⟨by simp [Upkeep.apply], fun _ => hown⟩
  | sync =>
    rw [Upkeep.apply, Copies.settled]
    by_cases hkept : (c (j + 1 + d)).own = (c (j + 1 + d)).agreed
    · simp [hkept]
    · simp only [ne_eq, hkept, not_false_eq_true, if_true]
      exact ⟨by simp, fun _ => hown⟩

end Reading

/-- A turn without a pause, as a step of a history. -/
theorem Stage.Step.of_turn {m m' : Machine} {i : Instruction} {next : Nat}
    (hpending : m.interrupts.pending = false) (hstop : m.stop = none)
    (hdecode : Code.decodeAt m.code m.pc = .ok (i, next)) (hpauses : ∀ m : Machine, ¬m.Pauses i)
    (hturn : Machine.step .never m = .ok none m') :
    (Stage.running m).Step
      (.execute i { m with clock := m.clock + 1, start := m.pc, pc := next }) Eq (.running m') := by
  have hf : m.Fetches i { m with clock := m.clock + 1, start := m.pc, pc := next } :=
    ⟨.never, { m with clock := m.clock + 1 }, next, rfl, by simp [hpending], hdecode, rfl⟩
  exact .execute hstop hf (.straight (hpauses _)) (Machine.execute_of_step hturn hdecode)

/-- A block that promotes a variable and restores it, with 7 assigned to its parent's slot in
between. -/
def readingMachine : Machine := chainedMachine ⟨.nil, .ofNat 5, .nil⟩
  [.promote 0 0, .storeParent 0, .restore 0 0]

def readingTurn (k : Nat) : Instruction × Nat :=
  [(.promote 0 0, 3), (.storeParent 0, 5), (.restore 0 0, 8)].getD k (.loadNil, 0)

def readingStage (k : Nat) : Stage := .running (Machine.next^[k] readingMachine)

def readingDeed (k : Nat) : Deed :=
  let m := Machine.next^[k] readingMachine
  .execute (readingTurn k).1 { m with
    clock := m.clock + 1, start := m.pc, pc := (readingTurn k).2 }

def readingCopies (k : Nat) : Copies :=
  [⟨.nil, .ofNat 5, .nil⟩, ⟨.ofNat 5, .ofNat 5, .nil⟩, ⟨.ofNat 5, .ofNat 7, .nil⟩].getD k
    ⟨.ofNat 5, .ofNat 5, .nil⟩

theorem readingMachine_intact : Intact readingMachine :=
  chainedMachine_intact (c := ⟨.nil, .ofNat 5, .nil⟩) trusted_nil (trusted_ofNat 5) trusted_nil _

theorem reading_history : History readingStage readingDeed (fun _ => Eq) 3 := by
  refine ⟨⟨readingMachine_intact, by decide +kernel⟩, fun k hk => ?_⟩
  match k, hk with
  | 0, _ | 1, _ | 2, _ =>
    exact Stage.Step.of_turn (by decide +kernel) (by decide +kernel) (by decide +kernel)
      (fun m => by simp [readingTurn, Machine.Pauses, Machine.call?])
      (Machine.step_of_goesOn (by decide +kernel))

theorem reading_chained : Chained readingStage (fun _ => Eq) 3 ⟨0, 0, 1⟩
    (fun _ => chainedActivation) readingCopies := by
  refine ⟨fun k hk => ?_, fun _ _ => rfl, fun _ _ => rfl⟩
  have hs := reading_history.sound_at hk
  have hcontext : (Machine.next^[k] readingMachine).context = chainedActivation.context := by
    match k, hk with
    | 0, _ | 1, _ | 2, _ | 3, _ => decide +kernel
  have hsane := hs.1.held (Machine.next^[k] readingMachine).context (by simp)
  rw [hcontext] at hsane
  match k, hk with
  | 0, _ | 1, _ | 2, _ | 3, _ =>
    exact hs.whole.chains hsane (by decide +kernel) (by decide +kernel) (by decide +kernel)
      (by decide +kernel) (by decide +kernel)

/-- The assignment is undone. -/
theorem reading_overwrites : (readingStage 2).heap.Chains chainedActivation ⟨0, 0, 1⟩
      ⟨.ofNat 5, .ofNat 7, .nil⟩ ∧
    (readingCopies 3).parent ≠ (readingCopies 2).parent := by
  have hfirst : (readingStage 0).Tends (readingDeed 0) chainedActivation ⟨0, 0, 1⟩ .promote :=
    ⟨_, _, rfl, rfl, by decide +kernel⟩
  have hlast : (readingStage 2).Tends (readingDeed 2) chainedActivation ⟨0, 0, 1⟩ .restore :=
    ⟨_, _, rfl, rfl, by decide +kernel⟩
  have hread : ∀ i < 1, (readingCopies (0 + 1 + i)).Kept Eq (readingCopies (0 + 1 + i + 1)) := by
    intro i hi
    obtain rfl := Nat.lt_one_iff.mp hi
    exact ⟨rfl, rfl⟩
  have hiff := (reading_history.reader_overwrites_iff reading_chained (j := 0) (d := 1) (by decide)
    hfirst hread hlast).1
  refine ⟨reading_chained.chains 2 (by decide), hiff.mpr ⟨.inl rfl, ?_⟩⟩
  rintro ⟨y, rfl, hsame⟩
  exact absurd hsame (by decide)

end ObjectMachine
