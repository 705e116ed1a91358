import ObjectMachine.Proofs.Code.Arguments
import ObjectMachine.Proofs.Machine.Departing
import ObjectMachine.Proofs.Machine.Framing
import ObjectMachine.Proofs.Scheduling.Sharing

namespace ObjectMachine

namespace Machine

variable {m m' : Machine} {t : Track}

/-- A pause does not change the position. -/
theorem Carries.pc_eq (hm : Intact m) (hm' : Intact m') (hcurrent : m.process = m.schedule.current)
    (hapart : m.context ≠ m.process) (hpc : m.pc < 0x1000000000000000) (hc : m.Carries t m') :
    m'.pc = m.pc := by
  have hcontext := (hc.carried hm hcurrent).context
  cases hc with
  | still => rfl
  | @collected _ m₀ _ hneeds hspill heq hcollects =>
    obtain ⟨_, _, schedule, image, hspill', -, hunspill⟩ := safepoint_collects hneeds heq
    obtain rfl := (EStateM.Result.ok.inj (hspill.symm.trans hspill')).2
    obtain ⟨x, hx, hread⟩ := unspill_pc hunspill
    have hfollows : m₀.image.heap.Follows (fun _ _ => False) t m'.image.heap :=
      hcollects.follows hm'.whole
    obtain ⟨z, hz, hmoved⟩ :=
      hfollows.kept hcontext ((spills_of_eq_ok hm hspill).position hapart) fun _ h => h
    obtain rfl := hfollows.eq_of_plain (Value.address?_ofNat _) hmoved
    obtain rfl := Except.ok.inj (hz.slot.symm.trans hx)
    rw [hread, Value.toNat?_ofNat hpc, Option.getD_some]

/-- A run that ends with no value leaves the registers in memory. -/
theorem Quits.saves {outcome : RunOutcome} (hq : m.Quits outcome m') (hm : Intact m)
    (houtcome : ∀ v, outcome ≠ .returned v) : ∃ m₁ : Machine, m₁.Spills m' ∧
      m₁.context = m.context ∧ m₁.process = m.process ∧ m₁.accumulator = m.accumulator ∧
      m₁.pc = m.pc := by
  cases hq with
  | returned h => exact absurd rfl (houtcome _)
  | asked _ _ hspill =>
    have hm₁ : Intact { m with stop := none } := by
      refine ⟨hm.whole, fun v hv => hm.held v ?_⟩
      simp only [Holder.held, Option.toList_none, List.flatMap_nil, List.append_nil] at hv
      exact List.mem_append_left _ hv
    exact ⟨_, spills_of_eq_ok hm₁ hspill, rfl, rfl, rfl, rfl⟩
  | preempted _ htick _ hspill =>
    obtain ⟨interrupts, clock, rfl⟩ := tick_eq_ok htick
    have hm₁ : Intact { m with clock, interrupts := interrupts.poll.2 } := ⟨hm.whole, hm.held⟩
    exact ⟨_, spills_of_eq_ok hm₁ hspill, rfl, rfl, rfl, rfl⟩

end Machine

/-- Of a process that has not ended only its link and its state are written when it is put back. -/
theorem World.settle_spares {W : Licence} {F : Value → Prop} {base : Heap} {w : World}
    {outcome : RunOutcome} (hw : Grown W F base w) (houtcome : ∀ v, outcome ≠ .returned v)
    (hW : ∀ c x, c.index = Slot.Process.link ∨ c.index = Slot.Process.state → W c x) :
    Leaves (Grown W F base) w (settle outcome w) := by
  cases outcome with
  | returned v => exact absurd rfl (houtcome v)
  | preempted | yielded => exact requeue_leaves hw (hW _ _ (.inl rfl))
  | suspended =>
    refine .bind (takeCurrent_leaves hw) fun p w₁ htake hw₁ _ hsane => ?_
    have hp : Sane w₁ p := hsane p (by simp)
    exact .bind (park_leaves hw₁ hp (hW _ _ (.inr rfl)) (hW _ _ (.inl rfl)))
      fun _ _ _ hw₂ hg _ => .pure hw₂ (by simpa using hg.sane hp)

namespace Stage

variable {s s' : Stage} {d : Deed} {t : Track} {m m₁ : Machine} {i : Instruction} {v v' : Value}
  {p : Nat}

/-- The position at which a context goes on. One that is marked as returned would go on at the
start. -/
def At (s : Stage) (v : Value) (p : Nat) : Prop :=
  (∃ m, s = .running m ∧ m.context = v ∧ m.pc = p) ∨
    ¬s.Runs v ∧ ∃ x, s.heap.Holds ⟨v, Slot.Context.pc⟩ x ∧ (x = .ofNat p ∨ x = .nil ∧ p = 0)

theorem At.pc_eq (h : (running m).At v p) (hv : m.context = v) : m.pc = p := by
  rcases h with ⟨_, hm, -, hpc⟩ | ⟨hidle, -⟩
  · cases hm
    exact hpc
  · exact absurd hv hidle

/-- A step with which a context is given up: its process fails or ends, or goes on in a context that
it is given. -/
def GivesUp (d : Deed) (s' : Stage) : Prop :=
  (∃ w, s' = .failed w) ∨ (∃ v, d = .leave (.returned v)) ∨
    ∃ i m args, d = .execute i m ∧ m.Calls i .returnInto args

/-- Whoever begins to go on in a context loads the position from there. -/
theorem Step.enters (hs : s.Sound) (hstep : s.Step d t s') (hv : t v v')
    (hsane : s.heap.arenas.Sane v) (hidle : ¬s.Runs v) (hruns : s'.Runs v') :
    ∃ m', s' = .running m' ∧ m'.context = v' ∧ ∃ x,
      m'.image.heap.slot v' Slot.Context.pc = .ok x ∧ m'.pc = x.toNat?.getD 0 := by
  obtain ⟨hs', hfollows⟩ := hstep.sound_follows hs
  cases hstep with
  | outside | interrupts | collect | spawn | fail | reject | leave | abort => exact hruns.elim
  | dispatch hdequeue hunspill =>
    obtain rfl := hruns
    exact ⟨_, rfl, rfl, Machine.unspill_pc hunspill⟩
  | @execute m m₀ m₁ m' i t hstop hf hp heq =>
    have hcontext := Step.context_moved hs (.execute hstop hf hp heq)
    have hnew : m'.context ≠ m₁.context := fun hsame => by
      rw [← hsame, show m'.context = v' from hruns] at hcontext
      exact hidle (hfollows.injective (hs.1.held m.context (by simp)) hsane hcontext hv)
    cases Machine.execute_lands hp.pause heq with
    | stays h => exact absurd (h Machine.InPlace) hnew
    | returns h hend => exact absurd (hend ▸ h Machine.InPlace) hnew
    | loads h hload =>
      obtain rfl := hruns
      exact ⟨_, rfl, rfl, Machine.loadFrame_pc hload⟩

/-- A step in which a context takes no part: it is where it was, or marked as returned. -/
theorem Step.at_of_idle (hs : s.Sound) (hstep : s.Step d t s') (hv : t v v') (hidle : ¬s.Runs v)
    (hat : s.At v p) (hp : p < 0x1000000000000000) (hstores : ¬d.Stores ⟨v', Slot.Context.pc⟩)
    (hprocess : ¬s.RunsFor v) : s'.At v' p ∨ s'.At v' 0 := by
  obtain ⟨_, rfl, rfl, -⟩ | ⟨-, x, hx, hpos⟩ := hat
  · exact absurd rfl hidle
  obtain ⟨-, hfollows⟩ := hstep.sound_follows hs
  -- Only nil is written over the position.
  obtain ⟨z, hz, hkept⟩ : ∃ z, s'.heap.Holds ⟨v', Slot.Context.pc⟩ z ∧ (z = x ∨ z = .nil) := by
    obtain ⟨z, hz, hmoved | hwritten⟩ := hfollows.holds hv hx
    · refine ⟨z, hz, .inl (hfollows.eq_of_plain ?_ hmoved)⟩
      rcases hpos with rfl | ⟨rfl, -⟩
      · exact Value.address?_ofNat _
      · rfl
    · exact ⟨z, hz, .inr (hstep.eq_nil_of_writes hs hv hx.sane hidle hstores hprocess hwritten)⟩
  have hend : ∀ q, q < 0x1000000000000000 → (z = .ofNat q ∨ z = .nil ∧ q = 0) → s'.At v' q := by
    intro q hq hz'
    by_cases hruns : s'.Runs v'
    · obtain ⟨m', rfl, hcontext, y, hy, hpc⟩ := hstep.enters hs hv hx.sane hidle hruns
      obtain rfl := Except.ok.inj (hz.slot.symm.trans hy)
      refine .inl ⟨m', rfl, hcontext, hpc.trans ?_⟩
      rcases hz' with rfl | ⟨rfl, rfl⟩
      · rw [Value.toNat?_ofNat hq, Option.getD_some]
      · rfl
    · exact .inr ⟨hruns, z, hz, hz'⟩
  rcases hkept with rfl | rfl
  · exact .inl (hend p hp hpos)
  · exact .inr (hend 0 (by decide) (.inr ⟨rfl, rfl⟩))

/-- A process that is taken off the machine, and has not ended, leaves word where it stopped and
with what in the accumulator. -/
theorem Step.left {outcome : RunOutcome} (hs : (running m).Sound)
    (hstep : (running m).Step (.leave outcome) t s') (houtcome : ∀ v, outcome ≠ .returned v) :
    t = Eq ∧ (∃ w, s' = .idle w) ∧ (m.context ≠ m.process →
      s'.heap.Holds ⟨m.context, Slot.Context.pc⟩ (.ofNat m.pc)) ∧
      s'.heap.Holds ⟨m.process, Slot.Process.context⟩ m.context ∧
      s'.heap.Holds ⟨m.process, Slot.Process.accumulator⟩ m.accumulator := by
  cases hstep with
  | @leave _ m₂ _ p w hquits hsettle =>
    have hw₂ : Intact m₂.toWorld := Machine.intact_world (hquits.spills hs.1).1.intact
    have hgrown : Grown (fun c _ => c.index = Slot.Process.link ∨ c.index = Slot.Process.state)
        (fun _ => False) m₂.image.heap m₂.toWorld := hw₂.grown
    have hsettled := (World.settle_spares hgrown houtcome fun _ _ h => h).ok hsettle
    have hlater : ∀ {v i x}, m₂.image.heap.Holds ⟨v, i⟩ x → i ≠ Slot.Process.link →
        i ≠ Slot.Process.state → w.image.heap.Holds ⟨v, i⟩ x := fun hx hlink hstate =>
      hsettled.evolves.holds hx fun y hy => absurd hy (not_or.mpr ⟨hlink, hstate⟩)
    refine ⟨rfl, ⟨w, rfl⟩, ?_⟩
    obtain ⟨m₁, hspills, hcontext, hprocess, haccumulator, hpc⟩ := hquits.saves hs.1 houtcome
    rw [← hcontext, ← hprocess, ← haccumulator, ← hpc]
    exact ⟨fun hapart => hlater (hspills.position hapart) (by decide) (by decide),
      hlater hspills.context (by decide) (by decide),
      hlater hspills.accumulator (by decide) (by decide)⟩

theorem Step.decodes (hstep : (running m).Step (.execute i m₁) t s') :
    ∃ next, Code.decodeAt m.code m.pc = .ok (i, next) := by
  have hfetched : ∀ {m₀}, m.Fetches i m₀ → ∃ next, Code.decodeAt m.code m.pc = .ok (i, next) := by
    rintro m₀ ⟨timer, m₂, next, htick, -, hdecode, -⟩
    obtain ⟨_, _, rfl⟩ := Machine.tick_eq_ok htick
    exact ⟨next, hdecode⟩
  cases hstep with
  | execute _ hf _ _ => exact hfetched hf
  | fail _ hf _ _ => exact hfetched hf

section Working

variable {code : List Instruction} (hs : (running m).Sound)
  (hstep : (running m).Step d t s') (hv : t m.context v')
  (hcode : m.code = (encodeAll code).toArray) (hbranches : Branches code)
  (hsmall : codeLength code < 0x1000000000000000) (hpc : Boundary code m.pc)
  (hstores : ¬d.Stores ⟨v', Slot.Context.pc⟩) (hapart : m.context ≠ m.process)
include hs hstep hv hcode hbranches hsmall hpc hstores hapart

theorem Step.at_of_execute (hd : d = .execute i m₁) (hinto : ∀ args, ¬m₁.Calls i .returnInto args)
    (hfailed : ∀ w, s' ≠ .failed w) : (m.pc, i) ∈ positioned 0 code ∧
      (s'.At v' 0 ∨ ∃ p', i.LeadsTo m.pc p' ∧ s'.At v' p') := by
  subst hd
  obtain ⟨next, hdecode⟩ := hstep.decodes
  obtain ⟨hmem, rfl⟩ := Code.positioned_of_decodeAt hpc (hcode ▸ hdecode)
  refine ⟨hmem, ?_⟩
  have hfall : i.LeadsTo m.pc (m.pc + i.length) := .inl rfl
  have hbound := (hfall.boundary hbranches hmem).le_codeLength
  have hcontext := hstep.context_moved hs
  have hfollows := (hstep.sound_follows hs).2
  obtain rfl := hfollows.unique hv hcontext
  cases hstep with
  | fail => exact absurd rfl (hfailed _)
  | @execute _ m₀ _ m' _ _ hstop hf hp heq =>
    have hstop₀ : m₀.stop = none := by
      obtain ⟨_, _, _, _, rfl⟩ := hf.eq
      exact hstop
    have hm₀ := hf.intact hs.1
    have hm₁ := (hp.pause.leaves hm₀ hstop₀ (by simp [heq])).1
    -- The position behind the instruction, with which it does its work.
    have hpc₀ : m₀.pc = m.pc + i.length := by
      obtain ⟨timer, m₂, next, htick, -, hread, rfl⟩ := hf
      obtain ⟨_, _, rfl⟩ := Machine.tick_eq_ok htick
      exact (Prod.mk.inj (Except.ok.inj (hread.symm.trans hdecode))).2
    have hpc₁ : m₁.pc = m.pc + i.length := by
      rw [← hpc₀]
      refine hp.carries.pc_eq hm₀ hm₁ ?_ ?_ (by omega)
      · obtain ⟨_, _, _, _, rfl⟩ := hf.eq
        exact hs.2
      · obtain ⟨_, _, _, _, rfl⟩ := hf.eq
        exact hapart
    rcases (Machine.execute_acts hp.pause heq).departs hm₁ hinto hstores with
      hdeparts | ⟨offset, hoffset, rfl⟩
    · cases hdeparts with
      | stays h => exact .inr ⟨_, hfall, .inl ⟨m', rfl, h.1, h.2.trans hpc₁⟩⟩
      | leaves hleft hx hword =>
        rcases hword with rfl | rfl
        · exact .inr ⟨_, hfall, .inr ⟨hleft, _, hx, .inl (by rw [hpc₁])⟩⟩
        · exact .inl (.inr ⟨hleft, _, hx, .inr ⟨rfl, rfl⟩⟩)
    · obtain ⟨before, after, hsplit, htarget⟩ := hbranches _ _ _ hmem hoffset
      refine .inr ⟨codeLength before, .inr ⟨offset, hoffset, htarget.symm⟩,
        .inl ⟨_, rfl, rfl, ?_⟩⟩
      have hle : codeLength before ≤ codeLength code := by
        rw [hsplit, codeLength_append]
        omega
      change (((m₁.pc : Int) + offset.toInt) % wordModulus).toNat = codeLength before
      have hto : ((m.pc + i.length : Nat) : Int) + offset.toInt = codeLength before := by
        rw [← htarget]
        push_cast
        rfl
      rw [hpc₁, hto, Int.emod_eq_of_lt (by omega)]
      · simp
      · rw [wordModulus]
        omega

/-- Where the context that the machine is in comes in a step. -/
theorem Step.at_of_runs (hgoes : ¬GivesUp d s') : ∃ p', s'.At v' p' ∧ (p' = 0 ∨
    (p' = m.pc ∧ ∀ i m₁, d ≠ .execute i m₁) ∨
    ∃ i m₁, d = .execute i m₁ ∧ (m.pc, i) ∈ positioned 0 code ∧ i.LeadsTo m.pc p') := by
  have hfailed : ∀ w, s' ≠ .failed w := fun w hw => hgoes (.inl ⟨w, hw⟩)
  cases d with
  | execute i m₁ =>
    obtain ⟨hmem, hended | ⟨p', hleads, hat⟩⟩ := hstep.at_of_execute hs hv hcode hbranches hsmall
      hpc hstores hapart rfl (fun args hcalls => hgoes (.inr (.inr ⟨i, m₁, args, rfl, hcalls⟩)))
      hfailed
    · exact ⟨0, hended, .inl rfl⟩
    · exact ⟨p', hat, .inr (.inr ⟨i, m₁, rfl, hmem, hleads⟩)⟩
  | leave outcome =>
    have houtcome : ∀ v, outcome ≠ .returned v := fun v hv => hgoes (.inr (.inl ⟨v, by rw [hv]⟩))
    obtain ⟨rfl, ⟨w, rfl⟩, hholds, -⟩ := hstep.left hs houtcome
    have hat : (idle w).At m.context m.pc := .inr ⟨fun h => h, .ofNat m.pc, hholds hapart, .inl rfl⟩
    exact ⟨m.pc, hv ▸ hat, .inr (.inl ⟨rfl, fun _ _ h => by cases h⟩)⟩
  | reject =>
    cases hstep
    exact absurd rfl (hfailed _)
  | outside | interrupts | collect | spawn | dispatch | abort => cases hstep

end Working

end Stage

/-- The course of an activation of some code, followed wherever it moves. It starts at the first
instruction and is run by one process. Nothing is stored by reflection over its position and its
registers or where the process keeps its own; neither is taken for what it is not, and the context
is not given up. -/
structure Activated (stage : Nat → Stage) (deed : Nat → Deed) (track : Nat → Track) (n : Nat)
    (bytecode : Array UInt8) (context process : Nat → Value) : Prop where
  starts : (stage 0).At (context 0) 0
  context_moved : ∀ k < n, track k (context k) (context (k + 1))
  process_moved : ∀ k < n, track k (process k) (process (k + 1))
  loaded : ∃ bytes, (stage 0).heap.Spells bytes bytecode
  code : ∀ k ≤ n, ∀ m, stage k = .running m → m.context = context k →
    m.code = bytecode ∧ m.process = process k
  stores : ∀ k < n, ∀ i, i = Slot.Context.pc ∨ Slot.Context.registers ≤ i →
    ¬(deed k).Stores ⟨context (k + 1), i⟩
  saves : ∀ k < n, ∀ i, i = Slot.Process.context ∨ i = Slot.Process.accumulator →
    ¬(deed k).Stores ⟨process (k + 1), i⟩
  apart : ∀ k < n, ¬(stage k).RunsFor (context k) ∧ ¬(stage k).WorksIn (deed k) (process (k + 1))
  carries_on : ∀ k < n, (stage k).Runs (context k) → ¬Stage.GivesUp (deed k) (stage (k + 1))

/-- The positions of an activation. Where it does not execute an instruction it stays where it is,
unless it is marked as returned. -/
structure Positions (stage : Nat → Stage) (deed : Nat → Deed) (n : Nat) (code : List Instruction)
    (context : Nat → Value) (pc : Nat → Nat) : Prop where
  start : pc 0 = 0
  stands : ∀ k ≤ n, (stage k).At (context k) (pc k) ∧ Boundary code (pc k)
  moves : ∀ k < n, pc (k + 1) = 0 ∨
    (pc (k + 1) = pc k ∧ ∀ m i m₁, stage k = .running m → m.context = context k →
      deed k ≠ .execute i m₁) ∨
    ∃ m i m₁, stage k = .running m ∧ m.context = context k ∧ deed k = .execute i m₁ ∧
      (pc k, i) ∈ positioned 0 code ∧ i.LeadsTo (pc k) (pc (k + 1))

theorem Positions.strides {stage : Nat → Stage} {deed : Nat → Deed} {n : Nat}
    {code : List Instruction} {context : Nat → Value} {pc : Nat → Nat}
    (h : Positions stage deed n code context pc) : Strides code pc n where
  start := h.start
  moves k hk := by
    rcases h.moves k hk with hzero | ⟨hsame, -⟩ | ⟨_, i, _, -, -, -, hmem, hleads⟩
    · exact .inr (.inl hzero)
    · exact .inl hsame
    · exact .inr (.inr ⟨i, hmem, hleads⟩)

section Histories

variable {stage : Nat → Stage} {deed : Nat → Deed} {track : Nat → Track} {n : Nat}
  {code : List Instruction} {context process : Nat → Value}

theorem Activated.moves (activated : Activated stage deed track n (encodeAll code).toArray context
    process) (history : History stage deed track n) (hbranches : Branches code) {k p : Nat}
    (hk : k < n) (hat : (stage k).At (context k) p) (hp : Boundary code p) :
    ∃ p', (stage (k + 1)).At (context (k + 1)) p' ∧ Boundary code p' ∧ (p' = 0 ∨
      (p' = p ∧ ∀ m i m₁, stage k = .running m → m.context = context k → deed k ≠ .execute i m₁) ∨
      ∃ m i m₁, stage k = .running m ∧ m.context = context k ∧ deed k = .execute i m₁ ∧
        (p, i) ∈ positioned 0 code ∧ i.LeadsTo p p') := by
  have hs := history.sound_at hk.le
  have hstep := history.step k hk
  have hv := activated.context_moved k hk
  have hstores := activated.stores k hk _ (.inl rfl)
  have happart := (activated.apart k hk).1
  have hzero : Boundary code (0 : Nat) := ⟨[], code, rfl, rfl⟩
  have hsmall : codeLength code < 0x1000000000000000 := by
    obtain ⟨bytes, hspells⟩ := activated.loaded
    have := hspells.size_lt
    simp only [List.size_toArray, length_encodeAll] at this
    omega
  have hbound := hp.le_codeLength
  by_cases hruns : (stage k).Runs (context k)
  swap
  · -- The context takes no part.
    have hquiet : ∀ m i m₁, stage k = .running m → m.context = context k →
        deed k ≠ .execute i m₁ := fun m i m₁ hm hcontext => by
      rw [hm] at hruns
      exact absurd hcontext hruns
    rcases hstep.at_of_idle hs hv hruns hat (by omega) hstores happart with hsame | hended
    · exact ⟨p, hsame, hp, .inr (.inl ⟨rfl, hquiet⟩)⟩
    · exact ⟨0, hended, hzero, .inl rfl⟩
  have hgoes := activated.carries_on k hk hruns
  cases hm : stage k with
  | idle w => simp [hm, Stage.Runs] at hruns
  | failed w => simp [hm, Stage.Runs] at hruns
  | running m =>
    rw [hm] at hs hstep hruns hat happart
    have hcontext : m.context = context k := hruns
    obtain rfl := hat.pc_eq hcontext
    obtain ⟨hcode, -⟩ := activated.code k hk.le m hm hcontext
    rw [← hcontext] at hv happart
    obtain ⟨p', hat', hmoves⟩ := hstep.at_of_runs hs hv hcode hbranches hsmall hp hstores
      (fun h => happart h.symm) hgoes
    rcases hmoves with rfl | ⟨rfl, hquiet⟩ | ⟨i, m₁, hd, hmem, hleads⟩
    · exact ⟨0, hat', hzero, .inl rfl⟩
    · exact ⟨m.pc, hat', hp, .inr (.inl ⟨rfl, fun _ i m₁ _ _ => hquiet i m₁⟩)⟩
    · exact ⟨p', hat', hleads.boundary hbranches hmem,
        .inr (.inr ⟨m, i, m₁, rfl, hcontext, hd, hmem, hleads⟩)⟩

theorem Activated.exists_positions (activated : Activated stage deed track n
    (encodeAll code).toArray context process) (history : History stage deed track n)
    (hbranches : Branches code) : ∃ pc, Positions stage deed n code context pc := by
  have hreached : ∀ k ≤ n, ∃ pc, Positions stage deed k code context pc := by
    intro k
    induction k with
    | zero =>
      intro _
      refine ⟨fun _ => 0, rfl, fun k hk => ?_, nofun⟩
      obtain rfl := Nat.le_zero.mp hk
      exact ⟨activated.starts, [], code, rfl, rfl⟩
    | succ k ih =>
      intro hk
      obtain ⟨pc, hpositions⟩ := ih (Nat.le_of_succ_le hk)
      obtain ⟨hat, hp⟩ := hpositions.stands k (Nat.le_refl _)
      obtain ⟨p', hat', hp', hmoves⟩ := activated.moves history hbranches hk hat hp
      refine ⟨fun j => if j ≤ k then pc j else p', by simpa using hpositions.start,
        fun j hj => ?_, fun j hj => ?_⟩
      · by_cases hjk : j ≤ k
        · simpa [hjk] using hpositions.stands j hjk
        · obtain rfl : j = k + 1 := by omega
          simpa using ⟨hat', hp'⟩
      · by_cases hjk : j < k
        · simpa [hjk.le, Nat.succ_le_of_lt hjk] using hpositions.moves j hjk
        · obtain rfl : j = k := by omega
          simpa using hmoves
  exact hreached n (Nat.le_refl _)

end Histories

end ObjectMachine
