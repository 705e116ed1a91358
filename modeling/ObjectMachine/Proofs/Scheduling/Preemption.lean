import ObjectMachine.Proofs.Machine.Framing
import ObjectMachine.Proofs.Scheduling.RoundRobin
import ObjectMachine.Proofs.Scheduling.Sharing

namespace ObjectMachine

/-- The instruction writes to none of the cells that the frame comes from. -/
def Deed.KeepsFrame : Deed → Prop
  | .execute i m => ∀ c x, m.Frames c → ¬m.Writes i c x
  | _ => True

namespace Stage

variable {s s' : Stage} {d : Deed} {t : Track} {m m' : Machine}

/-- If the machine runs, what it remembers of code is right. -/
def Recalls : Stage → Prop
  | .running m => m.Recalls
  | _ => True

/-- If the machine runs, its frame is that of its context. -/
def Framed : Stage → Prop
  | .running m => m.Framed
  | _ => True

theorem Step.taken_up (hs : s.Sound) (hstep : s.Step .dispatch t (.running m)) :
    m.Loaded ∧ m.Recalls ∧ t = Eq ∧ m.process = s.schedule.runnable.head ∧
      m.image.heap.slot m.process Slot.Process.context = .ok m.context ∧
      m.image.heap.slot m.process Slot.Process.accumulator = .ok m.accumulator ∧
      ∃ x, m.image.heap.slot m.context Slot.Context.pc = .ok x ∧ m.pc = x.toNat?.getD 0 := by
  have hsound := (hstep.sound_follows hs).1
  cases hstep with
  | @dispatch w w₁ p _ hdequeue hunspill =>
    obtain ⟨hf, hr⟩ := Machine.unspill_loaded hsound.1 (Machine.recalls_of_cache rfl rfl) hunspill
    obtain ⟨rfl, -⟩ := World.dequeue_rewrites hs hdequeue
    have hpc := Machine.unspill_pc hunspill
    obtain ⟨_, _, _, _, _, _, _, _, hcontext, haccumulator, -, -, rfl⟩ :=
      Machine.unspill_eq_ok hunspill
    exact ⟨hf, hr, rfl, rfl, hcontext, haccumulator, hpc⟩

/-- An instruction loads a frame, or the frame is the one that was in the registers. That one may
have been loaded in the pause before the instruction. -/
theorem Step.reloads {i : Instruction} {m₁ : Machine} (hs : (running m).Sound)
    (hstep : (running m).Step (.execute i m₁) t (.running m')) (hr : m.Recalls) :
    m'.Recalls ∧ (m'.Loaded ∨ Machine.Retains (m₁.Writes i) m₁ m' ∧
      (m₁.Loaded ∨ ∃ interrupts clock start pc, m₁ = { m with interrupts, clock, start, pc })) := by
  cases hstep with
  | @execute _ m₀ _ _ _ _ hstop hf hp heq =>
    have hm₀ := hf.intact hs.1
    obtain ⟨interrupts, clock, start, pc, rfl⟩ := hf.eq
    obtain ⟨hm₁, hleaves⟩ := hp.pause.leaves hm₀ hstop (by simp [heq])
    obtain ⟨hr₁, hpaused⟩ := hp.pause.reloads hm₀ hm₁ ⟨hr.epoch, hr.cache⟩
    obtain ⟨hr', hends⟩ := (Machine.execute_lands hp.pause heq).reloads (hleaves.ok heq) hr₁
    refine ⟨hr', hends.symm.imp_right fun hretains => ⟨hretains, ?_⟩⟩
    exact hpaused.symm.imp_right fun h => ⟨_, _, _, _, h⟩

/-- A machine that runs has a frame that is right, unless the program writes to where it comes
from. -/
theorem Step.framed (hs : s.Sound) (hstep : s.Step d t s') (hr : s.Recalls) :
    s'.Recalls ∧ (s.Framed → d.KeepsFrame → s'.Framed) := by
  cases hstep with
  | outside | interrupts | collect | spawn | fail | reject | leave | abort =>
    exact ⟨trivial, fun _ _ => trivial⟩
  | dispatch hdequeue hunspill =>
    obtain ⟨hl, hr', -⟩ := Step.taken_up hs (.dispatch hdequeue hunspill)
    exact ⟨hr', fun _ _ => hl.framed⟩
  | @execute m _ m₁ m' i _ hstop hf hp heq =>
    obtain ⟨hr', hends⟩ := Step.reloads hs (.execute hstop hf hp heq) hr
    refine ⟨hr', fun h hkeeps => ?_⟩
    rcases hends with hl' | ⟨hretains, hl₁ | ⟨_, _, _, _, rfl⟩⟩
    · exact hl'.framed
    · exact hretains.framed hl₁.framed hkeeps
    · exact hretains.framed ⟨h.method, h.literals, h.code⟩ hkeeps

/-- A process that is preempted. Its registers are in memory, and all else that it goes on from is
as it was, unless its context is taken for a process. -/
theorem Step.preempted (hs : (running m).Sound)
    (hstep : (running m).Step (.leave .preempted) t s') (hstop : m.stop = none)
    (hprocess : m.context ≠ m.process) (htail : m.context ≠ m.schedule.runnable.tail) :
    t = Eq ∧ s'.heap.Holds ⟨m.context, Slot.Context.pc⟩ (.ofNat m.pc) ∧
      s'.heap.Holds ⟨m.process, Slot.Process.context⟩ m.context ∧
      s'.heap.Holds ⟨m.process, Slot.Process.accumulator⟩ m.accumulator ∧
      ∀ c x, m.Frames c → m.image.heap.Holds c x → s'.heap.Holds c x := by
  cases hstep with
  | @leave _ m₂ _ p w hquits hsettle =>
    cases hquits with
    | asked hasked => exact nomatch hstop.symm.trans hasked
    | @preempted timer m₁ _ _ htick hpending hspill =>
      obtain ⟨interrupts, clock, rfl⟩ := Machine.tick_eq_ok htick
      have hm₁ : Intact { m with clock, interrupts := interrupts.poll.2 } :=
        ⟨hs.1.whole, hs.1.held⟩
      have hspills := Machine.spills_of_eq_ok hm₁ hspill
      have hw₂ : Intact m₂.toWorld := Machine.intact_world hspills.intact
      have hschedule : m₂.schedule = m.schedule := hspills.schedule
      -- Beside the registers only a link is written.
      let W : Licence := fun c _ => c = ⟨m.schedule.runnable.tail, Slot.Process.link⟩
      have hgrown : Grown W (fun _ => False) m₂.toWorld.image.heap m₂.toWorld := hw₂.grown
      have hrequeued := (World.requeue_leaves hgrown (by rw [hschedule])).ok hsettle
      have hlater : ∀ {c x}, m₂.image.heap.Holds c x →
          c ≠ ⟨m.schedule.runnable.tail, Slot.Process.link⟩ → w.image.heap.Holds c x :=
        fun hx hne => hrequeued.evolves.holds hx fun y hy => absurd hy hne
      refine ⟨rfl, hlater (hspills.position hprocess) (by simp), hlater hspills.context (by simp),
        hlater hspills.accumulator (by simp), fun c x hc hx => ?_⟩
      refine hlater (hspills.evolves.holds hx fun y hy => ?_) ?_
      · cases hc <;> generalize hcell : (⟨_, _⟩ : Cell) = c at hy <;> cases hy <;> simp at hcell
      · cases hc <;> simp [htail]

end Stage

inductive Machine.Saves (m : Machine) : Cell → Prop where
  | position : m.Saves ⟨m.context, Slot.Context.pc⟩
  | context : m.Saves ⟨m.process, Slot.Process.context⟩
  | accumulator : m.Saves ⟨m.process, Slot.Process.accumulator⟩
  | frame {c : Cell} : m.Frames c → m.Saves c

/-- A process is preempted, and after some steps it is taken up again. Nothing is written meanwhile
to the cells that it goes on from, and its context is not taken for a process. -/
structure Suspended (stage : Nat → Stage) (deed : Nat → Deed) (track : Nat → Track) (k d : Nat)
    (m m' : Machine) : Prop where
  running : stage k = .running m
  going : m.stop = none
  preempted : deed k = .leave .preempted
  dispatched : deed (k + 1 + d) = .dispatch
  resumed : stage (k + 1 + d + 1) = .running m'
  process : Track.along track (k + 1) (d + 1) m.process m'.process
  apart : m.context ≠ m.process ∧ m.context ≠ m.schedule.runnable.tail
  undisturbed : ∀ q < d, ∀ c, m.Saves c → ∀ x, Track.along track (k + 1) (q + 1) c.object x →
    ∀ y, ¬(stage (k + 1 + q)).Writes (deed (k + 1 + q)) ⟨x, c.index⟩ y
  legible : ∀ q < d, (stage (k + 1 + q)).Legible (deed (k + 1 + q)) (stage (k + 1 + q + 1))

section Histories

variable {stage : Nat → Stage} {deed : Nat → Deed} {track : Nat → Track} {n a k d : Nat}
  {m m' : Machine}

/-- Since a process was taken up, the frame of whatever machine runs is that of its context, if no
instruction writes to where its frame comes from. -/
theorem History.framed (history : History stage deed track n) (ha : deed a = .dispatch)
    (hak : a < k) (hk : k ≤ n) : (stage k).Recalls ∧
      ((∀ l, a < l → l < k → (deed l).KeepsFrame) → (stage k).Framed) := by
  induction k, hak using Nat.le_induction with
  | base =>
    have hstep := history.step a hk
    have hs := history.sound_at (Nat.le_of_succ_le hk)
    rw [ha] at hstep
    cases hnext : stage (a + 1) with
    | idle w => exact ⟨trivial, fun _ => trivial⟩
    | failed w => exact ⟨trivial, fun _ => trivial⟩
    | running m =>
      rw [hnext] at hstep
      obtain ⟨hl, hr, -⟩ := hstep.taken_up hs
      exact ⟨hr, fun _ => hl.framed⟩
  | succ k hak ih =>
    obtain ⟨hr, hf⟩ := ih (Nat.le_of_succ_le hk)
    obtain ⟨hr', hf'⟩ :=
      (history.step k hk).framed (history.sound_at (Nat.le_of_succ_le hk)) hr
    exact ⟨hr', fun hkeeps => hf' (hf fun l hal hlk => hkeeps l hal (Nat.lt_succ_of_lt hlk))
      (hkeeps k hak (Nat.lt_succ_self k))⟩

section Suspending

variable (suspended : Suspended stage deed track k d m m') (history : History stage deed track n)
  (hn : k + 1 + (d + 1) ≤ n)
include suspended history hn

/-- What is in memory when the process has been put back. -/
theorem Suspended.left : track k = Eq ∧
    (stage (k + 1)).heap.Holds ⟨m.context, Slot.Context.pc⟩ (.ofNat m.pc) ∧
    (stage (k + 1)).heap.Holds ⟨m.process, Slot.Process.context⟩ m.context ∧
    (stage (k + 1)).heap.Holds ⟨m.process, Slot.Process.accumulator⟩ m.accumulator ∧
    ∀ c x, m.Frames c → m.image.heap.Holds c x → (stage (k + 1)).heap.Holds c x := by
  have hs := history.sound_at (k := k) (by omega)
  have hstep := history.step k (by omega)
  rw [suspended.running] at hs hstep
  rw [suspended.preempted] at hstep
  exact hstep.preempted hs suspended.going suspended.apart.1 suspended.apart.2

/-- How the process is taken up again. -/
theorem Suspended.taken_up : m'.Framed ∧ (stage (k + 1 + d)).schedule.runnable.head = m'.process ∧
    m'.image.heap.slot m'.process Slot.Process.context = .ok m'.context ∧
    m'.image.heap.slot m'.process Slot.Process.accumulator = .ok m'.accumulator ∧
    ∃ x, m'.image.heap.slot m'.context Slot.Context.pc = .ok x ∧ m'.pc = x.toNat?.getD 0 := by
  have hs := history.sound_at (k := k + 1 + d) (by omega)
  have hstep := history.step (k + 1 + d) hn
  rw [suspended.dispatched, suspended.resumed] at hstep
  obtain ⟨hl, -, -, hprocess, hslots⟩ := hstep.taken_up hs
  exact ⟨hl.framed, hprocess.symm, hslots⟩

/-- The context is still none that is taken for the process. -/
theorem Suspended.apart_later {v : Value} (hv : Track.along track (k + 1) (d + 1) m.context v) :
    v ≠ m'.process := by
  rintro rfl
  obtain ⟨-, -, hcontext, -, -⟩ := suspended.left history hn
  have whole := (history.sound_at (k := k + 1) (by omega)).whole
  exact suspended.apart.1 (history.along_injective hn
    (hcontext.value_sane whole) hcontext.sane hv suspended.process)

/-- What a process goes on from is carried along until it is taken up. -/
theorem Suspended.saved {c : Cell} {x v' : Value} (hc : m.Saves c)
    (hx : (stage (k + 1)).heap.Holds c x) (hv : Track.along track (k + 1) (d + 1) c.object v') :
    ∃ x', Track.along track (k + 1) (d + 1) x x' ∧ m'.image.heap.Holds ⟨v', c.index⟩ x' := by
  -- To take up a process is to write to its link.
  have hlast : ∀ z, Track.along track (k + 1) (d + 1) c.object z → ∀ y,
      ¬(stage (k + 1 + d)).Writes .dispatch ⟨z, c.index⟩ y := by
    intro z hz y hwrites
    obtain ⟨-, hhead, -⟩ := suspended.taken_up history hn
    generalize hcell : (⟨z, c.index⟩ : Cell) = target at hwrites
    generalize stage (k + 1 + d) = s at hwrites hhead
    cases hwrites with
    | dispatch =>
      obtain rfl : z = m'.process := (congrArg Cell.object hcell).trans hhead
      have hindex : c.index = Slot.Process.link := congrArg Cell.index hcell
      cases hc with
      | position | context | accumulator => cases hindex
      | frame hframe =>
        cases hframe with
        | literals | bytecode => cases hindex
        | method => exact suspended.apart_later history hn hz rfl
  have hkept := history.along_kept hn hv hx fun q hq z hz y => by
    rcases Nat.lt_succ_iff_lt_or_eq.mp hq with hq | rfl
    · exact suspended.undisturbed q hq c hc z hz y
    · rw [suspended.dispatched]
      exact hlast z hz y
  rw [show k + 1 + (d + 1) = k + 1 + d + 1 from rfl, suspended.resumed] at hkept
  exact hkept

theorem Suspended.spells {v x : Value} {content : Array UInt8}
    (hspells : m.image.heap.Spells v content) (hsane : Sane m v)
    (hx : Track.along track (k + 1) (d + 1) v x) : m'.image.heap.Spells x content := by
  have hs := history.sound_at (k := k) (by omega)
  have hstep := history.step k (by omega)
  have heq := (suspended.left history hn).1
  rw [suspended.running] at hs hstep
  rw [suspended.preempted] at hstep
  have hspells₁ := hstep.spells hs trivial hsane (heq ▸ rfl) hspells
  have hsane₁ := (hstep.sound_follows hs).2.sane hsane (heq ▸ rfl)
  have hlater := history.along_spells hn hx hsane₁ hspells₁
    fun q hq => by
      rcases Nat.lt_succ_iff_lt_or_eq.mp hq with hq | rfl
      · exact suspended.legible q hq
      · rw [suspended.dispatched]
        trivial
  rw [show k + 1 + (d + 1) = k + 1 + d + 1 from rfl, suspended.resumed] at hlater
  exact hlater

end Suspending

/-- A process that is preempted goes on where it stopped, with the same accumulator. A position that
fits a slot is the same, and any at which there is an instruction fits. If no instruction has
written to where the frame of the running machine comes from since some process was taken up, the
frame is the same as well, and so is the next instruction. -/
theorem History.suspended_resumes (history : History stage deed track n)
    (hn : k + 1 + (d + 1) ≤ n) (ha : deed a = .dispatch) (hak : a < k)
    (suspended : Suspended stage deed track k d m m') :
    Track.along track (k + 1) (d + 1) m.context m'.context ∧
      Track.along track (k + 1) (d + 1) m.accumulator m'.accumulator ∧
      (m.pc < 0x1000000000000000 → m'.pc = m.pc) ∧
      ((∀ l, a < l → l < k → (deed l).KeepsFrame) →
        (∀ bytes, m.image.heap.Holds ⟨m.method, Slot.Code.bytecode⟩ bytes → bytes.IsLeaf) →
        Track.along track (k + 1) (d + 1) m.method m'.method ∧
          Track.along track (k + 1) (d + 1) m.literals m'.literals ∧ m'.code = m.code ∧
          ∀ i next, Code.decodeAt m.code m.pc = .ok (i, next) →
            Code.decodeAt m'.code m'.pc = .ok (i, next)) := by
  obtain ⟨-, hpc, hcontext, haccumulator, hframes⟩ := suspended.left history hn
  obtain ⟨hf', -, hcontext', haccumulator', x, hx, hpc'⟩ := suspended.taken_up history hn
  obtain ⟨context, hmoved, hholds⟩ := suspended.saved history hn .context hcontext suspended.process
  obtain rfl := Except.ok.inj (hcontext'.symm.trans hholds.slot)
  obtain ⟨accumulator, hmoved', hholds'⟩ :=
    suspended.saved history hn .accumulator haccumulator suspended.process
  obtain rfl := Except.ok.inj (haccumulator'.symm.trans hholds'.slot)
  obtain ⟨y, hy, hholds⟩ := suspended.saved history hn .position hpc hmoved
  obtain rfl := Except.ok.inj (hx.symm.trans hholds.slot)
  obtain rfl := history.along_plain hn (Value.address?_ofNat _) hy
  have hposition : m.pc < 0x1000000000000000 → m'.pc = m.pc := fun hlt => by
    rw [hpc', Value.toNat?_ofNat hlt, Option.getD_some]
  refine ⟨hmoved, hmoved', hposition, fun hkeeps hleaf => ?_⟩
  have hf := (history.framed ha hak (by omega)).2 hkeeps
  have whole := (history.sound_at (k := k) (by omega)).whole
  rw [suspended.running] at hf whole
  have hframe : ∀ {c x v'}, m.Frames c → m.image.heap.Holds c x →
      Track.along track (k + 1) (d + 1) c.object v' →
      ∃ x', Track.along track (k + 1) (d + 1) x x' ∧ m'.image.heap.Holds ⟨v', c.index⟩ x' :=
    fun hc hx hv => suspended.saved history hn (.frame hc) (hframes _ _ hc hx) hv
  obtain ⟨method, hmethod, hholds⟩ := hframe .method hf.method hmoved
  obtain rfl := hf'.method.unique hholds
  obtain ⟨literals, hliterals, hholds⟩ := hframe .literals hf.literals hmethod
  obtain rfl := hf'.literals.unique hholds
  obtain ⟨bytes, hbytes, hspells⟩ := hf.code
  obtain ⟨bytes', hmovedBytes, hholds⟩ := hframe .bytecode hbytes hmethod
  have hcode := suspended.spells history hn (hspells (hleaf bytes hbytes))
    (hbytes.value_sane whole) hmovedBytes
  obtain ⟨bytes'', hbytes'', hspells'⟩ := hf'.code
  obtain rfl := hbytes''.unique hholds
  obtain hsame : m'.code = m.code := Except.ok.inj ((hspells' hcode.1).2.symm.trans hcode.2)
  refine ⟨hmethod, hliterals, hsame, fun i next hdecode => ?_⟩
  -- Where there is an instruction, the position is small.
  have hlt := Heap.Spells.size_lt (hspells (hleaf bytes hbytes))
  have hbound := Code.lt_size_of_decodeAt hdecode
  rw [hsame, hposition (by omega)]
  exact hdecode

end Histories

namespace Stage

variable {s s' : Stage} {t : Track} {outcome : RunOutcome}

def machine : Stage → Machine
  | .running m => m
  | _ => default

theorem Step.runs_before (hstep : s.Step (.leave outcome) t s') : s = .running s.machine := by
  cases hstep
  rfl

theorem Step.runs_after (hstep : s.Step .dispatch t s') : s' = .running s'.machine := by
  cases hstep
  rfl

theorem eq_running {s : Stage} (h : (match s with | .running _ => true | _ => false) = true) :
    s = .running s.machine := by
  cases s with
  | running m => rfl
  | _ => cases h

end Stage

section Interruptions

variable {code : List Instruction}

/-- A world in which there is a context that is about to execute some instructions. -/
def lone (code : List Instruction) : Stage := .idle (.furnished (Image.newActivation code 1))

/-- A process is made that executes the instructions, is preempted after them and taken up again. -/
def interruption (code : List Instruction) : List (Deed × Stage) :=
  ((lone code).scripted ([.spawn (Machine.blankImage.furnished (Image.newActivation code 1)).1,
    .dispatch] ++ List.replicate code.length .execute ++ [.leave, .dispatch])).getD []

def interruptedMachine (code : List Instruction) : Machine :=
  ((lone code).nth (interruption code) (code.length + 2)).machine

def resumedMachine (code : List Instruction) : Machine :=
  ((lone code).nth (interruption code) (code.length + 4)).machine

theorem interruption_history (hlength : (interruption code).length = code.length + 4) :
    History ((lone code).nth (interruption code)) (Deed.nth (interruption code)) (fun _ => Eq)
      (code.length + 4) := by
  obtain ⟨hw, hcontext⟩ := World.furnished_intact (Image.newActivation_stable code 1)
  have hs : (lone code).Sound := hw
  refine Stage.history_of_script hs hlength fun context hmem => ?_
  obtain rfl : context = _ := by simpa [List.mem_replicate] using hmem
  exact hcontext

structure Interruptible (code : List Instruction) : Prop where
  length : (interruption code).length = code.length + 4
  taken : (Deed.nth (interruption code) 1).move = .dispatch
  preempted : (Deed.nth (interruption code) (code.length + 2)).move = .leave .preempted
  dispatched : (Deed.nth (interruption code) (code.length + 3)).move = .dispatch
  going : (interruptedMachine code).stop = none
  process : (interruptedMachine code).process = (resumedMachine code).process
  apart : (interruptedMachine code).context ≠ (interruptedMachine code).process
  tail : (interruptedMachine code).context ≠ (interruptedMachine code).schedule.runnable.tail

theorem Interruptible.suspended (h : Interruptible code) :
    Suspended ((lone code).nth (interruption code)) (Deed.nth (interruption code)) (fun _ => Eq)
      (code.length + 2) 0 (interruptedMachine code) (resumedMachine code) := by
  have history := interruption_history h.length
  have hpreempted := Deed.move_eq_leave.mp h.preempted
  have hdispatched := Deed.move_eq_dispatch.mp h.dispatched
  have hleave := history.step (code.length + 2) (by omega)
  have hdispatch := history.step (code.length + 3) (by omega)
  rw [hpreempted] at hleave
  rw [hdispatched] at hdispatch
  exact ⟨hleave.runs_before, h.going, hpreempted, hdispatched, hdispatch.runs_after,
    ⟨_, rfl, h.process⟩, ⟨h.apart, h.tail⟩, nofun, nofun⟩

end Interruptions

theorem keepsFrame_of_loadNil {d : Deed} (h : d.move = .execute .loadNil) : d.KeepsFrame := by
  have hcalls : ∀ {m : Machine} {prim args}, ¬m.Calls .loadNil prim args := by
    rintro m prim args ⟨_, _, hcall, -⟩
    cases hcall
  cases d with
  | execute i m =>
    obtain rfl : i = .loadNil := Move.execute.inj h
    intro c x hc hwrites
    cases hwrites with
    | position =>
      generalize hcell : (⟨_, Slot.Context.pc⟩ : Cell) = c at hc
      cases hc <;> simp at hcell
    | ended h => cases h with | primitive h => exact hcalls h
    | register h => cases h
    | stored h => cases h with | primitive h => exact hcalls h
    | link h _ | state h _ =>
      obtain ⟨_, _, h, -⟩ := h
      exact hcalls h
  | _ => trivial

/-- A process that is preempted after its first instruction goes on with the second. -/
theorem suspended_resumes_after_load :
    (∀ l, 1 < l → l < 3 → (Deed.nth (interruption [.loadNil]) l).KeepsFrame) ∧
      (resumedMachine [.loadNil]).context = (interruptedMachine [.loadNil]).context ∧
      (resumedMachine [.loadNil]).method = (interruptedMachine [.loadNil]).method ∧
      (resumedMachine [.loadNil]).code = (interruptedMachine [.loadNil]).code ∧
      (resumedMachine [.loadNil]).pc = 1 := by
  have h : Interruptible [.loadNil] := by constructor <;> decide +kernel
  have hkeeps : ∀ l, 1 < l → l < 3 → (Deed.nth (interruption [.loadNil]) l).KeepsFrame := by
    intro l hl hl'
    obtain rfl : l = 2 := by omega
    exact keepsFrame_of_loadNil (by decide +kernel)
  obtain ⟨hpc, hbytes⟩ : (interruptedMachine [.loadNil]).pc = 1 ∧
      (interruptedMachine [.loadNil]).image.heap.slot (interruptedMachine [.loadNil]).method
        Slot.Code.bytecode = .ok (.ofAddress ⟨.leaf, 2⟩) := by decide +kernel
  obtain ⟨⟨_, rfl, hcontext⟩, -, hposition, hframe⟩ :=
    (interruption_history h.length).suspended_resumes (a := 1) (k := 3) (d := 0) le_rfl
      (Deed.move_eq_dispatch.mp h.taken) (by decide) h.suspended
  obtain ⟨⟨_, rfl, hmethod⟩, -, hcode, -⟩ := hframe hkeeps fun bytes hholds => by
    obtain rfl := Except.ok.inj (hholds.slot.symm.trans hbytes)
    exact ⟨2, by decide⟩
  exact ⟨hkeeps, hcontext.symm, hmethod.symm, hcode, (hposition (by omega)).trans hpc⟩

def relinking : List Instruction :=
  [.loadThisContext, .storeRegister 0, .loadInstVar Slot.Context.method.toUInt8, .storeRegister 0,
    .loadThisContext, .storeInstVar Slot.Code.literals.toUInt8]

/-- A process that is preempted after that goes on with other literals than it had. -/
theorem literals_replaced : ∃ stage deed m m', History stage deed (fun _ => Eq) 10 ∧
    deed 1 = .dispatch ∧ Suspended stage deed (fun _ => Eq) 8 0 m m' ∧
    (∃ bytes, m.image.heap.slot m.method Slot.Code.bytecode = .ok bytes ∧ bytes.IsLeaf) ∧
    m'.method = m.method ∧ m'.literals ≠ m.literals := by
  have h : Interruptible relinking := by constructor <;> decide +kernel
  obtain ⟨hbytes, hmethod, hliterals⟩ :
      (interruptedMachine relinking).image.heap.slot (interruptedMachine relinking).method
        Slot.Code.bytecode = .ok (.ofAddress ⟨.leaf, 2⟩) ∧
      (resumedMachine relinking).method = (interruptedMachine relinking).method ∧
      (resumedMachine relinking).literals ≠ (interruptedMachine relinking).literals := by
    decide +kernel
  exact ⟨_, _, _, _, interruption_history h.length, Deed.move_eq_dispatch.mp h.taken, h.suspended,
    ⟨_, hbytes, 2, by decide⟩, hmethod, hliterals⟩

end ObjectMachine
