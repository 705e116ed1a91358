import ObjectMachine.Proofs.Machine.Linking
import ObjectMachine.Proofs.Scheduling.Partition
import ObjectMachine.Proofs.Scheduling.Reading
import ObjectMachine.Proofs.Scheduling.Returning

namespace ObjectMachine

namespace Machine

variable {m m' : Machine}

/-- A new process is in a context in which the block runs. -/
theorem fork_opens {block name p : Value} (hm : Intact m) (hargs : ∀ v ∈ [block, name], Sane m v)
    (heq : fork block name m = .ok p m') : p = .nil ∨ ∃ context mine theirs,
      m.image.heap.Holds ⟨block, Slot.Block.parentHeapVars⟩ theirs ∧
      m'.image.heap.Holds ⟨p, Slot.Process.context⟩ context ∧
      m.image.heap.Opens m'.image.heap context mine theirs := by
  have hstable : Stable [block, name] (fork block name) := fork_stable (by simp) (by simp)
  have hend := hstable m hm hargs
  rw [heq] at hend
  obtain ⟨isBlock, -, hgo⟩ := query_bind_eq_ok.mp heq
  rcases ite_eq_ok.mp hgo with ⟨-, hgo⟩ | ⟨-, hgo⟩
  · exact .inl (pure_eq_ok.mp hgo).1.symm
  obtain ⟨made, m₁, hmake, hgo⟩ := bind_eq_ok.mp hgo
  obtain ⟨image, hnew, rfl⟩ := onImage_eq_ok hmake
  cases made with
  | none => exact .inl (pure_eq_ok.mp hgo).1.symm
  | some context =>
    obtain ⟨mine, theirs, htheirs, ho⟩ := Image.blockContext?_opens (intact_image hm)
      (hargs block (by simp)) (by simp) (Arenas.sane_nil _) hnew
    obtain ⟨image', schedule, hspawn, rfl⟩ := onSchedule_eq_ok hgo
    have hmade : Stable [block] (Image.blockContext? block [] .nil) :=
      Image.blockContext?_stable (by simp) (List.forall_mem_nil _) (by simp)
    have hblock : Sane m.image block := hargs block (by simp)
    have hsettled := hmade m.image (intact_image hm) (by simpa using hblock)
    rw [hnew] at hsettled
    obtain ⟨hi, hgrows, -⟩ := hsettled
    have htail : Sane m m.schedule.runnable.tail :=
      schedule_sane hm _ (by simp [Schedule.roots])
    obtain ⟨-, hspares, -, hp⟩ := Schedule.spawn_shows hi.whole.sound (hgrows.sane htail) hspawn
    -- The process at the end of the queue is older than the context.
    have hne : context ∉ [m.schedule.runnable.tail] := by
      rw [List.mem_singleton]
      rintro rfl
      exact ho.fresh htail
    have hkept : ∀ {k x}, image.heap.Holds ⟨context, k⟩ x → image'.heap.Holds ⟨context, k⟩ x := by
      intro k x hx
      obtain ⟨slots, hshows, hslot⟩ := hx.shows hi.whole
      exact (hspares.shows hne hshows).holds hend.1.whole hslot
    exact .inr ⟨context, mine, theirs, htheirs, hp.holds hend.1.whole rfl, ho.fresh, hkept ho.own,
      ho.apart, hkept ho.parent⟩

def read? : Instruction → Option (Nat × UInt8)
  | .loadOwn slot => some (Slot.Context.heapVars, slot)
  | .loadParent slot => some (Slot.Context.parentHeapVars, slot)
  | _ => none

theorem execute_read {i : Instruction} {which : Nat} {slot : UInt8} {vars x : Value}
    (hi : read? i = some (which, slot)) (hvars : m.image.heap.slot m.context which = .ok vars)
    (hx : m.image.heap.slot vars slot.toNat = .ok x) :
    execute i m = .ok () { m with accumulator := x } := by
  have hread : heapVars which m = .ok vars m := query_of_eq_ok hvars
  have hload : Machine.slot vars slot.toNat m = .ok x m := query_of_eq_ok hx
  cases i
  case loadOwn | loadParent =>
    cases hi
    exact bind_eq_ok.mpr ⟨_, m, hread, bind_eq_ok.mpr ⟨_, m, hload, rfl⟩⟩
  all_goals cases hi

end Machine

namespace Stage

variable {s s' : Stage} {d : Deed} {t : Track}

def Lists (s : Stage) : Deed → Value → Prop
  | .execute _ m, v => m.schedule.Lists m.image.heap v
  | _, v => s.schedule.Lists s.heap v

def WorksIn (s : Stage) : Deed → Value → Prop
  | .execute i m, v => m.context = v ∨ m.Ends i v
  | _, v => s.Runs v

/-- A step neither stores into a cell nor takes its object for a process, nor for a context if the
cell is one that contexts are written to in. -/
structure Passes (s : Stage) (d : Deed) (c : Cell) : Prop where
  stores : ¬d.Stores c
  process : ¬s.Lists d c.object
  context : c.index = Slot.Context.pc ∨ Slot.Context.registers ≤ c.index → ¬s.WorksIn d c.object

theorem Step.process_eq {m m₁ : Machine} {i : Instruction} (hs : (running m).Sound)
    (hstep : (running m).Step (.execute i m₁) t s') : m₁.process = m₁.schedule.current := by
  obtain ⟨m₀, -, hcarried⟩ := hstep.carried hs
  exact hcarried.process

theorem Step.not_writes {c : Cell} (hs : s.Sound) (hstep : s.Step d t s') (hp : s.Passes d c)
    (x : Value) : ¬s.Writes d c x := by
  intro hwrites
  cases hwrites with
  | outside h => exact hp.stores h
  | spawn => exact hp.process .lastRunnable
  | dispatch => exact hp.process (.runnable .head)
  | pause h =>
    have hprocess := hstep.process_eq hs
    cases h with
    | position => exact hp.context (.inl rfl) (.inl rfl)
    | context | accumulator => exact hp.process (hprocess ▸ .current)
  | instruction h =>
    cases h with
    | position => exact hp.context (.inl rfl) (.inl rfl)
    | ended h => exact hp.context (.inl rfl) (.inr h)
    | register => exact hp.context (.inr (Nat.le_add_right _ _)) (.inl rfl)
    | stored h => exact hp.stores h
    | link _ h | state _ h => exact hp.process h
  | spill h =>
    cases h with
    | position => exact hp.context (.inl rfl) rfl
    | context | accumulator => exact hp.process (hs.2 ▸ .current)
  | settle h =>
    cases h with
    | own => exact hp.process .current
    | runnable => exact hp.process .lastRunnable
    | waiting => exact hp.process .lastWaiting
  | abort => exact hp.process .current

theorem Step.execute_inv {m₁ m' : Machine} {i : Instruction} (hs : s.Sound)
    (hstep : s.Step (.execute i m₁) t (.running m')) : ∃ m m₀, s = .running m ∧
      m₀.Pause i m₁ ∧ Intact m₁ ∧ Machine.execute i m₀ = .ok () m' := by
  cases hstep with
  | execute hstop hf hp heq =>
    have hm₀ := hf.intact hs.1
    have hstop₀ := hstop
    obtain ⟨_, _, _, _, rfl⟩ := hf.eq
    have hfault : ∀ f m₂, Machine.execute i _ ≠ .error (.fault f) m₂ := fun f m₂ hfaulty =>
      nomatch hfaulty.symm.trans heq
    exact ⟨_, _, rfl, hp.pause, (hp.pause.leaves hm₀ hstop₀ hfault).1, heq⟩

/-- Cells that the registers are not written back to have what they had when the machine paused. -/
theorem Step.paused_holds {m m₁ : Machine} {i : Instruction} {v x y : Value} {k : Nat}
    (hs : (running m).Sound) (hstep : (running m).Step (.execute i m₁) t s') (hv : t v x)
    (hy : m.image.heap.Holds ⟨v, k⟩ y) (hspilled : ∀ z, ¬m₁.Spilled ⟨x, k⟩ z) :
    ∃ z, m₁.image.heap.Holds ⟨x, k⟩ z ∧ t y z := by
  obtain ⟨m₀, hf, hcarried⟩ := hstep.carried hs
  obtain ⟨_, _, _, _, rfl⟩ := hf.eq
  exact hcarried.follows.kept hv hy hspilled

/-- Reading a heap variable takes no pause, and changes nothing but the accumulator. -/
theorem Step.reads {m m₁ : Machine} {i : Instruction} {which : Nat} {slot : UInt8} {vars x : Value}
    (hstep : (running m).Step (.execute i m₁) t s') (hi : Machine.read? i = some (which, slot))
    (hvars : m.image.heap.Holds ⟨m.context, which⟩ vars)
    (hx : m.image.heap.Holds ⟨vars, slot.toNat⟩ x) :
    t = Eq ∧ ∃ m', s' = .running m' ∧ m'.accumulator = x ∧ m'.image.heap = m.image.heap := by
  have hread : ∀ {m₀}, m.Fetches i m₀ → Machine.execute i m₀ = .ok () { m₀ with accumulator := x } ∧
      m₀.image.heap = m.image.heap := by
    intro m₀ hf
    obtain ⟨_, _, _, _, rfl⟩ := hf.eq
    exact ⟨Machine.execute_read hi hvars.slot hx.slot, rfl⟩
  have hpauses : ∀ m₀ : Machine, ¬m₀.Pauses i := by
    intro m₀
    cases i <;> cases hi <;> simp [Machine.Pauses, Machine.call?]
  cases hstep with
  | execute hstop hf hp heq =>
    obtain ⟨heq', hheap⟩ := hread hf
    cases hp with
    | pausing h => exact absurd h (hpauses _)
    | straight _ =>
      cases heq'.symm.trans heq
      exact ⟨rfl, _, rfl, rfl, hheap⟩
  | fail hstop hf hp heq => cases (hread hf).1.symm.trans heq

/-- So does an assignment, but for the cell of the variable. -/
theorem Step.assigns {m m₁ : Machine} {i : Instruction} {which : Nat} {slot : UInt8}
    {vars y : Value} (hs : (running m).Sound) (hstep : (running m).Step (.execute i m₁) t s')
    (hi : i.assigned? = some (which, slot)) (hvars : m.image.heap.Holds ⟨m.context, which⟩ vars)
    (hy : m.image.heap.Holds ⟨vars, slot.toNat⟩ y) :
    t = Eq ∧ m.image.heap.Rewrites s'.heap ⟨vars, slot.toNat⟩ m.accumulator := by
  have hassign : ∀ {m₀}, m.Fetches i m₀ → ∃ m', Machine.execute i m₀ = .ok () m' ∧
      m.image.heap.Rewrites m'.image.heap ⟨vars, slot.toNat⟩ m.accumulator := by
    intro m₀ hf
    have hm₀ := hf.intact hs.1
    obtain ⟨_, _, _, _, rfl⟩ := hf.eq
    exact Machine.execute_assigned hm₀ hi hvars.slot hy.slot
  have hpauses : ∀ m₀ : Machine, ¬m₀.Pauses i := by
    intro m₀
    cases i <;> cases hi <;> simp [Machine.Pauses, Machine.call?]
  cases hstep with
  | execute hstop hf hp heq =>
    obtain ⟨m', heq', hrewrites⟩ := hassign hf
    cases hp with
    | pausing h => exact absurd h (hpauses _)
    | straight _ =>
      cases heq'.symm.trans heq
      exact ⟨rfl, hrewrites⟩
  | fail hstop hf hp heq =>
    obtain ⟨m', heq', -⟩ := hassign hf
    cases heq'.symm.trans heq

end Stage

/-- How an object is tied to the heap variables of an activation: it is the context of the
activation, a block that was copied in it, or a context in which such a block runs. -/
inductive Tie where
  | activation
  | block
  | call
  deriving DecidableEq

namespace Tie

def field : Tie → Nat
  | .activation => Slot.Context.heapVars
  | .block => Slot.Block.parentHeapVars
  | .call => Slot.Context.parentHeapVars

/-- How a context that is tied reads a heap variable. -/
def Reads (slot : UInt8) : Tie → Instruction → Prop
  | .activation, i => i = .loadOwn slot
  | .block, _ => False
  | .call, i => i = .loadParent slot

/-- How a context that is tied assigns to a heap variable. -/
def Assigns (slot : UInt8) : Tie → Instruction → Prop
  | .activation, i => i = .storeOwn slot
  | .block, _ => False
  | .call, i => i = .storeParent slot

variable {tie : Tie} {slot : UInt8} {i : Instruction}

theorem Reads.read? (h : tie.Reads slot i) : Machine.read? i = some (tie.field, slot) := by
  cases tie with
  | activation | call => exact h ▸ rfl
  | block => exact h.elim

theorem Assigns.assigned? (h : tie.Assigns slot i) : i.assigned? = some (tie.field, slot) := by
  cases tie with
  | activation | call => exact h ▸ rfl
  | block => exact h.elim

end Tie

/-- The objects that are tied to the heap variables of an activation, some steps later. -/
inductive Tied (stage : Nat → Stage) (deed : Nat → Deed) (track : Nat → Track) (start : Nat)
    (context : Value) : Nat → Tie → Value → Prop where
  | self : Tied stage deed track start context 0 .activation context
  | moved {d : Nat} {tie : Tie} {v x : Value} : Tied stage deed track start context d tie v →
    track (start + d) v x → Tied stage deed track start context (d + 1) tie x
  | copied {d : Nat} {m m₁ m' : Machine} {index : UInt8} :
    Tied stage deed track start context d .activation m.context → stage (start + d) = .running m →
    deed (start + d) = .execute (.copyBlock index) m₁ → stage (start + d + 1) = .running m' →
    Tied stage deed track start context (d + 1) .block m'.accumulator
  | invoked {d : Nat} {b b' : Value} {i : Instruction} {m₁ m' : Machine} {args : List Value} :
    Tied stage deed track start context d .block b → track (start + d) b b' →
    deed (start + d) = .execute i m₁ → m₁.Calls i .blockInvoke (b' :: args) →
    stage (start + d + 1) = .running m' → m'.context ≠ m₁.context →
    Tied stage deed track start context (d + 1) .call m'.context
  | forked {d : Nat} {b b' name c : Value} {i : Instruction} {m₁ m' : Machine} :
    Tied stage deed track start context d .block b → track (start + d) b b' →
    deed (start + d) = .execute i m₁ → m₁.Calls i .processFork [b', name] →
    stage (start + d + 1) = .running m' →
    m'.image.heap.slot m'.accumulator Slot.Process.context = .ok c →
    Tied stage deed track start context (d + 1) .call c

/-- An activation from some step on. The program neither stores into what ties objects to its heap
variables nor takes these objects, or the heap variables, for anything that they are not. -/
structure Sheltered (stage : Nat → Stage) (deed : Nat → Deed) (track : Nat → Track) (n start : Nat)
    (context vars : Value) : Prop where
  holds : (stage start).heap.Holds ⟨context, Slot.Context.heapVars⟩ vars
  ties : ∀ {d tie v x}, start + d < n → Tied stage deed track start context d tie v →
    track (start + d) v x → (stage (start + d)).Passes (deed (start + d)) ⟨x, tie.field⟩
  array : ∀ {d x}, start + d < n → Track.along track start (d + 1) vars x →
    ¬(stage (start + d)).Lists (deed (start + d)) x ∧
      ¬(stage (start + d)).WorksIn (deed (start + d)) x

section Following

variable {stage : Nat → Stage} {deed : Nat → Deed} {track : Nat → Track} {n start d : Nat}
  {context vars : Value} {tie : Tie} {v : Value}

/-- A block that is run, by a call or in a new process. -/
theorem History.called (history : History stage deed track n) {k : Nat} (hk : k < n)
    {b b' y : Value} {i : Instruction} {m₁ m' : Machine} (hb : track k b b')
    (hy : (stage k).heap.Holds ⟨b, Slot.Block.parentHeapVars⟩ y)
    (hdeed : deed k = .execute i m₁) (hstage : stage (k + 1) = .running m') :
    ∃ z m₀, track k y z ∧ m₁.image.heap.Holds ⟨b', Slot.Block.parentHeapVars⟩ z ∧
      m₀.Pause i m₁ ∧ Intact m₁ ∧ Machine.execute i m₀ = .ok () m' := by
  have hs := history.sound_at hk.le
  have hstep := history.step k hk
  rw [hdeed, hstage] at hstep
  obtain ⟨m, m₀, hm, hp, hm₁, heq⟩ := hstep.execute_inv hs
  rw [hm] at hs hy hstep
  obtain ⟨z, hz, htz⟩ := hstep.paused_holds hs hb hy fun z hspilled => by
    generalize hc : (⟨b', Slot.Block.parentHeapVars⟩ : Cell) = c at hspilled
    cases hspilled <;> simp at hc
  exact ⟨z, m₀, htz, hz, hp, hm₁, heq⟩

/-- All objects that are tied to the heap variables lead to the same ones. -/
theorem History.tied_holds (history : History stage deed track n)
    (sheltered : Sheltered stage deed track n start context vars) (hd : start + d ≤ n)
    (h : Tied stage deed track start context d tie v) :
    ∃ y, Track.along track start d vars y ∧ (stage (start + d)).heap.Holds ⟨v, tie.field⟩ y := by
  induction h with
  | self => exact ⟨vars, rfl, sheltered.holds⟩
  | @moved d tie v x h hx ih =>
    obtain ⟨y, hy, hholds⟩ := ih (by omega)
    have hs := history.sound_at (k := start + d) (by omega)
    obtain ⟨z, hz, htz⟩ := (history.follows_at hd).kept hx hholds
      ((history.step _ hd).not_writes hs (sheltered.ties hd h hx))
    exact ⟨z, ⟨y, hy, htz⟩, hz⟩
  | @copied d m m₁ m' index h hstage hdeed hstage' ih =>
    obtain ⟨y, hy, hholds⟩ := ih (by omega)
    have hs := history.sound_at (k := start + d) (by omega)
    have hstep := history.step (start + d) hd
    rw [hdeed, hstage'] at hstep
    obtain ⟨m₂, m₀, hm, hp, hm₁, heq⟩ := hstep.execute_inv hs
    obtain rfl := Stage.running.inj (hstage.symm.trans hm)
    rw [hstage] at hs hholds hstep
    have hmoved := hstep.context_moved hs
    have hpasses := sheltered.ties hd h hmoved
    rw [hdeed] at hpasses
    obtain ⟨z, hz, htz⟩ := hstep.paused_holds hs hmoved hholds fun z hspilled => by
      generalize hc : (⟨m₁.context, Tie.field .activation⟩ : Cell) = c at hspilled
      cases hspilled with
      | position | context => simp [Tie.field] at hc
      | accumulator =>
        have hsame : m₁.context = m₁.process := congrArg Cell.object hc
        exact hpasses.process (by rw [hsame, hstep.process_eq hs]; exact .current)
    refine ⟨z, ⟨y, hy, htz⟩, ?_⟩
    rw [← Nat.add_assoc, hstage']
    exact Machine.copyBlock_links hp hm₁ hz heq
  | @invoked d b b' i m₁ m' args h hb hdeed hcalls hstage hcontext ih =>
    obtain ⟨y, hy, hholds⟩ := ih (by omega)
    obtain ⟨z, m₀, htz, hz, hp, hm₁, heq⟩ := history.called hd hb hholds hdeed hstage
    refine ⟨z, ⟨y, hy, htz⟩, ?_⟩
    rw [← Nat.add_assoc, hstage]
    rw [hp.execute_call hcalls] at heq
    obtain ⟨_, m₂, hrun, hdone⟩ := bind_eq_ok.mp heq
    obtain ⟨-, rfl⟩ := pure_eq_ok.mp hdone
    obtain ⟨_, m₃, hinvoke, hnil⟩ := bind_eq_ok.mp hrun
    obtain ⟨-, rfl⟩ := pure_eq_ok.mp hnil
    have hargs := hcalls.sane hm₁
    obtain ⟨mine, theirs, htheirs, ho⟩ := Machine.invokeBlock_opens hm₁ (hargs b' (by simp))
      (fun v hv => hargs v (by simp [hv])) hinvoke hcontext
    exact htheirs.unique hz ▸ ho.parent
  | @forked d b b' name c i m₁ m' h hb hdeed hcalls hstage hc ih =>
    obtain ⟨y, hy, hholds⟩ := ih (by omega)
    obtain ⟨z, m₀, htz, hz, hp, hm₁, heq⟩ := history.called hd hb hholds hdeed hstage
    refine ⟨z, ⟨y, hy, htz⟩, ?_⟩
    rw [← Nat.add_assoc, hstage]
    rw [hp.execute_call hcalls] at heq
    obtain ⟨p, m₂, hrun, hdone⟩ := bind_eq_ok.mp heq
    obtain rfl := modify_eq_ok.mp hdone
    rcases Machine.fork_opens hm₁ (hcalls.sane hm₁) hrun with
      rfl | ⟨c', mine, theirs, htheirs, hp, ho⟩
    · have hnil : m₂.image.heap.Holds ⟨.nil, Slot.Process.context⟩ c := ⟨Arenas.sane_nil _, hc⟩
      exact absurd rfl hnil.not_isNil
    · obtain rfl : c' = c := Except.ok.inj (hp.slot.symm.trans hc)
      exact htheirs.unique hz ▸ ho.parent

theorem Track.along_add {j e : Nat} {x z : Value} (h : Track.along track start (j + e) x z) :
    ∃ y, Track.along track start j x y ∧ Track.along track (start + j) e y z := by
  induction e generalizing z with
  | zero => exact ⟨z, h, rfl⟩
  | succ e ih =>
    obtain ⟨w, hw, hz⟩ := h
    obtain ⟨y, hy, hw⟩ := ih hw
    exact ⟨y, hy, w, hw, by rwa [Nat.add_assoc]⟩

theorem Track.along_trans {j e : Nat} {x y z : Value} (h : Track.along track start j x y)
    (h' : Track.along track (start + j) e y z) : Track.along track start (j + e) x z := by
  induction e generalizing z with
  | zero => exact h' ▸ h
  | succ e ih =>
    obtain ⟨w, hw, hz⟩ := h'
    exact ⟨w, ih hw, by rwa [Nat.add_assoc] at hz⟩

/-- A cell that no step writes to keeps its value, wherever both go. -/
theorem History.along_kept (history : History stage deed track n) {e i : Nat} {y y' x : Value}
    (he : start + e ≤ n) (hy : Track.along track start e y y')
    (hx : (stage start).heap.Holds ⟨y, i⟩ x)
    (hkept : ∀ q < e, ∀ z, Track.along track start (q + 1) y z → ∀ w,
      ¬(stage (start + q)).Writes (deed (start + q)) ⟨z, i⟩ w) :
    ∃ x', Track.along track start e x x' ∧ (stage (start + e)).heap.Holds ⟨y', i⟩ x' := by
  induction e generalizing y' with
  | zero => exact ⟨x, rfl, hy ▸ hx⟩
  | succ e ih =>
    obtain ⟨w, hw, hmoved⟩ := hy
    obtain ⟨x₁, hx₁, hholds⟩ := ih (by omega) hw fun q hq => hkept q (Nat.lt_succ_of_lt hq)
    obtain ⟨x₂, hx₂, hmoved'⟩ := (history.follows_at he).kept hmoved hholds
      (hkept e (Nat.lt_succ_self e) y' ⟨w, hw, hmoved⟩)
    exact ⟨x₂, ⟨x₁, hx₁, hmoved'⟩, hx₂⟩

/-- A cell that is passed by in all steps keeps its value, wherever both go. -/
theorem History.along_holds (history : History stage deed track n) {e i : Nat} {y y' x : Value}
    (he : start + e ≤ n) (hy : Track.along track start e y y')
    (hx : (stage start).heap.Holds ⟨y, i⟩ x)
    (hpasses : ∀ q < e, ∀ z, Track.along track start (q + 1) y z →
      (stage (start + q)).Passes (deed (start + q)) ⟨z, i⟩) :
    ∃ x', Track.along track start e x x' ∧ (stage (start + e)).heap.Holds ⟨y', i⟩ x' :=
  history.along_kept he hy hx fun q hq z hz =>
    (history.step (start + q) (by omega)).not_writes (history.sound_at (by omega))
      (hpasses q hq z hz)

/-- Bytes are the same, wherever they go. -/
theorem History.along_spells (history : History stage deed track n) {e : Nat} {y y' : Value}
    {content : Array UInt8} (he : start + e ≤ n) (hy : Track.along track start e y y')
    (hsane : (stage start).heap.arenas.Sane y) (hs : (stage start).heap.Spells y content)
    (hlegible : ∀ q < e, (stage (start + q)).Legible (deed (start + q)) (stage (start + q + 1))) :
    (stage (start + e)).heap.Spells y' content := by
  induction e generalizing y' with
  | zero => exact hy ▸ hs
  | succ e ih =>
    obtain ⟨w, hw, hmoved⟩ := hy
    have hspells := ih (by omega) hw fun q hq => hlegible q (Nat.lt_succ_of_lt hq)
    exact (history.step (start + e) he).spells (history.sound_at (by omega))
      (hlegible e (Nat.lt_succ_self e)) (history.along_sane (by omega) hsane hw) hmoved hspells

end Following

def Instruction.sends : Instruction → Bool
  | .send .. | .sendSuper .. | .binaryOp .. => true
  | _ => false

namespace Stage

/-- The memory that a step adds objects to. -/
def base (s : Stage) : Deed → Heap
  | .execute _ m => m.image.heap
  | _ => s.heap

/-- An activation begins: its context is made from outside, entered to run a method or a block, or
made for a new process. -/
inductive Begins : Stage → Deed → Stage → Value → Prop where
  | made {w w' : World} {stores : Cell → Prop} {code receiver previous parent c : Value}
    {args : List Value} {home : Option Value} :
    (∀ v ∈ code :: receiver :: previous :: parent :: args ++ home.toList, Sane w v) →
    Image.newContext code receiver args previous parent home w.image = .ok c w'.image →
    Begins (.idle w) (.outside stores) (.idle w') c
  | entered {m m₁ m' : Machine} {i : Instruction} :
    (i.sends ∨ ∃ b args, m₁.Calls i .blockInvoke (b :: args)) → m'.context ≠ m₁.context →
    Begins (.running m) (.execute i m₁) (.running m') m'.context
  | forked {m m₁ m' : Machine} {i : Instruction} {b name c : Value} :
    m₁.Calls i .processFork [b, name] →
    m'.image.heap.slot m'.accumulator Slot.Process.context = .ok c →
    Begins (.running m) (.execute i m₁) (.running m') c

variable {s s' : Stage} {d : Deed} {t : Track} {c : Value}

/-- An object that a step starts with is there when the step adds objects. -/
theorem Step.base_sane (hs : s.Sound) (hstep : s.Step d t s') (hb : s.Begins d s' c) {v x : Value}
    (hv : s.heap.arenas.Sane v) (hx : t v x) : (s.base d).arenas.Sane x := by
  cases hb with
  | made _ _ =>
    cases hstep
    exact hx ▸ hv
  | entered | forked =>
    obtain ⟨m₀, hf, hcarried⟩ := hstep.carried hs
    obtain ⟨_, _, _, _, rfl⟩ := hf.eq
    exact hcarried.follows.sane hv hx

/-- An activation begins with heap variables that there were not, if it has any. -/
theorem Step.opens (hs : s.Sound) (hstep : s.Step d t s') (hb : s.Begins d s' c) :
    ∃ mine theirs, (s.base d).Opens s'.heap c mine theirs := by
  cases hb with
  | @made w w' stores code receiver previous parent c args home hsane hnew =>
    have hw : Intact w := hs
    have hi : Intact w.image := World.image_intact hw
    obtain ⟨mine, ho⟩ := Image.newContext_opens hi (hsane _ (by simp)) (hsane _ (by simp))
      (fun v hv => hsane v (by simp [hv])) (hsane _ (by simp)) (hsane _ (by simp))
      (fun v hv => hsane v (by simp [Option.mem_def.mp hv])) hnew
    exact ⟨mine, parent, ho⟩
  | @entered m m₁ m' i hcalls hcontext =>
    obtain ⟨_, m₀, -, hp, hm₁, heq⟩ := hstep.execute_inv hs
    have hinvoked : ∀ {b args}, m₁.Calls i .blockInvoke (b :: args) →
        ∃ mine theirs, m₁.image.heap.Opens m'.image.heap m'.context mine theirs := by
      intro b args hcalls
      rw [hp.execute_call hcalls] at heq
      obtain ⟨_, m₂, hrun, hdone⟩ := bind_eq_ok.mp heq
      obtain ⟨-, rfl⟩ := pure_eq_ok.mp hdone
      obtain ⟨_, m₃, hinvoke, hnil⟩ := bind_eq_ok.mp hrun
      obtain ⟨-, rfl⟩ := pure_eq_ok.mp hnil
      have hargs := hcalls.sane hm₁
      obtain ⟨mine, theirs, -, ho⟩ := Machine.invokeBlock_opens hm₁ (hargs b (by simp))
        (fun v hv => hargs v (by simp [hv])) hinvoke hcontext
      exact ⟨mine, theirs, ho⟩
    rcases hcalls with hsends | ⟨b, args, hcalls⟩
    · cases Machine.execute_acts hp heq with
      | stays _ h => exact absurd (h Machine.InPlace) hcontext
      | jumps _ h =>
        have hplace : m₁.InPlace m' := Machine.Passive.of_jumped h
        exact absurd hplace hcontext
      | sends _ hsane hdispatch =>
        obtain ⟨mine, ho⟩ := Machine.dispatch_opens hm₁ (hsane hm₁) hdispatch
        exact ⟨mine, .nil, ho⟩
      | return_ hi => exact nomatch hi ▸ hsends
      | returnSelf hi => exact nomatch hi ▸ hsends
      | calls hcalls =>
        obtain ⟨_, _, hcall, -⟩ := hcalls
        cases i <;> simp [Instruction.sends, Machine.call?] at hsends hcall
    · exact hinvoked hcalls
  | @forked m m₁ m' i b name c hcalls hc =>
    obtain ⟨_, m₀, -, hp, hm₁, heq⟩ := hstep.execute_inv hs
    rw [hp.execute_call hcalls] at heq
    obtain ⟨p, m₂, hrun, hdone⟩ := bind_eq_ok.mp heq
    obtain rfl := modify_eq_ok.mp hdone
    rcases Machine.fork_opens hm₁ (hcalls.sane hm₁) hrun with rfl | ⟨c', mine, theirs, -, hp, ho⟩
    · have hnil : m₂.image.heap.Holds ⟨.nil, Slot.Process.context⟩ c := ⟨Arenas.sane_nil _, hc⟩
      exact absurd rfl hnil.not_isNil
    · obtain rfl : c' = c := Except.ok.inj (hp.slot.symm.trans hc)
      exact ⟨mine, theirs, ho⟩

end Stage

section Distinctness

variable {stage : Nat → Stage} {deed : Nat → Deed} {track : Nat → Track} {n : Nat}

theorem History.along_plain (history : History stage deed track n) {start d : Nat} {v x : Value}
    (hd : start + d ≤ n) (hv : v.address? = none) (hx : Track.along track start d v x) : x = v := by
  induction d generalizing x with
  | zero => exact hx.symm
  | succ d ih =>
    obtain ⟨w, hw, hx⟩ := hx
    obtain rfl := ih (by omega) hw
    exact (history.follows_at hd).eq_of_plain hv hx

/-- The heap variables of different activations are different. -/
theorem History.activations_apart (history : History stage deed track n) {j k e : Nat}
    {c₁ c₂ vars₁ vars₂ y₁ y₂ x : Value} {i : Nat} (hjk : j < k) (hn : k + 1 + e ≤ n)
    (h₁ : (stage (j + 1)).heap.Holds ⟨c₁, Slot.Context.heapVars⟩ vars₁)
    (hb₂ : (stage k).Begins (deed k) (stage (k + 1)) c₂)
    (h₂ : (stage (k + 1)).heap.Holds ⟨c₂, Slot.Context.heapVars⟩ vars₂)
    (hy₁ : Track.along track (j + 1) (k - j + e) vars₁ y₁)
    (hy₂ : Track.along track (k + 1) e vars₂ y₂)
    (hx : (stage (k + 1 + e)).heap.Holds ⟨y₂, i⟩ x) : y₁ ≠ y₂ := by
  rintro rfl
  obtain ⟨d, rfl⟩ : ∃ d, k = j + 1 + d := ⟨k - j - 1, by omega⟩
  rw [show j + 1 + d - j + e = (d + 1) + e by omega] at hy₁
  obtain ⟨z, hz, hy₁⟩ := Track.along_add hy₁
  obtain ⟨w, hw, hmoved⟩ := hz
  have hs := history.sound_at (k := j + 1 + d) (by omega)
  have hstep := history.step (j + 1 + d) (by omega)
  have hwhole := (history.sound_at (k := j + 1) (by omega)).whole
  have hsane₁ := h₁.value_sane hwhole
  have hsaneW := history.along_sane (by omega) hsane₁ hw
  have hbase := hstep.base_sane hs hb₂ hsaneW hmoved
  have hsaneZ := (history.follows_at (k := j + 1 + d) (by omega)).sane hsaneW hmoved
  have hsane₂ := h₂.value_sane (history.sound_at (k := j + 1 + d + 1) (by omega)).whole
  obtain ⟨mine, theirs, ho⟩ := hstep.opens hs hb₂
  obtain rfl := h₂.unique ho.own
  have hsame : z = vars₂ := history.along_injective hn hsaneZ hsane₂ hy₁ hy₂
  subst hsame
  rcases ho.apart with rfl | hnew
  · obtain rfl := history.along_plain hn rfl hy₂
    exact absurd rfl hx.not_isNil
  · exact hnew hbase

end Distinctness

end ObjectMachine
