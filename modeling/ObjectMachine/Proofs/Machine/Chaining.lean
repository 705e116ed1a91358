import ObjectMachine.Proofs.Machine.Simulation
import ObjectMachine.Proofs.Memory.Cells

namespace ObjectMachine

@[ext]
structure Copies where
  own : Value
  parent : Value
  agreed : Value
  deriving DecidableEq

namespace Copies

def settled (c : Copies) : Value := if c.own ≠ c.agreed then c.own else c.parent

def map (move : Value → Value) (c : Copies) : Copies := ⟨move c.own, move c.parent, move c.agreed⟩

end Copies

inductive Upkeep where
  | promote
  | sync
  | restore
  deriving DecidableEq

namespace Upkeep

def instruction (s : SyncedSlot) : Upkeep → Instruction
  | .promote => .promote s.own s.parent
  | .sync => .sync s.own s.parent s.reg
  | .restore => .restore s.parent s.own

def apply (c : Copies) : Upkeep → Copies
  | .promote => { c with own := c.parent }
  | .sync => ⟨c.settled, c.settled, c.settled⟩
  | .restore => { c with parent := c.own }

end Upkeep

/-- Where an assignment to a heap variable goes: the context's slot that has the variables, and the
number of the one assigned to. -/
def Instruction.assigned? : Instruction → Option (Nat × UInt8)
  | .storeOwn i => some (Slot.Context.heapVars, i)
  | .storeParent i => some (Slot.Context.parentHeapVars, i)
  | _ => none

/-- An activation of a block: its context, its heap variables and those of its parent. -/
structure Activation where
  context : Value
  mine : Value
  theirs : Value
  context_ne_mine : context ≠ mine
  context_ne_theirs : context ≠ theirs
  mine_ne_theirs : mine ≠ theirs

namespace Activation

def values (a : Activation) : List Value := [a.context, a.mine, a.theirs]

def ownCell (a : Activation) (s : SyncedSlot) : Cell := ⟨a.mine, s.own.toNat⟩

def parentCell (a : Activation) (s : SyncedSlot) : Cell := ⟨a.theirs, s.parent.toNat⟩

def agreedCell (a : Activation) (s : SyncedSlot) : Cell :=
  ⟨a.context, Slot.Context.registers + s.reg.toNat⟩

end Activation

structure Heap.Chains (h : Heap) (a : Activation) (s : SyncedSlot) (c : Copies) : Prop where
  mine : h.Holds ⟨a.context, Slot.Context.heapVars⟩ a.mine
  theirs : h.Holds ⟨a.context, Slot.Context.parentHeapVars⟩ a.theirs
  own : h.Holds (a.ownCell s) c.own
  parent : h.Holds (a.parentCell s) c.parent
  agreed : h.Holds (a.agreedCell s) c.agreed

namespace Heap

variable {h h' : Heap} {a : Activation} {s : SyncedSlot} {c c' : Copies} {x : Value}

theorem Chains.unique (hc : h.Chains a s c) (hc' : h.Chains a s c') : c = c' :=
  Copies.ext (hc.own.unique hc'.own) (hc.parent.unique hc'.parent) (hc.agreed.unique hc'.agreed)

/-- An activation that is read off the memory. -/
theorem Whole.chains (whole : h.Whole) (sane : h.arenas.Sane a.context)
    (hmine : h.slot a.context Slot.Context.heapVars = .ok a.mine)
    (htheirs : h.slot a.context Slot.Context.parentHeapVars = .ok a.theirs)
    (hown : h.slot a.mine s.own.toNat = .ok c.own)
    (hparent : h.slot a.theirs s.parent.toNat = .ok c.parent)
    (hagreed : h.slot a.context (Slot.Context.registers + s.reg.toNat) = .ok c.agreed) :
    h.Chains a s c :=
  ⟨⟨sane, hmine⟩, ⟨sane, htheirs⟩, ⟨whole.slot sane hmine, hown⟩,
    ⟨whole.slot sane htheirs, hparent⟩, ⟨sane, hagreed⟩⟩

/-- A write that misses the context where it refers to heap variables. -/
theorem Chains.rewrite {cell : Cell} (hc : h.Chains a s c) (hr : Rewrites h h' cell x)
    (hfield : ∀ i < Slot.Context.registers, cell ≠ ⟨a.context, i⟩) :
    h'.Chains a s ⟨if a.ownCell s = cell then x else c.own,
      if a.parentCell s = cell then x else c.parent,
      if a.agreedCell s = cell then x else c.agreed⟩ := by
  have hcell : ∀ {d y}, h.Holds d y → h'.Holds d (if d = cell then x else y) := by
    intro d y hd
    split
    · rename_i heq
      exact heq ▸ hr.written
    · rename_i hne
      exact hr.others hne hd
  exact ⟨hr.others (hfield _ (by decide)).symm hc.mine,
    hr.others (hfield _ (by decide)).symm hc.theirs, hcell hc.own, hcell hc.parent, hcell hc.agreed⟩

theorem Chains.setOwn (hc : h.Chains a s c) (hr : Rewrites h h' (a.ownCell s) x) :
    h'.Chains a s { c with own := x } := by
  have := hc.rewrite hr fun _ _ heq => a.context_ne_mine (congrArg Cell.object heq).symm
  rwa [if_pos rfl, if_neg fun heq => a.mine_ne_theirs (congrArg Cell.object heq).symm,
    if_neg fun heq => a.context_ne_mine (congrArg Cell.object heq)] at this

theorem Chains.setParent (hc : h.Chains a s c) (hr : Rewrites h h' (a.parentCell s) x) :
    h'.Chains a s { c with parent := x } := by
  have := hc.rewrite hr fun _ _ heq => a.context_ne_theirs (congrArg Cell.object heq).symm
  rwa [if_neg fun heq => a.mine_ne_theirs (congrArg Cell.object heq), if_pos rfl,
    if_neg fun heq => a.context_ne_theirs (congrArg Cell.object heq)] at this

theorem Chains.setAgreed (hc : h.Chains a s c) (hr : Rewrites h h' (a.agreedCell s) x) :
    h'.Chains a s { c with agreed := x } := by
  have := hc.rewrite hr fun i hi heq => by
    have : Slot.Context.registers + s.reg.toNat = i := congrArg Cell.index heq
    omega
  rwa [if_neg fun heq => a.context_ne_mine (congrArg Cell.object heq).symm,
    if_neg fun heq => a.context_ne_theirs (congrArg Cell.object heq).symm, if_pos rfl] at this

end Heap

namespace Machine

variable {m m' : Machine} {a : Activation} {s : SyncedSlot} {c : Copies}

/-- A write to a cell changes nothing else in the machine. -/
theorem setSlot_rewrites {v x y : Value} {i : Nat} (whole : m.image.heap.Whole)
    (hc : m.image.heap.Holds ⟨v, i⟩ y) (hx : m.image.heap.arenas.Sane x) :
    ∃ m', setSlot v i x m = .ok () m' ∧ m'.context = m.context ∧
      Heap.Rewrites m.image.heap m'.image.heap ⟨v, i⟩ x := by
  obtain ⟨heap, hset, hrewrites⟩ := hc.write whole hx
  exact ⟨_, setSlot_of_eq_ok hset, rfl, hrewrites⟩

theorem setRegister_rewrites {r : UInt8} {x y : Value} (whole : m.image.heap.Whole)
    (hc : m.image.heap.Holds ⟨m.context, Slot.Context.registers + r.toNat⟩ y)
    (hx : m.image.heap.arenas.Sane x) :
    ∃ m', setRegister r x m = .ok () m' ∧ m'.context = m.context ∧ Heap.Rewrites m.image.heap
      m'.image.heap ⟨m.context, Slot.Context.registers + r.toNat⟩ x := by
  rw [setRegister, get_bind]
  exact setSlot_rewrites whole hc hx

/-- A block on its way in, around a call, and on its way out. -/
theorem execute_upkeep (whole : m.image.heap.Whole) (hc : m.image.heap.Chains a s c)
    (hcontext : m.context = a.context) (u : Upkeep) :
    ∃ m', execute (u.instruction s) m = .ok () m' ∧ m'.image.heap.Chains a s (u.apply c) := by
  have hmine : slot m.context Slot.Context.heapVars m = .ok a.mine m :=
    query_of_eq_ok (hcontext ▸ hc.mine.slot)
  have htheirs : slot m.context Slot.Context.parentHeapVars m = .ok a.theirs m :=
    query_of_eq_ok (hcontext ▸ hc.theirs.slot)
  have hown : slot a.mine s.own.toNat m = .ok c.own m := query_of_eq_ok hc.own.slot
  have hparent : slot a.theirs s.parent.toNat m = .ok c.parent m := query_of_eq_ok hc.parent.slot
  have hagreed : register s.reg m = .ok c.agreed m := query_of_eq_ok (hcontext ▸ hc.agreed.slot)
  cases u with
  | promote =>
    obtain ⟨m', hset, -, hrewrites⟩ := setSlot_rewrites whole hc.own (hc.parent.value_sane whole)
    refine ⟨m', ?_, hc.setOwn hrewrites⟩
    refine bind_eq_ok.mpr ⟨_, m, htheirs, bind_eq_ok.mpr ⟨_, m, hparent, ?_⟩⟩
    exact bind_eq_ok.mpr ⟨_, m, hmine, hset⟩
  | restore =>
    obtain ⟨m', hset, -, hrewrites⟩ := setSlot_rewrites whole hc.parent (hc.own.value_sane whole)
    refine ⟨m', ?_, hc.setParent hrewrites⟩
    rw [Upkeep.instruction, execute, get_bind]
    refine bind_eq_ok.mpr ⟨_, m, hmine, bind_eq_ok.mpr ⟨_, m, hown, ?_⟩⟩
    exact bind_eq_ok.mpr ⟨_, m, htheirs, hset⟩
  | sync =>
    rw [Upkeep.apply, Copies.settled]
    by_cases hchanged : c.own ≠ c.agreed
    · rw [if_pos hchanged]
      have hsane := hc.own.value_sane whole
      obtain ⟨m₁, hset, hsame, hrewrites⟩ := setSlot_rewrites whole hc.parent hsane
      have hc₁ := hc.setParent hrewrites
      obtain ⟨m', hset', -, hrewrites'⟩ := setRegister_rewrites (r := s.reg) hrewrites.whole
        (by rw [hsame, hcontext]; exact hc₁.agreed) (hrewrites.grows _ hsane)
      rw [hsame, hcontext] at hrewrites'
      refine ⟨m', ?_, hc₁.setAgreed hrewrites'⟩
      refine bind_eq_ok.mpr ⟨_, m, hmine, bind_eq_ok.mpr ⟨_, m, htheirs, ?_⟩⟩
      refine bind_eq_ok.mpr ⟨_, m, hown, bind_eq_ok.mpr ⟨_, m, hagreed, ?_⟩⟩
      rw [if_pos hchanged]
      exact bind_eq_ok.mpr ⟨_, m₁, hset, hset'⟩
    · rw [if_neg hchanged]
      have hsane := hc.parent.value_sane whole
      obtain ⟨m₁, hset, hsame, hrewrites⟩ := setSlot_rewrites whole hc.own hsane
      have hc₁ := hc.setOwn hrewrites
      obtain ⟨m', hset', -, hrewrites'⟩ := setRegister_rewrites (r := s.reg) hrewrites.whole
        (by rw [hsame, hcontext]; exact hc₁.agreed) (hrewrites.grows _ hsane)
      rw [hsame, hcontext] at hrewrites'
      refine ⟨m', ?_, hc₁.setAgreed hrewrites'⟩
      refine bind_eq_ok.mpr ⟨_, m, hmine, bind_eq_ok.mpr ⟨_, m, htheirs, ?_⟩⟩
      refine bind_eq_ok.mpr ⟨_, m, hown, bind_eq_ok.mpr ⟨_, m, hagreed, ?_⟩⟩
      rw [if_neg hchanged]
      exact bind_eq_ok.mpr ⟨_, m, hparent, bind_eq_ok.mpr ⟨_, m₁, hset, hset'⟩⟩

theorem execute_of_step {i : Instruction} {next : Nat} (hstep : step .never m = .ok none m')
    (hdecode : Code.decodeAt m.code m.pc = .ok (i, next)) :
    execute i { m with clock := m.clock + 1, start := m.pc, pc := next } = .ok () m' := by
  obtain ⟨m₁, i', next', htick, hdecode', hexecute, -⟩ := step_eq_none hstep
  cases htick
  obtain ⟨rfl, rfl⟩ := Prod.mk.inj (Except.ok.inj (hdecode.symm.trans hdecode'))
  exact hexecute

theorem execute_assigned {i : Instruction} {which : Nat} {slot : UInt8} {vars y : Value}
    (hm : Intact m) (hi : i.assigned? = some (which, slot))
    (hvars : m.image.heap.slot m.context which = .ok vars)
    (hy : m.image.heap.slot vars slot.toNat = .ok y) :
    ∃ m', execute i m = .ok () m' ∧
      Heap.Rewrites m.image.heap m'.image.heap ⟨vars, slot.toNat⟩ m.accumulator := by
  have hread : heapVars which m = .ok vars m := query_of_eq_ok hvars
  have hsane := hm.whole.slot (hm.held m.context (by simp)) hvars
  obtain ⟨m', hset, -, hrewrites⟩ := setSlot_rewrites hm.whole ⟨hsane, hy⟩
    (hm.held m.accumulator (by simp))
  refine ⟨m', ?_, hrewrites⟩
  cases i
  case storeOwn | storeParent =>
    cases hi
    exact bind_eq_ok.mpr ⟨_, m, hread, hset⟩
  all_goals cases hi

end Machine

inductive Event where
  | upkeep (u : Upkeep)
  /-- An assignment through the block's copy, by the block or by one nested in it. -/
  | inner
  /-- An assignment through the slot of the parent. -/
  | outer
  | idle
  deriving DecidableEq

/-- How an event changes the values of a variable and the one assigned last. -/
inductive Event.Passes : Event → Copies → Value → Copies → Value → Prop
  | upkeep (u : Upkeep) (c : Copies) (v : Value) : Passes (.upkeep u) c v (u.apply c) v
  | inner (c : Copies) (v x : Value) : Passes .inner c v { c with own := x } x
  | outer (c : Copies) (v x : Value) : Passes .outer c v { c with parent := x } x
  /-- A collection moves objects, and all values move along with them. -/
  | idle (c : Copies) (v : Value) {move : Value → Value} (hnil : move .nil = .nil) :
    Passes .idle c v (c.map move) (move v)

/-- A machine in the course of a block's activation, and the value that was last assigned to a
variable that the block chains. -/
structure Moment where
  machine : Machine
  activation : Activation
  latest : Value

namespace Moment

def Chains (p : Moment) (s : SyncedSlot) (c : Copies) : Prop :=
  p.machine.image.heap.Chains p.activation s c

/-- The block's copy of a variable. It is read by the block and by the blocks nested in it. -/
def OwnHolds (p : Moment) (s : SyncedSlot) (x : Value) : Prop :=
  p.machine.image.heap.Holds (p.activation.ownCell s) x

/-- The slot of the parent. It is read by the enclosing scope and by its other blocks. -/
def ParentHolds (p : Moment) (s : SyncedSlot) (x : Value) : Prop :=
  p.machine.image.heap.Holds (p.activation.parentCell s) x

end Moment

def Turn (s : SyncedSlot) (p : Moment) (e : Event) (q : Moment) : Prop :=
  Machine.step .never p.machine = .ok none q.machine ∧ match e with
    | .upkeep u => p.machine.context = p.activation.context ∧
      (∃ next, Code.decodeAt p.machine.code p.machine.pc = .ok (u.instruction s, next)) ∧
      q.activation = p.activation ∧ q.latest = p.latest
    | .inner => q.activation = p.activation ∧
      ∀ c, p.Chains s c → q.Chains s { c with own := q.latest }
    | .outer => q.activation = p.activation ∧
      ∀ c, p.Chains s c → q.Chains s { c with parent := q.latest }
    | .idle => ∃ move : Value → Value, move .nil = .nil ∧
      q.activation.values = p.activation.values.map move ∧ q.latest = move p.latest ∧
      ∀ c, p.Chains s c → q.Chains s (c.map move)

structure Course (s : SyncedSlot) (moment : Nat → Moment) (event : Nat → Event) (turns : Nat) :
    Prop where
  intact : Intact (moment 0).machine
  running : (moment 0).machine.stop = none
  turn : ∀ k < turns, Turn s (moment k) (event k) (moment (k + 1))

section Following

variable {s : SyncedSlot} {p q : Moment} {e : Event} {c : Copies}

/-- A turn does to the three cells of a variable what its event says. -/
theorem Turn.passes (hp : Intact p.machine) (ht : Turn s p e q) (hc : p.Chains s c) :
    ∃ c', q.Chains s c' ∧ e.Passes c p.latest c' q.latest := by
  obtain ⟨hstep, ht⟩ := ht
  cases e with
  | upkeep u =>
    obtain ⟨hcontext, ⟨next, hdecode⟩, hactivation, hlatest⟩ := ht
    have hexecute := Machine.execute_of_step hstep hdecode
    obtain ⟨m', hupkeep, hc'⟩ := Machine.execute_upkeep
      (m := { p.machine with
        clock := p.machine.clock + 1, start := p.machine.pc, pc := next })
      hp.whole hc hcontext u
    obtain rfl := (EStateM.Result.ok.inj (hupkeep.symm.trans hexecute)).2
    refine ⟨u.apply c, ?_, hlatest ▸ .upkeep u c p.latest⟩
    rw [Moment.Chains, hactivation]
    exact hc'
  | inner => exact ⟨_, ht.2 c hc, .inner c _ _⟩
  | outer => exact ⟨_, ht.2 c hc, .outer c _ _⟩
  | idle =>
    obtain ⟨move, hnil, -, hlatest, hmoved⟩ := ht
    exact ⟨_, hmoved c hc, hlatest ▸ .idle c p.latest hnil⟩

section Assigning

variable {m : Machine} {i : Instruction} {which next : Nat}

/-- What executing an assignment makes of the three cells. -/
theorem Moment.rewrites_of_assigned (hp : Intact p.machine) {slot : UInt8} {vars : Value}
    (hstep : Machine.step .never p.machine = .ok none m)
    (hdecode : Code.decodeAt p.machine.code p.machine.pc = .ok (i, next))
    (hi : i.assigned? = some (which, slot))
    (hvars : p.machine.image.heap.slot p.machine.context which = .ok vars) {y : Value}
    (hy : p.machine.image.heap.slot vars slot.toNat = .ok y) :
    Heap.Rewrites p.machine.image.heap m.image.heap ⟨vars, slot.toNat⟩ p.machine.accumulator := by
  have hexecute := Machine.execute_of_step hstep hdecode
  obtain ⟨m', hassign, hrewrites⟩ := Machine.execute_assigned
    (m := { p.machine with clock := p.machine.clock + 1, start := p.machine.pc, pc := next })
    ⟨hp.whole, hp.held⟩ hi hvars hy
  obtain rfl := (EStateM.Result.ok.inj (hassign.symm.trans hexecute)).2
  exact hrewrites

/-- An assignment by the block, or by a block whose parent it is. -/
theorem Turn.inner_of_assigned (hp : Intact p.machine)
    (hstep : Machine.step .never p.machine = .ok none m)
    (hdecode : Code.decodeAt p.machine.code p.machine.pc = .ok (i, next))
    (hi : i.assigned? = some (which, s.own))
    (hvars : p.machine.image.heap.slot p.machine.context which = .ok p.activation.mine) :
    Turn s p .inner ⟨m, p.activation, p.machine.accumulator⟩ :=
  ⟨hstep, rfl, fun _ hc =>
    hc.setOwn (Moment.rewrites_of_assigned hp hstep hdecode hi hvars hc.own.slot)⟩

/-- An assignment by the enclosing scope, or by another of its blocks. -/
theorem Turn.outer_of_assigned (hp : Intact p.machine)
    (hstep : Machine.step .never p.machine = .ok none m)
    (hdecode : Code.decodeAt p.machine.code p.machine.pc = .ok (i, next))
    (hi : i.assigned? = some (which, s.parent))
    (hvars : p.machine.image.heap.slot p.machine.context which = .ok p.activation.theirs) :
    Turn s p .outer ⟨m, p.activation, p.machine.accumulator⟩ :=
  ⟨hstep, rfl, fun _ hc =>
    hc.setParent (Moment.rewrites_of_assigned hp hstep hdecode hi hvars hc.parent.slot)⟩

theorem Turn.idle_of_loadRegister {r : UInt8}
    (hstep : Machine.step .never p.machine = .ok none m)
    (hdecode : Code.decodeAt p.machine.code p.machine.pc = .ok (.loadRegister r, next)) :
    Turn s p .idle ⟨m, p.activation, p.latest⟩ := by
  refine ⟨hstep, id, rfl, (List.map_id _).symm, rfl, fun c hc => ?_⟩
  obtain ⟨x, m₁, hread, hset⟩ := bind_eq_ok.mp (Machine.execute_of_step hstep hdecode)
  obtain ⟨-, rfl⟩ := query_eq_ok hread
  obtain rfl := modify_eq_ok.mp hset
  exact hc

end Assigning

variable {moment : Nat → Moment} {event : Nat → Event} {turns : Nat}

theorem Course.intact_at (course : Course s moment event turns) {k : Nat} (hk : k ≤ turns) :
    Intact (moment k).machine ∧ (moment k).machine.stop = none := by
  induction k with
  | zero => exact ⟨course.intact, course.running⟩
  | succ k ih =>
    obtain ⟨hintact, hstop⟩ := ih (Nat.le_of_succ_le hk)
    have hstep := (course.turn k hk).1
    have hkept := Machine.step_kept hintact hstop .never
    rw [hstep] at hkept
    exact ⟨hkept.1, Machine.stop_eq_none_of_step hstep⟩

/-- The values of a variable along a stretch of a run. -/
theorem Course.exists_copies (course : Course s moment event turns) (hc : (moment 0).Chains s c) :
    ∃ copies : Nat → Copies, copies 0 = c ∧ (∀ k ≤ turns, (moment k).Chains s (copies k)) ∧
      ∀ k < turns, (event k).Passes (copies k) (moment k).latest (copies (k + 1))
        (moment (k + 1)).latest := by
  have hreached : ∀ k, ∃ c', k ≤ turns → (moment k).Chains s c' := by
    intro k
    induction k with
    | zero => exact ⟨c, fun _ => hc⟩
    | succ k ih =>
      obtain ⟨c', hc'⟩ := ih
      by_cases hk : k + 1 ≤ turns
      · have hk' := Nat.le_of_succ_le hk
        obtain ⟨c'', hc'', -⟩ := (course.turn k hk).passes (course.intact_at hk').1 (hc' hk')
        exact ⟨c'', fun _ => hc''⟩
      · exact ⟨c', fun hk' => absurd hk' hk⟩
  choose copies hcopies using hreached
  refine ⟨copies, (hcopies 0 (Nat.zero_le _)).unique hc, hcopies, fun k hk => ?_⟩
  obtain ⟨c', hc', hpasses⟩ :=
    (course.turn k hk).passes (course.intact_at hk.le).1 (hcopies k hk.le)
  rwa [(hcopies (k + 1) hk).unique hc']

end Following

end ObjectMachine
