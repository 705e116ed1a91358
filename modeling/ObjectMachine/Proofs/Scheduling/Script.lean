import ObjectMachine.Proofs.Machine.Stacking
import ObjectMachine.Proofs.Scheduling.Partition

namespace ObjectMachine

namespace Machine

variable {m m' : Machine}

/-- The machine that takes up the current process, with nothing remembered but its code. -/
def reloaded (m : Machine) : Except Fault Machine := do
  let context ← m.image.heap.slot m.schedule.current Slot.Process.context
  let accumulator ← m.image.heap.slot m.schedule.current Slot.Process.accumulator
  let method ← m.image.heap.slot context Slot.Context.method
  let literals ← m.image.heap.slot method Slot.Code.literals
  let pc ← m.image.heap.slot context Slot.Context.pc
  let bytes ← m.image.heap.slot method Slot.Code.bytecode
  let code ← m.image.heap.bytes bytes
  return { m with
    process := m.schedule.current, context, accumulator, method, literals, code
    pc := pc.toNat?.getD 0, cache := ({} : Std.HashMap _ _).insert bytes code
    epoch := m.image.heap.stats.collections }

theorem fetchCode_of_refreshed {bytes : Value} {code : Array UInt8}
    (hcache : m.refreshed.cache = {}) (hbytes : m.image.heap.bytes bytes = .ok code) :
    fetchCode bytes m = .ok code { m with
      cache := ({} : Std.HashMap _ _).insert bytes code
      epoch := m.image.heap.stats.collections } := by
  have hrefreshed : m.refreshed = { m with
      cache := {}, epoch := m.image.heap.stats.collections } := by
    rw [refreshed] at hcache ⊢
    split
    · rfl
    · rename_i hepoch
      rw [if_neg hepoch] at hcache
      rw [← hcache, not_not.mp hepoch]
  rw [fetchCode_eq, hrefreshed]
  simp [hbytes]

theorem unspill_of_reloaded (hcache : m.cache = {}) (heq : m.reloaded = .ok m') :
    unspill m = .ok () m' := by
  simp only [reloaded, except_bind_eq_ok] at heq
  obtain ⟨context, hcontext, accumulator, haccumulator, method, hmethod, literals, hliterals,
    pc, hpc,
    bytes, hbytes, code, hcode, heq⟩ := heq
  obtain rfl := Except.ok.inj heq
  let m₁ : Machine := { m with process := m.schedule.current, context, accumulator }
  have hfetch := fetchCode_of_refreshed (m := m₁) (refreshed_of_cache hcache) hcode
  refine query_bind_eq_ok.mpr ⟨context, hcontext, ?_⟩
  refine query_bind_eq_ok.mpr ⟨accumulator, haccumulator, ?_⟩
  refine query_bind_eq_ok.mpr ⟨method, hmethod, query_bind_eq_ok.mpr ⟨literals, hliterals, ?_⟩⟩
  refine query_bind_eq_ok.mpr ⟨pc, hpc, query_bind_eq_ok.mpr ⟨bytes, hbytes, ?_⟩⟩
  exact bind_eq_ok.mpr ⟨code, _, hfetch, rfl⟩

def fetched? (m : Machine) : Option (Instruction × Machine) :=
  if m.stop.isSome || m.interrupts.pending then none
  else match Code.decodeAt m.code m.pc with
    | .ok (i, next) => some (i, { m with clock := m.clock + 1, start := m.pc, pc := next })
    | .error _ => none

theorem fetches_of_fetched {i : Instruction} (heq : m.fetched? = some (i, m')) :
    m.stop = none ∧ m.Fetches i m' := by
  rw [fetched?] at heq
  split at heq
  · cases heq
  · rename_i hquiet
    split at heq
    · rename_i i' next hdecode
      obtain ⟨rfl, rfl⟩ := Prod.mk.inj (Option.some.inj heq)
      simp only [Bool.or_eq_true, not_or, Option.isSome_iff_ne_none, ne_eq, not_not] at hquiet
      exact ⟨hquiet.1, .never, _, next, rfl, hquiet.2, hdecode, rfl⟩
    · cases heq

theorem paused_of_spacious {i : Instruction} (h : ¬m.image.heap.needsCollection) :
    m.Paused i Eq m := by
  by_cases hp : m.Pauses i
  · refine .pausing hp ?_ .still
    rw [safepoint, get_bind, if_neg h]
    rfl
  · exact .straight hp

/-- The machine at the end of its run, with the outcome. Unless an instruction asked for it, a timer
makes the request. -/
def quitted? (m : Machine) : Option (RunOutcome × Machine) :=
  match m.stop with
  | some (.returned v) => some (.returned v, m)
  | some outcome =>
    match spill { m with stop := none } with
    | .ok _ m' => some (outcome, m')
    | .error _ _ => none
  | none =>
    if m.interrupts.request.pending then
      match spill { m with
          interrupts := m.interrupts.request.poll.2, clock := m.clock + 1 } with
      | .ok _ m' => some (.preempted, m')
      | .error _ _ => none
    else none

theorem quits_of_quitted {outcome : RunOutcome} (heq : m.quitted? = some (outcome, m')) :
    m.Quits outcome m' := by
  rw [quitted?] at heq
  split at heq
  · rename_i v hstop
    obtain ⟨rfl, rfl⟩ := Prod.mk.inj (Option.some.inj heq)
    exact .returned hstop
  · rename_i outcome' hreturned hstop
    split at heq
    · rename_i hspill
      obtain ⟨rfl, rfl⟩ := Prod.mk.inj (Option.some.inj heq)
      exact .asked hstop (fun v hv => hreturned v hv) hspill
    · cases heq
  · rename_i hstop
    split at heq
    · rename_i hpending
      split at heq
      · rename_i hspill
        obtain ⟨rfl, rfl⟩ := Prod.mk.inj (Option.some.inj heq)
        have htick : tick ⟨fun _ => true⟩ m =
            .ok () { m with interrupts := m.interrupts.request, clock := m.clock + 1 } := rfl
        exact .preempted hstop htick hpending hspill
      · cases heq
    · cases heq

end Machine

inductive Cue where
  /-- A process is made that goes on in a context. -/
  | spawn (context : Value)
  | dispatch
  | execute
  | leave

namespace Stage

variable {s s' : Stage} {d : Deed} {cue : Cue} {cues : List Cue}

def cued : Cue → Stage → Option (Deed × Stage)
  | .spawn context, .idle w =>
    match World.onSchedule (·.spawn context .nil) w with
    | .ok _ w' => some (.spawn, .idle w')
    | .error _ _ => none
  | .dispatch, .idle w =>
    match World.dequeue w with
    | .ok (some p) w' =>
      match (Machine.ofWorld
          { w' with schedule := { w'.schedule with current := p } }).reloaded with
      | .ok m => some (.dispatch, .running m)
      | .error _ => none
    | _ => none
  | .execute, .running m => do
    let (i, m₀) ← m.fetched?
    if m₀.image.heap.needsCollection then none
    else match Machine.execute i m₀ with
      | .ok _ m' => some (.execute i m₀, .running m')
      | .error _ _ => none
  | .leave, .running m => do
    let (outcome, m') ← m.quitted?
    match World.settle outcome m'.toWorld with
    | .ok _ w => some (.leave outcome, .idle w)
    | .error _ _ => none
  | _, _ => none

theorem step_of_cued (heq : s.cued cue = some (d, s'))
    (hspawn : ∀ context, cue = .spawn context → Sane s.world context) : s.Step d Eq s' := by
  revert heq
  fun_cases cued cue s with
  | case1 context w p w' hmade =>
    rintro ⟨⟩
    exact .spawn (hspawn context rfl) (Arenas.sane_nil _) hmade
  | case3 w p w' hdequeue m hreloaded =>
    rintro ⟨⟩
    exact .dispatch hdequeue (Machine.unspill_of_reloaded rfl hreloaded)
  | case6 m =>
    intro heq
    obtain ⟨⟨i, m₀⟩, hfetched, heq⟩ := Option.bind_eq_some_iff.mp heq
    obtain ⟨hstop, hfetches⟩ := Machine.fetches_of_fetched hfetched
    dsimp only at heq
    split at heq
    · cases heq
    · rename_i hspacious
      split at heq
      · rename_i hexecute
        cases heq
        exact .execute hstop hfetches (Machine.paused_of_spacious hspacious) hexecute
      · cases heq
  | case7 m =>
    intro heq
    obtain ⟨⟨outcome, m'⟩, hquitted, heq⟩ := Option.bind_eq_some_iff.mp heq
    dsimp only at heq
    split at heq
    · rename_i hsettle
      cases heq
      exact .leave (Machine.quits_of_quitted hquitted) hsettle
    · cases heq
  | case2 | case4 | case5 | case8 => exact nofun

/-- What is sane stays so, as long as nothing is moved. -/
theorem Step.sane {v : Value} (hs : s.Sound) (hstep : s.Step d Eq s') (hv : Sane s.world v) :
    Sane s'.world v :=
  (hstep.sound_follows hs).2.sane hv rfl

def scripted : List Cue → Stage → Option (List (Deed × Stage))
  | [], _ => some []
  | cue :: cues, s => do
    let (d, s') ← s.cued cue
    return (d, s') :: (← scripted cues s')

def nth (s : Stage) (acts : List (Deed × Stage)) (k : Nat) : Stage :=
  (s :: acts.map (·.2))[k]?.getD (.idle default)

end Stage

def Deed.nth (acts : List (Deed × Stage)) (k : Nat) : Deed := (acts[k]?.map (·.1)).getD .collect

theorem Deed.nth_append {acts more : List (Deed × Stage)} {k : Nat} (hk : k < acts.length) :
    nth (acts ++ more) k = nth acts k := by
  rw [nth, nth, List.getElem?_append_left hk]

namespace Stage

theorem nth_append {s : Stage} {acts more : List (Deed × Stage)} {k : Nat} (hk : k ≤ acts.length) :
    s.nth (acts ++ more) k = s.nth acts k := by
  rw [nth, nth, List.map_append, ← List.cons_append, List.getElem?_append_left]
  simpa using Nat.lt_succ_of_le hk

theorem getElem_nth {s : Stage} {acts : List (Deed × Stage)} {k : Nat} (hk : k < acts.length) :
    acts[k] = (Deed.nth acts k, s.nth acts (k + 1)) := by
  simp [Deed.nth, nth, hk]

/-- A script that can be carried out makes a history. -/
theorem history_of_scripted {s : Stage} {cues : List Cue} {acts : List (Deed × Stage)}
    (hs : s.Sound) (heq : s.scripted cues = some acts)
    (hspawn : ∀ context, .spawn context ∈ cues → Sane s.world context) :
    History (s.nth acts) (Deed.nth acts) (fun _ => Eq) acts.length := by
  refine ⟨hs, ?_⟩
  induction cues generalizing s acts with
  | nil =>
    obtain rfl := Option.some.inj heq
    exact nofun
  | cons cue cues ih =>
    obtain ⟨⟨d, s'⟩, hcued, heq⟩ := Option.bind_eq_some_iff.mp heq
    obtain ⟨rest, hrest, heq⟩ := Option.bind_eq_some_iff.mp heq
    obtain rfl := Option.some.inj heq
    have hstep := step_of_cued hcued fun context hcue => hspawn context (hcue ▸ List.mem_cons_self)
    have hsteps := ih (hstep.sound_follows hs).1 hrest fun context hcontext =>
      hstep.sane hs (hspawn context (List.mem_cons_of_mem _ hcontext))
    rintro (_ | k) hk
    · exact hstep
    · exact hsteps k (Nat.lt_of_succ_lt_succ hk)

theorem history_cons {s s' : Stage} {d : Deed} {acts : List (Deed × Stage)} {n : Nat}
    (hs : s.Sound) (hstep : s.Step d Eq s')
    (history : History (s'.nth acts) (Deed.nth acts) (fun _ => Eq) n) :
    History (s.nth ((d, s') :: acts)) (Deed.nth ((d, s') :: acts)) (fun _ => Eq) (n + 1) := by
  refine ⟨hs, ?_⟩
  rintro (_ | k) hk
  · exact hstep
  · exact history.step k (Nat.lt_of_succ_lt_succ hk)

theorem history_concat {s s' : Stage} {d : Deed} {acts : List (Deed × Stage)}
    (history : History (s.nth acts) (Deed.nth acts) (fun _ => Eq) acts.length)
    (hstep : (s.nth acts acts.length).Step d Eq s') :
    History (s.nth (acts ++ [(d, s')])) (Deed.nth (acts ++ [(d, s')])) (fun _ => Eq)
      (acts.length + 1) := by
  refine ⟨history.sound, fun k hk => ?_⟩
  rcases Nat.lt_succ_iff_lt_or_eq.mp hk with hk | rfl
  · rw [nth_append hk.le, nth_append hk, Deed.nth_append hk]
    exact history.step k hk
  · have hlast : (acts ++ [(d, s')])[acts.length]? = some (d, s') := by simp
    have hnext : s.nth (acts ++ [(d, s')]) (acts.length + 1) = s' := by simp [nth]
    rw [nth_append le_rfl, hnext, Deed.nth, hlast]
    exact hstep

/-- A script that can be carried out to its end makes a history. -/
theorem history_of_script {s : Stage} {cues : List Cue} {n : Nat} (hs : s.Sound)
    (hlength : ((s.scripted cues).getD []).length = n)
    (hspawn : ∀ context, .spawn context ∈ cues → Sane s.world context) :
    History (s.nth ((s.scripted cues).getD [])) (Deed.nth ((s.scripted cues).getD []))
      (fun _ => Eq) n := by
  subst hlength
  cases hscript : s.scripted cues with
  | none => exact ⟨hs, nofun⟩
  | some acts => exact history_of_scripted hs hscript hspawn

end Stage

/-- Whether it is plain that an instruction stores nowhere. -/
def Instruction.silent : Instruction → Bool
  | .loadNil | .loadTrue | .loadThisContext | .loadLiteral _ | .storeRegister _ | .copyBlock _ =>
    true
  | .primitive0 p => Primitive.ofIndex? p.toNat == some .processCurrent
  | .primitive2 p _ => Primitive.ofIndex? p.toNat == some .processFork
  | _ => false

theorem Machine.not_stores_of_silent {m : Machine} {i : Instruction} {c : Cell}
    (hsilent : i.silent) : ¬m.Stores i c := by
  intro hstores
  cases hstores with
  | primitive hcalls hstores =>
    obtain ⟨index, act, hcall, hprim, -⟩ := hcalls
    cases i with
    | primitive0 p =>
      obtain ⟨rfl, -⟩ := Prod.mk.inj (Option.some.inj hcall)
      obtain rfl := Option.some.inj (hprim.symm.trans (beq_iff_eq.mp hsilent))
      exact hstores
    | primitive2 p r =>
      obtain ⟨rfl, -⟩ := Prod.mk.inj (Option.some.inj hcall)
      obtain rfl := Option.some.inj (hprim.symm.trans (beq_iff_eq.mp hsilent))
      exact hstores
    | loadNil | loadTrue | loadThisContext | loadLiteral | storeRegister | copyBlock => cases hcall
    | _ => cases hsilent
  | _ => cases hsilent

/-- Whether it is plain that no object of a class is stored into. -/
def Deed.avoids (k : KernelClass) : Deed → Bool
  | .outside _ => false
  | .execute (.storeInstVar _) m =>
    match m.image.heap.slot m.context Slot.Context.registers with
    | .ok v => m.image.classOf v ≠ .ok (m.image.kernelClass k)
    | .error _ => true
  | .execute i _ => i.silent
  | _ => true

theorem Deed.not_instance_of_avoids {k : KernelClass} {d : Deed} (havoids : d.avoids k)
    {i : Instruction} {m : Machine} (heq : d = .execute i m) {c : Cell} (hstores : m.Stores i c) :
    ¬m.image.Instance k c.object := by
  subst heq
  cases hstores with
  | instVar hself =>
    rw [avoids, hself] at havoids
    exact fun h => absurd h.classOf (of_decide_eq_true havoids)
  | primitive hcalls h =>
    refine absurd (.primitive hcalls h) (Machine.not_stores_of_silent (i := i) (c := c) ?_)
    obtain ⟨_, _, hcall, -⟩ := hcalls
    cases i <;> first | exact havoids | cases hcall
  | _ => cases havoids

theorem mapM_eq_of_forall₂ {ε α β : Type} {R : β → α → Prop} {f : α → Except ε β} {as : List α}
    {bs bs' : List β} (hf : ∀ {b a b'}, R b a → f a = .ok b' → b' = b) (has : List.Forall₂ R bs as)
    (heq : as.mapM f = .ok bs') : bs' = bs := by
  induction has generalizing bs' with
  | nil => exact (Except.ok.inj heq).symm
  | cons hb _ ih =>
    rw [List.mapM_cons, except_bind_eq_ok] at heq
    obtain ⟨b', hb', heq⟩ := heq
    obtain ⟨rest, hrest, heq⟩ := except_bind_eq_ok.mp heq
    rw [← Except.ok.inj heq, hf hb hb', ih hrest]

/-- What is listed is what the links lead through. -/
theorem Queue.Chain.listFrom_eq {h : Heap} {v : Value} {ps l : List Value} {fuel : Nat}
    (hc : Chain h v ps) (heq : listFrom h fuel v = .ok l) : l = ps := by
  induction hc generalizing fuel l with
  | nil =>
    cases fuel with
    | zero => cases heq
    | succ fuel => exact (Except.ok.inj heq).symm
  | @cons p next ps hlink _ ih =>
    cases fuel with
    | zero => cases heq
    | succ fuel =>
      rw [listFrom, if_neg hlink.not_isNil, except_bind_eq_ok] at heq
      obtain ⟨next', hnext, heq⟩ := heq
      obtain rfl := Except.ok.inj (hlink.slot.symm.trans hnext)
      obtain ⟨rest, hrest, heq⟩ := except_bind_eq_ok.mp heq
      rw [← ih hrest]
      exact (Except.ok.inj heq).symm

namespace Stage

def lineup (s : Stage) : Except Fault (List Nat × Option Nat) := do
  let ps ← s.schedule.runnable.toList s.heap
  let numbers ← ps.mapM fun p => return (← s.heap.slot p Slot.Process.id).toNat?.getD 0
  if s.schedule.current.isNil then
    return (numbers, none)
  return (numbers, some ((← s.heap.slot s.schedule.current Slot.Process.id).toNat?.getD 0))

/-- If there are not too many processes, the numbers that they bear tell what is in the books. -/
theorem Tallied.lineup_eq {s : Stage} {b : Books} {roll : Roll} {is : List Nat} {c : Option Nat}
    (ht : s.Tallied b roll) (hfew : s.schedule.spawned < 0x1000000000000000)
    (heq : s.lineup = .ok (is, c)) : b.runnable = is ∧ b.current = c := by
  have ha := ht.accounts
  have hnumber : ∀ {i p v}, roll i p → s.heap.slot p Slot.Process.id = .ok v →
      v.toNat?.getD 0 = i := by
    intro i p v hi hv
    obtain rfl := Except.ok.inj ((ha.number hi).slot.symm.trans hv)
    exact Books.recorded_eq ((ha.known hi).2.trans_lt hfew)
  obtain ⟨ps, hlist, heq⟩ := except_bind_eq_ok.mp heq
  obtain ⟨numbers, hnumbers, heq⟩ := except_bind_eq_ok.mp heq
  obtain ⟨ps', hrepresents, hps⟩ := ha.queued.first
  obtain rfl := hrepresents.chain.listFrom_eq hlist
  have hrunnable : numbers = b.runnable := by
    refine mapM_eq_of_forall₂ (fun {i p n} hi hn => ?_) hps hnumbers
    obtain ⟨v, hv, hn⟩ := except_bind_eq_ok.mp hn
    exact (Except.ok.inj hn).symm.trans (hnumber hi hv)
  have hcurrent := ha.current
  rcases hb : b.current with - | i
  · rw [hb] at hcurrent
    have hnil : s.schedule.current = .nil := hcurrent
    rw [hnil] at heq
    obtain ⟨rfl, rfl⟩ := Prod.mk.inj (Except.ok.inj heq)
    exact ⟨hrunnable.symm, rfl⟩
  · rw [hb] at hcurrent
    have hi : roll i s.schedule.current := hcurrent
    rw [if_neg (ha.number hi).not_isNil, except_bind_eq_ok] at heq
    obtain ⟨v, hv, heq⟩ := heq
    obtain ⟨rfl, rfl⟩ := Prod.mk.inj (Except.ok.inj heq)
    exact ⟨hrunnable.symm, congrArg some (hnumber hi hv).symm⟩

end Stage

/-- What is done in a step, as far as it can be told from the outside. -/
inductive Move where
  | spawn
  | dispatch
  | execute (i : Instruction)
  | leave (outcome : RunOutcome)
  | other
  deriving DecidableEq

namespace Deed

variable {d : Deed} {outcome : RunOutcome}

def move : Deed → Move
  | .spawn => .spawn
  | .dispatch => .dispatch
  | .execute i _ => .execute i
  | .leave outcome => .leave outcome
  | _ => .other

theorem move_eq_dispatch : d.move = .dispatch ↔ d = .dispatch := by
  cases d <;> simp [move]

theorem move_eq_leave : d.move = .leave outcome ↔ d = .leave outcome := by
  cases d <;> simp [move]

def machine : Deed → Machine
  | .execute _ m => m
  | _ => default

theorem eq_execute {i : Instruction} (h : d.move = .execute i) :
    d = .execute i d.machine := by
  cases d with
  | execute i' m => exact Move.execute.inj h ▸ rfl
  | _ => cases h

end Deed

/-- What can be seen of a step: what is done in it, and how many processes there are after it, which
of them are in the queue, and which one runs. -/
structure Report where
  move : Move
  spawned : Nat
  runnable : List Nat
  current : Option Nat
  deriving DecidableEq

namespace Stage

/-- The books as they can be read off the memory. -/
def seen (s : Stage) : Books :=
  match s.lineup with
  | .ok (runnable, current) => { runnable, current }
  | .error _ => {}

theorem lineup_eq_seen {s : Stage} (h : s.seen.runnable ≠ []) :
    s.lineup = .ok (s.seen.runnable, s.seen.current) := by
  rw [seen] at h ⊢
  split
  · assumption
  · simp_all

end Stage

def Report.of (d : Deed) (s : Stage) : Report :=
  ⟨d.move, s.schedule.spawned, s.seen.runnable, s.seen.current⟩

namespace Stage

def reports (acts : List (Deed × Stage)) : List Report := acts.map fun (d, s) => .of d s

theorem exists_history {s : Stage} {cues : List Cue} {rs : List Report} (hs : s.Sound)
    (hspawn : ∀ context, .spawn context ∈ cues → Sane s.world context)
    (heq : (s.scripted cues).map reports = some rs) :
    ∃ stage deed, History stage deed (fun _ => Eq) rs.length ∧ stage 0 = s ∧
      ∀ k (hk : k < rs.length), rs[k] = .of (deed k) (stage (k + 1)) := by
  obtain ⟨acts, hacts, rfl⟩ := Option.map_eq_some_iff.mp heq
  have history := history_of_scripted hs hacts hspawn
  refine ⟨s.nth acts, Deed.nth acts, by simpa [reports] using history, rfl, fun k hk => ?_⟩
  simp only [reports, List.length_map] at hk
  simp [reports, getElem_nth (s := s) hk]

end Stage

@[irreducible]
def Image.furnished (start : Image) (make : ImageAction Value) : Value × Image :=
  match make start with
  | .ok v image => (v, image)
  | .error _ _ => (.nil, start)

theorem Image.furnished_intact {start : Image} {make : ImageAction Value} (hstart : Intact start)
    (hmake : Stable [] make) :
    Intact (start.furnished make).2 ∧ Sane (start.furnished make).2 (start.furnished make).1 := by
  have hmade := hmake start hstart (by simp)
  rw [furnished]
  split
  · rename_i v image heq
    rw [heq] at hmade
    exact ⟨hmade.1, hmade.2.2 v (by simp)⟩
  · exact ⟨hstart, Arenas.sane_nil _⟩

theorem Image.furnished_made {start : Image} {make : ImageAction Value}
    (hmade : (start.furnished make).1.isReference = true) :
    make start = .ok (start.furnished make).1 (start.furnished make).2 := by
  rw [furnished] at hmade ⊢
  split at hmade
  · rename_i heq
    rw [heq]
  · cases hmade

/-- A world in which something has been made, but no process yet. -/
def World.furnished (make : ImageAction Value) : World :=
  { image := (Machine.blankImage.furnished make).2 }

theorem World.furnished_intact {make : ImageAction Value} (hmake : Stable [] make) :
    Intact (furnished make) ∧ Sane (furnished make) (Machine.blankImage.furnished make).1 := by
  obtain ⟨himage, hv⟩ := Image.furnished_intact Machine.blankImage_intact hmake
  exact ⟨World.intact_fresh himage, hv⟩

def Image.newActivation (code : List Instruction) (registers : Nat) : ImageAction Value := do
  let bytes ← onHeap (Heap.allocateBytes .nil (encodeAll code).toArray)
  let method ← onHeap (Heap.allocatePointers .nil Slot.Code.count)
  let context ← onHeap (Heap.allocatePointers .nil (Slot.Context.registers + registers))
  fillSlots method Slot.Code.bytecode [bytes]
  fillSlots context Slot.Context.method [method]
  return context

theorem Image.newActivation_stable {known : List Value} (code : List Instruction)
    (registers : Nat) : Stable known (newActivation code registers) := by
  refine .bind (onHeap_stable (Heap.allocateBytes_stable (by simp) _)) fun bytes => ?_
  refine .bind (onHeap_stable (Heap.allocatePointers_stable (by simp) _)) fun method => ?_
  refine .bind (onHeap_stable (Heap.allocatePointers_stable (by simp) _)) fun context => ?_
  refine .bind (fillSlots_stable (by simp) _ (by simp)) fun _ => ?_
  refine .bind (fillSlots_stable (by simp) _ (by simp)) fun _ => ?_
  exact .pure (by simp)

def Image.newCode (isa : Value) (count temps : Nat) (code : List Instruction)
    (literals : List Value) : ImageAction Value := do
  let bytes ← onHeap (Heap.allocateBytes .nil (encodeAll code).toArray)
  let array ← onHeap (Heap.allocatePointers .nil literals.length)
  let v ← onHeap (Heap.allocatePointers isa count)
  fillSlots array 0 literals
  fillSlots v 0 [bytes, array, .ofNat 0, .ofNat temps, .ofNat 0, .ofNat 0]
  return v

theorem Image.newCode_stable {known : List Value} {isa : Value} (hisa : Trusted known isa)
    (count temps : Nat) (code : List Instruction) {literals : List Value}
    (hliterals : ∀ v ∈ literals, Trusted known v) :
    Stable known (newCode isa count temps code literals) := by
  refine .bind (onHeap_stable (Heap.allocateBytes_stable (by simp) _)) fun bytes => ?_
  refine .bind (onHeap_stable (Heap.allocatePointers_stable (by simp) _)) fun array => ?_
  refine .bind (onHeap_stable (Heap.allocatePointers_stable (by simp [hisa]) _)) fun v => ?_
  refine .bind (fillSlots_stable (by simp) _ fun x hx => by simp [hliterals x hx]) fun _ => ?_
  refine .bind (fillSlots_stable (by simp) _ (by simp)) fun _ => ?_
  exact .pure (by simp)

end ObjectMachine
