import ObjectMachine.Proofs.Machine.Engaging

namespace ObjectMachine

section Tracks

variable {t t' : Track} {xs ys zs : List Value} {h h' : Heap} {written : Cell → Prop}

theorem Track.forall₂_after (hxy : List.Forall₂ t xs ys) (hyz : List.Forall₂ t' ys zs) :
    List.Forall₂ (Track.after t' t) xs zs := by
  induction hxy generalizing zs with
  | nil =>
    cases hyz
    exact .nil
  | cons hx _ ih =>
    cases hyz with
    | cons hy hys => exact .cons ⟨_, hx, hy⟩ (ih hys)

theorem exists_of_mem_forall₂ {y : Value} (hxy : List.Forall₂ t xs ys) (hy : y ∈ ys) :
    ∃ x ∈ xs, t x y := by
  induction hxy with
  | nil => simp at hy
  | cons hx _ ih =>
    rcases List.mem_cons.mp hy with rfl | hy
    · exact ⟨_, .head _, hx⟩
    · obtain ⟨x, hmem, hx⟩ := ih hy
      exact ⟨x, .tail _ hmem, hx⟩

/-- Where nothing moved twice, nothing moved. -/
theorem Heap.Retains.still_after_still (hr : h.Retains written (.still h) h') :
    Track.after (.still h') (.still h) = Track.still h := by
  funext v x
  refine propext ⟨?_, fun hx => ⟨v, ⟨rfl, hx.2⟩, hx.1, (hr.sane ⟨rfl, hx.2⟩).2⟩⟩
  rintro ⟨u, ⟨rfl, hu⟩, rfl, -⟩
  exact ⟨rfl, hu⟩

theorem Heap.Retains.nodup (hr : h.Retains written t h') (hxy : List.Forall₂ t xs ys)
    (hxs : xs.Nodup) : ys.Nodup := by
  induction hxy with
  | nil => exact .nil
  | @cons x y xs ys hx hrest ih =>
    obtain ⟨hfirst, hxs⟩ := List.nodup_cons.mp hxs
    refine List.nodup_cons.mpr ⟨fun hy => hfirst ?_, ih hxs⟩
    obtain ⟨x', hmem, hx'⟩ := exists_of_mem_forall₂ hrest hy
    rwa [hr.injective hx hx']

theorem occupied_of_length (hxs : xs ≠ []) (hlength : ys.length = xs.length) : ys ≠ [] := by
  rwa [← List.length_pos_iff, hlength, List.length_pos_iff]

end Tracks

structure Suspension where
  context : Value
  code : Array UInt8
  /-- The first of the constants of the code. -/
  constants : List Value
  pc : Nat
  registers : List Value
  short : constants.length ≤ 3
  position : pc < 0x1000000000000000
  occupied : registers ≠ []

namespace Suspension

structure Moves (t : Track) (s s' : Suspension) : Prop where
  context : t s.context s'.context
  code : s'.code = s.code
  constants : List.Forall₂ t s.constants s'.constants
  pc : s'.pc = s.pc
  registers : List.Forall₂ t s.registers s'.registers

variable {t t' : Track} {s s' s'' : Suspension} {stack stack' stack'' : List Suspension}

theorem Moves.trans (h : s.Moves t s') (h' : s'.Moves t' s'') : s.Moves (t'.after t) s'' where
  context := ⟨_, h.context, h'.context⟩
  code := h'.code.trans h.code
  constants := Track.forall₂_after h.constants h'.constants
  pc := h'.pc.trans h.pc
  registers := Track.forall₂_after h.registers h'.registers

theorem contexts_of_moves (h : List.Forall₂ (Moves t) stack stack') :
    List.Forall₂ t (stack.map context) (stack'.map context) := by
  induction h with
  | nil => exact .nil
  | cons hs _ ih => exact .cons hs.context ih

/-- Nothing became of activations where nothing moved. -/
theorem eq_of_still {h : Heap} (hmoves : List.Forall₂ (Moves (.still h)) stack stack') :
    stack' = stack := by
  induction hmoves with
  | nil => rfl
  | @cons s s' _ _ hs _ ih =>
    cases s
    cases s'
    obtain ⟨hcontext, hcode, hconstants, hpc, hregisters⟩ := hs
    obtain rfl := hcontext.1
    obtain rfl := hcode
    obtain rfl := Heap.eq_of_still hconstants
    obtain rfl := hpc
    obtain rfl := Heap.eq_of_still hregisters
    rw [ih]

end Suspension

namespace Image

variable {i i' : Image} {c c' : Value} {stack : List Suspension} {written : Cell → Prop} {t : Track}

inductive Awaits (i : Image) : Value → List Suspension → Prop where
  | nil {c : Value} : i.Awaits c []
  | cons {c : Value} {s : Suspension} {stack : List Suspension} :
    i.heap.Holds ⟨c, Slot.Context.previous⟩ s.context →
    i.Suspends s.context s.code s.constants s.pc s.registers → i.Awaits s.context stack →
    i.Awaits c (s :: stack)

/-- Activations wait on while nothing is written to their contexts. -/
theorem Retains.awaits (hr : Retains written t i i') (whole : i.heap.Whole)
    (hlow : ∀ u k, k < 3 → ¬written ⟨u, k⟩) (hc : t c c')
    (hfree : ∀ s ∈ stack, ∀ k, ¬written ⟨s.context, k⟩) (h : i.Awaits c stack) :
    ∃ stack', List.Forall₂ (Suspension.Moves t) stack stack' ∧ i'.Awaits c' stack' := by
  induction h generalizing c' with
  | nil => exact ⟨[], .nil, .nil⟩
  | @cons c s stack hcaller hs _ ih =>
    obtain ⟨x, hx, hsx⟩ := hr.heap.kept hc hcaller (hlow _ _ (by decide))
    obtain ⟨constants', registers', hcc, hrr, hs'⟩ :=
      hr.suspends whole hsx hlow (hfree s (.head _)) s.short hs
    obtain ⟨stack', hmoves, hawaits⟩ := ih hsx fun s' hs' => hfree s' (.tail _ hs')
    exact ⟨⟨x, s.code, constants', s.pc, registers', hcc.length_eq ▸ s.short, s.position,
      occupied_of_length s.occupied hrr.length_eq.symm⟩ :: stack',
      .cons ⟨hsx, rfl, hcc, rfl, hrr⟩ hmoves, .cons hx hs' hawaits⟩

theorem Awaits.contexts (h : i.Awaits c stack) : ∀ s ∈ stack, i.Instance .context s.context := by
  induction h with
  | nil => simp
  | cons _ hs _ ih =>
    intro s hmem
    rcases List.mem_cons.mp hmem with rfl | hmem
    · exact hs.context
    · exact ih s hmem

end Image

namespace Machine

variable {m m' m'' : Machine} {code : Array UInt8} {constants mconstants args values : List Value}
  {w w' : Window} {stack : List Suspension} {tm : CodeTemplate} {t t' : Track} {i : Instruction}
  {next : Nat}

structure Stands (m : Machine) (code : Array UInt8) (constants : List Value) (w : Window)
    (stack : List Suspension) : Prop where
  works : m.Works code constants w
  short : constants.length ≤ 3
  occupied : w.registers ≠ []
  awaits : m.image.Awaits m.context stack
  apart : (m.context :: stack.map Suspension.context).Nodup

namespace Stands

theorem position (h : m.Stands code constants w stack) : w.pc < 0x1000000000000000 :=
  h.works.pc ▸ h.works.ready.position

def here (h : m.Stands code constants w stack) : Suspension :=
  ⟨m.context, code, constants, w.pc, w.registers, h.short, h.position, h.occupied⟩

theorem apart_of_mem (h : m.Stands code constants w stack) {s : Suspension} (hs : s ∈ stack) :
    s.context ≠ m.context := by
  rintro heq
  refine (List.nodup_cons.mp h.apart).1 (List.mem_map.mpr ⟨s, hs, heq⟩)

/-- A call puts the activation on top of those that wait. -/
theorem called (h : m.Stands code constants w stack)
    {receiver : Value} (hc : m.Called code constants w tm mconstants args t receiver m')
    (hmlength : mconstants.length ≤ 3) :
    ∃ stack', List.Forall₂ (Suspension.Moves t) (h.here :: stack) stack' ∧
      ∃ mconstants' args' accumulator, List.Forall₂ t mconstants mconstants' ∧
        List.Forall₂ t args args' ∧ t w.accumulator accumulator ∧
        m'.Stands tm.bytecode mconstants' ⟨0, accumulator,
          receiver :: args' ++ List.replicate (tm.temps + tm.stack) .nil⟩ stack' := by
  obtain ⟨mconstants', args', accumulator, hmm, haa, hacc, hworks⟩ := hc.works
  obtain ⟨caller, constants', registers', hcaller, hprevious, hcc, hrr, hsuspends⟩ :=
    hc.engages.caller
  have hretains := hc.engages.retains
  have hfree : ∀ s ∈ stack, ∀ k, ¬∃ x, m.Spilled ⟨s.context, k⟩ x := by
    rintro s hs k ⟨x, hx⟩
    rcases hx.object with hcontext | hprocess
    · exact h.apart_of_mem hs hcontext
    · exact (h.awaits.contexts s hs).ne h.works.ready.kinds h.works.ready.inProcess (by decide)
        hprocess
  obtain ⟨stack', hmoves, hawaits⟩ := hretains.awaits h.works.ready.intact.whole
    (fun u k hk => Spilled.low u hk) hcaller hfree h.awaits
  let s : Suspension := ⟨caller, code, constants', w.pc, registers', hcc.length_eq ▸ h.short,
    h.position, occupied_of_length h.occupied hrr.length_eq.symm⟩
  have hall : List.Forall₂ (Suspension.Moves t) (h.here :: stack) (s :: stack') :=
    .cons ⟨hcaller, rfl, hcc, rfl, hrr⟩ hmoves
  have hcontexts := Suspension.contexts_of_moves hall
  refine ⟨s :: stack', hall, mconstants', args', accumulator, hmm, haa, hacc, hworks,
    hmm.length_eq ▸ hmlength, by simp, .cons hprevious hsuspends hawaits,
    List.nodup_cons.mpr ⟨fun hmem => ?_, hretains.heap.nodup hcontexts h.apart⟩⟩
  -- The new context is none of those that there were.
  obtain ⟨x, -, hx⟩ := exists_of_mem_forall₂ hcontexts hmem
  exact hc.engages.fresh x hx

/-- The activations that wait are the same while nothing is written to them and nothing moves. -/
theorem awaits_still {written : Cell → Prop}
    (hr : m.image.Retains written (.still m.image.heap) m'.image) (whole : m.image.heap.Whole)
    (hlow : ∀ u k, k < 3 → ¬written ⟨u, k⟩) {c : Value} (hc : m.image.heap.arenas.Sane c)
    (hfree : ∀ s ∈ stack, ∀ k, ¬written ⟨s.context, k⟩) (h : m.image.Awaits c stack) :
    m'.image.Awaits c stack := by
  obtain ⟨stack', hmoves, hawaits⟩ := hr.awaits whole hlow ⟨rfl, hc⟩ hfree h
  exact Suspension.eq_of_still hmoves ▸ hawaits

/-- The innermost activation goes on with its window. -/
theorem continued (h : m.Stands code constants w stack) {r : Routine} (hr : m.Suits r constants)
    (hi : w.execute r i = some w') (hpc : w'.pc < 0x1000000000000000) :
    ∃ m', execute i m = .ok () m' ∧
      m.image.Retains (fun c => c.object = m.context ∧ 3 ≤ c.index) (.still m.image.heap)
        m'.image ∧ m'.context = m.context ∧ m'.Stands code constants w' stack := by
  obtain ⟨m', heq, hretains, hcontext, hworks⟩ := h.works.turns hr h.short hi hpc h.occupied
  refine ⟨m', heq, hretains, hcontext, hworks, h.short,
    occupied_of_length h.occupied (Window.length_of_execute hi), hcontext ▸ ?_, hcontext ▸ h.apart⟩
  exact awaits_still hretains h.works.ready.intact.whole
    (fun u k hk hc => absurd hc.2 (Nat.not_le.mpr hk)) h.works.ready.inContext.sane
    (fun s hs k hc => h.apart_of_mem hs hc.1) h.awaits

/-- A return leads to the activation that waits on top. -/
theorem returned {s : Suspension} {v : Value} (h : m.Stands code constants w (s :: stack))
    (hi : i = .return_ ∧ w.accumulator = v ∨ i = .returnSelf ∧ w.registers[0]? = some v) :
    ∃ m', execute i m = .ok () m' ∧
      m.image.Retains (· = ⟨m.context, Slot.Context.pc⟩) (.still m.image.heap) m'.image ∧
      m'.context = s.context ∧
      m'.Stands s.code s.constants ⟨s.pc, v, s.registers⟩ stack := by
  cases h.awaits with
  | cons hprevious hs hawaits =>
  obtain ⟨m', heq, hretains, hcontext, hworks⟩ := h.works.returns hi hprevious hs s.short s.position
    (h.apart_of_mem (.head _)) s.occupied
  refine ⟨m', heq, hretains, hcontext, hworks, s.short, s.occupied, hcontext ▸ ?_,
    hcontext ▸ (List.nodup_cons.mp h.apart).2⟩
  refine awaits_still hretains h.works.ready.intact.whole (fun u k hk hc => ?_) hs.context.sane
    (fun s' hs' k hc => h.apart_of_mem (.tail _ hs') (congrArg Cell.object hc)) hawaits
  have := congrArg Cell.index hc
  simp only [Slot.Context.pc] at this
  omega

end Stands

section Turns

def InvokesBlock (i : Instruction) : Prop :=
  ∃ index act, call? i = some (index, act) ∧
    Primitive.ofIndex? index.toNat = some .blockInvoke

structure TakesTurn (m : Machine) (i : Instruction) (m' : Machine) : Prop where
  decodes : ∃ next, Code.decodeAt m.code m.pc = .ok (i, next)
  steps : step .never m = .ok none m'

abbrev Quietly : Machine → Machine → Prop :=
  Relation.ReflTransGen fun m m' => ∃ i, ¬InvokesBlock i ∧ m.TakesTurn i m'

/-- Turns in which no block is invoked, with what they left as it was and the track of the rest. -/
structure Reaches (m : Machine) (t : Track) (m' : Machine) : Prop where
  quietly : m.Quietly m'
  retains : m.image.Retains m.image.Transient t m'.image

def Exhausts (m : Machine) : Prop :=
  ∃ m₁ e m', m.Quietly m₁ ∧ step .never m₁ = .error (.failure (.allocation e)) m'

theorem Reaches.refl (hm : Intact m) : m.Reaches (.still m.image.heap) m :=
  ⟨.refl, .refl (intact_image hm)⟩

theorem Reaches.trans (h : m.Reaches t m') (hm : Intact m) (h' : m'.Reaches t' m'') :
    m.Reaches (t'.after t) m'' :=
  ⟨h.quietly.trans h'.quietly, h.retains.trans hm.whole h'.retains⟩

theorem Reaches.exhausts (h : m.Reaches t m') (h' : m'.Exhausts) : m.Exhausts := by
  obtain ⟨m₁, e, m₂, hquietly, hfails⟩ := h'
  exact ⟨m₁, e, m₂, h.quietly.trans hquietly, hfails⟩

def fetched (m : Machine) (next : Nat) : Machine :=
  { m with clock := m.clock + 1, start := m.pc, pc := next }

theorem Ready.fetched (h : m.Ready) (hnext : next < 0x1000000000000000) :
    (m.fetched next).Ready :=
  ⟨⟨⟨h.intact.whole, h.intact.held⟩, h.process, h.processSlots, h.contextSlots, h.apart, h.method,
    h.literals, h.code,
    hnext, h.epoch, h.unanswered⟩, ⟨h.recalls.1, h.recalls.2⟩, h.kinds, h.inContext, h.inProcess,
    h.running, h.calm⟩

theorem Stands.fetched (h : m.Stands code constants w stack) (hnext : next < 0x1000000000000000) :
    (m.fetched next).Stands code constants { w with pc := next } stack :=
  ⟨⟨h.works.ready.fetched hnext, h.works.hosts, rfl, h.works.accumulator, h.works.registers⟩,
    h.short, h.occupied, h.awaits, h.apart⟩

variable {v : Value}

/-- A turn of a machine whose instruction delivers. -/
theorem Stands.executes (h : m.Stands code constants w stack)
    (hdecode : Code.decodeAt code w.pc = .ok (i, next))
    (hexecute : execute i (m.fetched next) = .ok () m') (hrunning : m'.stop = none) :
    m.TakesTurn i m' := by
  have hhere : Code.decodeAt m.code m.pc = .ok (i, next) := by
    rw [h.works.code_eq, h.works.pc, hdecode]
  refine ⟨⟨next, hhere⟩, ?_⟩
  rw [step_executed h.works.ready.calm hhere hexecute, hrunning]

/-- A turn of a machine whose instruction fails. -/
theorem Stands.fails (h : m.Stands code constants w stack)
    (hdecode : Code.decodeAt code w.pc = .ok (i, next)) {cause : RuntimeError}
    (hexecute : execute i (m.fetched next) = .error (.failure cause) m') :
    step .never m = .error (.failure cause) m' := by
  have hhere : Code.decodeAt m.code m.pc = .ok (i, next) := by
    rw [h.works.code_eq, h.works.pc, hdecode]
  have htick : tick .never m = .ok () { m with clock := m.clock + 1 } := rfl
  rw [step, bind_of_eq_ok htick, get_bind]
  simp only [h.works.ready.calm, Bool.false_eq_true, if_false]
  rw [get_bind, hhere]
  dsimp only
  rw [modify_bind]
  exact bind_of_eq_error hexecute

theorem not_invokesBlock (hcall : call? i = none) : ¬InvokesBlock i := by
  rintro ⟨index, act, hsome, -⟩
  cases hsome.symm.trans hcall

/-- The window of the innermost activation goes on for a turn. -/
theorem Stands.turns (h : m.Stands code constants w stack) {r : Routine} (hr : m.Suits r constants)
    (hdecode : Code.decodeAt code w.pc = .ok (i, next)) (hnext : next < 0x1000000000000000)
    (hi : { w with pc := next }.execute r i = some w') (hpc : w'.pc < 0x1000000000000000) :
    ∃ m', m.Reaches (.still m.image.heap) m' ∧ m'.context = m.context ∧
      m'.Stands code constants w' stack := by
  obtain ⟨m', hexecute, hretains, hcontext, hstands⟩ := (h.fetched hnext).continued (r := r)
    ⟨hr.constants, hr.yes, hr.no, hr.yes_ne, hr.no_ne⟩ hi hpc
  refine ⟨m', ⟨.single ⟨i, not_invokesBlock (call?_of_window hi), ?_⟩, hretains.mono ?_⟩, hcontext,
    hstands⟩
  · exact h.executes hdecode hexecute hstands.works.ready.running
  · rintro ⟨_, _⟩ ⟨rfl, hindex⟩
    exact ⟨hindex, fun hinert => hinert.context h.works.ready.inContext⟩

theorem Suits.still {r : Routine} {written : Cell → Prop} (hr : m.Suits r constants)
    (hm' : m.image.Retains written (.still m.image.heap) m'.image) : m'.Suits r constants :=
  ⟨hr.constants, (hm'.known .trueObject).1.trans hr.yes, (hm'.known .falseObject).1.trans hr.no,
    hr.yes_ne, hr.no_ne⟩

theorem decodeAt_of_at {r : Routine} {pc : Nat} (hat : r.At pc [i]) :
    Code.decodeAt (encodeAll r.code).toArray pc = .ok (i, pc + i.length) := by
  obtain ⟨pre, post, hcode, rfl⟩ := hat
  rw [hcode, List.append_assoc, List.singleton_append, Code.decodeAt_append]

/-- What the window of the innermost activation goes through, the machine goes through. -/
theorem Stands.path {r : Routine} (h : m.Stands (encodeAll r.code).toArray constants w stack)
    (hr : m.Suits r constants) (hshort : codeLength r.code < 0x1000000000000000)
    (hpath : r.Path w w') (hend : w'.pc ≤ codeLength r.code) :
    ∃ m', m.Reaches (.still m.image.heap) m' ∧ m'.context = m.context ∧
      m'.Stands (encodeAll r.code).toArray constants w' stack := by
  induction hpath using Relation.ReflTransGen.head_induction_on generalizing m with
  | refl => exact ⟨m, .refl h.works.ready.intact, rfl, h⟩
  | @head w w₁ hturn hrest ih =>
    obtain ⟨i, hat, hi⟩ := hturn
    have hnext : w.pc + i.length ≤ codeLength r.code := by simpa [codeLength] using hat.le
    have hpc : w₁.pc ≤ codeLength r.code := by
      rcases hrest.cases_head with rfl | ⟨w₂, ⟨i', hat', -⟩, -⟩
      · exact hend
      · exact (Nat.le_add_right _ _).trans hat'.le
    obtain ⟨m₁, hreaches, hcontext, hstands⟩ := h.turns hr (decodeAt_of_at hat) (by omega) hi
      (by omega)
    obtain ⟨m', hreaches', hcontext', hstands'⟩ := ih hstands (hr.still hreaches.retains)
    have hsame := hreaches.retains.heap.still_after_still
    exact ⟨m', hsame ▸ hreaches.trans h.works.ready.intact hreaches', hcontext'.trans hcontext,
      hstands'⟩

variable {selector index first count : UInt8} {regs : ArgRegisters} {name block : Value}
  {k : KernelClass}

/-- A send of a message that is understood puts its method on top, unless there is no room. -/
theorem Stands.sends (h : m.Stands code constants w stack)
    (hdecode : Code.decodeAt code w.pc = .ok (.send selector regs, next))
    (hnext : next < 0x1000000000000000)
    (hname : m.image.heap.Holds ⟨m.literals, selector.toNat⟩ name)
    (hliterals : m.image.Inert m.literals ∨ selector.toNat < 3)
    (hargs : Picks w.registers regs.regs values)
    (hclass : m.image.classOf w.accumulator = .ok (m.image.kernelClass k))
    (hprovides : m.image.Provides k name tm mconstants) (hmlength : mconstants.length ≤ 3)
    (hsmall : tm.args + tm.temps + tm.heapVars + tm.stack < 0x10000000)
    (hcount : values.length = tm.args) :
    m.Exhausts ∨ ∃ t m' stack', m.Reaches t m' ∧
      List.Forall₂ (Suspension.Moves t) ((h.fetched hnext).here :: stack) stack' ∧
      ∃ mconstants' values' receiver accumulator, List.Forall₂ t mconstants mconstants' ∧
        List.Forall₂ t values values' ∧ t w.accumulator receiver ∧
        m'.Stands tm.bytecode mconstants' ⟨0, accumulator,
          receiver :: values' ++ List.replicate (tm.temps + tm.stack) .nil⟩ stack' := by
  rcases (h.fetched hnext).works.sends h.short hname hliterals hargs hclass hprovides hmlength
    hsmall hcount with ⟨e, m', hfull⟩ | ⟨t, receiver, m', hexecute, hreceiver, hcalled⟩
  · exact .inl ⟨m, e, m', .refl, h.fails hdecode hfull⟩
  · obtain ⟨stack', hmoves, mconstants', values', accumulator, hmm, hvv, -, hstands⟩ :=
      (h.fetched hnext).called hcalled hmlength
    refine .inr ⟨t, m', stack', ⟨.single ⟨.send selector regs, not_invokesBlock rfl, ?_⟩, ?_⟩,
      hmoves, mconstants', values', receiver, accumulator, hmm, hvv, hreceiver, hstands⟩
    · exact h.executes hdecode hexecute hstands.works.ready.running
    · exact hcalled.engages.retains.mono (h.fetched hnext).works.ready.transient

/-- The invocation of a block puts it on top, unless there is no room. -/
theorem Stands.invokes (h : m.Stands code constants w stack)
    (hdecode : Code.decodeAt code w.pc = .ok (.primitiveV index first count, next))
    (hnext : next < 0x1000000000000000)
    (hprim : Primitive.ofIndex? index.toNat = some .blockInvoke)
    (hargs : Picks w.registers (registerRun first count) (block :: values))
    (hclosure : m.image.Closure block tm)
    (hsmall : tm.args + tm.temps + tm.heapVars + tm.stack < 0x10000000)
    (hcount : values.length = tm.args) :
    m.Exhausts ∨ ∃ t m' stack', (∃ i, InvokesBlock i ∧ m.TakesTurn i m') ∧
      m.image.Retains m.image.Transient t m'.image ∧
      List.Forall₂ (Suspension.Moves t) ((h.fetched hnext).here :: stack) stack' ∧
      (∃ block', t block block' ∧
        m'.image.heap.Holds ⟨m'.context, Slot.Context.method⟩ block') ∧
      ∃ values' receiver accumulator, List.Forall₂ t values values' ∧
        m'.Stands tm.bytecode [] ⟨0, accumulator,
          receiver :: values' ++ List.replicate (tm.temps + tm.stack) .nil⟩ stack' := by
  rcases (h.fetched hnext).works.invokes h.short hprim hargs hclosure hsmall hcount with
    ⟨e, m', hfull⟩ | ⟨t, receiver, m', hexecute, hcalled, hblock⟩
  · exact .inl ⟨m, e, m', .refl, h.fails hdecode hfull⟩
  · obtain ⟨stack', hmoves, _, values', accumulator, hnil, hvv, -, hstands⟩ :=
      (h.fetched hnext).called hcalled (Nat.zero_le _)
    cases hnil
    refine .inr ⟨t, m', stack', ⟨.primitiveV index first count, ⟨_, _, rfl, hprim⟩, ?_⟩, ?_, hmoves,
      hblock, values', receiver, accumulator, hvv, hstands⟩
    · exact h.executes hdecode hexecute hstands.works.ready.running
    · exact hcalled.engages.retains.mono (h.fetched hnext).works.ready.transient

/-- A return takes the activation off. -/
theorem Stands.returns {s : Suspension} {v : Value} (h : m.Stands code constants w (s :: stack))
    (hdecode : Code.decodeAt code w.pc = .ok (i, next)) (hnext : next < 0x1000000000000000)
    (hi : i = .return_ ∧ w.accumulator = v ∨ i = .returnSelf ∧ w.registers[0]? = some v) :
    ∃ m', m.Reaches (.still m.image.heap) m' ∧ m'.context = s.context ∧
      m'.Stands s.code s.constants ⟨s.pc, v, s.registers⟩ stack := by
  obtain ⟨m', hexecute, hretains, hcontext, hstands⟩ := (h.fetched hnext).returned hi
  refine ⟨m', ⟨.single ⟨i, not_invokesBlock ?_, ?_⟩, hretains.mono ?_⟩, hcontext, hstands⟩
  · rcases hi with ⟨rfl, -⟩ | ⟨rfl, -⟩ <;> rfl
  · exact h.executes hdecode hexecute hstands.works.ready.running
  · rintro c rfl
    exact ⟨Nat.le_refl _, fun hinert => hinert.context h.works.ready.inContext⟩

end Turns

section Resumptions

def Waits (m : Machine) (c : Value) : Prop :=
  Relation.TransGen (fun d c => m.image.heap.Holds ⟨d, Slot.Context.previous⟩ c) m.context c

/-- A machine is back in the activation that waits for that in which another machine is, by
whatever way. The activations that wait are as they were, and so is the code of blocks and what
blocks understand; everything else may have changed. -/
structure ComesBack (m : Machine) (t : Track) (m' : Machine) : Prop where
  ready : m'.Ready
  retains : m.image.Retains (fun c => ¬m.Waits c.object) t m'.image
  caller : ∃ c, m.image.heap.Holds ⟨m.context, Slot.Context.previous⟩ c ∧ t c m'.context
  position : m'.image.heap.Holds ⟨m'.context, Slot.Context.pc⟩ (.ofNat m'.pc)
  hosts : ∀ {c x code constants}, m.Waits c → t c x → constants.length ≤ 3 →
    m.image.heap.Hosts c code constants →
    ∃ constants', List.Forall₂ t constants constants' ∧ m'.image.heap.Hosts x code constants'
  understands : ∀ {v x tm constants}, t v x → constants.length ≤ 3 →
    m.image.Provides .block v tm constants →
    ∃ constants', List.Forall₂ t constants constants' ∧ m'.image.Provides .block x tm constants'
  closures : ∀ {v x tm}, t v x → m.image.Closure v tm → m'.image.Closure x tm

variable {c x : Value}

theorem ComesBack.suspends (h : m.ComesBack t m') (whole : m.image.heap.Whole) (hc : m.Waits c)
    (hx : t c x) (hlength : constants.length ≤ 3) {registers : List Value} {pc : Nat}
    (hs : m.image.Suspends c code constants pc registers) :
    ∃ constants' registers', List.Forall₂ t constants constants' ∧
      List.Forall₂ t registers registers' ∧
      m'.image.Suspends x code constants' pc registers' := by
  have hfree : ∀ k, ¬¬m.Waits (Cell.mk c k).object := fun _ hnot => hnot hc
  obtain ⟨constants', hcc, hhosts⟩ := h.hosts hc hx hlength hs.hosts
  obtain ⟨registers', hrr, hrow⟩ := h.retains.heap.row hx (fun k _ => hfree _) hs.registers
  exact ⟨constants', registers', hcc, hrr, (h.retains.instance_iff whole hx).mpr hs.context,
    hhosts, h.retains.heap.ofNat hx hs.position (hfree _), hrow⟩

theorem ComesBack.awaits (h : m.ComesBack t m') (whole : m.image.heap.Whole) (hc : m.Waits c)
    (hx : t c x) (hawaits : m.image.Awaits c stack) :
    ∃ stack', List.Forall₂ (Suspension.Moves t) stack stack' ∧ m'.image.Awaits x stack' := by
  induction hawaits generalizing x with
  | nil => exact ⟨[], .nil, .nil⟩
  | @cons c s stack hcaller hs _ ih =>
    obtain ⟨y, hy, hsy⟩ := h.retains.heap.kept hx hcaller fun hnot => hnot hc
    have hwaits : m.Waits s.context := hc.tail hcaller
    obtain ⟨constants', registers', hcc, hrr, hs'⟩ := h.suspends whole hwaits hsy s.short hs
    obtain ⟨stack', hmoves, hawaits⟩ := ih hwaits hsy
    exact ⟨⟨y, s.code, constants', s.pc, registers', hcc.length_eq ▸ s.short, s.position,
      occupied_of_length s.occupied hrr.length_eq.symm⟩ :: stack',
      .cons ⟨hsy, rfl, hcc, rfl, hrr⟩ hmoves, .cons hy hs' hawaits⟩

theorem Stands.resumed {s : Suspension} (h : m.Stands code constants w (s :: stack))
    (hr : m.ComesBack t m') : ∃ s' stack', s.Moves t s' ∧
      List.Forall₂ (Suspension.Moves t) stack stack' ∧
      m'.Stands s'.code s'.constants ⟨s'.pc, m'.accumulator, s'.registers⟩ stack' := by
  have whole := h.works.ready.intact.whole
  obtain ⟨c, hc, hx⟩ := hr.caller
  cases h.awaits with
  | cons hcaller hs hawaits =>
  obtain rfl := hc.unique hcaller
  have hwaits : m.Waits s.context := .single hcaller
  obtain ⟨constants', registers', hcc, hrr, hs'⟩ := hr.suspends whole hwaits hx s.short hs
  obtain ⟨stack', hmoves, hawaits'⟩ := hr.awaits whole hwaits hx hawaits
  have hpc : m'.pc = s.pc := by
    have hcount := congrArg Value.toNat? (hr.position.unique hs'.position)
    rw [Value.toNat?_ofNat hr.ready.position, Value.toNat?_ofNat s.position] at hcount
    exact Option.some.inj hcount
  have hnodup := hr.retains.heap.nodup
    (.cons hx (Suspension.contexts_of_moves hmoves)) (List.nodup_cons.mp h.apart).2
  refine ⟨⟨m'.context, s.code, constants', s.pc, registers', hcc.length_eq ▸ s.short, s.position,
    occupied_of_length s.occupied hrr.length_eq.symm⟩, stack', ⟨hx, rfl, hcc, rfl, hrr⟩, hmoves, ?_⟩
  exact ⟨⟨hr.ready, hs'.hosts, hpc, rfl, hs'.registers⟩, hcc.length_eq ▸ s.short,
    occupied_of_length s.occupied hrr.length_eq.symm, hawaits', hnodup⟩

/-- One way to come back is a return, if the context does not wait for itself. -/
theorem Stands.comesBack {s : Suspension} {v : Value} (h : m.Stands code constants w (s :: stack))
    (hdecode : Code.decodeAt code w.pc = .ok (i, next)) (hnext : next < 0x1000000000000000)
    (hi : i = .return_ ∧ w.accumulator = v ∨ i = .returnSelf ∧ w.registers[0]? = some v)
    (hcycle : ¬m.Waits m.context) :
    ∃ m', m.TakesTurn i m' ∧ m.ComesBack (.still m.image.heap) m' ∧ m'.accumulator = v := by
  obtain ⟨m', hexecute, hretains, hcontext, hstands⟩ := (h.fetched hnext).returned hi
  have hretains : m.image.Retains (· = ⟨m.context, Slot.Context.pc⟩) (.still m.image.heap)
    m'.image := hretains
  have whole := h.works.ready.intact.whole
  have hready := hstands.works.ready
  have htransient := hretains.mono (w := m.image.Transient) (by
    rintro c rfl
    exact ⟨Nat.le_refl _, fun hinert => hinert.context h.works.ready.inContext⟩)
  refine ⟨m', h.executes hdecode hexecute hready.running, ⟨hready, hretains.mono ?_, ?_, ?_, ?_,
    fun hv hlength => htransient.provides whole hv hlength,
    fun hv => htransient.closure whole h.works.ready.kinds hv⟩, hstands.works.accumulator⟩
  · rintro c rfl
    exact hcycle
  · cases h.awaits with
    | cons hcaller hs => exact ⟨_, hcaller, hcontext, hs.context.sane⟩
  · cases h.awaits with
    | cons hcaller hs =>
      rw [hcontext, hstands.works.pc]
      exact hretains.heap.ofNat ⟨rfl, hs.context.sane⟩ hs.position
        fun hcell => h.apart_of_mem (.head _) (congrArg Cell.object hcell)
  · intro c x code constants _ hx hlength hhosts
    exact htransient.heap.hosts hx (fun _ _ => Image.Transient.low) hlength hhosts

end Resumptions

end Machine

end ObjectMachine
