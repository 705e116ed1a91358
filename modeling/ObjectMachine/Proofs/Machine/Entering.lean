import ObjectMachine.Proofs.Machine.Performance

namespace ObjectMachine.Machine

variable {m m' : Machine}

section Staying

variable {α β : Type} {R : Machine → Machine → Prop}

/-- A relation between machines that holds whenever neither the context nor the position nor the
interrupts change, and nothing ends the run but the process itself. -/
class Undisturbed (R : Machine → Machine → Prop) : Prop where
  refl (m : Machine) : R m m
  trans {m m' m'' : Machine} : R m m' → R m' m'' → R m m''
  image (m : Machine) (image : Image) : R m { m with image }
  schedule (m : Machine) (schedule : Schedule) : R m { m with schedule }
  accumulator (m : Machine) (accumulator : Value) : R m { m with accumulator }
  stop (m : Machine) {outcome : RunOutcome} : outcome = .yielded ∨ outcome = .suspended →
    R m { m with stop := some outcome }

class Steady (R : Machine → Machine → Prop) : Prop extends Undisturbed R where
  interrupts (m : Machine) (interrupts : Interrupts) : R m { m with interrupts }

/-- A relation that also holds when the position changes. -/
class Passive (R : Machine → Machine → Prop) : Prop extends Steady R where
  pc (m : Machine) (pc : Nat) : R m { m with pc }

theorem Passive.of_jumped [Passive R] {pc : Nat} (h : m' = m ∨ m' = { m with pc }) : R m m' := by
  rcases h with rfl | rfl
  · exact Undisturbed.refl _
  · exact Passive.pc _ _

def InPlace (m m' : Machine) : Prop := m'.context = m.context

instance : Passive InPlace where
  refl _ := rfl
  trans h h' := Eq.trans h' h
  image _ _ := rfl
  schedule _ _ := rfl
  interrupts _ _ := rfl
  accumulator _ _ := rfl
  pc _ _ := rfl
  stop _ _ _ := rfl

def Undone (m m' : Machine) : Prop := m'.stop = m.stop ∨ ∀ v, m'.stop ≠ some (.returned v)

instance : Passive Undone where
  refl _ := .inl rfl
  trans h h' := by
    rcases h' with h' | h'
    · rwa [Undone, h']
    · exact .inr h'
  image _ _ := .inl rfl
  schedule _ _ := .inl rfl
  interrupts _ _ := .inl rfl
  accumulator _ _ := .inl rfl
  pc _ _ := .inl rfl
  stop _ _ houtcome := .inr fun v heq => by
    rcases houtcome with rfl | rfl <;> cases heq

/-- A step that, if it delivers, keeps to a relation. -/
def Stays (R : Machine → Machine → Prop) (act : MachineAction α) : Prop :=
  ∀ m a m', act m = .ok a m' → R m m'

namespace Stays

variable [Undisturbed R]

theorem pure (a : α) : Stays R (Pure.pure a : MachineAction α) := by
  intro m a m' heq
  obtain ⟨-, rfl⟩ := pure_eq_ok.mp heq
  exact Undisturbed.refl _

theorem get : Stays R (get : MachineAction Machine) := by
  intro m a m' heq
  obtain ⟨-, rfl⟩ := get_eq_ok.mp heq
  exact Undisturbed.refl _

omit [Undisturbed R] in
theorem fault (f : Fault) : Stays R (Action.fault f : MachineAction α) :=
  fun _ _ _ heq => nomatch fault_eq_ok.mp heq

theorem query (f : Machine → Except Fault α) : Stays R (Action.query f : MachineAction α) := by
  intro m a m' heq
  obtain ⟨-, rfl⟩ := query_eq_ok heq
  exact Undisturbed.refl _

omit [Undisturbed R] in
theorem modify {f : Machine → Machine} (hf : ∀ m, R m (f m)) :
    Stays R (modify f : MachineAction PUnit) := by
  intro m a m' heq
  obtain rfl := modify_eq_ok.mp heq
  exact hf m

theorem bind {act : MachineAction α} {next : α → MachineAction β} (hact : Stays R act)
    (hnext : ∀ a, Stays R (next a)) : Stays R (act >>= next) := by
  intro m b m' heq
  obtain ⟨a, m₁, hfirst, hlater⟩ := bind_eq_ok.mp heq
  exact Undisturbed.trans (hact m a m₁ hfirst) (hnext a m₁ b m' hlater)

theorem onImage (act : ImageAction α) : Stays R (Machine.onImage act) := by
  intro m a m' heq
  obtain ⟨image, -, rfl⟩ := onImage_eq_ok heq
  exact Undisturbed.image _ _

theorem onSchedule (act : Schedule → ImageAction (α × Schedule)) :
    Stays R (Machine.onSchedule act) :=
  .bind .get fun _ => .bind (.onImage _) fun _ =>
    .bind (.modify fun _ => Undisturbed.schedule _ _) fun _ => .pure _

omit [Undisturbed R] in
theorem ite {c : Prop} [Decidable c] {act act' : MachineAction α} (hact : Stays R act)
    (hact' : Stays R act') : Stays R (if c then act else act') := by
  split
  · exact hact
  · exact hact'

end Stays

variable [Undisturbed R]

theorem setAccumulator_stays (v : Value) : Stays R (setAccumulator v) :=
  .modify fun _ => Undisturbed.accumulator _ _

theorem request_stays {outcome : RunOutcome}
    (houtcome : outcome = .yielded ∨ outcome = .suspended) :
    Stays R (request outcome) := .modify fun _ => Undisturbed.stop _ houtcome

theorem setSlot_stays (v : Value) (i : Nat) (x : Value) : Stays R (setSlot v i x) := .onImage _

theorem firstArg_stays (args : List Value) : Stays R (firstArg args) := by
  cases args with
  | nil => exact .fault _
  | cons v rest => exact .pure v

theorem restoreLeading_stays (context : Value) (code : List (Nat × Instruction)) :
    Stays R (restoreLeading context code) := by
  fun_induction restoreLeading context code with
  | case1 _ _ _ _ ih =>
    refine .bind (.bind (.query _) fun _ => .bind (.query _) fun _ => ?_) fun _ => ih
    exact .bind (.query _) fun _ => setSlot_stays _ _ _
  | case2 => exact .pure _

theorem unwindAll_stays (contexts : List Value) : Stays R (unwindAll contexts) := by
  induction contexts with
  | nil => exact .pure _
  | cons context rest ih =>
    refine .bind ?_ fun _ => .bind (setSlot_stays _ _ _) fun _ => ih
    refine .bind (.query _) fun _ => .bind .get fun _ => .bind (.query _) fun _ => .ite ?_ (.pure _)
    exact .bind (.query _) fun _ => .bind (.query _) fun _ => restoreLeading_stays _ _

def latches : Primitive → Bool
  | .disableInterrupts | .enableInterrupts => true
  | _ => false

/-- The primitives that neither switch contexts nor disable or enable interrupts. -/
theorem runPrimitive_undisturbed {prim : Primitive} (hprim : prim.switchesContext = false)
    (hlatch : latches prim = false) (args : List Value) : Stays R (runPrimitive prim args) := by
  unfold runPrimitive
  split
  case h_1 | h_7 | h_8 | h_9 | h_10 | h_11 | h_12 | h_37 => exact .bind .get fun _ => .pure _
  case h_2 | h_3 | h_4 | h_5 | h_6 => exact .query _
  case h_43 => exact .pure _
  case h_13 | h_20 => exact .bind (firstArg_stays _) fun _ => .query _
  case h_14 => exact .bind (firstArg_stays _) fun _ => .bind (.query _) fun _ => .pure _
  case h_15 | h_16 =>
    exact .bind (firstArg_stays _) fun _ => .bind (.query _) fun _ => .onImage _
  case h_17 =>
    exact .bind (firstArg_stays _) fun _ => .bind (.query _) fun _ =>
      .bind (.modify fun _ => Undisturbed.image _ _) fun _ => .pure _
  case h_18 =>
    exact .bind (firstArg_stays _) fun _ => .bind (.query _) fun _ => .ite (.pure _)
      (.bind (.query _) fun _ => .onImage _)
  case h_19 cls size =>
    rw [arrayNew]
    split
    · exact .pure _
    · exact .bind (.query _) fun _ => .ite (.pure _) (.bind .get fun _ => .ite (.pure _)
        (.onImage _))
  case h_21 | h_24 | h_28 => exact .query _
  case h_22 =>
    refine .bind (.query _) fun shape => ?_
    split
    · refine .bind (.query _) fun size => ?_
      split
      · exact .bind (setSlot_stays _ _ _) fun _ => .pure _
      · exact .pure _
    · exact .pure _
  case h_23 =>
    refine .bind (.query _) fun texts => ?_
    split
    · exact .onImage _
    · exact .pure _
  case h_25 | h_26 =>
    refine .bind (firstArg_stays _) fun v => .bind (.query _) fun text => ?_
    split
    · exact .onImage _
    · exact .pure _
  case h_27 =>
    exact .bind (firstArg_stays _) fun v => .bind (.query _) fun _ => .ite (.onImage _) (.pure _)
  case h_29 =>
    exact .bind (.query _) fun _ => .ite (.bind .get fun _ => .bind (.onImage _) fun _ => .pure _)
      (.pure _)
  case h_30 | h_31 | h_32 | h_33 | h_34 | h_35 => cases hprim
  case h_36 =>
    refine .bind (.query _) fun _ => .ite (.pure _) (.bind (.onImage _) fun context => ?_)
    split
    · exact .pure _
    · exact .onSchedule _
  case h_38 => exact .bind (request_stays (.inl rfl)) fun _ => .pure _
  case h_39 =>
    refine .bind (firstArg_stays _) fun _ => .bind (.query _) fun _ => .ite (.pure _) ?_
    refine .bind .get fun _ => .ite ?_ ?_
    · exact .bind (request_stays (.inr rfl)) fun _ => .pure _
    · exact .bind (.onSchedule _) fun _ => .pure _
  case h_40 =>
    refine .bind (firstArg_stays _) fun _ => .bind (.query _) fun _ => .ite (.pure _) ?_
    exact .bind (.onSchedule _) fun _ => .pure _
  case h_41 | h_42 => cases hlatch

omit [Undisturbed R] in
theorem runPrimitive_stays [Steady R] {prim : Primitive} (hprim : prim.switchesContext = false)
    (args : List Value) : Stays R (runPrimitive prim args) := by
  cases hlatch : latches prim with
  | false => exact runPrimitive_undisturbed hprim hlatch args
  | true =>
    cases prim with
    | disableInterrupts | enableInterrupts =>
      exact .bind (.modify fun _ => Steady.interrupts _ _) fun _ => .pure _
    | _ => cases hlatch

end Staying

def Live (m : Machine) : Prop := ¬m.image.heap.Holds ⟨m.context, Slot.Context.pc⟩ .nil

def Proceeds (m m' : Machine) : Prop := m.InPlace m' ∨ ¬Sane m m'.context ∨ m'.Live

section Entering

theorem newContext_fresh {code receiver previous parent ctx : Value} {args : List Value}
    {home : Option Value} {i i' : Image} (hi : Intact i)
    (heq : Image.newContext code receiver args previous parent home i = .ok ctx i') :
    ¬Sane i ctx := by
  obtain ⟨shape, i₁, hshape, hmake⟩ := bind_eq_ok.mp heq
  obtain ⟨-, rfl⟩ := query_eq_ok hshape
  obtain ⟨_, _, hget, hmake⟩ := bind_eq_ok.mp hmake
  cases hget
  obtain ⟨object, i₂, hallocate, hfill⟩ := bind_eq_ok.mp hmake
  obtain ⟨heap, hallocate', -⟩ := Image.onHeap_eq_ok.mp hallocate
  have hfresh : ¬i₁.heap.arenas.Sane object := by
    have hgrown : Grown (fun _ _ => False) (fun _ => True) i₁.heap i₁.heap :=
      Intact.grown ⟨hi.whole, fun _ hmem => nomatch hmem⟩
    have hknown : ∀ v ∈ i₁.values, Sane i₁.heap v := hi.held
    exact Heap.allocatePointers_fresh (trusted_of_mem (i₁.kernelClass_mem_values _)) _ hgrown hknown
      hallocate'
  -- Whatever it is filled with, it is the object that was made.
  have hsame : ctx = object := by
    rcases ite_eq_ok.mp hfill with ⟨-, hfill⟩ | ⟨-, hfill⟩
    all_goals
      obtain ⟨_, _, -, hfill⟩ := bind_eq_ok.mp hfill
      obtain ⟨_, _, -, hfill⟩ := bind_eq_ok.mp hfill
      obtain ⟨_, _, -, hfill⟩ := bind_eq_ok.mp hfill
      exact (pure_eq_ok.mp hfill).1.symm
  rwa [hsame]

theorem loadFrame_context {u : Unit} (heq : loadFrame m = .ok u m') : m'.context = m.context := by
  obtain ⟨_, _, _, _, _, _, -, -, rfl⟩ := loadFrame_eq_ok heq
  rfl

theorem activate_fresh {code receiver parent : Value} {args : List Value} {home : Option Value}
    {u : Unit} (hm : Intact m) (heq : activate code receiver args parent home m = .ok u m') :
    ¬Sane m m'.context := by
  rw [activate, get_bind] at heq
  obtain ⟨_, m₁, hset, hmake⟩ := bind_eq_ok.mp heq
  obtain ⟨context, m₂, hmake, henter⟩ := bind_eq_ok.mp hmake
  obtain ⟨_, m₃, henter, hload⟩ := bind_eq_ok.mp henter
  have hsettled : Settled m (setSlot m.context Slot.Context.pc (.ofNat m.pc) m) := by
    have hstable : Stable [m.context] (setSlot m.context Slot.Context.pc (.ofNat m.pc)) :=
      setSlot_stable (by simp) _ (by simp)
    exact hstable m hm (by simpa using hm.held m.context (by simp))
  rw [hset] at hsettled
  obtain ⟨image, hmade, rfl⟩ := onImage_eq_ok hmake
  obtain rfl := modify_eq_ok.mp henter
  intro hsane
  rw [loadFrame_context hload] at hsane
  exact newContext_fresh (intact_image hsettled.1) hmade (hsettled.2.1.sane hsane)

theorem dispatch_fresh {selector receiver cls : Value} {args : List Value} {u : Unit}
    (hm : Intact m) (heq : dispatch selector receiver args cls m = .ok u m') :
    ¬Sane m m'.context := by
  obtain ⟨found, -, hfollow⟩ := query_bind_eq_ok.mp heq
  cases found with
  | none =>
    obtain ⟨_, _, -, hfollow⟩ := bind_eq_ok.mp hfollow
    obtain ⟨_, _, -, hfollow⟩ := bind_eq_ok.mp hfollow
    obtain ⟨_, _, -, hfollow⟩ := bind_eq_ok.mp hfollow
    exact nomatch fail_eq_ok.mp hfollow
  | some found => exact activate_fresh hm hfollow

/-- A context that has returned is not continued. -/
theorem continueIn_live {target value : Value} {u : Unit}
    (heq : continueIn target value m = .ok u m') : m.InPlace m' ∨ m'.Live := by
  obtain ⟨_, m₁, hset, hgo⟩ := bind_eq_ok.mp heq
  obtain rfl := modify_eq_ok.mp hset
  rcases ite_eq_ok.mp hgo with ⟨-, hgo⟩ | ⟨-, hgo⟩
  · obtain rfl := modify_eq_ok.mp hgo
    exact .inl rfl
  · obtain ⟨pc, hpc, hgo⟩ := query_bind_eq_ok.mp hgo
    rcases ite_eq_ok.mp hgo with ⟨-, hgo⟩ | ⟨hlive, hgo⟩
    · obtain ⟨_, _, -, hgo⟩ := bind_eq_ok.mp hgo
      obtain ⟨_, _, hgo, -⟩ := bind_eq_ok.mp hgo
      exact nomatch fail_eq_ok.mp hgo
    · obtain ⟨_, m₃, henter, hload⟩ := bind_eq_ok.mp hgo
      obtain rfl := modify_eq_ok.mp henter
      refine .inr fun hdead => hlive ?_
      obtain ⟨_, _, _, _, _, _, -, -, rfl⟩ := loadFrame_eq_ok hload
      rw [Except.ok.inj (hpc.symm.trans hdead.slot)]
      rfl

theorem returnValue_live {value : Value} {u : Unit} (heq : returnValue value m = .ok u m') :
    m.InPlace m' ∨ m'.Live := by
  rw [returnValue, get_bind] at heq
  obtain ⟨_, m₁, hset, hgo⟩ := bind_eq_ok.mp heq
  obtain ⟨previous, -, hgo⟩ := query_bind_eq_ok.mp hgo
  have hsame : m.InPlace m₁ := setSlot_stays _ _ _ _ _ _ hset
  exact (continueIn_live hgo).imp_left (Undisturbed.trans hsame)

theorem returnInto_live {target value : Value} {u : Unit}
    (heq : returnInto target value m = .ok u m') : m.InPlace m' ∨ m'.Live := by
  obtain ⟨isContext, -, hgo⟩ := query_bind_eq_ok.mp heq
  rcases ite_eq_ok.mp hgo with ⟨-, hgo⟩ | ⟨-, hgo⟩
  · exact .inl (setAccumulator_stays _ _ _ _ hgo)
  · exact continueIn_live hgo

theorem nonLocalReturn_live {source value : Value} {u : Unit}
    (heq : nonLocalReturn source value m = .ok u m') : m.InPlace m' ∨ m'.Live := by
  obtain ⟨isContext, -, hgo⟩ := query_bind_eq_ok.mp heq
  rcases ite_eq_ok.mp hgo with ⟨-, hgo⟩ | ⟨-, hgo⟩
  · exact .inl (setAccumulator_stays _ _ _ _ hgo)
  obtain ⟨home, -, hgo⟩ := query_bind_eq_ok.mp hgo
  obtain ⟨-, hgo⟩ := check_eq_ok hgo
  obtain ⟨pc, -, hgo⟩ := query_bind_eq_ok.mp hgo
  obtain ⟨-, hgo⟩ := check_eq_ok hgo
  obtain ⟨chain, -, hgo⟩ := query_bind_eq_ok.mp hgo
  cases chain with
  | none =>
    obtain ⟨_, _, -, hgo⟩ := bind_eq_ok.mp hgo
    exact nomatch fail_eq_ok.mp hgo
  | some contexts =>
    obtain ⟨_, m₅, hunwind, hgo⟩ := bind_eq_ok.mp hgo
    obtain ⟨previous, -, hgo⟩ := query_bind_eq_ok.mp hgo
    have hsame : m.InPlace m₅ := unwindAll_stays _ _ _ _ hunwind
    exact (continueIn_live hgo).imp_left (Undisturbed.trans hsame)

theorem invokeBlock_proceeds {block : Value} {args : List Value} {u : Unit} (hm : Intact m)
    (heq : invokeBlock block args m = .ok u m') : m.Proceeds m' := by
  obtain ⟨isBlock, -, hgo⟩ := query_bind_eq_ok.mp heq
  rcases ite_eq_ok.mp hgo with ⟨-, hgo⟩ | ⟨-, hgo⟩
  · exact .inl (setAccumulator_stays _ _ _ _ hgo)
  obtain ⟨shape, -, hgo⟩ := query_bind_eq_ok.mp hgo
  rcases ite_eq_ok.mp hgo with ⟨-, hgo⟩ | ⟨-, hgo⟩
  · exact .inl (setAccumulator_stays _ _ _ _ hgo)
  obtain ⟨receiver, -, hgo⟩ := query_bind_eq_ok.mp hgo
  obtain ⟨parent, -, hgo⟩ := query_bind_eq_ok.mp hgo
  obtain ⟨home, -, hgo⟩ := query_bind_eq_ok.mp hgo
  exact .inr (.inl (activate_fresh hm hgo))

theorem runPrimitive_proceeds {prim : Primitive} {args : List Value} {v : Value} (hm : Intact m)
    (heq : runPrimitive prim args m = .ok v m') : m.Proceeds m' := by
  cases hprim : prim.switchesContext with
  | false => exact .inl (runPrimitive_stays hprim args _ _ _ heq)
  | true =>
    have hfirst : ∀ {act : MachineAction Unit}, (act >>= fun _ => pure .nil) m = .ok v m' →
        act m = .ok () m' := by
      intro act hact
      obtain ⟨_, m₁, hdone, hpure⟩ := bind_eq_ok.mp hact
      obtain ⟨-, rfl⟩ := pure_eq_ok.mp hpure
      exact hdone
    unfold runPrimitive at heq
    split at heq
    case h_30 => exact invokeBlock_proceeds hm (hfirst heq)
    case h_31 => exact (nonLocalReturn_live (hfirst heq)).imp_right .inr
    case h_32 => exact (returnInto_live (hfirst heq)).imp_right .inr
    case h_33 | h_34 | h_35 => exact .inl (setAccumulator_stays _ _ _ _ (hfirst heq))
    case h_43 => exact .inl (Stays.pure _ _ _ _ heq)
    all_goals cases hprim

end Entering

section Executing

variable {i : Instruction} {m₁ : Machine}

theorem Pause.of_not_pauses (hp : m.Pause i m₁) (hpauses : ¬m.Pauses i) : m₁ = m := by
  rcases hp with ⟨h, -⟩ | ⟨-, rfl⟩
  · exact absurd h hpauses
  · rfl

/-- What delivers has come past its pause. -/
theorem exists_pause (heq : execute i m = .ok () m') : ∃ m₁, m.Pause i m₁ := by
  by_cases hpauses : m.Pauses i
  swap
  · exact ⟨m, .inr ⟨hpauses, rfl⟩⟩
  have hfirst : ∀ {rest : Unit → MachineAction Unit},
      (safepoint >>= rest) m = .ok () m' → ∃ m₁, m.Pause i m₁ := by
    intro rest heq
    obtain ⟨_, m₁, hsafe, -⟩ := bind_eq_ok.mp heq
    exact ⟨m₁, .inl ⟨hpauses, hsafe⟩⟩
  have hcalls : ∀ {index args}, call? i = some (index, args) →
      Machine.callPrimitive index args m = .ok () m' → ∃ m₁, m.Pause i m₁ := by
    intro index args hcall heq
    rw [Machine.callPrimitive] at heq
    cases hprim : Primitive.ofIndex? index.toNat with
    | none =>
      rw [hprim] at heq
      obtain ⟨_, _, -, hfail⟩ := bind_eq_ok.mp heq
      obtain ⟨_, _, -, hfail⟩ := bind_eq_ok.mp hfail
      cases fail_eq_ok.mp hfail
    | some prim =>
      rw [hprim] at heq
      exact hfirst heq
  cases i with
  | send | sendSuper | copyBlock => exact hfirst heq
  | primitive0 | primitive1 | primitive2 | primitive3 | primitiveV => exact hcalls rfl heq
  | binaryOp reg op =>
    obtain ⟨left, hleft, hundefined⟩ := hpauses
    obtain ⟨left', hleft', hgo⟩ := query_bind_eq_ok.mp heq
    obtain rfl := Except.ok.inj (hleft.symm.trans hleft')
    rw [get_bind, bind_of_eq_ok hundefined] at hgo
    exact hfirst hgo
  | _ =>
    obtain ⟨_, _, hcall, -⟩ := hpauses
    cases hcall

theorem Pause.of_pauses {α : Type} {rest : Unit → MachineAction α} {a : α} (hp : m.Pause i m₁)
    (hpauses : m.Pauses i) (heq : (safepoint >>= rest) m = .ok a m') : rest () m₁ = .ok a m' := by
  rcases hp with ⟨-, hsafe⟩ | ⟨h, -⟩
  · rwa [bind_of_eq_ok hsafe] at heq
  · exact absurd hpauses h

theorem Pause.callPrimitive {index : UInt8} {args : MachineAction (List Value)}
    (hp : m.Pause i m₁) (hcall : call? i = some (index, args))
    (hpauses : m.Pauses i ↔ (Primitive.ofIndex? index.toNat).isSome)
    (hread : ∀ {m m' vs}, args m = .ok vs m' → m' = m)
    (heq : callPrimitive index args m = .ok () m') :
    ∃ prim values result m₂, m₁.Calls i prim values ∧ runPrimitive prim values m₁ = .ok result m₂ ∧
      (if prim.switchesContext then m' = m₂ else m' = { m₂ with accumulator := result }) := by
  rw [Machine.callPrimitive] at heq
  cases hprim : Primitive.ofIndex? index.toNat with
  | none =>
    rw [hprim] at heq
    obtain ⟨_, _, -, hfail⟩ := bind_eq_ok.mp heq
    obtain ⟨_, _, -, hfail⟩ := bind_eq_ok.mp hfail
    cases fail_eq_ok.mp hfail
  | some prim =>
    rw [hprim] at heq
    have hcalled := hp.of_pauses (hpauses.mpr (by rw [hprim]; rfl)) heq
    obtain ⟨values, m₂, hargs, hrun⟩ := bind_eq_ok.mp hcalled
    obtain rfl := hread hargs
    obtain ⟨result, m₃, hrun, hend⟩ := bind_eq_ok.mp hrun
    refine ⟨prim, values, result, m₃, ⟨index, args, hcall, hprim, hargs⟩, hrun, ?_⟩
    cases hswitches : prim.switchesContext with
    | true =>
      rw [hswitches] at hend
      exact (pure_eq_ok.mp hend).2.symm
    | false =>
      rw [hswitches] at hend
      exact (modify_eq_ok.mp hend).symm

inductive Acts (m : Machine) (i : Instruction) (m' : Machine) : Prop where
  | stays : call? i = none → (∀ R [Undisturbed R], R m m') → m.Acts i m'
  | jumps {offset : Int16} : i.offset? = some offset →
    m' = m ∨ m' = { m with pc := jumped m.pc offset } → m.Acts i m'
  | return_ : i = .return_ → returnValue m.accumulator m = .ok () m' → m.Acts i m'
  | returnSelf {v : Value} : i = .returnSelf →
    m.image.heap.slot m.context Slot.Context.registers = .ok v → returnValue v m = .ok () m' →
    m.Acts i m'
  | sends {selector receiver cls : Value} {args : List Value} : call? i = none →
    (Intact m → ∀ v ∈ receiver :: cls :: args, Sane m v) →
    dispatch selector receiver args cls m = .ok () m' → m.Acts i m'
  | calls {prim : Primitive} {args : List Value} {result : Value} {m₂ : Machine} :
    m.Calls i prim args → runPrimitive prim args m = .ok result m₂ →
    (if prim.switchesContext then m' = m₂ else m' = { m₂ with accumulator := result }) →
    m.Acts i m'

theorem send_acts {selector : UInt8} {args : ArgRegisters} {toSuper : Bool} (hp : m.Pause i m₁)
    (hnone : call? i = none) (hpauses : m.Pauses i)
    (heq : send selector args toSuper m = .ok () m') : m₁.Acts i m' := by
  obtain ⟨selector, -, hgo⟩ := query_bind_eq_ok.mp (hp.of_pauses hpauses heq)
  rw [get_bind] at hgo
  obtain ⟨values, m₂, hread, hfind⟩ := bind_eq_ok.mp hgo
  obtain rfl := registers_eq_ok hread
  have hvalues : ∀ {cls}, (Intact m₂ → Sane m₂ cls) → Intact m₂ →
      ∀ v ∈ m₂.accumulator :: cls :: values, Sane m₂ v := by
    intro cls hcls hm v hv
    simp only [List.mem_cons] at hv
    rcases hv with rfl | rfl | hv
    · exact hm.held _ (by simp)
    · exact hcls hm
    · have hstable : Stable [] (registers args.regs) := registers_stable _
      have hend := hstable m₂ hm (by simp)
      rw [hread] at hend
      exact hend.2.2 v (by simpa using hv)
  rcases ite_eq_ok.mp hfind with ⟨-, hfind⟩ | ⟨-, hfind⟩
  · rw [get_bind] at hfind
    obtain ⟨defining, hdefining, hfind⟩ := query_bind_eq_ok.mp hfind
    obtain ⟨cls, hcls, hdispatch⟩ := query_bind_eq_ok.mp hfind
    exact .sends hnone (hvalues fun hm => hm.whole.slot
      (hm.whole.slot (hm.held m₂.method (by simp)) hdefining) hcls) hdispatch
  · obtain ⟨cls, hcls, hdispatch⟩ := query_bind_eq_ok.mp hfind
    exact .sends hnone (hvalues fun hm => Image.yields_classOf (intact_image hm)
      (hm.held m₂.accumulator (by simp)) cls hcls cls (by simp)) hdispatch

theorem execute_acts (hp : m.Pause i m₁) (heq : execute i m = .ok () m') : m₁.Acts i m' := by
  have hstays : call? i = none → ¬m.Pauses i → (∀ R [Undisturbed R], Stays R (execute i)) →
      m₁.Acts i m' := by
    intro hnone hpauses hact
    obtain rfl := hp.of_not_pauses hpauses
    exact .stays hnone fun R _ => hact R _ _ _ heq
  have hcalls : ∀ {index args}, call? i = some (index, args) →
      (m.Pauses i ↔ (Primitive.ofIndex? index.toNat).isSome) →
      (∀ {m m' vs}, args m = .ok vs m' → m' = m) → Machine.callPrimitive index args m = .ok () m' →
      m₁.Acts i m' := by
    intro index args hcall hpauses hread hrun
    obtain ⟨prim, values, result, m₂, hcalls, hrun, hend⟩ :=
      hp.callPrimitive hcall hpauses hread hrun
    exact .calls hcalls hrun hend
  cases i with
  | loadNil | loadTrue | loadFalse | loadThisContext | loadGlobals =>
    exact hstays rfl (by simp [Pauses, call?]) fun R _ => .modify fun _ =>
      Undisturbed.accumulator _ _
  | loadInstVar k | loadOwn s | loadParent s | loadGlobal l =>
    exact hstays rfl (by simp [Pauses, call?]) fun R _ => .bind (.query _) fun _ => .bind (.query _)
      fun _ => setAccumulator_stays _
  | loadLiteral k | loadRegister r =>
    exact hstays rfl (by simp [Pauses, call?]) fun R _ => .bind (.query _) fun _ =>
      setAccumulator_stays _
  | storeInstVar k | storeOwn s | storeParent s =>
    exact hstays rfl (by simp [Pauses, call?]) fun R _ => .bind (.query _) fun _ =>
      .bind .get fun _ =>
      setSlot_stays _ _ _
  | storeGlobal l =>
    exact hstays rfl (by simp [Pauses, call?]) fun R _ => .bind (.query _) fun _ =>
      .bind .get fun _ =>
      .bind (.onImage _) fun _ => .pure _
  | storeRegister r =>
    exact hstays rfl (by simp [Pauses, call?]) fun R _ => .bind .get fun _ => .bind .get fun _ =>
      setSlot_stays _ _ _
  | promote own parent =>
    exact hstays rfl (by simp [Pauses, call?]) fun R _ => .bind (.query _) fun _ => .bind (.query _)
      fun _ => .bind (.query _) fun _ => setSlot_stays _ _ _
  | restore parent own =>
    exact hstays rfl (by simp [Pauses, call?]) fun R _ => .bind .get fun _ =>
      .bind (.query _) fun _ =>
      .bind (.query _) fun _ => .bind (.query _) fun _ => setSlot_stays _ _ _
  | sync own parent reg =>
    refine hstays rfl (by simp [Pauses, call?]) fun R _ => ?_
    have hsettle : ∀ v k x, Stays R (do setSlot v k x; setRegister reg x) := fun v k x =>
      .bind (setSlot_stays _ _ _) fun _ => .bind .get fun _ => setSlot_stays _ _ _
    exact .bind (.query _) fun _ => .bind (.query _) fun _ => .bind (.query _) fun _ =>
      .bind (.query _) fun _ => .ite (hsettle _ _ _) (.bind (.query _) fun _ => hsettle _ _ _)
  | jump offset =>
    obtain rfl := hp.of_not_pauses (by simp [Pauses, call?])
    exact .jumps rfl (.inr (modify_eq_ok.mp heq).symm)
  | branchIfFalse offset | branchIfTrue offset =>
    obtain rfl := hp.of_not_pauses (by simp [Pauses, call?])
    refine .jumps rfl ?_
    rw [execute, get_bind] at heq
    rcases ite_eq_ok.mp heq with ⟨-, hjump⟩ | ⟨-, hpass⟩
    · exact .inr (modify_eq_ok.mp hjump).symm
    · exact .inl (pure_eq_ok.mp hpass).2.symm
  | return_ =>
    obtain rfl := hp.of_not_pauses (by simp [Pauses, call?])
    exact .return_ rfl heq
  | returnSelf =>
    obtain rfl := hp.of_not_pauses (by simp [Pauses, call?])
    obtain ⟨value, hread, hreturn⟩ := query_bind_eq_ok.mp heq
    exact .returnSelf rfl hread hreturn
  | binaryOp reg op =>
    obtain ⟨left, hleft, hgo⟩ := query_bind_eq_ok.mp heq
    obtain ⟨v, hv⟩ := runPrimitive_operator op left m.accumulator m
    rw [get_bind, bind_of_eq_ok hv] at hgo
    rcases ite_eq_ok.mp hgo with ⟨hdefined, hgo⟩ | ⟨hundefined, hgo⟩
    · obtain rfl := hp.of_not_pauses (by
        rintro ⟨left', hleft', hnil⟩
        obtain rfl := Except.ok.inj (hleft.symm.trans hleft')
        rw [hv] at hnil
        cases hnil
        simp [Value.isNil, Value.nil] at hdefined)
      exact .stays rfl fun R _ => setAccumulator_stays _ _ _ _ hgo
    · have hnil : v = .nil := by
        have : v.isNil := by simpa using hundefined
        exact congrArg Value.mk (beq_iff_eq.mp this)
      subst hnil
      have hgo := hp.of_pauses ⟨left, hleft, hv⟩ hgo
      obtain ⟨receiver, hreceiver, hfind⟩ := query_bind_eq_ok.mp hgo
      rw [get_bind] at hfind
      obtain ⟨cls, hcls, hdispatch⟩ := query_bind_eq_ok.mp hfind
      refine .sends rfl (fun hm v hv => ?_) hdispatch
      have hsane : Sane m₁ receiver := hm.whole.slot (hm.held m₁.context (by simp)) hreceiver
      simp only [List.mem_cons, List.not_mem_nil, or_false] at hv
      rcases hv with rfl | rfl | rfl
      · exact hsane
      · exact Image.yields_classOf (intact_image hm) hsane v hcls v (by simp)
      · exact hm.held _ (by simp)
  | send selector args => exact send_acts hp rfl trivial heq
  | sendSuper selector args => exact send_acts hp rfl trivial heq
  | copyBlock l =>
    refine .stays rfl fun R _ =>
      Stays.bind (.query _) (fun _ => ?_) _ _ _ (hp.of_pauses trivial heq)
    refine .bind .get fun _ => .bind (.onImage _) fun _ => .bind (.query _) fun _ => ?_
    refine .bind (.onImage _) fun _ => .bind .get fun _ => .bind (.query _) fun _ => ?_
    refine .bind (setSlot_stays _ _ _) fun _ => .bind (.query _) fun _ => ?_
    refine .bind (setSlot_stays _ _ _) fun _ => .bind (.query _) fun _ => ?_
    exact .bind (setSlot_stays _ _ _) fun _ => setAccumulator_stays _
  | primitive0 p =>
    exact hcalls rfl (by simp [Pauses, call?]) (fun h => (pure_eq_ok.mp h).2.symm) heq
  | primitive1 p => exact hcalls rfl (by simp [Pauses, call?]) withAccumulator_eq_ok heq
  | primitive2 p reg => exact hcalls rfl (by simp [Pauses, call?]) withAccumulator_eq_ok heq
  | primitive3 p reg₁ reg₂ => exact hcalls rfl (by simp [Pauses, call?]) withAccumulator_eq_ok heq
  | primitiveV p first count => exact hcalls rfl (by simp [Pauses, call?]) registers_eq_ok heq

/-- Where an instruction takes the machine. -/
theorem execute_proceeds (hm : Intact m₁) (hp : m.Pause i m₁) (heq : execute i m = .ok () m') :
    m₁.Proceeds m' := by
  cases execute_acts hp heq with
  | stays _ h => exact .inl (h InPlace)
  | jumps _ h => exact .inl (Passive.of_jumped h)
  | return_ _ hreturn => exact (returnValue_live hreturn).imp_right .inr
  | returnSelf _ _ hreturn => exact (returnValue_live hreturn).imp_right .inr
  | sends _ _ hdispatch => exact .inr (.inl (dispatch_fresh hm hdispatch))
  | calls _ hrun hend =>
    have hproceeds := runPrimitive_proceeds hm hrun
    split at hend
    · exact hend ▸ hproceeds
    · exact hend ▸ hproceeds

end Executing

section Returning

variable {i : Instruction} {m₁ : Machine} {v : Value}

inductive Returns (m : Machine) : Instruction → Value → Prop where
  | return_ : m.image.heap.slot m.context Slot.Context.previous = .ok .nil →
    m.Returns .return_ m.accumulator
  | returnSelf {v : Value} : m.image.heap.slot m.context Slot.Context.registers = .ok v →
    m.image.heap.slot m.context Slot.Context.previous = .ok .nil → m.Returns .returnSelf v
  /-- A block returns from its home, when all that is in between has been unwound. -/
  | home {i : Instruction} {source v home : Value} {contexts : List Value} {m' : Machine} :
    m.Calls i .blockReturn [source, v] → m.image.heap.slot source Slot.Context.home = .ok home →
    chainTo m.image.heap home (m.image.heap.chainBound + 1) [] m.context = .ok (some contexts) →
    unwindAll contexts m = .ok () m' → m'.image.heap.slot home Slot.Context.previous = .ok .nil →
    m.Returns i v

theorem Undone.stop_ne (h : m.Undone m') (hstop : m.stop = none) (v : Value) :
    m'.stop ≠ some (.returned v) := by
  rcases h with h | h
  · simp [h, hstop]
  · exact h v

theorem loadFrame_undone {u : Unit} (heq : loadFrame m = .ok u m') : m.Undone m' := by
  obtain ⟨_, _, _, _, _, _, -, -, rfl⟩ := loadFrame_eq_ok heq
  exact .inl rfl

theorem activate_undone {code receiver parent : Value} {args : List Value} {home : Option Value}
    {u : Unit} (heq : activate code receiver args parent home m = .ok u m') : m.Undone m' := by
  rw [activate, get_bind] at heq
  obtain ⟨_, m₁, hset, hmake⟩ := bind_eq_ok.mp heq
  obtain ⟨context, m₂, hmake, henter⟩ := bind_eq_ok.mp hmake
  obtain ⟨_, m₃, henter, hload⟩ := bind_eq_ok.mp henter
  obtain rfl := modify_eq_ok.mp henter
  have hmade : m.Undone m₂ :=
    Undisturbed.trans (setSlot_stays _ _ _ _ _ _ hset) (Stays.onImage _ _ _ _ hmake)
  have hentered : m₂.Undone { m₂ with context } := .inl rfl
  exact Undisturbed.trans hmade (Undisturbed.trans hentered (loadFrame_undone hload))

theorem dispatch_undone {selector receiver cls : Value} {args : List Value} {u : Unit}
    (heq : dispatch selector receiver args cls m = .ok u m') : m.Undone m' := by
  obtain ⟨found, -, hfollow⟩ := query_bind_eq_ok.mp heq
  cases found with
  | none =>
    obtain ⟨_, _, -, hfollow⟩ := bind_eq_ok.mp hfollow
    obtain ⟨_, _, -, hfollow⟩ := bind_eq_ok.mp hfollow
    obtain ⟨_, _, -, hfollow⟩ := bind_eq_ok.mp hfollow
    exact nomatch fail_eq_ok.mp hfollow
  | some found => exact activate_undone hfollow

theorem invokeBlock_undone {block : Value} {args : List Value} {u : Unit}
    (heq : invokeBlock block args m = .ok u m') : m.Undone m' := by
  obtain ⟨isBlock, -, hgo⟩ := query_bind_eq_ok.mp heq
  rcases ite_eq_ok.mp hgo with ⟨-, hgo⟩ | ⟨-, hgo⟩
  · exact setAccumulator_stays _ _ _ _ hgo
  obtain ⟨shape, -, hgo⟩ := query_bind_eq_ok.mp hgo
  rcases ite_eq_ok.mp hgo with ⟨-, hgo⟩ | ⟨-, hgo⟩
  · exact setAccumulator_stays _ _ _ _ hgo
  obtain ⟨receiver, -, hgo⟩ := query_bind_eq_ok.mp hgo
  obtain ⟨parent, -, hgo⟩ := query_bind_eq_ok.mp hgo
  obtain ⟨home, -, hgo⟩ := query_bind_eq_ok.mp hgo
  exact activate_undone hgo

/-- The value that a process returns is what is handed on where there is no context to go on in. -/
theorem continueIn_returns {target value : Value} {u : Unit}
    (heq : continueIn target value m = .ok u m') : m.Undone m' ∨ target = .nil ∧
      ∀ v, m'.stop = some (.returned v) → v = value := by
  obtain ⟨_, m₁, hset, hgo⟩ := bind_eq_ok.mp heq
  obtain rfl := modify_eq_ok.mp hset
  rcases ite_eq_ok.mp hgo with ⟨hnil, hgo⟩ | ⟨-, hgo⟩
  · obtain rfl := modify_eq_ok.mp hgo
    refine .inr ⟨congrArg Value.mk (beq_iff_eq.mp hnil), fun v hv => ?_⟩
    exact (RunOutcome.returned.inj (Option.some.inj hv)).symm
  · obtain ⟨pc, -, hgo⟩ := query_bind_eq_ok.mp hgo
    obtain ⟨-, hgo⟩ := check_eq_ok hgo
    obtain ⟨_, m₃, henter, hload⟩ := bind_eq_ok.mp hgo
    obtain rfl := modify_eq_ok.mp henter
    have hentered : m.Undone { m with accumulator := value, context := target } := .inl rfl
    exact .inl (Undisturbed.trans hentered (loadFrame_undone hload))

theorem returnValue_returns {value : Value} {u : Unit} (hm : Intact m)
    (heq : returnValue value m = .ok u m') : m.Undone m' ∨
      m.image.heap.slot m.context Slot.Context.previous = .ok .nil ∧
        ∀ v, m'.stop = some (.returned v) → v = value := by
  have hcontext : m.image.heap.arenas.Sane m.context := hm.held m.context (by simp)
  rw [returnValue, get_bind] at heq
  obtain ⟨_, m₁, hset, hgo⟩ := bind_eq_ok.mp heq
  obtain ⟨previous, hprevious, hgo⟩ := query_bind_eq_ok.mp hgo
  have hsame : m.Undone m₁ := setSlot_stays _ _ _ _ _ _ hset
  rcases continueIn_returns hgo with h | ⟨rfl, h⟩
  · exact .inl (Undisturbed.trans hsame h)
  refine .inr ⟨?_, h⟩
  -- The context is marked before its caller is looked up.
  obtain ⟨heap, hwrite, rfl⟩ := setSlot_eq_ok hset
  have hrewrites := Heap.Whole.rewrites hm.whole hcontext (Arenas.sane_nil _) hwrite
  have hafter : heap.Holds ⟨m.context, Slot.Context.previous⟩ .nil :=
    ⟨hrewrites.grows _ hcontext, hprevious⟩
  obtain ⟨x, hx⟩ := hrewrites.cells hafter
  exact hx.slot.trans (congrArg Except.ok ((hrewrites.others (by simp) hx).unique hafter))

theorem nonLocalReturn_returns {source value : Value} {u : Unit}
    (heq : nonLocalReturn source value m = .ok u m') : m.Undone m' ∨
      ∃ home contexts m₁, m.image.heap.slot source Slot.Context.home = .ok home ∧
        chainTo m.image.heap home (m.image.heap.chainBound + 1) [] m.context =
          .ok (some contexts) ∧ unwindAll contexts m = .ok () m₁ ∧
        m₁.image.heap.slot home Slot.Context.previous = .ok .nil ∧
        ∀ v, m'.stop = some (.returned v) → v = value := by
  obtain ⟨isContext, -, hgo⟩ := query_bind_eq_ok.mp heq
  rcases ite_eq_ok.mp hgo with ⟨-, hgo⟩ | ⟨-, hgo⟩
  · exact .inl (setAccumulator_stays _ _ _ _ hgo)
  obtain ⟨home, hhome, hgo⟩ := query_bind_eq_ok.mp hgo
  obtain ⟨-, hgo⟩ := check_eq_ok hgo
  obtain ⟨pc, -, hgo⟩ := query_bind_eq_ok.mp hgo
  obtain ⟨-, hgo⟩ := check_eq_ok hgo
  obtain ⟨chain, hchain, hgo⟩ := query_bind_eq_ok.mp hgo
  cases chain with
  | none =>
    obtain ⟨_, _, -, hgo⟩ := bind_eq_ok.mp hgo
    exact nomatch fail_eq_ok.mp hgo
  | some contexts =>
    obtain ⟨_, m₁, hunwind, hgo⟩ := bind_eq_ok.mp hgo
    obtain ⟨previous, hprevious, hgo⟩ := query_bind_eq_ok.mp hgo
    have hsame : m.Undone m₁ := unwindAll_stays _ _ _ _ hunwind
    rcases continueIn_returns hgo with h | ⟨rfl, h⟩
    · exact .inl (Undisturbed.trans hsame h)
    · exact .inr ⟨home, contexts, m₁, hhome, hchain, hunwind, hprevious, h⟩

/-- There is something to go on in wherever a context is gone on in. -/
theorem returnInto_undone {target value : Value} {u : Unit}
    (heq : returnInto target value m = .ok u m') : m.Undone m' := by
  obtain ⟨isContext, hcontext, hgo⟩ := query_bind_eq_ok.mp heq
  rcases ite_eq_ok.mp hgo with ⟨-, hgo⟩ | ⟨htrue, hgo⟩
  · exact setAccumulator_stays _ _ _ _ hgo
  rcases continueIn_returns hgo with h | ⟨rfl, -⟩
  · exact h
  · obtain rfl : false = isContext := Except.ok.inj hcontext
    exact absurd rfl htrue

theorem runPrimitive_returns {prim : Primitive} {args : List Value} {result : Value}
    (hcalls : m.Calls i prim args) (hstop : m.stop = none)
    (heq : runPrimitive prim args m = .ok result m') (hend : m'.stop = some (.returned v)) :
    m.Returns i v := by
  have hundone : ¬m.Undone m' := fun h => h.stop_ne hstop v hend
  cases hprim : prim.switchesContext with
  | false => exact absurd (runPrimitive_stays hprim args _ _ _ heq) hundone
  | true =>
    have hfirst : ∀ {act : MachineAction Unit}, (act >>= fun _ => pure .nil) m = .ok result m' →
        act m = .ok () m' := by
      intro act hact
      obtain ⟨_, m₁, hdone, hpure⟩ := bind_eq_ok.mp hact
      obtain ⟨-, rfl⟩ := pure_eq_ok.mp hpure
      exact hdone
    unfold runPrimitive at heq
    split at heq
    case h_30 => exact absurd (invokeBlock_undone (hfirst heq)) hundone
    case h_31 =>
      rcases nonLocalReturn_returns (hfirst heq) with
        h | ⟨_, _, _, hhome, hchain, hunwind, hcaller, hv⟩
      · exact absurd h hundone
      · exact hv v hend ▸ .home hcalls hhome hchain hunwind hcaller
    case h_32 => exact absurd (returnInto_undone (hfirst heq)) hundone
    case h_33 | h_34 | h_35 =>
      exact absurd (setAccumulator_stays _ _ _ _ (hfirst heq)) hundone
    case h_43 => exact absurd (Stays.pure _ _ _ _ heq) hundone
    all_goals cases hprim

/-- A process is over only when a context without a caller returns. -/
theorem execute_returns (hm : Intact m₁) (hp : m.Pause i m₁) (hstop : m₁.stop = none)
    (heq : execute i m = .ok () m') (hend : m'.stop = some (.returned v)) : m₁.Returns i v := by
  have hundone : ¬m₁.Undone m' := fun h => h.stop_ne hstop v hend
  cases execute_acts hp heq with
  | stays _ h => exact absurd (h Undone) hundone
  | jumps _ h => exact absurd (Passive.of_jumped h) hundone
  | return_ hi hreturn =>
    subst hi
    rcases returnValue_returns hm hreturn with h | ⟨hcaller, hv⟩
    · exact absurd h hundone
    · exact hv v hend ▸ .return_ hcaller
  | returnSelf hi hself hreturn =>
    subst hi
    rcases returnValue_returns hm hreturn with h | ⟨hcaller, hv⟩
    · exact absurd h hundone
    · exact hv v hend ▸ .returnSelf hself hcaller
  | sends _ _ hdispatch => exact absurd (dispatch_undone hdispatch) hundone
  | calls hcalls hrun hdone =>
    refine runPrimitive_returns hcalls hstop hrun ?_
    split at hdone
    · exact hdone ▸ hend
    · rwa [hdone] at hend

end Returning

end ObjectMachine.Machine
