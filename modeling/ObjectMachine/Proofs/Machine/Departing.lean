import ObjectMachine.Proofs.Machine.Entering

namespace ObjectMachine.Machine

variable {m m' : Machine}

def Placed (m m' : Machine) : Prop := m'.context = m.context ∧ m'.pc = m.pc

instance : Steady Placed where
  refl _ := ⟨rfl, rfl⟩
  trans h h' := ⟨h'.1.trans h.1, h'.2.trans h.2⟩
  image _ _ := ⟨rfl, rfl⟩
  schedule _ _ := ⟨rfl, rfl⟩
  interrupts _ _ := ⟨rfl, rfl⟩
  accumulator _ _ := ⟨rfl, rfl⟩
  stop _ _ _ := ⟨rfl, rfl⟩

inductive Departs (m m' : Machine) : Prop where
  | stays : m.Placed m' → m.Departs m'
  | leaves {x : Value} : m'.context ≠ m.context →
    m'.image.heap.Holds ⟨m.context, Slot.Context.pc⟩ x → x = .ofNat m.pc ∨ x = .nil → m.Departs m'

/-- Nothing is stored, as far as it is known. -/
theorem holds_of_upholds {act : MachineAction Unit} {known : List Value} (hm : Intact m)
    (hknown : ∀ v ∈ known, Sane m v)
    (hact : Upholds (Within (fun _ _ => False) (fun _ => True) m.image.known (fun _ => True)
      m.process
      m.image.heap) known act) (heq : act m = .ok () m') {c : Cell} {x : Value}
    (hc : m.image.heap.Holds c x) : m'.image.heap.Holds c x := by
  have hleaves := hact m ⟨hm.grown, trivial, rfl, rfl⟩ hknown
  exact (hleaves.ok heq).evolves.holds hc fun _ h => h.elim

section Activations

variable {code receiver parent : Value} {args : List Value} {home : Option Value}

theorem activate_departs (hm : Intact m) (hcode : Sane m code) (hreceiver : Sane m receiver)
    (hargs : ∀ v ∈ args, Sane m v) (hparent : Sane m parent) (hhome : ∀ v ∈ held home, Sane m v)
    (heq : activate code receiver args parent home m = .ok () m') : m.Departs m' := by
  have hcontext : Sane m m.context := hm.held _ (by simp)
  have hfresh := activate_fresh hm heq
  rw [activate, get_bind] at heq
  obtain ⟨_, m₁, hset, hrest⟩ := bind_eq_ok.mp heq
  have hstable : Stable [m.context] (setSlot m.context Slot.Context.pc (.ofNat m.pc)) :=
    setSlot_stable (by simp) _ (by simp)
  have hsettled := hstable m hm (by simpa using hcontext)
  rw [hset] at hsettled
  obtain ⟨hm₁, hgrows, -⟩ := hsettled
  obtain ⟨heap, hwrite, rfl⟩ := setSlot_eq_ok hset
  have hsaved := (hm.whole.rewrites hcontext (.inr (.inl (by simp))) hwrite).written
  refine .leaves (fun hsame => hfresh (hsame ▸ hcontext)) ?_ (.inl rfl)
  refine @holds_of_upholds _ _ _ (m.context :: code :: receiver :: parent :: (held home ++ args))
    hm₁ (fun v hv => hgrows.sane ?_) ?_ hrest _ _ hsaved
  · simp only [List.mem_cons, List.mem_append] at hv
    rcases hv with rfl | rfl | rfl | rfl | hv | hv
    exacts [hcontext, hcode, hreceiver, hparent, hhome v hv, hargs v hv]
  · refine .bind (onImage_upholds (Image.newContext_knows _ _ _ _ _ _ _)
      (Image.newContext_upholds (by simp) (by simp) (fun v hv => trusted_of_mem (by simp [hv]))
        (by simp) (by simp) (fun v hv => trusted_of_mem ?_) fun _ => trivial)) fun context => ?_
    · simp only [List.mem_cons, List.mem_append]
      exact .inr (.inr (.inr (.inr (.inl hv))))
    refine .bind (Quiet.upholds (.modify fun _ => ⟨rfl, rfl, rfl, rfl⟩)
      (reload_stable (fun _ => rfl) (fun _ => rfl) ?_)) fun _ =>
        loadFrame_quiet.upholds loadFrame_stable
    simp +contextual [or_imp]

theorem dispatch_departs {selector cls : Value} (hm : Intact m)
    (hsane : ∀ v ∈ receiver :: cls :: args, Sane m v)
    (heq : dispatch selector receiver args cls m = .ok () m') : m.Departs m' := by
  obtain ⟨found, hfound, hfollow⟩ := query_bind_eq_ok.mp heq
  cases found with
  | none =>
    obtain ⟨_, _, -, hfollow⟩ := bind_eq_ok.mp hfollow
    obtain ⟨_, _, -, hfollow⟩ := bind_eq_ok.mp hfollow
    obtain ⟨_, _, -, hfollow⟩ := bind_eq_ok.mp hfollow
    exact absurd hfollow fun h => (fail_eq_ok.mp h).elim
  | some found =>
    have hmethod := (hm.whole.yields_lookupFrom selector _ (hsane cls (by simp))) _ hfound found.1
      (by simp)
    exact activate_departs hm hmethod (hsane receiver (by simp))
      (fun v hv => hsane v (by simp [hv]))
      (Arenas.sane_nil _) (by simp) hfollow

theorem invokeBlock_departs {block : Value} (hm : Intact m) (hblock : Sane m block)
    (hargs : ∀ v ∈ args, Sane m v) (heq : invokeBlock block args m = .ok () m') : m.Departs m' := by
  obtain ⟨isBlock, -, hgo⟩ := query_bind_eq_ok.mp heq
  rcases ite_eq_ok.mp hgo with ⟨-, hgo⟩ | ⟨-, hgo⟩
  · exact .stays (setAccumulator_stays _ _ _ _ hgo)
  obtain ⟨shape, -, hgo⟩ := query_bind_eq_ok.mp hgo
  rcases ite_eq_ok.mp hgo with ⟨-, hgo⟩ | ⟨-, hgo⟩
  · exact .stays (setAccumulator_stays _ _ _ _ hgo)
  obtain ⟨receiver, hreceiver, hgo⟩ := query_bind_eq_ok.mp hgo
  obtain ⟨parent, hparent, hgo⟩ := query_bind_eq_ok.mp hgo
  obtain ⟨home, hhome, hgo⟩ := query_bind_eq_ok.mp hgo
  have hread : ∀ {k x}, m.image.heap.slot block k = .ok x → Sane m x := hm.whole.slot hblock
  refine activate_departs hm hblock (hread hreceiver) hargs (hread hparent) (fun v hv => ?_) hgo
  obtain rfl : v = home := by simpa using hv
  exact hread hhome

end Activations

/-- From a context that is marked as returned. -/
theorem continueIn_departs {target value : Value}
    (hended : m.image.heap.Holds ⟨m.context, Slot.Context.pc⟩ .nil)
    (heq : continueIn target value m = .ok () m') : m.Departs m' := by
  have hkept := (continueIn_quiet target value).ok heq
  obtain ⟨_, m₁, hset, hgo⟩ := bind_eq_ok.mp heq
  obtain rfl := modify_eq_ok.mp hset
  rcases ite_eq_ok.mp hgo with ⟨-, hgo⟩ | ⟨-, hgo⟩
  · obtain rfl := modify_eq_ok.mp hgo
    exact .stays ⟨rfl, rfl⟩
  · obtain ⟨pc, hpc, hgo⟩ := query_bind_eq_ok.mp hgo
    obtain ⟨hlive, hgo⟩ := check_eq_ok hgo
    obtain ⟨_, m₃, henter, hload⟩ := bind_eq_ok.mp hgo
    obtain rfl := modify_eq_ok.mp henter
    have hcontext : m'.context = target := loadFrame_context hload
    refine .leaves (x := .nil) (fun hsame => hlive ?_) (hkept.heap ▸ hended) (.inr rfl)
    obtain rfl : target = m.context := hcontext.symm.trans hsame
    rw [Except.ok.inj (hpc.symm.trans hended.slot)]
    rfl

theorem returnValue_departs {value : Value} (hm : Intact m)
    (heq : returnValue value m = .ok () m') : m.Departs m' := by
  rw [returnValue, get_bind] at heq
  obtain ⟨_, m₁, hset, hgo⟩ := bind_eq_ok.mp heq
  obtain ⟨previous, -, hgo⟩ := query_bind_eq_ok.mp hgo
  obtain ⟨heap, hwrite, rfl⟩ := setSlot_eq_ok hset
  have hended :=
    (hm.whole.rewrites (hm.held m.context (by simp)) (Arenas.sane_nil _) hwrite).written
  cases continueIn_departs hended hgo with
  | stays h => exact .stays h
  | leaves hcontext hx h => exact .leaves hcontext hx h

section Unwinding

/-- The first context that is ended stays so, unless unwinding stores over its position. -/
theorem unwindAll_ended {context : Value} {rest : List Value} (hm : Intact m)
    (hcontexts : ∀ v ∈ context :: rest, Sane m v)
    (hstores : ¬Unwinds ⟨context, Slot.Context.pc⟩ (context :: rest) m)
    (heq : unwindAll (context :: rest) m = .ok () m') :
    m'.image.heap.Holds ⟨context, Slot.Context.pc⟩ .nil := by
  obtain ⟨_, m₁, hunwind, hgo⟩ := bind_eq_ok.mp heq
  obtain ⟨_, m₂, hset, hrest⟩ := bind_eq_ok.mp hgo
  let P (m : Machine) : Machine → Prop := Within (fun _ _ => True) (fun _ => True) m.image.known
    (fun _ => True) m.process m.image.heap
  have hstart : P m m := ⟨hm.grown, trivial, rfl, rfl⟩
  have hunwound : Leaves (P m) m (unwind context m) :=
    unwind_leaves hstart (hcontexts context (.head _)) fun _ _ _ _ _ _ _ _ _ _ => trivial
  rw [hunwind] at hunwound
  obtain ⟨hm₁, hgrows, -⟩ := hunwound
  have hcontext₁ := hgrows.sane (hcontexts context (.head _))
  have hstable : Stable [context] (setSlot context Slot.Context.pc .nil) :=
    setSlot_stable (by simp) _ (by simp)
  have hsettled := hstable m₁ hm₁.intact (by simpa using hcontext₁)
  rw [hset] at hsettled
  obtain ⟨hm₂, hgrows₂, -⟩ := hsettled
  obtain ⟨heap, hwrite, rfl⟩ := setSlot_eq_ok hset
  have hended :=
    (hm₁.intact.whole.rewrites hcontext₁ (Arenas.sane_nil _) hwrite).written
  let W : Licence := fun c x =>
    x = .nil ∨ Unwinds c rest { m₁ with image := { m₁.image with heap } }
  have hleaves := unwindAll_leaves (W := W) (F := fun _ => True) (S := fun _ => True) rest
    ⟨hm₂.grown, trivial, rfl, rfl⟩
    (fun v hv => hgrows₂.sane (hgrows.sane (hcontexts v (.tail _ hv)))) (fun _ _ _ => .inl rfl)
    fun c x _ h => .inr h
  refine (hleaves.ok hrest).evolves.holds hended fun x hx => ?_
  exact hx.resolve_right fun h => hstores (.inr ⟨_, _, hunwind, hset, h⟩)

theorem chainTo_head {h : Heap} {home cursor : Value} {fuel : Nat} {contexts : List Value}
    (heq : chainTo h home fuel [] cursor = .ok (some contexts)) :
    ∃ rest, contexts = cursor :: rest := by
  have hgeneral : ∀ {fuel cursor seen contexts},
      chainTo h home fuel seen cursor = .ok (some contexts) →
      ∃ rest, contexts = seen.reverse ++ cursor :: rest := by
    intro fuel
    induction fuel with
    | zero => intro cursor seen contexts heq; cases heq
    | succ fuel ih =>
      intro cursor seen contexts heq
      rw [chainTo] at heq
      split at heq
      · cases heq
      split at heq
      · cases heq
        exact ⟨[], by simp⟩
      · obtain ⟨next, -, hrest⟩ := except_bind_eq_ok.mp heq
        obtain ⟨rest, rfl⟩ := ih hrest
        exact ⟨next :: rest, by simp⟩
  simpa using hgeneral heq

theorem nonLocalReturn_departs {source value : Value} (hm : Intact m)
    (hstores : ∀ contexts, m.Unwound source contexts →
      ¬Unwinds ⟨m.context, Slot.Context.pc⟩ contexts m)
    (heq : nonLocalReturn source value m = .ok () m') : m.Departs m' := by
  obtain ⟨isContext, -, hgo⟩ := query_bind_eq_ok.mp heq
  rcases ite_eq_ok.mp hgo with ⟨-, hgo⟩ | ⟨-, hgo⟩
  · exact .stays (setAccumulator_stays _ _ _ _ hgo)
  obtain ⟨home, hhome, hgo⟩ := query_bind_eq_ok.mp hgo
  obtain ⟨-, hgo⟩ := check_eq_ok hgo
  obtain ⟨pc, -, hgo⟩ := query_bind_eq_ok.mp hgo
  obtain ⟨-, hgo⟩ := check_eq_ok hgo
  obtain ⟨chain, hchain, hgo⟩ := query_bind_eq_ok.mp hgo
  cases chain with
  | none =>
    obtain ⟨_, _, -, hgo⟩ := bind_eq_ok.mp hgo
    exact absurd hgo fun h => (fail_eq_ok.mp h).elim
  | some contexts =>
    obtain ⟨rest, rfl⟩ := chainTo_head hchain
    obtain ⟨_, m₅, hunwind, hgo⟩ := bind_eq_ok.mp hgo
    obtain ⟨previous, -, hgo⟩ := query_bind_eq_ok.mp hgo
    have hsane := yields_chainTo hm.whole home (m.image.heap.chainBound + 1) (by simp)
      (hm.held m.context (by simp)) _ hchain
    have hended := unwindAll_ended hm (fun v hv => hsane v (by simpa using hv))
      (hstores _ ⟨home, hhome, hchain⟩) hunwind
    have hsame : m.Placed m₅ := unwindAll_stays _ _ _ _ hunwind
    cases continueIn_departs (hsame.1 ▸ hended) hgo with
    | stays h => exact .stays (Undisturbed.trans hsame h)
    | leaves hcontext hx h =>
      rw [hsame.1] at hcontext hx
      rw [hsame.2] at h
      exact .leaves hcontext hx h

end Unwinding

theorem runPrimitive_departs {prim : Primitive} {args : List Value} {result : Value} (hm : Intact m)
    (hinto : prim ≠ .returnInto) (hargs : ∀ v ∈ args, Sane m v)
    (hstores : ¬m.PrimitiveStores ⟨m.context, Slot.Context.pc⟩ prim args)
    (heq : runPrimitive prim args m = .ok result m') : m.Departs m' := by
  cases hprim : prim.switchesContext with
  | false => exact .stays (runPrimitive_stays hprim args _ _ _ heq)
  | true =>
    have hfirst : ∀ {act : MachineAction Unit}, (act >>= fun _ => pure .nil) m = .ok result m' →
        act m = .ok () m' := by
      intro act hact
      obtain ⟨_, m₁, hdone, hpure⟩ := bind_eq_ok.mp hact
      obtain ⟨-, rfl⟩ := pure_eq_ok.mp hpure
      exact hdone
    unfold runPrimitive at heq
    split at heq
    case h_30 =>
      exact invokeBlock_departs hm (hargs _ (by simp)) (fun v hv => hargs v (by simp [hv]))
        (hfirst heq)
    case h_31 =>
      exact nonLocalReturn_departs hm (fun contexts hu h => hstores ⟨contexts, hu, h⟩) (hfirst heq)
    case h_32 => exact absurd rfl hinto
    case h_33 | h_34 | h_35 => exact .stays (setAccumulator_stays _ _ _ _ (hfirst heq))
    case h_43 => exact .stays (Stays.pure _ _ _ _ heq)
    all_goals cases hprim

/-- An instruction that does not go on in a given context, seen from the machine that paused for it,
departs or branches. -/
theorem Acts.departs {i : Instruction} (hacts : m.Acts i m') (hm : Intact m)
    (hinto : ∀ args, ¬m.Calls i .returnInto args)
    (hstores : ¬m.Stores i ⟨m.context, Slot.Context.pc⟩) : m.Departs m' ∨
      ∃ offset, i.offset? = some offset ∧ m' = { m with pc := jumped m.pc offset } := by
  cases hacts with
  | stays _ h => exact .inl (.stays (h Placed))
  | @jumps offset hoffset h =>
    rcases h with rfl | rfl
    · exact .inl (.stays ⟨rfl, rfl⟩)
    · exact .inr ⟨offset, hoffset, rfl⟩
  | return_ _ hreturn => exact .inl (returnValue_departs hm hreturn)
  | returnSelf _ _ hreturn => exact .inl (returnValue_departs hm hreturn)
  | sends _ hsane hdispatch => exact .inl (dispatch_departs hm (hsane hm) hdispatch)
  | @calls prim args result m₂ hcalls hrun hend =>
    have hdeparts := runPrimitive_departs hm (fun h => hinto args (h ▸ hcalls)) (hcalls.sane hm)
      (fun h => hstores (.primitive hcalls h)) hrun
    split at hend
    · exact .inl (hend ▸ hdeparts)
    · subst hend
      cases hdeparts with
      | stays h => exact .inl (.stays h)
      | leaves hcontext hx h => exact .inl (.leaves hcontext hx h)

end ObjectMachine.Machine
