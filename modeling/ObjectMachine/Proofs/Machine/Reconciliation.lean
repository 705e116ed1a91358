import ObjectMachine.Proofs.Machine.Chaining

namespace ObjectMachine

variable {s : SyncedSlot} {moment : Nat → Moment} {event : Nat → Event} {turns : Nat}
  {e : Event} {c c' : Copies} {v v' : Value}

theorem Event.passes_upkeep_iff {u : Upkeep} :
    (Event.upkeep u).Passes c v c' v' ↔ c' = u.apply c ∧ v' = v := by
  constructor
  · rintro ⟨⟩
    exact ⟨rfl, rfl⟩
  · rintro ⟨rfl, rfl⟩
    exact .upkeep u c v'

/-- The block's copy wins unless it looks unchanged while the parent has another value. -/
theorem Copies.settled_eq_own : c.settled = c.own ↔ (c.own = c.agreed → c.parent = c.own) := by
  rw [settled]
  by_cases h : c.own = c.agreed
  · simp [h]
  · simp [h]

/-- The values of a variable to which only the block and the blocks nested in it assign. The
register is empty until the first reconciliation, and from then on it has what the parent has. -/
structure Follows (event : Nat → Event) (k : Nat) (c : Copies) (v : Value) : Prop where
  own : c.own = v
  unfilled : (∀ j < k, event j ≠ .upkeep .sync) → c.agreed = .nil
  filled : ∀ j < k, event j = .upkeep .sync → c.agreed = c.parent

theorem Follows.step {k : Nat} (h : Follows event k c v)
    (halone : event k = .inner ∨ event k = .idle ∨ event k = .upkeep .sync)
    (hsafe : event k = .upkeep .sync → (∀ j < k, event j ≠ .upkeep .sync) → v = .nil →
      c.parent = .nil) (hpass : (event k).Passes c v c' v') : Follows event (k + 1) c' v' := by
  have hbefore : (∀ j < k + 1, event j ≠ .upkeep .sync) → ∀ j < k, event j ≠ .upkeep .sync :=
    fun h j hj => h j (Nat.lt_succ_of_lt hj)
  have hearlier : event k ≠ .upkeep .sync → ∀ j < k + 1, event j = .upkeep .sync →
      c.agreed = c.parent := by
    intro hk j hj hsync
    rcases Nat.lt_succ_iff_lt_or_eq.mp hj with hj | rfl
    · exact h.filled j hj hsync
    · exact absurd hsync hk
  rcases halone with he | he | he
  · have hagreed := hearlier (by simp [he])
    rw [he] at hpass
    cases hpass
    exact ⟨rfl, fun hno => h.unfilled (hbefore hno), hagreed⟩
  · have hagreed := hearlier (by simp [he])
    rw [he] at hpass
    cases hpass with
    | idle _ _ hnil =>
      exact ⟨congrArg _ h.own, fun hno => (congrArg _ (h.unfilled (hbefore hno))).trans hnil,
        fun j hj hsync => congrArg _ (hagreed j hj hsync)⟩
  · obtain ⟨rfl, rfl⟩ := Event.passes_upkeep_iff.mp (he ▸ hpass)
    have hkept : c.settled = c.own := by
      refine Copies.settled_eq_own.mpr fun hsame => ?_
      by_cases hfirst : ∀ j < k, event j ≠ .upkeep .sync
      · -- A nil in the copy and in the register: nothing may be taken from the parent but nil.
        have hnil := hsame.trans (h.unfilled hfirst)
        rw [hsafe he hfirst (h.own.symm.trans hnil), hnil]
      · push Not at hfirst
        obtain ⟨j, hj, hsync⟩ := hfirst
        rw [hsame, h.filled j hj hsync]
    exact ⟨hkept.trans h.own, fun hno => absurd he (hno k (Nat.lt_succ_self k)), fun _ _ _ => rfl⟩

/-- A variable that a block chains, while only the block and the blocks nested in it assign to it.
Its copy holds the value assigned last all the time, and the parent's slot does so after the way
out, exactly if the first reconciliation finds no nil that was assigned over another value: the
register it looks at is nil as well. -/
theorem Course.copy_holds_latest (course : Course s moment event (turns + 1)) {old : Value}
    (hstart : (moment 0).Chains s ⟨old, (moment 0).latest, .nil⟩)
    (henter : event 0 = .upkeep .promote)
    (halone : ∀ k, 0 < k → k ≤ turns →
      event k = .inner ∨ event k = .idle ∨ event k = .upkeep .sync) :
    ((∀ k, 0 < k → k ≤ turns + 1 → (moment k).OwnHolds s (moment k).latest) ∧
      ∀ q, Turn s (moment (turns + 1)) (.upkeep .restore) q → q.ParentHolds s q.latest) ↔
    ∀ k ≤ turns, event k = .upkeep .sync → (∀ j < k, event j ≠ .upkeep .sync) →
      (moment k).latest = .nil → (moment k).ParentHolds s .nil := by
  obtain ⟨copies, hzero, hcopies, hpasses⟩ := course.exists_copies hstart
  have hfirst : Follows event 1 (copies 1) (moment 1).latest := by
    obtain ⟨hcopies₁, hlatest⟩ := Event.passes_upkeep_iff.mp (henter ▸ hpasses 0 (Nat.succ_pos _))
    rw [hcopies₁, hlatest, hzero]
    refine ⟨rfl, fun _ => rfl, fun j hj hsync => ?_⟩
    rw [Nat.lt_one_iff.mp hj, henter] at hsync
    cases hsync
  have hfollows : ∀ k, 0 < k → k ≤ turns + 1 →
      (∀ i < k, event i = .upkeep .sync → (∀ j < i, event j ≠ .upkeep .sync) →
        (moment i).latest = .nil → (copies i).parent = .nil) →
      Follows event k (copies k) (moment k).latest := by
    intro k hpos
    induction k, hpos using Nat.le_induction with
    | base => exact fun _ _ => hfirst
    | succ k hpos ih =>
      intro hk hsafe
      have hbefore := ih (Nat.le_of_succ_le hk) fun i hi => hsafe i (Nat.lt_succ_of_lt hi)
      exact hbefore.step (halone k hpos (Nat.le_of_succ_le_succ hk)) (hsafe k (Nat.lt_succ_self k))
        (hpasses k hk)
  constructor
  · rintro ⟨hheld, -⟩ k hk hsync hnone hnil
    have hpos : 0 < k := Nat.pos_of_ne_zero fun h => by simp [h, henter] at hsync
    have hbefore := hfollows k hpos (Nat.le_succ_of_le hk)
      fun i hi hsync' => absurd hsync' (hnone i hi)
    obtain ⟨hnext, hlatest⟩ :=
      Event.passes_upkeep_iff.mp (hsync ▸ hpasses k (Nat.lt_succ_of_le hk))
    have hkept : (copies k).settled = (copies k).own := by
      have := (hcopies (k + 1) (Nat.succ_le_succ hk)).own.unique
        (hheld (k + 1) (Nat.succ_pos _) (Nat.succ_le_succ hk))
      rwa [hnext, hlatest, ← hbefore.own] at this
    have hown : (copies k).own = .nil := hbefore.own.trans hnil
    have hparent : (copies k).parent = .nil :=
      (Copies.settled_eq_own.mp hkept (hown.trans (hbefore.unfilled hnone).symm)).trans hown
    exact hparent ▸ (hcopies k (Nat.le_succ_of_le hk)).parent
  · intro hsafe
    have hown : ∀ k, 0 < k → k ≤ turns + 1 → (copies k).own = (moment k).latest := by
      intro k hpos hk
      refine (hfollows k hpos hk fun i hi hsync hnone hnil => ?_).own
      have hi' : i ≤ turns := Nat.le_of_lt_succ (Nat.lt_of_lt_of_le hi hk)
      exact (hcopies i (Nat.le_succ_of_le hi')).parent.unique (hsafe i hi' hsync hnone hnil)
    refine ⟨fun k hpos hk => hown k hpos hk ▸ (hcopies k hk).own, fun q hleave => ?_⟩
    obtain ⟨c, hc, hpass⟩ := hleave.passes (course.intact_at (Nat.le_refl _)).1
      (hcopies (turns + 1) (Nat.le_refl _))
    obtain ⟨rfl, hlatest⟩ := Event.passes_upkeep_iff.mp hpass
    rw [hlatest, ← hown (turns + 1) (Nat.succ_pos _) (Nat.le_refl _)]
    exact hc.parent

def chainedObjects (c : Copies) : ImageAction Value := do
  let context ← Image.onHeap (Heap.allocatePointers .nil 9)
  let mine ← Image.onHeap (Heap.allocatePointers .nil 1)
  let theirs ← Image.onHeap (Heap.allocatePointers .nil 1)
  Image.fillSlots mine 0 [c.own]
  Image.fillSlots theirs 0 [c.parent]
  Image.fillSlots context Slot.Context.heapVars [mine, theirs, .nil, .ofNat 9, c.agreed]
  return context

/-- A block that is about to execute some code. -/
def chainedMachine (c : Copies) (code : List Instruction) : Machine :=
  .poised Machine.blankImage (chainedObjects c) code 7

def chainedActivation : Activation where
  context := .ofAddress ⟨.pointers, 2⟩
  mine := .ofAddress ⟨.pointers, 13⟩
  theirs := .ofAddress ⟨.pointers, 16⟩
  context_ne_mine := by decide
  context_ne_theirs := by decide
  mine_ne_theirs := by decide

theorem chainedMachine_intact {c : Copies} (hown : Trusted [] c.own) (hparent : Trusted [] c.parent)
    (hagreed : Trusted [] c.agreed) (code : List Instruction) :
    Intact (chainedMachine c code) := by
  refine Machine.poised_intact Machine.blankImage_intact ?_ code 7
  refine .bind (Image.onHeap_stable (Heap.allocatePointers_stable (by simp) _)) fun context => ?_
  refine .bind (Image.onHeap_stable (Heap.allocatePointers_stable (by simp) _)) fun mine => ?_
  refine .bind (Image.onHeap_stable (Heap.allocatePointers_stable (by simp) _)) fun theirs => ?_
  refine .bind (Image.fillSlots_stable (by simp) _ (by simp [hown])) fun _ => ?_
  refine .bind (Image.fillSlots_stable (by simp) _ (by simp [hparent])) fun _ => ?_
  refine .bind (Image.fillSlots_stable (by simp) _ (by simp [hagreed])) fun _ => ?_
  exact .pure (by simp)

@[irreducible]
def Machine.next (m : Machine) : Machine :=
  match step .never m with
  | .ok _ m' => m'
  | .error _ m' => m'

/-- Whether a turn leaves the run going on. -/
def Machine.goesOn (m : Machine) : Bool :=
  match step .never m with
  | .ok none _ => true
  | _ => false

theorem Machine.step_of_goesOn {m : Machine} (h : m.goesOn = true) :
    step .never m = .ok none m.next := by
  rw [goesOn] at h
  rw [next]
  split at h
  · rename_i m' heq
    rw [heq]
  · cases h

theorem Machine.intact_next {m : Machine} (hm : Intact m) (hstop : m.stop = none)
    (h : m.goesOn = true) : Intact m.next ∧ m.next.stop = none := by
  have hstep := step_of_goesOn h
  have hkept := step_kept hm hstop .never
  rw [hstep] at hkept
  exact ⟨hkept.1, stop_eq_none_of_step hstep⟩

def assigningMoment (k : Nat) : Moment where
  machine := Machine.next^[k]
    (chainedMachine ⟨.nil, .ofNat 5, .nil⟩ [.promote 0 0, .storeOwn 0, .sync 0 0 1, .restore 0 0])
  activation := chainedActivation
  latest := if k ≤ 1 then .ofNat 5 else .ofNat 7

def assigningEvent (k : Nat) : Event := [.upkeep .promote, .inner, .upkeep .sync].getD k .idle

theorem assigning_course : Course ⟨0, 0, 1⟩ assigningMoment assigningEvent 3 := by
  have hintact : Intact (assigningMoment 0).machine :=
    chainedMachine_intact (c := ⟨.nil, .ofNat 5, .nil⟩) trusted_nil (trusted_ofNat 5) trusted_nil _
  refine ⟨hintact, by decide +kernel, fun k hk => ?_⟩
  match k, hk with
  | 0, _ =>
    exact ⟨Machine.step_of_goesOn (by decide +kernel), by decide +kernel, ⟨3, by decide +kernel⟩,
      rfl, rfl⟩
  | 1, _ =>
    have hintact' : Intact (assigningMoment 1).machine :=
      (Machine.intact_next hintact (by decide +kernel) (by decide +kernel)).1
    have hvalue : (assigningMoment 1).machine.accumulator = .ofNat 7 := by decide +kernel
    have hturn := Turn.inner_of_assigned (s := ⟨0, 0, 1⟩) (i := .storeOwn 0) hintact'
      (Machine.step_of_goesOn (by decide +kernel))
      (show Code.decodeAt _ _ = .ok (_, 5) by decide +kernel) rfl (by decide +kernel)
    rwa [hvalue] at hturn
  | 2, _ =>
    exact ⟨Machine.step_of_goesOn (by decide +kernel), by decide +kernel, ⟨9, by decide +kernel⟩,
      rfl, rfl⟩

theorem assigning_holds_latest : (assigningMoment 3).OwnHolds ⟨0, 0, 1⟩ (.ofNat 7) ∧
    (assigningMoment 4).ParentHolds ⟨0, 0, 1⟩ (.ofNat 7) := by
  have hintact := assigning_course.intact
  have hcontext : (assigningMoment 0).machine.context = chainedActivation.context := by
    decide +kernel
  have hstart : (assigningMoment 0).Chains ⟨0, 0, 1⟩ ⟨.nil, (assigningMoment 0).latest, .nil⟩ :=
    hintact.whole.chains (hcontext ▸ hintact.held _ (by simp)) (by decide +kernel)
      (by decide +kernel) (by decide +kernel) (by decide +kernel) (by decide +kernel)
  have halone : ∀ k, 0 < k → k ≤ 2 → assigningEvent k = .inner ∨ assigningEvent k = .idle ∨
      assigningEvent k = .upkeep .sync := by
    intro k hpos hk
    match k, hk with
    | 1, _ => exact .inl rfl
    | 2, _ => exact .inr (.inr rfl)
  obtain ⟨hown, hparent⟩ := (Course.copy_holds_latest assigning_course hstart rfl halone).mpr <| by
    intro k hk hsync _ hnil
    match k, hk with
    | 0, _ | 1, _ => cases hsync
    | 2, _ => exact absurd hnil (by decide)
  exact ⟨hown 3 (by decide) (by decide), hparent (assigningMoment 4)
    ⟨Machine.step_of_goesOn (by decide +kernel), by decide +kernel, ⟨12, by decide +kernel⟩,
      rfl, rfl⟩⟩

def lastWriter (event : Nat → Event) : Nat → Event
  | 0 => .idle
  | k + 1 => if event k = .inner ∨ event k = .outer then event k else lastWriter event k

theorem lastWriter_eq {k : Nat} (h : lastWriter event k = e) (he : e ≠ .idle) :
    ∃ j < k, event j = e := by
  induction k with
  | zero => exact absurd h.symm he
  | succ k ih =>
    rw [lastWriter] at h
    split at h
    · exact ⟨k, Nat.lt_succ_self k, h⟩
    · obtain ⟨j, hj, hevent⟩ := ih h
      exact ⟨j, Nat.lt_succ_of_lt hj, hevent⟩

/-- The values of a variable in the course of a call that started from one agreed value. -/
structure Diverges (event : Nat → Event) (k : Nat) (c : Copies) (v : Value) : Prop where
  own : lastWriter event k ≠ .outer → c.own = v
  parent : lastWriter event k ≠ .inner → c.parent = v
  own_agreed : (∀ j < k, event j ≠ .inner) → c.own = c.agreed
  parent_agreed : (∀ j < k, event j ≠ .outer) → c.parent = c.agreed

theorem Diverges.step {k : Nat} (h : Diverges event k c v)
    (hcall : event k = .inner ∨ event k = .outer ∨ event k = .idle)
    (hpass : (event k).Passes c v c' v') : Diverges event (k + 1) c' v' := by
  have hbefore : ∀ {e : Event}, (∀ j < k + 1, event j ≠ e) → ∀ j < k, event j ≠ e :=
    fun h j hj => h j (Nat.lt_succ_of_lt hj)
  rcases hcall with he | he | he
  · rw [he] at hpass
    cases hpass
    refine ⟨fun _ => rfl, fun hne => ?_, fun hno => ?_, fun hno => h.parent_agreed (hbefore hno)⟩
    · simp [lastWriter, he] at hne
    · exact absurd he (hno k (Nat.lt_succ_self k))
  · rw [he] at hpass
    cases hpass
    refine ⟨fun hne => ?_, fun _ => rfl, fun hno => h.own_agreed (hbefore hno), fun hno => ?_⟩
    · simp [lastWriter, he] at hne
    · exact absurd he (hno k (Nat.lt_succ_self k))
  · have hsame : lastWriter event (k + 1) = lastWriter event k := by simp [lastWriter, he]
    rw [he] at hpass
    cases hpass
    refine ⟨fun hne => congrArg _ (h.own (hsame ▸ hne)),
      fun hne => congrArg _ (h.parent (hsame ▸ hne)),
      fun hno => congrArg _ (h.own_agreed (hbefore hno)),
      fun hno => congrArg _ (h.parent_agreed (hbefore hno))⟩

/-- When a reconciliation finds the value that was assigned last. -/
theorem Diverges.settled_eq_iff {k : Nat} (h : Diverges event k c v) : c.settled = v ↔
    c.own = c.parent ∨ (c.own ≠ c.agreed ↔ lastWriter event k = .inner) := by
  rw [Copies.settled]
  by_cases hinner : lastWriter event k = .inner
  · have hown := h.own (by simp [hinner])
    by_cases hchanged : c.own = c.agreed
    · simp [hinner, hchanged, ← hown, eq_comm]
    · rw [if_pos hchanged]
      exact iff_of_true hown (.inr (iff_of_true hchanged hinner))
  · have hparent := h.parent hinner
    by_cases hchanged : c.own = c.agreed
    · simp [hinner, hchanged, hparent]
    · simp [hinner, hchanged, hparent]

/-- With one side assigning, a reconciliation finds what it assigned last. -/
theorem Diverges.settled_eq {k : Nat} (h : Diverges event k c v)
    (hside : (∀ j < k, event j ≠ .inner) ∨ ∀ j < k, event j ≠ .outer) : c.settled = v := by
  rcases hside with hno | hno
  · have hwriter : lastWriter event k ≠ .inner := by
      intro heq
      obtain ⟨j, hj, hevent⟩ := lastWriter_eq heq (by decide)
      exact hno j hj hevent
    rw [Copies.settled, if_neg (not_not.mpr (h.own_agreed hno)), h.parent hwriter]
  · have hwriter : lastWriter event k ≠ .outer := by
      intro heq
      obtain ⟨j, hj, hevent⟩ := lastWriter_eq heq (by decide)
      exact hno j hj hevent
    rw [Copies.settled_eq_own.mpr fun hsame => (h.parent_agreed hno).trans hsame.symm,
      h.own hwriter]

/-- A call that a block makes while it chains a variable. The nested blocks read and assign the
block's copy, the enclosing scope and its other blocks the slot of the parent, in any order. Each
side reads its own last value until the other side assigns. After the call both sides read one
value; it is the one assigned last if only one side assigned, and otherwise exactly if the copies
are equal or the block's copy was changed just when the last assignment went to it. -/
theorem Course.call_settles (course : Course s moment event (turns + 1))
    (hstart : (moment 0).Chains s ⟨(moment 0).latest, (moment 0).latest, (moment 0).latest⟩)
    (hcall : ∀ k < turns, event k = .inner ∨ event k = .outer ∨ event k = .idle)
    (hreturn : event turns = .upkeep .sync) :
    (∀ k ≤ turns, lastWriter event k ≠ .outer → (moment k).OwnHolds s (moment k).latest) ∧
    (∀ k ≤ turns, lastWriter event k ≠ .inner → (moment k).ParentHolds s (moment k).latest) ∧
    ∃ c, (moment turns).Chains s c ∧
      (moment (turns + 1)).Chains s ⟨c.settled, c.settled, c.settled⟩ ∧
      (c.settled = (moment (turns + 1)).latest ↔
        c.own = c.parent ∨ (c.own ≠ c.agreed ↔ lastWriter event turns = .inner)) ∧
      ((∀ k < turns, event k ≠ .inner) ∨ (∀ k < turns, event k ≠ .outer) →
        c.settled = (moment (turns + 1)).latest) := by
  obtain ⟨copies, hzero, hcopies, hpasses⟩ := course.exists_copies hstart
  have hdiverges : ∀ k ≤ turns, Diverges event k (copies k) (moment k).latest := by
    intro k hk
    induction k with
    | zero =>
      rw [hzero]
      exact ⟨fun _ => rfl, fun _ => rfl, fun _ => rfl, fun _ => rfl⟩
    | succ k ih =>
      exact (ih (Nat.le_of_succ_le hk)).step (hcall k hk) (hpasses k (Nat.lt_succ_of_lt hk))
  obtain ⟨hnext, hlatest⟩ :=
    Event.passes_upkeep_iff.mp (hreturn ▸ hpasses turns (Nat.lt_succ_self _))
  have hlast := hdiverges turns (Nat.le_refl _)
  refine ⟨fun k hk hne => (hdiverges k hk).own hne ▸ (hcopies k (Nat.le_succ_of_le hk)).own,
    fun k hk hne => (hdiverges k hk).parent hne ▸ (hcopies k (Nat.le_succ_of_le hk)).parent,
    copies turns, hcopies turns (Nat.le_succ _), ?_, hlatest ▸ hlast.settled_eq_iff, ?_⟩
  · have := hcopies (turns + 1) (Nat.le_refl _)
    rwa [hnext] at this
  · exact fun hside => hlatest ▸ hlast.settled_eq hside

/-- A call in which 7 is assigned through the block's copy, and then 9 through the parent's slot. -/
def callingMoment (k : Nat) : Moment where
  machine := Machine.next^[k] (chainedMachine ⟨.ofNat 5, .ofNat 5, .ofNat 5⟩
    [.storeOwn 0, .loadRegister 0, .storeParent 0, .sync 0 0 1])
  activation := chainedActivation
  latest := if k = 0 then .ofNat 5 else if k ≤ 2 then .ofNat 7 else .ofNat 9

def callingEvent (k : Nat) : Event := [.inner, .idle, .outer, .upkeep .sync].getD k .idle

theorem calling_course : Course ⟨0, 0, 1⟩ callingMoment callingEvent 4 := by
  have hintact : Intact (callingMoment 0).machine :=
    chainedMachine_intact (c := ⟨.ofNat 5, .ofNat 5, .ofNat 5⟩) (trusted_ofNat 5) (trusted_ofNat 5)
      (trusted_ofNat 5) _
  have hstop : (callingMoment 0).machine.stop = none := by decide +kernel
  refine ⟨hintact, hstop, fun k hk => ?_⟩
  match k, hk with
  | 0, _ =>
    have hvalue : (callingMoment 0).machine.accumulator = .ofNat 7 := by decide +kernel
    have hturn := Turn.inner_of_assigned (s := ⟨0, 0, 1⟩) (i := .storeOwn 0) hintact
      (Machine.step_of_goesOn (by decide +kernel))
      (show Code.decodeAt _ _ = .ok (_, 2) by decide +kernel) rfl (by decide +kernel)
    rwa [hvalue] at hturn
  | 1, _ =>
    exact Turn.idle_of_loadRegister (p := callingMoment 1) (r := 0)
      (Machine.step_of_goesOn (by decide +kernel))
      (show Code.decodeAt _ _ = .ok (_, 4) by decide +kernel)
  | 2, _ =>
    have hintact' : Intact (callingMoment 2).machine := by
      obtain ⟨hintact, hstop⟩ := Machine.intact_next hintact hstop (by decide +kernel)
      exact (Machine.intact_next hintact hstop (by decide +kernel)).1
    have hvalue : (callingMoment 2).machine.accumulator = .ofNat 9 := by decide +kernel
    have hturn := Turn.outer_of_assigned (s := ⟨0, 0, 1⟩) (i := .storeParent 0) hintact'
      (Machine.step_of_goesOn (by decide +kernel))
      (show Code.decodeAt _ _ = .ok (_, 6) by decide +kernel) rfl (by decide +kernel)
    rwa [hvalue] at hturn
  | 3, _ =>
    exact ⟨Machine.step_of_goesOn (by decide +kernel), by decide +kernel, ⟨10, by decide +kernel⟩,
      rfl, rfl⟩

/-- Both sides read 7 after the call. -/
theorem calling_settles : (callingMoment 4).OwnHolds ⟨0, 0, 1⟩ (.ofNat 7) ∧
    (callingMoment 4).ParentHolds ⟨0, 0, 1⟩ (.ofNat 7) ∧ (callingMoment 4).latest = .ofNat 9 := by
  have hintact := calling_course.intact
  have hcontext : (callingMoment 0).machine.context = chainedActivation.context := by
    decide +kernel
  have hstart : (callingMoment 0).Chains ⟨0, 0, 1⟩
      ⟨(callingMoment 0).latest, (callingMoment 0).latest, (callingMoment 0).latest⟩ :=
    hintact.whole.chains (hcontext ▸ hintact.held _ (by simp)) (by decide +kernel)
      (by decide +kernel) (by decide +kernel) (by decide +kernel) (by decide +kernel)
  have hcall : ∀ k < 3, callingEvent k = .inner ∨ callingEvent k = .outer ∨
      callingEvent k = .idle := by decide
  obtain ⟨-, -, c, hbefore, hafter, -⟩ := Course.call_settles calling_course hstart hcall rfl
  have hsettled : c.settled = .ofNat 7 := by
    have hown : (callingMoment 3).machine.image.heap.slot chainedActivation.mine 0 =
        .ok (.ofNat 7) := by decide +kernel
    have hagreed : (callingMoment 3).machine.image.heap.slot chainedActivation.context 8 =
        .ok (.ofNat 5) := by decide +kernel
    rw [Copies.settled, Except.ok.inj (hbefore.own.slot.symm.trans hown),
      Except.ok.inj (hbefore.agreed.slot.symm.trans hagreed), if_pos (by decide)]
  rw [hsettled] at hafter
  exact ⟨hafter.own, hafter.parent, rfl⟩

end ObjectMachine
