import ObjectMachine.Proofs.Code.Tending
import ObjectMachine.Proofs.Scheduling.Sharing

namespace ObjectMachine

section Sharing

variable (stage : Nat → Stage) (deed : Nat → Deed) (track : Nat → Track) (n start : Nat)
  (context vars : Value) (slot : UInt8)

/-- Some steps later, a context that is tied to the heap variables executes an instruction. -/
def Works (d : Nat) (tie : Tie) (i : Instruction) (m : Machine) : Prop :=
  ∃ m₁, stage (start + d) = .running m ∧ deed (start + d) = .execute i m₁ ∧
    Tied stage deed track start context d tie m.context

/-- Some steps later, the heap variables are in `y`, and the one in the slot has a value. -/
def HasCell (d : Nat) (y x : Value) : Prop :=
  Track.along track start d vars y ∧ (stage (start + d)).heap.Holds ⟨y, slot.toNat⟩ x

/-- What an activation and its blocks do about a heap variable is done to one cell. -/
structure SharesCell : Prop where
  /-- They lead to the same heap variables, wherever these have been moved. -/
  tied : ∀ {d tie v}, start + d ≤ n → Tied stage deed track start context d tie v →
    ∃ y, Track.along track start d vars y ∧ (stage (start + d)).heap.Holds ⟨v, tie.field⟩ y
  /-- What is read is the value of the cell. -/
  reads : ∀ {d tie i m y x}, start + d < n → Works stage deed track start context d tie i m →
    tie.Reads slot i → HasCell stage track start vars slot d y x → track (start + d) = Eq ∧
      ∃ m', stage (start + d + 1) = .running m' ∧ m'.accumulator = x ∧
        m'.image.heap = m.image.heap
  /-- What is assigned becomes the value of the cell, and no other cell changes. -/
  assigns : ∀ {d tie i m y x}, start + d < n → Works stage deed track start context d tie i m →
    tie.Assigns slot i → HasCell stage track start vars slot d y x → track (start + d) = Eq ∧
      m.image.heap.Rewrites (stage (start + d + 1)).heap ⟨y, slot.toNat⟩ m.accumulator
  /-- What is read is what was stored last, by whichever of them and in whichever process. -/
  latest : ∀ {j e tie tie' i i' m m' y x}, start + (j + 1 + e) < n →
    Works stage deed track start context j tie i m → tie.Assigns slot i →
    HasCell stage track start vars slot j y x →
    Works stage deed track start context (j + 1 + e) tie' i' m' → tie'.Reads slot i' →
    (∀ q < e, ∀ z, Track.along track start (j + 1 + q + 1) vars z →
      ¬(deed (start + (j + 1 + q))).Stores ⟨z, slot.toNat⟩) →
    ∃ m'', stage (start + (j + 1 + e) + 1) = .running m'' ∧
      Track.along track (start + (j + 1)) e m.accumulator m''.accumulator

variable {stage deed track n start context vars slot}

theorem Sheltered.reads {d : Nat} {tie : Tie} {i : Instruction} {m : Machine} {y x : Value}
    (sheltered : Sheltered stage deed track n start context vars)
    (history : History stage deed track n) (hd : start + d < n)
    (hw : Works stage deed track start context d tie i m) (hi : tie.Reads slot i)
    (hc : HasCell stage track start vars slot d y x) : track (start + d) = Eq ∧
      ∃ m', stage (start + d + 1) = .running m' ∧ m'.accumulator = x ∧
        m'.image.heap = m.image.heap := by
  obtain ⟨m₁, hstage, hdeed, htied⟩ := hw
  obtain ⟨hy, hx⟩ := hc
  obtain ⟨y', hy', hvars⟩ := history.tied_holds sheltered hd.le htied
  obtain rfl := history.along_unique hd.le hy' hy
  have hstep := history.step (start + d) hd
  rw [hstage, hdeed] at hstep
  rw [hstage] at hx hvars
  exact hstep.reads hi.read? hvars hx

theorem Sheltered.assigns {d : Nat} {tie : Tie} {i : Instruction} {m : Machine} {y x : Value}
    (sheltered : Sheltered stage deed track n start context vars)
    (history : History stage deed track n) (hd : start + d < n)
    (hw : Works stage deed track start context d tie i m) (hi : tie.Assigns slot i)
    (hc : HasCell stage track start vars slot d y x) : track (start + d) = Eq ∧
      m.image.heap.Rewrites (stage (start + d + 1)).heap ⟨y, slot.toNat⟩ m.accumulator := by
  obtain ⟨m₁, hstage, hdeed, htied⟩ := hw
  obtain ⟨hy, hx⟩ := hc
  obtain ⟨y', hy', hvars⟩ := history.tied_holds sheltered hd.le htied
  obtain rfl := history.along_unique hd.le hy' hy
  have hs := history.sound_at hd.le
  have hstep := history.step (start + d) hd
  rw [hstage, hdeed] at hstep
  rw [hstage] at hs hx hvars
  exact hstep.assigns hs hi.assigned? hvars hx

theorem Sheltered.sharesCell (sheltered : Sheltered stage deed track n start context vars)
    (history : History stage deed track n) (slot : UInt8) :
    SharesCell stage deed track n start context vars slot := by
  refine ⟨fun hd h => history.tied_holds sheltered hd h, sheltered.reads history,
    sheltered.assigns history, ?_⟩
  intro j e tie tie' i i' m m' y x hn hw hi hc hw' hi' hquiet
  obtain ⟨hstill, hwritten⟩ := sheltered.assigns history (by omega) hw hi hc
  -- The heap variables have not moved when the assignment is done, and are followed from there on.
  have hy : Track.along track start (j + 1) vars y := ⟨y, hc.1, by rw [hstill]⟩
  obtain ⟨_, -, -, htied⟩ := id hw'
  obtain ⟨z, hz, -⟩ := history.tied_holds sheltered hn.le htied
  obtain ⟨w, hw₁, hmoved⟩ := Track.along_add hz
  obtain rfl := history.along_unique (by omega) hw₁ hy
  obtain ⟨x', hx', hholds⟩ := history.along_holds (by omega) hmoved hwritten.written
    fun q hq z hz => by
      have hz' : Track.along track start (j + 1 + q + 1) vars z :=
        Track.along_trans (e := q + 1) hy hz
      obtain ⟨hprocess, hcontext⟩ := sheltered.array (d := j + 1 + q) (by omega) hz'
      rw [Nat.add_assoc]
      exact ⟨hquiet q hq z hz', hprocess, fun _ => hcontext⟩
  rw [Nat.add_assoc] at hholds
  obtain ⟨-, m'', hstage, hread, -⟩ := sheltered.reads history hn hw' hi' ⟨hz, hholds⟩
  exact ⟨m'', hstage, hread ▸ hx'⟩

end Sharing

/-- A variable that is used in its scope and in blocks right inside it, and in one of these at
least. It has a slot to which all its uses are bound, and in the code of its scope and of the blocks
right inside only assignments to it write to the slot. In every history, an activation and all
blocks that are copied in it use one cell for the slot, in whichever process, whether or not the
activation has returned and wherever collections move it, so that what is read is what was stored
last; unless the program stores into the slots that link them, or takes their objects for what they
are not. Cells of different activations are different. -/
theorem History.captured_variable_shared {method : Method} {instanceVariables : List String}
    {r : ResolvedMethod} {place : Place} {stage : Nat → Stage} {deed : Nat → Deed}
    {track : Nat → Track} {n : Nat} (hresolve : method.resolve instanceVariables = .ok r)
    (hcaptured : ¬r.UsesPrivately method place) (hshallow : r.UsesShallowly method place)
    (history : History stage deed track n) : ∃ slot, r.scopes.Keeps place slot ∧
      LexicalAll r.scopes (r.scopes.Direct place slot) r.scopes.Denotes 0 false
        (Env.declare [] 0 0 (method.params ++ method.temps)) method.body r.body ∧
      (∀ t, method.compile instanceVariables = .ok t → r.scopes.Codes 0 t) ∧
      (∀ id s t pc i, r.scopes.scopes[id]? = some s → r.scopes.Codes id t →
        (pc, i) ∈ (Code.decodeAll t.bytecode).1 →
        (id = place.owner → i.ownSlot? = some slot → i = .storeOwn slot) ∧
        (s.parent = some place.owner → i.parentSlot? = some slot → i = .storeParent slot)) ∧
      (∀ start context vars, Sheltered stage deed track n start context vars →
        SharesCell stage deed track n start context vars slot) ∧
      ∀ j k e c₁ c₂ vars₁ vars₂ y₁ y₂ x, j < k → k + 1 + e ≤ n →
        (stage j).Begins (deed j) (stage (j + 1)) c₁ →
        (stage (j + 1)).heap.Holds ⟨c₁, Slot.Context.heapVars⟩ vars₁ →
        (stage k).Begins (deed k) (stage (k + 1)) c₂ →
        (stage (k + 1)).heap.Holds ⟨c₂, Slot.Context.heapVars⟩ vars₂ →
        Track.along track (j + 1) (k - j + e) vars₁ y₁ → Track.along track (k + 1) e vars₂ y₂ →
        (stage (k + 1 + e)).heap.Holds ⟨y₂, slot.toNat⟩ x →
        (⟨y₁, slot.toNat⟩ : Cell) ≠ ⟨y₂, slot.toNat⟩ := by
  obtain ⟨s₀, hf⟩ := Method.resolve_follows hresolve
  obtain ⟨slot, hkeeps⟩ := Method.resolve_keeps hresolve hcaptured
  have hunchained := Method.resolve_unchained hresolve hshallow
  refine ⟨slot, hkeeps, Method.resolve_direct hresolve hshallow hkeeps,
    fun t ht => Method.compile_codes hresolve ht, fun id s t pc i hs ht hi => ⟨?_, ?_⟩,
    fun start context vars sheltered => sheltered.sharesCell history slot, ?_⟩
  · rintro rfl hslot
    exact ht.eq_storeOwn hf.coherent hkeeps hi hslot
  · intro hparent hslot
    exact ht.eq_storeParent hf.coherent hunchained hkeeps hs hparent hi hslot
  · intro j k e c₁ c₂ vars₁ vars₂ y₁ y₂ x hjk hn _ h₁ hb₂ h₂ hy₁ hy₂ hx hcells
    exact history.activations_apart hjk hn h₁ hb₂ h₂ hy₁ hy₂ hx (congrArg Cell.object hcells)

def capturing : Method where
  selector := "keep"
  temps := ["x"]
  body := [.assign "x" (.int 5), .block [] [] [.variable "x"]]

def capturingResolved : ResolvedMethod where
  selector := "keep"
  body := [.assign "x" (.own 0) (.literal (.integer 5)),
    .closure 1 [] [] [.variable "x" (.parent 0)]]
  scopes := {
    instanceVariables := []
    scopes := #[
      { kind := .method, parent := none, vars := #[⟨"x", .local, 1, some 0, true⟩],
        heapVars := #[.local] },
      { kind := .block, parent := some 0 }] }
  endsWithReturn := false

theorem capturing_resolves : capturing.resolve [] = .ok capturingResolved := by
  with_unfolding_all rfl

theorem capturing_shallow : capturingResolved.UsesShallowly capturing ⟨0, 0⟩ := by
  have hopens : capturingResolved.scopes.Opens 1 0 [] [] { kind := .block, parent := some 0 } :=
    ⟨rfl, rfl, rfl, by decide, rfl, by decide, by decide⟩
  exact .cons (.assign .literal fun _ => .inl rfl) (.cons (.closure hopens ⟨rfl, (by simp)⟩
    (.cons (.variable fun _ => .inr ⟨_, rfl, rfl⟩) .nil)) .nil)

theorem capturing_captured : ¬capturingResolved.UsesPrivately capturing ⟨0, 0⟩ := by
  rintro (_ | ⟨-, _ | ⟨h, -⟩⟩)
  cases h with
  | closure _ _ hbody =>
    cases hbody with
    | cons h _ =>
      cases h with
      | «variable» hown => exact absurd (hown rfl) (by decide)

/-- A context that assigns to a heap variable and reads it. -/
def sharingMachine : Machine := chainedMachine ⟨.nil, .ofNat 5, .nil⟩ [.storeOwn 0, .loadOwn 0]

def sharingTurn (k : Nat) : Instruction × Nat :=
  [(.storeOwn 0, 2), (.loadOwn 0, 4)].getD k (.loadNil, 0)

def sharingStage (k : Nat) : Stage := .running (Machine.next^[k] sharingMachine)

def sharingDeed (k : Nat) : Deed :=
  let m := Machine.next^[k] sharingMachine
  .execute (sharingTurn k).1 { m with
    clock := m.clock + 1, start := m.pc, pc := (sharingTurn k).2 }

theorem sharing_course : sharingMachine.process = sharingMachine.schedule.current ∧
    sharingMachine.image.heap.slot chainedActivation.context Slot.Context.heapVars =
      .ok chainedActivation.mine ∧
    ∀ k < 2, (Machine.next^[k] sharingMachine).interrupts.pending = false ∧
      (Machine.next^[k] sharingMachine).stop = none ∧
      Code.decodeAt (Machine.next^[k] sharingMachine).code (Machine.next^[k] sharingMachine).pc =
        .ok (sharingTurn k) ∧
      (Machine.next^[k] sharingMachine).goesOn = true ∧
      (Machine.next^[k] sharingMachine).context = chainedActivation.context ∧
      ∀ v ∈ (Machine.next^[k] sharingMachine).schedule.roots, v = .nil := by
  decide +kernel

theorem sharing_history : History sharingStage sharingDeed (fun _ => Eq) 2 := by
  have hintact : Intact sharingMachine :=
    chainedMachine_intact (c := ⟨.nil, .ofNat 5, .nil⟩) trusted_nil (trusted_ofNat 5) trusted_nil _
  refine ⟨⟨hintact, sharing_course.1⟩, fun k hk => ?_⟩
  have hpauses : ∀ m : Machine, ¬m.Pauses (sharingTurn k).1 := by
    intro m
    match k, hk with
    | 0, _ | 1, _ => simp [sharingTurn, Machine.Pauses, Machine.call?]
  obtain ⟨hcalm, hstop, hdecode, hgoesOn, -⟩ := sharing_course.2.2 k hk
  have hstep := Machine.step_of_goesOn hgoesOn
  rw [← Function.iterate_succ_apply' Machine.next] at hstep
  exact Stage.Step.of_turn hcalm hstop hdecode hpauses hstep

/-- Nothing but the context is tied to the heap variables. -/
theorem sharing_tied {d : Nat} {tie : Tie} {v : Value} (hd : d ≤ 2)
    (h : Tied sharingStage sharingDeed (fun _ => Eq) 0 chainedActivation.context d tie v) :
    tie = .activation ∧ v = chainedActivation.context := by
  induction h with
  | self => exact ⟨rfl, rfl⟩
  | moved _ hx ih => exact hx ▸ ih (by omega)
  | @copied d m m₁ m' index _ _ hdeed _ _ =>
    match d, hd with
    | 0, _ | 1, _ => cases hdeed
  | invoked _ _ _ _ _ _ ih => cases (ih (by omega)).1
  | forked _ _ _ _ _ _ ih => cases (ih (by omega)).1

theorem Schedule.eq_nil_of_lists {s : Schedule} {h : Heap} {v : Value}
    (hs : ∀ v ∈ s.roots, v = .nil) (hv : s.Lists h v) : v = .nil := by
  have hlinked : ∀ {head v : Value}, head = .nil → Queue.Linked h head v → v = .nil := by
    intro head v hhead hl
    induction hl with
    | head => exact hhead
    | next _ hnext ih =>
      subst ih
      have hcell : h.Holds ⟨.nil, Slot.Process.link⟩ _ := ⟨Arenas.sane_nil _, hnext⟩
      exact absurd rfl hcell.not_isNil
  cases hv with
  | runnable hl => exact hlinked (hs _ (by simp [roots])) hl
  | waiting hl => exact hlinked (hs _ (by simp [roots])) hl
  | lastRunnable | lastWaiting | current => exact hs _ (by simp [roots])

/-- What the instructions of the context have to do with objects. -/
theorem Machine.touches_first {m : Machine} {i : Instruction}
    (hi : i = .storeOwn 0 ∨ i = .loadOwn 0) :
    (∀ v, ¬m.Ends i v) ∧ ∀ c, m.Stores i c → c.index = 0 := by
  have hcalls : ∀ {prim args}, ¬m.Calls i prim args := by
    rintro prim args ⟨index, act, hcall, -⟩
    rcases hi with rfl | rfl <;> cases hcall
  refine ⟨fun v hv => ?_, fun c hc => ?_⟩
  · rcases hi with rfl | rfl <;> cases hv with | primitive h => exact hcalls h
  · cases hc with
    | own => rcases hi with hi | hi <;> cases hi; rfl
    | primitive h => exact absurd h hcalls
    | _ => rcases hi with hi | hi <;> cases hi

theorem sharing_deed {d : Nat} (hd : d < 2) : ∃ i m, sharingDeed d = .execute i m ∧
    (i = .storeOwn 0 ∨ i = .loadOwn 0) ∧ m.context = chainedActivation.context ∧
    ∀ v ∈ m.schedule.roots, v = .nil := by
  have hturn : (sharingTurn d).1 = .storeOwn 0 ∨ (sharingTurn d).1 = .loadOwn 0 := by
    match d, hd with
    | 0, _ => exact .inl rfl
    | 1, _ => exact .inr rfl
  obtain ⟨-, -, -, -, hcontext, hroots⟩ := sharing_course.2.2 d hd
  exact ⟨_, _, rfl, hturn, hcontext, hroots⟩

theorem sharing_sheltered : Sheltered sharingStage sharingDeed (fun _ => Eq) 2 0
    chainedActivation.context chainedActivation.mine := by
  have hcontext : sharingMachine.context = chainedActivation.context :=
    (sharing_course.2.2 0 (by decide)).2.2.2.2.1
  refine ⟨⟨?_, sharing_course.2.1⟩, fun {d tie v x} hd h hx => ?_, fun {d x} hd hx => ?_⟩
  · exact hcontext ▸ sharing_history.sound.1.held sharingMachine.context (by simp)
  · rw [Nat.zero_add] at hd ⊢
    obtain ⟨rfl, rfl⟩ := sharing_tied hd.le h
    obtain rfl := hx
    obtain ⟨i, m, hdeed, hi, -, hroots⟩ := sharing_deed hd
    rw [hdeed]
    exact ⟨fun h => absurd ((Machine.touches_first hi).2 _ h) (by decide),
      fun h => absurd (Schedule.eq_nil_of_lists hroots h) (by decide),
      fun h => absurd h (by decide)⟩
  · rw [Nat.zero_add] at hd ⊢
    obtain rfl := Track.along_eq hx
    obtain ⟨i, m, hdeed, hi, hat, hroots⟩ := sharing_deed hd
    rw [hdeed]
    refine ⟨fun h => absurd (Schedule.eq_nil_of_lists hroots h) (by decide), ?_⟩
    rintro (h | h)
    · exact chainedActivation.context_ne_mine (hat.symm.trans h)
    · exact (Machine.touches_first hi).1 _ h

/-- The method's variable, and a context that assigns to a variable and reads it. -/
theorem capturing_shared : ∃ slot, capturingResolved.scopes.Keeps ⟨0, 0⟩ slot ∧
    SharesCell sharingStage sharingDeed (fun _ => Eq) 2 0 chainedActivation.context
      chainedActivation.mine slot := by
  obtain ⟨slot, hkeeps, -, -, -, hshares, -⟩ := sharing_history.captured_variable_shared
    capturing_resolves capturing_captured capturing_shallow
  exact ⟨slot, hkeeps, hshares _ _ _ sharing_sheltered⟩

/-- An activation with 5 in its heap variable, and a context that runs a method of which the
activation is the receiver. -/
def cuttingObjects : ImageAction Value := do
  let bytecode ← Image.onHeap (Heap.allocateBytes .nil (encodeAll [.loadOwn 0]).toArray)
  let code ← Image.onHeap (Heap.allocatePointers .nil Slot.Code.count)
  let vars ← Image.onHeap (Heap.allocatePointers .nil 1)
  let other ← Image.onHeap (Heap.allocatePointers .nil 1)
  let activation ← Image.onHeap (Heap.allocatePointers .nil 8)
  let context ← Image.onHeap (Heap.allocatePointers .nil 9)
  Image.fillSlots code 0 [bytecode]
  Image.fillSlots vars 0 [.ofNat 5]
  Image.fillSlots activation 0 [.nil, .nil, code, .ofNat 0, vars]
  Image.fillSlots context 0
    [activation, activation, .nil, .ofNat 0, .nil, .nil, .nil, activation, other]
  return context

/-- The method gives the activation other heap variables and returns. The activation then reads its
variable. -/
def cuttingMachine : Machine :=
  .poised Machine.blankImage cuttingObjects [.loadRegister 1, .storeInstVar 4, .return_] 7

def cuttingVars : Value := .ofAddress ⟨.pointers, 12⟩

def cuttingActivation : Value := .ofAddress ⟨.pointers, 18⟩

def cuttingTurn (k : Nat) : Instruction × Nat :=
  [(.loadRegister 1, 2), (.storeInstVar 4, 4), (.return_, 5), (.loadOwn 0, 2)].getD k (.loadNil, 0)

def cuttingStage (k : Nat) : Stage := .running (Machine.next^[k] cuttingMachine)

def cuttingDeed (k : Nat) : Deed :=
  let m := Machine.next^[k] cuttingMachine
  .execute (cuttingTurn k).1 { m with
    clock := m.clock + 1, start := m.pc, pc := (cuttingTurn k).2 }

/-- What is found at each turn up to the return. -/
theorem cutting_course : cuttingMachine.process = cuttingMachine.schedule.current ∧
    cuttingMachine.image.heap.slot cuttingMachine.context Slot.Context.previous =
      .ok cuttingActivation ∧
    cuttingMachine.image.heap.slot cuttingActivation Slot.Context.heapVars = .ok cuttingVars ∧
    ∀ k < 3, (Machine.next^[k] cuttingMachine).interrupts.pending = false ∧
      (Machine.next^[k] cuttingMachine).stop = none ∧
      Code.decodeAt (Machine.next^[k] cuttingMachine).code (Machine.next^[k] cuttingMachine).pc =
        .ok (cuttingTurn k) ∧
      (k < 2 → (Machine.next^[k] cuttingMachine).goesOn = true) := by
  decide +kernel

theorem cuttingMachine_intact : Intact cuttingMachine := by
  refine Machine.poised_intact Machine.blankImage_intact ?_ _ 7
  refine .bind (Image.onHeap_stable (Heap.allocateBytes_stable (by simp) _)) fun _ => ?_
  refine .bind (Image.onHeap_stable (Heap.allocatePointers_stable (by simp) _)) fun _ => ?_
  refine .bind (Image.onHeap_stable (Heap.allocatePointers_stable (by simp) _)) fun _ => ?_
  refine .bind (Image.onHeap_stable (Heap.allocatePointers_stable (by simp) _)) fun _ => ?_
  refine .bind (Image.onHeap_stable (Heap.allocatePointers_stable (by simp) _)) fun _ => ?_
  refine .bind (Image.onHeap_stable (Heap.allocatePointers_stable (by simp) _)) fun _ => ?_
  refine .bind (Image.fillSlots_stable (by simp) _ (by simp)) fun _ => ?_
  refine .bind (Image.fillSlots_stable (by simp) _ (by simp)) fun _ => ?_
  refine .bind (Image.fillSlots_stable (by simp) _ (by simp)) fun _ => ?_
  refine .bind (Image.fillSlots_stable (by simp) _ (by simp)) fun _ => ?_
  exact .pure (by simp)

/-- A context returns to its caller, which goes on where it stopped. -/
theorem Machine.returnValue_of_slots {m : Machine} {v x target method literals pc bytes : Value}
    {code : Array UInt8} (hm : Intact m) (hcache : m.cache.isEmpty)
    (hx : m.image.heap.Holds ⟨m.context, Slot.Context.pc⟩ x)
    (hprevious : m.image.heap.Holds ⟨m.context, Slot.Context.previous⟩ target)
    (hne : target ≠ m.context) (hpc : m.image.heap.Holds ⟨target, Slot.Context.pc⟩ pc)
    (hlive : pc.isNil = false) (hmethod : m.image.heap.Holds ⟨target, Slot.Context.method⟩ method)
    (hliterals : m.image.heap.Holds ⟨method, Slot.Code.literals⟩ literals)
    (hbytes : m.image.heap.Holds ⟨method, Slot.Code.bytecode⟩ bytes)
    (hcode : m.image.heap.Spells bytes code) :
    ∃ heap cache, m.image.heap.Rewrites heap ⟨m.context, Slot.Context.pc⟩ .nil ∧
      returnValue v m = .ok () { m with
        image := { m.image with heap }, context := target, accumulator := v, method, literals,
        code, pc := pc.toNat?.getD 0, cache, epoch := heap.stats.collections } := by
  obtain ⟨heap, hset, hr⟩ := hx.write (ε := HeapError) hm.whole (Arenas.sane_nil _)
  let m₁ : Machine := { m with image := { m.image with heap } }
  let m₂ : Machine := { m₁ with accumulator := v, context := target }
  have hkept : ∀ {w i y}, i ≠ Slot.Context.pc → m.image.heap.Holds ⟨w, i⟩ y →
      heap.slot w i = .ok y := by
    intro w i y hi hy
    exact (hr.others (fun hc => hi (congrArg Cell.index hc)) hy).slot
  have hpc' : heap.slot target Slot.Context.pc = .ok pc :=
    (hr.others (fun hc => hne (congrArg Cell.object hc)) hpc).slot
  have hcache₂ : m₂.refreshed.cache[bytes]? = none := by
    rw [refreshed]
    split
    · exact Std.HashMap.getElem?_empty
    · exact Std.HashMap.getElem?_of_isEmpty hcache
  obtain ⟨cache, hfetch⟩ := fetchCode_of_bytes hcache₂ (hr.spells hcode).2
  have hload : loadFrame m₂ = .ok () { m₂ with
      method, literals, code, pc := pc.toNat?.getD 0, cache,
      epoch := heap.stats.collections } := by
    refine query_bind_eq_ok.mpr ⟨method, hkept (by decide) hmethod, ?_⟩
    refine query_bind_eq_ok.mpr ⟨literals, hkept (by decide) hliterals, ?_⟩
    refine query_bind_eq_ok.mpr ⟨pc, hpc', ?_⟩
    refine query_bind_eq_ok.mpr ⟨bytes, hkept (by decide) hbytes, ?_⟩
    exact bind_eq_ok.mpr ⟨code, _, hfetch, rfl⟩
  have htarget : target.isNil = false := by simpa using hpc.not_isNil
  refine ⟨heap, cache, hr, ?_⟩
  rw [returnValue, get_bind]
  refine bind_eq_ok.mpr ⟨(), m₁, setSlot_of_eq_ok hset,
    query_bind_eq_ok.mpr ⟨target, hkept (by decide) hprevious, ?_⟩⟩
  refine bind_eq_ok.mpr ⟨(), { m₁ with accumulator := v }, rfl, ?_⟩
  rw [htarget]
  refine query_bind_eq_ok.mpr ⟨pc, hpc', ?_⟩
  rw [hlive]
  exact bind_eq_ok.mpr ⟨(), m₂, rfl, hload⟩

theorem cutting_begins : History cuttingStage cuttingDeed (fun _ => Eq) 2 := by
  refine ⟨⟨cuttingMachine_intact, cutting_course.1⟩, fun k hk => ?_⟩
  have hpauses : ∀ m : Machine, ¬m.Pauses (cuttingTurn k).1 := by
    intro m
    match k, hk with
    | 0, _ | 1, _ => simp [cuttingTurn, Machine.Pauses, Machine.call?]
  obtain ⟨hcalm, hstop, hdecode, hgoesOn⟩ := cutting_course.2.2.2 k (Nat.lt_succ_of_lt hk)
  have hstep := Machine.step_of_goesOn (hgoesOn hk)
  rw [← Function.iterate_succ_apply' Machine.next] at hstep
  exact Stage.Step.of_turn hcalm hstop hdecode hpauses hstep

theorem cuttingActivation_linked : cuttingMachine.image.heap.Holds
    ⟨cuttingActivation, Slot.Context.heapVars⟩ cuttingVars := by
  have hcontext := cuttingMachine_intact.held cuttingMachine.context (by simp)
  exact ⟨cuttingMachine_intact.whole.slot hcontext cutting_course.2.1, cutting_course.2.2.1⟩

/-- What the method finds in the objects when it returns. -/
theorem cutting_slots :
    let h := (Machine.next^[2] cuttingMachine).image.heap
    let context := (Machine.next^[2] cuttingMachine).context
    (Machine.next^[2] cuttingMachine).cache.isEmpty ∧ h.slot cuttingVars 0 = .ok (.ofNat 5) ∧
    h.slot context Slot.Context.pc = .ok (.ofNat 0) ∧
    h.slot context Slot.Context.previous = .ok cuttingActivation ∧
    cuttingActivation ≠ context ∧
    h.slot cuttingActivation Slot.Context.pc = .ok (.ofNat 0) ∧
    h.slot cuttingActivation Slot.Context.method = .ok (.ofAddress ⟨.pointers, 2⟩) ∧
    h.slot cuttingActivation Slot.Context.heapVars = .ok (.ofAddress ⟨.pointers, 15⟩) ∧
    h.slot (.ofAddress ⟨.pointers, 2⟩) Slot.Code.literals = .ok .nil ∧
    h.slot (.ofAddress ⟨.pointers, 2⟩) Slot.Code.bytecode = .ok (.ofAddress ⟨.leaf, 2⟩) ∧
    h.slot (.ofAddress ⟨.pointers, 15⟩) 0 = .ok .nil ∧
    h.bytes (.ofAddress ⟨.leaf, 2⟩) = .ok (encodeAll [.loadOwn 0]).toArray := by
  decide +kernel

theorem cutting_vars : (cuttingStage 2).heap.Holds ⟨cuttingVars, 0⟩ (.ofNat 5) := by
  have hsane : (cuttingStage 0).heap.arenas.Sane cuttingVars :=
    cuttingActivation_linked.value_sane cuttingMachine_intact.whole
  have hsane' := cutting_begins.along_sane (d := 2) le_rfl hsane ⟨_, ⟨_, rfl, rfl⟩, rfl⟩
  exact ⟨hsane', cutting_slots.2.1⟩

/-- When the method returns, the activation has other heap variables. -/
theorem cutting_returns : ∃ m' : Machine,
    Machine.step .never (Machine.next^[2] cuttingMachine) = .ok none m' ∧
    m'.context = cuttingActivation ∧ m'.pc = 0 ∧ m'.code = (encodeAll [.loadOwn 0]).toArray ∧
    m'.interrupts.pending = false ∧ m'.stop = none ∧
    m'.image.heap.Holds ⟨cuttingActivation, Slot.Context.heapVars⟩ (.ofAddress ⟨.pointers, 15⟩) ∧
    m'.image.heap.Holds ⟨.ofAddress ⟨.pointers, 15⟩, 0⟩ .nil ∧
    m'.image.heap.Holds ⟨cuttingVars, 0⟩ (.ofNat 5) := by
  have hvars : (Machine.next^[2] cuttingMachine).image.heap.Holds _ _ := cutting_vars
  have hintact : Intact (Machine.next^[2] cuttingMachine) := (cutting_begins.sound_at le_rfl).1
  obtain ⟨hcalm, hstop, hdecode, -⟩ := cutting_course.2.2.2 2 (by decide)
  obtain ⟨hcache, -, hslots⟩ := cutting_slots
  generalize Machine.next^[2] cuttingMachine = m at *
  obtain ⟨hpc, hprevious, hne, htarget, hmethod, hown, hliterals, hbytecode, hnil, hbytes⟩ := hslots
  -- Each object is reached from the context through a cell, and so is sane.
  have hcontext := hintact.held m.context (by simp)
  have hactivation := hintact.whole.slot hcontext hprevious
  have hcode := hintact.whole.slot hactivation hmethod
  let m₀ : Machine := { m with clock := m.clock + 1, start := m.pc, pc := 5 }
  have hintact₀ : Intact m₀ := ⟨hintact.whole, hintact.held⟩
  obtain ⟨heap, cache, hr, heq⟩ := Machine.returnValue_of_slots (m := m₀) (v := m.accumulator)
    hintact₀ hcache ⟨hcontext, hpc⟩ ⟨hcontext, hprevious⟩ hne ⟨hactivation, htarget⟩ (by decide)
    ⟨hactivation, hmethod⟩ ⟨hcode, hliterals⟩ ⟨hcode, hbytecode⟩ ⟨⟨2, by decide⟩, hbytes⟩
  have hkept : ∀ {v i y}, i ≠ Slot.Context.pc → m.image.heap.Holds ⟨v, i⟩ y →
      heap.Holds ⟨v, i⟩ y := fun hi hy => hr.others (fun hc => hi (congrArg Cell.index hc)) hy
  have hstep := Machine.step_executed hcalm hdecode heq
  simp only [m₀, hstop] at hstep
  exact ⟨_, hstep, rfl, rfl, rfl, hcalm, rfl, hkept (by decide) ⟨hactivation, hown⟩,
    hkept (by decide) ⟨hintact.whole.slot hactivation hown, hnil⟩, hkept (by decide) hvars⟩

theorem Machine.next_of_step {m m' : Machine} (hstep : step .never m = .ok none m') :
    m.next = m' := by
  rw [next, hstep]

/-- An activation whose heap variables are exchanged for others does not read what is in the cell
of its variable. -/
theorem cut_unshared : capturingResolved.scopes.Keeps ⟨0, 0⟩ 0 ∧
    History cuttingStage cuttingDeed (fun _ => Eq) 4 ∧
    (cuttingStage 0).heap.Holds ⟨cuttingActivation, Slot.Context.heapVars⟩ cuttingVars ∧
    ¬SharesCell cuttingStage cuttingDeed (fun _ => Eq) 4 0 cuttingActivation cuttingVars 0 := by
  obtain ⟨m, hturn, hcontext, hpc, hcode, hcalm, hstop, hown, hnil, hvars⟩ := cutting_returns
  have hnext : Machine.next^[3] cuttingMachine = m := by
    rw [Function.iterate_succ_apply', Machine.next_of_step hturn]
  have hstage : cuttingStage 3 = .running m := congrArg _ hnext
  have hdecode : Code.decodeAt m.code m.pc = .ok (.loadOwn 0, 2) := by
    rw [hcode, hpc]
    decide
  let m₀ : Machine := { m with clock := m.clock + 1, start := m.pc, pc := 2 }
  have hdeed : cuttingDeed 3 = .execute (.loadOwn 0) m₀ := by
    rw [cuttingDeed, hnext]
    rfl
  have hread : Machine.execute (.loadOwn 0) m₀ = .ok () { m₀ with accumulator := .nil } :=
    Machine.execute_read rfl (hcontext ▸ hown.slot) hnil.slot
  have hturn' := Machine.step_executed hcalm hdecode hread
  simp only [m₀, hstop] at hturn'
  have hlast : cuttingStage 4 = .running { m₀ with accumulator := .nil } := by
    rw [cuttingStage, Function.iterate_succ_apply', hnext, Machine.next_of_step hturn']
    simp only [m₀, hstop]
  have history : History cuttingStage cuttingDeed (fun _ => Eq) 4 := by
    refine ⟨cutting_begins.sound, fun k hk => ?_⟩
    match k, hk with
    | 0, _ | 1, _ => exact cutting_begins.step _ (by decide)
    | 2, _ =>
      rw [hstage]
      obtain ⟨hcalm', hstop', hdecode', -⟩ := cutting_course.2.2.2 2 (by decide)
      exact Stage.Step.of_turn hcalm' hstop' hdecode'
        (fun m => by simp [cuttingTurn, Machine.Pauses, Machine.call?]) hturn
    | 3, _ =>
      rw [hstage, hdeed, hlast]
      exact Stage.Step.of_turn hcalm hstop hdecode
        (fun m => by simp [Machine.Pauses, Machine.call?]) (by simpa only [m₀, hstop] using hturn')
  refine ⟨⟨_, _, rfl, rfl, rfl⟩, history, cuttingActivation_linked, fun shares => ?_⟩
  have htied : Tied cuttingStage cuttingDeed (fun _ => Eq) 0 cuttingActivation 3 .activation
      m.context := hcontext ▸ .moved (.moved (.moved .self rfl) rfl) rfl
  have hcell : (cuttingStage 3).heap.Holds ⟨cuttingVars, 0⟩ (.ofNat 5) := hstage ▸ hvars
  obtain ⟨-, m', hstage', hvalue, -⟩ := shares.reads (d := 3) (y := cuttingVars) (by decide)
    ⟨m₀, by simpa using hstage, by simpa using hdeed, htied⟩ rfl
    ⟨⟨_, ⟨_, ⟨_, rfl, rfl⟩, rfl⟩, rfl⟩, hcell⟩
  have hne : Value.nil ≠ .ofNat 5 := by decide
  cases hlast.symm.trans hstage'
  exact hne hvalue

end ObjectMachine
