import ObjectMachine.Proofs.Machine.Arithmetic
import ObjectMachine.Proofs.Machine.Primitives

namespace ObjectMachine

section Kept

variable {ε σ α β : Type} [Store σ] [Holder α] [Holder β]

/-- How a step may end that may move objects. -/
def Kept : EStateM.Result (Stop ε) σ α → Prop
  | .ok a s' => Intact s' ∧ ∀ v ∈ held a, Sane s' v
  | .error (.failure _) s' => Intact s'
  | .error (.fault _) _ => True

theorem Settled.kept {s : σ} {r : EStateM.Result (Stop ε) σ α} (hr : Settled s r) : Kept r := by
  cases r with
  | ok a s' => exact ⟨hr.1, hr.2.2⟩
  | error e s' =>
    cases e with
    | failure cause => exact hr.1
    | fault f => trivial

theorem Stable.kept {act : Action ε σ α} (hact : Stable [] act) {s : σ} (hs : Intact s) :
    Kept (act s) := (hact s hs nofun).kept

theorem Kept.bind {act : Action ε σ α} {next : α → Action ε σ β} {s : σ} (hact : Kept (act s))
    (hnext : ∀ a s', act s = .ok a s' → Intact s' → (∀ v ∈ held a, Sane s' v) → Kept (next a s')) :
    Kept ((act >>= next) s) := by
  change Kept (EStateM.bind act next s)
  rw [EStateM.bind]
  cases heq : act s with
  | ok a s' =>
    rw [heq] at hact
    exact hnext a s' heq hact.1 hact.2
  | error e s' =>
    rw [heq] at hact
    cases e with
    | failure cause => exact hact
    | fault f => trivial

end Kept

/-- A schedule with new values holds nothing else. -/
theorem Schedule.mem_of_withRoots {s : Schedule} {values : List Value} {v : Value}
    (hlength : 5 ≤ values.length) (hv : v ∈ (s.withRoots values).roots) : v ∈ values := by
  match values, hlength with
  | rh :: rt :: wh :: wt :: current :: results, _ =>
    simp only [withRoots, roots, List.mem_append, List.mem_cons, List.not_mem_nil, or_false] at hv
    rcases hv with hv | hv
    · simp only [List.mem_cons]
      tauto
    · obtain ⟨f, hf, rfl⟩ := List.mem_map.mp hv
      obtain ⟨k, hk, rfl⟩ := List.mem_iff_getElem.mp hf
      simp only [List.getElem_zipWith, List.mem_cons]
      exact .inr (.inr (.inr (.inr (.inr (List.getElem_mem _)))))

theorem Image.collect_intact {i : Image} {s : Schedule} (hi : Intact i)
    (hs : ∀ v ∈ s.roots, Sane i v) :
    ∃ live s' i', i.collect s = .ok (.ok live, s', i') ∧ Intact i' ∧
      ∀ v ∈ s'.roots, Sane i' v := by
  have hroots : ∀ v ∈ i.roots ++ s.roots, i.heap.arenas.Sane v := by
    intro v hv
    rcases List.mem_append.mp hv with hv | hv
    · exact hi.held v (List.mem_cons_of_mem _ hv)
    · exact hs v hv
  obtain ⟨heap, roots', live, hcollect, whole, hlength, hsane⟩ := hi.whole.collect hroots
  have hrest : 5 ≤ ((roots'.drop i.symbols.size).drop i.known.size).length := by
    have hsymbols : i.symbols.roots.length = i.symbols.size := by
      simp [SymbolTable.roots, SymbolTable.size]
    simp only [roots, Schedule.roots, List.length_append, hsymbols, Array.length_toList,
      List.length_cons, List.length_nil] at hlength
    simp only [List.length_drop]
    omega
  refine ⟨live, s.withRoots ((roots'.drop i.symbols.size).drop i.known.size),
    ⟨heap, i.symbols.withRoots (roots'.take i.symbols.size),
      ((roots'.drop i.symbols.size).take i.known.size).toArray, i.transcript⟩, ?_, ⟨whole, ?_⟩, ?_⟩
  · have hcollect' : i.heap.collect (i.roots ++ s.roots) = .ok (heap, roots', .ok live) := hcollect
    simp only [collect, bind, Except.bind, hcollect', List.splitAt_eq]
    rfl
  · intro v hv
    simp only [Holder.held, values, roots, List.mem_cons, List.mem_append] at hv
    rcases hv with rfl | hv | hv
    · exact Arenas.sane_nil _
    · exact hsane v (List.mem_of_mem_take (SymbolTable.mem_of_withRoots hv))
    · exact hsane v (List.mem_of_mem_drop (List.mem_of_mem_take hv))
  · intro v hv
    exact hsane v (List.mem_of_mem_drop (List.mem_of_mem_drop (Schedule.mem_of_withRoots hrest hv)))

namespace World

theorem image_intact {w : World} (hw : Intact w) : Intact w.image :=
  ⟨hw.whole, fun v hv => hw.held v (List.mem_append_left _ hv)⟩

theorem intact_fresh {image : Image} (hi : Intact image) : Intact ({ image } : World) := by
  refine ⟨hi.whole, fun v hv => ?_⟩
  rcases List.mem_append.mp hv with hv | hv
  · exact hi.held v hv
  · obtain rfl : v = .nil := by simpa [Schedule.roots] using hv
    exact Arenas.sane_nil _

end World

namespace Machine

variable {m m' : Machine}

section Reloading

theorem setSlot_eq_ok {v x : Value} {i : Nat} {u : Unit} (heq : setSlot v i x m = .ok u m') :
    ∃ heap, Heap.setSlot v i x (ε := HeapError) m.image.heap = .ok () heap ∧
      m' = { m with image := { m.image with heap } } := by
  rw [setSlot, onHeap, onImage, Image.onHeap] at heq
  dsimp only at heq
  split at heq
  · rename_i hact
    cases heq
    split at hact
    · rename_i hset
      cases hact
      exact ⟨_, hset, rfl⟩
    · cases hact
  · cases heq

theorem setSlot_of_eq_ok {v x : Value} {i : Nat} {heap : Heap}
    (hset : Heap.setSlot v i x (ε := HeapError) m.image.heap = .ok () heap) :
    setSlot v i x m = .ok () { m with image := { m.image with heap } } := by
  rw [setSlot, onHeap, onImage]
  dsimp only [Image.onHeap]
  rw [hset]

/-- Writing the registers back changes nothing but the memory. -/
theorem spill_eq_ok {u : Unit} (heq : spill m = .ok u m') :
    ∃ heap, m' = { m with image := { m.image with heap } } := by
  rw [spill, bind_eq_ok] at heq
  obtain ⟨_, m₀, hget, heq⟩ := heq
  obtain ⟨rfl, rfl⟩ := get_eq_ok.mp hget
  rw [bind_eq_ok] at heq
  obtain ⟨_, m₁, h₁, heq⟩ := heq
  rw [bind_eq_ok] at heq
  obtain ⟨_, m₂, h₂, h₃⟩ := heq
  obtain ⟨heap₁, -, rfl⟩ := setSlot_eq_ok h₁
  obtain ⟨heap₂, -, rfl⟩ := setSlot_eq_ok h₂
  obtain ⟨heap₃, -, rfl⟩ := setSlot_eq_ok h₃
  exact ⟨heap₃, rfl⟩

theorem check_eq_ok {c : Prop} [Decidable c] {cause : List String → RuntimeError}
    {rest : PUnit → MachineAction PUnit} {u : PUnit}
    (heq : (if c then do
        let frames ← trace
        let u ← Action.fail (cause frames)
        rest u
      else rest ⟨⟩) m = .ok u m') : ¬c ∧ rest ⟨⟩ m = .ok u m' := by
  rcases ite_eq_ok.mp heq with ⟨-, hgo⟩ | ⟨hc, hgo⟩
  · obtain ⟨_, _, -, hgo⟩ := bind_eq_ok.mp hgo
    obtain ⟨_, _, hgo, -⟩ := bind_eq_ok.mp hgo
    exact nomatch fail_eq_ok.mp hgo
  · exact ⟨hc, hgo⟩

def refreshed (m : Machine) : Machine :=
  if m.image.heap.stats.collections ≠ m.epoch then
    { m with cache := {}, epoch := m.image.heap.stats.collections }
  else m

/-- Code is read off the memory unless it is remembered. -/
theorem fetchCode_eq (bytecode : Value) (m : Machine) : fetchCode bytecode m =
    match m.refreshed.cache[bytecode]? with
    | some code => .ok code m.refreshed
    | none =>
      match m.refreshed.image.heap.bytes bytecode with
      | .ok code => .ok code { m.refreshed with cache := m.refreshed.cache.insert bytecode code }
      | .error f => .error (.fault f) m.refreshed := by
  have hread : fetchCode bytecode m = (do
      match (← get).cache[bytecode]? with
      | some code => return code
      | none =>
        let code ← ask (·.heap.bytes bytecode)
        modify fun m => { m with cache := m.cache.insert bytecode code }
        return code : MachineAction (Array UInt8)) m.refreshed := by
    rw [fetchCode, get_bind, get_bind, refreshed]
    dsimp only
    split <;> rfl
  rw [hread, get_bind]
  cases m.refreshed.cache[bytecode]? with
  | some code => rfl
  | none =>
    simp only [ask, Action.query, bind, EStateM.bind]
    cases m.refreshed.image.heap.bytes bytecode <;> rfl

theorem refreshed_eq (m : Machine) : ∃ cache epoch, m.refreshed = { m with cache, epoch } := by
  rw [refreshed]
  split
  · exact ⟨_, _, rfl⟩
  · exact ⟨_, _, rfl⟩

/-- Reading code may only change what is remembered of it. -/
theorem fetchCode_eq_ok {bytecode : Value} {code : Array UInt8}
    (heq : fetchCode bytecode m = .ok code m') : ∃ cache epoch, m' = { m with cache, epoch } := by
  obtain ⟨cache, epoch, hm⟩ := m.refreshed_eq
  rw [fetchCode_eq, hm] at heq
  split at heq
  · cases heq
    exact ⟨_, _, rfl⟩
  · split at heq
    · cases heq
      exact ⟨_, _, rfl⟩
    · cases heq

/-- The frame is loaded from the memory, and all else stays. -/
theorem loadFrame_eq_ok {u : Unit} (heq : loadFrame m = .ok u m') :
    ∃ method literals code cache epoch pc,
      m.image.heap.slot m.context Slot.Context.method = .ok method ∧
      m.image.heap.slot method Slot.Code.literals = .ok literals ∧
      m' = { m with method, literals, code, cache, epoch, pc } := by
  rw [loadFrame, bind_eq_ok] at heq
  obtain ⟨_, m₀, hget, heq⟩ := heq
  obtain ⟨rfl, rfl⟩ := get_eq_ok.mp hget
  rw [bind_eq_ok] at heq
  obtain ⟨method, m₁, h₁, heq⟩ := heq
  obtain ⟨hmethod, rfl⟩ := query_eq_ok h₁
  rw [bind_eq_ok] at heq
  obtain ⟨literals, m₁, h₁, heq⟩ := heq
  obtain ⟨hliterals, rfl⟩ := query_eq_ok h₁
  rw [bind_eq_ok] at heq
  obtain ⟨pc, m₁, h₁, heq⟩ := heq
  obtain ⟨-, rfl⟩ := query_eq_ok h₁
  rw [bind_eq_ok] at heq
  obtain ⟨bytecode, m₁, h₁, heq⟩ := heq
  obtain ⟨-, rfl⟩ := query_eq_ok h₁
  rw [bind_eq_ok] at heq
  obtain ⟨code, m₁, h₁, heq⟩ := heq
  obtain ⟨cache, epoch, rfl⟩ := fetchCode_eq_ok h₁
  obtain rfl := modify_eq_ok.mp heq
  exact ⟨method, literals, code, cache, epoch, _, hmethod, hliterals, rfl⟩

theorem unspill_eq_ok {u : Unit} (heq : unspill m = .ok u m') :
    ∃ context accumulator method literals code cache epoch pc,
      m.image.heap.slot m.schedule.current Slot.Process.context = .ok context ∧
      m.image.heap.slot m.schedule.current Slot.Process.accumulator = .ok accumulator ∧
      m.image.heap.slot context Slot.Context.method = .ok method ∧
      m.image.heap.slot method Slot.Code.literals = .ok literals ∧
      m' = { m with
        process := m.schedule.current, context, accumulator, method, literals, code, cache,
        epoch, pc } := by
  rw [unspill, bind_eq_ok] at heq
  obtain ⟨_, m₀, hget, heq⟩ := heq
  obtain ⟨rfl, rfl⟩ := get_eq_ok.mp hget
  rw [bind_eq_ok] at heq
  obtain ⟨context, m₁, h₁, heq⟩ := heq
  obtain ⟨hcontext, rfl⟩ := query_eq_ok h₁
  rw [bind_eq_ok] at heq
  obtain ⟨accumulator, m₁, h₁, heq⟩ := heq
  obtain ⟨haccumulator, rfl⟩ := query_eq_ok h₁
  rw [bind_eq_ok] at heq
  obtain ⟨_, m₁, h₁, heq⟩ := heq
  obtain rfl := modify_eq_ok.mp h₁
  obtain ⟨method, literals, code, cache, epoch, pc, hmethod, hliterals, rfl⟩ := loadFrame_eq_ok heq
  exact ⟨context, accumulator, method, literals, code, cache, epoch, pc, hcontext, haccumulator,
    hmethod, hliterals, rfl⟩

theorem refreshed_of_cache (hcache : m.cache = {}) : m.refreshed.cache = {} := by
  rw [refreshed]
  split
  · rfl
  · exact hcache

/-- After a collection nothing is remembered of the code. -/
theorem refreshed_of_epoch (hepoch : m.epoch < m.image.heap.stats.collections) :
    m.refreshed.cache = {} := by
  rw [refreshed, if_pos hepoch.ne']

/-- Code that is not remembered is read off the memory. -/
theorem fetchCode_of_bytes {bytes : Value} {code : Array UInt8}
    (hcache : m.refreshed.cache[bytes]? = none)
    (hbytes : m.image.heap.bytes bytes = .ok code) : ∃ cache, fetchCode bytes m =
      .ok code { m with cache, epoch := m.image.heap.stats.collections } := by
  obtain ⟨cache, hrefreshed⟩ : ∃ cache,
      m.refreshed = { m with cache, epoch := m.image.heap.stats.collections } := by
    rw [refreshed]
    split
    · exact ⟨_, rfl⟩
    · rename_i hepoch
      exact ⟨m.cache, by rw [not_not.mp hepoch]⟩
  rw [hrefreshed] at hcache
  rw [fetchCode_eq, hrefreshed]
  simp only at hcache
  simp only [hcache, hbytes]
  exact ⟨_, rfl⟩

/-- The registers of the machine are what memory says. -/
theorem unspill_of_slots {context accumulator method literals pc bytes : Value}
    {code : Array UInt8} (hcache : m.refreshed.cache = {})
    (hcontext : m.image.heap.slot m.schedule.current Slot.Process.context = .ok context)
    (haccumulator :
      m.image.heap.slot m.schedule.current Slot.Process.accumulator = .ok accumulator)
    (hmethod : m.image.heap.slot context Slot.Context.method = .ok method)
    (hliterals : m.image.heap.slot method Slot.Code.literals = .ok literals)
    (hpc : m.image.heap.slot context Slot.Context.pc = .ok pc)
    (hbytes : m.image.heap.slot method Slot.Code.bytecode = .ok bytes)
    (hcode : m.image.heap.bytes bytes = .ok code) :
    ∃ cache, unspill m = .ok () { m with
      process := m.schedule.current, context, accumulator, method, literals, code,
      pc := pc.toNat?.getD 0, cache, epoch := m.image.heap.stats.collections } := by
  let m₁ : Machine := { m with process := m.schedule.current, context, accumulator }
  have hcache₁ : m₁.refreshed.cache[bytes]? = none := by
    simp only [refreshed, m₁] at hcache ⊢
    split at hcache <;> simp_all
  obtain ⟨cache, hfetch⟩ := fetchCode_of_bytes hcache₁ hcode
  refine ⟨cache, ?_⟩
  refine query_bind_eq_ok.mpr ⟨context, hcontext, ?_⟩
  refine query_bind_eq_ok.mpr ⟨accumulator, haccumulator, ?_⟩
  refine query_bind_eq_ok.mpr ⟨method, hmethod, query_bind_eq_ok.mpr ⟨literals, hliterals, ?_⟩⟩
  refine query_bind_eq_ok.mpr ⟨pc, hpc, query_bind_eq_ok.mpr ⟨bytes, hbytes, ?_⟩⟩
  exact bind_eq_ok.mpr ⟨code, _, hfetch, rfl⟩

theorem fetchCode_unfailing (bytecode : Value) : (fetchCode bytecode).Unfailing := by
  intro m e m' heq
  rw [fetchCode_eq] at heq
  split at heq
  · cases heq
  · split at heq <;> cases heq

theorem loadFrame_unfailing : loadFrame.Unfailing := by
  refine .bind .get fun m => .bind (.query _) fun method => .bind (.query _) fun literals => ?_
  refine .bind (.query _) fun pc => .bind (.query _) fun code => ?_
  exact .bind (fetchCode_unfailing _) fun _ => .modify _

theorem unspill_unfailing : unspill.Unfailing :=
  .bind .get fun _ => .bind (.query _) fun _ => .bind (.query _) fun _ => .bind (.modify _) fun _ =>
    loadFrame_unfailing

end Reloading

theorem intact_world (hm : Intact m) : Intact m.toWorld :=
  ⟨hm.whole, fun v hv => hm.held v (List.mem_append_left _ (List.mem_append_left _ hv))⟩

/-- A machine whose registers come from the memory. -/
theorem intact_of_registers (hworld : Intact m.toWorld)
    (hregisters : ∀ v ∈ [m.process, m.context, m.method, m.literals, m.accumulator], Sane m v)
    (hstop : ∀ v ∈ held m.stop, Sane m v) : Intact m := by
  refine ⟨hworld.whole, fun v hv => ?_⟩
  simp only [Holder.held, List.mem_append] at hv
  rcases hv with (hv | hv) | hv
  · exact hworld.held v (List.mem_append.mpr hv)
  · exact hregisters v hv
  · exact hstop v hv

/-- The registers are valid once they are loaded, whatever was in them. -/
theorem unspill_kept (hworld : Intact m.toWorld) (hstop : m.stop = none) : Kept (unspill m) := by
  cases heq : unspill m with
  | error e m' =>
    cases e with
    | failure cause => exact absurd heq (unspill_unfailing m cause m')
    | fault f => trivial
  | ok u m' =>
    obtain ⟨context, accumulator, method, literals, code, cache, epoch, pc, hcontext, haccumulator,
      hmethod, hliterals, rfl⟩ := unspill_eq_ok heq
    have whole : m.image.heap.Whole := hworld.whole
    have hcurrent : m.image.heap.arenas.Sane m.schedule.current :=
      hworld.held _ (by simp [Schedule.roots])
    have hcontext := whole.slot hcurrent hcontext
    have hmethod := whole.slot hcontext hmethod
    have hliterals := whole.slot hmethod hliterals
    have haccumulator := whole.slot hcurrent haccumulator
    refine ⟨intact_of_registers hworld ?_ ?_, List.forall_mem_nil _⟩
    · simp only [List.mem_cons, List.not_mem_nil, or_false]
      rintro v (rfl | rfl | rfl | rfl | rfl)
      all_goals assumption
    · simp [hstop]

/-- A collection takes the image and the schedule along, but not the registers. -/
theorem collect_intact (hm : Intact m) :
    ∃ m', collect m = .ok () m' ∧ Intact m'.toWorld ∧ m'.stop = m.stop := by
  have hschedule : ∀ v ∈ m.schedule.roots, Sane m.image v := fun v hv =>
    (intact_world hm).held v (List.mem_append_right _ hv)
  obtain ⟨live, schedule, image, hcollect, himage, hschedule⟩ :=
    Image.collect_intact (intact_image hm) hschedule
  refine ⟨{ m with image, schedule }, ?_, ⟨himage.whole, fun v hv => ?_⟩, rfl⟩
  · simp only [collect, hcollect]
  · exact (List.mem_append.mp hv).elim (himage.held v) (hschedule v)

/-- Garbage may be collected where nothing but the registers of the machine is needed later. -/
theorem safepoint_kept (hm : Intact m) (hstop : m.stop = none) : Kept (safepoint m) := by
  rw [safepoint, get_bind]
  split
  · refine .bind (spill_stable.kept hm) fun _ m₁ hspill hm₁ _ => ?_
    have hstop₁ : m₁.stop = none := by
      obtain ⟨heap, rfl⟩ := spill_eq_ok hspill
      exact hstop
    obtain ⟨m₂, hcollect, hworld, hstop₂⟩ := collect_intact hm₁
    change Kept (EStateM.bind collect (fun _ => unspill) m₁)
    simp only [EStateM.bind, hcollect]
    exact unspill_kept hworld (hstop₂.trans hstop₁)
  · exact ⟨hm, nofun⟩

/-- What follows the point at which garbage may be collected is stable. -/
theorem safepoint_bind_kept (hm : Intact m) (hstop : m.stop = none) {rest : MachineAction Unit}
    (hrest : ∀ {known}, Stable known rest) : Kept ((safepoint >>= fun _ => rest) m) :=
  .bind (safepoint_kept hm hstop) fun _ _ _ hm' _ => hrest.kept hm'

theorem send_kept (hm : Intact m) (hstop : m.stop = none) (selector : UInt8) (args : ArgRegisters)
    (toSuper : Bool) : Kept (send selector args toSuper m) := by
  refine safepoint_bind_kept hm hstop fun {known} => ?_
  refine .bind (literal_stable selector) fun selector => ?_
  refine .bind .get fun m => ?_
  refine .bind (registers_stable _) fun values => ?_
  dsimp only
  split
  · refine .bind .get fun m' => ?_
    refine .bind (slot_stable (by simp) _) fun defining => ?_
    refine .bind (.slot (by simp) _) fun cls => ?_
    exact dispatch_stable (by simp) (fun v hv => by simp [hv]) (by simp)
  · refine .bind (classOf_stable (by simp)) fun cls => ?_
    exact dispatch_stable (by simp) (fun v hv => by simp [hv]) (by simp)

theorem yields_mapM {α β : Type} [Holder β] {h : Heap} {f : α → Except Fault β}
    (hf : ∀ a, Yields h (f a)) (l : List α) : Yields h (l.mapM f) := by
  induction l with
  | nil => exact .pure (by simp)
  | cons a l ih =>
    rw [List.mapM_cons]
    exact .bind (hf a) fun b hb => .bind ih fun bs hbs => .pure fun v hv =>
      (List.mem_append.mp hv).elim (hb v) (hbs v)

theorem copyBlock_kept (hm : Intact m) (hstop : m.stop = none) (index : UInt8) :
    Kept (copyBlock index m) := by
  refine safepoint_bind_kept hm hstop fun {known} => ?_
  refine .bind (literal_stable index) fun template => ?_
  refine .bind .get fun m => ?_
  refine .bind (onHeap_stable (Heap.allocatePointers_stable (by simp) _)) fun block => ?_
  refine .bind (.query fun m hm hknown => yields_mapM (fun k => hm.whole.yields_slot
    (hknown template (by simp)) k) _) fun fields => ?_
  refine .bind (onImage_stable (Image.fillSlots_stable (by simp) _ fun v hv => by simp [hv]))
    fun _ => ?_
  refine .bind .get fun m => ?_
  refine .bind (slot_stable (by simp) _) fun receiver => ?_
  refine .bind (setSlot_stable (by simp) _ (by simp)) fun _ => ?_
  refine .bind (slot_stable (by simp) _) fun parent => ?_
  refine .bind (setSlot_stable (by simp) _ (by simp)) fun _ => ?_
  refine .bind (slot_stable (by simp) _) fun home => ?_
  refine .bind (setSlot_stable (by simp) _ (by simp)) fun _ => ?_
  exact setAccumulator_stable (by simp)

/-- The operators compute without touching the machine. -/
theorem runPrimitive_operator (op : BinaryOp) (a b : Value) (m : Machine) :
    ∃ v, runPrimitive op.primitive [a, b] m = .ok v m := by
  have hanswers : ∀ {f : Int → Int → Except Fault (Option Int)},
      (∀ n k, Value.Fits n → Value.Fits k → ∃ result, f n k = .ok result) →
      ∃ v, ask (fun _ => Primitive.arithmetic [a, b] f) m = .ok v m := by
    intro f hf
    obtain ⟨v, hv⟩ := Primitive.exists_arithmetic hf a b
    exact ⟨v, query_of_eq_ok hv⟩
  cases op
  case add | subtract | multiply => exact hanswers fun _ _ _ _ => ⟨_, rfl⟩
  case quotient => exact hanswers fun _ k hn _ => Primitive.exists_floorDiv hn k
  case remainder => exact hanswers fun _ _ hn hk => Primitive.exists_floorMod hn hk
  all_goals exact ⟨_, rfl⟩

theorem binaryOp_kept (hm : Intact m) (hstop : m.stop = none) (reg : UInt8) (op : BinaryOp) :
    Kept (binaryOp reg op m) := by
  refine .bind ((register_stable reg).kept hm) fun left m₁ hleft hm₁ hsane => ?_
  obtain ⟨-, rfl⟩ := query_eq_ok hleft
  rw [get_bind]
  dsimp only
  have hprimitive : Stable [left, m₁.accumulator]
      (runPrimitive op.primitive [left, m₁.accumulator]) := runPrimitive_stable _ (by simp)
  have hoperands : ∀ v ∈ [left, m₁.accumulator], Sane m₁ v := by
    simp only [List.mem_cons, List.not_mem_nil, or_false]
    rintro v (rfl | rfl)
    · exact hsane v (by simp)
    · exact hm₁.held _ (by simp)
  refine .bind (hprimitive m₁ hm₁ hoperands).kept fun result m₂ hresult hm₂ hsane₂ => ?_
  obtain ⟨v, hv⟩ := runPrimitive_operator op left m₁.accumulator m₁
  obtain ⟨rfl, rfl⟩ : v = result ∧ m₁ = m₂ := by
    rw [hv] at hresult
    cases hresult
    exact ⟨rfl, rfl⟩
  split
  · have hstore : Stable (held v) (setAccumulator v) := setAccumulator_stable (by simp)
    exact (hstore _ hm₂ hsane₂).kept
  · refine safepoint_bind_kept hm hstop fun {known} => ?_
    refine .bind (register_stable reg) fun receiver => ?_
    refine .bind .get fun m => ?_
    refine .bind (classOf_stable (by simp)) fun cls => ?_
    exact dispatch_stable (by simp) (by simp) (by simp)

theorem callPrimitive_kept (hm : Intact m) (hstop : m.stop = none) (index : UInt8)
    {args : MachineAction (List Value)} (hargs : ∀ {known}, Stable known args) :
    Kept (callPrimitive index args m) := by
  rw [callPrimitive]
  cases Primitive.ofIndex? index.toNat with
  | none =>
    refine Stable.kept ?_ hm
    refine .bind .get fun m => ?_
    exact .bind trace_stable fun _ => .fail _
  | some p =>
    refine safepoint_bind_kept hm hstop fun {known} => ?_
    refine .bind hargs fun values => ?_
    refine .bind (runPrimitive_stable p fun v hv => by simp [hv]) fun result => ?_
    split
    · exact setAccumulator_stable (by simp)
    · exact .pure (by simp)

theorem withAccumulator_stable {known : List Value} (regs : List UInt8) :
    Stable known (withAccumulator regs) :=
  .bind (registers_stable regs) fun values => .bind .get fun m => .pure (by
    simp +contextual [or_imp])

/-- Every instruction leaves the machine without stale references. -/
theorem execute_kept (hm : Intact m) (hstop : m.stop = none) (i : Instruction) :
    Kept (execute i m) := by
  cases i with
  | loadNil => exact (setAccumulator_stable (by simp)).kept hm
  | loadTrue | loadFalse | loadThisContext | loadGlobals =>
    refine Stable.kept ?_ hm
    exact reload_stable (fun _ => rfl) (fun _ => rfl) (by simp +contextual [or_imp])
  | loadInstVar i =>
    refine Stable.kept ?_ hm
    refine .bind (register_stable 0) fun receiver => ?_
    exact .bind (slot_stable (by simp) _) fun v => setAccumulator_stable (by simp)
  | loadLiteral i =>
    refine Stable.kept ?_ hm
    exact .bind (literal_stable i) fun v => setAccumulator_stable (by simp)
  | loadOwn s | loadParent s =>
    refine Stable.kept ?_ hm
    refine .bind (heapVars_stable _) fun vars => ?_
    exact .bind (slot_stable (by simp) _) fun v => setAccumulator_stable (by simp)
  | loadGlobal l =>
    refine Stable.kept ?_ hm
    refine .bind (literal_stable l) fun key => ?_
    refine .bind (.query fun m hm _ => hm.whole.yields_dictionaryAt (hm.held _ (by simp)) key)
      fun found => ?_
    exact setAccumulator_stable (by cases found <;> simp)
  | loadRegister r =>
    refine Stable.kept ?_ hm
    exact .bind (register_stable r) fun v => setAccumulator_stable (by simp)
  | storeInstVar i =>
    refine Stable.kept ?_ hm
    refine .bind (register_stable 0) fun receiver => ?_
    exact .bind .get fun m => setSlot_stable (by simp) _ (by simp)
  | storeOwn s | storeParent s =>
    refine Stable.kept ?_ hm
    refine .bind (heapVars_stable _) fun vars => ?_
    exact .bind .get fun m => setSlot_stable (by simp) _ (by simp)
  | storeGlobal l =>
    refine Stable.kept ?_ hm
    refine .bind (literal_stable l) fun key => ?_
    refine .bind .get fun m => ?_
    exact .bind (onHeap_stable (Heap.dictionaryPut_stable (by simp) (by simp) (by simp) (by simp)))
      fun _ => .pure (by simp)
  | storeRegister r =>
    exact Stable.kept (.bind .get fun m => setRegister_stable r (by simp)) hm
  | promote own parent =>
    refine Stable.kept ?_ hm
    refine .bind (heapVars_stable _) fun theirs => ?_
    refine .bind (slot_stable (by simp) _) fun value => ?_
    refine .bind (heapVars_stable _) fun mine => ?_
    exact setSlot_stable (by simp) _ (by simp)
  | restore parent own =>
    exact Stable.kept (.bind .get fun m => restore_stable (by simp) own parent) hm
  | sync own parent reg =>
    refine Stable.kept ?_ hm
    refine .bind (heapVars_stable _) fun mine => ?_
    refine .bind (heapVars_stable _) fun theirs => ?_
    refine .bind (slot_stable (by simp) _) fun value => ?_
    refine .bind (register_stable reg) fun agreed => ?_
    split
    · refine .bind (setSlot_stable (by simp) _ (by simp)) fun _ => ?_
      exact setRegister_stable reg (by simp)
    · refine .bind (slot_stable (by simp) _) fun value => ?_
      refine .bind (setSlot_stable (by simp) _ (by simp)) fun _ => ?_
      exact setRegister_stable reg (by simp)
  | jump offset => exact (jump_stable offset).kept hm
  | branchIfFalse offset | branchIfTrue offset =>
    refine Stable.kept (.bind .get fun m => ?_) hm
    split
    · exact jump_stable offset
    · exact .pure (by simp)
  | binaryOp reg op => exact binaryOp_kept hm hstop reg op
  | send selector args => exact send_kept hm hstop selector args false
  | sendSuper selector args => exact send_kept hm hstop selector args true
  | copyBlock l => exact copyBlock_kept hm hstop l
  | primitive0 p => exact callPrimitive_kept hm hstop p (.pure (by simp))
  | primitive1 p => exact callPrimitive_kept hm hstop p (withAccumulator_stable _)
  | primitive2 p reg => exact callPrimitive_kept hm hstop p (withAccumulator_stable _)
  | primitive3 p reg₁ reg₂ => exact callPrimitive_kept hm hstop p (withAccumulator_stable _)
  | primitiveV p first count => exact callPrimitive_kept hm hstop p (registers_stable _)
  | return_ => exact Stable.kept (.bind .get fun m => returnValue_stable (by simp)) hm
  | returnSelf =>
    exact Stable.kept (.bind (register_stable 0) fun v => returnValue_stable (by simp)) hm

theorem tick_stable {known : List Value} (timer : Timer) : Stable known (tick timer) := by
  refine .modify (fun m => by split <;> rfl) fun m v hv => .inl ?_
  split at hv <;> exact hv

theorem stop_tick {timer : Timer} {u : PUnit} (heq : tick timer m = .ok u m') :
    m'.stop = m.stop := by
  obtain rfl := modify_eq_ok.mp heq
  split <;> rfl

/-- A turn after which a run goes on has executed an instruction. -/
theorem step_eq_none {timer : Timer} (heq : step timer m = .ok none m') :
    ∃ m₁ i next, tick timer m = .ok () m₁ ∧ Code.decodeAt m₁.code m₁.pc = .ok (i, next) ∧
      execute i { m₁ with start := m₁.pc, pc := next } = .ok () m' ∧ m'.stop = none := by
  rw [step, bind_eq_ok] at heq
  obtain ⟨_, m₁, htick, heq⟩ := heq
  rw [get_bind, ite_eq_ok] at heq
  rcases heq with ⟨-, heq⟩ | ⟨-, heq⟩
  · rw [modify_bind, bind_eq_ok] at heq
    obtain ⟨_, m₂, -, heq⟩ := heq
    cases (pure_eq_ok.mp heq).1
  rw [get_bind] at heq
  cases hdecode : Code.decodeAt m₁.code m₁.pc with
  | error e =>
    rw [hdecode, bind_eq_ok] at heq
    obtain ⟨_, m₂, -, heq⟩ := heq
    cases fail_eq_ok.mp heq
  | ok decoded =>
    obtain ⟨instruction, next⟩ := decoded
    simp only [hdecode] at heq
    rw [modify_bind, bind_eq_ok] at heq
    obtain ⟨_, m₂, hexecute, heq⟩ := heq
    rw [get_bind] at heq
    cases hstop : m₂.stop with
    | none =>
      rw [hstop] at heq
      obtain ⟨-, rfl⟩ := pure_eq_ok.mp heq
      exact ⟨m₁, instruction, next, htick, hdecode, hexecute, hstop⟩
    | some outcome =>
      simp only [hstop, modify_bind] at heq
      cases outcome with
      | returned v => cases (pure_eq_ok.mp heq).1
      | preempted | yielded | suspended =>
        obtain ⟨_, m₃, -, heq⟩ := bind_eq_ok.mp heq
        cases (pure_eq_ok.mp heq).1

/-- A run that goes on has not been asked to stop. -/
theorem stop_eq_none_of_step {timer : Timer} (heq : step timer m = .ok none m') :
    m'.stop = none := by
  obtain ⟨_, _, _, -, -, -, hstop⟩ := step_eq_none heq
  exact hstop

theorem step_kept (hm : Intact m) (hstop : m.stop = none) (timer : Timer) :
    Kept (step timer m) := by
  refine .bind ((tick_stable timer).kept hm) fun _ m₁ htick hm₁ _ => ?_
  have hstop₁ : m₁.stop = none := (stop_tick htick).trans hstop
  rw [get_bind]
  split
  · refine Stable.kept ?_ hm₁
    refine .bind (.modify (fun _ => rfl) fun _ _ hv => .inl hv) fun _ => ?_
    exact .bind spill_stable fun _ => .pure (by simp [RunOutcome.values])
  rw [get_bind]
  cases Code.decodeAt m₁.code m₁.pc with
  | error e => exact Stable.kept (.bind trace_stable fun _ => .fail _) hm₁
  | ok decoded =>
    obtain ⟨instruction, next⟩ := decoded
    dsimp only
    rw [modify_bind]
    have hm₂ : Intact { m₁ with start := m₁.pc, pc := next } := ⟨hm₁.whole, hm₁.held⟩
    refine .bind (execute_kept hm₂ hstop₁ instruction) fun _ m₃ _ hm₃ _ => ?_
    rw [get_bind]
    cases houtcome : m₃.stop with
    | none => exact ⟨hm₃, List.forall_mem_nil _⟩
    | some outcome =>
      have hsane : ∀ v ∈ held outcome, Sane m₃ v := fun v hv =>
        hm₃.held v (List.mem_append_right _ (by simpa [houtcome] using hv))
      dsimp only
      rw [modify_bind]
      have hm₄ : Intact { m₃ with stop := none } :=
        intact_of_registers (m := { m₃ with stop := none }) (intact_world (m := m₃) hm₃)
          (fun v hv => hm₃.held v (List.mem_append_left _ (List.mem_append_right _ hv)))
          (List.forall_mem_nil _)
      cases outcome with
      | returned v => exact ⟨hm₄, fun x hx => hsane x (by simpa using hx)⟩
      | preempted | yielded | suspended =>
        exact Stable.kept (.bind spill_stable fun _ => .pure (by simp [RunOutcome.values])) hm₄

theorem run_kept (hm : Intact m) (hstop : m.stop = none) (timer : Timer) (turns : Nat) :
    Kept (run timer turns m) := by
  induction turns generalizing m with
  | zero => exact ⟨hm, nofun⟩
  | succ turns ih =>
    refine .bind (step_kept hm hstop timer) fun outcome m' heq hm' hsane => ?_
    cases outcome with
    | none => exact ih hm' (stop_eq_none_of_step heq)
    | some outcome => exact ⟨hm', hsane⟩

@[irreducible]
def poised (start : Image) (make : ImageAction Value) (code : List Instruction) (n : Nat) :
    Machine :=
  match make start with
  | .ok context image =>
    { toWorld := { image }, context, code := (encodeAll code).toArray, accumulator := .ofNat n }
  | .error _ _ => { toWorld := { image := start } }

theorem poised_intact {start : Image} {make : ImageAction Value} (hstart : Intact start)
    (hmake : Stable [] make) (code : List Instruction) (n : Nat) :
    Intact (poised start make code n) := by
  have hmade := hmake start hstart (by simp)
  rw [poised]
  split
  · rename_i context image heq
    rw [heq] at hmade
    obtain ⟨himage, -, hcontext⟩ := hmade
    refine intact_of_registers (World.intact_fresh himage) ?_ (List.forall_mem_nil _)
    simp only [List.mem_cons, List.not_mem_nil, or_false]
    rintro v (rfl | rfl | rfl | rfl | rfl)
    · exact Arenas.sane_nil _
    · exact hcontext v (by simp)
    · exact Arenas.sane_nil _
    · exact Arenas.sane_nil _
    · exact .inr (.inl (by simp))
  · refine intact_of_registers (World.intact_fresh hstart) ?_ (List.forall_mem_nil _)
    simp only [List.mem_cons, List.not_mem_nil, or_false, or_self, forall_eq]
    exact Arenas.sane_nil _

/-- An image without objects, in which numbers stand for the classes. -/
def blankImage : Image :=
  ⟨⟨.empty, 0x1000, 0x1000, 1, {}⟩, {}, ((List.range 17).map Value.ofNat).toArray, #[]⟩

theorem blankImage_intact : Intact blankImage := by
  refine ⟨Heap.empty_whole (by decide) (by decide), fun v hv => ?_⟩
  obtain rfl | ⟨n, -, rfl⟩ : v = .nil ∨ ∃ n < 17, Value.ofNat n = v := by
    simpa [blankImage, Image.values, Image.roots, SymbolTable.roots] using hv
  · exact Arenas.sane_nil _
  · exact .inr (.inl (by simp))

end Machine

end ObjectMachine
