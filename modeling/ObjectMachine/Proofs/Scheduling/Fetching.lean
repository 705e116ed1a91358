import ObjectMachine.Proofs.Scheduling.Preemption

namespace ObjectMachine

namespace Machine

variable {m m' : Machine} {W : Licence}

def Coded (m : Machine) : Prop :=
  ∃ method bytes, m.image.heap.Holds ⟨m.context, Slot.Context.method⟩ method ∧
    m.image.heap.Holds ⟨method, Slot.Code.bytecode⟩ bytes ∧ m.cache[bytes]? = some m.code

inductive Sources (m : Machine) : Cell → Prop where
  | method : m.Sources ⟨m.context, Slot.Context.method⟩
  | bytecode {method : Value} : m.image.heap.Holds ⟨m.context, Slot.Context.method⟩ method →
    m.Sources ⟨method, Slot.Code.bytecode⟩

theorem Loaded.coded (h : m.Loaded) : m.Coded := by
  obtain ⟨bytes, hbytes, hcode⟩ := h.remembered
  exact ⟨m.method, bytes, h.framed.method, hbytes, hcode⟩

theorem Retains.coded (h : Retains W m m') (hc : m.Coded) (hkept : ∀ c x, m.Sources c → ¬W c x) :
    m'.Coded := by
  obtain ⟨method, bytes, hmethod, hbytes, hcode⟩ := hc
  refine ⟨method, bytes, ?_, ?_, ?_⟩
  · rw [h.same.context]
    exact h.holds (fun y => hkept _ y .method) hmethod
  · exact h.holds (fun y => hkept _ y (.bytecode hmethod)) hbytes
  · rw [h.same.cache, h.same.code]
    exact hcode

end Machine

/-- The instruction writes to none of the cells that the code comes from. -/
def Deed.KeepsCode : Deed → Prop
  | .execute i m => ∀ c x, m.Sources c → ¬m.Writes i c x
  | _ => True

namespace Stage

variable {s s' : Stage} {d : Deed} {t : Track}

/-- If the machine runs, nothing was collected since it last looked at what it remembers. -/
def Current : Stage → Prop
  | .running m => m.epoch = m.image.heap.stats.collections
  | _ => True

/-- If the machine runs, its code is what it remembers for the method in its context. -/
def Coded : Stage → Prop
  | .running m => m.Coded
  | _ => True

theorem Step.coded (hs : s.Sound) (hstep : s.Step d t s') (hr : s.Recalls) (hc : s.Current) :
    s'.Current ∧ (s.Coded → d.KeepsCode → s'.Coded) := by
  cases hstep with
  | outside | interrupts | collect | spawn | fail | reject | leave | abort =>
    exact ⟨trivial, fun _ _ => trivial⟩
  | dispatch hdequeue hunspill =>
    obtain ⟨hl, -⟩ := Step.taken_up hs (.dispatch hdequeue hunspill)
    exact ⟨hl.current, fun _ _ => hl.coded⟩
  | @execute m _ m₁ m' i _ hstop hf hp heq =>
    obtain ⟨-, hends⟩ := Step.reloads hs (.execute hstop hf hp heq) hr
    rcases hends with hl' | ⟨hretains, hl₁ | ⟨_, _, _, _, rfl⟩⟩
    · exact ⟨hl'.current, fun _ _ => hl'.coded⟩
    · exact ⟨(hretains.same.epoch.trans hl₁.current).trans hretains.collections.symm,
        fun _ hkeeps => hretains.coded hl₁.coded hkeeps⟩
    · exact ⟨(hretains.same.epoch.trans hc).trans hretains.collections.symm,
        fun h hkeeps => hretains.coded h hkeeps⟩

end Stage

section Histories

variable {stage : Nat → Stage} {deed : Nat → Deed} {track : Nat → Track} {n a k : Nat}
  {m : Machine}

/-- Since a process was taken up, what is remembered is from after the last collection, and the code
is what is remembered for the method in the context if no instruction writes to where it comes
from. -/
theorem History.coded (history : History stage deed track n) (ha : deed a = .dispatch)
    (hak : a < k) (hk : k ≤ n) : (stage k).Current ∧
      ((∀ l, a < l → l < k → (deed l).KeepsCode) → (stage k).Coded) := by
  induction k, hak using Nat.le_induction with
  | base =>
    have hstep := history.step a hk
    have hs := history.sound_at (Nat.le_of_succ_le hk)
    rw [ha] at hstep
    have hnext := hstep.runs_after
    rw [hnext] at hstep
    rw [Nat.succ_eq_add_one, hnext]
    obtain ⟨hl, -⟩ := hstep.taken_up hs
    exact ⟨hl.current, fun _ => hl.coded⟩
  | succ k hak ih =>
    obtain ⟨hcurrent, hcoded⟩ := ih (Nat.le_of_succ_le hk)
    obtain ⟨hr, -⟩ := history.framed ha hak (Nat.le_of_succ_le hk)
    obtain ⟨hcurrent', hcoded'⟩ :=
      (history.step k hk).coded (history.sound_at (Nat.le_of_succ_le hk)) hr hcurrent
    exact ⟨hcurrent', fun hkeeps =>
      hcoded' (hcoded fun l hal hlk => hkeeps l hal (Nat.lt_succ_of_lt hlk))
        (hkeeps k hak (Nat.lt_succ_self k))⟩

/-- Whatever is stored, what a machine that runs remembers is from after the last collection, and
the bytes that it remembers for a byte array are the bytes of that array. The next instruction is
decoded from what it remembers for the method of its context, so from the bytes of that method, if
no instruction since the process was taken up has written to the place of the method in the context
or to that of the bytes in the method. -/
theorem History.fetches_current (history : History stage deed track n) (ha : deed a = .dispatch)
    (hak : a < k) (hk : k ≤ n) (hrun : stage k = .running m) :
    m.epoch = m.image.heap.stats.collections ∧
    (∀ bytes code, bytes.IsLeaf → m.cache[bytes]? = some code →
      m.image.heap.bytes bytes = .ok code) ∧
    ((∀ l, a < l → l < k → (deed l).KeepsCode) →
      ∃ method bytes, m.image.heap.slot m.context Slot.Context.method = .ok method ∧
        m.image.heap.slot method Slot.Code.bytecode = .ok bytes ∧
        m.cache[bytes]? = some m.code ∧
        (bytes.IsLeaf → m.image.heap.bytes bytes = .ok m.code)) := by
  obtain ⟨hr, -⟩ := history.framed ha hak hk
  obtain ⟨hcurrent, hcoded⟩ := history.coded ha hak hk
  rw [hrun] at hr hcurrent hcoded
  have hbytes : ∀ bytes code, bytes.IsLeaf → m.cache[bytes]? = some code →
      m.image.heap.bytes bytes = .ok code :=
    fun bytes code hleaf hcode => (hr.cache hcurrent hcode hleaf).2
  refine ⟨hcurrent, hbytes, fun hkeeps => ?_⟩
  obtain ⟨method, bytes, hmethod, hheld, hcode⟩ := hcoded hkeeps
  exact ⟨method, bytes, hmethod.slot, hheld.slot, hcode, fun hleaf => hbytes _ _ hleaf hcode⟩

end Histories

theorem Machine.Sources.index_eq {m : Machine} {c : Cell} (hc : m.Sources c) :
    c.index = Slot.Context.method ∨ c.index = Slot.Code.bytecode := by
  cases hc with
  | method => exact .inl rfl
  | bytecode => exact .inr rfl

/-- An instruction that calls no primitive keeps the code unless it stores over it. -/
theorem Deed.keepsCode_of_stores {i : Instruction} {m : Machine} (hcall : Machine.call? i = none)
    (hstores : ∀ c, m.Stores i c → ¬m.Sources c) : (Deed.execute i m).KeepsCode := by
  have hcalls : ∀ {prim args}, ¬m.Calls i prim args := by
    rintro prim args ⟨_, _, hcalled, -⟩
    rw [hcall] at hcalled
    cases hcalled
  have hfar : ∀ k, Slot.Context.registers + k ≠ Slot.Context.method ∧
      Slot.Context.registers + k ≠ Slot.Code.bytecode := by
    intro k
    simp only [Slot.Context.registers, Slot.Context.method, Slot.Code.bytecode]
    omega
  intro c x hc hwrites
  have hindex := hc.index_eq
  cases hwrites with
  | position | ended => simp at hindex
  | register => exact hindex.elim (hfar _).1 (hfar _).2
  | stored h => exact hstores c h hc
  | link h _ | state h _ =>
    obtain ⟨_, _, h, -⟩ := h
    exact hcalls h

/-- Whether it is plain that an instruction stores neither a method into a context nor bytes into a
method. -/
def Instruction.sparesCode : Instruction → Bool
  | .loadTrue | .loadThisContext | .storeRegister _ | .loadInstVar _ => true
  | .storeInstVar k => k ≠ 0 ∧ k ≠ 2
  | _ => false

theorem Deed.keepsCode_of_spares {d : Deed} {i : Instruction} (h : d.move = .execute i)
    (hspares : i.sparesCode) : d.KeepsCode := by
  have hcall : Machine.call? i = none := by
    cases i with
    | loadTrue | loadThisContext | storeRegister | loadInstVar | storeInstVar => rfl
    | _ => cases hspares
  cases d with
  | execute i' m =>
    obtain rfl := Move.execute.inj h
    refine keepsCode_of_stores hcall fun c hstores hc => ?_
    cases hstores with
    | @instVar k =>
      have hk : k ≠ 0 ∧ k ≠ 2 := of_decide_eq_true hspares
      rcases hc.index_eq with h | h
      · exact hk.2 (UInt8.toNat_inj.mp h)
      · exact hk.1 (UInt8.toNat_inj.mp h)
    | primitive h =>
      obtain ⟨_, _, h, -⟩ := h
      rw [hcall] at h
      cases h
    | _ => cases hspares
  | _ => trivial

/-- A method whose literals are replaced while it runs is still the one that is decoded. -/
theorem fetches_current_relinked :
    (∀ l, 1 < l → l < 8 → (Deed.nth (interruption relinking) l).KeepsCode) ∧
      (interruptedMachine relinking).image.heap.bytes (.ofAddress ⟨.leaf, 2⟩) =
        .ok (interruptedMachine relinking).code := by
  have h : Interruptible relinking := by constructor <;> decide +kernel
  have hkeeps : ∀ l, 1 < l → l < 8 → (Deed.nth (interruption relinking) l).KeepsCode := by
    intro l hl hl'
    obtain ⟨k, rfl⟩ : ∃ k, l = k + 2 := ⟨l - 2, by omega⟩
    have hmoves : ∀ k < 6, (Deed.nth (interruption relinking) (k + 2)).move =
        .execute (relinking.getD k .loadNil) ∧ (relinking.getD k .loadNil).sparesCode = true := by
      decide +kernel
    obtain ⟨hmove, hspares⟩ := hmoves k (by omega)
    exact Deed.keepsCode_of_spares hmove hspares
  obtain ⟨-, -, hcurrent⟩ := (interruption_history h.length).fetches_current (a := 1) (k := 8)
    (Deed.move_eq_dispatch.mp h.taken) (by decide) (by decide) h.suspended.running
  obtain ⟨method, bytes, hmethod, hbytes, -, hcode⟩ := hcurrent hkeeps
  obtain ⟨hmethod', hbytes'⟩ :
      (interruptedMachine relinking).image.heap.slot (interruptedMachine relinking).context
        Slot.Context.method = .ok (.ofAddress ⟨.pointers, 2⟩) ∧
      (interruptedMachine relinking).image.heap.slot (.ofAddress ⟨.pointers, 2⟩)
        Slot.Code.bytecode = .ok (.ofAddress ⟨.leaf, 2⟩) := by decide +kernel
  obtain rfl := Except.ok.inj (hmethod.symm.trans hmethod')
  obtain rfl := Except.ok.inj (hbytes.symm.trans hbytes')
  exact ⟨hkeeps, hcode ⟨2, by decide⟩⟩

def Deed.SparesMethods (d : Deed) : Prop :=
  (∀ stores, d ≠ .outside stores) ∧ ∀ i m c, d = .execute i m → m.Stores i c →
    ¬m.image.Instance .method c.object ∧ ¬m.image.Instance .block c.object

def exchangingObjects : ImageAction Value := do
  let block ← Image.newCode (.ofNat KernelClass.block.index) Slot.Block.count 0
    [.loadNil, .return_] []
  let method ← Image.newCode (.ofNat KernelClass.method.index) Slot.Code.count 0
    [.loadThisContext, .storeRegister 0, .copyBlock 0,
      .storeInstVar Slot.Context.method.toUInt8, .returnSelf] [block]
  Image.newContext method .nil [] .nil .nil none

theorem exchangingObjects_stable : Stable [] exchangingObjects := by
  refine .bind (Image.newCode_stable (by simp) _ _ _ (by simp)) fun block => ?_
  refine .bind (Image.newCode_stable (by simp) _ _ _ (by simp)) fun method => ?_
  exact Image.newContext_stable (by simp) (by simp) (by simp) (by simp) (by simp) (by simp)

/-- An array in the place of bytes. Its first element is a number that, read as bytes, tells to
store nil there. -/
def spelledObjects : ImageAction Value := do
  let array ← Image.onHeap (Heap.allocatePointers (.ofNat KernelClass.array.index) 3)
  Image.fillSlots array 0 [.ofNat 352]
  let code ← Image.onHeap (Heap.allocatePointers (.ofNat KernelClass.array.index) Slot.Code.count)
  Image.fillSlots code 0 [array, .nil, .ofNat 0, .ofNat 0, .ofNat 0, .ofNat 0]
  Image.newContext code array [] .nil .nil none

theorem spelledObjects_stable : Stable [] spelledObjects := by
  refine .bind (Image.onHeap_stable (Heap.allocatePointers_stable (by simp) _)) fun array => ?_
  refine .bind (Image.fillSlots_stable (by simp) _ (by simp)) fun _ => ?_
  refine .bind (Image.onHeap_stable (Heap.allocatePointers_stable (by simp) _)) fun code => ?_
  refine .bind (Image.fillSlots_stable (by simp) _ (by simp)) fun _ => ?_
  exact Image.newContext_stable (by simp) (by simp) (by simp) (by simp) (by simp) (by simp)

/-- What a lone process does with some objects, until it has executed a number of instructions. -/
def started (objects : ImageAction Value) (count : Nat) : List (Deed × Stage) :=
  (Stage.scripted (.spawn (Machine.blankImage.furnished objects).1 :: .dispatch ::
    List.replicate count .execute) (.idle (.furnished objects))).getD []

theorem started_history {objects : ImageAction Value} {count : Nat} (hstable : Stable [] objects)
    (hlength : (started objects count).length = count + 2) :
    History (Stage.nth (.idle (.furnished objects)) (started objects count))
      (Deed.nth (started objects count)) (fun _ => Eq) (count + 2) := by
  obtain ⟨hw, hcontext⟩ := World.furnished_intact hstable
  have hs : (Stage.idle (.furnished objects)).Sound := hw
  refine Stage.history_of_script hs hlength fun context hmem => ?_
  obtain rfl : context = _ := by simpa [List.mem_replicate] using hmem
  exact hcontext

theorem sparesMethods_of_avoids {objects : ImageAction Value} {count k : Nat}
    (havoids : (started objects count).all fun act => act.1.avoids .method && act.1.avoids .block)
    (hk : k < (started objects count).length) :
    (Deed.nth (started objects count) k).SparesMethods := by
  have hmem := List.all_eq_true.mp havoids _ (List.getElem_mem hk)
  rw [Stage.getElem_nth (s := .idle (.furnished objects)) hk, Bool.and_eq_true] at hmem
  refine ⟨fun stores heq => ?_, fun i m c heq hstores =>
    ⟨Deed.not_instance_of_avoids hmem.1 heq hstores,
      Deed.not_instance_of_avoids hmem.2 heq hstores⟩⟩
  rw [heq] at hmem
  cases hmem.1

def startedMachine (objects : ImageAction Value) (count : Nat) : Machine :=
  (Stage.nth (.idle (.furnished objects)) (started objects count) (count + 2)).machine

theorem exchanging_evaluated :
    (started exchangingObjects 4).length = 6 ∧
    (Deed.nth (started exchangingObjects 4) 1).move = .dispatch ∧
    ((started exchangingObjects 4).all
      fun act => act.1.avoids .method && act.1.avoids .block) = true ∧
    let m := startedMachine exchangingObjects 4
    m.image.heap.slot m.context Slot.Context.method = .ok (.ofAddress ⟨.pointers, 48⟩) ∧
      m.image.classOf (.ofAddress ⟨.pointers, 48⟩) = .ok (m.image.kernelClass .block) ∧
      m.image.heap.slot (.ofAddress ⟨.pointers, 48⟩) Slot.Code.bytecode =
        .ok (.ofAddress ⟨.leaf, 2⟩) ∧
      m.image.heap.bytes (.ofAddress ⟨.leaf, 2⟩) = .ok #[0, 0x1F] ∧ #[0, 0x1F] ≠ m.code := by
  decide +kernel

/-- What is evaluated of the array in the place of bytes. -/
theorem spelled_evaluated :
    (started spelledObjects 2).length = 4 ∧
    (Deed.nth (started spelledObjects 2) 1).move = .dispatch ∧
    ((started spelledObjects 2).all
      fun act => act.1.avoids .method && act.1.avoids .block) = true ∧
    (Deed.nth (started spelledObjects 2) 2).move = .execute .loadTrue ∧
    (let d := Deed.nth (started spelledObjects 2) 3
    d.move = .execute (.storeInstVar 0) ∧
      d.machine.image.heap.slot d.machine.context Slot.Context.registers =
        .ok (.ofAddress ⟨.pointers, 2⟩) ∧
      d.machine.image.heap.slot d.machine.context Slot.Context.method =
        .ok (.ofAddress ⟨.pointers, 7⟩)) ∧
    let m := startedMachine spelledObjects 2
    m.image.heap.slot m.context Slot.Context.method = .ok (.ofAddress ⟨.pointers, 7⟩) ∧
      m.image.heap.slot (.ofAddress ⟨.pointers, 7⟩) Slot.Code.bytecode =
        .ok (.ofAddress ⟨.pointers, 2⟩) ∧
      m.image.heap.bytes (.ofAddress ⟨.pointers, 2⟩) = .ok #[0, 0, 0] ∧ #[0, 0, 0] ≠ m.code := by
  decide +kernel

/-- The number is stored over in the array, not the array in the code. -/
theorem spelled_keeps : ∀ l, 1 < l → l < 4 → (Deed.nth (started spelledObjects 2) l).KeepsCode := by
  obtain ⟨-, -, -, hload, ⟨hstore, hself, hmethod⟩, -⟩ := spelled_evaluated
  intro l hl hl'
  obtain rfl | rfl : l = 2 ∨ l = 3 := by omega
  · exact Deed.keepsCode_of_spares hload rfl
  · generalize Deed.nth (started spelledObjects 2) 3 = d at hstore hself hmethod
    cases d with
    | execute i m =>
      obtain rfl := Move.execute.inj hstore
      refine Deed.keepsCode_of_stores rfl fun c hstores hc => ?_
      cases hstores with
      | instVar hstored =>
        obtain rfl := Except.ok.inj (hself.symm.trans hstored)
        generalize hcell : (⟨_, _⟩ : Cell) = c at hc
        cases hc with
        | method => simp at hcell
        | bytecode hheld =>
          obtain rfl := Except.ok.inj (hmethod.symm.trans hheld.slot)
          exact absurd (congrArg Cell.object hcell) (by decide)
      | primitive h =>
        obtain ⟨_, _, h, -⟩ := h
        cases h
    | _ => cases hstore

/-- Nothing need be stored into methods or blocks for the code to be another than that of the method
in the context, or for what is remembered of code to be wrong. -/
theorem exchanged_code_stays :
    (∃ stage deed m method bytes code, History stage deed (fun _ => Eq) 6 ∧ deed 1 = .dispatch ∧
      stage 6 = .running m ∧ (∀ k < 6, (deed k).SparesMethods) ∧
      m.image.heap.slot m.context Slot.Context.method = .ok method ∧
      m.image.classOf method = .ok (m.image.kernelClass .block) ∧
      m.image.heap.slot method Slot.Code.bytecode = .ok bytes ∧ bytes.IsLeaf ∧
      m.image.heap.bytes bytes = .ok code ∧ code ≠ m.code) ∧
    ∃ stage deed m key code code', History stage deed (fun _ => Eq) 4 ∧ deed 1 = .dispatch ∧
      stage 4 = .running m ∧ (∀ k < 4, (deed k).SparesMethods) ∧
      m.epoch = m.image.heap.stats.collections ∧ m.cache[key]? = some code ∧
      m.image.heap.bytes key = .ok code' ∧ code' ≠ code := by
  constructor
  · obtain ⟨hlength, htaken, havoids, hmethod, hclass, hbytes, hcode, hne⟩ := exchanging_evaluated
    refine ⟨_, _, startedMachine exchangingObjects 4, _, _, _,
      started_history exchangingObjects_stable hlength, Deed.move_eq_dispatch.mp htaken,
      Stage.eq_running (by decide +kernel), fun k hk => ?_, hmethod, hclass, hbytes,
      ⟨2, by decide⟩, hcode, hne⟩
    exact sparesMethods_of_avoids havoids (hlength ▸ hk)
  · obtain ⟨hlength, htaken, havoids, -, -, hmethod, hbytes, hread, hne⟩ := spelled_evaluated
    have history := started_history spelledObjects_stable hlength
    have hdispatch := Deed.move_eq_dispatch.mp htaken
    have hruns : Stage.nth (.idle (.furnished spelledObjects)) (started spelledObjects 2) 4 =
        .running (startedMachine spelledObjects 2) := Stage.eq_running (by decide +kernel)
    obtain ⟨hcurrent, hcoded⟩ := history.coded hdispatch (by decide) le_rfl
    rw [hruns] at hcurrent hcoded
    obtain ⟨method, bytes, hmethod', hbytes', hcode⟩ := hcoded spelled_keeps
    obtain rfl := Except.ok.inj (hmethod.symm.trans hmethod'.slot)
    obtain rfl := Except.ok.inj (hbytes.symm.trans hbytes'.slot)
    refine ⟨_, _, _, _, _, _, history, hdispatch, hruns, fun k hk => ?_, hcurrent, hcode, hread,
      hne⟩
    exact sparesMethods_of_avoids havoids (hlength ▸ hk)

end ObjectMachine
