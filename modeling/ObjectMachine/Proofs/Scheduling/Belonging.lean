import ObjectMachine.Proofs.Image.Nesting
import ObjectMachine.Proofs.Machine.Belonging
import ObjectMachine.Proofs.Scheduling.Preemption

namespace ObjectMachine

def Deed.KeepsMethod : Deed → Prop
  | .execute i m => ∀ x, ¬m.Writes i ⟨m.context, Slot.Context.method⟩ x
  | _ => True

namespace Stage

variable {s s' : Stage} {d : Deed} {t : Track} {m m₁ : Machine} {i : Instruction}

def Results (s : Stage) : EStateM.Result (Stop RuntimeError) Machine Unit → Prop
  | .ok _ m => s = .running m
  | .error (.failure _) m => s = .failed m.toWorld
  | .error (.fault _) _ => False

/-- If the machine runs, its method is that of its context. -/
def Seated : Stage → Prop
  | .running m => m.Seated
  | _ => True

/-- A step in which an instruction is executed, whether or not it fails. -/
theorem Step.executes (hs : (running m).Sound) (hstep : (running m).Step (.execute i m₁) t s') :
    ∃ m₀, m.Fetches i m₀ ∧ m₀.Pause i m₁ ∧ Intact m₁ ∧ s'.Results (Machine.execute i m₀) := by
  cases hstep with
  | @execute _ m₀ _ m' _ _ hstop hf hp heq | @fail _ m₀ _ m' _ _ _ hstop hf hp heq =>
    have hm₀ := hf.intact hs.1
    have hstop₀ : m₀.stop = none := by
      obtain ⟨_, _, _, _, rfl⟩ := hf.eq
      exact hstop
    exact ⟨m₀, hf, hp.pause, (hp.pause.leaves hm₀ hstop₀ (by simp [heq])).1, by rw [heq]; rfl⟩

theorem Step.seated_of_dispatch (hs : s.Sound) (hstep : s.Step .dispatch t s') : s'.Seated := by
  have hs' := (hstep.sound_follows hs).1
  cases hstep with
  | dispatch _ hunspill => exact Machine.unspill_seated hs'.1 hunspill

/-- The method in the register stays that of the context, unless it is stored over. -/
theorem Step.seated (hs : s.Sound) (hstep : s.Step d t s') (hseated : s.Seated)
    (hkeeps : d.KeepsMethod) : s'.Seated := by
  cases hstep with
  | outside | interrupts | collect | spawn | fail | reject | leave | abort => trivial
  | dispatch hdequeue hunspill => exact Step.seated_of_dispatch hs (.dispatch hdequeue hunspill)
  | @execute m m₀ m₁ m' i t hstop hf hp heq =>
    have hm₀ := hf.intact hs.1
    have hstop₀ : m₀.stop = none := by
      obtain ⟨_, _, _, _, rfl⟩ := hf.eq
      exact hstop
    obtain ⟨hm₁, hleaves⟩ := hp.pause.leaves hm₀ hstop₀ (by simp [heq])
    have hfetched : m₀.Seated := by
      obtain ⟨_, _, _, _, rfl⟩ := hf.eq
      exact hseated
    exact (Machine.execute_lands hp.pause heq).seated (hleaves.ok heq)
      (hp.pause.seated hm₁ hfetched) hkeeps

/-- So it moves along with the method when garbage is collected. -/
theorem Step.method_moved (hs : (running m).Sound)
    (hstep : (running m).Step (.execute i m₁) t s') (hseated : m.Seated) :
    t m.method m₁.method := by
  obtain ⟨m₀, hf, hp, hm₁, -⟩ := hstep.executes hs
  have hfetched : m₀.Seated := by
    obtain ⟨_, _, _, _, rfl⟩ := hf.eq
    exact hseated
  obtain ⟨x, hx, hmoved⟩ := hstep.paused_holds hs (hstep.context_moved hs) hseated
    fun y hspilled => by
      generalize hc : (⟨m₁.context, Slot.Context.method⟩ : Cell) = c at hspilled
      cases hspilled <;> simp at hc
  exact (hp.seated hm₁ hfetched).unique hx ▸ hmoved

end Stage

/-- The code objects that stem from some others, some steps later: these, wherever they have moved,
and the blocks that were copied from them or from such blocks. -/
inductive Stems (stage : Nat → Stage) (deed : Nat → Deed) (track : Nat → Track) (start : Nat)
    (origin : Value → Prop) : Nat → Value → Prop where
  | origin {v : Value} : origin v → Stems stage deed track start origin 0 v
  | moved {d : Nat} {v x : Value} : Stems stage deed track start origin d v →
    track (start + d) v x → Stems stage deed track start origin (d + 1) x
  | copied {d : Nat} {v x : Value} {index : UInt8} {m₁ m' : Machine} :
    Stems stage deed track start origin d v → track (start + d) v x →
    deed (start + d) = .execute (.copyBlock index) m₁ →
    m₁.image.heap.slot m₁.literals index.toNat = .ok x →
    stage (start + d + 1) = .running m' → Stems stage deed track start origin (d + 1) m'.accumulator

/-- Where nothing moves, they are the same all the time. -/
theorem Stems.stays {stage : Nat → Stage} {deed : Nat → Deed} {start d d' : Nat}
    {origin : Value → Prop} {v : Value} (h : Stems stage deed (fun _ => Eq) start origin d v)
    (hd : d ≤ d') : Stems stage deed (fun _ => Eq) start origin d' v := by
  induction d', hd using Nat.le_induction with
  | base => exact h
  | succ _ _ ih => exact ih.moved rfl

section Histories

variable {stage : Nat → Stage} {deed : Nat → Deed} {track : Nat → Track} {n start d : Nat}
  {origin : Value → Prop} {cls v : Value}

/-- All code that stems from that of a class belongs to the class, as long as nothing else is stored
in it for its class. -/
theorem History.stems_belong (history : History stage deed track n)
    (horigin : ∀ v, origin v → (stage start).heap.Holds ⟨v, Slot.Code.methodClass⟩ cls)
    (hkept : ∀ {e v x y}, start + e < n → Stems stage deed track start origin e v →
      track (start + e) v x →
      ¬(stage (start + e)).Writes (deed (start + e)) ⟨x, Slot.Code.methodClass⟩ y)
    (hd : start + d ≤ n) (hstems : Stems stage deed track start origin d v) :
    ∃ cls', Track.along track start d cls cls' ∧
      (stage (start + d)).heap.Holds ⟨v, Slot.Code.methodClass⟩ cls' := by
  induction hstems with
  | origin h => exact ⟨cls, rfl, horigin _ h⟩
  | moved h hx ih =>
    obtain ⟨cls', hcls, hholds⟩ := ih (by omega)
    obtain ⟨cls'', hcls', hmoved⟩ := (history.follows_at hd).kept hx hholds fun _ =>
      hkept hd h hx
    exact ⟨cls'', ⟨cls', hcls, hmoved⟩, hcls'⟩
  | @copied d v x index m₁ m' h hx hdeed hliteral hstage ih =>
    obtain ⟨cls', hcls, hholds⟩ := ih (by omega)
    have hs := history.sound_at (k := start + d) (by omega)
    have hstep := history.step (start + d) hd
    have hspared : ∀ y, ¬(stage (start + d)).Writes (deed (start + d))
        ⟨x, Slot.Code.methodClass⟩ y := fun y => hkept hd h hx
    rw [hdeed, hstage] at hstep
    obtain ⟨m, m₀, hm, hp, hm₁, heq⟩ := hstep.execute_inv hs
    rw [hm] at hs hstep hholds
    rw [hm, hdeed] at hspared
    obtain ⟨cls'', hcls', hmoved⟩ := hstep.paused_holds hs hx hholds fun y hspilled =>
      hspared y (.pause hspilled)
    refine ⟨cls'', ⟨cls', hcls, hmoved⟩, ?_⟩
    rw [← Nat.add_assoc, hstage]
    exact Machine.copyBlock_copies hp hm₁ hliteral (by decide) hcls' heq

/-- The method in the register is that of the context, if nothing was stored over it since a process
was taken up. -/
theorem History.seated (history : History stage deed track n) {a k : Nat} (ha : deed a = .dispatch)
    (hak : a < k) (hk : k ≤ n) (hkeeps : ∀ l, a < l → l < k → (deed l).KeepsMethod) :
    (stage k).Seated := by
  induction k, hak using Nat.le_induction with
  | base =>
    have hstep := history.step a hk
    rw [ha] at hstep
    exact hstep.seated_of_dispatch (history.sound_at (Nat.le_of_succ_le hk))
  | succ k hak ih =>
    exact (history.step k hk).seated (history.sound_at (Nat.le_of_succ_le hk))
      (ih (Nat.le_of_succ_le hk) fun l hal hlk => hkeeps l hal (Nat.lt_succ_of_lt hlk))
      (hkeeps k hak (Nat.lt_succ_self k))

/-- A method is compiled and installed in a class. Whenever a send to super is executed in its code,
directly or in a block at any depth, the message is looked up from above that class, wherever the
class has moved, whoever the receiver is and whoever runs the block. This is so as long as nothing
else is stored for the class of that code, and for the method of the context that executes the send
since its process was taken up. -/
theorem History.super_starts_above (history : History stage deed track n) {i : Image} {w : World}
    {method : Value} {m : Method} {vars : List String} {t : CodeTemplate}
    (hi : Intact i) (hs : i.Spelled) (hcls : Sane i cls)
    (hvars : i.heap.instanceVariables cls = .ok vars) (ht : m.compile vars = .ok t)
    (hadd : Image.addMethod cls m i = .ok method w.image) (hstart : stage start = .idle w)
    (hkept : ∀ {e v x y}, start + e < n →
      Stems stage deed track start (fun v => ∃ t', w.image.Nests t method t' v) e v →
      track (start + e) v x →
      ¬(stage (start + e)).Writes (deed (start + e)) ⟨x, Slot.Code.methodClass⟩ y)
    {a : Nat} (ha : deed a = .dispatch) (hak : a < start + d)
    (hkeeps : ∀ l, a < l → l < start + d → (deed l).KeepsMethod) {r r₁ : Machine}
    {selector : UInt8} {args : ArgRegisters} (hd : start + d < n)
    (hrun : stage (start + d) = .running r)
    (hsend : deed (start + d) = .execute (.sendSuper selector args) r₁)
    (hstems : Stems stage deed track start (fun v => ∃ t', w.image.Nests t method t' v) d
      r.method) :
    ∃ cls' sup name values, Track.along track start (d + 1) cls cls' ∧
      r₁.image.heap.Holds ⟨cls', Slot.Class.superclass⟩ sup ∧
      r₁.Says selector args name values ∧ (stage (start + d + 1)).Results
        (Machine.dispatch name r₁.accumulator values sup r₁) := by
  have horigin : ∀ v, (∃ t', w.image.Nests t method t' v) →
      (stage start).heap.Holds ⟨v, Slot.Code.methodClass⟩ cls := by
    rintro v ⟨t', hnests⟩
    obtain ⟨vars', t₁, hvars', ht₁, hreads⟩ := Image.addMethod_reads hi hs hcls hadd
    obtain rfl := Except.ok.inj (hvars.symm.trans hvars')
    obtain rfl := Except.ok.inj (ht.symm.trans ht₁)
    rw [hstart]
    exact (hreads.nests hnests).methodClass
  obtain ⟨cls', hmoved, hholds⟩ := history.stems_belong horigin hkept hd.le hstems
  have hseated := history.seated ha hak hd.le hkeeps
  have hsound := history.sound_at hd.le
  have hstep := history.step (start + d) hd
  have hspared : ∀ {x}, track (start + d) r.method x → ∀ y, ¬(stage (start + d)).Writes
      (deed (start + d)) ⟨x, Slot.Code.methodClass⟩ y := fun hx y => hkept hd hstems hx
  rw [hrun] at hholds hseated hsound hspared
  rw [hrun, hsend] at hstep
  rw [hsend] at hspared
  have hmethod := hstep.method_moved hsound hseated
  obtain ⟨cls'', hclass, hmoved'⟩ := hstep.paused_holds hsound hmethod hholds fun y hspilled =>
    hspared hmethod y (.pause hspilled)
  obtain ⟨m₀, -, hp, hm₁, hresults⟩ := hstep.executes hsound
  obtain ⟨sup, name, values, hsup, hmessage, hdispatch⟩ :=
    Machine.sendSuper_dispatches hp hm₁.whole hclass fun f m' heq => by
      rw [heq] at hresults
      exact hresults
  exact ⟨cls'', sup, name, values, ⟨cls', hmoved, hmoved'⟩, hsup, hmessage, hdispatch ▸ hresults⟩

end Histories

/-- Whether it is plain that an instruction stores nowhere but in registers. -/
def Instruction.plain : Instruction → Bool
  | .loadRegister _ | .sendSuper .. => true
  | .storeRegister r => r ≠ 0
  | i => i.silent

/-- Whether it is plain that nothing is stored for the class of code, unless code is taken for the
process that stops. -/
def Deed.plain : Deed → Bool
  | .outside _ => false
  | .execute i _ => i.plain
  | _ => true

theorem Machine.not_stores_of_plain {m : Machine} {i : Instruction} {c : Cell} (hplain : i.plain) :
    ¬m.Stores i c := by
  intro hstores
  cases i with
  | loadNil | loadTrue | loadThisContext | storeRegister | loadLiteral | copyBlock =>
    exact not_stores_of_silent rfl hstores
  | primitive0 p => exact not_stores_of_silent (i := .primitive0 p) hplain hstores
  | primitive2 p r => exact not_stores_of_silent (i := .primitive2 p r) hplain hstores
  | loadRegister | sendSuper =>
    cases hstores with
    | primitive hcalls =>
      obtain ⟨_, _, hcall, -⟩ := hcalls
      cases hcall
  | _ => cases hplain

theorem Machine.not_writes_of_plain {m : Machine} {i : Instruction} {v x : Value}
    (hplain : i.plain) : ¬m.Writes i ⟨v, Slot.Code.methodClass⟩ x := by
  generalize hcell : (⟨v, Slot.Code.methodClass⟩ : Cell) = c
  intro hwrites
  cases hwrites with
  | position | ended | link | state => simp at hcell
  | stored hstores => exact not_stores_of_plain hplain hstores
  | register hregister =>
    cases i with
    | storeRegister r =>
      obtain rfl := Option.some.inj hregister
      have hindex : Slot.Code.methodClass = Slot.Context.registers + r.toNat :=
        congrArg Cell.index hcell
      have hzero : r.toNat = 0 := by simpa using hindex
      exact of_decide_eq_true hplain (UInt8.toNat.inj hzero)
    | sync => cases hplain
    | _ => cases hregister

theorem Stage.not_writes_of_plain {s : Stage} {d : Deed} {v x : Value} (hplain : d.plain)
    (hapart : ∀ m outcome, s = .running m → d = .leave outcome → v ≠ m.schedule.current) :
    ¬s.Writes d ⟨v, Slot.Code.methodClass⟩ x := by
  generalize hcell : (⟨v, Slot.Code.methodClass⟩ : Cell) = c
  intro hwrites
  cases hwrites with
  | outside => cases hplain
  | spawn | dispatch | abort => simp at hcell
  | pause h | spill h => cases h <;> simp at hcell
  | instruction h => exact Machine.not_writes_of_plain hplain (hcell ▸ h)
  | settle h =>
    cases h with
    | own =>
      obtain ⟨rfl, -⟩ := Cell.mk.inj hcell
      exact hapart _ _ rfl rfl rfl
    | runnable | waiting => simp at hcell

theorem Deed.keepsMethod_of_load {d : Deed} {r : UInt8} (h : d.move = .execute (.loadRegister r)) :
    d.KeepsMethod := by
  rw [Deed.eq_execute h]
  intro x hwrites
  generalize hcell : (⟨d.machine.context, Slot.Context.method⟩ : Cell) = c at hwrites
  cases hwrites with
  | position | ended | state => simp at hcell
  | register hregister => cases hregister
  | stored hstores => exact Machine.not_stores_of_plain rfl hstores
  | link hschedules =>
    obtain ⟨_, _, ⟨_, _, hcall, -⟩, -⟩ := hschedules
    cases hcall

theorem Image.newContext_since {i i' : Image} {code receiver context : Value} (hi : Intact i)
    (hcode : Sane i code) (hreceiver : Sane i receiver)
    (heq : newContext code receiver [] .nil .nil none i = .ok context i') :
    Since (fun _ _ => False) i.heap i' ∧ Sane i' context := by
  have hnil : Sane i .nil := Arenas.sane_nil _
  have hgrown := (newContext_grown hi hcode hreceiver (by simp) hnil hnil (by simp)).ok heq
  have hheld := (newContext_introduces hi hcode hreceiver (by simp) hnil hnil (by simp)).ok heq
  exact ⟨⟨hgrown.intact, hgrown.grows, hgrown.evolves⟩, hheld.2.1.sane⟩

section Relaying

open Image

def relaying : Method where
  selector := "m"
  body := [.primitive "processFork" [.block [] [] [.superSend "m" []], .pseudo .nil]]

def relayingTemplate : CodeTemplate :=
  ⟨"m", #[0x19, 0, 0x0f, 1, 0, 0x1c, 0x20, 1, 0x20], [.block ⟨"m", #[0x0a, 0, 0x18, 0, 0, 0x1f],
    [.symbol "m"], 0, 0, 0, 0⟩], 0, 0, 0, 1⟩

theorem relaying_compile : relaying.compile [] = .ok relayingTemplate := by
  with_unfolding_all rfl

/-- Two classes, one above the other, and code that stores the lower one for the class of its
receiver. The upper class has a method. -/
def lineageObjects : ImageAction Value := do
  let symbol ← onHeap (Heap.allocateBytes (.ofNat KernelClass.symbol.index) (Text.toBytes "m"))
  let upper ← onHeap (Heap.allocatePointers .nil Slot.Class.count)
  let lower ← onHeap (Heap.allocatePointers .nil Slot.Class.count)
  let methods ← onHeap (Heap.newDictionary .nil 1)
  let others ← onHeap (Heap.newDictionary .nil 1)
  let given ← newCode .nil Slot.Code.count 0 [.returnSelf] []
  let _ ← onHeap (Heap.dictionaryPut .nil methods symbol given)
  fillSlots upper Slot.Class.superclass [.nil, methods]
  fillSlots lower Slot.Class.superclass [upper, others]
  newCode .nil Slot.Code.count 0
    [.loadLiteral 0, .storeInstVar Slot.Code.methodClass.toUInt8, .returnSelf] [lower]

def upperClass : Value := .ofAddress ⟨.pointers, 2⟩

def lowerClass : Value := .ofAddress ⟨.pointers, 9⟩

def adopter : Value := (Machine.blankImage.furnished lineageObjects).1

theorem lineageObjects_stable : Stable [] lineageObjects := by
  refine .bind (onHeap_stable (Heap.allocateBytes_stable (by simp) _)) fun symbol => ?_
  refine .bind (onHeap_stable (Heap.allocatePointers_stable (by simp) _)) fun upper => ?_
  refine .bind (onHeap_stable (Heap.allocatePointers_stable (by simp) _)) fun lower => ?_
  refine .bind (onHeap_stable (Heap.newDictionary_stable (by simp) _)) fun methods => ?_
  refine .bind (onHeap_stable (Heap.newDictionary_stable (by simp) _)) fun others => ?_
  refine .bind (newCode_stable (by simp) _ _ _ (by simp)) fun given => ?_
  refine .bind (onHeap_stable (Heap.dictionaryPut_stable (by simp) (by simp) (by simp)
    (by simp))) fun _ => ?_
  refine .bind (fillSlots_stable (by simp) _ (by simp)) fun _ => ?_
  refine .bind (fillSlots_stable (by simp) _ (by simp)) fun _ => ?_
  exact newCode_stable (by simp) _ _ _ (by simp)

def symbolOfM : Value := .ofAddress ⟨.leaf, 2⟩

def lineage : Image :=
  { (Machine.blankImage.furnished lineageObjects).2 with
    symbols := ({} : SymbolTable).insert "m" symbolOfM }

theorem lineage_lookup : lineage.symbols.lookup "m" = some symbolOfM :=
  (SymbolTable.lookup_insert ..).trans (if_pos rfl)

def enterRelaying (cls : Value) : ImageAction Value := do
  let i ← EStateM.get
  let method ← onHeap (Heap.allocatePointers (i.kernelClass .method) Slot.Code.count)
  let bytes ← onHeap (Heap.allocateBytes (i.kernelClass .byteArray)
    #[0x19, 0, 0x0f, 1, 0, 0x1c, 0x20, 1, 0x20])
  let table ← onHeap (Heap.allocatePointers (i.kernelClass .array) 1)
  let block ← onHeap (Heap.allocatePointers (i.kernelClass .block) Slot.Block.count)
  let bytes' ← onHeap (Heap.allocateBytes (i.kernelClass .byteArray)
    #[0x0a, 0, 0x18, 0, 0, 0x1f])
  let table' ← onHeap (Heap.allocatePointers (i.kernelClass .array) 1)
  onHeap (Heap.setSlot table' 0 symbolOfM)
  fillCode block bytes' table' symbolOfM cls ⟨0, 0, 0, 0⟩
  onHeap (Heap.setSlot table 0 block)
  fillCode method bytes table symbolOfM cls ⟨0, 0, 0, 1⟩
  onHeap (Heap.installMethod (i.kernelClass .link) cls symbolOfM method)
  return method

theorem enterRelaying_eq {cls : Value} (hvars : lineage.heap.instanceVariables cls = .ok []) :
    addMethod cls relaying lineage = enterRelaying cls lineage := by
  have hread : (ask (·.instanceVariables cls) : ImageAction _) lineage = .ok [] lineage :=
    query_of_eq_ok hvars
  have hcompiled : (compiled (relaying.compile []) : ImageAction _) lineage =
      .ok relayingTemplate lineage := by rw [relaying_compile]; rfl
  rw [addMethod, bind_of_eq_ok hread, bind_of_eq_ok hcompiled]
  have hget : ∀ {β : Type} {f : Image → ImageAction β} (i : Image),
      ((EStateM.get : ImageAction Image) >>= f) i = f i i := fun _ => rfl
  simp only [load, loadCode, loadInto, loadConstant, relayingTemplate, enterRelaying, install,
    bind_assoc, pure_bind]
  rw [hget, hget]
  refine onHeap_bind_congr fun method heap => ?_
  rw [hget]
  refine onHeap_bind_congr (i := { lineage with heap }) fun bytes heap => ?_
  rw [hget]
  refine onHeap_bind_congr (i := { lineage with heap }) fun table heap => ?_
  rw [hget]
  refine onHeap_bind_congr (i := { lineage with heap }) fun block heap => ?_
  rw [hget]
  refine onHeap_bind_congr (i := { lineage with heap }) fun bytes' heap => ?_
  rw [hget]
  refine onHeap_bind_congr (i := { lineage with heap }) fun table' heap => ?_
  rw [intern_bind (i := { lineage with heap }) lineage_lookup]
  refine onHeap_bind_congr (i := { lineage with heap }) fun _ heap => ?_
  rw [intern_bind (i := { lineage with heap }) lineage_lookup]
  refine fillSlots_bind_congr (i := { lineage with heap }) fun heap => ?_
  refine onHeap_bind_congr (i := { lineage with heap }) fun _ heap => ?_
  rw [intern_bind (i := { lineage with heap }) lineage_lookup]
  refine fillSlots_bind_congr (i := { lineage with heap }) fun heap => ?_
  rw [intern_bind (i := { lineage with heap }) lineage_lookup, hget]
  rfl

def relayed (cls : Value) : Value × Image := lineage.furnished (enterRelaying cls)

/-- Its literals, and the block that is among them. -/
def relayedTable : Value := .ofAddress ⟨.pointers, 64⟩

def relayedBlock : Value := .ofAddress ⟨.pointers, 67⟩

/-- Contexts for the method and for the code that stores into its block. -/
def relayContext (cls : Value) : Value × Image :=
  (relayed cls).2.furnished (newContext (relayed cls).1 .nil [] .nil .nil none)

def adoptContext (cls : Value) : Value × Image :=
  (relayContext cls).2.furnished (newContext adopter relayedBlock [] .nil .nil none)

def relayStage (cls : Value) : Stage := .idle { image := (adoptContext cls).2 }

theorem lineage_evaluated :
    (∀ v ∈ [upperClass, lowerClass, symbolOfM, adopter], lineage.heap.arenas.Sane v) ∧
    lineage.heap.bytes symbolOfM = .ok (Text.toBytes "m") ∧
    ∀ cls ∈ [upperClass, lowerClass], lineage.heap.instanceVariables cls = .ok [] ∧
      (relayed cls).1.isReference = true ∧ (relayContext cls).1.isReference = true ∧
      (adoptContext cls).1.isReference = true ∧
      (relayed cls).2.heap.slot (relayed cls).1 Slot.Code.literals = .ok relayedTable ∧
      (relayed cls).2.heap.slot relayedTable 0 = .ok relayedBlock ∧
      (relayed cls).2.heap.arenas.Sane relayedTable ∧
      (relayed cls).2.heap.arenas.Sane adopter := by
  decide +kernel

theorem lineage_intact : Intact lineage := by
  obtain ⟨hi, -⟩ := Image.furnished_intact Machine.blankImage_intact lineageObjects_stable
  refine ⟨hi.whole, fun v hv => ?_⟩
  obtain rfl | hv : v = symbolOfM ∨ v ∈ held (Machine.blankImage.furnished lineageObjects).2 := by
    simp only [Holder.held, values, roots, List.mem_cons, List.mem_append] at hv ⊢
    rcases hv with rfl | hv | hv
    · simp
    · rcases SymbolTable.mem_roots_of_insert hv with rfl | hv
      · simp
      · simp [SymbolTable.roots] at hv
    · exact .inr (.inr (.inr hv))
  · exact lineage_evaluated.1 _ (by simp)
  · exact hi.held v hv

theorem lineage_spelled : lineage.Spelled := by
  intro name v hname
  rw [lineage, SymbolTable.lookup_insert] at hname
  split at hname
  · rename_i heq
    obtain rfl := heq
    obtain rfl := Option.some.inj hname
    exact ⟨⟨2, by decide⟩, lineage_evaluated.2.1⟩
  · simp [SymbolTable.lookup] at hname

variable {cls : Value}

theorem relayed_made (hcls : cls ∈ [upperClass, lowerClass]) :
    addMethod cls relaying lineage = .ok (relayed cls).1 (relayed cls).2 := by
  obtain ⟨hvars, hmade, -⟩ := lineage_evaluated.2.2 cls hcls
  rw [enterRelaying_eq hvars]
  exact Image.furnished_made hmade

theorem relayed_intact (hcls : cls ∈ [upperClass, lowerClass]) :
    Intact (relayed cls).2 ∧ Sane (relayed cls).2 (relayed cls).1 := by
  have hsane : Sane lineage cls := lineage_evaluated.1 _ (by revert cls; decide)
  have hstable : Stable [cls] (addMethod cls relaying) := addMethod_stable (by simp) _
  have hsettled := hstable lineage lineage_intact (by simpa using hsane)
  rw [relayed_made hcls] at hsettled
  exact ⟨hsettled.1, hsettled.2.2 _ (by simp)⟩

theorem relayed_holds (hcls : cls ∈ [upperClass, lowerClass]) :
    (relayed cls).2.heap.Holds ⟨(relayed cls).1, Slot.Code.literals⟩ relayedTable ∧
      (relayed cls).2.heap.Holds ⟨relayedTable, 0⟩ relayedBlock := by
  obtain ⟨-, -, -, -, htable, hblock, hsane, -⟩ := lineage_evaluated.2.2 cls hcls
  exact ⟨⟨(relayed_intact hcls).2, htable⟩, hsane, hblock⟩

theorem relay_begins (hcls : cls ∈ [upperClass, lowerClass]) :
    (Stage.idle { image := (relayed cls).2 }).Sound ∧
    (Stage.idle { image := (relayed cls).2 }).Step (.outside fun _ => False) Eq (relayStage cls) ∧
    ∀ context ∈ [(relayContext cls).1, (adoptContext cls).1],
      Sane (relayStage cls).world context := by
  obtain ⟨-, -, hmade, hmade', -, -, -, hadopter⟩ := lineage_evaluated.2.2 cls hcls
  obtain ⟨hi, hmethod⟩ := relayed_intact hcls
  have hblock := (relayed_holds hcls).2.value_sane hi.whole
  obtain ⟨hrelay, hcontext⟩ := Image.newContext_since hi hmethod (Arenas.sane_nil _)
    (Image.furnished_made hmade)
  obtain ⟨hadopt, hcontext'⟩ := Image.newContext_since hrelay.intact (hrelay.sane hadopter)
    (hrelay.sane hblock) (Image.furnished_made hmade')
  refine ⟨World.intact_fresh hi, .outside ⟨World.intact_fresh hadopt.intact,
    hrelay.grows.trans hadopt.grows, hrelay.evolves.trans hadopt.evolves⟩ rfl,
    fun context hmem => ?_⟩
  rcases List.mem_pair.mp hmem with rfl | rfl
  · exact hadopt.sane hcontext
  · exact hcontext'

def relay (cls : Value) (cues : List Cue) : List (Deed × Stage) :=
  (.outside fun _ => False, relayStage cls) :: ((relayStage cls).scripted cues).getD []

/-- A process executes the method and forks the block in it. -/
def relayCues : List Cue :=
  [.spawn (relayContext lowerClass).1, .dispatch, .execute, .execute, .execute, .execute, .leave,
    .dispatch, .execute]

def adoptCues : List Cue :=
  [.spawn (adoptContext upperClass).1, .spawn (relayContext upperClass).1, .dispatch, .execute,
    .execute, .leave, .dispatch, .execute, .execute, .execute, .execute, .leave, .dispatch, .leave,
    .dispatch, .execute]

/-- The stages of a script, from the world on in which the method was installed. -/
def relayAt (cls : Value) (cues : List Cue) : Nat → Stage :=
  (Stage.idle { image := (relayed cls).2 }).nth (relay cls cues)

def relayedMachine (cls : Value) (cues : List Cue) : Machine :=
  ((relayAt cls cues (cues.length + 1)).machine.fetched?.map (·.2)).getD default

def relaySent (cls : Value) (cues : List Cue) (m' : Machine) : List (Deed × Stage) :=
  relay cls cues ++ [(.execute (.sendSuper 0 default) (relayedMachine cls cues), .running m')]

def sentAt (cls : Value) (cues : List Cue) (m' : Machine) : Nat → Stage :=
  (Stage.idle { image := (relayed cls).2 }).nth (relaySent cls cues m')

/-- Both scripts, each with the number of the step in which the block is copied. -/
def scripts : List (Value × List Cue × Nat) :=
  [(lowerClass, relayCues, 3), (upperClass, adoptCues, 8)]

theorem mem_of_scripts {cues : List Cue} {k : Nat} (hs : (cls, cues, k) ∈ scripts) :
    cls ∈ [upperClass, lowerClass] := by
  simp only [scripts, List.mem_pair, Prod.mk.injEq] at hs
  rcases hs with ⟨rfl, -⟩ | ⟨rfl, -⟩ <;> simp

def Deed.copies : Deed → Bool
  | .execute (.copyBlock _) _ => true
  | _ => false

/-- What is evaluated of the scripts: the machine that is about to execute the send, and the block
that is copied; what the message would come to without the store; where nothing is stored. -/
theorem relay_evaluated :
    (∀ s ∈ scripts,
      ((((relayStage s.1).scripted s.2.1).getD []).length = s.2.1.length ∧
        (match relayAt s.1 s.2.1 (s.2.1.length + 1) with | .running _ => true | _ => false) = true ∧
        (relayAt s.1 s.2.1 (s.2.1.length + 1)).machine.fetched?.map (·.1) =
          some (.sendSuper 0 default)) ∧
      (let m := relayedMachine s.1 s.2.1;
        m.image.heap.needsCollection = false ∧
        m.image.heap.slot m.literals 0 = .ok symbolOfM ∧
        m.image.heap.slot m.method Slot.Code.methodClass = .ok lowerClass ∧
        m.image.heap.superclass lowerClass = .ok upperClass ∧
        m.enters symbolOfM m.accumulator [] upperClass = true) ∧
      (Deed.nth (relay s.1 s.2.1) s.2.2).move = .execute (.copyBlock 0) ∧
      s.2.2 < s.2.1.length ∧
      (match relayAt s.1 s.2.1 (s.2.2 + 1) with | .running _ => true | _ => false) = true ∧
      (let m := (Deed.nth (relay s.1 s.2.1) s.2.2).machine;
        m.image.heap.slot m.literals 0 = .ok relayedBlock) ∧
      (relayAt s.1 s.2.1 (s.2.1.length + 1)).machine.method =
        (relayAt s.1 s.2.1 (s.2.2 + 1)).machine.accumulator) ∧
    (let m := relayedMachine upperClass adoptCues;
      m.image.heap.slot upperClass Slot.Class.superclass = .ok .nil ∧
      (match Machine.dispatch symbolOfM m.accumulator [] .nil m with
        | .ok _ _ => false | .error _ _ => true) = true) ∧
    (∀ e < 9, (Deed.nth (relay lowerClass relayCues) (e + 1)).plain = true) ∧
    (Deed.nth (relay lowerClass relayCues) 8).move = .dispatch ∧
    (Deed.nth (relay lowerClass relayCues) 9).move = .execute (.loadRegister 0) ∧
    (∀ e < 10, (Deed.nth (relay lowerClass relayCues) e).copies = true → e = 3) ∧
    ∀ e < 10, (relayAt lowerClass relayCues e).machine.schedule.current ∉
      [(relayed lowerClass).1, relayedBlock,
        (relayAt lowerClass relayCues 4).machine.accumulator] := by
  -- One evaluation for each script and each question: they share too little to be done at once.
  refine ⟨fun s hs => ?_, ?_, ?_⟩
  · rcases List.mem_pair.mp hs with rfl | rfl <;> decide +kernel
  · decide +kernel
  · decide +kernel

theorem length_relay (hs : (cls, cues, k) ∈ scripts) : (relay cls cues).length = cues.length + 1 :=
  congrArg (· + 1) (relay_evaluated.1 _ hs).1.1

theorem relay_made (hs : (cls, cues, k) ∈ scripts) :
    History (relayAt cls cues) (Deed.nth (relay cls cues)) (fun _ => Eq) (cues.length + 1) := by
  obtain ⟨⟨hlength, -⟩, -⟩ := relay_evaluated.1 _ hs
  have hspawn : ∀ context, .spawn context ∈ cues →
      context ∈ [(relayContext cls).1, (adoptContext cls).1] := by
    simp only [scripts, List.mem_pair, Prod.mk.injEq] at hs
    rcases hs with ⟨rfl, rfl, -⟩ | ⟨rfl, rfl, -⟩
    · simp [relayCues]
    · simp [adoptCues]
  obtain ⟨hsound, hstep, hcontexts⟩ := relay_begins (mem_of_scripts hs)
  refine Stage.history_cons hsound hstep (Stage.history_of_script (hstep.sound_follows hsound).1
    hlength fun context hcue => hcontexts context (hspawn context hcue))

theorem relay_sends (hs : (cls, cues, k) ∈ scripts) :
    ∃ m m', relayAt cls cues (cues.length + 1) = .running m ∧
      (Stage.running m).Step (.execute (.sendSuper 0 default) (relayedMachine cls cues)) Eq
        (.running m') := by
  obtain ⟨⟨-, hruns, hfetched⟩, ⟨hspacious, hname, hclass, hsup, henters⟩, -⟩ :=
    relay_evaluated.1 _ hs
  have hpaused : (relayedMachine cls cues).Paused (.sendSuper 0 default) Eq _ :=
    Machine.paused_of_spacious (by simp [hspacious])
  obtain ⟨m', hdispatch⟩ := Machine.dispatch_of_enters henters
  obtain ⟨⟨i, m₀⟩, hfetch, hi⟩ := Option.map_eq_some_iff.mp hfetched
  obtain rfl : m₀ = relayedMachine cls cues := by rw [relayedMachine, hfetch]; rfl
  obtain ⟨hstop, hfetches⟩ := Machine.fetches_of_fetched hfetch
  obtain rfl : i = .sendSuper 0 default := hi
  have hexecute := Machine.execute_sendSuper hpaused.pause ⟨hname, rfl⟩ hclass hsup
  exact ⟨_, m', Stage.eq_running hruns,
    .execute hstop hfetches hpaused (hexecute.trans hdispatch)⟩

def OfRelaying (cls : Value) (v : Value) : Prop :=
  ∃ t', (relayed cls).2.Nests relayingTemplate (relayed cls).1 t' v

/-- The code that sends is the copy of the block. -/
theorem relay_stems {m' : Machine} (hs : (cls, cues, k) ∈ scripts) :
    Stems (sentAt cls cues m') (Deed.nth (relaySent cls cues m')) (fun _ => Eq) 0
      (OfRelaying cls) (cues.length + 1) (relayAt cls cues (cues.length + 1)).machine.method := by
  obtain ⟨-, -, hmove, hk, hruns, hblock, hmethod⟩ := relay_evaluated.1 _ hs
  dsimp only at hmove hk hruns hblock hmethod
  have hlength := length_relay hs
  obtain ⟨htable, hnested⟩ := relayed_holds (mem_of_scripts hs)
  have hnests : OfRelaying cls relayedBlock := ⟨_, .block .self rfl htable hnested⟩
  have hdeed : Deed.nth (relaySent cls cues m') (0 + k) =
      .execute (.copyBlock 0) (Deed.nth (relay cls cues) k).machine := by
    rw [Nat.zero_add, relaySent, Deed.nth_append (by omega)]
    exact Deed.eq_execute hmove
  have hstage : sentAt cls cues m' (0 + k + 1) = .running (relayAt cls cues (k + 1)).machine := by
    rw [Nat.zero_add, sentAt, relaySent, Stage.nth_append (by omega)]
    exact Stage.eq_running hruns
  have hcopied := Stems.copied (.stays (.origin hnests) (Nat.zero_le k)) rfl hdeed hblock hstage
  rw [hmethod]
  exact hcopied.stays (Nat.succ_lt_succ hk).le

theorem relay_sent (hs : (cls, cues, k) ∈ scripts) : ∃ m',
    History (sentAt cls cues m') (Deed.nth (relaySent cls cues m')) (fun _ => Eq)
      (cues.length + 2) ∧
    sentAt cls cues m' (cues.length + 1) =
      .running (relayAt cls cues (cues.length + 1)).machine ∧
    Deed.nth (relaySent cls cues m') (cues.length + 1) =
      .execute (.sendSuper 0 default) (relayedMachine cls cues) ∧
    sentAt cls cues m' (cues.length + 2) = .running m' := by
  obtain ⟨m, m', hruns, hstep⟩ := relay_sends hs
  have history := relay_made hs
  have hrunning : relayAt cls cues (cues.length + 1) =
      .running (relayAt cls cues (cues.length + 1)).machine := by rw [hruns]; rfl
  refine ⟨m', ?_, ?_, ?_, ?_⟩
  · rw [← hruns, ← length_relay hs] at hstep
    rw [← length_relay hs] at history
    have hsent := Stage.history_concat history hstep
    rwa [length_relay hs] at hsent
  · exact (Stage.nth_append (length_relay hs).ge).trans hrunning
  · simp [Deed.nth, relaySent, length_relay hs]
  · simp [sentAt, Stage.nth, relaySent, length_relay hs]

/-- If something else is stored for the class of a block, the message is looked up from above
that. -/
theorem adopted_super_starts_elsewhere :
    relaying.compile [] = .ok relayingTemplate ∧
    addMethod upperClass relaying lineage = .ok (relayed upperClass).1 (relayed upperClass).2 ∧
    ∃ stage deed n d m m₁, History stage deed (fun _ => Eq) n ∧
      stage 0 = .idle { image := (relayed upperClass).2 } ∧ d < n ∧ stage d = .running m ∧
      deed d = .execute (.sendSuper 0 default) m₁ ∧
      Stems stage deed (fun _ => Eq) 0 (OfRelaying upperClass) d m.method ∧
      ¬∃ cls' sup name values, Track.along (fun _ => Eq) 0 (d + 1) upperClass cls' ∧
        m₁.image.heap.Holds ⟨cls', Slot.Class.superclass⟩ sup ∧ m₁.Says 0 default name values ∧
        (stage (d + 1)).Results (Machine.dispatch name m₁.accumulator values sup m₁) := by
  have hs : (upperClass, adoptCues, 8) ∈ scripts := by simp [scripts]
  obtain ⟨-, ⟨-, hname, -⟩, -⟩ := relay_evaluated.1 _ hs
  obtain ⟨hsuperclass, hunknown⟩ := relay_evaluated.2.1
  obtain ⟨m', history, hruns, hsend, hnext⟩ := relay_sent hs
  refine ⟨relaying_compile, relayed_made (by simp), _, _, _, _, _, _, history, rfl, by simp,
    hruns, hsend, relay_stems hs, ?_⟩
  rintro ⟨cls', sup, name, values, hcls', hsup, hmessage, hresults⟩
  obtain rfl := Track.along_eq hcls'
  obtain rfl := Except.ok.inj (hsuperclass.symm.trans hsup.slot)
  obtain rfl := Except.ok.inj (hname.symm.trans hmessage.selector)
  obtain rfl : [] = values := (pure_eq_ok.mp hmessage.arguments).1
  rw [hnext] at hresults
  revert hunknown hresults
  cases Machine.dispatch symbolOfM (relayedMachine upperClass adoptCues).accumulator [] .nil
    (relayedMachine upperClass adoptCues) with
  | ok u m => exact nofun
  | error e m => cases e <;> exact fun _ => nofun

theorem OfRelaying.cases {v : Value} (hcls : cls ∈ [upperClass, lowerClass])
    (h : OfRelaying cls v) : v = (relayed cls).1 ∨ v = relayedBlock := by
  obtain ⟨htable, hblock⟩ := relayed_holds hcls
  have hnests : ∀ {t' v}, (relayed cls).2.Nests relayingTemplate (relayed cls).1 t' v →
      t' = relayingTemplate ∧ v = (relayed cls).1 ∨
        (∀ t'' : CodeTemplate, Constant.block t'' ∉ t'.literals) ∧ v = relayedBlock := by
    intro t' v hnests
    induction hnests with
    | self => exact .inl ⟨rfl, rfl⟩
    | @block t' t'' code' table block k _ hliteral htable' hblock' ih =>
      rcases ih with ⟨rfl, rfl⟩ | ⟨hnone, -⟩
      · obtain rfl := htable'.unique htable
        obtain ⟨rfl, hk⟩ : k = 0 ∧ t'' = _ := by
          rcases k with - | k
          · exact ⟨rfl, (Constant.block.inj (Option.some.inj hliteral)).symm⟩
          · cases hliteral
        subst hk
        exact .inr ⟨by simp, hblock'.unique hblock⟩
      · exact absurd (List.mem_of_getElem? hliteral) (hnone t'')
  obtain ⟨t', h⟩ := h
  exact (hnests h).imp And.right And.right

theorem relayed_stems {m' : Machine} {e : Nat} {v : Value} (he : e ≤ 10)
    (h : Stems (sentAt lowerClass relayCues m') (Deed.nth (relaySent lowerClass relayCues m'))
      (fun _ => Eq) 0 (OfRelaying lowerClass) e v) :
    v ∈ [(relayed lowerClass).1, relayedBlock,
      (relayAt lowerClass relayCues 4).machine.accumulator] := by
  have hs : (lowerClass, relayCues, 3) ∈ scripts := by simp [scripts]
  have hlength := length_relay hs
  induction h with
  | origin h => rcases h.cases (by simp) with rfl | rfl <;> simp
  | moved _ hmoved ih => exact hmoved ▸ ih (by omega)
  | @copied e v x index m₁ m' _ _ hdeed _ hstage _ =>
    rw [Nat.zero_add, relaySent, Deed.nth_append (by rw [hlength]; exact he)] at hdeed
    obtain rfl := relay_evaluated.2.2.2.2.2.1 e he (by rw [hdeed]; rfl)
    rw [sentAt, relaySent, Stage.nth_append (by rw [hlength]; decide)] at hstage
    have hcopied : relayAt lowerClass relayCues 4 = .running m' := hstage
    simp [hcopied, Stage.machine]

theorem relayed_kept {m' : Machine} (hs : (lowerClass, relayCues, 3) ∈ scripts)
    (hsend : Deed.nth (relaySent lowerClass relayCues m') 10 =
      .execute (.sendSuper 0 default) (relayedMachine lowerClass relayCues)) {e : Nat}
    {v y : Value} (he : e < 11)
    (hstems : Stems (sentAt lowerClass relayCues m') (Deed.nth (relaySent lowerClass relayCues m'))
      (fun _ => Eq) 0 (OfRelaying lowerClass) e v) :
    ¬(sentAt lowerClass relayCues m' e).Writes (Deed.nth (relaySent lowerClass relayCues m') e)
      ⟨v, Slot.Code.methodClass⟩ y := by
  have hlength := length_relay hs
  obtain ⟨-, -, hplain, -, -, -, hcurrent⟩ := relay_evaluated
  rcases Nat.lt_succ_iff_lt_or_eq.mp he with he | rfl
  · have hdeed : Deed.nth (relaySent lowerClass relayCues m') e =
        Deed.nth (relay lowerClass relayCues) e := Deed.nth_append (by rw [hlength]; exact he)
    have hstage : sentAt lowerClass relayCues m' e = relayAt lowerClass relayCues e :=
      Stage.nth_append (by rw [hlength]; exact he.le)
    rcases e with - | e
    · change ¬(Stage.idle _).Writes (.outside fun _ => False) _ _
      rintro ⟨⟨⟩⟩
    · refine Stage.not_writes_of_plain (hdeed ▸ hplain e (Nat.lt_of_succ_lt_succ he))
        fun m outcome hrun _ hcur => hcurrent _ he ?_
      have hmem := relayed_stems he.le hstems
      rwa [← hstage, hrun, Stage.machine, ← hcur]
  · exact Stage.not_writes_of_plain (hsend ▸ rfl) fun m outcome _ hleave => by
      rw [hsend] at hleave
      cases hleave

/-- The message is looked up from above the lower class, in which the method was installed. -/
theorem relayed_super_starts_above : ∃ m',
    (∀ {e v x y}, 0 + e < 11 → Stems (sentAt lowerClass relayCues m')
      (Deed.nth (relaySent lowerClass relayCues m')) (fun _ => Eq) 0 (OfRelaying lowerClass) e v →
      v = x → ¬(sentAt lowerClass relayCues m' (0 + e)).Writes
        (Deed.nth (relaySent lowerClass relayCues m') (0 + e)) ⟨x, Slot.Code.methodClass⟩ y) ∧
    (∀ l, 8 < l → l < 0 + 10 → (Deed.nth (relaySent lowerClass relayCues m') l).KeepsMethod) ∧
    (relayedMachine lowerClass relayCues).Says 0 default symbolOfM [] ∧
      Stage.Results (.running m') (Machine.dispatch symbolOfM
        (relayedMachine lowerClass relayCues).accumulator [] upperClass
        (relayedMachine lowerClass relayCues)) := by
  have hs : (lowerClass, relayCues, 3) ∈ scripts := by simp [scripts]
  have hlength := length_relay hs
  obtain ⟨-, -, -, hdispatch, hload, -⟩ := relay_evaluated
  obtain ⟨-, ⟨-, hname, -, hsup, -⟩, -⟩ := relay_evaluated.1 _ hs
  obtain ⟨m', history, hruns, hsend, hnext⟩ := relay_sent hs
  have hdeed : ∀ {e}, e < 10 → Deed.nth (relaySent lowerClass relayCues m') e =
      Deed.nth (relay lowerClass relayCues) e :=
    fun he => Deed.nth_append (by rw [hlength]; exact he)
  have hkept : ∀ {e v x y}, 0 + e < 11 → Stems (sentAt lowerClass relayCues m')
      (Deed.nth (relaySent lowerClass relayCues m')) (fun _ => Eq) 0 (OfRelaying lowerClass) e v →
      v = x → ¬(sentAt lowerClass relayCues m' (0 + e)).Writes
        (Deed.nth (relaySent lowerClass relayCues m') (0 + e)) ⟨x, Slot.Code.methodClass⟩ y := by
    rintro e v _ y he hstems rfl
    rw [Nat.zero_add] at he ⊢
    exact relayed_kept hs hsend he hstems
  have hkeeps : ∀ l, 8 < l → l < 0 + 10 →
      (Deed.nth (relaySent lowerClass relayCues m') l).KeepsMethod := by
    intro l hl hl'
    obtain rfl : l = 9 := by omega
    rw [hdeed (by decide)]
    exact Deed.keepsMethod_of_load hload
  have hcls : Sane lineage lowerClass := lineage_evaluated.1 _ (by simp)
  obtain ⟨hvars, -⟩ := lineage_evaluated.2.2 lowerClass (by simp)
  have htaken : Deed.nth (relaySent lowerClass relayCues m') 8 = .dispatch :=
    (hdeed (by decide)).trans (Deed.move_eq_dispatch.mp hdispatch)
  have hstart : sentAt lowerClass relayCues m' 0 =
      .idle { image := (relayed lowerClass).2 } := rfl
  have hruns : sentAt lowerClass relayCues m' (0 + 10) = .running _ := hruns
  obtain ⟨cls', sup, name, values, hcls', hholds, hmessage, hresults⟩ :=
    history.super_starts_above lineage_intact lineage_spelled hcls hvars relaying_compile
      (relayed_made (by simp)) hstart hkept htaken (by decide) hkeeps (by decide) hruns hsend
      (relay_stems hs)
  obtain rfl := Track.along_eq hcls'
  obtain rfl := Except.ok.inj (hname.symm.trans hmessage.selector)
  obtain rfl : [] = values := (pure_eq_ok.mp hmessage.arguments).1
  obtain rfl := Except.ok.inj (hsup.symm.trans hholds.slot)
  exact ⟨m', hkept, hkeeps, hmessage, hnext ▸ hresults⟩

end Relaying

end ObjectMachine
