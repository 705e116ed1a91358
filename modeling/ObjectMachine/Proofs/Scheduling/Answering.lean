import ObjectMachine.Proofs.Image.Loading
import ObjectMachine.Proofs.Machine.Execution
import ObjectMachine.Proofs.Machine.Simulation
import ObjectMachine.Scheduling.Run

namespace ObjectMachine

/-- Only the last process of a queue is told of a new one. -/
theorem Queue.enqueue_spares {ε : Type} {q q' : Queue} {p : Value} {h h' : Heap} (sound : h.Sound)
    (htail : h.arenas.Sane q.tail) (heq : (q.enqueue p : Action ε Heap Queue) h = .ok q' h') :
    h'.Sound ∧ Heap.Spares h h' [q.tail] := by
  obtain ⟨link, -, heq⟩ := query_bind_eq_ok.mp heq
  rcases ite_eq_ok.mp heq with ⟨-, heq⟩ | ⟨-, heq⟩
  · obtain ⟨_, _, hfault, -⟩ := bind_eq_ok.mp heq
    cases fault_eq_ok.mp hfault
  · rcases ite_eq_ok.mp heq with ⟨-, heq⟩ | ⟨-, heq⟩
    · obtain ⟨-, rfl⟩ := pure_eq_ok.mp heq
      exact ⟨sound, (Heap.Spares.refl _).mono (List.nil_subset _)⟩
    · obtain ⟨_, h₂, hset, hreturn⟩ := bind_eq_ok.mp heq
      obtain ⟨-, rfl⟩ := pure_eq_ok.mp hreturn
      exact sound.setSlot_spares htail hset

namespace Schedule

/-- A process in a queue whose end is no stale reference. -/
theorem spawn_shows {i i' : Image} {s s' : Schedule} {context name p : Value}
    (sound : i.heap.Sound) (htail : i.heap.arenas.Sane s.runnable.tail)
    (heq : s.spawn context name i = .ok (p, s') i') :
    i'.heap.Sound ∧ Heap.Spares i.heap i'.heap [s.runnable.tail] ∧ i'.known = i.known ∧
      i'.heap.Shows p [.ofNat (s.spawned + 1), name, .nil, context, .nil,
        ProcessState.runnable.toValue] := by
  rw [spawn, bind_eq_ok] at heq
  obtain ⟨_, _, hget, heq⟩ := heq
  cases hget
  rw [bind_eq_ok] at heq
  obtain ⟨p', i₁, hmade, heq⟩ := heq
  obtain ⟨heap₁, hallocate, rfl⟩ := Image.onHeap_eq_ok.mp hmade
  obtain ⟨sound₁, hs₁, hnew, hspares₁⟩ := Heap.allocatePointers_shows sound (by decide) hallocate
  obtain ⟨heap₂, heq, sound₂, hs₂, hspares₂⟩ :=
    Image.setSlot_bind (i := { i with heap := heap₁ }) sound₁ hs₁ (by decide : 0 < 6) heq
  obtain ⟨heap₃, heq, sound₃, hs₃, hspares₃⟩ :=
    Image.setSlot_bind (i := { i with heap := heap₂ }) sound₂ hs₂ (by decide : 1 < 6) heq
  obtain ⟨heap₄, heq, sound₄, hs₄, hspares₄⟩ :=
    Image.setSlot_bind (i := { i with heap := heap₃ }) sound₃ hs₃ (by decide : 3 < 6) heq
  obtain ⟨heap₅, heq, sound₅, hs₅, hspares₅⟩ :=
    Image.setSlot_bind (i := { i with heap := heap₄ }) sound₄ hs₄ (by decide : 5 < 6) heq
  have hspares : Heap.Spares i.heap heap₅ [] :=
    ((((hspares₁.trans hspares₂).trans hspares₃).trans hspares₄).trans hspares₅).fresh sound
      (by simpa using hnew)
  rw [bind_eq_ok] at heq
  obtain ⟨q, i₂, henqueue, hreturn⟩ := heq
  obtain ⟨hreturned, rfl⟩ := pure_eq_ok.mp hreturn
  cases hreturned
  obtain ⟨heap₆, hlinked, rfl⟩ := Image.onHeap_eq_ok.mp henqueue
  obtain ⟨sound₆, hspares₆⟩ := Queue.enqueue_spares sound₅ (hspares.sane htail) hlinked
  refine ⟨sound₆, hspares.trans hspares₆, rfl, hspares₆.shows ?_ hs₅⟩
  -- the last process was there before the new one
  rw [List.mem_singleton]
  rintro rfl
  exact hnew htail

end Schedule

namespace World

/-- Makes a fresh activation of a method, with a caller or nil, the current process. -/
def enter (receiver : Value) (args : List Value) (previous name method : Value) :
    WorldAction Value := do
  let context ← onImage (Image.newContext method receiver args previous .nil none)
  let p ← onSchedule (·.spawn context name)
  setCurrent p
  return context

def takeUp (t : CodeTemplate) (cls receiver : Value) (args : List Value) (previous name : Value) :
    WorldAction Value :=
  onImage (Image.load t cls) >>= enter receiver args previous name

variable {w w' : World} {t : CodeTemplate} {cls receiver previous name ctx : Value}
  {args : List Value}

theorem onImage_eq_ok {α : Type} {act : ImageAction α} {a : α} :
    onImage act w = .ok a w' ↔ ∃ image, act w.image = .ok a image ∧ w' = { w with image } := by
  rw [onImage]
  cases act w.image with
  | ok a' image =>
    constructor
    · rintro ⟨⟩
      exact ⟨image, rfl, rfl⟩
    · rintro ⟨image', heq, rfl⟩
      cases heq
      rfl
  | error e image => simp

theorem tryCatch_of_eq_ok {α : Type} {x : WorldAction α}
    {handle : Stop RuntimeError → WorldAction α} {a : α} (h : x w = .ok a w') :
    (tryCatch x handle : WorldAction α) w = .ok a w' := by
  change EStateM.tryCatch x handle w = _
  rw [EStateM.tryCatch, h]

theorem tryCatch_of_eq_error {α : Type} {x : WorldAction α}
    {handle : Stop RuntimeError → WorldAction α} {e : Stop RuntimeError}
    (h : x w = .error e w') : (tryCatch x handle : WorldAction α) w = handle e w' := by
  change EStateM.tryCatch x handle w = _
  rw [EStateM.tryCatch, h]
  rfl

theorem takeUp_of_load {act : ImageAction Value} (h : Image.load t cls w.image = act w.image) :
    takeUp t cls receiver args previous name w =
      (onImage act >>= enter receiver args previous name) w := by
  change EStateM.bind _ _ w = EStateM.bind _ _ w
  simp only [EStateM.bind, onImage, h]

theorem takeUp_eq_ok (heq : takeUp t cls receiver args previous name w = .ok ctx w') :
    ∃ method p s image₁ image₂ image₃, Image.load t cls w.image = .ok method image₁ ∧
      Image.newContext method receiver args previous .nil none image₁ = .ok ctx image₂ ∧
      w.schedule.spawn ctx name image₂ = .ok (p, s) image₃ ∧
      w' = { w with image := image₃, schedule := { s with current := p } } := by
  rw [takeUp, bind_eq_ok] at heq
  obtain ⟨method, w₁, hload, heq⟩ := heq
  obtain ⟨image₁, hmethod, rfl⟩ := onImage_eq_ok.mp hload
  rw [enter, bind_eq_ok] at heq
  obtain ⟨context, w₂, hnew, heq⟩ := heq
  obtain ⟨image₂, hcontext, rfl⟩ := onImage_eq_ok.mp hnew
  rw [bind_eq_ok] at heq
  obtain ⟨p, w₃, hspawn, heq⟩ := heq
  rw [onSchedule, get_bind, bind_eq_ok] at hspawn
  obtain ⟨⟨p', s⟩, w₄, hprocess, hspawn⟩ := hspawn
  obtain ⟨image₃, hspawned, rfl⟩ := onImage_eq_ok.mp hprocess
  obtain ⟨rfl, rfl⟩ := pure_eq_ok.mp hspawn
  obtain ⟨rfl, rfl⟩ := pure_eq_ok.mp heq
  exact ⟨method, p', s, image₁, image₂, image₃, hmethod, hcontext, hspawned, rfl⟩

/-- What the memory holds once a method without heap variables was taken up. -/
theorem takeUp_shows {ns : List Int} (hw : Intact w) (hliterals : t.literals = ns.map .integer)
    (hns : ∀ n ∈ ns, Value.Fits n) (hcount : ns.length < 0x100000000) (hheapVars : t.heapVars = 0)
    (hsmall : t.args + t.temps + t.stack < 0x10000000) (hargs : args.length = t.args)
    (heq : takeUp t cls receiver args previous name w = .ok ctx w') :
    ∃ method bytes table, w'.image.heap.Sound ∧ w'.image.known = w.image.known ∧
      w'.interrupts = w.interrupts ∧ w'.image.heap.Bears method t (ns.map .wrapInt) bytes table ∧
      table ≠ ctx ∧ t.bytecode.size < 0x100000000 ∧
      w'.image.heap.Shows ctx ([previous, receiver, method, .ofNat 0, .nil, .nil, ctx] ++
        (receiver :: args ++ List.replicate (t.temps + t.stack) .nil)) ∧
      ∃ id state, w'.image.heap.Shows w'.schedule.current [id, name, .nil, ctx, .nil, state] := by
  have htail : w.image.heap.arenas.Sane w.schedule.runnable.tail :=
    hw.held _ (List.mem_append_right _ (by simp [Schedule.roots]))
  obtain ⟨method, p, s, image₁, image₂, image₃, hload, hcontext, hspawn, rfl⟩ := takeUp_eq_ok heq
  obtain ⟨bytes, table, sound₁, hspares₁, hknown₁, hbears, hmethod, htable, -, hshort⟩ :=
    Image.load_bears hw.whole.sound hliterals hns hcount hload
  obtain ⟨sound₂, hspares₂, hknown₂, hctx, hshows⟩ :=
    Image.newContext_shows sound₁ hbears hheapVars hsmall hargs hcontext
  have htail₁ := hspares₁.sane htail
  obtain ⟨sound₃, hspares₃, hknown₃, hprocess⟩ :=
    Schedule.spawn_shows sound₂ (hspares₂.sane htail₁) hspawn
  refine ⟨method, bytes, table, sound₃, (hknown₃.trans hknown₂).trans hknown₁, rfl, ?_, ?_, hshort,
    hspares₃.shows ?_ hshows, _, _, hprocess⟩
  · -- the last process of the queue was there before all these
    refine (hbears.spare hspares₂ List.not_mem_nil List.not_mem_nil).spare hspares₃ ?_ ?_
    · rw [List.mem_singleton]
      rintro rfl
      exact hmethod htail
    · rw [List.mem_singleton]
      rintro rfl
      exact htable htail
  · rintro rfl
    exact hctx (hbears.table.sane sound₁)
  · rw [List.mem_singleton]
    rintro rfl
    exact hctx htail₁

end World

section Interpreting

variable {timer : Timer} {turns : Nat} {w : World} {m : Machine}

theorem World.interpret_of_eq_ok {outcome : Option RunOutcome}
    (h : (do Machine.unspill; Machine.run timer turns) (Machine.ofWorld w) = .ok outcome m) :
    interpret timer turns w = .ok outcome m.toWorld := by
  delta interpret
  rw [h]

theorem World.interpret_of_eq_error {e : Stop RuntimeError}
    (h : (do Machine.unspill; Machine.run timer turns) (Machine.ofWorld w) = .error e m) :
    interpret timer turns w = .error e m.toWorld := by
  delta interpret
  rw [h]

end Interpreting

/-- A machine that takes up a fresh activation is at the beginning of the code. -/
theorem World.takeUp_runs {w w' : World} {t : CodeTemplate} {cls receiver previous name ctx : Value}
    {args : List Value} {ns : List Int} {r : Routine} (hw : Intact w)
    (hliterals : t.literals = ns.map .integer) (hns : ∀ n ∈ ns, Value.Fits n)
    (hcount : ns.length < 0x100000000) (hheapVars : t.heapVars = 0)
    (hsmall : t.args + t.temps + t.stack < 0x10000000) (hargs : args.length = t.args)
    (hcalm : w.interrupts.pending = false)
    (hcode : t.bytecode = (encodeAll r.code).toArray) (hconstants : r.constants = ns.map .wrapInt)
    (hyes : r.setting.yes = w.image.trueObject) (hno : r.setting.no = w.image.falseObject)
    (hyes_ne : r.setting.yes ≠ .nil) (hno_ne : r.setting.no ≠ .nil)
    (heq : takeUp t cls receiver args previous name w = .ok ctx w') :
    t.bytecode.size < 0x100000000 ∧ ∃ m fields, Machine.unspill (.ofWorld w') = .ok () m ∧
      m.context = ctx ∧ fields[Slot.Context.previous]? = some previous ∧ m.Runs r fields
        ⟨0, .nil, receiver :: args ++ List.replicate (t.temps + t.stack) .nil⟩ := by
  obtain ⟨method, bytes, table, sound, hknown, hinterrupts, hbears, hne, hshort, hcontext, id,
    state, hprocess⟩ := takeUp_shows hw hliterals hns hcount hheapVars hsmall hargs heq
  obtain ⟨selector, cls', hmethod⟩ := hbears.method
  obtain ⟨cache, hunspill⟩ := Machine.unspill_of_slots (m := .ofWorld w')
    (Machine.refreshed_of_cache rfl) (hprocess.slot sound rfl) (hprocess.slot sound rfl)
    (hcontext.slot sound rfl) (hmethod.slot sound rfl) (hcontext.slot sound rfl)
    (hmethod.slot sound rfl) hbears.bytes.2
  have htrue : w'.image.trueObject = w.image.trueObject := by
    simp only [Image.trueObject, Image.get, hknown]
  have hfalse : w'.image.falseObject = w.image.falseObject := by
    simp only [Image.falseObject, Image.get, hknown]
  refine ⟨hshort, _, [previous, receiver, method, .ofNat 0, .nil, .nil, ctx], hunspill, rfl, rfl,
    ?_⟩
  exact {
    sound
    code := hcode
    pc := rfl
    accumulator := rfl
    width := rfl
    context := hcontext
    literals := hconstants ▸ hbears.table
    apart := hne
    yes := htrue.trans hyes.symm
    no := hfalse.trans hno.symm
    yes_ne := hyes_ne
    no_ne := hno_ne
    stop := rfl
    calm := (congrArg Interrupts.pending hinterrupts).trans hcalm }

section Compiled

variable {m : Method} {u : CodeUnit} {ns : List (Node Binding)} {code : List Instruction} {p : Pool}

/-- The registers of an activation are those that the code uses. -/
theorem CodeUnit.Renders.frame (h : u.Renders m ns code p) :
    u.scope.heapVars.size = 0 ∧
      1 + u.scope.args + u.scope.locals + (p.high - u.firstTemp) = p.high ∧
      m.temps.length ≤ u.scope.locals := by
  have hemits := Emit.statements_emits h.covers u.stocks_empty ns h.binds h.emitted
  have hhigh : u.firstTemp ≤ p.high := hemits.grows.high
  obtain ⟨scope, hscope, -, hplain⟩ := h.plain
  obtain rfl := Option.some.inj (h.covers.found.symm.trans hscope)
  have hfirst := h.toRegistered.firstTemp
  have hargs := h.args
  have hsize := h.size
  refine ⟨by simp [hplain], ?_, ?_⟩
  · rw [Scope.locals]
    omega
  · rw [Scope.locals]
    omega

theorem Pool.Modest.exists_integers (hp : p.Modest) :
    ∃ is : List Int, p.literals.toList = is.map .integer ∧ ∀ n ∈ is, Value.Fits n := by
  have hall := hp.integers
  generalize p.literals.toList = cs at hall
  induction cs with
  | nil => exact ⟨[], rfl, nofun⟩
  | cons c cs ih =>
    obtain ⟨n, rfl, hn⟩ := hall c (.head _)
    obtain ⟨is, rfl, his⟩ := ih fun c hc => hall c (.tail _ hc)
    exact ⟨n :: is, rfl, List.forall_mem_cons.mpr ⟨hn, his⟩⟩

end Compiled

/-- A compiled first-order method, taken up in a fresh context, reaches the return of the value
that its source evaluates to. In a context without a caller, that value is the outcome of the
run. -/
theorem Method.compile_answers {m : Method} {instanceVariables : List String} {t : CodeTemplate}
    (hm : m.FirstOrder) (hcompile : m.compile instanceVariables = .ok t) {w w' : World}
    (hw : Intact w) (hyes : w.image.trueObject ≠ .nil) (hno : w.image.falseObject ≠ .nil)
    (hcalm : w.interrupts.pending = false) {cls receiver previous name ctx : Value}
    {args : List Value} (hargs : args.length = m.params.length)
    (hstart : World.takeUp t cls receiver args previous name w = .ok ctx w') {fuel : Nat}
    {v : Value}
    (hv : m.evaluate ⟨receiver, w.image.trueObject, w.image.falseObject⟩ args fuel = some v) :
    ∃ turns m', (do Machine.unspill; Machine.run .never turns) (Machine.ofWorld w') = .ok none m' ∧
      m'.context = ctx ∧ m'.Returning v ∧
      (previous = .nil → ∃ w'', ∀ n, turns < n →
        World.interpret .never n w' = .ok (some (.returned v)) w'') := by
  obtain ⟨u, ns, code, p, hrenders, rfl⟩ := compile_renders hm hcompile
  have hmodest := hrenders.modest hm
  obtain ⟨is, hliterals, his⟩ := hmodest.exists_integers
  obtain ⟨hheapVars, hregisters, htemps⟩ := hrenders.frame
  have hargs' : args.length = u.scope.args := hargs.trans hrenders.args.symm
  let r : Routine := ⟨code ++ if m.endsWithReturn then [] else [.returnSelf], is.map .wrapInt,
    p.high, ⟨receiver, w.image.trueObject, w.image.falseObject⟩⟩
  have hcount : is.length < 0x100000000 := by
    have := hmodest.literals
    rw [← Array.length_toList, hliterals, List.length_map, maxLiterals] at this
    omega
  have hsmall : u.scope.args + (u.scope.locals + u.syncs.length) + (p.high - u.firstTemp) <
      0x10000000 := by
    have := hmodest.high
    rw [hrenders.syncs, List.length_nil]
    simp only [maxRegisters] at this
    omega
  obtain ⟨hshort, machine, fields, hunspill, hctx, hprevious, hruns⟩ :=
    World.takeUp_runs (r := r) hw hliterals his hcount hheapVars hsmall hargs' hcalm rfl rfl rfl
      rfl hyes hno hstart
  have hserves : r.Serves p := by
    refine ⟨Nat.le_refl _, fun i n hi => ?_⟩
    rw [hliterals, List.getElem?_map, Option.map_eq_some_iff] at hi
    obtain ⟨n', hn', heq⟩ := hi
    cases heq
    rw [List.getElem?_map, hn']
    rfl
  have hcodeLength : codeLength r.code < wordModulus := by
    have : (encodeAll r.code).toArray.size < 0x100000000 := hshort
    rw [List.size_toArray, length_encodeAll] at this
    simp only [wordModulus]
    omega
  let idle := u.scope.locals + u.syncs.length + (p.high - u.firstTemp)
  have hlength : (receiver :: args ++ List.replicate idle Value.nil).length = p.high := by
    simp only [idle, hrenders.syncs, List.length_append, List.length_cons, List.length_replicate,
      List.length_nil]
    omega
  have hvalues : ∀ i x, (args ++ m.temps.map fun _ => Value.nil)[i]? = some x →
      (receiver :: args ++ List.replicate idle .nil)[i + 1]? = some x := by
    intro i x hx
    have hidle : List.replicate idle Value.nil =
        (m.temps.map fun _ => Value.nil) ++ List.replicate (idle - m.temps.length) .nil := by
      rw [List.map_const', List.replicate_append_replicate, Nat.add_sub_cancel']
      omega
    rw [List.cons_append, List.getElem?_cons_succ, hidle, ← List.append_assoc,
      List.getElem?_append_left (List.getElem?_eq_some_iff.mp hx).1, hx]
  have hanswer : ∃ window, r.Path ⟨0, .nil, receiver :: args ++ List.replicate idle .nil⟩ window ∧
      r.Answers v window :=
    hrenders.answers hm rfl hcodeLength hserves hargs hlength rfl hvalues hv
  obtain ⟨window, hpath, hanswers⟩ := hanswer
  obtain ⟨turns, m', hrun, hruns', hcontext⟩ := Machine.run_runs hruns hpath
  have hreturning := hruns'.returning hanswers
  refine ⟨turns, m', bind_eq_ok.mpr ⟨(), machine, hunspill, hrun⟩, hcontext.trans hctx, hreturning,
    ?_⟩
  rintro rfl
  have hwidth := hruns'.width
  obtain ⟨m'', hstep⟩ := hreturning.step hruns'.calm hruns'.sound hruns'.context
    (by rw [List.length_append, hwidth]; simp only [Slot.Context.pc, Slot.Context.registers]; omega)
    (by rw [List.getElem?_append_left (List.getElem?_eq_some_iff.mp hprevious).1, hprevious])
  refine ⟨m''.toWorld, fun n hn => ?_⟩
  obtain ⟨more, rfl⟩ := Nat.exists_eq_add_of_lt hn
  have hend : Machine.run .never (turns + (more + 1)) machine = .ok (some (.returned v)) m'' := by
    rw [Machine.run_add _ hrun, Machine.run, bind_of_eq_ok hstep]
    rfl
  refine World.interpret_of_eq_ok ?_
  rw [bind_of_eq_ok hunspill, Nat.add_assoc, hend]

def sumTo : Method where
  selector := "sumTo:"
  params := ["n"]
  temps := ["i", "s"]
  body := [
    .assign "i" (.variable "n"),
    .assign "s" (.literal (.integer 0)),
    .send (.block [] [] [.send (.variable "i") "==" [.literal (.integer 0)]]) "whileFalse:" [
      .block [] ["d"] [
        .assign "d" (.variable "i"),
        .assign "s" (.send (.variable "s") "+" [.variable "d"]),
        .assign "i" (.send (.variable "i") "-" [.literal (.integer 1)])]],
    .ret (.variable "s")]

def sumToCode : CodeTemplate where
  selector := "sumTo:"
  bytecode := (encodeAll [.loadRegister 1, .storeRegister 2, .loadLiteral 0, .storeRegister 3,
    .loadRegister 2, .storeRegister 5, .loadLiteral 0, .binaryOp 5 .identical, .branchIfTrue 32,
    .loadNil, .storeRegister 4, .loadRegister 2, .storeRegister 4,
    .loadRegister 3, .storeRegister 5, .loadRegister 4, .binaryOp 5 .add, .storeRegister 3,
    .loadRegister 2, .storeRegister 5, .loadLiteral 1, .binaryOp 5 .subtract, .storeRegister 2,
    .jump (-44), .loadNil, .loadRegister 3, .return_]).toArray
  literals := [.integer 0, .integer 1]
  args := 1
  temps := 3
  heapVars := 0
  stack := 1

def Constant.integer? : Constant → Option Int
  | .integer n => some n
  | _ => none

theorem Constant.map_integer?_eq {cs : List Constant} {ns : List Int}
    (h : cs.map integer? = ns.map some) : cs = ns.map .integer := by
  induction cs generalizing ns with
  | nil =>
    obtain rfl : ns = [] := by simpa using h.symm
    rfl
  | cons c cs ih =>
    obtain _ | ⟨n, ns⟩ := ns
    · simp at h
    · obtain ⟨hhead, htail⟩ := List.cons.inj h
      cases c with
      | integer k =>
        obtain rfl := Option.some.inj hhead
        rw [ih htail, List.map_cons]
      | symbol | string | array | block => cases hhead

/-- Templates without constants but integers are told apart by what can be compared. -/
theorem Method.compile_of_integers {m : Method} {instanceVariables : List String}
    {t : CodeTemplate} (ns : List Int) (hliterals : t.literals = ns.map .integer)
    (hmade : (m.compile instanceVariables).toOption.map (fun t =>
      (t.selector, t.bytecode, t.literals.map Constant.integer?,
        [t.args, t.temps, t.heapVars, t.stack])) =
      some (t.selector, t.bytecode, ns.map some, [t.args, t.temps, t.heapVars, t.stack])) :
    m.compile instanceVariables = .ok t := by
  cases hc : m.compile instanceVariables with
  | error e => simp [hc, Except.toOption] at hmade
  | ok made =>
    obtain ⟨selector, bytecode, literals, args, temps, heapVars, stack⟩ := t
    obtain ⟨selector', bytecode', literals', args', temps', heapVars', stack'⟩ := made
    simp only [hc, Except.toOption, Option.map_some, Option.some.injEq, Prod.mk.injEq,
      List.cons.injEq, and_true] at hmade
    obtain ⟨rfl, rfl, hintegers, rfl, rfl, rfl, rfl⟩ := hmade
    rw [Constant.map_integer?_eq hintegers]
    exact congrArg _ (congrArg (CodeTemplate.mk _ _ · _ _ _ _) hliterals.symm)

theorem sumTo_compile : sumTo.compile [] = .ok sumToCode :=
  Method.compile_of_integers [0, 1] rfl (by decide +kernel)

theorem sumTo_firstOrder : sumTo.FirstOrder := by
  have hidentical : BinaryOp.ofSelector? "==" = some .identical := rfl
  have hadd : BinaryOp.ofSelector? "+" = some .add := rfl
  have hsubtract : BinaryOp.ofSelector? "-" = some .subtract := rfl
  have hwhile : ControlForm.ofSelector? "whileFalse:" = some .whileFalseDo := rfl
  have hcondition : FirstOrder ["n", "i", "s"]
      (.send (.variable "i") "==" [.literal (.integer 0)]) :=
    .operator hidentical (.variable (by decide)) .integer
  have hbody : FirstOrderAll ["d", "n", "i", "s"] [
      .assign "d" (.variable "i"),
      .assign "s" (.send (.variable "s") "+" [.variable "d"]),
      .assign "i" (.send (.variable "i") "-" [.literal (.integer 1)])] :=
    .cons (.assign (by decide) (.variable (by decide))) <|
    .cons (.assign (by decide)
      (.operator hadd (.variable (by decide)) (.variable (by decide)))) <|
    .cons (.assign (by decide)
      (.operator hsubtract (.variable (by decide)) .integer)) .nil
  exact .cons (.assign (by decide) (.variable (by decide))) <|
    .cons (.assign (by decide) .integer) <|
    .cons (.loop hwhile rfl rfl
      (.cons (.cons hcondition .nil) (.cons hbody .nil))) <|
    .cons (.ret (.variable (by decide))) .nil

/-- Two objects in an empty memory, to stand for true and false. -/
def twoObjects : Action HeapError Heap (Value × Value) := do
  return (← Heap.allocatePointers .nil 0, ← Heap.allocatePointers .nil 0)

def smallWorld : World :=
  match twoObjects ⟨.empty, 0x1000, 0x1000, 1, {}⟩ with
  | .ok (yes, no) heap => { image := ⟨heap, {}, Array.replicate 17 .nil ++ #[yes, no], #[]⟩ }
  | .error _ heap => { image := ⟨heap, {}, #[], #[]⟩ }

theorem smallWorld_intact : Intact smallWorld := by
  have hstart : Intact (⟨.empty, 0x1000, 0x1000, 1, {}⟩ : Heap) :=
    ⟨Heap.empty_whole (by decide) (by decide), List.forall_mem_nil _⟩
  have hstable : Stable [] twoObjects :=
    .bind (Heap.allocatePointers_stable (by simp) _) fun yes =>
      .bind (Heap.allocatePointers_stable (by simp) _) fun no => .pure (by simp)
  have hend := hstable _ hstart (List.forall_mem_nil _)
  rw [smallWorld]
  split
  · rename_i yes no heap heq
    rw [heq] at hend
    refine ⟨hend.1.whole, fun v hv => ?_⟩
    obtain rfl | rfl | rfl | rfl : v = .nil ∨ v = yes ∨ v = no ∨ v = .nil := by
      simpa [Image.values, Image.roots, SymbolTable.roots, Schedule.roots] using hv
    · exact Arenas.sane_nil _
    · exact hend.2.2 v (by simp)
    · exact hend.2.2 v (by simp)
    · exact Arenas.sane_nil _
  · rename_i e heap heq
    have hok : (Action.answer? (twoObjects ⟨.empty, 0x1000, 0x1000, 1, {}⟩)).isSome = true := by
      decide +kernel
    rw [heq] at hok
    cases hok

theorem sumTo_takeUp : ∃ ctx w',
    World.takeUp sumToCode .nil (.ofNat 7) [.ofNat 3] .nil .nil smallWorld = .ok ctx w' := by
  have hsymbols : smallWorld.image.symbols = {} := by
    rw [smallWorld]
    split <;> rfl
  have hload : Image.load sumToCode .nil smallWorld.image =
      Image.loadNew sumToCode [0, 1] .nil smallWorld.image :=
    Image.load_eq_loadNew rfl (by decide) (by
      rw [SymbolTable.lookup, hsymbols]
      exact Std.HashMap.getElem?_empty)
  have hok : (Action.answer? ((World.onImage (Image.loadNew sumToCode [0, 1] .nil) >>=
      World.enter (.ofNat 7) [.ofNat 3] .nil .nil) smallWorld)).isSome = true := by decide +kernel
  obtain ⟨ctx, w', heq, -⟩ := Action.exists_eq_ok hok
  exact ⟨ctx, w', (World.takeUp_of_load hload).trans heq⟩

theorem sumTo_answers : ∃ ctx w',
    World.takeUp sumToCode .nil (.ofNat 7) [.ofNat 3] .nil .nil smallWorld = .ok ctx w' ∧
    ∃ turns w'', ∀ n, turns < n →
      World.interpret .never n w' = .ok (some (.returned (.ofNat 6))) w'' := by
  have hv : sumTo.evaluate ⟨.ofNat 7, smallWorld.image.trueObject, smallWorld.image.falseObject⟩
      [.ofNat 3] 40 = some (.ofNat 6) := by decide +kernel
  obtain ⟨ctx, w', htakeUp⟩ := sumTo_takeUp
  obtain ⟨turns, -, -, -, -, hreturned⟩ := Method.compile_answers sumTo_firstOrder sumTo_compile
    smallWorld_intact (by decide +kernel) (by decide +kernel) (by decide +kernel) rfl htakeUp hv
  exact ⟨ctx, w', htakeUp, turns, hreturned rfl⟩

end ObjectMachine
