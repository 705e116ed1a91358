import ObjectMachine.Image.Context
import ObjectMachine.Image.Load
import ObjectMachine.Proofs.Memory.Objects

namespace ObjectMachine

namespace Heap

variable {h h' : Heap}

theorem Spares.mono {written written' : List Value} (hs : Spares h h' written)
    (hsub : ∀ v ∈ written, v ∈ written') : Spares h h' written' :=
  ⟨fun hv => hs.shows fun hmem => hv (hsub _ hmem), hs.spells, hs.allocated, hs.collections⟩

structure Bears (h : Heap) (method : Value) (t : CodeTemplate) (constants : List Value)
    (bytes table : Value) : Prop where
  method : ∃ selector cls, h.Shows method [bytes, table, .ofNat t.args, .ofNat t.temps,
    .ofNat t.heapVars, .ofNat t.stack, selector, cls]
  bytes : h.Spells bytes t.bytecode
  table : h.Shows table constants

theorem Bears.spare {method bytes table : Value} {t : CodeTemplate} {constants written : List Value}
    (hb : h.Bears method t constants bytes table) (hs : Spares h h' written)
    (hmethod : method ∉ written) (htable : table ∉ written) :
    h'.Bears method t constants bytes table := by
  obtain ⟨selector, cls, hshows⟩ := hb.method
  exact ⟨⟨selector, cls, hs.shows hmethod hshows⟩, hs.spells hb.bytes, hs.shows htable hb.table⟩

/-- The shape of an activation is read off the method. -/
theorem Bears.codeShape {method bytes table : Value} {t : CodeTemplate} {constants : List Value}
    (hb : h.Bears method t constants bytes table) (sound : h.Sound)
    (hsmall : t.args + t.temps + t.heapVars + t.stack < 0x1000000000000000) :
    h.codeShape method = .ok ⟨t.args, t.temps, t.heapVars, t.stack⟩ := by
  obtain ⟨selector, cls, hshows⟩ := hb.method
  have hcount : ∀ {i n : Nat}, n < 0x1000000000000000 → h.slot method i = .ok (.ofNat n) →
      h.count method i = .ok n := by
    intro i n hn hslot
    simp [Heap.count, hslot, Value.toNat?_ofNat hn, bind, Except.bind, pure, Except.pure]
  have hargs : h.count method Slot.Code.args = .ok t.args :=
    hcount (by omega) (hshows.slot sound rfl)
  have htemps : h.count method Slot.Code.temps = .ok t.temps :=
    hcount (by omega) (hshows.slot sound rfl)
  have hheapVars : h.count method Slot.Code.heapVars = .ok t.heapVars :=
    hcount (by omega) (hshows.slot sound rfl)
  have hstack : h.count method Slot.Code.stack = .ok t.stack :=
    hcount (by omega) (hshows.slot sound rfl)
  simp [Heap.codeShape, hargs, htemps, hheapVars, hstack, bind, Except.bind, pure, Except.pure]

end Heap

namespace Image

variable {i i' : Image} {v : Value} {k : Nat}

theorem onHeap_eq_ok {α : Type} {act : Action HeapError Heap α} {a : α} :
    onHeap act i = .ok a i' ↔ ∃ heap, act i.heap = .ok a heap ∧ i' = { i with heap } := by
  rw [onHeap]
  cases act i.heap with
  | ok a' heap =>
    constructor
    · rintro ⟨⟩
      exact ⟨heap, rfl, rfl⟩
    · rintro ⟨heap', heq, rfl⟩
      cases heq
      rfl
  | error e heap => simp

/-- What follows a write to a slot goes on from the memory in which the slot is set. -/
theorem setSlot_bind {α : Type} {slots : List Value} {x : Value} {act : Unit → ImageAction α}
    {a : α} (sound : i.heap.Sound) (hs : i.heap.Shows v slots) (hk : k < slots.length)
    (heq : (onHeap (Heap.setSlot v k x) >>= act) i = .ok a i') :
    ∃ heap, act () { i with heap } = .ok a i' ∧ heap.Sound ∧ heap.Shows v (slots.set k x) ∧
      Heap.Spares i.heap heap [v] := by
  obtain ⟨heap, hset, hrest⟩ := hs.setSlot sound hk x
  refine ⟨heap, ?_, hrest⟩
  rwa [bind_of_eq_ok (onHeap_eq_ok.mpr ⟨heap, hset, rfl⟩)] at heq

/-- Values take the place of those in a row of slots. -/
theorem fillSlots_shows (front values : List Value) {old rest : List Value} (sound : i.heap.Sound)
    (hs : i.heap.Shows v (front ++ (old ++ rest))) (hlength : old.length = values.length) :
    ∃ heap, fillSlots v front.length values i = .ok () { i with heap } ∧ heap.Sound ∧
      heap.Shows v (front ++ (values ++ rest)) ∧ Heap.Spares i.heap heap [v] := by
  induction values generalizing i front old with
  | nil =>
    obtain rfl := List.length_eq_zero_iff.mp hlength
    exact ⟨i.heap, rfl, sound, hs, (Heap.Spares.refl _).mono nofun⟩
  | cons x values ih =>
    obtain ⟨o, old, rfl⟩ := List.exists_cons_of_length_eq_add_one hlength
    obtain ⟨heap, hset, sound₁, hs₁, hspares⟩ := hs.setSlot sound (i := front.length) (by simp) x
    have hslots : (front ++ (o :: old ++ rest)).set front.length x =
        front ++ [x] ++ (old ++ rest) := by
      simp
    rw [hslots] at hs₁
    obtain ⟨heap', hfill, sound', hs', hspares'⟩ :=
      ih (i := { i with heap }) (front ++ [x]) sound₁ hs₁ (Nat.succ.inj hlength)
    rw [List.length_append] at hfill
    refine ⟨heap', bind_eq_ok.mpr ⟨(), _, onHeap_eq_ok.mpr ⟨heap, hset, rfl⟩, hfill⟩, sound', ?_,
      (hspares.trans hspares').mono (by simp)⟩
    simpa using hs'

/-- A symbol is found, or made at the end of the memory. -/
theorem intern_spares {name : String} (sound : i.heap.Sound) (heq : intern name i = .ok v i') :
    i'.heap.Sound ∧ Heap.Spares i.heap i'.heap [] ∧ i'.known = i.known := by
  rw [intern, bind_eq_ok] at heq
  obtain ⟨_, _, hget, heq⟩ := heq
  cases hget
  cases hlookup : i.symbols.lookup name with
  | some symbol =>
    simp only [hlookup] at heq
    obtain ⟨-, rfl⟩ := pure_eq_ok.mp heq
    exact ⟨sound, .refl _, rfl⟩
  | none =>
    simp only [hlookup, bind_eq_ok] at heq
    obtain ⟨symbol, i₁, hmade, heq⟩ := heq
    obtain ⟨heap, hallocate, rfl⟩ := onHeap_eq_ok.mp hmade
    obtain ⟨_, i₂, hmodify, hreturn⟩ := heq
    obtain rfl := modify_eq_ok.mp hmodify
    obtain ⟨-, rfl⟩ := pure_eq_ok.mp hreturn
    obtain ⟨sound', -, -, hspares⟩ := Heap.allocateBytes_spells sound hallocate
    exact ⟨sound', hspares, rfl⟩

/-- Integers need no objects. -/
theorem loadInto_integers {table cls : Value} {ns : List Int} (hns : ∀ n ∈ ns, Value.Fits n) :
    loadInto table k cls (ns.map .integer) = fillSlots table k (ns.map .wrapInt) := by
  induction ns generalizing k with
  | nil => rfl
  | cons n ns ih =>
    have hfits : Value.Fits n := hns n (.head _)
    have hrest := ih (k := k + 1) fun n hn => hns n (.tail _ hn)
    simp only [List.map_cons, loadInto, loadConstant, Value.ofInt?, hfits, if_true, pure_bind,
      hrest, fillSlots]

/-- A method whose constants are integers, as an object. -/
theorem load_bears {t : CodeTemplate} {cls method : Value} {ns : List Int} (sound : i.heap.Sound)
    (hliterals : t.literals = ns.map .integer) (hns : ∀ n ∈ ns, Value.Fits n)
    (hcount : ns.length < 0x100000000) (heq : load t cls i = .ok method i') :
    ∃ bytes table, i'.heap.Sound ∧ Heap.Spares i.heap i'.heap [] ∧ i'.known = i.known ∧
      i'.heap.Bears method t (ns.map .wrapInt) bytes table ∧ ¬i.heap.arenas.Sane method ∧
      ¬i.heap.arenas.Sane table ∧ method ≠ table ∧ t.bytecode.size < 0x100000000 := by
  obtain ⟨selector, bytecode, literals, args, temps, heapVars, stack⟩ := t
  dsimp only at hliterals
  subst hliterals
  rw [load, bind_eq_ok] at heq
  obtain ⟨_, _, hget, heq⟩ := heq
  cases hget
  rw [bind_eq_ok] at heq
  obtain ⟨method', i₁, hmade, heq⟩ := heq
  obtain ⟨heap₁, hmethod, rfl⟩ := onHeap_eq_ok.mp hmade
  rw [bind_eq_ok] at heq
  obtain ⟨_, i₂, hcode, hreturn⟩ := heq
  obtain ⟨rfl, rfl⟩ := pure_eq_ok.mp hreturn
  obtain ⟨sound₁, hs₁, hnew₁, hspares₁⟩ :=
    Heap.allocatePointers_shows sound (by decide) hmethod
  rw [loadCode, bind_eq_ok] at hcode
  obtain ⟨_, _, hget, hcode⟩ := hcode
  cases hget
  rw [bind_eq_ok] at hcode
  obtain ⟨bytes, i₂, hmade, hcode⟩ := hcode
  obtain ⟨heap₂, hbytes, rfl⟩ := onHeap_eq_ok.mp hmade
  obtain ⟨sound₂, hspells, hshort, hspares₂⟩ := Heap.allocateBytes_spells sound₁ hbytes
  rw [bind_eq_ok] at hcode
  obtain ⟨_, _, hget, hcode⟩ := hcode
  cases hget
  rw [bind_eq_ok] at hcode
  obtain ⟨table, i₃, hmade, hcode⟩ := hcode
  obtain ⟨heap₃, htable, rfl⟩ := onHeap_eq_ok.mp hmade
  rw [List.length_map] at htable
  obtain ⟨sound₃, hs₃, hnew₃, hspares₃⟩ := Heap.allocatePointers_shows sound₂ hcount htable
  have hlength : (List.replicate ns.length Value.nil).length = (ns.map Value.wrapInt).length := by
    simp
  rw [← List.append_nil (List.replicate _ _)] at hs₃
  rw [bind_eq_ok, loadInto_integers hns] at hcode
  obtain ⟨_, i₄, hfill, hcode⟩ := hcode
  obtain ⟨heap₄, hfill', sound₄, hs₄, hspares₄⟩ :=
    fillSlots_shows (i := { i with heap := heap₃ }) [] _ sound₃ hs₃ hlength
  cases hfill'.symm.trans hfill
  rw [bind_eq_ok] at hcode
  obtain ⟨symbol, i₅, hintern, hcode⟩ := hcode
  obtain ⟨sound₅, hspares₅, hknown⟩ := intern_spares (i := { i with heap := heap₄ }) sound₄ hintern
  -- the method was there before its table
  have hne : method' ≠ table := by
    rintro rfl
    exact hnew₃ (hspares₂.sane (hs₁.sane sound₁))
  have hspares₁₅ : Heap.Spares heap₁ i₅.heap [table] :=
    (((hspares₂.trans hspares₃).trans hspares₄).trans hspares₅).mono (by simp)
  have hs₅ := hspares₁₅.shows (by simpa using hne) hs₁
  rw [← List.append_nil (List.replicate _ _)] at hs₅
  obtain ⟨heap₆, hfill', sound₆, hs₆, hspares₆⟩ :=
    fillSlots_shows [] [bytes, table, .ofNat args, .ofNat temps, .ofNat heapVars, .ofNat stack,
      symbol, cls] sound₅ hs₅ List.length_replicate
  cases hfill'.symm.trans hcode
  refine ⟨bytes, table, sound₆, ?_, hknown, ⟨⟨symbol, cls, by simpa using hs₆⟩, ?_, ?_⟩, hnew₁, ?_,
    hne, hshort⟩
  · refine ((hspares₁.trans hspares₁₅).trans hspares₆).fresh sound ?_
    simp only [List.nil_append, List.mem_append, List.mem_singleton]
    rintro v (rfl | rfl)
    · exact fun sane => hnew₃ (hspares₂.sane (hspares₁.sane sane))
    · exact hnew₁
  · exact hspares₆.spells (hspares₅.spells (hspares₄.spells (hspares₃.spells hspells)))
  · refine hspares₆.shows (by simpa using hne.symm) (hspares₅.shows nofun ?_)
    simpa using hs₄
  · exact fun sane => hnew₃ (hspares₂.sane (hspares₁.sane sane))

/-- Whatever follows a step of the memory sees the image as it was but for the memory. -/
theorem onHeap_bind_congr {α β : Type} {act : Action HeapError Heap α} {f g : α → ImageAction β}
    (h : ∀ a heap, f a { i with heap } = g a { i with heap }) :
    (onHeap act >>= f) i = (onHeap act >>= g) i := by
  change EStateM.bind _ _ i = EStateM.bind _ _ i
  simp only [EStateM.bind, onHeap]
  cases act i.heap with
  | ok a heap => exact h a heap
  | error e heap => rfl

theorem fillSlots_bind_congr {β : Type} {v : Value} {k : Nat} {values : List Value}
    {f g : Unit → ImageAction β} (h : ∀ heap, f () { i with heap } = g () { i with heap }) :
    (fillSlots v k values >>= f) i = (fillSlots v k values >>= g) i := by
  induction values generalizing i k with
  | nil => exact h i.heap
  | cons x values ih =>
    simp only [fillSlots, bind_assoc]
    exact onHeap_bind_congr fun _ heap => ih h

def loadNew (t : CodeTemplate) (ns : List Int) (cls : Value) : ImageAction Value := do
  let i ← EStateM.get
  let method ← onHeap (Heap.allocatePointers (i.kernelClass .method) Slot.Code.count)
  let bytes ← onHeap (Heap.allocateBytes (i.kernelClass .byteArray) t.bytecode)
  let table ← onHeap (Heap.allocatePointers (i.kernelClass .array) t.literals.length)
  fillSlots table 0 (ns.map .wrapInt)
  let symbol ← onHeap (Heap.allocateBytes (i.kernelClass .symbol) (Text.toBytes t.selector))
  modify fun i => { i with symbols := i.symbols.insert t.selector symbol }
  fillCode method bytes table symbol cls ⟨t.args, t.temps, t.heapVars, t.stack⟩
  return method

theorem load_eq_loadNew {t : CodeTemplate} {ns : List Int} {cls : Value}
    (hliterals : t.literals = ns.map .integer) (hns : ∀ n ∈ ns, Value.Fits n)
    (hselector : i.symbols.lookup t.selector = none) : load t cls i = loadNew t ns cls i := by
  obtain ⟨selector, bytecode, literals, args, temps, heapVars, stack⟩ := t
  dsimp only at hliterals hselector
  subst hliterals
  have hget : ∀ {β : Type} {f : Image → ImageAction β} (i : Image), (EStateM.get >>= f) i = f i i :=
    fun _ => rfl
  simp only [load, loadNew, loadCode, loadInto_integers hns, bind_assoc]
  rw [hget, hget]
  refine onHeap_bind_congr fun method heap => ?_
  rw [hget]
  refine onHeap_bind_congr (i := { i with heap }) fun bytes heap => ?_
  rw [hget]
  refine onHeap_bind_congr (i := { i with heap }) fun table heap => ?_
  refine fillSlots_bind_congr (i := { i with heap }) fun heap => ?_
  rw [intern, bind_assoc, hget]
  simp only [hselector, bind_assoc, pure_bind]
  rfl
/-- A context for a method without heap variables. Its registers hold the receiver, the arguments
and nil. -/
theorem newContext_shows {t : CodeTemplate}
    {method bytes table receiver previous parent ctx : Value}
    {constants args : List Value} (sound : i.heap.Sound)
    (hbears : i.heap.Bears method t constants bytes table) (hheapVars : t.heapVars = 0)
    (hsmall : t.args + t.temps + t.stack < 0x10000000) (hargs : args.length = t.args)
    (heq : newContext method receiver args previous parent none i = .ok ctx i') :
    i'.heap.Sound ∧ Heap.Spares i.heap i'.heap [] ∧ i'.known = i.known ∧
      ¬i.heap.arenas.Sane ctx ∧
      i'.heap.Shows ctx ([previous, receiver, method, .ofNat 0, .nil, parent, ctx] ++
        (receiver :: args ++ List.replicate (t.temps + t.stack) .nil)) := by
  have hshape := hbears.codeShape sound (by omega)
  rw [newContext, bind_eq_ok] at heq
  obtain ⟨shape, i₁, hask, heq⟩ := heq
  obtain ⟨rfl, rfl⟩ : shape = ⟨t.args, t.temps, t.heapVars, t.stack⟩ ∧ i = i₁ := by
    rw [ask, Action.query, hshape] at hask
    cases hask
    exact ⟨rfl, rfl⟩
  rw [bind_eq_ok] at heq
  obtain ⟨_, _, hget, heq⟩ := heq
  cases hget
  rw [bind_eq_ok] at heq
  obtain ⟨ctx', i₂, hmade, heq⟩ := heq
  obtain ⟨heap₁, hallocate, rfl⟩ := onHeap_eq_ok.mp hmade
  have hcount : Slot.Context.registers + (1 + t.args + t.temps + t.stack) =
      8 + (args.length + (t.temps + t.stack)) := by
    simp only [Slot.Context.registers]
    omega
  rw [hcount] at hallocate
  obtain ⟨sound₁, hs₁, hnew, hspares₁⟩ := Heap.allocatePointers_shows sound (by omega) hallocate
  rw [← List.replicate_append_replicate, ← List.replicate_append_replicate] at hs₁
  simp only [hheapVars, gt_iff_lt, Nat.lt_irrefl, if_false, pure_bind, bind_eq_ok] at heq
  obtain ⟨_, i₂, hfields, _, i₃, hregisters, hreturn⟩ := heq
  obtain ⟨rfl, rfl⟩ := pure_eq_ok.mp hreturn
  let fields := [previous, receiver, method, .ofNat 0, .nil, parent, ctx', receiver]
  obtain ⟨heap₂, hfields', sound₂, hs₂, hspares₂⟩ :=
    fillSlots_shows (i := { i with heap := heap₁ }) [] fields sound₁ hs₁ List.length_replicate
  rw [Option.getD_none] at hfields
  cases hfields'.symm.trans hfields
  obtain ⟨heap₃, hregisters', sound₃, hs₃, hspares₃⟩ :=
    fillSlots_shows (i := { i with heap := heap₂ }) fields args sound₂ hs₂ (by simp)
  rw [← hargs, List.take_length] at hregisters
  cases hregisters'.symm.trans hregisters
  refine ⟨sound₃, ((hspares₁.trans hspares₂).trans hspares₃).fresh sound (by simpa using hnew), rfl,
    hnew, ?_⟩
  simpa [fields] using hs₃

end Image

end ObjectMachine
