import ObjectMachine.Proofs.Action
import ObjectMachine.Proofs.Code.WellFormed
import ObjectMachine.Proofs.Language.Resolution

namespace ObjectMachine

/-- Constants are kept and registers stay in use. -/
structure Pool.Grows (p p' : Pool) : Prop where
  literals : p.literals.toList <+: p'.literals.toList
  high : p.high ≤ p'.high

theorem Pool.Grows.refl (p : Pool) : p.Grows p := ⟨List.prefix_rfl, Nat.le_refl _⟩

theorem Pool.Grows.trans {p p' p'' : Pool} (h : p.Grows p') (h' : p'.Grows p'') : p.Grows p'' :=
  ⟨h.literals.trans h'.literals, Nat.le_trans h.high h'.high⟩

theorem Scope.getElem?_of_mem_chained {s : Scope} {own parent : UInt8}
    (hsize : s.heapVars.size ≤ maxHeapVars) (h : (own, parent) ∈ s.chained) :
    s.heapVars[own.toNat]? = some (.chained parent) := by
  rw [Scope.chained, List.mem_filterMap] at h
  obtain ⟨⟨origin, slot⟩, hitem, hchained⟩ := h
  cases origin with
  | argument reg => cases hchained
  | «local» => cases hchained
  | chained parentSlot =>
    simp only [Option.some.injEq, Prod.mk.injEq] at hchained
    obtain ⟨rfl, rfl⟩ := hchained
    have hslot : s.heapVars[slot]? = some (.chained parentSlot) := by
      rw [← Array.getElem?_toList]
      exact List.mem_zipIdx_iff_getElem?.mp hitem
    have hlt := (Array.getElem?_eq_some_iff.mp hslot).1
    rwa [ScopeTree.toNat_size_toUInt8 (Nat.lt_of_lt_of_le hlt hsize)]

namespace CodeUnit

def outer (u : CodeUnit) : Nat :=
  match u.scope.parent with
  | some parent => (u.scopes.scope parent).heapVars.size
  | none => 0

def frame (u : CodeUnit) (p : Pool) : Frame :=
  ⟨p.high, u.scope.heapVars.size, u.outer, p.literals.toList⟩

structure Stocks (u : CodeUnit) (p : Pool) : Prop where
  size : p.literals.size ≤ maxLiterals
  high : u.firstTemp ≤ p.high
  blocks : ∀ t, .block t ∈ p.literals.toList → t.WellFormed u.scope.heapVars.size

structure Fills (u : CodeUnit) (p : Pool) (code : List Instruction) (p' : Pool) : Prop where
  stocks : u.Stocks p'
  grows : p.Grows p'
  fits : ∀ i ∈ code, i.Fits (u.frame p')

structure Emits (u : CodeUnit) (p : Pool) (code : List Instruction) (p' : Pool) : Prop
    extends u.Fills p code p' where
  branches : Branches code

structure Covers (u : CodeUnit) (id : Nat) : Prop where
  coherent : u.scopes.Coherent
  found : u.scopes.scopes[id]? = some u.scope
  synced : ∀ s ∈ u.syncs, s.own.toNat < u.scope.heapVars.size ∧ s.parent.toNat < u.outer ∧
    s.reg.toNat < u.firstTemp

variable {u : CodeUnit} {p p' p'' : Pool} {code code' : List Instruction} {id : Nat}

theorem getElem?_of_extended {α : Type} {xs ys : List α} {i : Nat} {x : α} (h : xs <+: ys)
    (hi : xs[i]? = some x) : ys[i]? = some x := by
  obtain ⟨rest, rfl⟩ := h
  rw [List.getElem?_append_left (List.getElem?_eq_some_iff.mp hi).1, hi]

theorem fits_mono {i : Instruction} (hg : p.Grows p') (h : i.Fits (u.frame p)) :
    i.Fits (u.frame p') := by
  have hsymbol : ∀ {index}, (u.frame p).NamesSymbol index → (u.frame p').NamesSymbol index :=
    fun ⟨name, hname⟩ => ⟨name, getElem?_of_extended hg.literals hname⟩
  have hreg : ∀ {r : Nat}, r < (u.frame p).registers → r < (u.frame p').registers :=
    fun hr => Nat.lt_of_lt_of_le hr hg.high
  cases i with
  | loadNil | loadTrue | loadFalse | loadThisContext | loadGlobals | loadInstVar | storeInstVar
  | jump | branchIfFalse | branchIfTrue | return_ | returnSelf => trivial
  | loadLiteral index =>
    obtain ⟨c, hc, hblock⟩ := h
    exact ⟨c, getElem?_of_extended hg.literals hc, hblock⟩
  | copyBlock index =>
    obtain ⟨t, ht⟩ := h
    exact ⟨t, getElem?_of_extended hg.literals ht⟩
  | loadOwn | storeOwn | loadParent | storeParent | promote | restore | primitive0
  | primitive1 => exact h
  | loadGlobal | storeGlobal => exact hsymbol h
  | loadRegister | storeRegister | binaryOp => exact hreg h
  | sync => exact ⟨h.1, h.2.1, hreg h.2.2⟩
  | send | sendSuper => exact ⟨hsymbol h.1, fun reg hmem => hreg (h.2 reg hmem)⟩
  | primitive2 => exact ⟨h.1, hreg h.2⟩
  | primitive3 => exact ⟨h.1, hreg h.2.1, hreg h.2.2⟩
  | primitiveV => exact ⟨h.1, fun k hk => hreg (h.2 k hk)⟩

theorem Fills.append (h : u.Fills p code p') (h' : u.Fills p' code' p'') :
    u.Fills p (code ++ code') p'' where
  stocks := h'.stocks
  grows := h.grows.trans h'.grows
  fits i hi := by
    rcases List.mem_append.mp hi with hi | hi
    · exact fits_mono h'.grows (h.fits i hi)
    · exact h'.fits i hi

theorem Emits.append (h : u.Emits p code p') (h' : u.Emits p' code' p'') :
    u.Emits p (code ++ code') p'' :=
  ⟨h.toFills.append h'.toFills, h.branches.append h'.branches⟩

theorem Emits.after (hg : p.Grows p') (h : u.Emits p' code p'') : u.Emits p code p'' :=
  { h with grows := hg.trans h.grows }

/-- Instructions that are no branches and need nothing new. -/
theorem Stocks.emits (hs : u.Stocks p)
    (h : ∀ i ∈ code, i.Fits (u.frame p) ∧ i.offset? = none) : u.Emits p code p :=
  ⟨⟨hs, .refl p, fun i hi => (h i hi).1⟩, branches_of_offset_none fun i hi => (h i hi).2⟩

theorem Stocks.emits_nil (hs : u.Stocks p) : u.Emits p [] p := hs.emits fun _ hi => nomatch hi

theorem Stocks.emits_singleton {i : Instruction} (hs : u.Stocks p) (h : i.Fits (u.frame p))
    (hi : i.offset? = none) : u.Emits p [i] p :=
  hs.emits fun _ hj => List.mem_singleton.mp hj ▸ ⟨h, hi⟩

theorem Stocks.fills_singleton {i : Instruction} (hs : u.Stocks p) (h : i.Fits (u.frame p)) :
    u.Fills p [i] p :=
  ⟨hs, .refl p, fun _ hj => List.mem_singleton.mp hj ▸ h⟩

/-- A register that every activation of the unit has. -/
theorem Stocks.register_lt {reg : UInt8} (hs : u.Stocks p) (h : reg.toNat < u.firstTemp) :
    reg.toNat < (u.frame p).registers :=
  Nat.lt_of_lt_of_le h hs.high

theorem Covers.sync_emits (hu : u.Covers id) (hs : u.Stocks p) : u.Emits p u.sync p := by
  refine hs.emits fun i hi => ?_
  obtain ⟨s, hmem, rfl⟩ := List.mem_map.mp hi
  obtain ⟨hown, hparent, hreg⟩ := hu.synced s hmem
  exact ⟨⟨hown, hparent, hs.register_lt hreg⟩, rfl⟩

theorem Covers.restores_emits (hu : u.Covers id) (hs : u.Stocks p) : u.Emits p u.restores p := by
  refine hs.emits fun i hi => ?_
  obtain ⟨s, hmem, rfl⟩ := List.mem_map.mp hi
  obtain ⟨hown, hparent, -⟩ := hu.synced s hmem
  exact ⟨⟨hown, hparent⟩, rfl⟩

theorem Covers.call_emits {i : Instruction} (hu : u.Covers id) (hs : u.Stocks p)
    (h : i.Fits (u.frame p)) (hi : i.offset? = none) : u.Emits p (u.call i) p :=
  ((hu.sync_emits hs).append (hs.emits_singleton h hi)).append (hu.sync_emits hs)

/-- Promotions, and for every captured argument its register and its slot. -/
theorem Covers.prologue_emits (hu : u.Covers id) (hs : u.Stocks p) : u.Emits p u.prologue p := by
  have hat := hu.coherent hu.found
  refine .append (hs.emits fun i hi => ?_) (hs.emits fun i hi => ?_)
  · obtain ⟨s, hmem, rfl⟩ := List.mem_map.mp hi
    obtain ⟨hown, hparent, -⟩ := hu.synced s hmem
    exact ⟨⟨hown, hparent⟩, rfl⟩
  · obtain ⟨⟨origin, slot⟩, hmem, hi⟩ := List.mem_flatMap.mp hi
    have hslot : u.scope.heapVars[slot]? = some origin := by
      rw [← Array.getElem?_toList]
      exact List.mem_zipIdx_iff_getElem?.mp hmem
    cases origin with
    | argument reg =>
      have hreg := hat.argument hslot
      have hlt := (Array.getElem?_eq_some_iff.mp hslot).1
      simp only [List.mem_cons, List.not_mem_nil, or_false] at hi
      rcases hi with rfl | rfl
      · refine ⟨hs.register_lt ?_, rfl⟩
        rw [firstTemp, Scope.fixedRegisters]
        omega
      · refine ⟨?_, rfl⟩
        have hnat := ScopeTree.toNat_size_toUInt8 (Nat.lt_of_lt_of_le hlt hat.slots)
        change slot.toUInt8.toNat < u.scope.heapVars.size
        rwa [hnat]
    | «local» => cases hi
    | chained parentSlot => cases hi

/-- The registers of an activation are those in use while the code was emitted. -/
theorem Covers.frame_template (hu : u.Covers id) (hs : u.Stocks p) :
    (u.template code p).frame u.outer = u.frame p := by
  have hargs := (hu.coherent hu.found).args
  have hhigh := hs.high
  simp only [firstTemp, Scope.fixedRegisters] at hhigh
  simp only [CodeTemplate.frame, template, frame, Frame.mk.injEq, and_true, firstTemp,
    Scope.fixedRegisters, Scope.locals]
  omega

/-- Code of a unit becomes well-formed when a return follows it. -/
theorem Covers.template_wellFormed {last : Instruction} (hu : u.Covers id)
    (hlast : last = .return_ ∨ last = .returnSelf) (h : u.Emits p code p') :
    (u.template (code ++ [last]) p').WellFormed u.outer := by
  refine .intro (CodeTemplate.runnable_of_code rfl hlast h.branches ?_) h.stocks.blocks
  rw [hu.frame_template h.stocks]
  exact h.fits

/-- Nothing is in use but the fixed registers. -/
theorem stocks_empty (u : CodeUnit) : u.Stocks { high := u.firstTemp } :=
  ⟨Nat.zero_le _, Nat.le_refl _, fun _ ht => nomatch ht⟩

/-- Every chained slot gets a register of its own after the fixed ones. -/
theorem assignSyncs_spec {reg : Nat} {pairs : List (UInt8 × UInt8)} {syncs : List SyncedSlot}
    (h : assignSyncs reg pairs = .ok syncs) : ∀ s ∈ syncs, (s.own, s.parent) ∈ pairs ∧
      s.reg.toNat < reg + syncs.length := by
  induction pairs generalizing reg syncs with
  | nil =>
    cases h
    exact fun _ hs => nomatch hs
  | cons pair rest ih =>
    simp only [assignSyncs, bind, Except.bind, pure, Except.pure] at h
    split at h
    · cases h
    · rename_i hroom
      split at h <;> rename_i hrest <;> cases h
      intro s hs
      rw [List.length_cons]
      rcases List.mem_cons.mp hs with rfl | hs
      · have hreg := ScopeTree.toNat_size_toUInt8 (Nat.not_le.mp hroom)
        exact ⟨.head _, by simp only [hreg]; omega⟩
      · obtain ⟨hmem, hreg⟩ := ih hrest s hs
        exact ⟨.tail _ hmem, by omega⟩

theorem create_spec {scopes : ScopeTree} {selector : String} {s : Scope}
    (coherent : scopes.Coherent) (hs : scopes.scopes[id]? = some s)
    (h : create scopes id selector = .ok u) :
    u.Covers id ∧ u.scopes = scopes ∧ u.scope = s := by
  simp only [create, bind, Except.bind, pure, Except.pure] at h
  split at h <;> rename_i hsyncs <;> cases h
  have hscope := ScopeTree.scope_eq hs
  have hat := coherent hs
  refine ⟨⟨coherent, hscope.symm ▸ hs, fun sync hmem => ?_⟩, rfl, hscope⟩
  obtain ⟨hpair, hreg⟩ := assignSyncs_spec hsyncs sync hmem
  rw [hscope] at hpair
  have hslot := Scope.getElem?_of_mem_chained hat.slots hpair
  obtain ⟨parent, s', hp, hs', hin⟩ := hat.chained hslot
  simp only [hscope, outer, hp, ScopeTree.scope_eq hs', firstTemp] at hreg ⊢
  exact ⟨(Array.getElem?_eq_some_iff.mp hslot).1, hin, hreg⟩

def Reaches (u : CodeUnit) : Binding → Prop
  | .register reg => reg.toNat < u.firstTemp
  | .own slot => slot.toNat < u.scope.heapVars.size
  | .parent slot => slot.toNat < u.outer
  | .instanceVariable _ | .global => True

theorem Covers.reaches_of_denotes {place : Place} {b : Binding} (hu : u.Covers id)
    (h : u.scopes.Denotes id place b) : u.Reaches b := by
  cases b with
  | register reg =>
    obtain ⟨-, s, v, hs, hv, -, rfl⟩ := h
    obtain rfl := Option.some.inj (hu.found.symm.trans hs)
    have hreg := (hu.coherent hs).register hv
    have hlt := (Array.getElem?_eq_some_iff.mp hv).1
    rw [Reaches, hreg, firstTemp, Scope.fixedRegisters]
    omega
  | own slot =>
    obtain ⟨s, hs, hlt⟩ := ScopeTree.Holds.lt_size hu.coherent h
    obtain rfl := Option.some.inj (hu.found.symm.trans hs)
    exact hlt
  | parent slot =>
    obtain ⟨s, parent, hs, hparent, -, hholds⟩ := h
    obtain rfl := Option.some.inj (hu.found.symm.trans hs)
    obtain ⟨s', hs', hlt⟩ := hholds.lt_size hu.coherent
    simpa only [Reaches, outer, hparent, ScopeTree.scope_eq hs'] using hlt
  | instanceVariable => trivial
  | global => trivial

theorem reaches_classBinding (u : CodeUnit) (t : ScopeTree) (name : String) :
    u.Reaches (t.classBinding name) := by
  rw [ScopeTree.classBinding]
  cases t.instanceVariables.findIdx? (· == name) <;> exact trivial

theorem Covers.reaches {env : Env} {name : String} {b : Binding} (hu : u.Covers id)
    (h : u.scopes.Occurs id env name b) : u.Reaches b := by
  rcases h.valid with ⟨place, hd⟩ | rfl
  · exact hu.reaches_of_denotes hd
  · exact u.reaches_classBinding _ _

end CodeUnit

theorem Constant.same_symbol {name : String} {c : Constant}
    (h : Constant.same (.symbol name) c = true) : c = .symbol name := by
  cases c with
  | symbol name' => rw [show name = name' from by simpa [same] using h]
  | integer | string | array | block => simp [same] at h

theorem Constant.isBlock_of_same {c c' : Constant} (h : c.same c' = true) : c'.isBlock = false := by
  cases c' with
  | block t => cases c <;> simp [same] at h
  | integer | string | symbol | array => rfl

theorem Constant.isBlock_ofLiteral {l : Literal} {c : Constant} (h : ofLiteral l = .ok c) :
    c.isBlock = false := by
  cases l with
  | integer n =>
    rw [ofLiteral] at h
    split at h <;> cases h
    rfl
  | string | symbol =>
    rw [ofLiteral] at h
    cases h
    rfl
  | array items =>
    simp only [ofLiteral, bind, Except.bind, pure, Except.pure] at h
    split at h <;> cases h
    rfl

namespace Primitive

theorem ofIndex?_index (p : Primitive) : ofIndex? p.index.toUInt8.toNat = some p := by
  cases p <;> rfl

theorem arity_le_three {p : Primitive} {n : Nat} (h : p.arity = .fixed n) : n ≤ 3 := by
  cases p <;> cases h <;> decide

end Primitive

namespace Emit

variable {u : CodeUnit} {p p' : Pool} {id next : Nat}

theorem ofExcept_eq_ok {α : Type} {r : Except CompileError α} {a : α} :
    ofExcept r p = .ok a p' ↔ r = .ok a ∧ p = p' := by
  cases r with
  | ok b => simp [ofExcept, pure_eq_ok]
  | error e => simp [ofExcept, fail_eq_ok]

/-- A register that is taken is below the first one never used. -/
theorem allocTemp_spec {reg : UInt8} (hs : u.Stocks p) (h : allocTemp next p = .ok reg p') :
    reg = next.toUInt8 ∧ next < maxRegisters ∧ next < p'.high ∧ u.Stocks p' ∧ p.Grows p' := by
  simp only [allocTemp, ite_eq_ok, bind_eq_ok, fail_eq_ok, false_and, exists_false, and_false,
    false_or, pure_eq_ok, modify_eq_ok] at h
  obtain ⟨hroom, -, _, rfl, rfl, rfl⟩ := h
  exact ⟨rfl, Nat.not_le.mp hroom, Nat.lt_of_lt_of_le (Nat.lt_succ_self _) (Nat.le_max_right ..),
    ⟨hs.size, Nat.le_trans hs.high (Nat.le_max_left ..), hs.blocks⟩,
    List.prefix_rfl, Nat.le_max_left ..⟩

theorem allocTemp_lt {reg : UInt8} (hs : u.Stocks p) (h : allocTemp next p = .ok reg p') :
    reg.toNat < (u.frame p').registers := by
  obtain ⟨rfl, hroom, hlt, -⟩ := allocTemp_spec hs h
  rw [ScopeTree.toNat_size_toUInt8 hroom]
  exact hlt

theorem literal_spec {c : Constant} {index : UInt8} (hs : u.Stocks p)
    (hblock : ∀ t, c = .block t → t.WellFormed u.scope.heapVars.size)
    (h : literal c p = .ok index p') : u.Stocks p' ∧ p.Grows p' ∧
      ∃ c', p'.literals.toList[index.toNat]? = some c' ∧ (c' = c ∨ c.same c' = true) := by
  simp only [literal, get_bind] at h
  cases hfind : p.literals.findIdx? c.same with
  | some i =>
    simp only [hfind, pure_eq_ok] at h
    obtain ⟨rfl, rfl⟩ := h
    obtain ⟨hlt, hsame, -⟩ := Array.findIdx?_eq_some_iff_getElem.mp hfind
    refine ⟨hs, .refl p, p.literals[i], ?_, .inr hsame⟩
    rw [ScopeTree.toNat_size_toUInt8 (Nat.lt_of_lt_of_le hlt hs.size), Array.getElem?_toList,
      Array.getElem?_eq_getElem hlt]
  | none =>
    simp only [hfind, ite_eq_ok, bind_eq_ok, fail_eq_ok, false_and, exists_false, and_false,
      false_or, pure_eq_ok, modify_eq_ok] at h
    obtain ⟨hroom, -, _, rfl, rfl, rfl⟩ := h
    have hlt := Nat.not_le.mp hroom
    refine ⟨⟨?_, hs.high, fun t ht => ?_⟩, ⟨?_, Nat.le_refl _⟩, c, ?_, .inl rfl⟩
    · rw [Array.size_push]
      exact hlt
    · simp only [Array.toList_push, List.mem_append, List.mem_singleton] at ht
      rcases ht with ht | ht
      · exact hs.blocks t ht
      · exact hblock t ht.symm
    · simp
    · rw [ScopeTree.toNat_size_toUInt8 hlt]
      simp

theorem symbol_index {name : String} {index : UInt8} (hs : u.Stocks p)
    (h : symbol name p = .ok index p') :
    p'.literals.toList[index.toNat]? = some (.symbol name) := by
  obtain ⟨-, -, c, hc, hsame⟩ := literal_spec hs (fun t ht => by cases ht) h
  rcases hsame with rfl | hsame
  · exact hc
  · rwa [Constant.same_symbol hsame] at hc

theorem symbol_spec {name : String} {index : UInt8} (hs : u.Stocks p)
    (h : symbol name p = .ok index p') :
    u.Stocks p' ∧ p.Grows p' ∧ (u.frame p').NamesSymbol index := by
  obtain ⟨hs', hg, -⟩ := literal_spec hs (fun t ht => by cases ht) h
  exact ⟨hs', hg, name, symbol_index hs h⟩

theorem argRegisters_eq_ok {regs : List UInt8} {args : ArgRegisters}
    (h : argRegisters regs p = .ok args p') : args.regs = regs ∧ p = p' := by
  rw [argRegisters] at h
  cases hargs : ArgRegisters.ofList? regs with
  | none => simp only [hargs, fail_eq_ok] at h
  | some args' =>
    simp only [hargs, pure_eq_ok] at h
    obtain ⟨rfl, rfl⟩ := h
    rw [ArgRegisters.ofList?] at hargs
    split at hargs <;> cases hargs
    exact ⟨rfl, rfl⟩

theorem findPrimitive_eq_ok {name : String} {count : Nat} {prim : Primitive}
    (h : findPrimitive name count p = .ok prim p') :
    p = p' ∧ (prim.arity = .fixed count ∨ prim.arity = .variadic) := by
  rw [findPrimitive] at h
  cases hname : Primitive.ofName? name with
  | none => simp only [hname, fail_eq_ok] at h
  | some found =>
    cases harity : found.arity with
    | fixed expected =>
      simp only [hname, harity, ite_eq_ok, bind_eq_ok, fail_eq_ok, false_and, exists_false,
        and_false, false_or, pure_eq_ok, Decidable.not_not] at h
      obtain ⟨rfl, rfl, rfl⟩ := h
      exact ⟨rfl, .inl harity⟩
    | variadic =>
      simp only [hname, harity, pure_eq_ok] at h
      obtain ⟨rfl, rfl⟩ := h
      exact ⟨rfl, .inr harity⟩

theorem skip_eq_ok {length : Nat} {offset : Int16} (h : skip length p = .ok offset p') :
    offset.toInt = length ∧ p = p' := by
  obtain ⟨ho, rfl⟩ := ofExcept_eq_ok.mp h
  exact ⟨offsetOf_eq_ok ho, rfl⟩

theorem back_eq_ok {length : Nat} {offset : Int16} (h : back length p = .ok offset p') :
    offset.toInt = -length ∧ p = p' := by
  obtain ⟨ho, rfl⟩ := ofExcept_eq_ok.mp h
  exact ⟨offsetOf_eq_ok ho, rfl⟩

theorem directCall_fits {prim : Primitive} {count : Nat} {regs : List UInt8} {f : Frame}
    (harity : prim.arity = .fixed count) (hlength : regs.length = count - 1)
    (hregs : ∀ reg ∈ regs, reg.toNat < f.registers) :
    (directCall prim.index.toUInt8 count regs).Fits f := by
  have hle := Primitive.arity_le_three harity
  have hnumber : Primitive.Numbered prim.index.toUInt8 (.fixed count) :=
    ⟨prim, prim.ofIndex?_index, harity⟩
  match regs, hlength with
  | [], hlength =>
    rw [directCall]
    rw [List.length_nil] at hlength
    split
    · rename_i hzero
      rw [hzero] at hnumber
      exact hnumber
    · obtain rfl : count = 1 := by omega
      exact hnumber
  | [reg], hlength =>
    obtain rfl : count = 2 := by simp at hlength; omega
    exact ⟨hnumber, hregs reg (.head _)⟩
  | [reg₁, reg₂], hlength =>
    obtain rfl : count = 3 := by simp at hlength; omega
    exact ⟨hnumber, hregs reg₁ (.head _), hregs reg₂ (.tail _ (.head _))⟩
  | _ :: _ :: _ :: _, hlength =>
    simp only [List.length_cons] at hlength
    omega

theorem offset?_directCall (index : UInt8) (count : Nat) (regs : List UInt8) :
    (directCall index count regs).offset? = none := by
  match regs with
  | [] =>
    rw [directCall]
    split <;> rfl
  | [_] => rfl
  | _ :: _ :: _ => rfl

theorem offset?_leaving (form : ControlForm) (offset : Int16) :
    (leaving form offset).offset? = some offset := by
  cases form <;> rfl

/-- The instruction that reads or writes a variable. -/
theorem access_emits {b : Binding} {name : String} {i : Instruction} (hs : u.Stocks p)
    (hb : u.Reaches b) (h : load b name p = .ok i p' ∨ store b name p = .ok i p') :
    u.Emits p [i] p' := by
  cases b with
  | global =>
    simp only [load, store, bind_eq_ok, pure_eq_ok] at h
    obtain ⟨index, _, hsymbol, rfl, rfl⟩ | ⟨index, _, hsymbol, rfl, rfl⟩ := h <;>
    · obtain ⟨hs', hg, hnames⟩ := symbol_spec hs hsymbol
      exact .after hg (hs'.emits fun _ hi => List.mem_singleton.mp hi ▸ ⟨hnames, rfl⟩)
  | register reg =>
    simp only [load, store, pure_eq_ok] at h
    obtain ⟨rfl, rfl⟩ | ⟨rfl, rfl⟩ := h <;> exact hs.emits_singleton (hs.register_lt hb) rfl
  | own slot | parent slot | instanceVariable i =>
    simp only [load, store, pure_eq_ok] at h
    obtain ⟨rfl, rfl⟩ | ⟨rfl, rfl⟩ := h <;> exact hs.emits_singleton hb rfl

theorem clearTemps_emits {temps : List (String × Binding)} {code : List Instruction}
    (hs : u.Stocks p) (htemps : ∀ temp ∈ temps, u.Reaches temp.2)
    (h : clearTemps temps p = .ok code p') : u.Emits p code p' := by
  induction temps generalizing p code with
  | nil =>
    obtain ⟨rfl, rfl⟩ := pure_eq_ok.mp h
    exact hs.emits_nil
  | cons temp rest ih =>
    obtain ⟨name, b⟩ := temp
    simp only [clearTemps, bind_eq_ok, pure_eq_ok] at h
    obtain ⟨i, p₁, hstore, code', p₂, hrest, rfl, rfl⟩ := h
    have hnil : u.Emits p [.loadNil] p := hs.emits_singleton trivial rfl
    have hi := access_emits hs (htemps _ (.head _)) (.inr hstore)
    exact (hnil.append hi).append
      (ih hi.stocks (fun temp hmem => htemps temp (.tail _ hmem)) hrest)

end Emit

end ObjectMachine
