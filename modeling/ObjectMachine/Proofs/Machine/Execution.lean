import ObjectMachine.Proofs.Machine.Realization

namespace ObjectMachine

namespace Routine

variable {r : Routine} {u : CodeUnit} {env : Env} {b : Bindings} {p p' : Pool}
  {next : Nat} {w : Window} {registers : List Value} {v : Value} {name : String}
  {code : List Instruction}

theorem store_path {pc : Nat} {reg : UInt8} (hat : r.At pc [.storeRegister reg])
    (hlt : reg.toNat < registers.length) :
    r.Path ⟨pc, v, registers⟩
      ⟨pc + codeLength [.storeRegister reg], v, registers.set reg.toNat v⟩ := by
  refine At.turn (w := ⟨pc, v, registers⟩) hat ?_
  rw [Window.execute, if_pos hlt]
  rfl

theorem Holds.assign {index : Nat} (hholds : r.Holds env b registers)
    (apart : (env.map Prod.snd).Nodup) (hplace : env.innermost name = some (some ⟨0, index⟩))
    (hlt : index + 1 < registers.length) :
    r.Holds env (b.assign name v) (registers.set (index + 1) v) where
  length := by rw [List.length_set, hholds.length]
  self := by rw [List.getElem?_set_ne (Nat.succ_ne_zero _), hholds.self]
  resides := resides_assign hholds.resides apart hplace hlt

/-- A register above the variables is written. -/
theorem Holds.stash {size reg : Nat} (hholds : r.Holds env b registers)
    (henv : env.Registered size) (hreg : size < reg) :
    r.Holds env b (registers.set reg v) where
  length := by rw [List.length_set, hholds.length]
  self := by rw [List.getElem?_set_ne (by omega), hholds.self]
  resides := by
    refine resides_frame hholds.resides fun index hmem => ?_
    obtain ⟨entry, hentry, hplace⟩ := List.mem_map.mp hmem
    obtain ⟨index', hindex', hlt⟩ := henv.held entry hentry
    obtain rfl : index' = index := by simpa [hindex'] using hplace
    exact List.getElem?_set_ne (by omega)

theorem keeps_set {first k : Nat} (h : k < first ∨ next ≤ k) :
    Keeps first next registers (registers.set k v) := by
  intro j hj hlt
  exact List.getElem?_set_ne (by omega)

/-- The temporaries of a block are set to nil, and all other registers are kept. -/
theorem Hosts.clearTemps_path {temps : List (String × Binding)} {first : Nat} (hr : r.Hosts u)
    (htemps : ∀ i name site, temps[i]? = some (name, site) →
      u.scopes.Denotes 0 ⟨0, first + i⟩ site)
    (hcode : Emit.clearTemps temps p = .ok code p') (hat : r.At w.pc code)
    (hlength : w.registers.length = r.registers) :
    ∃ v registers, r.Path w ⟨w.pc + codeLength code, v, registers⟩ ∧
      registers.length = r.registers ∧
      (∀ i, i < temps.length → registers[first + i + 1]? = some .nil) ∧
      ∀ k, k ≤ first ∨ first + temps.length < k → registers[k]? = w.registers[k]? := by
  induction temps generalizing first w code p with
  | nil =>
    obtain ⟨rfl, rfl⟩ := pure_eq_ok.mp hcode
    exact ⟨w.accumulator, w.registers, .refl, hlength, fun i hi => absurd hi (Nat.not_lt_zero i),
      fun k _ => rfl⟩
  | cons temp temps ih =>
    obtain ⟨name, site⟩ := temp
    obtain ⟨reg, rfl, -, hreg, s, hs, hlt⟩ :=
      hr.plain.denotes hr.covers.coherent (htemps 0 name site rfl)
    obtain rfl := Option.some.inj (hr.covers.found.symm.trans hs)
    simp only [Emit.clearTemps, Emit.store, bind_eq_ok, pure_eq_ok] at hcode
    obtain ⟨_, _, ⟨rfl, rfl⟩, rest, _, hrest, rfl, rfl⟩ := hcode
    simp only [Nat.add_zero] at hreg hlt
    have hroom := hr.room
    have hfirst := hr.firstTemp
    have hsplit : r.At w.pc ([.loadNil] ++ ([.storeRegister reg] ++ rest)) := hat
    have hnil : r.Path w ⟨w.pc + 1, .nil, w.registers⟩ := hsplit.left.turn rfl
    have hstore : reg.toNat < w.registers.length := by omega
    have hstored := store_path (v := .nil) hsplit.right.left hstore
    have htemps' : ∀ i name site, temps[i]? = some (name, site) →
        u.scopes.Denotes 0 ⟨0, first + 1 + i⟩ site := by
      intro i name site hi
      have := htemps (i + 1) name site hi
      rwa [← Nat.add_assoc, Nat.add_right_comm] at this
    obtain ⟨v, registers, hpath, hlength', hcleared, hkept⟩ :=
      ih (w := ⟨w.pc + 1 + 2, .nil, w.registers.set reg.toNat .nil⟩) htemps' hrest
        hsplit.right.right (by simpa using hlength)
    refine ⟨v, registers, ?_, hlength', fun i hi => ?_, fun k hk => ?_⟩
    · have hend : w.pc + 1 + 2 + codeLength rest =
          w.pc + codeLength (.loadNil :: .storeRegister reg :: rest) := by
        simp only [codeLength, Instruction.length, Instruction.operands, List.length_cons,
          List.length_nil]
        omega
      rw [← hend]
      exact (hnil.trans hstored).trans hpath
    · cases i with
      | zero =>
        rw [hkept (first + 0 + 1) (.inl (by omega)), hreg]
        exact List.getElem?_set_self (by omega)
      | succ i =>
        rw [List.length_cons] at hi
        have := hcleared i (by omega)
        rwa [show first + (i + 1) + 1 = first + 1 + i + 1 by omega]
    · rw [List.length_cons] at hk
      rw [hkept k (by omega)]
      exact List.getElem?_set_ne (by omega)

/-- The temporaries of a block are known when they are set to nil. -/
theorem Holds.enter {first : Nat} {temps : List String} (hholds : r.Holds env b w.registers)
    (hlength : registers.length = r.registers)
    (above : ∀ name place, (name, place) ∈ env.stored → place.owner = 0 → place.index < first)
    (hcleared : ∀ i, i < temps.length → registers[first + i + 1]? = some .nil)
    (hkept : ∀ k, k ≤ first ∨ first + temps.length < k → registers[k]? = w.registers[k]?) :
    r.Holds (env.declare 0 first temps) (b.enter temps (temps.map fun _ => .nil)) registers where
  length := hlength
  self := by rw [hkept 0 (.inl (Nat.zero_le _)), hholds.self]
  resides := by
    refine resides_enter (resides_frame hholds.resides fun index hmem => ?_) (by simp)
      fun i v hi => ?_
    · obtain ⟨⟨name, place⟩, hentry, rfl⟩ := List.mem_map.mp hmem
      have hstored : (name, (⟨0, index⟩ : Place)) ∈ env.stored :=
        List.mem_filterMap.mpr ⟨_, hentry, rfl⟩
      exact hkept (index + 1) (.inl (above name _ hstored rfl))
    · rw [List.getElem?_map, Option.map_eq_some_iff] at hi
      obtain ⟨name, hname, rfl⟩ := hi
      exact hcleared i (List.getElem?_eq_some_iff.mp hname).1

/-- The temporaries of a block are forgotten at its end. -/
theorem Realizes.leave {x : Evaluation Value} {stop : Nat} {temps : List String} (first : Nat)
    (h : Realizes r u (env.declare 0 first temps) next w stop (x b)) :
    Realizes r u env next w stop
      ((do let v ← x; modify (·.drop temps.length); return v : Evaluation Value) b) := by
  change Realizes r u env next w stop (EStateM.bind x _ b)
  rw [EStateM.bind]
  match hx : x b, h with
  | .ok v b', h =>
    obtain ⟨registers, hpath, hholds, hkept⟩ := h
    exact ⟨registers, hpath, ⟨hholds.length, hholds.self, resides_leave hholds.resides⟩, hkept⟩
  | .error (.returned v) b', h => exact h
  | .error .stuck b', _ => trivial

theorem literal_constant {n : Int} {index : UInt8} (hs : u.Stocks p) (hserves : r.Serves p')
    (h : Emit.literal (.integer n) p = .ok index p') :
    r.constants[index.toNat]? = some (.wrapInt n) := by
  obtain ⟨-, -, c, hc, hsame⟩ := Emit.literal_spec hs (fun t ht => by cases ht) h
  refine hserves.integers _ n ?_
  rcases hsame with rfl | hsame
  · exact hc
  · rw [hc]
    cases c with
    | integer n' => rw [show n = n' by simpa [Constant.same] using hsame]
    | string | symbol | array | block => simp [Constant.same] at hsame

/-- An operator on a value that waits in a register and one that comes after it. -/
theorem Realizes.operate {x y : Evaluation Value} {op : BinaryOp} {first rest : List Instruction}
    (hr : r.Hosts u) (henv : env.Registered u.scope.vars.size) (hnext : u.firstTemp ≤ next)
    (hlimit : next < maxRegisters) (hhigh : next < r.registers)
    (hat : r.At w.pc
      (first ++ [.storeRegister next.toUInt8] ++ rest ++ [.binaryOp next.toUInt8 op]))
    (hx : Realizes r u env next w (w.pc + codeLength first) (x b))
    (hy : ∀ w' b', r.Holds env b' w'.registers → r.At w'.pc rest →
      Realizes r u env (next + 1) w' (w'.pc + codeLength rest) (y b')) :
    Realizes r u env next w (w.pc + codeLength
      (first ++ [.storeRegister next.toUInt8] ++ rest ++ [.binaryOp next.toUInt8 op]))
      ((do let v ← x; let v' ← y; orStuck (op.apply r.setting v v')) b) := by
  have hreg : next.toUInt8.toNat = next := ScopeTree.toNat_size_toUInt8 hlimit
  have hfirst := hr.firstTemp
  have hrest := hat.left.right
  have hlast := hat.right
  simp only [codeLength_append, ← Nat.add_assoc] at hrest hlast ⊢
  refine hx.bind (Nat.le_refl _) fun v b' registers hholds _ => ?_
  have hlength := hholds.length
  have hstore : next.toUInt8.toNat < registers.length := by omega
  have hpath := store_path (v := v) hat.left.left.right hstore
  rw [hreg] at hpath
  refine .after hpath (keeps_set (.inr (Nat.le_refl _))) ?_
  refine (hy _ b' (hholds.stash henv (by omega)) hrest).bind (Nat.le_succ _)
    fun v' b'' registers' hholds' hkept => ?_
  -- the register of the first value lies below those that the second one may use
  have hwaiting : registers'[next]? = some v := by
    rw [hkept next hnext (Nat.lt_succ_self _)]
    exact List.getElem?_set_self (by omega)
  exact .of_option fun result hresult => .load hlast hholds' fun pc => by
    simp [Window.execute, hreg, hwaiting, hresult]

def leavesOn : ControlForm → Bool
  | .ifFalse | .ifFalseIfTrue | .whileFalseDo => true
  | _ => false

theorem leaving_eq (form : ControlForm) (offset : Int16) :
    Emit.leaving form offset = branchIf (leavesOn form) offset := by
  cases form <;> rfl

section Loops

variable {c : Setting} {form : ControlForm} {fuel : Nat} {receiver body : Expr}

theorem evaluateControl_loop (h : form = .whileTrueDo ∨ form = .whileFalseDo) :
    evaluateControl c (fuel + 1) form receiver [body] = (do
      if c.truthy (← evaluateBlock c fuel receiver) = leavesOn form then return Value.nil
      else
        let _ ← evaluateBlock c fuel body
        evaluateControl c fuel form receiver [body]) := by
  rcases h with rfl | rfl
  · simp only [evaluateControl, leavesOn]
    congr 1
    funext v
    cases c.truthy v <;> rfl
  · simp only [evaluateControl, leavesOn]
    rfl

theorem evaluateControl_repeat :
    evaluateControl c (fuel + 1) .whileFalse receiver [] = (do
      if c.truthy (← evaluateBlock c fuel receiver) = false then
        evaluateControl c fuel .whileFalse receiver []
      else return Value.nil) := by
  rw [evaluateControl]
  congr 1
  funext v
  cases c.truthy v <;> rfl

end Loops

inductive Controls (names : List String) (form : ControlForm) (receiver : Expr)
    (args : List Expr) : Prop where
  | conditional : form.isLoop = false → FirstOrder names receiver → FirstOrderBlocks names args →
    Controls names form receiver args
  | loop : form.isLoop = true → FirstOrderBlocks names (receiver :: args) →
    Controls names form receiver args

mutual

theorem expr_realizes {u : CodeUnit} {env : Env} {names : List String} {e : Expr}
    {n : Node Binding} {inPlace : Bool} {next : Nat} {p p' : Pool} {code : List Instruction}
    {w : Window} {b : Bindings} (fuel : Nat) (hr : r.Hosts u)
    (henv : env.Knows names u.scope.vars.size) (hs : u.Stocks p) (hserves : r.Serves p')
    (hnext : u.firstTemp ≤ next) (he : FirstOrder names e)
    (hb : u.scopes.Binds 0 inPlace env e n) (hcode : Emit.expr u next n p = .ok code p')
    (hat : r.At w.pc code) (hholds : r.Holds env b w.registers) :
    Realizes r u env next w (w.pc + codeLength code) (evaluate r.setting fuel e b) := by
  match fuel with
  | 0 => trivial
  | fuel + 1 =>
    have hfirst := hr.firstTemp
    have hroom := hr.room
    cases he with
    | integer =>
      cases hb with
      | literal =>
        simp only [Emit.expr, bind_eq_ok, pure_eq_ok, Emit.ofExcept_eq_ok, Constant.ofLiteral]
          at hcode
        obtain ⟨c, _, ⟨hc, rfl⟩, index, _, hindex, rfl, rfl⟩ := hcode
        split at hc <;> cases hc
        rename_i hfits
        have hconstant := literal_constant hs hserves hindex
        rw [evaluate, Value.ofInt?, if_pos hfits]
        exact .load hat hholds fun pc => by simp [Window.execute, hconstant]
    | self =>
      cases hb with
      | pseudo =>
        simp only [Emit.expr, Emit.pseudo, pure_eq_ok] at hcode
        obtain ⟨rfl, rfl⟩ := hcode
        exact .load hat hholds fun pc => by simp [Window.execute, hholds.self]
    | nil | true | false =>
      cases hb with
      | pseudo =>
        simp only [Emit.expr, Emit.pseudo, pure_eq_ok] at hcode
        obtain ⟨rfl, rfl⟩ := hcode
        exact .load hat hholds fun pc => rfl
    | «variable» hname =>
      cases hb with
      | «variable» ho =>
        obtain ⟨index, reg, hplace, rfl, hreg, -⟩ := hr.register henv hname ho
        simp only [Emit.expr, Emit.load, bind_eq_ok, pure_eq_ok] at hcode
        obtain ⟨_, _, ⟨rfl, rfl⟩, rfl, rfl⟩ := hcode
        refine .of_option fun v hv => .load hat hholds fun pc => ?_
        have hvalue := resides_lookup hholds.resides hplace hv
        simp [Window.execute, hreg, hvalue]
    | assign hname hvalue =>
      cases hb with
      | assign hb ho =>
        obtain ⟨index, reg, hplace, rfl, hreg, hlt⟩ := hr.register henv hname ho
        simp only [Emit.expr, Emit.store, bind_eq_ok, pure_eq_ok] at hcode
        obtain ⟨code', _, hcode', _, _, ⟨rfl, rfl⟩, rfl, rfl⟩ := hcode
        have hfirst' := expr_realizes fuel hr henv hs hserves hnext hvalue hb hcode' hat.left hholds
        rw [evaluate]
        refine hfirst'.bind (Nat.le_refl _) fun v b' registers hholds' _ => ?_
        have hlength := hholds'.length
        have hstore : reg.toNat < registers.length := by omega
        have hpath := store_path (v := v) hat.right hstore
        rw [codeLength_append, ← Nat.add_assoc]
        refine ⟨_, hpath, ?_, keeps_set (.inl (by omega))⟩
        rw [hreg]
        exact hholds'.assign henv.apart hplace (by omega)
    | ret hvalue =>
      cases hb with
      | ret hb =>
        simp only [Emit.expr, bind_eq_ok, hr.kind, pure_eq_ok] at hcode
        obtain ⟨code', _, hcode', rfl, rfl⟩ := hcode
        have hfirst' := expr_realizes fuel hr henv hs hserves hnext hvalue hb hcode' hat.left hholds
        rw [evaluate]
        exact hfirst'.bind (Nat.le_refl _) fun v b' registers hholds' _ =>
          ⟨_, .refl, .accumulator hat.right⟩
    | operator hop hreceiver harg =>
      cases hb with
      | control hsome => rw [ControlForm.recognize_operator hop] at hsome; cases hsome
      | send _ hreceiver' hargs =>
        obtain _ | ⟨harg', _ | _⟩ := hargs
        obtain ⟨first, p₁, hreceiver'', ⟨op', reg, p₂, rest, regs, hop', -, hreg, hrest, rfl⟩ |
          ⟨_, _, _, hzero, _⟩ | ⟨_, _, _, _, _, _, _, _, hsome, _⟩⟩ := Emit.expr_send_cases hcode
        · obtain rfl := Option.some.inj (hop.symm.trans hop')
          have hcode' := Emit.expr_emits hr.covers hs _ hreceiver' hreceiver''
          obtain ⟨rfl, hregs, hhigh, hs₂, hgrows⟩ := Emit.allocTemp_spec hcode'.stocks hreg
          simp only [Emit.operands, bind_eq_ok, List.isEmpty_nil, if_true, pure_eq_ok,
            Prod.mk.injEq] at hrest
          obtain ⟨_, _, hrest, ⟨rfl, rfl⟩, rfl⟩ := hrest
          have hgrows' := (Emit.expr_emits hr.covers hs₂ _ harg' hrest).grows
          have hserves₁ := hserves.of_grows (hgrows.trans hgrows')
          rw [hr.call] at hat ⊢
          simp only [evaluate, ControlForm.ofSelector?_eq_none hop, hop]
          have hx := expr_realizes fuel hr henv hs hserves₁ hnext hreceiver hreceiver' hreceiver''
            hat.left.left.left hholds
          refine .operate hr henv.toRegistered hnext hregs ?_ hat hx fun w' b' hholds' hat' => ?_
          · exact Nat.lt_of_lt_of_le hhigh (Nat.le_trans hgrows'.high hserves.high)
          · exact expr_realizes fuel hr henv hs₂ hserves (Nat.le_succ_of_le hnext) harg harg' hrest
              hat' hholds'
        · cases hzero
        · simp [hop] at hsome
    | conditional hform hloop hargs hreceiver hblocks =>
      cases hb with
      | send hnone =>
        rw [ControlForm.recognize_conditional hform hloop hblocks] at hnone
        cases hnone
      | control hsome hreceiver' hargs' =>
        rw [ControlForm.recognize_conditional hform hloop hblocks] at hsome
        cases hsome
        simp only [evaluate, hform]
        exact control_realizes fuel hr henv hs hserves hnext
          (.conditional hloop hreceiver hblocks) hreceiver' hargs' hcode hat hholds
    | loop hform hloop hargs hblocks =>
      cases hb with
      | send hnone => rw [ControlForm.recognize_loop hform hblocks] at hnone; cases hnone
      | control hsome hreceiver' hargs' =>
        rw [ControlForm.recognize_loop hform hblocks] at hsome
        cases hsome
        simp only [evaluate, hform]
        exact control_realizes fuel hr henv hs hserves hnext (.loop hloop hblocks) hreceiver' hargs'
          hcode hat hholds
termination_by structural fuel

theorem control_realizes {u : CodeUnit} {env : Env} {names : List String} {form : ControlForm}
    {receiver : Expr} {args : List Expr} {receiver' : Node Binding} {args' : List (Node Binding)}
    {next : Nat} {p p' : Pool} {code : List Instruction} {w : Window} {b : Bindings} (fuel : Nat)
    (hr : r.Hosts u) (henv : env.Knows names u.scope.vars.size) (hs : u.Stocks p)
    (hserves : r.Serves p') (hnext : u.firstTemp ≤ next)
    (hc : Controls names form receiver args)
    (hreceiver : u.scopes.Binds 0 true env receiver receiver')
    (hargs : u.scopes.BindsAll 0 true env args args')
    (hcode : Emit.expr u next (.control form receiver' args') p = .ok code p')
    (hat : r.At w.pc code) (hholds : r.Holds env b w.registers) :
    Realizes r u env next w (w.pc + codeLength code)
      (evaluateControl r.setting fuel form receiver args b) := by
  match fuel with
  | 0 => trivial
  | fuel + 1 =>
    cases form with
    | ifTrue | ifFalse =>
      match args, hargs with
      | [], _ | _ :: _ :: _, _ => trivial
      | [arm], .cons harm .nil =>
        simp only [Emit.expr, Emit.arm, bind_eq_ok, pure_eq_ok, if_true] at hcode
        obtain ⟨first, p₁, hfirst, body, p₂, hbody, past, _, hpast, rfl, rfl⟩ := hcode
        obtain ⟨hpast, rfl⟩ := Emit.skip_eq_ok hpast
        obtain ⟨-, hrec, hblocks⟩ | ⟨hloop, -⟩ := hc
        · have hemits := Emit.expr_emits hr.covers hs _ hreceiver hfirst
          have hgrows := (Emit.inPlace_emits hr.covers hemits.stocks _ harm hbody).grows
          rw [List.append_cons] at hat ⊢
          rw [leaving_eq] at hat ⊢
          have hcond := expr_realizes fuel hr henv hs (hserves.of_grows hgrows) hnext hrec hreceiver
            hfirst hat.left.left.left.left hholds
          rw [evaluateControl]
          refine .either _ hr.short hat (by omega) rfl hcond ?_ ?_
          · intro w' b' hholds' htruth hat'
            simp only [leavesOn, ne_eq, Bool.not_eq_true, Bool.not_eq_false] at htruth
            simp only [htruth, if_true, Bool.false_eq_true, if_false]
            exact block_realizes fuel hr henv hemits.stocks hserves hnext hblocks harm hbody hat'
              hholds'
          · intro w' b' hholds' htruth hat'
            simp only [leavesOn] at htruth
            simp only [htruth, if_true, Bool.false_eq_true, if_false]
            exact .load hat' hholds' fun _ => rfl
        · cases hloop
    | ifTrueIfFalse | ifFalseIfTrue =>
      match args, hargs with
      | [], _ | [_], _ | _ :: _ :: _ :: _, _ => trivial
      | [yes, no], .cons hyes (.cons hno .nil) =>
        simp only [Emit.expr, Emit.arm, bind_eq_ok, pure_eq_ok, if_true, Nat.one_ne_zero, if_false,
          Nat.sub_self] at hcode
        obtain ⟨first, p₁, hfirst, body, p₂, hbody, past, _, hpast, body', p₃, hbody', out, _, hout,
          rfl, rfl⟩ := hcode
        obtain ⟨hpast, rfl⟩ := Emit.skip_eq_ok hpast
        obtain ⟨hout, rfl⟩ := Emit.skip_eq_ok hout
        obtain ⟨-, hrec, hblocks⟩ | ⟨hloop, -⟩ := hc
        · have hemits := Emit.expr_emits hr.covers hs _ hreceiver hfirst
          have hemits' := Emit.inPlace_emits hr.covers hemits.stocks _ hyes hbody
          have hserves' := hserves.of_grows
            (Emit.inPlace_emits hr.covers hemits'.stocks _ hno hbody').grows
          rw [leaving_eq] at hat ⊢
          have hcond := expr_realizes fuel hr henv hs (hserves'.of_grows hemits'.grows) hnext hrec
            hreceiver hfirst hat.left.left.left.left hholds
          rw [evaluateControl]
          refine .either _ hr.short hat (by omega) (by omega) hcond ?_ ?_
          · intro w' b' hholds' htruth hat'
            simp only [leavesOn, ne_eq, Bool.not_eq_true, Bool.not_eq_false] at htruth
            simp only [htruth, if_true, Bool.false_eq_true, if_false]
            exact block_realizes fuel hr henv hemits.stocks hserves' hnext hblocks hyes hbody hat'
              hholds'
          · intro w' b' hholds' htruth hat'
            simp only [leavesOn] at htruth
            simp only [htruth, if_true, Bool.false_eq_true, if_false]
            cases hblocks with
            | cons _ hblocks =>
              exact block_realizes fuel hr henv hemits'.stocks hserves hnext hblocks hno hbody' hat'
                hholds'
        · cases hloop
    | and =>
      match args, hargs with
      | [], _ | _ :: _ :: _, _ => trivial
      | [arm], .cons harm .nil =>
        simp only [Emit.expr, Emit.arm, bind_eq_ok, pure_eq_ok, if_true] at hcode
        obtain ⟨first, p₁, hfirst, body, p₂, hbody, past, _, hpast, rfl, rfl⟩ := hcode
        obtain ⟨hpast, rfl⟩ := Emit.skip_eq_ok hpast
        obtain ⟨-, hrec, hblocks⟩ | ⟨hloop, -⟩ := hc
        · have hemits := Emit.expr_emits hr.covers hs _ hreceiver hfirst
          have hgrows := (Emit.inPlace_emits hr.covers hemits.stocks _ harm hbody).grows
          rw [leaving_eq] at hat ⊢
          have hcond := expr_realizes fuel hr henv hs (hserves.of_grows hgrows) hnext hrec hreceiver
            hfirst hat.left.left hholds
          rw [evaluateControl]
          refine .guarded _ hr.short hat (by omega) hcond ?_ ?_
          · intro w' b' hholds' htruth hat'
            simp only [leavesOn, ne_eq, Bool.not_eq_false] at htruth
            simp only [htruth, if_true]
            exact block_realizes fuel hr henv hemits.stocks hserves hnext hblocks harm hbody hat'
              hholds'
          · intro v b' htruth
            simp only [leavesOn] at htruth
            simp only [htruth, Bool.false_eq_true, if_false]
            rfl
        · cases hloop
    | whileTrueDo | whileFalseDo =>
      match args, hargs with
      | [], _ | _ :: _ :: _, _ => trivial
      | [arm], .cons harm .nil =>
        have hcode' := hcode
        simp only [Emit.expr, Emit.arm, bind_eq_ok, pure_eq_ok, if_true] at hcode
        obtain ⟨first, p₁, hfirst, body, p₂, hbody, again, _, hagain, out, _, hout, rfl, rfl⟩ :=
          hcode
        obtain ⟨hagain, rfl⟩ := Emit.back_eq_ok hagain
        obtain ⟨hout, rfl⟩ := Emit.skip_eq_ok hout
        obtain ⟨hloop, -⟩ | ⟨hloop, hblocks⟩ := hc
        · cases hloop
        · have hemits := Emit.inPlace_emits hr.covers hs _ hreceiver hfirst
          have hgrows := (Emit.inPlace_emits hr.covers hemits.stocks _ harm hbody).grows
          rw [List.append_cons, leaving_eq] at hat hcode' ⊢
          have hcond := block_realizes fuel hr henv hs (hserves.of_grows hgrows) hnext hblocks
            hreceiver hfirst hat.left.left.left.left hholds
          rw [evaluateControl_loop (by simp)]
          refine .loop _ hr.short hat (by omega) (by omega) hcond ?_ ?_
          · intro w' b' hholds' hat'
            cases hblocks with
            | cons _ hblocks =>
              exact block_realizes fuel hr henv hemits.stocks hserves hnext hblocks harm hbody hat'
                hholds'
          · intro w' b' hpc hholds'
            rw [← hpc] at hat ⊢
            exact control_realizes fuel hr henv hs hserves hnext (.loop hloop hblocks) hreceiver
              (.cons harm .nil) hcode' hat hholds'
    | whileTrue =>
      match args, hargs with
      | _ :: _, _ => trivial
      | [], .nil =>
        have hcode' := hcode
        simp only [Emit.expr, bind_eq_ok, pure_eq_ok] at hcode
        obtain ⟨first, p₁, hfirst, again, _, hagain, rfl, rfl⟩ := hcode
        obtain ⟨hagain, rfl⟩ := Emit.back_eq_ok hagain
        obtain ⟨hloop, -⟩ | ⟨hloop, hblocks⟩ := hc
        · cases hloop
        · have hcond := block_realizes fuel hr henv hs hserves hnext hblocks hreceiver hfirst
            hat.left hholds
          rw [List.append_cons] at hat hcode' ⊢
          rw [evaluateControl]
          refine .repeated true hr.short hat (by omega) hcond fun w' b' hpc hholds' => ?_
          rw [← hpc] at hat ⊢
          exact control_realizes fuel hr henv hs hserves hnext (.loop hloop hblocks) hreceiver .nil
            hcode' hat hholds'
    | whileFalse =>
      match args, hargs with
      | _ :: _, _ => trivial
      | [], .nil =>
        have hcode' := hcode
        simp only [Emit.expr, bind_eq_ok, pure_eq_ok] at hcode
        obtain ⟨first, p₁, hfirst, again, _, hagain, rfl, rfl⟩ := hcode
        obtain ⟨hagain, rfl⟩ := Emit.back_eq_ok hagain
        obtain ⟨hloop, -⟩ | ⟨hloop, hblocks⟩ := hc
        · cases hloop
        · have hcond := block_realizes fuel hr henv hs hserves hnext hblocks hreceiver hfirst
            hat.left hholds
          rw [List.append_cons] at hat hcode' ⊢
          rw [evaluateControl_repeat]
          refine .repeated false hr.short hat (by omega) hcond fun w' b' hpc hholds' => ?_
          rw [← hpc] at hat ⊢
          exact control_realizes fuel hr henv hs hserves hnext (.loop hloop hblocks) hreceiver .nil
            hcode' hat hholds'
termination_by structural fuel

theorem block_realizes {u : CodeUnit} {env : Env} {names : List String} {e : Expr}
    {rest : List Expr} {n : Node Binding} {next : Nat} {p p' : Pool} {code : List Instruction}
    {w : Window} {b : Bindings} (fuel : Nat) (hr : r.Hosts u)
    (henv : env.Knows names u.scope.vars.size) (hs : u.Stocks p) (hserves : r.Serves p')
    (hnext : u.firstTemp ≤ next) (he : FirstOrderBlocks names (e :: rest))
    (hb : u.scopes.Binds 0 true env e n) (hcode : Emit.inPlace u next n p = .ok code p')
    (hat : r.At w.pc code) (hholds : r.Holds env b w.registers) :
    Realizes r u env next w (w.pc + codeLength code) (evaluateBlock r.setting fuel e b) := by
  match fuel with
  | 0 => trivial
  | fuel + 1 =>
    cases he with
    | cons hbody _ =>
      cases hb with
      | @inlined _ _ first _ _ _ _ _ _ hi htemps hbinds =>
        simp only [Emit.inPlace, bind_eq_ok, pure_eq_ok] at hcode
        obtain ⟨clear, p₁, hclear, code', _, hcode', rfl, rfl⟩ := hcode
        obtain rfl := Option.some.inj (hr.covers.found.symm.trans hi.found)
        have hcleared := Emit.clearTemps_emits hs (fun temp hmem => by
          obtain ⟨i, hi⟩ := List.getElem?_of_mem hmem
          exact hr.covers.reaches_of_denotes (htemps.2 i temp.1 temp.2 hi)) hclear
        have hcount := congrArg List.length htemps.1
        rw [List.length_map] at hcount
        obtain ⟨v, registers, hpath, hlength, hnil, hkept⟩ :=
          hr.clearTemps_path htemps.2 hclear hat.left hholds.length
        rw [hcount] at hnil hkept
        have hentered := hholds.enter hlength hi.above hnil hkept
        have hknows := henv.declare hi.size hi.above
        have hkeeps : Keeps u.firstTemp next w.registers registers := by
          intro k hk _
          have hfirst := hr.firstTemp
          have hsize := hi.size
          exact hkept k (.inr (by omega))
        refine .after hpath hkeeps (.leave first ?_)
        rw [codeLength_append, ← Nat.add_assoc]
        match fuel, hbinds with
        | 0, _ => trivial
        | fuel + 1, .nil => exact .load hat.right hentered fun _ => rfl
        | fuel + 1, .cons hn hns =>
          exact statements_realize (fuel + 1) .nil hr hknows hcleared.stocks hserves hnext hbody
            (.cons hn hns) hcode' hat.right hentered fun h => nomatch h
termination_by structural fuel

theorem statements_realize {u : CodeUnit} {env : Env} {names : List String} {es : List Expr}
    {ns : List (Node Binding)} {next : Nat} {p p' : Pool} {code : List Instruction}
    {w : Window} {b : Bindings} (fuel : Nat) (last : Value) (hr : r.Hosts u)
    (henv : env.Knows names u.scope.vars.size) (hs : u.Stocks p) (hserves : r.Serves p')
    (hnext : u.firstTemp ≤ next) (he : FirstOrderAll names es)
    (hb : u.scopes.BindsAll 0 false env es ns) (hcode : Emit.statements u next ns p = .ok code p')
    (hat : r.At w.pc code) (hholds : r.Holds env b w.registers)
    (hlast : es = [] → w.accumulator = last) :
    Realizes r u env next w (w.pc + codeLength code) (evaluateAll r.setting fuel last es b) := by
  match fuel with
  | 0 => trivial
  | fuel + 1 =>
    cases he with
    | nil =>
      cases hb with
      | nil =>
        obtain ⟨rfl, rfl⟩ := pure_eq_ok.mp hcode
        rw [evaluateAll, ← hlast rfl]
        exact ⟨w.registers, .refl, hholds, Keeps.refl _ _ _⟩
    | cons he hes =>
      cases hb with
      | cons hn hns =>
        simp only [Emit.statements, bind_eq_ok, pure_eq_ok] at hcode
        obtain ⟨first, p₁, hfirst, rest, _, hrest, rfl, rfl⟩ := hcode
        have hemits := Emit.expr_emits hr.covers hs _ hn hfirst
        have hgrows := (Emit.statements_emits hr.covers hemits.stocks _ hns hrest).grows
        have hx := expr_realizes fuel hr henv hs (hserves.of_grows hgrows) hnext he hn hfirst
          hat.left hholds
        rw [evaluateAll, codeLength_append, ← Nat.add_assoc]
        refine hx.bind (Nat.le_refl _) fun v b' registers hholds' _ => ?_
        exact statements_realize fuel v hr henv hemits.stocks hserves hnext hes hns hrest hat.right
          hholds' fun _ => rfl
termination_by structural fuel

end

end Routine

/-- Statements that end with a return do not fall off their end. -/
theorem evaluateAll_ne_ok {c : Setting} {es : List Expr} (h : es.getLast?.any Expr.isReturn = true)
    (fuel : Nat) (last v : Value) (b b' : Bindings) : evaluateAll c fuel last es b ≠ .ok v b' := by
  induction es generalizing fuel last b with
  | nil => cases h
  | cons e es ih =>
    intro heq
    match fuel with
    | 0 => cases heq
    | fuel + 1 =>
      rw [evaluateAll, bind_eq_ok] at heq
      obtain ⟨v', b₁, he, hes⟩ := heq
      cases es with
      | nil =>
        cases e with
        | ret value =>
          match fuel with
          | 0 => cases he
          | fuel + 1 => simp only [evaluate, bind_eq_ok, throw_eq_ok, and_false, exists_false] at he
        | _ => simp [Expr.isReturn] at h
      | cons e' es => exact ih (by rwa [List.getLast?_cons_cons] at h) fuel v' b₁ hes

namespace CodeUnit.Renders

variable {u : CodeUnit} {m : Method} {ns : List (Node Binding)} {code : List Instruction} {p : Pool}
  {r : Routine} {args registers : List Value} {fuel : Nat} {v accumulator : Value}

theorem answers (h : u.Renders m ns code p) (hm : m.FirstOrder)
    (hcode : r.code = code ++ if m.endsWithReturn then [] else [.returnSelf])
    (hshort : codeLength r.code < wordModulus) (hserves : r.Serves p)
    (hargs : args.length = m.params.length) (hlength : registers.length = r.registers)
    (hself : registers[0]? = some r.setting.self)
    (hvalues : ∀ i v, (args ++ m.temps.map fun _ => .nil)[i]? = some v →
      registers[i + 1]? = some v)
    (hv : m.evaluate r.setting args fuel = some v) :
    ∃ w, r.Path ⟨0, accumulator, registers⟩ w ∧ r.Answers v w := by
  have hemits := Emit.statements_emits h.covers u.stocks_empty ns h.binds h.emitted
  have hhosts : r.Hosts u :=
    ⟨h.toRegistered, hshort, Nat.le_trans hemits.grows.high hserves.high⟩
  have hholds : r.Holds (Env.declare [] 0 0 (m.params ++ m.temps))
      (Bindings.enter (m.params ++ m.temps) (args ++ m.temps.map fun _ => .nil) []) registers :=
    ⟨hlength, hself, resides_enter .nil (by simp [hargs]) fun i v hi => by
      rw [Nat.zero_add]
      exact hvalues i v hi⟩
  have hat : r.At 0 (code ++ if m.endsWithReturn then [] else [.returnSelf]) :=
    ⟨[], [], by simp [hcode], rfl⟩
  rw [Method.evaluate] at hv
  by_cases hempty : m.body = []
  · -- nothing is executed before the receiver is returned
    have hbinds := h.binds
    have hemitted := h.emitted
    rw [hempty] at hbinds hv
    cases hbinds
    obtain ⟨rfl, -⟩ := pure_eq_ok.mp hemitted
    have hfalls : m.endsWithReturn = false := by rw [Method.endsWithReturn, hempty]; rfl
    rw [hfalls] at hat
    cases fuel with
    | zero => cases hv
    | succ fuel =>
      rw [evaluateAll] at hv
      obtain rfl := Option.some.inj hv
      exact ⟨_, .refl, .self hat hself⟩
  · have hresult := Routine.statements_realize (w := ⟨0, accumulator, registers⟩) fuel .nil hhosts
      h.knows u.stocks_empty hserves (Nat.le_refl _) hm h.binds h.emitted hat.left hholds
      fun hnil => absurd hnil hempty
    revert hresult hv
    generalize hend : evaluateAll r.setting fuel .nil m.body _ = result
    intro hv hresult
    rcases result with ⟨v', b⟩ | ⟨stop, b⟩
    · have hfalls : m.endsWithReturn = false := by
        rw [← Bool.not_eq_true]
        exact fun hreturn => evaluateAll_ne_ok hreturn _ _ _ _ _ hend
      rw [hfalls] at hat
      obtain rfl := Option.some.inj hv
      obtain ⟨registers', hpath, hholds', -⟩ := hresult
      exact ⟨_, hpath, .self hat.right hholds'.self⟩
    · cases stop with
      | returned v' =>
        obtain rfl := Option.some.inj hv
        exact hresult
      | stuck => cases hv

end CodeUnit.Renders

end ObjectMachine
