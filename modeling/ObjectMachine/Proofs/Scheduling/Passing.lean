import ObjectMachine.Proofs.Scheduling.Keeping

namespace ObjectMachine

section Code

variable {code front middle rest before after : List Instruction} {i i' : Instruction} {p : Nat}

/-- A position behind the start of an instruction is behind the instruction. -/
theorem Boundary.beyond (h : Boundary (before ++ i :: after) p) (hp : codeLength before < p) :
    codeLength before + i.length ≤ p := by
  obtain ⟨pre, post, hsplit, hpre⟩ := h
  rcases List.append_eq_append_iff.mp hsplit with ⟨l, rfl, hl⟩ | ⟨l, rfl, -⟩
  · cases l with
    | nil => simp at hpre; omega
    | cons j l =>
      obtain ⟨rfl, -⟩ := List.cons.inj hl
      simp only [codeLength_append, codeLength] at hpre
      omega
  · rw [codeLength_append] at hp
    omega

theorem mem_positioned_middle (h : (p, i) ∈ positioned 0 (front ++ middle ++ rest))
    (hlow : codeLength front ≤ p) (hhigh : p < codeLength (front ++ middle)) :
    ∃ p', p = codeLength front + p' ∧ (p', i) ∈ positioned 0 middle := by
  have hpos := i.length_pos
  rw [positioned_append, positioned_append, List.mem_append, List.mem_append] at h
  rcases h with (h | h) | h
  · have := bounds_of_mem_positioned h
    omega
  · rw [Nat.zero_add] at h
    exact mem_positioned_zero h
  · have := bounds_of_mem_positioned h
    omega

theorem eq_of_mem_positioned (h : (codeLength before, i') ∈ positioned 0 (before ++ i :: after)) :
    i' = i := by
  have hmiddle : before ++ i :: after = before ++ [i] ++ after := by simp
  rw [hmiddle] at h
  have hpos := i.length_pos
  obtain ⟨p', hp', hmem⟩ := mem_positioned_middle h (Nat.le_refl _) (by
    simp only [codeLength_append, codeLength]
    omega)
  simp only [positioned, List.mem_singleton, Prod.mk.injEq] at hmem
  exact hmem.2

/-- Behind a stretch of code without branches out of it, one does not come back to before it as long
as one stays in the code. -/
theorem Strides.stays_beyond {pc : Nat → Nat} {last a b : Nat}
    (h : Strides (front ++ middle ++ rest) pc last) (hmiddle : Branches middle) (hab : a ≤ b)
    (hb : b ≤ last)
    (hin : ∀ t, a ≤ t → t ≤ b → 0 < pc t ∧ pc t < codeLength (front ++ middle))
    (ha : codeLength front ≤ pc a) : codeLength front ≤ pc b := by
  induction b, hab using Nat.le_induction with
  | base => exact ha
  | succ b hab ih =>
    have hbefore := ih (by omega) fun t ht ht' => hin t ht (by omega)
    rcases h.moves b (by omega) with hsame | hzero | ⟨i, hmem, hleads⟩
    · omega
    · have := hin (b + 1) (by omega) (Nat.le_refl _)
      omega
    · obtain ⟨p', hp', hmem'⟩ := mem_positioned_middle hmem hbefore (hin b hab (by omega)).2
      rcases hleads with hnext | ⟨offset, hoffset, hnext⟩
      · omega
      · obtain ⟨pre, post, -, htarget⟩ := hmiddle _ _ _ hmem' hoffset
        omega

/-- An instruction that starts behind an instruction in a stretch of code stands behind it there. -/
theorem mem_of_mem_positioned_beyond {i₀ : Instruction}
    (h : (p, i) ∈ positioned 0 (front ++ i₀ :: middle ++ rest)) (hlow : codeLength front < p)
    (hhigh : p < codeLength (front ++ i₀ :: middle)) : i ∈ middle := by
  have hpos := i.length_pos
  obtain ⟨p', hp', hmem⟩ := mem_positioned_middle h hlow.le hhigh
  rw [positioned, List.mem_cons] at hmem
  rcases hmem with heq | hmem
  · cases heq
    omega
  · exact mem_of_mem_positioned hmem

theorem offset?_of_isPrimitive (hi : i.isPrimitive = true) : i.offset? = none := by
  cases i with
  | jump | branchIfFalse | branchIfTrue => cases hi
  | _ => rfl

theorem setRegister?_of_isPrimitive (hi : i.isPrimitive = true) :
    Machine.setRegister? i = none := by
  cases i with
  | storeRegister | sync => cases hi
  | _ => rfl

end Code

structure RunsThrough (stage : Nat → Stage) (context : Nat → Value) (pc : Nat → Nat)
    (front piece : List Instruction) (began ended : Nat) (x : Value) : Prop where
  starts : pc began = codeLength front
  ends : pc ended = codeLength (front ++ piece)
  within : ∀ t, began ≤ t → t ≤ ended →
    codeLength front ≤ pc t ∧ pc t ≤ codeLength (front ++ piece)
  value : ∃ m, stage ended = .running m ∧ m.context = context ended ∧ m.accumulator = x

section Positions

variable {stage : Nat → Stage} {deed : Nat → Deed} {n : Nat} {code : List Instruction}
  {context : Nat → Value} {pc : Nat → Nat}

theorem Positions.executes (positions : Positions stage deed n code context pc) {t : Nat}
    (ht : t < n) (hmoves : pc t < pc (t + 1)) : ∃ m i m₁, stage t = .running m ∧
      m.context = context t ∧ deed t = .execute i m₁ ∧ (pc t, i) ∈ positioned 0 code := by
  rcases positions.moves t ht with hzero | ⟨hsame, -⟩ | ⟨m, i, m₁, hm, hcontext, hd, hmem, -⟩
  · omega
  · omega
  · exact ⟨m, i, m₁, hm, hcontext, hd, hmem⟩

/-- What an activation executes is what is at its position, unless it goes back to the start. -/
theorem Positions.mem_of_executes (positions : Positions stage deed n code context pc) {t : Nat}
    {m m₁ : Machine} {i : Instruction} (ht : t < n) (hnext : pc (t + 1) ≠ 0)
    (hm : stage t = .running m) (hcontext : m.context = context t)
    (hd : deed t = .execute i m₁) :
    (pc t, i) ∈ positioned 0 code ∧ i.LeadsTo (pc t) (pc (t + 1)) := by
  rcases positions.moves t ht with hzero | ⟨-, hquiet⟩ | ⟨m', i', m₁', hm', -, hd', hmem, hleads⟩
  · exact absurd hzero hnext
  · exact absurd hd (hquiet m i m₁ hm hcontext)
  · obtain ⟨rfl, -⟩ := Deed.execute.inj (hd.symm.trans hd')
    exact ⟨hmem, hleads⟩

variable {front first piece middle rest : List Instruction} {i₀ : Instruction}

/-- To come into the rest of a stretch that is shut, an activation runs through a piece before it.
-/
theorem Positions.runs_through (positions : Positions stage deed n code context pc)
    (hcode : code = front ++ (first ++ piece ++ i₀ :: middle) ++ rest)
    (hshut : Shut code (codeLength front) (codeLength (front ++ (first ++ piece ++ i₀ :: middle))))
    (hfirst : Branches first) (hpiece : Branches piece) (hmiddle : Branches middle)
    (hlow : codeLength (front ++ (first ++ piece)) ≤ pc n)
    (hhigh : pc n < codeLength (front ++ (first ++ piece ++ i₀ :: middle))) {m : Machine}
    (hm : stage n = .running m) (hcontext : m.context = context n) :
    ∃ began ended x, ended ≤ n ∧ RunsThrough stage context pc (front ++ first) piece began ended x ∧
      (∀ t, began < t → t ≤ n → pc began < pc t) ∧
      ∀ t, ended < t → t ≤ n → pc ended < pc t ∧
        pc t < codeLength (front ++ (first ++ piece ++ i₀ :: middle)) := by
  subst hcode
  have hstrides := positions.strides
  have hsplit : first ++ piece ++ i₀ :: middle = first ++ (piece ++ i₀ :: middle) := by simp
  have hstart := (hsplit ▸ hshut).gate hfirst
  have hend := hshut.gate (hfirst.append hpiece)
  rw [← hsplit] at hstart
  have hpos := i₀.length_pos
  simp only [codeLength_append] at hlow hhigh hstart hend
  obtain ⟨began, hbegan, hatStart, hlater⟩ := hstrides.exists_passing hstart (by omega) hhigh
  obtain ⟨ended, hended, hatEnd, hbehind⟩ := hstrides.exists_passing hend (by omega) hhigh
  have hle : began ≤ ended := by
    by_contra hlt
    have := hbehind began (by omega) hbegan
    omega
  -- Behind the piece there is no way back into it, and so not before its end was reached last.
  have hinside : ∀ t, began ≤ t → t ≤ ended →
      pc t ≤ codeLength front + (codeLength first + codeLength piece) := by
    intro t hbt hte
    by_contra hover
    have hshape : front ++ (first ++ piece ++ i₀ :: middle) ++ rest =
        front ++ (first ++ piece) ++ i₀ :: (middle ++ rest) := by simp
    have hbeyond := (hshape ▸ (positions.stands t (by omega)).2).beyond (by
      simp only [codeLength_append]
      omega)
    have hshape' : front ++ (first ++ piece ++ i₀ :: middle) ++ rest =
        front ++ (first ++ piece) ++ [i₀] ++ middle ++ rest := by simp
    have hstays := (hshape' ▸ hstrides).stays_beyond hmiddle hte hended (fun t' ht' ht'' => by
      have hpast : began < t' ∨ t' = began := by omega
      rcases hpast with hpast | rfl
      · have := hlater t' hpast (by omega)
        simp only [codeLength_append, codeLength]
        simp only [codeLength] at this
        omega
      · obtain rfl : t = t' := by omega
        omega) (by
      simp only [codeLength_append, codeLength] at hbeyond ⊢
      omega)
    simp only [codeLength_append, codeLength] at hstays
    omega
  refine ⟨began, ended, ?_⟩
  have hvalue : ∃ m, stage ended = .running m ∧ m.context = context ended := by
    rcases Nat.eq_or_lt_of_le hended with rfl | hlt
    · exact ⟨m, hm, hcontext⟩
    · have := hbehind (ended + 1) (Nat.lt_succ_self _) hlt
      obtain ⟨m', _, _, hm', hcontext', -, -⟩ := positions.executes hlt (by omega)
      exact ⟨m', hm', hcontext'⟩
  obtain ⟨m', hm', hcontext'⟩ := hvalue
  refine ⟨m'.accumulator, hended, ⟨?_, ?_, fun t hbt hte => ?_, m', hm', hcontext', rfl⟩,
    fun t hbt htn => ?_, fun t het htn => ?_⟩
  · rw [hatStart, codeLength_append]
  · rw [hatEnd]
    simp only [codeLength_append]
    omega
  · have hupper := hinside t hbt hte
    simp only [codeLength_append]
    rcases Nat.eq_or_lt_of_le hbt with rfl | hlt
    · omega
    · have := hlater t hlt (by omega)
      omega
  · rw [hatStart]
    exact (hlater t hbt htn).1
  · rw [hatEnd]
    simpa only [codeLength_append] using hbehind t het htn

end Positions

section Sites

variable {u : CodeUnit} {literals : List Constant} {name : String} {args : List Expr}
  {prim : Primitive} {s : CallSite} {next k : Nat} {codes : List (List Instruction)}
  {piece : List Instruction} {r : UInt8}

theorem branches_stashed (h : ∀ code ∈ codes, Branches code) : Branches (stashed next codes) := by
  induction codes generalizing next with
  | nil => exact branches_of_offset_none nofun
  | cons code rest ih =>
    have hstore : Branches [.storeRegister next.toUInt8] :=
      branches_of_offset_none (List.forall_mem_singleton.mpr rfl)
    exact ((h code (.head _)).append hstore).append (ih fun c hc => h c (.tail _ hc))

/-- Code for later registers leaves an earlier one alone. -/
theorem stashed_spares (hlow : u.firstTemp ≤ r.toNat) (hr : r.toNat < next)
    (hroom : codes ≠ [] → next + codes.length ≤ maxRegisters)
    (h : ∀ j code, codes[j]? = some code → ∀ i ∈ code, u.Respects (next + j) i) :
    ∀ i ∈ stashed next codes, Machine.setRegister? i ≠ some r := by
  induction codes generalizing next with
  | nil => exact nofun
  | cons code rest ih =>
    have hlast := hroom (List.cons_ne_nil _ _)
    rw [List.length_cons] at hlast
    intro i hi
    simp only [stashed, List.append_assoc, List.mem_append, List.mem_singleton] at hi
    rcases hi with hi | rfl | hi
    · intro hset
      rcases h 0 code rfl i hi r hset with hbelow | habove <;> omega
    · intro hset
      have hsame : next.toUInt8.toNat = r.toNat := by rw [Option.some.inj hset]
      have hnext : next < 256 := by
        rw [maxRegisters] at hlast
        omega
      rw [Nat.toUInt8_eq, UInt8.toNat_ofNat_of_lt' hnext] at hsame
      omega
    · have hlater : ∀ j c, rest[j]? = some c → ∀ i ∈ c, u.Respects (next + 1 + j) i := by
        intro j c hc
        have := h (j + 1) c hc
        rwa [show next + (j + 1) = next + 1 + j by omega] at this
      exact ih (by omega) (fun _ => by omega) hlater i hi

/-- The code behind the value of an argument: it is put into a register, or it stays in the
accumulator. -/
inductive CallSite.Follows (u : CodeUnit) (s : CallSite) (k : Nat) (piece : List Instruction) :
    Prop where
  | stored {r : UInt8} {tail : List Instruction} : k < s.stored.length → r.toNat = s.next + k →
    s.evaluation = stashed s.next (s.stored.take k) ++ piece ++ .storeRegister r :: tail →
    Branches (tail ++ u.call s.call) →
    (∀ i ∈ tail ++ u.call s.call, Machine.setRegister? i ≠ some r) → Follows u s k piece
  | kept : k = s.stored.length → s.evaluation = stashed s.next (s.stored.take k) ++ piece →
    Follows u s k piece

theorem CallSite.Follows.exists_rest (h : s.Follows u k piece) :
    ∃ rest, s.code u = stashed s.next (s.stored.take k) ++ piece ++ rest := by
  cases h with
  | stored _ _ heval => exact ⟨_, by rw [CallSite.code, heval, List.append_assoc]⟩
  | kept _ heval => exact ⟨_, by rw [CallSite.code, heval]⟩

theorem stashed_take_succ (hk : k < s.stored.length) (hpiece : s.values[k]? = some piece) :
    stashed next (s.stored.take (k + 1)) =
      stashed next (s.stored.take k) ++ piece ++ [.storeRegister (next + k).toUInt8] := by
  rw [CallSite.values, List.getElem?_append_left hk] at hpiece
  rw [List.take_add_one, hpiece, stashed_append, List.length_take, Nat.min_eq_left hk.le]
  simp [stashed]

theorem CodeUnit.Passes.follows (h : u.Passes literals name args prim s)
    (hcall : s.call.isPrimitive = true) (hk : s.values[k]? = some piece) :
    s.Follows u k piece := by
  rw [CallSite.values] at hk
  by_cases hlt : k < s.stored.length
  swap
  · -- It is the value that is kept.
    rw [List.getElem?_append_right (by omega)] at hk
    cases hkept : s.kept with
    | none => simp [hkept] at hk
    | some code =>
      obtain ⟨hzero, rfl⟩ : k - s.stored.length = 0 ∧ code = piece := by
        simpa [hkept, List.getElem?_singleton, eq_comm] using hk
      obtain rfl : k = s.stored.length := by omega
      exact .kept rfl (by rw [CallSite.evaluation, hkept, List.take_length]; rfl)
  rw [List.getElem?_append_left hlt] at hk
  have hroom := h.room (List.ne_nil_of_length_pos (by omega))
  have hsmall : s.next + k < 256 := by
    rw [maxRegisters] at hroom
    omega
  have hreg : (s.next + k).toUInt8.toNat = s.next + k := UInt8.toNat_ofNat_of_lt' hsmall
  have hsplit : s.stored = s.stored.take k ++ piece :: s.stored.drop (k + 1) := by
    obtain ⟨_, hget⟩ := List.getElem?_eq_some_iff.mp hk
    rw [← hget, ← List.drop_eq_getElem_cons, List.take_append_drop]
  have htail : ∀ j code, (s.stored.drop (k + 1) ++ s.kept.toList)[j]? = some code →
      ∀ i ∈ code, u.Respects (s.next + k + 1 + j) i := by
    intro j code hj
    have hvalues : s.values =
        s.stored.take (k + 1) ++ (s.stored.drop (k + 1) ++ s.kept.toList) := by
      rw [CallSite.values, ← List.append_assoc, List.take_append_drop]
    have := h.supplies.respects (k + 1 + j) code (by
      rw [hvalues, List.getElem?_append_right (by rw [List.length_take]; omega), List.length_take,
        Nat.min_eq_left hlt, Nat.add_sub_cancel_left]
      exact hj)
    rwa [← Nat.add_assoc, ← Nat.add_assoc] at this
  have hsynced : ∀ i ∈ u.sync, Machine.setRegister? i ≠ some (s.next + k).toUInt8 := by
    intro i hi hset
    obtain ⟨x, hx, rfl⟩ := List.mem_map.mp hi
    have hbelow := h.synced x hx
    have hlow := h.low
    have hsame : x.reg = (s.next + k).toUInt8 := Option.some.inj hset
    rw [hsame] at hbelow
    omega
  have hbranches := h.supplies.branches
  have hmem : ∀ code ∈ s.stored, code ∈ s.values := fun c hc => List.mem_append_left _ hc
  have hstashed : stashed s.next s.stored = stashed s.next (s.stored.take k) ++
      (piece ++ [.storeRegister (s.next + k).toUInt8] ++
        stashed (s.next + k + 1) (s.stored.drop (k + 1))) := by
    conv_lhs => rw [hsplit, stashed_append, List.length_take, Nat.min_eq_left hlt.le]
    rfl
  have heval : s.evaluation = stashed s.next (s.stored.take k) ++ piece ++
      .storeRegister (s.next + k).toUInt8 ::
        (stashed (s.next + k + 1) (s.stored.drop (k + 1)) ++ s.kept.getD []) := by
    rw [CallSite.evaluation, hstashed]
    simp
  refine .stored hlt hreg heval ?_ fun i hi hset => ?_
  · refine ((branches_stashed fun c hc => hbranches c (hmem c (List.mem_of_mem_drop hc))).append
      ?_).append (branches_of_offset_none (Emit.straight_call (offset?_of_isPrimitive hcall)))
    cases hkept : s.kept with
    | none => exact branches_of_offset_none (by simp)
    | some code => exact hbranches code (by simp [CallSite.values, hkept])
  · have hlow := h.low
    simp only [CodeUnit.call, List.mem_append, List.mem_singleton] at hi
    rcases hi with (hi | hi) | (hi | rfl) | hi
    · refine stashed_spares (u := u) (by omega) (by omega) (fun _ => ?_)
        (fun j code hj => ?_) i hi hset
      · rw [List.length_drop]
        omega
      · exact htail j code (List.getElem?_append_left (List.getElem?_eq_some_iff.mp hj).1 ▸ hj)
    · cases hkept : s.kept with
      | none => simp [hkept] at hi
      | some code =>
        rw [hkept, Option.getD_some] at hi
        rcases htail (s.stored.drop (k + 1)).length code (by simp [hkept]) i hi _ hset with
          hbelow | habove <;> omega
    · exact hsynced i hi hset
    · rw [setRegister?_of_isPrimitive hcall] at hset
      cases hset
    · exact hsynced i hi hset

end Sites

section Arguments

variable {stage : Nat → Stage} {deed : Nat → Deed} {track : Nat → Track} {n k : Nat}
  {code front rest piece : List Instruction} {context process : Nat → Value} {pc : Nat → Nat}
  {u : CodeUnit} {literals : List Constant} {name : String} {args : List Expr} {prim : Primitive}
  {s : CallSite} {m : Machine}

/-- A value that is in the accumulator before an instruction that puts it into a register is there
as long as nothing sets the register. -/
theorem Activated.stored_along {r : UInt8} {ended : Nat} {x : Value}
    (activated : Activated stage deed track n (encodeAll code).toArray context process)
    (history : History stage deed track n) (hended : ended < n) {m₀ m₁ : Machine}
    (hm₀ : stage ended = .running m₀) (hcontext : m₀.context = context ended)
    (hx : m₀.accumulator = x) (hdeed : deed ended = .execute (.storeRegister r) m₁)
    (hspares : ∀ t, ended < t → t < n → ∀ m i m₁, stage t = .running m → m.context = context t →
      deed t = .execute i m₁ → Machine.setRegister? i ≠ some r) :
    ∃ y, Track.along track ended (n - ended) x y ∧
      (stage n).heap.Holds ⟨context n, Slot.Context.registers + r.toNat⟩ y := by
  have hs := history.sound_at hended.le
  have hstep := history.step ended hended
  have hmoved := activated.context_moved ended hended
  have hgoes := activated.carries_on ended hended (by rw [hm₀]; exact hcontext)
  rw [hm₀] at hs hstep
  rw [hdeed] at hstep hgoes
  cases hafter : stage (ended + 1) with
  | idle =>
    rw [hafter] at hstep
    cases hstep
  | failed =>
    rw [hafter] at hgoes
    exact absurd (.inl ⟨_, rfl⟩) hgoes
  | running m' =>
    rw [hafter] at hstep
    generalize htrack : track ended = t at hstep hmoved
    cases hstep with
    | execute hstop hf hpaused heq =>
      cases hpaused with
      | pausing hpauses => exact absurd hpauses (by simp [Machine.Pauses, Machine.call?])
      | straight _ =>
        have hstored := Machine.execute_storeRegister_rewrites (hf.intact hs.1) heq
        obtain ⟨_, _, _, _, rfl⟩ := hf.eq
        have hheld : (stage (ended + 1)).heap.Holds
            ⟨context (ended + 1), Slot.Context.registers + r.toNat⟩ x := by
          rw [hafter, ← hmoved, ← hcontext, ← hx]
          exact hstored
        have hlength : ended + 1 + (n - (ended + 1)) = n := by omega
        obtain ⟨y, hy, hy'⟩ := activated.register_along history hlength.le hheld
          fun q hq m i m₁ => hspares _ (by omega) (by omega) m i m₁
        rw [hlength] at hy'
        refine ⟨y, ?_, hy'⟩
        have hfirst : Track.along track ended 1 x x := ⟨x, rfl, by rw [Nat.add_zero, htrack]⟩
        rw [show n - ended = 1 + (n - (ended + 1)) by omega]
        exact Track.along_trans hfirst hy

/-- Between the evaluation of the arguments and the call there is nothing but synchronization. -/
theorem Positions.syncs_before_call (positions : Positions stage deed n code context pc)
    (hcall : s.call.isPrimitive = true) (hcode : code = front ++ s.code u ++ rest)
    (hat : pc n = codeLength (front ++ s.evaluation ++ u.sync)) {t : Nat} (ht : t < n)
    (hin : ∀ t', t ≤ t' → t' ≤ n →
      codeLength (front ++ s.evaluation) ≤ pc t' ∧ pc t' < codeLength (front ++ s.code u))
    (hpos : ∀ t', t < t' → t' ≤ n → 0 < pc t') {m₁ : Machine} {i : Instruction}
    (hm : stage t = .running m)
    (hcontext : m.context = context t) (hdeed : deed t = .execute i m₁) :
    ∃ own parent reg, i = .sync own parent reg := by
  obtain ⟨hmem, hleads⟩ := positions.mem_of_executes ht
    (hpos (t + 1) (Nat.lt_succ_self t) ht).ne' hm hcontext hdeed
  have hlow := (hin t (Nat.le_refl _) ht.le).1
  have hhigh := (hin t (Nat.le_refl _) ht.le).2
  have hbefore : pc t < codeLength (front ++ s.evaluation ++ u.sync) := by
    by_contra hpast
    -- The call would be behind it, and there is no way back.
    have hshape : code = front ++ s.evaluation ++ u.call s.call ++ rest := by
      rw [hcode, CallSite.code]
      simp
    obtain ⟨p, -, hmem'⟩ := mem_positioned_middle (hshape ▸ hmem) hlow (by
      simpa [CallSite.code] using hhigh)
    have hstraight := Emit.straight_call (offset?_of_isPrimitive hcall) i
      (mem_of_mem_positioned hmem')
    have hnext : pc (t + 1) = pc t + i.length := by
      rcases hleads with hnext | ⟨offset, hoffset, -⟩
      · exact hnext
      · rw [hstraight] at hoffset
        cases hoffset
    have hipos := i.length_pos
    have hshape' : code = front ++ s.evaluation ++ u.sync ++ s.call :: (u.sync ++ rest) := by
      rw [hshape, CodeUnit.call]
      simp
    have hbeyond := (hshape' ▸ (positions.stands (t + 1) ht).2).beyond (by omega)
    have hshape'' : code = front ++ s.evaluation ++ u.sync ++ [s.call] ++ u.sync ++ rest := by
      rw [hshape']
      simp
    have hstraight' : Branches u.sync := branches_of_offset_none fun j hj => by
      obtain ⟨x, -, rfl⟩ := List.mem_map.mp hj
      rfl
    have hstays := (hshape'' ▸ positions.strides).stays_beyond hstraight' ht (Nat.le_refl _)
      (fun t' ht' ht'' => by
        have hbound := (hin t' (by omega) ht'').2
        refine ⟨hpos t' ht' ht'', ?_⟩
        simpa [CallSite.code, CodeUnit.call] using hbound) (by
      rw [codeLength_append]
      simpa [codeLength] using hbeyond)
    have hcallpos := s.call.length_pos
    rw [codeLength_append, hat] at hstays
    simp only [codeLength] at hstays
    omega
  have hshape : code = front ++ s.evaluation ++ u.sync ++ (s.call :: u.sync ++ rest) := by
    rw [hcode, CallSite.code, CodeUnit.call]
    simp
  obtain ⟨p, -, hmem'⟩ := mem_positioned_middle (hshape ▸ hmem) hlow hbefore
  obtain ⟨x, -, rfl⟩ := List.mem_map.mp (mem_of_mem_positioned hmem')
  exact ⟨_, _, _, rfl⟩

variable (activated : Activated stage deed track n (encodeAll code).toArray context process)
  (history : History stage deed track n) (positions : Positions stage deed n code context pc)
  (hpasses : u.Passes literals name args prim s) (hcall : s.call.isPrimitive = true)
  (hcode : code = front ++ s.code u ++ rest)
  (hshut : Shut code (codeLength front) (codeLength (front ++ s.code u)))
  (hat : pc n = codeLength (front ++ s.evaluation ++ u.sync))
  (hm : stage n = .running m) (hcontext : m.context = context n)
include activated history positions hpasses hcall hcode hshut hat hm hcontext

/-- Each argument is evaluated in its turn, and its value waits for the call. -/
theorem Activated.argument (hk : s.values[k]? = some piece) : ∃ began ended x y, ended ≤ n ∧
    RunsThrough stage context pc (front ++ stashed s.next (s.stored.take k)) piece began ended x ∧
    (∀ t, began < t → t ≤ n → pc began < pc t) ∧ Track.along track ended (n - ended) x y ∧
    ((∃ r : UInt8, k < s.stored.length ∧ r.toNat = s.next + k ∧
      (stage n).heap.Holds ⟨context n, Slot.Context.registers + r.toNat⟩ y) ∨
      k = s.stored.length ∧ m.accumulator = y) := by
  have hbranches := hpasses.supplies.branches
  have hpiece : Branches piece := hbranches piece (List.mem_of_getElem? hk)
  have hfirst : Branches (stashed s.next (s.stored.take k)) := branches_stashed fun c hc =>
    hbranches c (List.mem_append_left _ (List.mem_of_mem_take hc))
  have hpos := s.call.length_pos
  have hhigh : pc n < codeLength (front ++ s.code u) := by
    rw [hat]
    simp only [CallSite.code, CodeUnit.call, codeLength_append, codeLength]
    omega
  rcases hpasses.follows hcall hk with ⟨hlt, hr, heval, hmiddle, hspares⟩ | ⟨hlast, heval⟩
  · rename_i r tail
    have hshape : s.code u = stashed s.next (s.stored.take k) ++ piece ++ .storeRegister r ::
        (tail ++ u.call s.call) := by
      rw [CallSite.code, heval]
      simp
    rw [hshape] at hcode hshut hhigh
    have hbelow : codeLength (front ++ (stashed s.next (s.stored.take k) ++ piece)) < pc n := by
      rw [hat, heval]
      simp only [codeLength_append, codeLength, Instruction.length]
      omega
    obtain ⟨began, ended, x, hended, hruns, hbegan, hbehind⟩ :=
      positions.runs_through hcode hshut hfirst hpiece hmiddle hbelow.le hhigh hm hcontext
    have hends : pc ended = codeLength (front ++ (stashed s.next (s.stored.take k) ++ piece)) := by
      rw [hruns.ends, List.append_assoc]
    have hlt' : ended < n := by
      rcases Nat.eq_or_lt_of_le hended with rfl | h
      · omega
      · exact h
    obtain ⟨m₀, i, m₁, hm₀, hcontext₀, hdeed, hmem⟩ :=
      positions.executes hlt' (hbehind (ended + 1) (Nat.lt_succ_self _) hlt').1
    have hcode' : code = front ++ (stashed s.next (s.stored.take k) ++ piece) ++
        .storeRegister r :: (tail ++ u.call s.call ++ rest) := by
      rw [hcode]
      simp
    obtain rfl : i = .storeRegister r := eq_of_mem_positioned (by rwa [← hcode', ← hends])
    obtain ⟨m₂, hm₂, -, hx⟩ := hruns.value
    obtain rfl : m₂ = m₀ := Stage.running.inj (hm₂.symm.trans hm₀)
    obtain ⟨y, hy, hheld⟩ := activated.stored_along history hlt' hm₀ hcontext₀ hx hdeed
      fun t het htn m' i m₁' hm' hcontext' hdeed' => by
        have hat' := hbehind t het htn.le
        have hnext := hbehind (t + 1) (by omega) htn
        obtain ⟨hmem', -⟩ := positions.mem_of_executes htn (by omega) hm' hcontext' hdeed'
        have hmem : (pc t, i) ∈ positioned 0 ((front ++ (stashed s.next (s.stored.take k) ++
            piece)) ++ .storeRegister r :: (tail ++ u.call s.call) ++ rest) := by
          rw [hcode] at hmem'
          simpa using hmem'
        refine hspares i (mem_of_mem_positioned_beyond hmem (by omega) ?_)
        simpa using hat'.2
    exact ⟨began, ended, x, y, hended, hruns, hbegan, hy, .inl ⟨r, hlt, hr, hheld⟩⟩
  · -- It stays in the accumulator.
    have hne : u.call s.call ≠ [] := by simp [CodeUnit.call]
    obtain ⟨i₀, middle, hshape₀⟩ := List.exists_cons_of_ne_nil hne
    have hshape : s.code u = stashed s.next (s.stored.take k) ++ piece ++ i₀ :: middle := by
      rw [CallSite.code, heval, hshape₀]
    have hmiddle : Branches middle := branches_of_offset_none fun i hi =>
      Emit.straight_call (offset?_of_isPrimitive hcall) i (hshape₀ ▸ List.mem_cons_of_mem _ hi)
    have hbelow : codeLength (front ++ (stashed s.next (s.stored.take k) ++ piece)) ≤ pc n := by
      rw [hat, heval]
      simp only [codeLength_append]
      omega
    obtain ⟨began, ended, x, hended, hruns, hbegan, hbehind⟩ :=
      positions.runs_through (hshape ▸ hcode) (hshape ▸ hshut) hfirst hpiece hmiddle hbelow
        (hshape ▸ hhigh) hm hcontext
    rw [← hshape] at hbehind
    have hends : pc ended = codeLength (front ++ s.evaluation) := by
      rw [hruns.ends, List.append_assoc, heval]
    have hin : ∀ t, ended ≤ t → t ≤ n →
        codeLength (front ++ s.evaluation) ≤ pc t ∧ pc t < codeLength (front ++ s.code u) := by
      intro t het htn
      rcases Nat.eq_or_lt_of_le het with rfl | hlt
      · refine ⟨hends.ge, hends ▸ ?_⟩
        simp only [CallSite.code, CodeUnit.call, codeLength_append, codeLength]
        omega
      · have := hbehind t hlt htn
        exact ⟨by omega, this.2⟩
    obtain ⟨m₀, hm₀, hcontext₀, hx⟩ := hruns.value
    have hlength : ended + (n - ended) = n := by omega
    obtain ⟨y, hy, hkeeps⟩ := activated.keeps_along history hlength.le
      (.inl ⟨m₀, hm₀, hcontext₀, hx⟩) fun q hq m' i m₁ hm' hcontext' hdeed =>
        positions.syncs_before_call hcall hcode hat (by omega)
          (fun t' ht' => hin t' (by omega)) (fun t' ht' htn => by
            have := hbehind t' (by omega) htn
            omega) hm' hcontext' hdeed
    rw [hlength, hm, ← hcontext, ← (activated.code n (Nat.le_refl _) m hm hcontext).2] at hkeeps
    exact ⟨began, ended, x, y, hended, hruns, hbegan, hy, .inr ⟨hlast, hkeeps.accumulator_eq⟩⟩

end Arguments

def Instruction.takesLast : Instruction → Bool
  | .primitiveV _ first count => first.toNat + count.toNat == maxRegisters
  | _ => false

section Calling

theorem Machine.not_spilled_register {m : Machine} {v x : Value} {k : Nat} :
    ¬m.Spilled ⟨v, Slot.Context.registers + k⟩ x := by
  intro h
  generalize hcell : (⟨v, Slot.Context.registers + k⟩ : Cell) = c at h
  have hindex : 7 ≤ c.index := hcell ▸ Nat.le_add_right 7 k
  cases h <;> simp [Slot.Context.pc, Slot.Process.context, Slot.Process.accumulator] at hindex

variable {m : Machine} {u : CodeUnit} {literals : List Constant} {name : String}
  {args : List Expr} {prim : Primitive} {s : CallSite} {z : Nat → Value}

theorem Machine.registers_map {ks : List Nat} {f : Nat → UInt8} (h : ∀ k ∈ ks,
    m.image.heap.slot m.context (Slot.Context.registers + (f k).toNat) = .ok (z k)) :
    registers (ks.map f) m = .ok (ks.map z) m := by
  induction ks with
  | nil => rfl
  | cons k ks ih =>
    exact query_bind_eq_ok.mpr ⟨z k, h k (.head _),
      bind_eq_ok.mpr ⟨_, m, ih fun j hj => h j (.tail _ hj), rfl⟩⟩

theorem call?_directCall {index : UInt8} {count : Nat} {regs : List UInt8} (hregs : regs.length ≤ 2)
    (hcount : count ≠ 0) : Machine.call? (Emit.directCall index count regs) =
      some (index, Machine.withAccumulator regs) := by
  match regs with
  | [] => rw [Emit.directCall, if_neg hcount]; rfl
  | [_] | [_, _] => rfl
  | _ :: _ :: _ :: _ => simp at hregs

theorem takesLast_directCall {index : UInt8} {count : Nat} {regs : List UInt8} :
    (Emit.directCall index count regs).takesLast = false := by
  unfold Emit.directCall
  split
  · split <;> rfl
  · rfl
  · rfl

theorem registerRun_eq {first count : UInt8} {next len : Nat} (hcount : count.toNat = len)
    (hfirst : 0 < len → first.toNat = next) (hroom : 0 < len → next + len ≤ maxRegisters) :
    Machine.registerRun first count =
      (List.range (if first.toNat + len = maxRegisters then len - 1 else len)).map
        fun k => (next + k).toUInt8 := by
  have hlt := first.toNat_lt
  rw [Machine.registerRun, hcount]
  simp only [maxRegisters] at hroom ⊢
  rcases Nat.eq_zero_or_pos len with rfl | hpos
  · rw [if_neg (by omega), show min (first.toNat + 0) 255 - first.toNat = 0 by omega]
    rfl
  · have hroom := hroom hpos
    rw [hfirst hpos]
    split
    · rw [show min (next + len) 255 - next = len - 1 by omega]
    · rw [show min (next + len) 255 - next = len by omega]

theorem CodeUnit.Passes.calls (h : u.Passes literals name args prim s)
    (hregs : ∀ k < s.stored.length, ∃ r : UInt8, r.toNat = s.next + k ∧
      m.image.heap.slot m.context (Slot.Context.registers + r.toNat) = .ok (z k))
    (hkept : s.stored.length < args.length → m.accumulator = z s.stored.length) :
    m.Calls s.call prim ((List.range (if s.call.takesLast then args.length - 1
      else args.length)).map z) := by
  have hcount : s.stored.length + s.kept.toList.length = args.length := by
    rw [← h.supplies.count, CallSite.values, List.length_append]
  have hslot : ∀ k < s.stored.length, m.image.heap.slot m.context
      (Slot.Context.registers + (s.next + k).toUInt8.toNat) = .ok (z k) := by
    intro k hk
    obtain ⟨r, hr, hread⟩ := hregs k hk
    rwa [← hr, Nat.toUInt8_eq, UInt8.ofNat_toNat]
  rcases h.call with ⟨harity, hkeeps, hcall⟩ | ⟨-, hnone, hmax, hcall⟩
  · rw [hcall, takesLast_directCall]
    have hthree := Primitive.arity_le_three harity
    rcases Nat.eq_zero_or_pos args.length with hzero | hpos
    · obtain rfl := List.length_eq_zero_iff.mp hzero
      have hstored : s.stored = [] := List.length_eq_zero_iff.mp (by omega)
      rw [CallSite.registers, hstored]
      exact ⟨_, _, rfl, Primitive.ofIndex?_index prim, rfl⟩
    · have hne : args ≠ [] := List.ne_nil_of_length_pos hpos
      obtain ⟨piece, hpiece⟩ := Option.ne_none_iff_exists'.mp fun hnone => hne (hkeeps hnone)
      rw [hpiece, Option.toList_some, List.length_singleton] at hcount
      have hregisters : s.registers = (List.range s.stored.length).map
          fun k => (s.next + k).toUInt8 := by
        rw [CallSite.registers, List.range'_eq_map_range, List.map_map]
        rfl
      have hread := Machine.registers_map
        fun k (hk : k ∈ List.range s.stored.length) => hslot k (List.mem_range.mp hk)
      refine ⟨_, _, call?_directCall ?_ (by omega), Primitive.ofIndex?_index prim, ?_⟩
      · rw [hregisters, List.length_map, List.length_range]
        omega
      · refine bind_eq_ok.mpr ⟨_, m, hregisters ▸ hread, ?_⟩
        change EStateM.Result.ok (_ ++ [m.accumulator]) m = _
        rw [hkept (by omega), if_neg Bool.false_ne_true, ← hcount, List.range_succ, List.map_append]
        rfl
  · rw [hnone, Option.toList_none, List.length_nil, Nat.add_zero] at hcount
    have hlen : args.length.toUInt8.toNat = args.length :=
      UInt8.toNat_ofNat_of_lt' (Nat.lt_of_le_of_lt hmax (by decide))
    have hroom : 0 < args.length → s.next + args.length ≤ maxRegisters := fun hpos =>
      hcount ▸ h.room (List.ne_nil_of_length_pos (by omega))
    have hfirst : 0 < args.length → s.next.toUInt8.toNat = s.next := fun hpos => by
      have := hroom hpos
      rw [maxRegisters] at this
      exact UInt8.toNat_ofNat_of_lt' (show s.next < 256 by omega)
    rw [hcall]
    refine ⟨_, _, rfl, Primitive.ofIndex?_index prim, ?_⟩
    rw [registerRun_eq hlen hfirst hroom, Instruction.takesLast, hlen]
    simp only [beq_iff_eq]
    refine Machine.registers_map fun k hk => hslot k ?_
    rw [List.mem_range] at hk
    split at hk <;> omega

end Calling

/-- An activation evaluates an expression: it runs through code that was made of it. -/
def Evaluates (stage : Nat → Stage) (context : Nat → Value) (pc : Nat → Nat)
    (code : List Instruction) (yields : List Instruction → Prop) (began ended : Nat) (x : Value) :
    Prop :=
  ∃ front piece rest, code = front ++ piece ++ rest ∧ yields piece ∧
    RunsThrough stage context pc front piece began ended x

section Histories

variable {stage : Nat → Stage} {deed : Nat → Deed} {track : Nat → Track} {n : Nat}
  {context process : Nat → Value}

/-- Whenever an activation of compiled code comes to the call of a primitive, it has evaluated all
arguments of a call that the source has, one after the other, and the primitive gets their values,
wherever garbage collections have moved them. If the registers of the call take up the last there
is, it does not get the last one. -/
theorem History.primitive_receives {method : Method} {instanceVariables : List String}
    {t b : CodeTemplate} (hcompile : method.compile instanceVariables = .ok t)
    (hb : b = t ∨ t.Houses b) (history : History stage deed track (n + 1))
    (activated : Activated stage deed track n b.bytecode context process) {m m₁ : Machine}
    {i : Instruction} (hm : stage n = .running m) (hcontext : m.context = context n)
    (hdeed : deed n = .execute i m₁) (hi : i.isPrimitive = true) :
    ∃ name args prim operands, method.Keeps (.primitive name args) ∧
      Primitive.ofName? name = some prim ∧ m₁.Calls i prim operands ∧
      operands.length = (if i.takesLast then args.length - 1 else args.length) ∧
      ∃ (code : List Instruction) (u : CodeUnit) (next : Nat) (pc began ended : Nat → Nat)
        (value : Nat → Value), b.bytecode = (encodeAll code).toArray ∧
        Positions stage deed n code context pc ∧
        (∀ k e, args[k]? = some e → ended k ≤ n ∧ Evaluates stage context pc code
          (u.Yields b.literals (next + k) e) (began k) (ended k) (value k)) ∧
        (∀ k, k + 1 < args.length → ended k < began (k + 1)) ∧
        ∀ k x, operands[k]? = some x →
          Track.along track (ended k) (n + 1 - ended k) (value k) x := by
  have hsited : b.Sited fun name args => method.Keeps (.primitive name args) := by
    rcases hb with rfl | hb
    · exact Method.compile_sited hcompile
    · exact (Method.compile_sited hcompile).houses hb
  cases hsited with
  | @intro _ u code hbytecode hbranches hsites _ =>
    have earlier : History stage deed track n :=
      ⟨history.sound, fun k hk => history.step k (Nat.lt_succ_of_lt hk)⟩
    rw [hbytecode] at activated
    obtain ⟨pc, positions⟩ := activated.exists_positions earlier hbranches
    have hs := history.sound_at (Nat.le_succ n)
    have hstep := history.step n (Nat.lt_succ_self n)
    rw [hm] at hs hstep
    rw [hdeed] at hstep
    -- What is executed is the call that the code has at the position.
    obtain ⟨hat, hboundary⟩ := positions.stands n (Nat.le_refl _)
    rw [hm] at hat
    have hpc := hat.pc_eq hcontext
    obtain ⟨next, hdecode⟩ := hstep.decodes
    rw [(activated.code n (Nat.le_refl _) m hm hcontext).1, hpc] at hdecode
    obtain ⟨hmem, -⟩ := Code.positioned_of_decodeAt hboundary hdecode
    obtain ⟨before, after, hsplit, hbefore⟩ := mem_positioned_iff.mp hmem
    obtain ⟨name, args, prim, s, front, rest, hkept, hpasses, rfl, hcode, hfront, hshut⟩ :=
      hsites before i after hsplit hi
    rw [hfront] at hbefore
    -- Each argument, and where its value is once the call has paused.
    have hargument : ∀ k, ∃ began ended x z, k < args.length → ended ≤ n ∧
        (∃ piece, s.values[k]? = some piece ∧ RunsThrough stage context pc
          (front ++ stashed s.next (s.stored.take k)) piece began ended x) ∧
        (∀ t, began < t → t ≤ n → pc began < pc t) ∧
        Track.along track ended (n + 1 - ended) x z ∧
        ((∃ r : UInt8, k < s.stored.length ∧ r.toNat = s.next + k ∧ m₁.image.heap.slot m₁.context
          (Slot.Context.registers + r.toNat) = .ok z) ∨
          k = s.stored.length ∧ m₁.accumulator = z) := by
      intro k
      by_cases hk : k < args.length
      swap
      · exact ⟨0, 0, .nil, .nil, fun h => absurd h hk⟩
      rw [← hpasses.supplies.count] at hk
      obtain ⟨began, ended, x, y, hended, hruns, hbegan, hy, hplace⟩ := activated.argument earlier
        positions hpasses hi hcode hshut hbefore hm hcontext (List.getElem?_eq_getElem hk)
      have hlater : ∀ {z}, track n y z → Track.along track ended (n + 1 - ended) x z := by
        intro z hz
        rw [show n + 1 - ended = n - ended + 1 by omega]
        exact ⟨y, hy, by rwa [show ended + (n - ended) = n by omega]⟩
      rcases hplace with ⟨r, hlt, hr, hheld⟩ | ⟨hlast, hacc⟩
      · rw [hm, ← hcontext] at hheld
        obtain ⟨z, hz, hyz⟩ := hstep.paused_holds hs (hstep.context_moved hs) hheld
          fun w => Machine.not_spilled_register
        exact ⟨began, ended, x, z, fun _ => ⟨hended, ⟨_, List.getElem?_eq_getElem hk, hruns⟩,
          hbegan, hlater hyz, .inl ⟨r, hlt, hr, hz.slot⟩⟩⟩
      · obtain ⟨m₀, hf, hcarried⟩ := hstep.carried hs
        obtain ⟨_, _, _, _, rfl⟩ := hf.eq
        exact ⟨began, ended, x, m₁.accumulator, fun _ => ⟨hended,
          ⟨_, List.getElem?_eq_getElem hk, hruns⟩, hbegan, hlater (hacc ▸ hcarried.accumulator),
          .inr ⟨hlast, rfl⟩⟩⟩
    choose began ended value z harg using hargument
    have hcount : s.stored.length + s.kept.toList.length = args.length := by
      rw [← hpasses.supplies.count, CallSite.values, List.length_append]
    have hcalls := hpasses.calls (m := m₁) (z := z) (fun k hk => by
      obtain ⟨-, -, -, -, ⟨r, -, hr, hread⟩ | ⟨hlast, -⟩⟩ := harg k (by omega)
      · exact ⟨r, hr, hread⟩
      · omega) (fun hlt => by
      obtain ⟨-, -, -, -, ⟨r, hlt', -, -⟩ | ⟨-, hacc⟩⟩ := harg _ hlt
      · omega
      · exact hacc)
    refine ⟨name, args, prim, _, hkept, hpasses.named, hcalls, by simp, code, u, s.next, pc, began,
      ended, value, hbytecode, positions, fun k e he => ?_, fun k hk => ?_, fun k x hx => ?_⟩
    · have hk := (List.getElem?_eq_some_iff.mp he).1
      obtain ⟨hended, ⟨piece, hpiece, hruns⟩, -⟩ := harg k hk
      obtain ⟨piece', hpiece', hyields⟩ := hpasses.supplies.yields k e he
      obtain rfl := Option.some.inj (hpiece.symm.trans hpiece')
      obtain ⟨tail, htail⟩ := (hpasses.follows hi hpiece).exists_rest
      exact ⟨hended, front ++ stashed s.next (s.stored.take k), piece, tail ++ rest,
        by rw [hcode, htail]; simp, hyields, hruns⟩
    · -- The value of the one is put into its register before the other is begun.
      obtain ⟨hended, ⟨piece, hpiece, hruns⟩, -⟩ := harg k (by omega)
      obtain ⟨-, ⟨_, -, hruns'⟩, hbegan, -⟩ := harg (k + 1) hk
      have hone : s.kept.toList.length ≤ 1 := by cases s.kept <;> simp
      have hplus : stashed s.next (s.stored.take (k + 1)) = _ :=
        stashed_take_succ (by omega) hpiece
      have hbehind : pc (ended k) < pc (began (k + 1)) := by
        rw [hruns.ends, hruns'.starts, hplus]
        simp only [codeLength_append, codeLength, Instruction.length]
        omega
      by_contra hle
      rcases Nat.eq_or_lt_of_le (Nat.le_of_not_lt hle) with heq | hlt
      · rw [heq] at hbehind
        omega
      · have := hbegan _ hlt hended
        omega
    · rw [List.getElem?_map, Option.map_eq_some_iff] at hx
      obtain ⟨j, hj, rfl⟩ := hx
      obtain ⟨hlt, rfl⟩ := List.getElem?_eq_some_iff.mp hj
      rw [List.getElem_range]
      refine (harg k ?_).2.2.2.1
      rw [List.length_range] at hlt
      split at hlt <;> omega

end Histories

def asking : Method where
  selector := "ask"
  body := [.primitive "identical" [.pseudo .thisContext, .pseudo .nil]]

def askingCode : List Instruction :=
  [.loadThisContext, .storeRegister 1, .loadNil, .primitive2 0 1, .returnSelf]

def askingTemplate : CodeTemplate where
  selector := "ask"
  bytecode := (encodeAll askingCode).toArray
  literals := []
  args := 0
  temps := 0
  heapVars := 0
  stack := 1

theorem asking_compile : asking.compile [] = .ok askingTemplate := by rfl

/-- A process begins to run the method, and comes to the call. -/
def askingContext : Value := (Machine.blankImage.furnished (Image.newActivation askingCode 2)).1

def askingStage : Stage := .idle (.furnished (Image.newActivation askingCode 2))

def askingScript : List (Deed × Stage) :=
  (askingStage.scripted ([.spawn askingContext, .dispatch] ++ List.replicate 4 .execute)).getD []

def askingProcess : Value := (askingStage.nth askingScript 2).machine.process

/-- Whether it is plain that a step does not touch the activation but by its code. -/
def Deed.asks : Deed → Bool
  | .spawn | .dispatch => true
  | .execute i m => i.silent && m.context == askingContext
  | _ => false

theorem asking_evaluated : askingScript.length = 6 ∧ askingProcess ≠ askingContext ∧
    askingContext.isReference = true ∧
    askingStage.heap.slot askingContext Slot.Context.pc = .ok .nil ∧
    askingStage.heap.bytes (.ofAddress ⟨.leaf, 2⟩) = .ok askingTemplate.bytecode ∧
    (askingScript.take 5).all (·.1.asks) = true ∧
    (∀ k ≤ 6, (match askingStage.nth askingScript k with
      | .running m => decide (m.context = askingContext ∧ m.process = askingProcess ∧
        m.code = askingTemplate.bytecode)
      | .idle _ => true
      | .failed _ => false) = true) ∧
    (match askingStage.nth askingScript 5 with | .running _ => true | _ => false) = true ∧
    (Deed.nth askingScript 5).move = .execute (.primitive2 0 1) := by
  decide +kernel

theorem asking_history :
    History (askingStage.nth askingScript) (Deed.nth askingScript) (fun _ => Eq) 6 := by
  obtain ⟨hw, hcontext⟩ := World.furnished_intact (Image.newActivation_stable askingCode 2)
  have hs : askingStage.Sound := hw
  refine Stage.history_of_script hs asking_evaluated.1 fun context hmem => ?_
  obtain rfl : context = askingContext := by simpa using hmem
  exact hcontext

theorem Deed.asks_eq {d : Deed} (h : d.asks = true) : d = .spawn ∨ d = .dispatch ∨
    ∃ i m, d = .execute i m ∧ i.silent = true ∧ m.context = askingContext := by
  cases d with
  | spawn => exact .inl rfl
  | dispatch => exact .inr (.inl rfl)
  | execute i m => exact .inr (.inr ⟨i, m, rfl, by simpa [asks] using h⟩)
  | _ => cases h

theorem Machine.not_gives_up_of_silent {m : Machine} {i : Instruction} (hsilent : i.silent = true) :
    (∀ v, ¬m.Ends i v) ∧ ∀ args, ¬m.Calls i .returnInto args := by
  have hcalls : ∀ {prim args}, m.Calls i prim args →
      prim = .processCurrent ∨ prim = .processFork := by
    rintro prim args ⟨index, act, hcall, hprim, -⟩
    cases i with
    | primitive0 p =>
      obtain ⟨rfl, -⟩ := Prod.mk.inj (Option.some.inj hcall)
      exact .inl (Option.some.inj (hprim.symm.trans (beq_iff_eq.mp hsilent)))
    | primitive2 p r =>
      obtain ⟨rfl, -⟩ := Prod.mk.inj (Option.some.inj hcall)
      exact .inr (Option.some.inj (hprim.symm.trans (beq_iff_eq.mp hsilent)))
    | loadNil | loadTrue | loadThisContext | loadLiteral | storeRegister | copyBlock => cases hcall
    | _ => cases hsilent
  refine ⟨fun v hends => ?_, fun args h => by rcases hcalls h with h | h <;> cases h⟩
  cases hends with
  | return_ | returnSelf => cases hsilent
  | primitive h hends => rcases hcalls h with rfl | rfl <;> exact hends

theorem asking_activated : Activated (askingStage.nth askingScript) (Deed.nth askingScript)
    (fun _ => Eq) 5 askingTemplate.bytecode (fun _ => askingContext) (fun _ => askingProcess) := by
  obtain ⟨hlength, hne, hreference, hpc, hbytes, hasks, hstages, -⟩ := asking_evaluated
  have hasks' : ∀ k < 5, (Deed.nth askingScript k).asks = true := by
    intro k hk
    have hmem : askingScript[k] ∈ askingScript.take 5 :=
      List.mem_take_iff_getElem.mpr ⟨k, by omega, rfl⟩
    rw [Stage.getElem_nth (s := askingStage) (by omega)] at hmem
    exact List.all_eq_true.mp hasks _ hmem
  have hrunning : ∀ k ≤ 6, ∀ m, askingStage.nth askingScript k = .running m →
      m.context = askingContext ∧ m.process = askingProcess ∧ m.code = askingTemplate.bytecode := by
    intro k hk m hm
    have := hstages k hk
    rw [hm] at this
    exact of_decide_eq_true this
  have hapart : ∀ k ≤ 6, ¬(askingStage.nth askingScript k).RunsFor askingContext ∧
      ¬(askingStage.nth askingScript k).Runs askingProcess := by
    intro k hk
    cases hm : askingStage.nth askingScript k with
    | running m =>
      obtain ⟨hcontext, hprocess, -⟩ := hrunning k hk m hm
      exact ⟨fun h => hne (hprocess.symm.trans h), fun h => hne (h.symm.trans hcontext)⟩
    | idle | failed => exact ⟨id, id⟩
  have hstores : ∀ k < 5, ∀ c, ¬(Deed.nth askingScript k).Stores c := by
    intro k hk c
    rcases Deed.asks_eq (hasks' k hk) with h | h | ⟨i, m, h, hsilent, -⟩ <;> rw [h]
    · exact id
    · exact id
    · exact Machine.not_stores_of_silent hsilent
  obtain ⟨-, hsane⟩ := World.furnished_intact (Image.newActivation_stable askingCode 2)
  refine ⟨.inr ⟨id, .nil, ⟨hsane, hpc⟩, .inr ⟨rfl, rfl⟩⟩, fun _ _ => rfl, fun _ _ => rfl,
    ⟨_, ⟨2, by decide⟩, hbytes⟩, fun k hk m hm _ => ?_, fun k hk i _ => hstores k hk _,
    fun k hk i _ => hstores k hk _, fun k hk => ⟨(hapart k (by omega)).1, fun hworks => ?_⟩,
    fun k hk _ hgives => ?_⟩
  · have := hrunning k (by omega) m hm
    exact ⟨this.2.2, this.2.1⟩
  · rcases Deed.asks_eq (hasks' k hk) with h | h | ⟨i, m, h, hsilent, hcontext⟩ <;>
      rw [h] at hworks
    · exact (hapart k (by omega)).2 hworks
    · exact (hapart k (by omega)).2 hworks
    · rcases hworks with hworks | hends
      · exact hne (hworks.symm.trans hcontext)
      · exact (Machine.not_gives_up_of_silent hsilent).1 _ hends
  · rcases hgives with ⟨w, hw⟩ | ⟨v, hv⟩ | ⟨i, m, args, h, hcalls⟩
    · have := hstages (k + 1) (by omega)
      rw [hw] at this
      cases this
    · rcases Deed.asks_eq (hasks' k hk) with h | h | ⟨_, _, h, -⟩ <;> cases hv.symm.trans h
    · rcases Deed.asks_eq (hasks' k hk) with h' | h' | ⟨_, _, h', hsilent, -⟩ <;>
        cases h.symm.trans h'
      exact (Machine.not_gives_up_of_silent hsilent).2 _ hcalls

/-- The primitive gets both values. -/
theorem asking_receives : asking.compile [] = .ok askingTemplate ∧
    ∃ m m₁, askingStage.nth askingScript 5 = .running m ∧ m.context = askingContext ∧
      Deed.nth askingScript 5 = .execute (.primitive2 0 1) m₁ ∧
      ∃ name args prim operands, asking.Keeps (.primitive name args) ∧
        Primitive.ofName? name = some prim ∧ m₁.Calls (.primitive2 0 1) prim operands ∧
        operands.length = args.length := by
  obtain ⟨-, -, -, -, -, -, hstages, hruns, hmove⟩ := asking_evaluated
  cases hm : askingStage.nth askingScript 5 with
  | idle | failed => simp [hm] at hruns
  | running m =>
    have hrunning := hstages 5 (by decide)
    rw [hm] at hrunning
    have hcontext := (of_decide_eq_true hrunning).1
    cases hd : Deed.nth askingScript 5 with
    | execute i m₁ =>
      rw [hd] at hmove
      obtain rfl : i = .primitive2 0 1 := Move.execute.inj hmove
      obtain ⟨name, args, prim, operands, hkeeps, hname, hcalls, hlength, -⟩ :=
        History.primitive_receives asking_compile (.inl rfl) asking_history asking_activated hm
          hcontext hd rfl
      exact ⟨asking_compile, m, m₁, rfl, hcontext, rfl, name, args, prim, operands, hkeeps, hname,
        hcalls, hlength⟩
    | _ => rw [hd] at hmove; cases hmove

end ObjectMachine
