import ObjectMachine.Proofs.Scheduling.Conservation

namespace ObjectMachine

namespace Books

variable {b b' : Books} {spawned i j x : Nat} {d : Deed}

def Ready (b : Books) (i : Nat) : Prop := i ∈ b.runnable ∨ b.current = some i

/-- A process stands in the queue, and ahead of another if that stands there, too. -/
def Ahead (b : Books) (j i : Nat) : Prop :=
  j ∈ b.runnable ∧ (i ∈ b.runnable → [j, i].Sublist b.runnable)

/-- Whoever joins the queue does so at the end. -/
theorem Ahead.append {is : List Nat} (ha : b.Ahead j i) (hb : b'.runnable = b.runnable ++ is) :
    b'.Ahead j i := by
  obtain ⟨hj, hi⟩ := ha
  refine ⟨hb ▸ List.mem_append_left _ hj, fun hmem => ?_⟩
  rw [hb] at hmem ⊢
  rcases List.mem_append.mp hmem with hold | hnew
  · exact (hi hold).trans (List.sublist_append_left _ _)
  · have hpair : ([j] ++ [i]).Sublist (b.runnable ++ is) :=
      (List.singleton_sublist.mpr hj).append (List.singleton_sublist.mpr hnew)
    exact hpair

theorem Ahead.erase (ha : b.Ahead j i) (hnodup : b.runnable.Nodup) (hx : x ≠ j)
    (hb : b'.runnable = b.runnable.erase x) : b'.Ahead j i := by
  obtain ⟨hj, hi⟩ := ha
  refine ⟨hb ▸ (List.mem_erase_of_ne (Ne.symm hx)).mpr hj, fun hmem => ?_⟩
  rw [hb] at hmem ⊢
  have hxi : x ≠ i := by
    rintro rfl
    exact hnodup.not_mem_erase hmem
  have hpair := (hi (List.mem_of_mem_erase hmem)).erase x
  rwa [List.erase_of_not_mem (by simp [hx, hxi])] at hpair

/-- The process behind is not at the head. -/
theorem Ahead.head_ne {is : List Nat} (ha : b.Ahead j i) (hnodup : b.runnable.Nodup) (hji : j ≠ i)
    (hrunnable : b.runnable = x :: is) : x ≠ i := by
  rintro rfl
  have hpair := ha.2 (hrunnable ▸ List.mem_cons_self)
  rw [hrunnable] at hpair hnodup
  cases hpair with
  | cons _ hrest => exact (List.nodup_cons.mp hnodup).1 (hrest.subset (by simp))
  | cons_cons => exact hji rfl

theorem Ahead.tail {is : List Nat} (ha : b.Ahead j i) (hrunnable : b.runnable = x :: is)
    (hx : x ≠ j) (hb : b'.runnable = is) : b'.Ahead j i := by
  obtain ⟨hj, hi⟩ := ha
  rw [hrunnable] at hj hi
  rw [Ahead, hb]
  refine ⟨List.mem_of_ne_of_mem (Ne.symm hx) hj, fun hmem => ?_⟩
  cases hi (List.mem_cons_of_mem _ hmem) with
  | cons _ hrest => exact hrest
  | cons_cons => exact absurd rfl hx

/-- A process that is ahead stays ahead, until it is taken up. -/
theorem Ahead.entry (ha : b.Ahead j i) (hentry : b.Entry spawned d b') (hnodup : b.all.Nodup)
    (hready : b'.Ready j) : b'.Ahead j i ∨ d = .dispatch ∧ b'.current = some j := by
  have hqueue := nodup_runnable hnodup
  cases hentry with
  | outside | interrupts | collect | reject | execute => exact .inl ha
  | spawn | fork | resume | preempt | yield => exact .inl (ha.append rfl)
  | park | finish | abort => exact .inl ha
  | @suspend _ _ _ x _ hx =>
    refine .inl (ha.erase hqueue ?_ rfl)
    rintro rfl
    rcases hready with hmem | hcurrent
    · exact hqueue.not_mem_erase hmem
    · exact (not_mem_of_current hnodup hcurrent).1 hx
  | @dispatch x is hidle hrunnable =>
    by_cases hx : x = j
    · exact .inr ⟨rfl, congrArg some hx⟩
    · exact .inl (ha.tail hrunnable hx rfl)

end Books

def TakenUp (deed : Nat → Deed) (books : Nat → Books) (i k : Nat) : Prop :=
  deed k = .dispatch ∧ (books (k + 1)).current = some i

section Turns

variable {deed : Nat → Deed} {books : Nat → Books} {spawned : Nat → Nat} {n i j : Nat}
  (hentries : ∀ k < n, (books k).Entry (spawned k) (deed k) (books (k + 1)))
  (hnodup : ∀ k ≤ n, (books k).all.Nodup)
include hentries hnodup

/-- Of two processes, the one that is ahead and stays ready is taken up first. -/
theorem taken_up_first {c b : Nat} (hji : j ≠ i) (hb : b < n) (hcb : c ≤ b)
    (ha : (books c).Ahead j i) (hready : ∀ k, c ≤ k → k ≤ b → (books k).Ready j)
    (htaken : TakenUp deed books i b) : ∃ k, c ≤ k ∧ k < b ∧ TakenUp deed books j k := by
  by_contra! hnone
  -- As long as the one is not taken up, it is ahead; but the other is at the head in the end.
  have hahead : ∀ k, c ≤ k → k ≤ b → (books k).Ahead j i := by
    intro k hck
    induction k, hck using Nat.le_induction with
    | base => exact fun _ => ha
    | succ k hck ih =>
      intro hkb
      have hk : k < n := by omega
      rcases (ih (by omega)).entry (hentries k hk) (hnodup k hk.le)
        (hready (k + 1) (by omega) hkb) with ha' | htaken'
      · exact ha'
      · exact absurd htaken' (hnone k hck (by omega))
  obtain ⟨hdeed, hcurrent⟩ := htaken
  have hlast := hentries b hb
  have ha' := hahead b hcb le_rfl
  rw [hdeed] at hlast
  generalize books (b + 1) = b' at hlast hcurrent
  cases hlast with
  | dispatch hidle hrunnable =>
    exact ha'.head_ne (Books.nodup_runnable (hnodup b hb.le)) hji hrunnable
      (Option.some.inj hcurrent)

/-- Between two turns of a process, another that stays ready has a turn. It has no second one if the
first stays ready as well. -/
theorem one_turn_each {a b : Nat} (hij : i ≠ j) (hab : a < b) (hb : b < n)
    (hfirst : TakenUp deed books i a) (hnext : TakenUp deed books i b)
    (hbetween : ∀ k, a < k → k < b → ¬TakenUp deed books i k)
    (hready : ∀ k, a < k → k ≤ b → (books k).Ready j) :
    (∃ k, a < k ∧ k < b ∧ TakenUp deed books j k) ∧
      ((∀ k, a < k → k ≤ b → (books k).Ready i) →
        ∃! k, a < k ∧ k < b ∧ TakenUp deed books j k) := by
  -- The process that is taken up is not in the queue, so that whoever is there is ahead of it.
  have hahead : ∀ {k x y}, x ≠ y → k < n → TakenUp deed books x k → (books (k + 1)).Ready y →
      (books (k + 1)).Ahead y x := by
    intro k x y hxy hk htaken hy
    have hout := (Books.not_mem_of_current (hnodup (k + 1) hk) htaken.2).1
    refine ⟨hy.resolve_right fun hcurrent => ?_, fun hmem => absurd hmem hout⟩
    exact hxy (Option.some.inj (htaken.2.symm.trans hcurrent))
  have hsome : ∃ k, a < k ∧ k < b ∧ TakenUp deed books j k := by
    have ha := hahead hij (by omega) hfirst (hready (a + 1) (by omega) hab)
    obtain ⟨k, hak, hkb, htaken⟩ := taken_up_first hentries hnodup (Ne.symm hij) hb hab ha
      (fun k hak => hready k (by omega)) hnext
    exact ⟨k, by omega, hkb, htaken⟩
  refine ⟨hsome, fun hstays => ?_⟩
  have honce : ∀ {k l}, a < k → k < l → l < b → TakenUp deed books j k →
      ¬TakenUp deed books j l := by
    intro k l hak hkl hlb hk hl
    have ha := hahead (Ne.symm hij) (by omega) hk (hstays (k + 1) (by omega) (by omega))
    obtain ⟨c, hkc, hcl, htaken⟩ := taken_up_first hentries hnodup hij (by omega) hkl ha
      (fun c hkc hcl => hstays c (by omega) (by omega)) hl
    exact hbetween c (by omega) (by omega) htaken
  obtain ⟨k, hak, hkb, htaken⟩ := hsome
  refine ⟨k, ⟨hak, hkb, htaken⟩, fun l ⟨hal, hlb, htaken'⟩ => ?_⟩
  rcases Nat.lt_trichotomy l k with hlt | heq | hlt
  · exact absurd htaken (honce hal hlt hkb htaken')
  · exact heq
  · exact absurd htaken' (honce hak hlt hlb htaken)

end Turns

section Histories

variable {stage : Nat → Stage} {deed : Nat → Deed} {track : Nat → Track} {n : Nat} {w : World}

/-- Processes take turns. In a history that begins with a fresh schedule, and in which no program
stores into a process, books can be kept of who is in the queue and who runs. Between two turns of a
process each other one that stays ready has a turn, and only one if the first stays ready as well.
Whoever joins the queue is taken up after those that are in it and stay ready. -/
theorem History.takes_turns (history : History stage deed track n) (hstart : stage 0 = .idle w)
    (hfresh : w.schedule = {})
    (hstores : ∀ k < n, ∀ i p j, (Stage.roll stage track k).moved (track k) i p →
      ¬(deed k).Stores ⟨p, j⟩) :
    ∃ books : Nat → Books, books 0 = {} ∧
      -- The books are right, and so are the numbers that the processes bear.
      (∀ k ≤ n, (stage k).Tallied (books k) (Stage.roll stage track k) ∧
        ((stage k).schedule.spawned < 0x1000000000000000 → ∀ is c,
          (stage k).lineup = .ok (is, c) → (books k).runnable = is ∧ (books k).current = c)) ∧
      (∀ k < n, (books k).Entry (stage k).schedule.spawned (deed k) (books (k + 1))) ∧
      -- Others have their turns between two turns of a process.
      (∀ i j a b, i ≠ j → a < b → b < n → TakenUp deed books i a → TakenUp deed books i b →
        (∀ k, a < k → k < b → ¬TakenUp deed books i k) →
        (∀ k, a < k → k ≤ b → (books k).Ready j) →
        (∃ k, a < k ∧ k < b ∧ TakenUp deed books j k) ∧
          ((∀ k, a < k → k ≤ b → (books k).Ready i) →
            ∃! k, a < k ∧ k < b ∧ TakenUp deed books j k)) ∧
      -- Those that join the queue come after those that are in it.
      (∀ i j c b, i ∉ (books c).runnable → j ∈ (books c).runnable → c ≤ b → b < n →
        (∀ k, c ≤ k → k ≤ b → (books k).Ready j) → TakenUp deed books i b →
        ∃ k, c ≤ k ∧ k < b ∧ TakenUp deed books j k) ∧
      -- A run of the world goes on with the history.
      ∀ w', stage n = .idle w' → ∀ timer fuel, (Stage.idle w').Ran (World.run timer fuel w') := by
  obtain ⟨books, hzero, htallied, hentries⟩ := history.exists_books hstart hfresh hstores
  have hnodup : ∀ k ≤ n, (books k).all.Nodup := fun k hk => (htallied k hk).accounts.nodup
  have hentry : ∀ k < n, (books k).Entry (stage k).schedule.spawned (deed k) (books (k + 1)) :=
    fun k hk => (hentries k hk).1
  refine ⟨books, hzero, fun k hk => ⟨htallied k hk, ?_⟩, hentry, ?_, ?_,
    fun w' hend timer fuel => ?_⟩
  · intro hfew is c hlineup
    exact (htallied k hk).lineup_eq hfew hlineup
  · intro i j a b hij hab hb hfirst hnext hbetween hready
    exact one_turn_each hentry hnodup hij hab hb hfirst hnext hbetween hready
  · intro i j c b hi hj hcb hb hready htaken
    have hji : j ≠ i := by
      rintro rfl
      exact hi hj
    exact taken_up_first hentry hnodup hji hb hcb ⟨hj, fun hmem => absurd hmem hi⟩ hready htaken
  · have hsound := history.sound_at le_rfl
    rw [hend] at hsound
    exact World.run_ran hsound timer fuel

end Histories

/-- Two contexts. The first one remembers the process it runs for, the second one suspends and
resumes that process. -/
def meddlingObjects : ImageAction Value := do
  let meek ← Image.newActivation
    [.primitive0 Primitive.processCurrent.index.toUInt8, .storeRegister 0] 1
  let meddler ← Image.newActivation
    [.loadInstVar Slot.Context.registers.toUInt8,
      .primitive1 Primitive.processSuspend.index.toUInt8,
      .primitive1 Primitive.processResume.index.toUInt8] 1
  Image.fillSlots meddler Slot.Context.registers [meek]
  return meddler

theorem meddlingObjects_stable : Stable [] meddlingObjects := by
  refine .bind (Image.newActivation_stable _ _) fun meek => ?_
  refine .bind (Image.newActivation_stable _ _) fun meddler => ?_
  refine .bind (Image.fillSlots_stable (by simp) _ (by simp)) fun _ => ?_
  exact .pure (by simp)

def meek : Value := .ofAddress ⟨.pointers, 12⟩

def meddler : Value := (Machine.blankImage.furnished meddlingObjects).1

theorem meddling_sane {context : Value} (hcontext : context = meek ∨ context = meddler) :
    Sane (World.furnished meddlingObjects) context := by
  obtain ⟨hw, hmeddler⟩ := World.furnished_intact meddlingObjects_stable
  rcases hcontext with rfl | rfl
  · have hmeek : (World.furnished meddlingObjects).image.heap.Holds
        ⟨meddler, Slot.Context.registers⟩ meek := ⟨hmeddler, by decide +kernel⟩
    exact hmeek.value_sane hw.whole
  · exact hmeddler

section Reports

variable {stage : Nat → Stage} {deed : Nat → Deed} {books : Nat → Books} {rs : List Report}
  {i a b k : Nat}

def Agree (deed : Nat → Deed) (books : Nat → Books) (rs : List Report) : Prop :=
  ∀ k (hk : k < rs.length), rs[k].move = (deed k).move ∧
    rs[k].runnable = (books (k + 1)).runnable ∧ rs[k].current = (books (k + 1)).current

theorem Agree.seen
    (hreports : ∀ k (hk : k < rs.length), rs[k] = .of (deed k) (stage (k + 1))) :
    Agree deed (fun k => (stage k).seen) rs := by
  intro k hk
  rw [hreports k hk]
  exact ⟨rfl, rfl, rfl⟩

theorem Agree.takenUp_iff (hagree : Agree deed books rs) (hk : k < rs.length) :
    TakenUp deed books i k ↔ rs[k].move = .dispatch ∧ rs[k].current = some i := by
  obtain ⟨hmove, -, hcurrent⟩ := hagree k hk
  rw [TakenUp, hmove, hcurrent, Deed.move_eq_dispatch]

theorem Agree.ready (hagree : Agree deed books rs) (hb : b ≤ rs.length)
    (h : ∀ k (_ : k < rs.length), a ≤ k → k < b → i ∈ rs[k].runnable ∨ rs[k].current = some i)
    (k : Nat) (hak : a < k) (hkb : k ≤ b) : (books k).Ready i := by
  cases k with
  | zero => cases hak
  | succ k =>
    have hk : k < rs.length := by omega
    obtain ⟨-, hrunnable, hcurrent⟩ := hagree k hk
    rw [Books.Ready, ← hrunnable, ← hcurrent]
    exact h k hk (by omega) (by omega)

theorem Agree.not_takenUp (hagree : Agree deed books rs) (hb : b ≤ rs.length)
    (h : ∀ k (_ : k < rs.length), a ≤ k → k < b →
      ¬(rs[k].move = .dispatch ∧ rs[k].current = some i))
    (k : Nat) (hak : a ≤ k) (hkb : k < b) : ¬TakenUp deed books i k := by
  have hk : k < rs.length := by omega
  exact (hagree.takenUp_iff hk).not.mpr (h k hk hak hkb)

end Reports

/-- Two processes are made, and each of them is preempted whenever it is taken up. -/
def alternation : List Report :=
  [⟨.spawn, 1, [1], none⟩, ⟨.spawn, 2, [1, 2], none⟩, ⟨.dispatch, 2, [2], some 1⟩,
    ⟨.leave .preempted, 2, [2, 1], none⟩, ⟨.dispatch, 2, [1], some 2⟩,
    ⟨.leave .preempted, 2, [1, 2], none⟩, ⟨.dispatch, 2, [2], some 1⟩]

theorem alternation_stores {k : Nat} (hk : k < alternation.length) {d : Deed} {s : Stage}
    (hreport : alternation[k] = .of d s) (c : Cell) : ¬d.Stores c := by
  have hmoves : ∀ r ∈ alternation, r.move ≠ .other ∧ ∀ i, r.move ≠ .execute i := by
    simp [alternation]
  obtain ⟨hother, hexecute⟩ := hmoves _ (List.getElem_mem hk)
  rw [hreport] at hother hexecute
  cases d with
  | outside => exact absurd rfl hother
  | execute i m => exact absurd rfl (hexecute i)
  | _ => exact id

theorem alternation_scripted :
    ((Stage.idle (.furnished meddlingObjects)).scripted [.spawn meek, .spawn meddler,
      .dispatch, .leave, .dispatch, .leave, .dispatch]).map Stage.reports = some alternation := by
  decide +kernel

/-- The second one has one turn between two turns of the first. -/
theorem alternating_turns : ∃ stage deed books, History stage deed (fun _ => Eq) 7 ∧
    TakenUp deed books 1 2 ∧ TakenUp deed books 1 6 ∧
    ∃! k, 2 < k ∧ k < 6 ∧ TakenUp deed books 2 k := by
  obtain ⟨hw, -⟩ := World.furnished_intact meddlingObjects_stable
  have hs : (Stage.idle (.furnished meddlingObjects)).Sound := hw
  obtain ⟨stage, deed, history, hstart, hreports⟩ := Stage.exists_history hs
    (fun context hcontext => meddling_sane (by simpa using hcontext)) alternation_scripted
  obtain ⟨books, -, hright, -, hturns, -⟩ := history.takes_turns hstart rfl
    fun k hk _ _ _ _ => alternation_stores hk (hreports k hk) _
  have hagree : Agree deed books alternation := by
    intro k hk
    have hseen : ∀ r ∈ alternation, r.runnable ≠ [] ∧ r.spawned < 0x1000000000000000 := by decide
    obtain ⟨hsome, hfew⟩ := hseen _ (List.getElem_mem hk)
    rw [hreports k hk] at hsome hfew ⊢
    obtain ⟨hrunnable, hcurrent⟩ := (hright (k + 1) hk).2 hfew _ _ (Stage.lineup_eq_seen hsome)
    exact ⟨rfl, hrunnable.symm, hcurrent.symm⟩
  have hfirst : TakenUp deed books 1 2 := (hagree.takenUp_iff (by decide)).mpr (by decide)
  have hnext : TakenUp deed books 1 6 := (hagree.takenUp_iff (by decide)).mpr (by decide)
  have hbetween : ∀ k, 2 < k → k < 6 → ¬TakenUp deed books 1 k :=
    hagree.not_takenUp (by decide) (by decide)
  refine ⟨stage, deed, books, history, hfirst, hnext, ?_⟩
  exact (hturns 1 2 2 6 (by decide) (by decide) (by decide) hfirst hnext hbetween
    (hagree.ready (by decide) (by decide))).2 (hagree.ready (by decide) (by decide))

/-- A context makes four processes and then puts one of them before another, by their links. -/
def stirringObjects : ImageAction Value := do
  let fork : UInt8 → List Instruction := fun r =>
    [.primitive2 Primitive.processFork.index.toUInt8 1, .storeRegister r]
  let relink : UInt8 → UInt8 → List Instruction := fun p next =>
    [.loadRegister p, .storeRegister 0, .loadRegister next, .storeInstVar Slot.Process.link.toUInt8]
  let bytes ← Image.onHeap (Heap.allocateBytes .nil #[])
  let block ← Image.onHeap (Heap.allocatePointers (.ofNat KernelClass.block.index) Slot.Block.count)
  let stirrer ← Image.newActivation
    (fork 2 ++ fork 3 ++ fork 4 ++ fork 5 ++ relink 3 5 ++ relink 4 3 ++ relink 2 4) 6
  Image.fillSlots block 0 [bytes, .nil, .ofNat 0, .ofNat 0, .ofNat 0, .ofNat 0]
  Image.fillSlots stirrer (Slot.Context.registers + 1) [block]
  return stirrer

theorem stirringObjects_stable : Stable [] stirringObjects := by
  refine .bind (Image.onHeap_stable (Heap.allocateBytes_stable (by simp) _)) fun bytes => ?_
  refine .bind (Image.onHeap_stable (Heap.allocatePointers_stable (by simp) _)) fun block => ?_
  refine .bind (Image.newActivation_stable _ _) fun stirrer => ?_
  refine .bind (Image.fillSlots_stable (by simp) _ (by simp)) fun _ => ?_
  refine .bind (Image.fillSlots_stable (by simp) _ (by simp)) fun _ => ?_
  exact .pure (by simp)

def meddling : List Report :=
  [⟨.spawn, 1, [1], none⟩, ⟨.spawn, 2, [1, 2], none⟩, ⟨.dispatch, 2, [2], some 1⟩,
    ⟨.execute (.primitive0 Primitive.processCurrent.index.toUInt8), 2, [2], some 1⟩,
    ⟨.execute (.storeRegister 0), 2, [2], some 1⟩, ⟨.leave .preempted, 2, [2, 1], none⟩,
    ⟨.dispatch, 2, [1], some 2⟩,
    ⟨.execute (.loadInstVar Slot.Context.registers.toUInt8), 2, [1], some 2⟩,
    ⟨.execute (.primitive1 Primitive.processSuspend.index.toUInt8), 2, [], some 2⟩,
    ⟨.leave .preempted, 2, [2], none⟩, ⟨.dispatch, 2, [], some 2⟩,
    ⟨.execute (.primitive1 Primitive.processResume.index.toUInt8), 2, [1], some 2⟩,
    ⟨.leave .preempted, 2, [1, 2], none⟩, ⟨.dispatch, 2, [2], some 1⟩]

theorem meddling_scripted :
    ((Stage.idle (.furnished meddlingObjects)).scripted [.spawn meek, .spawn meddler,
      .dispatch, .execute, .execute, .leave, .dispatch, .execute, .execute, .leave,
      .dispatch, .execute, .leave, .dispatch]).map Stage.reports = some meddling := by
  decide +kernel

def stirring : List Report :=
  let relinking (p next : UInt8) (before after : List Nat) : List Report :=
    [⟨.execute (.loadRegister p), 5, before, some 1⟩,
      ⟨.execute (.storeRegister 0), 5, before, some 1⟩,
      ⟨.execute (.loadRegister next), 5, before, some 1⟩,
      ⟨.execute (.storeInstVar Slot.Process.link.toUInt8), 5, after, some 1⟩]
  let forking (number : Nat) (is : List Nat) : List Report :=
    [⟨.execute (.primitive2 Primitive.processFork.index.toUInt8 1), number, is, some 1⟩,
      ⟨.execute (.storeRegister number.toUInt8), number, is, some 1⟩]
  [⟨.spawn, 1, [1], none⟩, ⟨.dispatch, 1, [], some 1⟩] ++
    forking 2 [2] ++ forking 3 [2, 3] ++ forking 4 [2, 3, 4] ++ forking 5 [2, 3, 4, 5] ++
    relinking 3 5 [2, 3, 4, 5] [2, 3, 5] ++ relinking 4 3 [2, 3, 5] [2, 3, 5] ++
    relinking 2 4 [2, 3, 5] [2, 4, 3, 5] ++
    [⟨.leave .preempted, 5, [2, 4, 3, 5, 1], none⟩, ⟨.dispatch, 5, [4, 3, 5, 1], some 2⟩,
      ⟨.leave .preempted, 5, [4, 3, 5, 1, 2], none⟩, ⟨.dispatch, 5, [3, 5, 1, 2], some 4⟩]

theorem stirring_scripted :
    ((Stage.idle (.furnished stirringObjects)).scripted
      ([.spawn (Machine.blankImage.furnished stirringObjects).1, .dispatch] ++
        List.replicate 20 .execute ++ [.leave, .dispatch, .leave, .dispatch])).map Stage.reports =
      some stirring := by
  decide +kernel

/-- A process that is ready throughout has two turns between two turns of another, if that one is
suspended and resumed in between. And a process that joins the queue has its turn before one that is
in it, if the program stores into the links. -/
theorem turns_missed :
    (∃ stage deed books, (∀ k, books k = (stage k).seen) ∧
      History stage deed (fun _ => Eq) 14 ∧ stage 0 = .idle (.furnished meddlingObjects) ∧
      TakenUp deed books 1 2 ∧ deed 5 = .leave .preempted ∧ TakenUp deed books 1 13 ∧
      (∀ k, 2 < k → k < 13 → ¬TakenUp deed books 1 k) ∧
      (∀ k, 2 < k → k ≤ 13 → (books k).Ready 2) ∧
      ¬∃! k, 2 < k ∧ k < 13 ∧ TakenUp deed books 2 k) ∧
    ∃ stage deed books, (∀ k, books k = (stage k).seen) ∧
      History stage deed (fun _ => Eq) 26 ∧ stage 0 = .idle (.furnished stirringObjects) ∧
      3 ∈ (books 6).runnable ∧ 4 ∉ (books 6).runnable ∧ 4 ∈ (books 7).runnable ∧
      (∀ k, 5 < k → k ≤ 25 → (books k).Ready 3) ∧ TakenUp deed books 4 25 ∧
      ∀ k, 6 ≤ k → k < 25 → ¬TakenUp deed books 3 k := by
  constructor
  · obtain ⟨hw, -⟩ := World.furnished_intact meddlingObjects_stable
    have hs : (Stage.idle (.furnished meddlingObjects)).Sound := hw
    obtain ⟨stage, deed, history, hstart, hreports⟩ := Stage.exists_history hs
      (fun context hcontext => meddling_sane (by simpa using hcontext)) meddling_scripted
    have hagree := Agree.seen hreports
    refine ⟨stage, deed, _, fun _ => rfl, history, hstart,
      (hagree.takenUp_iff (by decide)).mpr (by decide), ?_,
      (hagree.takenUp_iff (by decide)).mpr (by decide), hagree.not_takenUp (by decide) (by decide),
      hagree.ready (by decide) (by decide), ?_⟩
    · exact Deed.move_eq_leave.mp (hagree 5 (by decide)).1.symm
    · rintro ⟨k, -, hunique⟩
      have h₁ := hunique 6 ⟨by decide, by decide, (hagree.takenUp_iff (by decide)).mpr (by decide)⟩
      have h₂ := hunique 10 ⟨by decide, by decide, (hagree.takenUp_iff (by decide)).mpr (by decide)⟩
      exact absurd (h₁.trans h₂.symm) (by decide)
  · obtain ⟨hw, hstirrer⟩ := World.furnished_intact stirringObjects_stable
    have hs : (Stage.idle (.furnished stirringObjects)).Sound := hw
    obtain ⟨stage, deed, history, hstart, hreports⟩ := Stage.exists_history hs
      (fun context hcontext => by
        obtain rfl : context = _ := by simpa using hcontext
        exact hstirrer) stirring_scripted
    have hagree := Agree.seen hreports
    refine ⟨stage, deed, _, fun _ => rfl, history, hstart, ?_, ?_, ?_,
      hagree.ready (by decide) (by decide), (hagree.takenUp_iff (by decide)).mpr (by decide),
      hagree.not_takenUp (by decide) (by decide)⟩
    · rw [← (hagree 5 (by decide)).2.1]
      decide
    · rw [← (hagree 5 (by decide)).2.1]
      decide
    · rw [← (hagree 6 (by decide)).2.1]
      decide

end ObjectMachine
