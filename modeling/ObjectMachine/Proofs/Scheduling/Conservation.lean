import ObjectMachine.Proofs.Scheduling.Script

namespace ObjectMachine

section Ending

variable {m m₁ : Machine} {i : Instruction} {t : Track} {s s' : Stage} {d : Deed} {v : Value}

/-- No value is returned during a pause. -/
theorem Machine.Paused.stop_eq (hp : m.Paused i t m₁) : m₁.stop = m.stop := by
  cases hp.carries with
  | still => rfl
  | collected hneeds _ hsafe _ =>
    obtain ⟨m₀, live, schedule, image, hspill, -, hunspill⟩ :=
      Machine.safepoint_collects hneeds hsafe
    obtain ⟨heap, rfl⟩ := Machine.spill_eq_ok hspill
    obtain ⟨_, _, _, _, _, _, _, _, -, -, -, -, rfl⟩ := Machine.unspill_eq_ok hunspill
    rfl

theorem Stage.Step.stop_of_leave (hstep : s.Step (.leave (.returned v)) t s') :
    ∃ m, s = .running m ∧ m.stop = some (.returned v) := by
  cases hstep with
  | leave hquits _ =>
    cases hquits with
    | returned hstop => exact ⟨_, rfl, hstop⟩
    | asked _ hreturned _ => exact absurd rfl (hreturned v)

/-- The value of a process comes from the instruction before. -/
theorem Stage.Step.returns (hs : s.Sound) (hstep : s.Step d t (.running m))
    (hend : m.stop = some (.returned v)) : ∃ i m₁, d = .execute i m₁ ∧ m₁.Returns i v := by
  cases hstep with
  | dispatch _ hunspill =>
    obtain ⟨_, _, _, _, _, _, _, _, -, -, -, -, rfl⟩ := Machine.unspill_eq_ok hunspill
    cases hend
  | @execute m₂ m₀ m₁ _ i _ hstop hf hp heq =>
    have hm₀ := hf.intact hs.1
    have hstop₀ : m₀.stop = none := by
      obtain ⟨_, _, _, _, rfl⟩ := hf.eq
      exact hstop
    obtain ⟨hm₁, -⟩ := hp.pause.leaves hm₀ hstop₀ (by simp [heq])
    exact ⟨i, m₁, rfl, Machine.execute_returns hm₁ hp.pause (hp.stop_eq.trans hstop₀) heq hend⟩

end Ending

/-- The books of a fresh schedule are empty. -/
theorem Accounts.fresh (h : Heap) : Accounts {} (fun _ _ => False) {} h :=
  ⟨⟨by simp, by simp⟩, .refl _, ⟨⟨[], Queue.represents_nil, .nil⟩, ⟨[], Queue.represents_nil, .nil⟩,
    by simp⟩, rfl, by simp, by simp, by simp, .nil⟩

/-- As long as numbers can be recorded, the log tells them. -/
theorem Accounts.logged {b : Books} {roll : Roll} {s : Schedule} {h : Heap}
    (ha : Accounts b roll s h) (hs : s.spawned < 0x1000000000000000) :
    s.finished.toList.map (·.id) = b.finished := by
  have hmem : ∀ i ∈ b.finished, Books.recorded i = i := by
    intro i hi
    have hall : i ∈ b.all := by simp [Books.all, hi]
    have hrange := List.mem_range'_1.mp (ha.partition.mem_iff.mp hall)
    exact Books.recorded_eq (by omega)
  have hids : s.finished.toList.map (·.id) = b.finished.map Books.recorded := by
    rw [← List.forall₂_eq_eq_eq, List.forall₂_map_left_iff, List.forall₂_map_right_iff]
    exact ha.finished.flip
  rw [hids, List.map_congr_left hmem, List.map_id']

/-- The processes that have been made in a history, wherever they have moved. -/
def Stage.roll (stage : Nat → Stage) (track : Nat → Track) : Nat → Roll
  | 0 => fun _ _ => False
  | k + 1 =>
    ((roll stage track k).moved (track k)).joined (stage k).schedule (stage (k + 1)).schedule

section Histories

variable {stage : Nat → Stage} {deed : Nat → Deed} {track : Nat → Track} {n : Nat} {w : World}

/-- Books can be kept throughout a history. -/
theorem History.exists_books (history : History stage deed track n) (hstart : stage 0 = .idle w)
    (hfresh : w.schedule = {})
    (hstores : ∀ k < n, ∀ i p j, (Stage.roll stage track k).moved (track k) i p →
      ¬(deed k).Stores ⟨p, j⟩) :
    ∃ books : Nat → Books, books 0 = {} ∧
      (∀ k ≤ n, (stage k).Tallied (books k) (Stage.roll stage track k)) ∧
      ∀ k < n, (books k).Entry (stage k).schedule.spawned (deed k) (books (k + 1)) ∧
        (books k).Logs (track k) (stage k).schedule (stage (k + 1)).schedule (deed k) := by
  induction n with
  | zero =>
    refine ⟨fun _ => {}, rfl, fun k hk => ?_, nofun⟩
    obtain rfl := Nat.le_zero.mp hk
    rw [hstart]
    refine ⟨?_, rfl⟩
    have hnew := Accounts.fresh w.image.heap
    rwa [← hfresh] at hnew
  | succ n ih =>
    obtain ⟨books, hzero, htallied, hentries⟩ := ih
      ⟨history.sound, fun k hk => history.step k (hk.trans n.lt_succ_self)⟩
      fun k hk => hstores k (hk.trans n.lt_succ_self)
    obtain ⟨b, hentry, htallied', hlogs⟩ := (history.step n n.lt_succ_self).tallied
      (history.sound_at n.le_succ) (htallied n le_rfl)
      fun {i p j} => hstores n n.lt_succ_self i p j
    refine ⟨fun k => if k ≤ n then books k else b, by simpa using hzero, fun k hk => ?_,
      fun k hk => ?_⟩
    · by_cases hkn : k ≤ n
      · simpa [hkn] using htallied k hkn
      · obtain rfl : k = n + 1 := by omega
        simp only [hkn, if_false]
        exact htallied'
    · by_cases hkn : k < n
      · simpa [hkn, hkn.le, Nat.succ_le_of_lt hkn] using hentries k hkn
      · obtain rfl : k = n := by omega
        simpa using ⟨hentry, hlogs⟩

/-- A process is over when the last of its contexts has returned. -/
theorem History.returned_by (history : History stage deed track n) (hstart : stage 0 = .idle w)
    {k : Nat} {v : Value} (hk : k < n) (hdeed : deed k = .leave (.returned v)) :
    ∃ j i m, k = j + 1 ∧ deed j = .execute i m ∧ m.Returns i v := by
  have hlast := history.step k hk
  rw [hdeed] at hlast
  obtain ⟨m, hrunning, hend⟩ := hlast.stop_of_leave
  cases k with
  | zero => exact nomatch hstart.symm.trans hrunning
  | succ j =>
    have hj : j < n := by omega
    have hbefore := history.step j hj
    rw [hrunning] at hbefore
    obtain ⟨i, m₁, hexecute, hreturns⟩ := hbefore.returns (history.sound_at hj.le) hend
    exact ⟨j, i, m₁, rfl, hexecute, hreturns⟩

/-- No process is lost or duplicated. In a history that begins with a fresh schedule, and in which
no program stores into a process, every process that has been made is in one place at every stage:
ready, waiting, running, over or aborted, and there once. -/
theorem History.processes_conserved (history : History stage deed track n)
    (hstart : stage 0 = .idle w) (hfresh : w.schedule = {})
    (hstores : ∀ k < n, ∀ i p j, (Stage.roll stage track k).moved (track k) i p →
      ¬(deed k).Stores ⟨p, j⟩) :
    ∃ books : Nat → Books, books 0 = {} ∧
      -- The books are right: about queues, the process that runs, and the log.
      (∀ k ≤ n, (stage k).Tallied (books k) (Stage.roll stage track k) ∧
        (∀ i, 0 < i → i ≤ (stage k).schedule.spawned → (books k).all.count i = 1) ∧
        ((stage k).schedule.spawned < 0x1000000000000000 →
          (stage k).schedule.finished.toList.map (·.id) = (books k).finished)) ∧
      -- What a process says of its state is where it is.
      (∀ k ≤ n, ∀ i p, Stage.roll stage track k i p →
        ((stage k).heap.Holds ⟨p, Slot.Process.state⟩ ProcessState.runnable.toValue ↔
          i ∈ (books k).runnable ∨ (books k).current = some i) ∧
        ((stage k).heap.Holds ⟨p, Slot.Process.state⟩ ProcessState.waiting.toValue ↔
          i ∈ (books k).waiting) ∧
        ((stage k).heap.Holds ⟨p, Slot.Process.state⟩ ProcessState.done.toValue ↔
          i ∈ (books k).finished ∨ i ∈ (books k).aborted)) ∧
      -- Each step makes one entry at most, and logs nothing but a process that is over.
      (∀ k < n, (books k).Entry (stage k).schedule.spawned (deed k) (books (k + 1)) ∧
        (books k).Logs (track k) (stage k).schedule (stage (k + 1)).schedule (deed k)) ∧
      -- A process is over when a context without a caller has returned.
      (∀ k < n, ∀ v, deed k = .leave (.returned v) →
        ∃ j i m, k = j + 1 ∧ deed j = .execute i m ∧ m.Returns i v) ∧
      -- When a process is aborted, the others stay as they are.
      (∀ k < n, deed k = .abort → (stage (k + 1)).schedule.current = .nil ∧
        (books (k + 1)).runnable = (books k).runnable ∧
        (books (k + 1)).waiting = (books k).waiting) ∧
      -- A run of the world goes on with the history, and ends with an abortion if it fails.
      ∀ w', stage n = .idle w' → ∀ timer fuel, (Stage.idle w').Ran (World.run timer fuel w') := by
  obtain ⟨books, hzero, htallied, hentries⟩ := history.exists_books hstart hfresh hstores
  refine ⟨books, hzero, fun k hk => ⟨htallied k hk, ?_, (htallied k hk).accounts.logged⟩,
    fun k hk i p => (htallied k hk).accounts.state_iff, hentries,
    fun k hk v => history.returned_by hstart hk, fun k hk hdeed => ?_, fun w' hend timer fuel => ?_⟩
  · intro i hpos hi
    exact (htallied k hk).accounts.count_eq_one hpos hi
  · obtain ⟨hentry, -⟩ := hentries k hk
    have hafter := (htallied (k + 1) hk).accounts.current
    rw [hdeed] at hentry
    generalize books (k + 1) = b at hentry hafter
    cases hentry with
    | abort _ => exact ⟨hafter, rfl, rfl⟩
  · have hsound := history.sound_at le_rfl
    rw [hend] at hsound
    exact World.run_ran hsound timer fuel

end Histories

/-- Two contexts. The first one lets others run, the second one returns, and it holds the first one
in its register. -/
def twinObjects : ImageAction Value := do
  let first ← Image.newActivation [.primitive0 Primitive.processYield.index.toUInt8] 1
  let second ← Image.newActivation [.return_] 1
  Image.fillSlots second Slot.Context.registers [first]
  return second

theorem twinObjects_stable : Stable [] twinObjects := by
  refine .bind (Image.newActivation_stable _ _) fun first => ?_
  refine .bind (Image.newActivation_stable _ _) fun second => ?_
  refine .bind (Image.fillSlots_stable (by simp) _ (by simp)) fun _ => ?_
  exact .pure (by simp)

def firstTwin : Value := .ofAddress ⟨.pointers, 12⟩

def secondTwin : Value := (Machine.blankImage.furnished twinObjects).1

theorem twins_sane {context : Value} (hcontext : context = firstTwin ∨ context = secondTwin) :
    Sane (World.furnished twinObjects) context := by
  obtain ⟨hw, hsecond⟩ := World.furnished_intact twinObjects_stable
  rcases hcontext with rfl | rfl
  · have hfirst : (World.furnished twinObjects).image.heap.Holds
        ⟨secondTwin, Slot.Context.registers⟩ firstTwin := ⟨hsecond, by decide +kernel⟩
    exact hfirst.value_sane hw.whole
  · exact hsecond

/-- Two processes are made and taken up in turn. The first one yields, the second one returns. -/
def twinReports : List Report :=
  [⟨.spawn, 1, [1], none⟩, ⟨.spawn, 2, [1, 2], none⟩, ⟨.dispatch, 2, [2], some 1⟩,
    ⟨.execute (.primitive0 Primitive.processYield.index.toUInt8), 2, [2], some 1⟩,
    ⟨.leave .yielded, 2, [2, 1], none⟩, ⟨.dispatch, 2, [1], some 2⟩,
    ⟨.execute .return_, 2, [1], some 2⟩, ⟨.leave (.returned .nil), 2, [1], none⟩]

theorem twins_scripted :
    ((Stage.idle (.furnished twinObjects)).scripted [.spawn firstTwin, .spawn secondTwin,
      .dispatch, .execute, .leave, .dispatch, .execute, .leave]).map Stage.reports =
      some twinReports := by
  decide +kernel

theorem twins_store_nothing {k : Nat} (hk : k < twinReports.length) {d : Deed} {s : Stage}
    (hreport : twinReports[k] = .of d s) (c : Cell) : ¬d.Stores c := by
  have hmoves : ∀ r ∈ twinReports, r.move ≠ .other ∧ ∀ i, r.move = .execute i →
      i = .return_ ∨ i = .primitive0 Primitive.processYield.index.toUInt8 := by
    simp [twinReports]
  obtain ⟨hother, hexecute⟩ := hmoves _ (List.getElem_mem hk)
  rw [hreport] at hother hexecute
  cases d with
  | outside => exact absurd rfl hother
  | execute i m =>
    rcases hexecute i rfl with rfl | rfl
    · exact nofun
    · intro hstores
      cases hstores with
      | primitive hcalls hstores =>
        obtain ⟨index, act, hcall, hprim, -⟩ := hcalls
        obtain ⟨rfl, -⟩ := Prod.mk.inj (Option.some.inj hcall)
        obtain rfl := Option.some.inj hprim
        exact hstores
  | _ => exact id

/-- While the first one waits for its next turn, the second one is over. -/
theorem twins_conserved : ∃ (stage : Nat → Stage) (deed : Nat → Deed) (books : Nat → Books),
    History stage deed (fun _ => Eq) 8 ∧
    (stage 8).Tallied (books 8) (Stage.roll stage (fun _ => Eq) 8) ∧
    (books 5).runnable = [2, 1] ∧ (books 8).runnable = [1] ∧ 2 ∈ (books 8).finished := by
  obtain ⟨hw, -⟩ := World.furnished_intact twinObjects_stable
  have hs : (Stage.idle (.furnished twinObjects)).Sound := hw
  obtain ⟨stage, deed, history, hstart, hreports⟩ := Stage.exists_history hs
    (fun context hcontext => twins_sane (by simpa using hcontext)) twins_scripted
  obtain ⟨books, -, hright, -, hentries, -⟩ := history.processes_conserved hstart rfl
    fun k hk _ _ _ _ => twins_store_nothing hk (hreports k hk) _
  have hbooks : ∀ k (hk : k < twinReports.length),
      (books (k + 1)).runnable = twinReports[k].runnable ∧
        (books (k + 1)).current = twinReports[k].current := by
    intro k hk
    have hseen : ∀ r ∈ twinReports, r.runnable ≠ [] ∧ r.spawned < 0x1000000000000000 := by decide
    obtain ⟨hsome, hfew⟩ := hseen _ (List.getElem_mem hk)
    rw [hreports k hk] at hsome hfew ⊢
    exact (hright (k + 1) hk).1.lineup_eq hfew (Stage.lineup_eq_seen hsome)
  refine ⟨stage, deed, books, history, (hright 8 le_rfl).1, (hbooks 4 (by decide)).1,
    (hbooks 7 (by decide)).1, ?_⟩
  obtain ⟨hentry, -⟩ := hentries 7 (by decide)
  rw [Deed.move_eq_leave.mp (congrArg Report.move (hreports 7 (by decide))).symm] at hentry
  have hcurrent : (books 7).current = some 2 := (hbooks 6 (by decide)).2
  generalize books 8 = after at hentry
  cases hentry with
  | finish hi =>
    obtain rfl := Option.some.inj (hi.symm.trans hcurrent)
    simp

end ObjectMachine
