import Mathlib.Data.List.Nodup
import ObjectMachine.Proofs.Machine.Pausing
import ObjectMachine.Proofs.Scheduling.Queueing

namespace ObjectMachine

abbrev Roll := Nat → Value → Prop

structure Roll.Distinct (roll : Roll) : Prop where
  unique : ∀ {i p p'}, roll i p → roll i p' → p = p'
  injective : ∀ {i j p}, roll i p → roll j p → i = j

/-- New processes are at the end of the queue of those that are ready. -/
def Roll.joined (roll : Roll) (s s' : Schedule) : Roll := fun i p =>
  roll i p ∨ s.spawned < i ∧ i ≤ s'.spawned ∧ p = s'.runnable.tail

theorem Roll.joined_eq {roll : Roll} {s s' : Schedule} (h : s'.spawned = s.spawned) :
    roll.joined s s' = roll := by
  funext i p
  rw [joined, h]
  refine propext ⟨fun hi => hi.resolve_right ?_, .inl⟩
  rintro ⟨hlt, hle, -⟩
  omega

theorem Roll.joined_congr {roll : Roll} {s₁ s₂ s' : Schedule} (h : s₁.spawned = s₂.spawned) :
    roll.joined s₁ s' = roll.joined s₂ s' := by
  funext i p
  rw [joined, joined, h]

section Queued

variable {roll : Roll} {h h' : Heap} {q₁ q₂ q' : Queue} {is is₁ is₂ : List Nat} {i : Nat}
  {p : Value} {ps : List Value} {ε : Type}

theorem mem_iff_of_forall₂ (hroll : roll.Distinct) (hps : List.Forall₂ roll is ps)
    (hi : roll i p) : p ∈ ps ↔ i ∈ is := by
  induction hps with
  | nil => simp
  | @cons j x is ps hj _ ih =>
    rw [List.mem_cons, List.mem_cons, ih]
    refine or_congr_left ⟨?_, ?_⟩
    · rintro rfl
      exact hroll.injective hi hj
    · rintro rfl
      exact hroll.unique hi hj

theorem forall₂_erase (hroll : roll.Distinct) (hps : List.Forall₂ roll is ps) (hi : roll i p) :
    List.Forall₂ roll (is.erase i) (ps.erase p) := by
  induction hps with
  | nil => exact .nil
  | @cons j x is ps hj hrest ih =>
    rw [List.erase_cons, List.erase_cons]
    by_cases hsame : j = i
    · obtain rfl := hsame
      obtain rfl := hroll.unique hj hi
      simpa using hrest
    · have hother : x ≠ p := by
        rintro rfl
        exact hsame (hroll.injective hj hi)
      simpa [hsame, hother] using ⟨hj, ih⟩

/-- Two queues and the processes that stand in them. All others are unlinked. -/
structure Queued (roll : Roll) (h : Heap) (q₁ : Queue) (is₁ : List Nat) (q₂ : Queue)
    (is₂ : List Nat) : Prop where
  first : ∃ ps, q₁.Represents h ps ∧ List.Forall₂ roll is₁ ps
  second : ∃ ps, q₂.Represents h ps ∧ List.Forall₂ roll is₂ ps
  unlinked : ∀ {i p}, roll i p → i ∉ is₁ → i ∉ is₂ → h.Holds ⟨p, Slot.Process.link⟩ .nil

namespace Queued

theorem swap (hq : Queued roll h q₁ is₁ q₂ is₂) : Queued roll h q₂ is₂ q₁ is₁ :=
  ⟨hq.second, hq.first, fun hi h₂ h₁ => hq.unlinked hi h₁ h₂⟩

theorem frame (hq : Queued roll h q₁ is₁ q₂ is₂)
    (hlinks : ∀ {i p x}, roll i p → h.Holds ⟨p, Slot.Process.link⟩ x →
      h'.Holds ⟨p, Slot.Process.link⟩ x) : Queued roll h' q₁ is₁ q₂ is₂ := by
  obtain ⟨⟨ps₁, hq₁, hps₁⟩, ⟨ps₂, hq₂, hps₂⟩, hunlinked⟩ := hq
  refine ⟨⟨ps₁, hq₁.frame fun p hp x hx => ?_, hps₁⟩, ⟨ps₂, hq₂.frame fun p hp x hx => ?_, hps₂⟩,
    fun hi h₁ h₂ => hlinks hi (hunlinked hi h₁ h₂)⟩
  · obtain ⟨i, -, hi⟩ := exists_of_forall₂ hps₁ hp
    exact hlinks hi hx
  · obtain ⟨i, -, hi⟩ := exists_of_forall₂ hps₂ hp
    exact hlinks hi hx

/-- A process is put at the end of the first queue. -/
theorem enqueue (hq : Queued roll h q₁ is₁ q₂ is₂) (hroll : roll.Distinct) (whole : h.Whole)
    (hi : roll i p) (h₁ : i ∉ is₁) (h₂ : i ∉ is₂) (hdisjoint : is₁.Disjoint is₂)
    (heq : (q₁.enqueue p : Action ε Heap Queue) h = .ok q' h') :
    Queued roll h' q' (is₁ ++ [i]) q₂ is₂ ∧ ∃ ps, h.Relinks ps h' := by
  have hsane := (hq.unlinked hi h₁ h₂).sane
  obtain ⟨⟨ps₁, hq₁, hps₁⟩, ⟨ps₂, hq₂, hps₂⟩, hunlinked⟩ := hq
  have hp : p ∉ ps₁ := (mem_iff_of_forall₂ hroll hps₁ hi).not.mpr h₁
  obtain ⟨hq', hr⟩ := hq₁.enqueue whole hp hsane heq
  refine ⟨⟨⟨_, hq', List.rel_append hps₁ (.cons hi .nil)⟩,
    ⟨ps₂, hq₂.frame fun x hx y hy => ?_, hps₂⟩, ?_⟩, ps₁, hr⟩
  · obtain ⟨j, hj, hjx⟩ := exists_of_forall₂ hps₂ hx
    refine hr.kept (fun _ => (mem_iff_of_forall₂ hroll hps₁ hjx).not.mpr fun hj' => ?_) hy
    exact hdisjoint hj' hj
  · intro j x hj hj₁ hj₂
    simp only [List.mem_append, List.mem_singleton, not_or] at hj₁
    exact hr.kept (fun _ => (mem_iff_of_forall₂ hroll hps₁ hj).not.mpr hj₁.1)
      (hunlinked hj hj₁.1 hj₂)

/-- The first process of the first queue is taken off it. -/
theorem dequeue (hq : Queued roll h q₁ is₁ q₂ is₂) (hroll : roll.Distinct) (whole : h.Whole)
    (hdisjoint : is₁.Disjoint is₂)
    (heq : (q₁.dequeue : Action ε Heap (Option Value × Queue)) h = .ok (some p, q') h') :
    ∃ i is, is₁ = i :: is ∧ roll i p ∧ Queued roll h' q' is q₂ is₂ ∧ ∃ ps, h.Relinks ps h' := by
  obtain ⟨⟨ps₁, hq₁, hps₁⟩, ⟨ps₂, hq₂, hps₂⟩, hunlinked⟩ := hq
  obtain ⟨rest, rfl, hq', hr, hlink⟩ := hq₁.dequeue whole heq
  cases hps₁ with
  | @cons i _ is _ hi hrest =>
    refine ⟨i, is, rfl, hi, ⟨⟨rest, hq', hrest⟩, ⟨ps₂, hq₂.frame fun x hx y hy => ?_, hps₂⟩, ?_⟩, _,
      hr⟩
    · obtain ⟨j, hj, hjx⟩ := exists_of_forall₂ hps₂ hx
      refine hr.kept (fun _ hmem => ?_) hy
      obtain rfl := hroll.injective hjx (List.mem_singleton.mp hmem ▸ hi)
      exact hdisjoint List.mem_cons_self hj
    · intro j x hj hj₁ hj₂
      by_cases hsame : j = i
      · obtain rfl := hsame
        rwa [hroll.unique hj hi]
      · refine hr.kept (fun _ hmem => ?_) (hunlinked hj (by simp [hsame, hj₁]) hj₂)
        obtain rfl : x = p := List.mem_singleton.mp hmem
        exact hsame (hroll.injective hj hi)

/-- A process is looked for in the first queue, and taken out of it. -/
theorem remove {found : Bool} (hq : Queued roll h q₁ is₁ q₂ is₂) (hroll : roll.Distinct)
    (whole : h.Whole) (hdisjoint : is₁.Disjoint is₂)
    (heq : (q₁.remove p : Action ε Heap _) h = .ok (found, q') h') :
    found = false ∧ q' = q₁ ∧ h' = h ∨ ∃ i ∈ is₁, roll i p ∧ found = true ∧
      Queued roll h' q' (is₁.erase i) q₂ is₂ ∧ ∃ ps, h.Relinks ps h' := by
  obtain ⟨⟨ps₁, hq₁, hps₁⟩, ⟨ps₂, hq₂, hps₂⟩, hunlinked⟩ := hq
  rcases hq₁.remove whole heq with ⟨-, hkept⟩ | ⟨hp, rfl, hq', hr, hlink⟩
  · exact .inl hkept
  obtain ⟨i, hi, hip⟩ := exists_of_forall₂ hps₁ hp
  refine .inr ⟨i, hi, hip, rfl, ⟨⟨_, hq', forall₂_erase hroll hps₁ hip⟩,
    ⟨ps₂, hq₂.frame fun x hx y hy => ?_, hps₂⟩, ?_⟩, ps₁, hr⟩
  · obtain ⟨j, hj, hjx⟩ := exists_of_forall₂ hps₂ hx
    refine hr.kept (fun _ => (mem_iff_of_forall₂ hroll hps₁ hjx).not.mpr fun hj' => ?_) hy
    exact hdisjoint hj' hj
  · intro j x hj hj₁ hj₂
    by_cases hsame : j = i
    · obtain rfl := hsame
      rwa [hroll.unique hj hip]
    · have hj₁' : j ∉ is₁ := fun h => hj₁ ((List.mem_erase_of_ne hsame).mpr h)
      exact hr.kept (fun _ => (mem_iff_of_forall₂ hroll hps₁ hj).not.mpr hj₁')
        (hunlinked hj hj₁' hj₂)

end Queued

end Queued

structure Books where
  runnable : List Nat := []
  waiting : List Nat := []
  current : Option Nat := none
  finished : List Nat := []
  aborted : List Nat := []

namespace Books

variable {b : Books} {i j : Nat}

/-- All processes, in whatever place they are. -/
def all (b : Books) : List Nat :=
  b.runnable ++ b.waiting ++ b.current.toList ++ b.finished ++ b.aborted

def state (b : Books) (i : Nat) : ProcessState :=
  if i ∈ b.runnable ∨ b.current = some i then .runnable
  else if i ∈ b.waiting then .waiting
  else .done

def recorded (i : Nat) : Nat := (Value.ofNat i).toNat?.getD 0

theorem recorded_eq (hi : i < 0x1000000000000000) : recorded i = i := by
  rw [recorded, Value.toNat?_ofNat hi]
  rfl

theorem disjoint_of_nodup (hb : b.all.Nodup) : b.runnable.Disjoint b.waiting := by
  intro i h₁ h₂
  have hcount := List.nodup_iff_count_le_one.mp hb i
  have := List.count_pos_iff.mpr h₁
  have := List.count_pos_iff.mpr h₂
  simp only [all, List.count_append] at hcount
  omega

theorem nodup_runnable (hb : b.all.Nodup) : b.runnable.Nodup := by
  simp only [all, List.append_assoc] at hb
  exact (List.nodup_append.mp hb).1

theorem nodup_waiting (hb : b.all.Nodup) : b.waiting.Nodup := by
  simp only [all, List.append_assoc] at hb
  exact (List.nodup_append.mp (List.nodup_append.mp hb).2.1).1

/-- The process that runs stands in no queue. -/
theorem not_mem_of_current (hb : b.all.Nodup) (hi : b.current = some i) :
    i ∉ b.runnable ∧ i ∉ b.waiting := by
  have hcount := List.nodup_iff_count_le_one.mp hb i
  simp only [all, List.count_append, hi, Option.toList_some, List.count_singleton_self] at hcount
  refine ⟨fun h => ?_, fun h => ?_⟩
  · have := List.count_pos_iff.mpr h
    omega
  · have := List.count_pos_iff.mpr h
    omega

end Books

structure Accounts (b : Books) (roll : Roll) (s : Schedule) (h : Heap) : Prop where
  distinct : roll.Distinct
  partition : b.all.Perm (List.range' 1 s.spawned)
  queued : Queued roll h s.runnable b.runnable s.waiting b.waiting
  current : b.current.elim (s.current = .nil) (roll · s.current)
  known : ∀ {i p}, roll i p → 0 < i ∧ i ≤ s.spawned
  number : ∀ {i p}, roll i p → h.Holds ⟨p, Slot.Process.id⟩ (.ofNat i)
  state : ∀ {i p}, roll i p → h.Holds ⟨p, Slot.Process.state⟩ (b.state i).toValue
  finished : List.Forall₂ (fun i f => f.id = Books.recorded i) b.finished s.finished.toList

section Entries

variable {b : Books} {roll : Roll} {s : Schedule} {h h₁ h' : Heap} {q' : Queue} {i : Nat}
  {p : Value} {ε : Type}

theorem Accounts.nodup (ha : Accounts b roll s h) : b.all.Nodup :=
  ha.partition.nodup_iff.mpr (List.nodup_range' ..)

theorem Accounts.joins {s' : Schedule} (ha : Accounts b roll s' h)
    (hspawned : s'.spawned = s.spawned) : Accounts b (roll.joined s s') s' h := by
  rwa [Roll.joined_eq hspawned]

theorem Roll.Distinct.states {f f' : Nat → ProcessState} {st : ProcessState}
    (hroll : roll.Distinct) (hi : roll i p)
    (hf : ∀ {j x}, roll j x → h.Holds ⟨x, Slot.Process.state⟩ (f j).toValue)
    (hwritten : h'.Holds ⟨p, Slot.Process.state⟩ st.toValue)
    (hkept : ∀ {x y}, x ≠ p → h.Holds ⟨x, Slot.Process.state⟩ y →
      h'.Holds ⟨x, Slot.Process.state⟩ y)
    (hsame : f' i = st) (hothers : ∀ j, j ≠ i → f' j = f j) {j : Nat} {x : Value}
    (hj : roll j x) : h'.Holds ⟨x, Slot.Process.state⟩ (f' j).toValue := by
  by_cases hji : j = i
  · obtain rfl := hji
    rw [hsame, hroll.unique hj hi]
    exact hwritten
  · rw [hothers j hji]
    refine hkept ?_ (hf hj)
    rintro rfl
    exact hji (hroll.injective hj hi)

/-- The first process that is ready is taken up. -/
theorem Accounts.dequeue (ha : Accounts b roll s h) (whole : h.Whole) (hidle : b.current = none)
    (heq : (s.runnable.dequeue : Action ε Heap (Option Value × Queue)) h = .ok (some p, q') h') :
    ∃ i is, b.runnable = i :: is ∧ Accounts { b with runnable := is, current := some i } roll
      { s with runnable := q', current := p } h' := by
  obtain ⟨i, is, hrunnable, hi, hqueued, ps, hr⟩ :=
    ha.queued.dequeue ha.distinct whole (Books.disjoint_of_nodup ha.nodup) heq
  refine ⟨i, is, hrunnable, ha.distinct, ?_, hqueued, hi, ha.known,
    fun hj => hr.kept (by simp) (ha.number hj), fun {j x} hj => ?_, ha.finished⟩
  · refine List.Perm.trans ?_ ha.partition
    rw [List.perm_iff_count]
    intro j
    simp only [Books.all, hrunnable, hidle, List.count_append, List.count_cons, Option.toList]
    omega
  · have hstate : Books.state { b with runnable := is, current := some i } j = b.state j := by
      simp [Books.state, hrunnable, hidle, or_comm, eq_comm]
    rw [hstate]
    exact hr.kept (by simp) (ha.state hj)

/-- The process that runs goes back to the end of the queue. -/
theorem Accounts.requeue (ha : Accounts b roll s h) (whole : h.Whole)
    (hcurrent : b.current = some i)
    (heq : (s.runnable.enqueue s.current : Action ε Heap Queue) h = .ok q' h') :
    Accounts { b with runnable := b.runnable ++ [i], current := none } roll
      { s with runnable := q', current := .nil } h' := by
  have hi : roll i s.current := by simpa [hcurrent] using ha.current
  obtain ⟨h₁, h₂⟩ := Books.not_mem_of_current ha.nodup hcurrent
  obtain ⟨hqueued, ps, hr⟩ := ha.queued.enqueue ha.distinct whole hi h₁ h₂
    (Books.disjoint_of_nodup ha.nodup) heq
  refine ⟨ha.distinct, ?_, hqueued, rfl, ha.known, fun hj => hr.kept (by simp) (ha.number hj),
    fun {j x} hj => ?_, ha.finished⟩
  · refine List.Perm.trans ?_ ha.partition
    rw [List.perm_iff_count]
    intro j
    simp only [Books.all, hcurrent, List.count_append, Option.toList, List.count_nil]
    omega
  · have hstate : Books.state { b with runnable := b.runnable ++ [i], current := none } j =
        b.state j := by
      simp [Books.state, hcurrent, eq_comm]
    rw [hstate]
    exact hr.kept (by simp) (ha.state hj)

theorem Accounts.park (ha : Accounts b roll s h) (hcurrent : b.current = some i)
    (hr : h.Rewrites h₁ ⟨s.current, Slot.Process.state⟩ ProcessState.waiting.toValue)
    (heq : (s.waiting.enqueue s.current : Action ε Heap Queue) h₁ = .ok q' h') :
    Accounts { b with waiting := b.waiting ++ [i], current := none } roll
      { s with waiting := q', current := .nil } h' := by
  have hi : roll i s.current := by simpa [hcurrent] using ha.current
  obtain ⟨hrunnable, hwaiting⟩ := Books.not_mem_of_current ha.nodup hcurrent
  have hqueued₁ : Queued roll h₁ s.runnable b.runnable s.waiting b.waiting :=
    ha.queued.frame fun _ hx => hr.others (by simp) hx
  obtain ⟨hqueued, ps, hr'⟩ := hqueued₁.swap.enqueue ha.distinct hr.whole hi hwaiting hrunnable
    (fun _ h₁ h₂ => Books.disjoint_of_nodup ha.nodup h₂ h₁) heq
  refine ⟨ha.distinct, ?_, hqueued.swap, rfl, ha.known,
    fun hj => hr'.kept (by simp) (hr.others (by simp) (ha.number hj)),
    ha.distinct.states hi ha.state (hr'.kept (by simp) hr.written)
      (fun hx hy => hr'.kept (by simp) (hr.others (by simp [hx]) hy)) ?_ fun j hj => ?_,
    ha.finished⟩
  · refine List.Perm.trans ?_ ha.partition
    rw [List.perm_iff_count]
    intro j
    simp only [Books.all, hcurrent, List.count_append, Option.toList, List.count_nil]
    omega
  · simp [Books.state, hrunnable]
  · simp [Books.state, hcurrent, hj, Ne.symm hj]

/-- The process that runs comes to an end. -/
theorem Accounts.close {finished aborted : List Nat} {records : Array Finished}
    (ha : Accounts b roll s h) (hcurrent : b.current = some i)
    (hwritten : h'.Holds ⟨s.current, Slot.Process.state⟩ ProcessState.done.toValue)
    (hkept : ∀ {c x}, c.object ≠ s.current ∨ c.index = Slot.Process.id ∨
      c.index = Slot.Process.link → h.Holds c x → h'.Holds c x)
    (hentry : (finished ++ aborted).Perm (i :: (b.finished ++ b.aborted)))
    (hrecords : List.Forall₂ (fun i f => f.id = Books.recorded i) finished records.toList) :
    Accounts { b with current := none, finished, aborted } roll
      { s with current := .nil, finished := records } h' := by
  have hi : roll i s.current := by simpa [hcurrent] using ha.current
  obtain ⟨hrunnable, hwaiting⟩ := Books.not_mem_of_current ha.nodup hcurrent
  refine ⟨ha.distinct, ?_, ha.queued.frame fun _ hx => hkept (by simp) hx, rfl, ha.known,
    fun hj => hkept (by simp) (ha.number hj),
    ha.distinct.states hi ha.state hwritten (fun hx hy => hkept (.inl hx) hy) ?_ fun j hj => ?_,
    hrecords⟩
  · refine List.Perm.trans ?_ ha.partition
    rw [List.perm_iff_count]
    intro j
    have := List.perm_iff_count.mp hentry j
    simp only [Books.all, hcurrent, List.count_append, Option.toList, List.count_nil,
      List.count_cons] at this ⊢
    omega
  · simp [Books.state, hrunnable, hwaiting]
  · simp [Books.state, hcurrent, Ne.symm hj]

/-- A process is moved from the first queue to the end of the second. -/
theorem Queued.transfer {q₁ q₂ q₁' q₂' : Queue} {is₁ is₂ : List Nat} {h₂ : Heap} {st : ProcessState}
    (hq : Queued roll h q₁ is₁ q₂ is₂) (hroll : roll.Distinct) (whole : h.Whole)
    (hdisjoint : is₁.Disjoint is₂) (hnodup : is₁.Nodup)
    (hremove : (q₁.remove p : Action ε Heap _) h = .ok (true, q₁') h₁)
    (hset : Heap.setSlot p Slot.Process.state st.toValue (ε := ε) h₁ = .ok () h₂)
    (henqueue : (q₂.enqueue p : Action ε Heap Queue) h₂ = .ok q₂' h') :
    ∃ i ∈ is₁, roll i p ∧ Queued roll h' q₁' (is₁.erase i) q₂' (is₂ ++ [i]) ∧
      h'.Holds ⟨p, Slot.Process.state⟩ st.toValue ∧
      ∀ {c x}, c.index ≠ Slot.Process.link → c ≠ ⟨p, Slot.Process.state⟩ → h.Holds c x →
        h'.Holds c x := by
  rcases hq.remove hroll whole hdisjoint hremove with ⟨hfalse, -⟩ | ⟨i, hi, hip, -, hq₁, ps, hr₁⟩
  · cases hfalse
  have hout : i ∉ is₁.erase i := hnodup.not_mem_erase
  have hother : i ∉ is₂ := hdisjoint hi
  have hlink := hq₁.unlinked hip hout hother
  have hr₂ := hr₁.whole.rewrites hlink.sane (.inr (.inl (by simp [ProcessState.toValue]))) hset
  have hq₂ : Queued roll h₂ q₁' (is₁.erase i) q₂ is₂ :=
    hq₁.frame fun _ hx => hr₂.others (by simp) hx
  have hdisjoint' : is₂.Disjoint (is₁.erase i) := fun _ h₂ h₁ =>
    hdisjoint (List.mem_of_mem_erase h₁) h₂
  obtain ⟨hq', ps', hr'⟩ := hq₂.swap.enqueue hroll hr₂.whole hip hother hout hdisjoint' henqueue
  refine ⟨i, hi, hip, hq'.swap, hr'.kept (by simp) hr₂.written, fun hindex hstate hx => ?_⟩
  exact hr'.kept (by simp [hindex]) (hr₂.others hstate (hr₁.kept (by simp [hindex]) hx))

/-- What moving a process from one queue to another comes to. -/
theorem Schedule.transfer_eq_ok {i i' : Image} {s s' : Schedule} {expected st : ProcessState}
    {source target : Queue} {put : Queue → Queue → Schedule} {found : Bool}
    (heq : s.transfer p expected st source target put i = .ok (found, s') i') :
    s' = s ∧ (i' = i ∨ ∃ source' heap, i' = { i with heap } ∧
      (source.remove p : Action HeapError Heap _) i.heap = .ok (false, source') heap) ∨
    ∃ source' target' h₁ h₂ heap, s' = put source' target' ∧ i' = { i with heap } ∧
      (source.remove p : Action HeapError Heap _) i.heap = .ok (true, source') h₁ ∧
      Heap.setSlot p Slot.Process.state st.toValue (ε := HeapError) h₁ = .ok () h₂ ∧
      (target.enqueue p : Action HeapError Heap Queue) h₂ = .ok target' heap := by
  obtain ⟨state, -, hcheck⟩ := query_bind_eq_ok.mp heq
  rcases ite_eq_ok.mp hcheck with ⟨-, hdone⟩ | ⟨-, hmove⟩
  · obtain ⟨hpair, rfl⟩ := pure_eq_ok.mp hdone
    exact .inl ⟨(Prod.mk.inj hpair).2.symm, .inl rfl⟩
  obtain ⟨⟨found', source'⟩, i₁, hfirst, hrest⟩ := bind_eq_ok.mp hmove
  obtain ⟨h₁, hremove, rfl⟩ := Image.onHeap_eq_ok.mp hfirst
  cases found' with
  | false =>
    obtain ⟨hpair, rfl⟩ := pure_eq_ok.mp hrest
    exact .inl ⟨(Prod.mk.inj hpair).2.symm, .inr ⟨source', h₁, rfl, hremove⟩⟩
  | true =>
    obtain ⟨_, i₂, hsecond, hlast⟩ := bind_eq_ok.mp hrest
    obtain ⟨h₂, hset, rfl⟩ := Image.onHeap_eq_ok.mp hsecond
    obtain ⟨target', i₃, hthird, hdone⟩ := bind_eq_ok.mp hlast
    obtain ⟨h₃, henqueue, rfl⟩ := Image.onHeap_eq_ok.mp hthird
    obtain ⟨hpair, rfl⟩ := pure_eq_ok.mp hdone
    exact .inr ⟨source', target', h₁, h₂, h₃, (Prod.mk.inj hpair).2.symm, rfl, hremove, hset,
      henqueue⟩

theorem Queued.eq_of_not_found {q₁ q₂ q₁' : Queue} {is₁ is₂ : List Nat}
    (hq : Queued roll h q₁ is₁ q₂ is₂) (whole : h.Whole)
    (heq : (q₁.remove p : Action ε Heap _) h = .ok (false, q₁') h') : h' = h := by
  obtain ⟨ps, hps, -⟩ := hq.first
  rcases hps.remove whole heq with ⟨-, -, -, rfl⟩ | ⟨-, hfalse, -⟩
  · rfl
  · cases hfalse

/-- A process that is ready is made to wait, if there is such a one. -/
theorem Accounts.suspend {im im' : Image} {s' : Schedule} {found : Bool}
    (ha : Accounts b roll s im.heap) (whole : im.heap.Whole)
    (heq : s.suspend p im = .ok (found, s') im') :
    s' = s ∧ im'.heap = im.heap ∨ s'.spawned = s.spawned ∧ ∃ i ∈ b.runnable,
      Accounts { b with runnable := b.runnable.erase i, waiting := b.waiting ++ [i] } roll s'
        im'.heap := by
  have hdisjoint := Books.disjoint_of_nodup ha.nodup
  rw [Schedule.suspend_eq_transfer] at heq
  rcases Schedule.transfer_eq_ok heq with
    ⟨rfl, rfl | ⟨q, heap, rfl, hremove⟩⟩ | ⟨q₁, q₂, h₁, h₂, heap, rfl, rfl, hremove, hset, henqueue⟩
  · exact .inl ⟨rfl, rfl⟩
  · exact .inl ⟨rfl, ha.queued.eq_of_not_found whole hremove⟩
  have hnodup := Books.nodup_runnable ha.nodup
  obtain ⟨i, hi, hip, hqueued, hwritten, hkept⟩ :=
    ha.queued.transfer ha.distinct whole hdisjoint hnodup hremove hset henqueue
  have hcurrent : b.current ≠ some i := fun h => (Books.not_mem_of_current ha.nodup h).1 hi
  refine .inr ⟨rfl, i, hi, ha.distinct, ?_, hqueued, ha.current, ha.known,
    fun hj => hkept (by simp) (by simp) (ha.number hj),
    ha.distinct.states hip ha.state hwritten
      (fun hx hy => hkept (by simp) (by simp [hx]) hy) ?_ fun j hj => ?_, ha.finished⟩
  · refine List.Perm.trans ?_ ha.partition
    rw [List.perm_iff_count]
    intro j
    have := List.count_pos_iff.mpr hi
    simp only [Books.all, List.count_append, List.count_erase, List.count_cons, List.count_nil]
    by_cases hij : i = j
    · subst hij
      simp only [BEq.rfl, if_true]
      omega
    · simp [hij]
  · simp [Books.state, hnodup.not_mem_erase, hcurrent]
  · simp [Books.state, List.mem_erase_of_ne hj, hj]

/-- A process that waits is made ready, if there is such a one. -/
theorem Accounts.resume {im im' : Image} {s' : Schedule} {found : Bool}
    (ha : Accounts b roll s im.heap) (whole : im.heap.Whole)
    (heq : s.resume p im = .ok (found, s') im') :
    s' = s ∧ im'.heap = im.heap ∨ s'.spawned = s.spawned ∧ ∃ i ∈ b.waiting,
      Accounts { b with runnable := b.runnable ++ [i], waiting := b.waiting.erase i } roll s'
        im'.heap := by
  have hdisjoint := Books.disjoint_of_nodup ha.nodup
  rw [Schedule.resume_eq_transfer] at heq
  rcases Schedule.transfer_eq_ok heq with
    ⟨rfl, rfl | ⟨q, heap, rfl, hremove⟩⟩ | ⟨q₁, q₂, h₁, h₂, heap, rfl, rfl, hremove, hset, henqueue⟩
  · exact .inl ⟨rfl, rfl⟩
  · exact .inl ⟨rfl, ha.queued.swap.eq_of_not_found whole hremove⟩
  have hnodup := Books.nodup_waiting ha.nodup
  obtain ⟨i, hi, hip, hqueued, hwritten, hkept⟩ := ha.queued.swap.transfer ha.distinct whole
    (fun _ h₁ h₂ => hdisjoint h₂ h₁) hnodup hremove hset henqueue
  refine .inr ⟨rfl, i, hi, ha.distinct, ?_, hqueued.swap, ha.current, ha.known,
    fun hj => hkept (by simp) (by simp) (ha.number hj),
    ha.distinct.states hip ha.state hwritten
      (fun hx hy => hkept (by simp) (by simp [hx]) hy) ?_ fun j hj => ?_, ha.finished⟩
  · refine List.Perm.trans ?_ ha.partition
    rw [List.perm_iff_count]
    intro j
    have := List.count_pos_iff.mpr hi
    simp only [Books.all, List.count_append, List.count_erase, List.count_cons, List.count_nil]
    by_cases hij : i = j
    · subst hij
      simp only [BEq.rfl, if_true]
      omega
    · simp [hij]
  · simp [Books.state]
  · simp [Books.state, List.mem_erase_of_ne hj, hj]

structure Heap.Enrols (h : Heap) (p : Value) (number : Nat) (h' : Heap) : Prop where
  whole : h'.Whole
  fresh : ¬h.arenas.Sane p
  kept : ∀ {c x}, h.Holds c x → h'.Holds c x
  number : h'.Holds ⟨p, Slot.Process.id⟩ (.ofNat number)
  link : h'.Holds ⟨p, Slot.Process.link⟩ .nil
  state : h'.Holds ⟨p, Slot.Process.state⟩ ProcessState.runnable.toValue

/-- What making a process comes to. -/
theorem Schedule.spawn_eq_ok {i i' : Image} {s s' : Schedule} {context name : Value}
    (hi : Intact i) (hcontext : Sane i context) (hname : Sane i name)
    (heq : s.spawn context name i = .ok (p, s') i') : ∃ heap runnable heap',
      i.heap.Enrols p (s.spawned + 1) heap ∧
      (s.runnable.enqueue p : Action HeapError Heap Queue) heap = .ok runnable heap' ∧
      i' = { i with heap := heap' } ∧ s' = { s with runnable, spawned := s.spawned + 1 } := by
  obtain ⟨_, _, hget, hmake⟩ := bind_eq_ok.mp heq
  cases hget
  obtain ⟨p', i₁, hnew, hfill₁⟩ := bind_eq_ok.mp hmake
  obtain ⟨h₁, hallocate, rfl⟩ := Image.onHeap_eq_ok.mp hnew
  obtain ⟨_, i₂, hid, hfill₂⟩ := bind_eq_ok.mp hfill₁
  obtain ⟨h₂, hset₂, rfl⟩ := Image.onHeap_eq_ok.mp hid
  obtain ⟨_, i₃, hnamed, hfill₃⟩ := bind_eq_ok.mp hfill₂
  obtain ⟨h₃, hset₃, rfl⟩ := Image.onHeap_eq_ok.mp hnamed
  obtain ⟨_, i₄, hbegun, hfill₄⟩ := bind_eq_ok.mp hfill₃
  obtain ⟨h₄, hset₄, rfl⟩ := Image.onHeap_eq_ok.mp hbegun
  obtain ⟨_, i₅, hready, hfill₅⟩ := bind_eq_ok.mp hfill₄
  obtain ⟨h₅, hset₅, rfl⟩ := Image.onHeap_eq_ok.mp hready
  obtain ⟨runnable, i₆, hqueue, hdone⟩ := bind_eq_ok.mp hfill₅
  obtain ⟨h₆, henqueue, rfl⟩ := Image.onHeap_eq_ok.mp hqueue
  obtain ⟨hpair, rfl⟩ := pure_eq_ok.mp hdone
  obtain ⟨rfl, rfl⟩ := Prod.mk.inj hpair
  refine ⟨h₅, runnable, h₆, ?_, henqueue, rfl, rfl⟩
  have hstable : Stable i.values (Heap.allocatePointers (i.kernelClass .process)
      Slot.Process.count) :=
    Heap.allocatePointers_stable (trusted_of_mem (i.kernelClass_mem_values .process)) _
  have hsettled := hstable i.heap ⟨hi.whole, nofun⟩ fun v hv => hi.held v hv
  rw [hallocate] at hsettled
  have whole₁ : h₁.Whole := hsettled.1.whole
  have hgrows : i.heap.Grows h₁ := hsettled.2.1
  obtain ⟨-, hshows, hfresh, hspares⟩ :=
    Heap.allocatePointers_shows hi.whole.sound (by decide) hallocate
  have hnil : ∀ k < Slot.Process.count, h₁.Holds ⟨p', k⟩ .nil := fun k hk =>
    hshows.holds whole₁ (by simp [hk])
  have hsane : h₁.arenas.Sane p' := (hnil 0 (by decide)).sane
  have hr₂ := whole₁.rewrites hsane (.inr (.inl (by simp))) hset₂
  have hr₃ := hr₂.whole.rewrites (hr₂.grows _ hsane) (hr₂.grows _ (hgrows _ hname)) hset₃
  have hr₄ := hr₃.whole.rewrites (hr₃.grows _ (hr₂.grows _ hsane))
    (hr₃.grows _ (hr₂.grows _ (hgrows _ hcontext))) hset₄
  have hr₅ := hr₄.whole.rewrites (hr₄.grows _ (hr₃.grows _ (hr₂.grows _ hsane)))
    (.inr (.inl (by simp [ProcessState.toValue]))) hset₅
  refine ⟨hr₅.whole, hfresh, fun {c x} hc => ?_, ?_, ?_, hr₅.written⟩
  · have hne : ∀ k, c ≠ ⟨p', k⟩ := by
      rintro k rfl
      exact hfresh hc.sane
    obtain ⟨slots, hslots, hx⟩ := hc.shows hi.whole
    have hc₁ : h₁.Holds c x := (hspares.shows (by simp) hslots).holds whole₁ hx
    exact hr₅.others (hne _) (hr₄.others (hne _) (hr₃.others (hne _) (hr₂.others (hne _) hc₁)))
  · exact hr₅.others (by simp) (hr₄.others (by simp) (hr₃.others (by simp) hr₂.written))
  · exact hr₅.others (by simp) (hr₄.others (by simp) (hr₃.others (by simp)
      (hr₂.others (by simp) (hnil Slot.Process.link (by decide)))))

/-- A new process is put at the end of the queue of those that are ready. -/
theorem Accounts.spawn {im im' : Image} {s' : Schedule} {context name : Value}
    (ha : Accounts b roll s im.heap) (him : Intact im) (hcontext : Sane im context)
    (hname : Sane im name) (heq : s.spawn context name im = .ok (p, s') im') :
    Accounts { b with runnable := b.runnable ++ [s.spawned + 1] } (roll.joined s s') s'
      im'.heap := by
  obtain ⟨heap, runnable, heap', hnew, henqueue, rfl, rfl⟩ :=
    Schedule.spawn_eq_ok him hcontext hname heq
  have htail : runnable.tail = p := by
    obtain ⟨-, -, ⟨-, rfl, -⟩ | ⟨-, rfl, -⟩⟩ := Queue.enqueue_eq_ok henqueue <;> rfl
  have hjoined : roll.joined s { s with runnable, spawned := s.spawned + 1 } =
      fun j x => roll j x ∨ j = s.spawned + 1 ∧ x = p := by
    funext j x
    simp only [Roll.joined, htail, ← and_assoc, show s.spawned < j ∧ j ≤ s.spawned + 1 ↔
      j = s.spawned + 1 by omega]
  rw [hjoined]
  have hlater : ∀ {j x}, roll j x → j ≠ s.spawned + 1 := by
    rintro j x hj rfl
    have := (ha.known hj).2
    omega
  have hother : ∀ {j x}, roll j x → x ≠ p := by
    rintro j x hj rfl
    exact hnew.fresh (ha.number hj).sane
  have hdistinct : Roll.Distinct fun j x => roll j x ∨ j = s.spawned + 1 ∧ x = p := by
    constructor
    · rintro j x x' (hx | ⟨rfl, rfl⟩) (hx' | ⟨hj, rfl⟩)
      · exact ha.distinct.unique hx hx'
      · exact absurd hj (hlater hx)
      · exact absurd rfl (hlater hx')
      · rfl
    · rintro j j' x (hx | ⟨rfl, rfl⟩) (hx' | ⟨rfl, hx'⟩)
      · exact ha.distinct.injective hx hx'
      · exact absurd hx' (hother hx)
      · exact absurd rfl (hother hx')
      · rfl
  have hlists : s.spawned + 1 ∉ b.all := by
    intro hmem
    have := ha.partition.mem_iff.mp hmem
    simp only [List.mem_range'_1] at this
    omega
  simp only [Books.all, List.mem_append, not_or] at hlists
  obtain ⟨⟨⟨⟨hrunnable, hwaiting⟩, hcurrent⟩, -⟩, -⟩ := hlists
  have hqueued : Queued (fun j x => roll j x ∨ j = s.spawned + 1 ∧ x = p) heap s.runnable
      b.runnable s.waiting b.waiting := by
    have hkept : Queued roll heap s.runnable b.runnable s.waiting b.waiting :=
      ha.queued.frame fun _ hx => hnew.kept hx
    obtain ⟨⟨ps₁, hq₁, hps₁⟩, ⟨ps₂, hq₂, hps₂⟩, hunlinked⟩ := hkept
    refine ⟨⟨ps₁, hq₁, hps₁.imp fun _ _ => .inl⟩, ⟨ps₂, hq₂, hps₂.imp fun _ _ => .inl⟩, ?_⟩
    rintro j x (hj | ⟨rfl, rfl⟩) h₁ h₂
    · exact hunlinked hj h₁ h₂
    · exact hnew.link
  obtain ⟨hqueued', ps, hr⟩ := hqueued.enqueue hdistinct hnew.whole (.inr ⟨rfl, rfl⟩) hrunnable
    hwaiting (Books.disjoint_of_nodup ha.nodup) henqueue
  refine ⟨hdistinct, ?_, hqueued', ?_, ?_, ?_, ?_, ha.finished⟩
  · rw [List.range'_concat, List.perm_iff_count]
    intro j
    have := List.perm_iff_count.mp ha.partition j
    simp only [Books.all, List.count_append, Nat.one_mul, Nat.add_comm 1] at this ⊢
    omega
  · have := ha.current
    cases hnow : b.current with
    | none => simpa [hnow] using this
    | some j => exact .inl (by simpa [hnow] using this)
  · rintro j x (hj | ⟨rfl, rfl⟩)
    · have := ha.known hj
      exact ⟨this.1, by simp only; omega⟩
    · exact ⟨by omega, Nat.le_refl _⟩
  · rintro j x (hj | ⟨rfl, rfl⟩)
    · exact hr.kept (by simp) (hnew.kept (ha.number hj))
    · exact hr.kept (by simp) hnew.number
  · rintro j x (hj | ⟨rfl, rfl⟩)
    · have hstate : Books.state { b with runnable := b.runnable ++ [s.spawned + 1] } j =
          b.state j := by
        simp [Books.state, hlater hj]
      rw [hstate]
      exact hr.kept (by simp) (hnew.kept (ha.state hj))
    · have hstate : Books.state { b with runnable := b.runnable ++ [s.spawned + 1] }
          (s.spawned + 1) = .runnable := by simp [Books.state]
      rw [hstate]
      exact hr.kept (by simp) hnew.state

end Entries

def Roll.moved (roll : Roll) (t : Track) : Roll := fun i x => ∃ p, roll i p ∧ t p x

section Moving

variable {b : Books} {roll : Roll} {s s' : Schedule} {h h' : Heap} {W : Licence} {t : Track}

theorem Roll.moved_eq (roll : Roll) : roll.moved Eq = roll := by
  funext i x
  simp [moved]

theorem forall₂_comp {α β γ : Type} {R : α → β → Prop} {S : β → γ → Prop} {as : List α}
    {bs : List β} {cs : List γ} (hR : List.Forall₂ R as bs) (hS : List.Forall₂ S bs cs) :
    List.Forall₂ (fun a c => ∃ b, R a b ∧ S b c) as cs := by
  induction hR generalizing cs with
  | nil =>
    cases hS
    exact .nil
  | cons hab _ ih =>
    cases hS with
    | cons hbc hrest => exact .cons ⟨_, hab, hbc⟩ (ih hrest)

theorem Heap.Follows.kept_ofNat {v x : Value} {i n : Nat} (hf : h.Follows W t h') (hx : t v x)
    (hv : h.Holds ⟨v, i⟩ (.ofNat n)) (hW : ∀ z, ¬W ⟨x, i⟩ z) : h'.Holds ⟨x, i⟩ (.ofNat n) := by
  obtain ⟨z, hz, hsame⟩ := hf.kept hx hv hW
  rwa [hf.eq_of_plain (Value.address?_ofNat n) hsame] at hz

/-- The accounts are as good when the processes have moved, unless something was written to
them. -/
theorem Accounts.moved (ha : Accounts b roll s h) (hf : h.Follows W t h') (hs : s.Carried t s')
    (hW : ∀ {i p p' x}, roll i p → t p p' → ¬W ⟨p', Slot.Process.id⟩ x ∧
      ¬W ⟨p', Slot.Process.link⟩ x ∧ ¬W ⟨p', Slot.Process.state⟩ x) :
    Accounts b (roll.moved t) s' h' := by
  have hlists : ∀ {q q' : Queue} {is ps}, q.Represents h ps → List.Forall₂ roll is ps →
      q.Carried t q' → ∃ ps', q'.Represents h' ps' ∧ List.Forall₂ (roll.moved t) is ps' := by
    intro q q' is ps hq hps hcarried
    obtain ⟨ps', hmoved, hq'⟩ := hq.moved hf hcarried.head hcarried.tail fun p hp p' x ht => by
      obtain ⟨i, -, hi⟩ := exists_of_forall₂ hps hp
      exact (hW hi ht).2.1
    exact ⟨ps', hq', forall₂_comp hps hmoved⟩
  obtain ⟨⟨ps₁, hq₁, hps₁⟩, ⟨ps₂, hq₂, hps₂⟩, hunlinked⟩ := ha.queued
  refine ⟨⟨?_, ?_⟩, hs.spawned ▸ ha.partition, ⟨hlists hq₁ hps₁ hs.runnable,
    hlists hq₂ hps₂ hs.waiting, ?_⟩, ?_, ?_, ?_, ?_, ?_⟩
  · rintro i x x' ⟨p, hp, hx⟩ ⟨p', hp', hx'⟩
    obtain rfl := ha.distinct.unique hp hp'
    exact hf.unique hx hx'
  · rintro i j x ⟨p, hp, hx⟩ ⟨p', hp', hx'⟩
    obtain rfl := hf.injective (ha.number hp).sane (ha.number hp').sane hx hx'
    exact ha.distinct.injective hp hp'
  · rintro i x ⟨p, hp, hx⟩ h₁ h₂
    obtain ⟨z, hz, hsame⟩ := hf.kept hx (hunlinked hp h₁ h₂) fun z => (hW hp hx).2.1
    rwa [hf.eq_of_plain rfl hsame] at hz
  · have hcurrent := ha.current
    cases hnow : b.current with
    | none =>
      rw [hnow] at hcurrent
      exact hf.eq_of_plain rfl (hcurrent ▸ hs.current)
    | some i =>
      rw [hnow] at hcurrent
      exact ⟨_, hcurrent, hs.current⟩
  · rintro i x ⟨p, hp, -⟩
    rw [hs.spawned]
    exact ha.known hp
  · rintro i x ⟨p, hp, hx⟩
    exact hf.kept_ofNat hx (ha.number hp) fun z => (hW hp hx).1
  · rintro i x ⟨p, hp, hx⟩
    exact hf.kept_ofNat hx (ha.state hp) fun z => (hW hp hx).2.2
  · refine (forall₂_comp ha.finished hs.finished).imp ?_
    rintro i f' ⟨f, hf, hcarried⟩
    exact hcarried.id.trans hf

end Moving

end ObjectMachine
