import ObjectMachine.Proofs.Object.Dictionaries
import ObjectMachine.Proofs.Scheduling.Queueing

namespace ObjectMachine

open Slot.Process

namespace Queue

inductive Order where
  | enqueue (p : Value)
  | dequeue
  | remove (p : Value)

inductive Answer where
  | enqueued
  | dequeued (p : Option Value)
  | removed (found : Bool)

def serve (q : Queue) {ε : Type} : Order → Action ε Heap (Answer × Queue)
  | .enqueue p => do return (.enqueued, ← q.enqueue p)
  | .dequeue => do
    let (p, q') ← q.dequeue
    return (.dequeued p, q')
  | .remove p => do
    let (found, q') ← q.remove p
    return (.removed found, q')

def Order.apply (ps : List Value) : Order → Answer × List Value
  | .enqueue p => (.enqueued, ps ++ [p])
  | .dequeue => (.dequeued ps.head?, ps.tail)
  | .remove p => (.removed (ps.contains p), ps.erase p)

def Order.Puts (C : Value → Prop) : Order → Prop
  | .enqueue p => C p
  | .dequeue | .remove _ => True

def serveAll (qs : Bool → Queue) {ε : Type} :
    List (Bool × Order) → Action ε Heap (List Answer × (Bool → Queue))
  | [] => return ([], qs)
  | (side, order) :: orders => do
    let (answer, q') ← (qs side).serve order
    let (answers, qs') ← serveAll (Function.update qs side q') orders
    return (answer :: answers, qs')

def Order.applyTo (lists : Bool → List Value) (side : Bool) (order : Order) : Bool → List Value :=
  Function.update lists side (order.apply (lists side)).2

def applyAll (lists : Bool → List Value) :
    List (Bool × Order) → List Answer × (Bool → List Value)
  | [] => ([], lists)
  | (side, order) :: orders =>
    let (answers, lists') := applyAll (order.applyTo lists side) orders
    ((order.apply (lists side)).1 :: answers, lists')

/-- Whatever is put into one of two lists has a property, given the lists at that time. -/
def PutsAll (C : Bool → (Bool → List Value) → Value → Prop) (lists : Bool → List Value) :
    List (Bool × Order) → Prop
  | [] => True
  | (side, order) :: orders =>
    order.Puts (C side lists) ∧ PutsAll C (order.applyTo lists side) orders

variable {h h' : Heap} {q q' : Queue} {p v : Value} {ps ps' : List Value} {ε : Type}

section Totality

theorem Chain.length_le (hc : Chain h v ps) (hnodup : ps.Nodup) (whole : h.Whole) :
    ps.length ≤ h.chainBound :=
  whole.length_le_used hnodup fun _ hp => ⟨_, hc.holds hp⟩

theorem Chain.walks (hc : Chain h v ps) {fuel : Nat} (hfuel : ps.length < fuel) :
    listFrom h fuel v = .ok ps := by
  induction hc generalizing fuel with
  | nil =>
    obtain ⟨fuel, rfl⟩ := Nat.exists_eq_add_of_lt hfuel
    rfl
  | @cons p next ps hlink _ ih =>
    obtain ⟨fuel, rfl⟩ := Nat.exists_eq_add_of_lt hfuel
    have hrest : Queue.listFrom h ((p :: ps).length + fuel) next = .ok ps := ih (by simp; omega)
    rw [Queue.listFrom, if_neg hlink.not_isNil, hlink.slot]
    simp only [bind, Except.bind, hrest, pure, Except.pure]

/-- What is read of the link of a process. -/
theorem query_link {next : Value} (hlink : h.Holds ⟨p, link⟩ next) :
    (Action.query (·.slot p link) : Action ε Heap Value) h = .ok next h :=
  query_of_eq_ok (f := fun h : Heap => h.slot p link) hlink.slot

theorem Represents.toList (hq : q.Represents h ps) (whole : h.Whole) : q.toList h = .ok ps :=
  hq.chain.walks (Nat.lt_succ_of_le (hq.chain.length_le hq.nodup whole))

/-- A process is the last one if it is what the queue keeps as such. -/
theorem Represents.eq_tail_iff (hq : q.Represents h ps) (hp : ¬p.isNil) :
    p = q.tail ↔ ps.getLast? = some p := by
  rw [hq.tail]
  cases ps.getLast? with
  | none => exact iff_of_false (by rintro rfl; exact hp rfl) nofun
  | some last => simp [eq_comm]

theorem Represents.ne_tail (hq : q.Represents h ps) (hp : ¬p.isNil) (hout : p ∉ ps) :
    p ≠ q.tail := fun heq => hout (List.mem_of_getLast? ((hq.eq_tail_iff hp).mp heq))

/-- A process that is linked, or kept as the last one, is refused. -/
theorem enqueue_refused {next : Value} (hlink : h.Holds ⟨p, link⟩ next)
    (hlinked : ¬next.isNil ∨ p = q.tail) :
    (q.enqueue p : Action ε Heap Queue) h = .error (.fault .alreadyLinked) h := by
  have hcheck : (!next.isNil || p == q.tail) = true := by
    rcases hlinked with hnext | rfl <;> simp [*]
  rw [Queue.enqueue, bind_of_eq_ok (query_link hlink), if_pos hcheck]
  rfl

/-- A process that is not linked is taken, be it in another list or not. -/
theorem Represents.enqueue_delivers (hq : q.Represents h ps) (whole : h.Whole)
    (hfree : h.Holds ⟨p, link⟩ .nil) (hp : p ≠ q.tail) :
    ∃ q' h', (q.enqueue p : Action ε Heap Queue) h = .ok q' h' := by
  have hcheck : ¬(!Value.nil.isNil || p == q.tail) = true := by simpa using ⟨rfl, hp⟩
  rw [Queue.enqueue, bind_of_eq_ok (query_link hfree), if_neg hcheck]
  by_cases hempty : q.tail.isNil
  · exact ⟨_, _, by simp only [if_pos hempty]; rfl⟩
  · obtain ⟨last, hlast⟩ : ∃ last, ps.getLast? = some last :=
      Option.ne_none_iff_exists'.mp fun hnone =>
        hempty (hq.tail_isNil_iff.mpr (List.getLast?_eq_none_iff.mp hnone))
    have htail : q.tail = last := by rw [hq.tail, hlast]; rfl
    obtain ⟨next, hnext⟩ := hq.chain.holds (List.mem_of_getLast? hlast)
    obtain ⟨h', hset, -⟩ := hnext.write whole hfree.sane (ε := ε)
    refine ⟨⟨q.head, p⟩, h', ?_⟩
    simp only [if_neg hempty]
    exact bind_eq_ok.mpr ⟨(), h', htail ▸ hset, rfl⟩

theorem Represents.dequeue_delivers (hq : q.Represents h ps) (whole : h.Whole) :
    ∃ q' h', (q.dequeue : Action ε Heap _) h = .ok (ps.head?, q') h' ∧
      (ps = [] → q' = q ∧ h' = h) := by
  obtain ⟨chain, -, -⟩ := hq
  rw [Queue.dequeue]
  generalize q.head = first at chain
  cases chain with
  | nil => exact ⟨q, h, rfl, fun _ => ⟨rfl, rfl⟩⟩
  | @cons _ next rest hlink _ =>
    obtain ⟨h', hset, -⟩ := hlink.write whole (Arenas.sane_nil _) (ε := ε)
    rw [if_neg hlink.not_isNil]
    exact ⟨_, h', bind_eq_ok.mpr ⟨next, h, query_link hlink,
      bind_eq_ok.mpr ⟨(), h', hset, rfl⟩⟩, by simp⟩

/-- The search ends at the end of the chain at the latest. -/
theorem Chain.removeFrom_delivers {previous cursor : Value} {fuel : Nat} (whole : h.Whole)
    (hc : Chain h cursor ps) (hprevious : previous.isNil ∨ ∃ x, h.Holds ⟨previous, link⟩ x)
    (hfuel : ps.length < fuel) :
    ∃ found q' h', (q.removeFrom p fuel previous cursor : Action ε Heap _) h =
      .ok (found, q') h' := by
  induction hc generalizing previous fuel with
  | nil =>
    obtain ⟨fuel, rfl⟩ := Nat.exists_eq_add_of_lt hfuel
    exact ⟨false, q, h, rfl⟩
  | @cons cursor next rest hlink hrest ih =>
    obtain ⟨fuel, rfl⟩ := Nat.exists_eq_add_of_lt hfuel
    rw [Queue.removeFrom, if_neg hlink.not_isNil, bind_of_eq_ok (query_link hlink)]
    by_cases hfound : cursor = p
    · subst hfound
      simp only [if_true]
      rcases hprevious with hnone | ⟨x, hlast⟩
      · obtain ⟨h', hset, -⟩ := hlink.write whole (Arenas.sane_nil _) (ε := ε)
        simp only [hnone, Bool.not_true, Bool.false_eq_true, if_false]
        exact ⟨_, _, h', bind_eq_ok.mpr ⟨(), h', hset, rfl⟩⟩
      · -- The process before it is linked to the one behind it first.
        obtain ⟨h₁, hset, hr⟩ := hlast.write whole (hlink.value_sane whole) (ε := ε)
        obtain ⟨y, hy⟩ : ∃ y, h₁.Holds ⟨cursor, link⟩ y := by
          by_cases hsame : cursor = previous
          · exact ⟨_, hsame ▸ hr.written⟩
          · exact ⟨_, hr.others (by simpa using hsame) hlink⟩
        obtain ⟨h₂, hset', -⟩ := hy.write hr.whole (Arenas.sane_nil _) (ε := ε)
        simp only [hlast.not_isNil, Bool.not_false, if_true]
        exact ⟨_, _, h₂, bind_eq_ok.mpr ⟨(), h₁, hset, bind_eq_ok.mpr ⟨(), h₂, hset', rfl⟩⟩⟩
    · rw [if_neg hfound]
      exact ih (.inr ⟨next, hlink⟩) (by simp; omega)

theorem Represents.remove_delivers (hq : q.Represents h ps) (whole : h.Whole) :
    ∃ found q' h', (q.remove p : Action ε Heap _) h = .ok (found, q') h' :=
  hq.chain.removeFrom_delivers whole (.inl rfl)
    (Nat.lt_succ_of_le (hq.chain.length_le hq.nodup whole))

end Totality

structure Serves (h h' : Heap) (ps : List Value) (q' : Queue) (ps' : List Value) : Prop where
  stands : q'.Represents h' ps'
  relinks : h.Relinks ps h'
  freed : ∀ p ∈ ps, p ∉ ps' → h'.Holds ⟨p, link⟩ .nil

theorem Order.mem_apply {order : Order} (hp : p ∈ (order.apply ps).2) :
    p ∈ ps ∨ order = .enqueue p := by
  cases order with
  | enqueue x =>
    rcases List.mem_append.mp hp with hp | hp
    · exact .inl hp
    · exact .inr (by rw [List.mem_singleton.mp hp])
  | dequeue => exact .inl (List.mem_of_mem_tail hp)
  | remove x => exact .inl (List.mem_of_mem_erase hp)

theorem Represents.serve_enqueue (hq : q.Represents h ps) (whole : h.Whole) (hp : p ∉ ps)
    (hfree : h.Holds ⟨p, link⟩ .nil) :
    ∃ q' h', (q.serve (.enqueue p) : Action ε Heap _) h = .ok (.enqueued, q') h' ∧
      Serves h h' ps q' (ps ++ [p]) := by
  obtain ⟨q', h', heq⟩ := hq.enqueue_delivers whole hfree (hq.ne_tail hfree.not_isNil hp) (ε := ε)
  obtain ⟨hstands, hrelinks⟩ := hq.enqueue whole hp hfree.sane heq
  exact ⟨q', h', bind_eq_ok.mpr ⟨q', h', heq, rfl⟩, hstands, hrelinks,
    fun x hx hout => absurd (List.mem_append_left _ hx) hout⟩

theorem Represents.serve_dequeue (hq : q.Represents h ps) (whole : h.Whole) :
    ∃ q' h', (q.serve .dequeue : Action ε Heap _) h = .ok (.dequeued ps.head?, q') h' ∧
      Serves h h' ps q' ps.tail := by
  obtain ⟨q', h', heq, hnone⟩ := hq.dequeue_delivers whole (ε := ε)
  refine ⟨q', h', bind_eq_ok.mpr ⟨_, h', heq, rfl⟩, ?_⟩
  cases ps with
  | nil =>
    obtain ⟨rfl, rfl⟩ := hnone rfl
    exact ⟨hq, ⟨whole, fun _ hx => hx⟩, nofun⟩
  | cons first rest =>
    obtain ⟨rest', hrest, hstands, hrelinks, hfreed⟩ := hq.dequeue whole heq
    obtain rfl := (List.cons.inj hrest).2
    refine ⟨hstands, ⟨hrelinks.whole, fun hc hx => hrelinks.kept (fun hlink hmem => ?_) hx⟩, ?_⟩
    · exact hc hlink (List.mem_singleton.mp hmem ▸ List.mem_cons_self)
    · intro x hx hout
      obtain rfl := (List.mem_cons.mp hx).resolve_right hout
      exact hfreed

theorem Represents.serve_remove (hq : q.Represents h ps) (whole : h.Whole) :
    ∃ q' h', (q.serve (.remove p) : Action ε Heap _) h = .ok (.removed (ps.contains p), q') h' ∧
      Serves h h' ps q' (ps.erase p) := by
  obtain ⟨found, q', h', heq⟩ := hq.remove_delivers whole (p := p) (ε := ε)
  have hserve : (q.serve (.remove p) : Action ε Heap _) h = .ok (.removed found, q') h' :=
    bind_eq_ok.mpr ⟨_, h', heq, rfl⟩
  rcases hq.remove whole heq with
    ⟨hp, rfl, rfl, rfl⟩ | ⟨hp, rfl, hstands, hrelinks, hfreed⟩
  · refine ⟨q', h', ?_, ?_⟩
    · simpa [hp] using hserve
    · rw [List.erase_of_not_mem hp]
      exact ⟨hq, ⟨whole, fun _ hx => hx⟩, fun x hx hout => absurd hx hout⟩
  · refine ⟨q', h', by simpa [hp] using hserve, hstands, hrelinks, fun x hx hout => ?_⟩
    obtain rfl : x = p := by
      by_contra hne
      exact hout ((List.mem_erase_of_ne hne).mpr hx)
    exact hfreed

theorem Represents.serve (hq : q.Represents h ps) (whole : h.Whole) {order : Order}
    (hputs : order.Puts fun p => p ∉ ps ∧ h.Holds ⟨p, link⟩ .nil) :
    ∃ q' h', (q.serve order : Action ε Heap _) h = .ok ((order.apply ps).1, q') h' ∧
      Serves h h' ps q' (order.apply ps).2 := by
  cases order with
  | enqueue p => exact hq.serve_enqueue whole hputs.1 hputs.2
  | dequeue => exact hq.serve_dequeue whole
  | remove p => exact hq.serve_remove whole

theorem Represents.remove_absent (hq : q.Represents h ps) (whole : h.Whole) (hp : p ∉ ps) :
    (q.remove p : Action ε Heap _) h = .ok (false, q) h := by
  obtain ⟨found, q', h', heq⟩ := hq.remove_delivers whole (p := p) (ε := ε)
  obtain ⟨-, rfl, rfl, rfl⟩ := (hq.remove whole heq).resolve_right fun hr => hp hr.1
  exact heq

section Pair

variable {P : Value → Prop} {qs : Bool → Queue} {lists : Bool → List Value} {side : Bool}
  {order : Order}

/-- Two queues stand for two lists with no process in common, and the processes with a property
are not linked unless they are in one of them. -/
structure Keeps (P : Value → Prop) (h : Heap) (qs : Bool → Queue) (lists : Bool → List Value) :
    Prop where
  whole : h.Whole
  stands : ∀ side, (qs side).Represents h (lists side)
  apart : ∀ side, ∀ p ∈ lists side, p ∉ lists !side
  free : ∀ p, P p → (∀ side, p ∉ lists side) → h.Holds ⟨p, link⟩ .nil

theorem Keeps.serve (hk : Keeps P h qs lists) (side : Bool)
    (hputs : order.Puts fun p => P p ∧ ∀ side, p ∉ lists side) :
    ∃ q' h', ((qs side).serve order : Action ε Heap _) h =
        .ok ((order.apply (lists side)).1, q') h' ∧
      Keeps P h' (Function.update qs side q') (order.applyTo lists side) ∧
      (qs !side).Represents h' (lists !side) := by
  have hputs' : order.Puts fun p => p ∉ lists side ∧ h.Holds ⟨p, link⟩ .nil := by
    cases order with
    | enqueue p => exact ⟨hputs.2 side, hk.free p hputs.1 hputs.2⟩
    | dequeue => trivial
    | remove p => trivial
  obtain ⟨q', h', heq, hstands, hrelinks, hfreed⟩ := (hk.stands side).serve hk.whole hputs' (ε := ε)
  have hother : (qs !side).Represents h' (lists !side) :=
    (hk.stands !side).frame fun p hp x hx => hrelinks.kept
      (fun _ hmem => hk.apart side p hmem hp) hx
  have hnew : ∀ p ∈ (order.apply (lists side)).2, p ∉ lists !side := by
    intro p hp
    rcases Order.mem_apply hp with hp | rfl
    · exact hk.apart side p hp
    · exact hputs.2 !side
  have hself := Function.update_self side (order.apply (lists side)).2 lists
  have hne : (!side) ≠ side := by simp
  have hrest := Function.update_of_ne hne (order.apply (lists side)).2 lists
  refine ⟨q', h', heq, ⟨hrelinks.whole, fun s => ?_, fun s p hp => ?_, fun p hp hout => ?_⟩, hother⟩
  · rcases Bool.eq_or_eq_not s side with rfl | rfl
    · rw [Order.applyTo, Function.update_self, Function.update_self]
      exact hstands
    · rw [Order.applyTo, Function.update_of_ne hne, Function.update_of_ne hne]
      exact hother
  · rw [Order.applyTo] at hp ⊢
    rcases Bool.eq_or_eq_not s side with rfl | rfl
    · rw [hself] at hp
      rw [hrest]
      exact hnew p hp
    · rw [hrest] at hp
      rw [Bool.not_not, hself]
      exact fun hmem => hnew p hmem hp
  · have hside := hout side
    have hnot := hout !side
    rw [Order.applyTo, hself] at hside
    rw [Order.applyTo, hrest] at hnot
    by_cases hmem : p ∈ lists side
    · exact hfreed p hmem hside
    · refine hrelinks.kept (fun _ => hmem) (hk.free p hp fun s => ?_)
      rcases Bool.eq_or_eq_not s side with rfl | rfl
      · exact hmem
      · exact hnot

theorem keeps_nil (whole : h.Whole) :
    Keeps (fun p => h.Holds ⟨p, link⟩ .nil) h (fun _ => {}) fun _ => [] :=
  ⟨whole, fun _ => represents_nil, nofun, fun _ hp _ => hp⟩

theorem Keeps.serveAll {orders : List (Bool × Order)} (hk : Keeps P h qs lists)
    (hputs : PutsAll (fun _ lists p => P p ∧ ∀ side, p ∉ lists side) lists orders) :
    ∃ qs' h', (serveAll qs orders : Action ε Heap _) h =
        .ok ((applyAll lists orders).1, qs') h' ∧
      Keeps P h' qs' (applyAll lists orders).2 := by
  induction orders generalizing h qs lists with
  | nil => exact ⟨qs, h, rfl, hk⟩
  | cons order orders ih =>
    obtain ⟨side, order⟩ := order
    obtain ⟨q', h₁, heq, hk', -⟩ := hk.serve side hputs.1 (ε := ε)
    obtain ⟨qs', h', heq', hkeeps⟩ := ih hk' hputs.2
    exact ⟨qs', h', bind_eq_ok.mpr ⟨_, h₁, heq, bind_eq_ok.mpr ⟨_, h', heq', rfl⟩⟩, hkeeps⟩

structure Observed (P : Value → Prop) (h : Heap) (qs : Bool → Queue) (lists : Bool → List Value) :
    Prop where
  toList : ∀ side, (qs side).toList h = .ok (lists side)
  length : ∀ side, (qs side).length h = .ok (lists side).length
  isEmpty : ∀ side, (qs side).isEmpty = (lists side).isEmpty
  tail : ∀ side, (qs side).tail = (lists side).getLast?.getD .nil
  nodup : ∀ side, (lists side).Nodup
  apart : (lists false).Disjoint (lists true)
  free : ∀ p, P p → (∀ side, p ∉ lists side) → h.slot p link = .ok .nil

theorem Keeps.observed (hk : Keeps P h qs lists) : Observed P h qs lists where
  toList side := (hk.stands side).toList hk.whole
  length side := by
    rw [Queue.length, (hk.stands side).toList hk.whole]
    rfl
  isEmpty side := by
    rw [Queue.isEmpty, Bool.eq_iff_iff, (hk.stands side).chain.isNil_iff, List.isEmpty_iff]
  tail side := (hk.stands side).tail
  nodup side := (hk.stands side).nodup
  apart p hp hp' := hk.apart false p hp hp'
  free p hp hout := (hk.free p hp hout).slot

/-- Two lists over one memory that start empty are first-in first-out lists, as long as only
processes are put in that are in neither. Every order is served; whoever is in no list is not
linked; to remove a process that is not in a list changes nothing; and to serve one list changes
nothing about the other. -/
theorem lists_are_first_in_first_out (whole : h.Whole) {orders : List (Bool × Order)}
    (hputs : PutsAll (fun _ lists p => h.Holds ⟨p, link⟩ .nil ∧ ∀ side, p ∉ lists side)
      (fun _ => []) orders) :
    ∃ qs h', (Queue.serveAll (fun _ => {}) orders : Action ε Heap _) h =
        .ok ((applyAll (fun _ => []) orders).1, qs) h' ∧
      Observed (fun p => h.Holds ⟨p, link⟩ .nil) h' qs (applyAll (fun _ => []) orders).2 ∧
      (∀ side p, p ∉ (applyAll (fun _ => []) orders).2 side →
        ((qs side).remove p : Action ε Heap _) h' = .ok (false, qs side) h') ∧
      ∀ side order answer q' h'', order.Puts (fun p => h.Holds ⟨p, link⟩ .nil ∧
          ∀ side, p ∉ (applyAll (fun _ => []) orders).2 side) →
        ((qs side).serve order : Action ε Heap _) h' = .ok (answer, q') h'' →
        (qs !side).toList h'' = (qs !side).toList h' := by
  obtain ⟨qs, h', heq, hk⟩ := (keeps_nil whole).serveAll hputs (ε := ε)
  refine ⟨qs, h', heq, hk.observed, fun side p hp => (hk.stands side).remove_absent hk.whole hp, ?_⟩
  intro side order answer q' h'' hnext hserve
  obtain ⟨q₁, h₁, hserved, hk', hother⟩ := hk.serve side hnext (ε := ε)
  rw [hserved] at hserve
  cases hserve
  rw [(hk.stands !side).toList hk.whole, hother.toList hk'.whole]

/-- A small memory with three processes. -/
def hall : Heap :=
  ⟨{ pointers := #[0, 2, 0, 0x600000004, 0, 0, 0, 0, 0, 0, 0, 0x600000008, 0, 0, 0, 0, 0, 0,
      0, 0x60000000c, 0, 0, 0, 0, 0, 0]
     leaf := #[0, 2] }, 64, 48, 4, { objects := 3, words := 24 }⟩

theorem hall_whole : hall.Whole := by
  have hallocate : ∀ {h h' : Heap} {p : Value}, h.Whole →
      Heap.allocatePointers .nil count h = .ok p h' → h'.Whole := by
    intro h h' p whole heq
    have hallots := whole.allots_pointers (Arenas.sane_nil _) count
    rw [heq] at hallots
    exact hallots.1.whole
  have hempty : Heap.Whole ⟨.empty, 64, 48, 1, {}⟩ := Heap.empty_whole (by decide) (by decide)
  exact hallocate (p := ⟨288⟩) (hallocate (p := ⟨160⟩) (hallocate (p := ⟨32⟩) hempty rfl) rfl) rfl

theorem hall_free : ∀ p ∈ [(⟨32⟩ : Value), ⟨160⟩, ⟨288⟩], hall.Holds ⟨p, link⟩ .nil := by
  have hstarts : hall.arenas.starts .pointers = .ok [2, 10, 18] := by decide +kernel
  have hfree : ∀ (p : Value) (word : Nat), p.address? = some ⟨.pointers, word⟩ →
      word ∈ [2, 10, 18] → hall.slot p link = .ok .nil → hall.Holds ⟨p, link⟩ .nil :=
    fun _ _ haddress hword hslot => ⟨.inr (.inr ⟨_, haddress, _, hstarts, hword⟩), hslot⟩
  simp only [List.forall_mem_cons, List.not_mem_nil, false_imp_iff, implies_true, and_true]
  refine ⟨hfree _ 2 ?_ ?_ ?_, hfree _ 10 ?_ ?_ ?_, hfree _ 18 ?_ ?_ ?_⟩ <;> decide +kernel

/-- Two lists in turn: one process is removed from the first and put into the second. -/
theorem lists_are_first_in_first_out_hall :
    ∃ qs h', (Queue.serveAll (fun _ => {}) [(false, .enqueue ⟨32⟩), (true, .enqueue ⟨160⟩),
        (false, .enqueue ⟨288⟩), (false, .remove ⟨32⟩), (true, .dequeue), (true, .enqueue ⟨32⟩)] :
          Action HeapError Heap _) hall =
        .ok ([.enqueued, .enqueued, .enqueued, .removed true, .dequeued (some ⟨160⟩), .enqueued],
          qs) h' ∧
      (qs false).toList h' = .ok [⟨288⟩] ∧ (qs true).toList h' = .ok [⟨32⟩] := by
  have hfree := hall_free
  simp only [List.forall_mem_cons, List.not_mem_nil, false_imp_iff, implies_true, and_true] at hfree
  obtain ⟨ha, hb, hc⟩ := hfree
  have hputs : PutsAll (fun _ lists p => hall.Holds ⟨p, link⟩ .nil ∧ ∀ side, p ∉ lists side)
      (fun _ => []) [(false, .enqueue ⟨32⟩), (true, .enqueue ⟨160⟩), (false, .enqueue ⟨288⟩),
        (false, .remove ⟨32⟩), (true, .dequeue), (true, .enqueue ⟨32⟩)] :=
    ⟨⟨ha, by decide⟩, ⟨hb, by decide⟩, ⟨hc, by decide⟩, trivial, trivial, ⟨ha, by decide⟩, trivial⟩
  obtain ⟨qs, h', heq, hobserved, -⟩ :=
    lists_are_first_in_first_out hall_whole hputs (ε := HeapError)
  exact ⟨qs, h', heq, hobserved.toList false, hobserved.toList true⟩

/-- The last process of a list is the one that is in it but not linked. -/
theorem Chain.next_isNil_iff (hc : Chain h v ps) (hnodup : ps.Nodup) (hp : p ∈ ps) {next : Value}
    (hlink : h.Holds ⟨p, link⟩ next) : next.isNil ↔ ps.getLast? = some p := by
  obtain ⟨pre, rest, rfl⟩ := List.append_of_mem hp
  cases hc.suffix with
  | cons hlink' hrest =>
    obtain rfl := hlink.unique hlink'
    rw [hrest.isNil_iff]
    cases hlast : rest.getLast? with
    | none => simp [List.getLast?_eq_none_iff.mp hlast]
    | some last =>
      have hmem := List.mem_of_getLast? hlast
      have hne : last ≠ p := by
        rintro rfl
        exact (List.nodup_cons.mp (List.nodup_append.mp hnodup).2.1).1 hmem
      obtain ⟨first, rest, rfl⟩ := List.exists_cons_of_ne_nil (List.ne_nil_of_mem hmem)
      simp [hlast, hne]

/-- A process in one of two lists is refused by either, unless it is the last one of the other. -/
theorem Keeps.refuses (hk : Keeps P h qs lists) {side : Bool}
    (hp : p ∈ lists side ∨ p ∈ lists !side ∧ (lists !side).getLast? ≠ some p) :
    ((qs side).enqueue p : Action ε Heap Queue) h = .error (.fault .alreadyLinked) h := by
  rcases hp with hp | ⟨hp, hlast⟩
  · obtain ⟨next, hlink⟩ := (hk.stands side).chain.holds hp
    refine enqueue_refused hlink (or_iff_not_imp_left.mpr fun hnext => ?_)
    exact ((hk.stands side).eq_tail_iff hlink.not_isNil).mpr
      (((hk.stands side).chain.next_isNil_iff (hk.stands side).nodup hp hlink).mp
        (not_not.mp hnext))
  · obtain ⟨next, hlink⟩ := (hk.stands !side).chain.holds hp
    refine enqueue_refused hlink (.inl fun hnext => hlast ?_)
    exact ((hk.stands !side).chain.next_isNil_iff (hk.stands !side).nodup hp hlink).mp hnext

/-- Any other process is put at the end, and what was in the other list still is. -/
theorem Keeps.accepts (hk : Keeps P h qs lists) {side : Bool} (hp : P p) (hout : p ∉ lists side)
    (hlast : p ∈ lists !side → (lists !side).getLast? = some p) :
    ∃ q' h', ((qs side).enqueue p : Action ε Heap Queue) h = .ok q' h' ∧
      q'.Represents h' (lists side ++ [p]) ∧ (qs !side).Represents h' (lists !side) ∧
      h'.Whole := by
  have hlink : h.Holds ⟨p, link⟩ .nil := by
    by_cases hmem : p ∈ lists !side
    · obtain ⟨next, hlink⟩ := (hk.stands !side).chain.holds hmem
      have hnil := ((hk.stands !side).chain.next_isNil_iff (hk.stands !side).nodup hmem hlink).mpr
        (hlast hmem)
      exact Value.eq_nil_of_isNil hnil ▸ hlink
    · refine hk.free p hp fun s => ?_
      rcases Bool.eq_or_eq_not s side with rfl | rfl
      · exact hout
      · exact hmem
  have htail := (hk.stands side).ne_tail hlink.not_isNil hout
  obtain ⟨q', h', heq⟩ := (hk.stands side).enqueue_delivers hk.whole hlink htail (ε := ε)
  obtain ⟨hstands, hrelinks⟩ := (hk.stands side).enqueue hk.whole hout hlink.sane heq
  exact ⟨q', h', heq, hstands, (hk.stands !side).frame fun x hx y hy => hrelinks.kept
    (fun _ hmem => hk.apart side x hmem hx) hy, hrelinks.whole⟩

theorem serveAll_cons_eq_ok {orders : List (Bool × Order)} {answers : List Answer}
    {qs' : Bool → Queue}
    (heq : (Queue.serveAll qs ((side, order) :: orders) : Action ε Heap _) h =
      .ok (answers, qs') h') :
    ∃ answer q' h₁ rest, ((qs side).serve order : Action ε Heap _) h = .ok (answer, q') h₁ ∧
      (Queue.serveAll (Function.update qs side q') orders : Action ε Heap _) h₁ =
        .ok (rest, qs') h' := by
  obtain ⟨⟨answer, q'⟩, h₁, hserve, heq⟩ := bind_eq_ok.mp heq
  obtain ⟨⟨rest, qs₁⟩, h₂, hrest, hdone⟩ := bind_eq_ok
    (x := Queue.serveAll (Function.update qs side q') orders).mp heq
  obtain ⟨hpair, rfl⟩ := pure_eq_ok.mp hdone
  obtain ⟨-, rfl⟩ := Prod.mk.inj hpair
  exact ⟨answer, q', h₁, rest, hserve, hrest⟩

/-- Two lists that served all orders were given no process that was in a list, apart from last
ones of the other list. -/
theorem Keeps.puts_free {orders : List (Bool × Order)} {answers : List Answer}
    {qs' : Bool → Queue} (hk : Keeps P h qs lists)
    (hputs : PutsAll (fun side lists p => P p ∧ (lists !side).getLast? ≠ some p) lists orders)
    (heq : (Queue.serveAll qs orders : Action ε Heap _) h = .ok (answers, qs') h') :
    PutsAll (fun _ lists p => P p ∧ ∀ side, p ∉ lists side) lists orders := by
  induction orders generalizing h qs lists answers with
  | nil => trivial
  | cons order orders ih =>
    obtain ⟨side, order⟩ := order
    obtain ⟨answer, q', h₁, rest, hserve, hrest⟩ := serveAll_cons_eq_ok heq
    have hfree : order.Puts fun p => P p ∧ ∀ side, p ∉ lists side := by
      cases order with
      | enqueue p =>
        obtain ⟨hp, hlast⟩ := hputs.1
        obtain ⟨_, _, hdelivered, -⟩ := bind_eq_ok.mp hserve
        have hout : ¬(p ∈ lists side ∨ p ∈ lists !side ∧ (lists !side).getLast? ≠ some p) := by
          intro hlinked
          rw [hk.refuses hlinked] at hdelivered
          cases hdelivered
        refine ⟨hp, fun s hmem => hout ?_⟩
        rcases Bool.eq_or_eq_not s side with rfl | rfl
        · exact .inl hmem
        · exact .inr ⟨hmem, hlast⟩
      | dequeue => trivial
      | remove p => trivial
    obtain ⟨q₁, h₂, hserved, hk', -⟩ := hk.serve side hfree (ε := ε)
    rw [hserved] at hserve
    cases hserve
    exact ⟨hfree, ih hk' hputs.2 hrest⟩

/-- A list refuses a process that is in it, and one that is in the other list unless it is the last
one there; then nothing has changed. Every other process it takes, and so it does the last one of
the other list, which is in both lists afterwards. -/
theorem enqueue_refuses_linked {orders : List (Bool × Order)} {answers : List Answer}
    (whole : h.Whole)
    (hputs : PutsAll (fun side lists p => h.Holds ⟨p, link⟩ .nil ∧
      (lists !side).getLast? ≠ some p) (fun _ => []) orders)
    (heq : (Queue.serveAll (fun _ => {}) orders : Action ε Heap _) h = .ok (answers, qs) h')
    (hlists : (applyAll (fun _ => []) orders).2 = lists) :
    Fault.alreadyLinked.message? = some "process is already linked into a list" ∧
      (∀ side, (qs side).toList h' = .ok (lists side)) ∧
      ∀ side p, h.Holds ⟨p, link⟩ .nil →
        (p ∈ lists side ∨ p ∈ lists !side ∧ (lists !side).getLast? ≠ some p →
          ((qs side).enqueue p : Action ε Heap Queue) h' = .error (.fault .alreadyLinked) h') ∧
        (p ∉ lists side → (p ∈ lists !side → (lists !side).getLast? = some p) →
          ∃ q' h'', ((qs side).enqueue p : Action ε Heap Queue) h' = .ok q' h'' ∧
            q'.toList h'' = .ok (lists side ++ [p]) ∧
            (qs !side).toList h'' = .ok (lists !side)) := by
  subst hlists
  have hk₀ := keeps_nil whole
  obtain ⟨qs₁, h₁, hserved, hk⟩ := hk₀.serveAll (hk₀.puts_free hputs heq) (ε := ε)
  rw [heq] at hserved
  cases hserved
  refine ⟨rfl, hk.observed.toList, fun side p hp => ⟨hk.refuses, fun hout hlast => ?_⟩⟩
  obtain ⟨q', h'', hq', hstands, hother, whole'⟩ := hk.accepts hp hout hlast
  exact ⟨q', h'', hq', hstands.toList whole', hother.toList whole'⟩

/-- The first of two processes is refused by the other list, but not the second. -/
theorem enqueue_refuses_linked_hall :
    ∃ qs h', (Queue.serveAll (fun _ => {}) [(false, .enqueue ⟨32⟩), (false, .enqueue ⟨160⟩)] :
        Action HeapError Heap _) hall = .ok ([.enqueued, .enqueued], qs) h' ∧
      ((qs true).enqueue ⟨32⟩ : Action HeapError Heap Queue) h' =
        .error (.fault .alreadyLinked) h' ∧
      ∃ q' h'', ((qs true).enqueue ⟨160⟩ : Action HeapError Heap Queue) h' = .ok q' h'' ∧
        q'.toList h'' = .ok [⟨160⟩] ∧ (qs false).toList h'' = .ok [⟨32⟩, ⟨160⟩] := by
  have hfree := hall_free
  simp only [List.forall_mem_cons, List.not_mem_nil, false_imp_iff, implies_true, and_true] at hfree
  obtain ⟨ha, hb, -⟩ := hfree
  have hfree : PutsAll (fun _ lists p => hall.Holds ⟨p, link⟩ .nil ∧ ∀ side, p ∉ lists side)
      (fun _ => []) [(false, .enqueue ⟨32⟩), (false, .enqueue ⟨160⟩)] :=
    ⟨⟨ha, by decide⟩, ⟨hb, by decide⟩, trivial⟩
  have hputs : PutsAll (fun side lists p => hall.Holds ⟨p, link⟩ .nil ∧
      (lists !side).getLast? ≠ some p) (fun _ => [])
      [(false, .enqueue ⟨32⟩), (false, .enqueue ⟨160⟩)] :=
    ⟨⟨ha, by decide⟩, ⟨hb, by decide⟩, trivial⟩
  obtain ⟨qs, h', heq, -⟩ := (keeps_nil hall_whole).serveAll hfree (ε := HeapError)
  obtain ⟨-, -, henqueue⟩ := enqueue_refuses_linked hall_whole hputs heq rfl
  exact ⟨qs, h', heq, (henqueue true _ ha).1 (.inr (by decide)),
    (henqueue true _ hb).2 (by decide) (by decide)⟩

end Pair

end Queue

end ObjectMachine
