import ObjectMachine.Proofs.Image.Evolution
import ObjectMachine.Proofs.Memory.Tracking

namespace ObjectMachine

theorem exists_of_forall₂ {α β : Type} {R : α → β → Prop} {as : List α} {bs : List β} {b : β}
    (h : List.Forall₂ R as bs) (hb : b ∈ bs) : ∃ a ∈ as, R a b := by
  induction h with
  | nil => cases hb
  | cons hfirst _ ih =>
    rcases List.mem_cons.mp hb with rfl | hb
    · exact ⟨_, List.mem_cons_self, hfirst⟩
    · obtain ⟨a, ha, hab⟩ := ih hb
      exact ⟨a, .tail _ ha, hab⟩

/-- No cell changes but links of some processes. -/
structure Heap.Relinks (h : Heap) (ps : List Value) (h' : Heap) : Prop where
  whole : h'.Whole
  kept : ∀ {c x}, (c.index = Slot.Process.link → c.object ∉ ps) → h.Holds c x → h'.Holds c x

theorem Heap.Rewrites.relinks {h h' : Heap} {p x : Value} {ps : List Value}
    (hr : h.Rewrites h' ⟨p, Slot.Process.link⟩ x) (hp : p ∈ ps) : h.Relinks ps h' :=
  ⟨hr.whole, fun hc => hr.others (by rintro rfl; exact hc rfl hp)⟩

theorem Heap.Relinks.trans {h h' h'' : Heap} {ps : List Value} (hr : h.Relinks ps h')
    (hr' : h'.Relinks ps h'') : h.Relinks ps h'' :=
  ⟨hr'.whole, fun hc hx => hr'.kept hc (hr.kept hc hx)⟩

namespace Queue

variable {h h' : Heap} {q q' : Queue} {p v : Value} {ps : List Value} {ε : Type}

inductive Chain (h : Heap) : Value → List Value → Prop where
  | nil : Chain h .nil []
  | cons {p next : Value} {ps : List Value} : h.Holds ⟨p, Slot.Process.link⟩ next →
    Chain h next ps → Chain h p (p :: ps)

structure Represents (q : Queue) (h : Heap) (ps : List Value) : Prop where
  chain : Chain h q.head ps
  tail : q.tail = ps.getLast?.getD .nil
  nodup : ps.Nodup

theorem Chain.holds (hc : Chain h v ps) (hp : p ∈ ps) :
    ∃ next, h.Holds ⟨p, Slot.Process.link⟩ next := by
  induction hc with
  | nil => cases hp
  | cons hnext _ ih =>
    rcases List.mem_cons.mp hp with rfl | hp
    · exact ⟨_, hnext⟩
    · exact ih hp

theorem Chain.isNil_iff (hc : Chain h v ps) : v.isNil ↔ ps = [] := by
  cases hc with
  | nil => exact iff_of_true rfl rfl
  | cons hnext _ => exact iff_of_false hnext.not_isNil (by simp)

theorem Chain.frame (hc : Chain h v ps)
    (hlinks : ∀ p ∈ ps, ∀ x, h.Holds ⟨p, Slot.Process.link⟩ x → h'.Holds ⟨p, Slot.Process.link⟩ x) :
    Chain h' v ps := by
  induction hc with
  | nil => exact .nil
  | cons hnext _ ih =>
    exact .cons (hlinks _ List.mem_cons_self _ hnext) (ih fun p hp => hlinks p (.tail _ hp))

theorem Represents.frame (hq : q.Represents h ps)
    (hlinks : ∀ p ∈ ps, ∀ x, h.Holds ⟨p, Slot.Process.link⟩ x → h'.Holds ⟨p, Slot.Process.link⟩ x) :
    q.Represents h' ps := ⟨hq.chain.frame hlinks, hq.tail, hq.nodup⟩

theorem Represents.tail_isNil_iff (hq : q.Represents h ps) : q.tail.isNil ↔ ps = [] := by
  rw [hq.tail]
  cases hlast : ps.getLast? with
  | none => exact iff_of_true rfl (List.getLast?_eq_none_iff.mp hlast)
  | some p =>
    obtain ⟨next, hnext⟩ := hq.chain.holds (List.mem_of_getLast? hlast)
    exact iff_of_false hnext.not_isNil (by rintro rfl; cases hlast)

theorem represents_nil : ({} : Queue).Represents h [] := ⟨.nil, rfl, .nil⟩

theorem Chain.snoc (hc : Chain h v ps) (hnodup : ps.Nodup) {last : Value}
    (hlast : ps.getLast? = some last) (hp : p ∉ ps) (hend : h.Holds ⟨p, Slot.Process.link⟩ .nil)
    (hr : h.Rewrites h' ⟨last, Slot.Process.link⟩ p) : Chain h' v (ps ++ [p]) := by
  induction hc with
  | nil => cases hlast
  | @cons first next ps hnext hrest ih =>
    have hne : p ≠ last := fun h => hp (h ▸ List.mem_of_getLast? hlast)
    have hend' : h'.Holds ⟨p, Slot.Process.link⟩ .nil := hr.others (by simp [hne]) hend
    obtain ⟨hfirst, hnodup'⟩ := List.nodup_cons.mp hnodup
    cases ps with
    | nil =>
      obtain rfl : first = last := by simpa using hlast
      exact .cons hr.written (.cons hend' .nil)
    | cons second ps =>
      have hlast' : (second :: ps).getLast? = some last := by simpa using hlast
      have hother : first ≠ last := fun h => hfirst (h ▸ List.mem_of_getLast? hlast')
      refine .cons (hr.others (by simp [hother]) hnext) (ih hnodup' hlast' fun h => hp (.tail _ h))

/-- What putting a process at the end of a queue does. -/
theorem enqueue_eq_ok (heq : (q.enqueue p : Action ε Heap Queue) h = .ok q' h') :
    h.slot p Slot.Process.link = .ok .nil ∧ p ≠ q.tail ∧
      (q.tail.isNil ∧ q' = ⟨p, p⟩ ∧ h' = h ∨ ¬q.tail.isNil ∧ q' = ⟨q.head, p⟩ ∧
        Heap.setSlot q.tail Slot.Process.link p (ε := ε) h = .ok () h') := by
  obtain ⟨link, hlink, hcheck⟩ := query_bind_eq_ok.mp heq
  rcases ite_eq_ok.mp hcheck with ⟨-, hfault⟩ | ⟨hfree, hput⟩
  · obtain ⟨_, _, hfault, -⟩ := bind_eq_ok.mp hfault
    exact (fault_eq_ok.mp hfault).elim
  simp only [Bool.or_eq_true, Bool.not_eq_true', not_or, Bool.not_eq_false, beq_iff_eq] at hfree
  obtain ⟨hnil, hne⟩ := hfree
  obtain rfl : link = .nil := congrArg Value.mk (beq_iff_eq.mp hnil)
  refine ⟨hlink, hne, ?_⟩
  rcases ite_eq_ok.mp hput with ⟨hempty, hdone⟩ | ⟨hempty, hlast⟩
  · obtain ⟨rfl, rfl⟩ := pure_eq_ok.mp hdone
    exact .inl ⟨hempty, rfl, rfl⟩
  · obtain ⟨_, _, hset, hdone⟩ := bind_eq_ok.mp hlast
    obtain ⟨rfl, rfl⟩ := pure_eq_ok.mp hdone
    exact .inr ⟨hempty, rfl, hset⟩

/-- A queue with one process more. -/
theorem Represents.enqueue (hq : q.Represents h ps) (whole : h.Whole) (hp : p ∉ ps)
    (hsane : h.arenas.Sane p) (heq : (q.enqueue p : Action ε Heap Queue) h = .ok q' h') :
    q'.Represents h' (ps ++ [p]) ∧ h.Relinks ps h' := by
  obtain ⟨hlink, -, ⟨hempty, rfl, rfl⟩ | ⟨hsome, rfl, hset⟩⟩ := enqueue_eq_ok heq
  · obtain rfl := hq.tail_isNil_iff.mp hempty
    exact ⟨⟨.cons ⟨hsane, hlink⟩ .nil, rfl, by simp⟩, whole, fun _ hx => hx⟩
  · cases hlast : ps.getLast? with
    | none => exact absurd (hq.tail_isNil_iff.mpr (List.getLast?_eq_none_iff.mp hlast)) hsome
    | some last =>
      have hmem := List.mem_of_getLast? hlast
      obtain ⟨next, hnext⟩ := hq.chain.holds hmem
      have htail : q.tail = last := by rw [hq.tail, hlast]; rfl
      rw [htail] at hset
      have hr := whole.rewrites hnext.sane hsane hset
      refine ⟨⟨hq.chain.snoc hq.nodup hlast hp ⟨hsane, hlink⟩ hr, by simp, ?_⟩, hr.relinks hmem⟩
      exact List.nodup_append.mpr ⟨hq.nodup, by simp, by
        rintro x hx y hy rfl
        exact hp (List.mem_singleton.mp hy ▸ hx)⟩

theorem Represents.dequeue (hq : q.Represents h ps) (whole : h.Whole)
    (heq : (q.dequeue : Action ε Heap (Option Value × Queue)) h = .ok (some p, q') h') :
    ∃ rest, ps = p :: rest ∧ q'.Represents h' rest ∧ h.Relinks [p] h' ∧
      h'.Holds ⟨p, Slot.Process.link⟩ .nil := by
  obtain ⟨rfl, hsome, next, hnext, hset, rfl⟩ := dequeue_eq_some heq
  obtain ⟨chain, htail, hnodup⟩ := hq
  generalize q.head = p at chain hsome hnext hset
  cases chain with
  | nil => exact absurd rfl hsome
  | @cons _ next' rest hlink hrest =>
    obtain rfl := Except.ok.inj (hnext.symm.trans hlink.slot)
    obtain ⟨hfirst, hnodup'⟩ := List.nodup_cons.mp hnodup
    have hr := whole.rewrites hlink.sane (Arenas.sane_nil _) hset
    refine ⟨rest, rfl, ⟨hrest.frame fun x hx y hy => hr.others ?_ hy, ?_, hnodup'⟩,
      hr.relinks (by simp), hr.written⟩
    · rintro ⟨⟩
      exact hfirst hx
    · by_cases hempty : rest = []
      · rw [if_pos (hrest.isNil_iff.mpr hempty), hempty]
        rfl
      · rw [if_neg (hrest.isNil_iff.not.mpr hempty), htail]
        obtain ⟨x, rest, rfl⟩ := List.exists_cons_of_ne_nil hempty
        simp

theorem Chain.skip {pre rest : List Value} {last next : Value}
    (hc : Chain h v (pre ++ last :: p :: rest)) (hnodup : (pre ++ last :: p :: rest).Nodup)
    (hnext : h.Holds ⟨p, Slot.Process.link⟩ next)
    (hr : h.Rewrites h' ⟨last, Slot.Process.link⟩ next) : Chain h' v (pre ++ last :: rest) := by
  induction pre generalizing v with
  | nil =>
    cases hc with
    | cons hlast hp =>
    cases hp with
    | cons hnext' hrest =>
      obtain rfl := hnext.unique hnext'
      refine .cons hr.written (hrest.frame fun x hx y hy => hr.others ?_ hy)
      rintro ⟨⟩
      exact (List.nodup_cons.mp hnodup).1 (.tail _ hx)
  | cons first pre ih =>
    cases hc with
    | cons hfirst hrest =>
      obtain ⟨hnew, hnodup'⟩ := List.nodup_cons.mp hnodup
      refine .cons (hr.others ?_ hfirst) (ih hrest hnodup')
      rintro ⟨⟩
      exact hnew (by simp)

theorem Chain.suffix {pre rest : List Value} (hc : Chain h v (pre ++ p :: rest)) :
    Chain h p (p :: rest) := by
  induction pre generalizing v with
  | nil =>
    cases hc with
    | cons hnext hrest => exact .cons hnext hrest
  | cons first pre ih =>
    cases hc with
    | cons _ hrest => exact ih hrest

/-- The last process of a list from which one is taken. -/
theorem tail_of_removed {pre rest : List Value} (hnodup : (pre ++ p :: rest).Nodup) :
    (if (pre ++ p :: rest).getLast?.getD .nil = p then pre.getLast?.getD .nil
      else (pre ++ p :: rest).getLast?.getD .nil) = (pre ++ rest).getLast?.getD .nil := by
  cases hrest : rest.getLast? with
  | none =>
    obtain rfl := List.getLast?_eq_none_iff.mp hrest
    simp
  | some last =>
    have hmem := List.mem_of_getLast? hrest
    have hne : last ≠ p := by
      rintro rfl
      exact (List.nodup_cons.mp (List.nodup_append.mp hnodup).2.1).1 hmem
    obtain ⟨first, rest, rfl⟩ := List.exists_cons_of_ne_nil (List.ne_nil_of_mem hmem)
    simp [hrest, hne]

theorem Represents.unlink {h₁ : Heap} {pre rest : List Value} {head : Value}
    (hq : q.Represents h (pre ++ p :: rest)) (hr : h.Relinks (pre ++ p :: rest) h₁)
    (hpre : p ∉ pre) (hc : Chain h₁ head (pre ++ rest)) (hp : h₁.arenas.Sane p)
    (heq : Heap.setSlot p Slot.Process.link .nil (ε := ε) h₁ = .ok () h') :
    (⟨head, if q.tail = p then pre.getLast?.getD .nil else q.tail⟩ : Queue).Represents h'
        ((pre ++ p :: rest).erase p) ∧
      h.Relinks (pre ++ p :: rest) h' ∧ h'.Holds ⟨p, Slot.Process.link⟩ .nil := by
  have hunlink := hr.whole.rewrites hp (Arenas.sane_nil _) heq
  have hrest : p ∉ rest := (List.nodup_cons.mp (List.nodup_append.mp hq.nodup).2.1).1
  have herase : (pre ++ p :: rest).erase p = pre ++ rest := by
    rw [List.erase_append_right _ hpre, List.erase_cons_head]
  refine ⟨⟨?_, ?_, hq.nodup.erase p⟩, hr.trans (hunlink.relinks (by simp)), hunlink.written⟩
  · rw [herase]
    refine hc.frame fun x hx y hy => hunlink.others ?_ hy
    rintro ⟨⟩
    exact (List.mem_append.mp hx).elim hpre hrest
  · rw [herase, hq.tail]
    exact tail_of_removed hq.nodup

/-- Looking for a process behind some others. -/
theorem Represents.removeFrom {pre : List Value} {fuel : Nat} {previous cursor : Value}
    {found : Bool} (whole : h.Whole) (hq : q.Represents h (pre ++ ps)) (hcursor : Chain h cursor ps)
    (hprevious : previous = pre.getLast?.getD .nil) (hpre : p ∉ pre)
    (heq : (q.removeFrom p fuel previous cursor : Action ε Heap _) h = .ok (found, q') h') :
    p ∉ ps ∧ found = false ∧ q' = q ∧ h' = h ∨
      p ∈ ps ∧ found = true ∧ q'.Represents h' ((pre ++ ps).erase p) ∧ h.Relinks (pre ++ ps) h' ∧
        h'.Holds ⟨p, Slot.Process.link⟩ .nil := by
  induction fuel generalizing pre ps previous cursor with
  | zero => cases heq
  | succ fuel ih =>
    rw [Queue.removeFrom] at heq
    rcases ite_eq_ok.mp heq with ⟨hend, hdone⟩ | ⟨hsome, hlook⟩
    · obtain rfl := hcursor.isNil_iff.mp hend
      obtain ⟨hpair, rfl⟩ := pure_eq_ok.mp hdone
      obtain ⟨rfl, rfl⟩ := Prod.mk.inj hpair
      exact .inl ⟨by simp, rfl, rfl, rfl⟩
    obtain ⟨next, hnext, hfound⟩ := query_bind_eq_ok.mp hlook
    cases hcursor with
    | nil => exact absurd rfl hsome
    | @cons _ next' rest hlink hrest =>
      obtain rfl := Except.ok.inj (hnext.symm.trans hlink.slot)
      rcases ite_eq_ok.mp hfound with ⟨rfl, hunlink⟩ | ⟨hother, hlook⟩
      · refine .inr ⟨List.mem_cons_self, ?_⟩
        rcases List.eq_nil_or_concat pre with rfl | ⟨pre, last, rfl⟩
        · obtain rfl := hprevious
          obtain ⟨_, h₁, hset, hdone⟩ := bind_eq_ok.mp hunlink
          obtain ⟨hpair, rfl⟩ := pure_eq_ok.mp hdone
          obtain ⟨rfl, rfl⟩ := Prod.mk.inj hpair
          exact ⟨rfl, hq.unlink ⟨whole, fun _ hx => hx⟩ (by simp) hrest hlink.sane hset⟩
        · obtain rfl : previous = last := by simpa using hprevious
          have hq' : q.Represents h (pre ++ previous :: cursor :: rest) := by simpa using hq
          obtain ⟨link, hlast⟩ := hq'.chain.holds (p := previous) (by simp)
          rcases ite_eq_ok.mp hunlink with ⟨-, hunlink⟩ | ⟨hnone, -⟩
          · obtain ⟨_, h₁, hset, hunlink⟩ := bind_eq_ok.mp hunlink
            obtain ⟨_, h₂, hset', hdone⟩ := bind_eq_ok.mp hunlink
            obtain ⟨hpair, rfl⟩ := pure_eq_ok.mp hdone
            obtain ⟨rfl, rfl⟩ := Prod.mk.inj hpair
            have hr := whole.rewrites hlast.sane (whole.slot hlink.sane hnext) hset
            have hunlinked := hq.unlink (hr.relinks (by simp)) hpre
              (by simpa using hq'.chain.skip hq'.nodup hlink hr) (hr.grows _ hlink.sane) hset'
            refine ⟨rfl, ?_⟩
            simpa [hlast.not_isNil] using hunlinked
          · exact absurd hlast.not_isNil (by simpa using hnone)
      · have hq' : q.Represents h ((pre ++ [cursor]) ++ rest) := by simpa using hq
        have hpre' : p ∉ pre ++ [cursor] := by
          simp only [List.mem_append, List.mem_singleton, not_or]
          exact ⟨hpre, fun h => hother h.symm⟩
        have hlast : cursor = (pre ++ [cursor]).getLast?.getD .nil := by simp
        rcases ih hq' hrest hlast hpre' hlook with ⟨hp, hresult⟩ | ⟨hp, hresult⟩
        · exact .inl ⟨by simp [hp, Ne.symm hother], hresult⟩
        · exact .inr ⟨.tail _ hp, by simpa using hresult⟩

theorem Represents.remove {found : Bool} (hq : q.Represents h ps) (whole : h.Whole)
    (heq : (q.remove p : Action ε Heap _) h = .ok (found, q') h') :
    p ∉ ps ∧ found = false ∧ q' = q ∧ h' = h ∨
      p ∈ ps ∧ found = true ∧ q'.Represents h' (ps.erase p) ∧ h.Relinks ps h' ∧
        h'.Holds ⟨p, Slot.Process.link⟩ .nil := by
  rw [Queue.remove, get_bind] at heq
  have hq₀ : q.Represents h ([] ++ ps) := hq
  exact removeFrom whole hq₀ hq.chain rfl (by simp) heq

section Moving

variable {W : Licence} {t : Track} {v' : Value} {ps' : List Value}

theorem Chain.moved (hc : Chain h v ps) (hf : h.Follows W t h') (hv : t v v')
    (hwritten : ∀ p ∈ ps, ∀ p' x, t p p' → ¬W ⟨p', Slot.Process.link⟩ x) :
    ∃ ps', List.Forall₂ t ps ps' ∧ Chain h' v' ps' := by
  induction hc generalizing v' with
  | nil =>
    obtain rfl := hf.eq_of_plain rfl hv
    exact ⟨[], .nil, .nil⟩
  | @cons p next ps hnext hrest ih =>
    obtain ⟨next', hnext', hmoved⟩ :=
      hf.kept hv hnext fun x => hwritten p List.mem_cons_self v' x hv
    obtain ⟨ps', hps', hc'⟩ := ih hmoved fun p hp => hwritten p (.tail _ hp)
    exact ⟨v' :: ps', .cons hv hps', .cons hnext' hc'⟩

theorem nodup_of_forall₂ (hps : List.Forall₂ t ps ps') (hf : h.Follows W t h')
    (hsane : ∀ p ∈ ps, h.arenas.Sane p) (hnodup : ps.Nodup) : ps'.Nodup := by
  induction hps with
  | nil => exact .nil
  | cons hmoved hrest ih =>
    obtain ⟨hfirst, hnodup'⟩ := List.nodup_cons.mp hnodup
    refine List.nodup_cons.mpr ⟨fun hmem => ?_, ih (fun p hp => hsane p (.tail _ hp)) hnodup'⟩
    obtain ⟨p, hp, hpx⟩ := exists_of_forall₂ hrest hmem
    exact hfirst (hf.injective (hsane _ List.mem_cons_self) (hsane p (.tail _ hp)) hmoved hpx ▸ hp)

theorem getLast?_of_forall₂ (hps : List.Forall₂ t ps ps') (hnil : t .nil .nil) :
    t (ps.getLast?.getD .nil) (ps'.getLast?.getD .nil) := by
  induction hps with
  | nil => exact hnil
  | cons hmoved hrest ih =>
    cases hrest with
    | nil => exact hmoved
    | cons _ _ => simpa using ih

/-- Wherever the processes of a queue move, it stands for the same list of them. -/
theorem Represents.moved (hq : q.Represents h ps) (hf : h.Follows W t h')
    (hhead : t q.head q'.head) (htail : t q.tail q'.tail)
    (hwritten : ∀ p ∈ ps, ∀ p' x, t p p' → ¬W ⟨p', Slot.Process.link⟩ x) :
    ∃ ps', List.Forall₂ t ps ps' ∧ q'.Represents h' ps' := by
  obtain ⟨ps', hps', hc'⟩ := hq.chain.moved hf hhead hwritten
  refine ⟨ps', hps', hc', hf.unique htail ?_, nodup_of_forall₂ hps' hf (fun p hp => ?_) hq.nodup⟩
  · rw [hq.tail]
    exact getLast?_of_forall₂ hps' (hf.plain rfl)
  · obtain ⟨next, hnext⟩ := hq.chain.holds hp
    exact hnext.sane

end Moving

end Queue

end ObjectMachine
