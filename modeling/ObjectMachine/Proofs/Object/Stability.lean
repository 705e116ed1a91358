import ObjectMachine.Proofs.Stability

namespace ObjectMachine

variable {ε : Type} {known : List Value} {h : Heap} {v x key : Value}

namespace Heap

theorem setSlot_stable (hv : Trusted known v) (i : Nat) (hx : Trusted known x) :
    Stable known (setSlot v i x : Action ε Heap Unit) := by
  intro h hs hknown
  cases heq : (setSlot v i x : Action ε Heap Unit) h with
  | ok u h' =>
    obtain ⟨whole, hgrows⟩ := hs.whole.setSlot (hv.sane hknown) (hx.sane hknown) heq
    exact ⟨⟨whole, fun _ hmem => nomatch hmem⟩, hgrows, fun _ hmem => nomatch hmem⟩
  | error e h' =>
    cases e with
    | fault f => trivial
    | failure cause =>
      rw [setSlot] at heq
      split at heq
      · cases heq
      · split at heq <;> cases heq

theorem setClass_stable (hv : Trusted known v) (hx : Trusted known x) :
    Stable known (setClass v x : Action ε Heap Unit) := by
  intro h hs hknown
  cases heq : (setClass v x : Action ε Heap Unit) h with
  | ok u h' =>
    obtain ⟨whole, hgrows⟩ := hs.whole.setClass (hv.sane hknown) (hx.sane hknown) heq
    exact ⟨⟨whole, fun _ hmem => nomatch hmem⟩, hgrows, fun _ hmem => nomatch hmem⟩
  | error e h' =>
    cases e with
    | fault f => trivial
    | failure cause =>
      rw [setClass] at heq
      split at heq
      · cases heq
      · split at heq <;> cases heq

theorem allocate_stable (id : ArenaId) (hx : Trusted known x) (size : UInt32)
    {fill : Array UInt64 → Array UInt64} {payload : Array UInt64}
    (hfill : ∀ s, fill s = s ++ payload)
    (hsize : ∀ hash, payload.size = (Header.mk x id.objectKind hash size).payloadWords)
    (zeros : id = .pointers → ∀ w ∈ payload, w = 0) :
    Stable known (allocate id x id.objectKind size fill) := by
  intro h hs hknown
  have hend := hs.whole.allocate id (hx.sane hknown) size hfill hsize zeros
  cases heq : allocate id x id.objectKind size fill h with
  | ok v h' =>
    rw [show allocate id x id.objectKind size fill (Store.heap h) = .ok v h' from heq] at hend
    refine ⟨⟨hend.1, fun _ hmem => nomatch hmem⟩, hend.2.1, fun v' hv' => ?_⟩
    obtain rfl := List.mem_singleton.mp hv'
    exact hend.2.2
  | error e h' =>
    rw [show allocate id x id.objectKind size fill (Store.heap h) = .error e h' from heq] at hend
    cases e with
    | fault f => trivial
    | failure cause => exact ⟨⟨hend.1, fun _ hmem => nomatch hmem⟩, hend.2⟩

theorem allocatePointers_stable (hx : Trusted known x) (slots : Nat) :
    Stable known (allocatePointers x slots) :=
  allocate_stable .pointers hx _ (fun s => pushZeros_eq s _) (fun _ => Array.size_replicate)
    fun _ _ hw => (Array.mem_replicate.mp hw).2

theorem allocateBytes_stable (hx : Trusted known x) (bytes : Array UInt8) :
    Stable known (allocateBytes x bytes) := by
  refine .bind (allocate_stable .leaf hx _ (fun s => pushPacked_eq bytes s 0 _) ?_ nofun)
    fun object => ?_
  · intro hash
    simp [Header.payloadWords, ArenaId.objectKind]
  · split
    · exact .pure (by simp)
    · exact .fault _

section Reads

theorem Whole.yields_slot (whole : h.Whole) (sane : h.arenas.Sane v) (i : Nat) :
    Yields h (h.slot v i) := by
  intro x heq y hy
  obtain rfl := List.mem_singleton.mp hy
  exact whole.slot sane heq

theorem Whole.yields_isa (whole : h.Whole) (sane : h.arenas.Sane v) : Yields h (h.isa v) := by
  intro x heq y hy
  obtain rfl := List.mem_singleton.mp hy
  rw [Heap.isa] at heq
  cases hh : h.header v with
  | error f => simp [hh, bind, Except.bind] at heq
  | ok header =>
    simp only [hh, bind, Except.bind, pure, Except.pure] at heq
    cases heq
    exact whole.header sane hh

theorem Whole.yields_metaclassSuper (whole : h.Whole) {sup root rootMeta : Value}
    (hsup : h.arenas.Sane sup) (hroot : h.arenas.Sane root) (hmeta : h.arenas.Sane rootMeta) :
    Yields h (h.metaclassSuper sup root rootMeta) := by
  rw [metaclassSuper]
  split
  · exact .pure (by simpa using hroot)
  · split
    · exact .pure (by simpa using hmeta)
    · exact whole.yields_isa hsup

section Following

variable {base : Heap}
  (hread : ∀ {v}, base.arenas.Sane v → ∀ i, Yields base (h.slot v i))
include hread

/-- A chain of links stays among the objects that slots of such objects hold. -/
theorem yields_linkFrom (key : Value) (fuel : Nat) {link : Value}
    (hlink : base.arenas.Sane link) : Yields base (h.linkFrom key fuel link) := by
  induction fuel generalizing link with
  | zero => exact .error _
  | succ fuel ih =>
    rw [linkFrom]
    split
    · exact .pure (by simp)
    · refine .bind_any fun found => ?_
      split
      · exact .pure (by simpa using hlink)
      · exact .bind (hread hlink _) fun next hnext => ih (by simpa using hnext)

theorem yields_dictionaryLink {d : Value} (hd : base.arenas.Sane d) (key : Value) :
    Yields base (h.dictionaryLink d key) :=
  .bind_any fun _ => .bind (hread hd _) fun _ hbucket =>
    yields_linkFrom hread key _ (by simpa using hbucket)

end Following

theorem Whole.yields_dictionaryLink (whole : h.Whole) {d : Value} (hd : h.arenas.Sane d)
    (key : Value) : Yields h (h.dictionaryLink d key) :=
  Heap.yields_dictionaryLink whole.yields_slot hd key

theorem Whole.yields_dictionaryAt (whole : h.Whole) {d : Value} (hd : h.arenas.Sane d)
    (key : Value) : Yields h (h.dictionaryAt d key) := by
  refine .bind (whole.yields_dictionaryLink hd key) fun link hlink => ?_
  cases link with
  | none => exact .pure (by simp)
  | some link =>
    exact .bind (whole.yields_slot (by simpa using hlink) _) fun value hvalue =>
      .pure (by simpa using hvalue)

theorem Whole.yields_lookupFrom (whole : h.Whole) (selector : Value) (fuel : Nat) {cls : Value}
    (hcls : h.arenas.Sane cls) : Yields h (h.lookupFrom selector fuel cls) := by
  induction fuel generalizing cls with
  | zero => exact .error _
  | succ fuel ih =>
    rw [lookupFrom]
    split
    · exact .pure (by simp)
    · refine .bind (whole.yields_slot hcls _) fun methods hmethods => ?_
      dsimp only
      split
      on_goal 1 => refine .bind (.pure (by simp)) fun found hmethod => ?_
      on_goal 2 =>
        refine .bind (whole.yields_dictionaryAt (by simpa using hmethods) selector)
          fun found hmethod => ?_
      all_goals
        cases found with
        | some method => exact .pure (by simpa [hcls] using hmethod)
        | none => exact .bind (whole.yields_slot hcls _) fun sup hsup => ih (by simpa using hsup)

end Reads

end Heap

section Queries

variable {σ : Type} [Store σ]

theorem Stable.slot (hv : Trusted known v) (i : Nat) :
    Stable known (Action.query fun s => (Store.heap s).slot v i : Action ε σ Value) :=
  .query fun _ hs hknown => hs.whole.yields_slot (hv.sane hknown) i

theorem Stable.isa (hv : Trusted known v) :
    Stable known (Action.query fun s => (Store.heap s).isa v : Action ε σ Value) :=
  .query fun _ hs hknown => hs.whole.yields_isa (hv.sane hknown)

end Queries

namespace Heap

theorem newDictionary_stable (hx : Trusted known x) (buckets : Nat) :
    Stable known (newDictionary x buckets) := by
  refine .bind (allocatePointers_stable hx _) fun d => ?_
  refine .bind (setSlot_stable (by simp) _ (by simp)) fun _ => ?_
  exact .pure (by simp)

theorem trusted_ofInt? {n : Int} (heq : Value.ofInt? n = some v) : Trusted known v := by
  rw [Value.ofInt?] at heq
  split at heq
  · obtain rfl := Option.some.inj heq
    exact .inr (.inl (by simp))
  · cases heq

theorem trusted_getD_ofInt? (n : Int) : Trusted known ((Value.ofInt? n).getD .nil) := by
  cases heq : Value.ofInt? n with
  | none => simp
  | some v => exact trusted_ofInt? heq

theorem dictionaryPut_stable {linkClass d value : Value} (hlink : Trusted known linkClass)
    (hd : Trusted known d) (hkey : Trusted known key) (hvalue : Trusted known value) :
    Stable known (dictionaryPut linkClass d key value) := by
  refine .bind (.query fun h hs hknown => hs.whole.yields_dictionaryLink (hd.sane hknown) key)
    fun found => ?_
  cases found with
  | some link =>
    refine .bind (setSlot_stable (by simp) _ (by simp [hvalue])) fun _ => ?_
    exact .pure (by simp)
  | none =>
    refine .bind (allocatePointers_stable (by simp [hlink]) _) fun link => ?_
    refine .bind (.inspect fun _ => rfl) fun bucket => ?_
    refine .bind (setSlot_stable (by simp) _ (by simp [hkey])) fun _ => ?_
    refine .bind (setSlot_stable (by simp) _ (by simp [hvalue])) fun _ => ?_
    refine .bind (.slot (by simp [hd]) _) fun next => ?_
    refine .bind (setSlot_stable (by simp) _ (by simp)) fun _ => ?_
    refine .bind (setSlot_stable (by simp [hd]) _ (by simp)) fun _ => ?_
    refine .bind (.slot (by simp [hd]) _) fun tally => ?_
    refine .bind (setSlot_stable (by simp [hd]) _ (trusted_getD_ofInt? _)) fun _ => ?_
    exact .pure (by simp)

theorem wire_stable {cls metaclass sup root rootMeta : Value} (hcls : Trusted known cls)
    (hmeta : Trusted known metaclass) (hsup : Trusted known sup) (hroot : Trusted known root)
    (hrootMeta : Trusted known rootMeta) :
    Stable known (wire cls metaclass sup root rootMeta : Action ε Heap Unit) := by
  refine .bind (setClass_stable hcls hmeta) fun _ => ?_
  refine .bind (setClass_stable hmeta hrootMeta) fun _ => ?_
  refine .bind (setSlot_stable hcls _ hsup) fun _ => ?_
  refine .bind (.query fun h hs hknown => hs.whole.yields_metaclassSuper (hsup.sane hknown)
    (hroot.sane hknown) (hrootMeta.sane hknown)) fun expected => ?_
  exact setSlot_stable (by simp [hmeta]) _ (by simp)

theorem installMethod_stable {linkClass cls selector method : Value}
    (hlink : Trusted known linkClass) (hcls : Trusted known cls)
    (hselector : Trusted known selector) (hmethod : Trusted known method) :
    Stable known (installMethod linkClass cls selector method) := by
  refine .bind (.slot hcls _) fun methods => ?_
  refine .bind (dictionaryPut_stable ?_ ?_ ?_ ?_) fun _ => .pure (by simp)
  all_goals simp [*]

end Heap

namespace SymbolTable

variable {t : SymbolTable} {name : String} {symbol : Value}

theorem mem_roots_iff : v ∈ t.roots ↔ ∃ name, t.lookup name = some v := by
  simp [roots, lookup, Std.HashMap.mem_toList_iff_getElem?_eq_some]

theorem mem_roots_of_insert (hv : v ∈ (t.insert name symbol).roots) :
    v = symbol ∨ v ∈ t.roots := by
  obtain ⟨other, hother⟩ := mem_roots_iff.mp hv
  rw [lookup, insert, Std.HashMap.getElem?_insert] at hother
  split at hother
  · exact .inl (Option.some.inj hother).symm
  · exact .inr (mem_roots_iff.mpr ⟨other, hother⟩)

/-- What a table holds after some entries were made. -/
theorem getElem?_insertMany {m : Std.HashMap String Value} {entries : List (String × Value)}
    (heq : (m.insertMany entries)[name]? = some v) : m[name]? = some v ∨ v ∈ entries.map (·.2) := by
  induction entries generalizing m with
  | nil => exact .inl (by simpa using heq)
  | cons entry entries ih =>
    rw [Std.HashMap.insertMany_cons] at heq
    rcases ih heq with hold | hmem
    · rw [Std.HashMap.getElem?_insert] at hold
      split at hold
      · exact .inr (by simp [(Option.some.inj hold).symm])
      · exact .inl hold
    · exact .inr (List.mem_cons_of_mem _ hmem)

/-- A table with new symbols holds nothing else. -/
theorem mem_of_withRoots {symbols : List Value} (hv : v ∈ (t.withRoots symbols).roots) :
    v ∈ symbols := by
  obtain ⟨name, hname⟩ := mem_roots_iff.mp hv
  rw [lookup, withRoots, Std.HashMap.ofList_eq_insertMany_empty] at hname
  rcases getElem?_insertMany hname with hempty | hmem
  · simp at hempty
  · obtain ⟨entry, hentry, rfl⟩ := List.mem_map.mp hmem
    obtain ⟨k, hk, rfl⟩ := List.mem_iff_getElem.mp hentry
    rw [List.getElem_zipWith]
    exact List.getElem_mem _

end SymbolTable

namespace Queue

variable {q : Queue} {p : Value}

theorem enqueue_stable (hq : ∀ v ∈ held q, Trusted known v) (hp : Trusted known p) :
    Stable known (q.enqueue p : Action ε Heap Queue) := by
  simp only [Holder.held, List.mem_cons, List.not_mem_nil, or_false, forall_eq_or_imp,
    forall_eq] at hq
  refine .bind (.slot hp _) fun link => ?_
  have hrest : Stable (held link ++ known) (if q.tail.isNil = true then pure ⟨p, p⟩
      else do
        Heap.setSlot q.tail Slot.Process.link p
        return ⟨q.head, p⟩ : Action ε Heap Queue) := by
    split
    · exact .pure (by simp [hp])
    · refine .bind (Heap.setSlot_stable (by simp [hq.2]) _ (by simp [hp])) fun _ => ?_
      exact .pure (by simp [hp, hq.1])
  dsimp only
  split
  · exact .bind (.fault _) fun _ => hrest
  · exact hrest

theorem dequeue_stable (hq : ∀ v ∈ held q, Trusted known v) :
    Stable known (q.dequeue : Action ε Heap (Option Value × Queue)) := by
  have hpair : Trusted known q.head ∧ Trusted known q.tail := by simpa using hq
  rw [dequeue]
  split
  · exact .pure (by simp [hpair])
  · refine .bind (.slot hpair.1 _) fun next => ?_
    refine .bind (Heap.setSlot_stable (by simp [hpair]) _ (by simp)) fun _ => ?_
    refine .pure ?_
    split <;> simp [hpair]

theorem removeFrom_stable (fuel : Nat) {previous cursor : Value}
    (hq : ∀ v ∈ held q, Trusted known v) (hp : Trusted known p)
    (hprevious : Trusted known previous) (hcursor : Trusted known cursor) :
    Stable known (q.removeFrom p fuel previous cursor : Action ε Heap (Bool × Queue)) := by
  induction fuel generalizing known previous cursor with
  | zero => exact .fault _
  | succ fuel ih =>
    have hpair : Trusted known q.head ∧ Trusted known q.tail := by simpa using hq
    rw [removeFrom]
    split
    · exact .pure (by simp [hpair])
    · refine .bind (.slot hcursor _) fun next => ?_
      split
      · have hqueue : ∀ v ∈ held (true, Queue.mk (if previous.isNil then next else q.head)
            (if q.tail = p then previous else q.tail)), Trusted (held next ++ known) v := by
          simp only [Holder.held, List.nil_append, List.mem_cons, List.not_mem_nil, or_false,
            forall_eq_or_imp, forall_eq]
          constructor
          · split <;> simp [hpair]
          · split <;> simp [hpair, hprevious]
        have hunlink : Stable (held next ++ known) (do
            Heap.setSlot p Slot.Process.link .nil
            pure (true, ⟨if previous.isNil then next else q.head,
              if q.tail = p then previous else q.tail⟩) : Action ε Heap (Bool × Queue)) :=
          .bind (Heap.setSlot_stable (by simp [hp]) _ (by simp)) fun _ => .pure hqueue
        dsimp only
        split
        · exact .bind (Heap.setSlot_stable (by simp [hprevious]) _ (by simp)) fun _ => hunlink
        · exact hunlink
      · exact ih (by simp [hpair]) (by simp [hp]) (by simp [hcursor]) (by simp)

theorem remove_stable (hq : ∀ v ∈ held q, Trusted known v) (hp : Trusted known p) :
    Stable known (q.remove p : Action ε Heap (Bool × Queue)) := by
  have hpair : Trusted known q.head ∧ Trusted known q.tail := by simpa using hq
  exact .bind .get fun h => removeFrom_stable _ (by simp [hpair]) (by simp [hp]) (by simp)
    (by simp [hpair])

end Queue

end ObjectMachine
