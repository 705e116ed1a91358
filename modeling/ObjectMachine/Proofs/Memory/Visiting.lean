import ObjectMachine.Proofs.Memory.Verification

namespace ObjectMachine.Arenas

section Ranges

def Spans (a : Arenas) (id : ArenaId) (stop : Nat) : Nat → List Nat → Prop
  | i, [] => i = stop
  | i, start :: rest =>
    start = i ∧ ∃ h, a.header ⟨id, i⟩ = .ok h ∧ i + h.totalWords ≤ a.used id ∧
      a.Spans id stop (i + h.totalWords) rest

/-- The words of an object that hold its class and its slots, for objects that a scan visits. -/
def holders (a : Arenas) (id : ArenaId) (x : Nat) : List Nat :=
  match a.header ⟨id, x⟩ with
  | .error _ => []
  | .ok h =>
    match h.kind with
    | .pointers => x :: List.range' (x + headerWords) h.size.toNat
    | .bytes => [x]
    | .pad | .forwarded => []

/-- The words that hold a value, for the objects that start at the given words. -/
def references (a : Arenas) (id : ArenaId) (starts : List Nat) : List Nat :=
  starts.flatMap (a.holders id)

variable {a : Arenas} {id : ArenaId} {stop i x p : Nat} {starts : List Nat} {h : Header}

theorem holders_eq (hh : a.header ⟨id, x⟩ = .ok h) :
    a.holders id x =
      match h.kind with
      | .pointers => x :: List.range' (x + headerWords) h.size.toNat
      | .bytes => [x]
      | .pad | .forwarded => [] := by rw [holders, hh]

theorem mem_holders_iff (hh : a.header ⟨id, x⟩ = .ok h) :
    p ∈ a.holders id x ↔
      h.kind = .pointers ∧ (p = x ∨ ∃ j < h.size.toNat, p = x + headerWords + j) ∨
        h.kind = .bytes ∧ p = x := by
  rw [holders_eq hh]
  cases h.kind with
  | pointers =>
    simp only [List.mem_cons, List.mem_range'_1, true_and, reduceCtorEq, false_and, or_false]
    refine or_congr_right ⟨fun hp => ⟨p - (x + headerWords), by omega, by omega⟩, ?_⟩
    rintro ⟨j, hj, rfl⟩
    omega
  | bytes => simp
  | pad => simp
  | forwarded => simp

/-- What is visited of an object is its first word or stands behind its header. -/
theorem bounds_of_mem_holders (hh : a.header ⟨id, x⟩ = .ok h) (hp : p ∈ a.holders id x) :
    x ≤ p ∧ p < x + h.totalWords ∧ p ≠ x + 1 := by
  rcases (mem_holders_iff hh).mp hp with ⟨hkind, rfl | ⟨j, hj, rfl⟩⟩ | ⟨-, rfl⟩
  · simp only [Header.totalWords, headerWords]
    omega
  · simp only [Header.totalWords, Header.payloadWords, hkind, headerWords]
    omega
  · simp only [Header.totalWords, headerWords]
    omega

theorem holders_sorted (hh : a.header ⟨id, x⟩ = .ok h) :
    (a.holders id x).Pairwise (· < ·) := by
  rw [holders_eq hh]
  split
  · refine List.pairwise_cons.mpr ⟨fun p hp => ?_, List.pairwise_lt_range'⟩
    have := (List.mem_range'_1.mp hp).1
    simp only [headerWords] at this
    omega
  · exact List.pairwise_singleton _ _
  · exact .nil
  · exact .nil

namespace Spans

theorem le_stop (hs : a.Spans id stop i starts) : i ≤ stop := by
  induction starts generalizing i with
  | nil => exact Nat.le_of_eq hs
  | cons start rest ih =>
    obtain ⟨-, h, -, -, hrest⟩ := hs
    exact Nat.le_trans (Nat.le_add_right _ _) (ih hrest)

theorem object (hs : a.Spans id stop i starts) (hx : x ∈ starts) :
    ∃ h, a.header ⟨id, x⟩ = .ok h ∧ i ≤ x ∧ x + h.totalWords ≤ stop ∧
      x + h.totalWords ≤ a.used id := by
  induction starts generalizing i with
  | nil => cases hx
  | cons start rest ih =>
    obtain ⟨rfl, h, hh, hend, hrest⟩ := hs
    rcases List.mem_cons.mp hx with rfl | hx
    · exact ⟨h, hh, Nat.le_refl _, hrest.le_stop, hend⟩
    · obtain ⟨h', hh', hle, hends⟩ := ih hrest hx
      exact ⟨h', hh', by omega, hends⟩

/-- Two objects of a range do not overlap. -/
theorem apart {y : Nat} (hs : a.Spans id stop i starts) (hx : x ∈ starts) (hy : y ∈ starts)
    (hxy : x < y) (hh : a.header ⟨id, x⟩ = .ok h) : x + h.totalWords ≤ y := by
  induction starts generalizing i with
  | nil => cases hx
  | cons start rest ih =>
    obtain ⟨rfl, h', hh', -, hrest⟩ := hs
    rcases List.mem_cons.mp hx with rfl | hx'
    · obtain rfl := Except.ok.inj (hh.symm.trans hh')
      rcases List.mem_cons.mp hy with rfl | hy'
      · exact absurd hxy (Nat.lt_irrefl _)
      · exact (hrest.object hy').choose_spec.2.1
    · rcases List.mem_cons.mp hy with rfl | hy'
      · obtain ⟨-, -, hle, -⟩ := hrest.object hx'
        omega
      · exact ih hrest hx' hy'

theorem mem_references_iff (hs : a.Spans id stop i starts) :
    p ∈ a.references id starts ↔
      ∃ x ∈ starts, ∃ h, a.header ⟨id, x⟩ = .ok h ∧
        (h.kind = .pointers ∧ (p = x ∨ ∃ j < h.size.toNat, p = x + headerWords + j) ∨
          h.kind = .bytes ∧ p = x) := by
  rw [references, List.mem_flatMap]
  refine exists_congr fun x => and_congr_right fun hx => ?_
  obtain ⟨h, hh, -⟩ := hs.object hx
  rw [mem_holders_iff hh]
  refine ⟨fun hp => ⟨h, hh, hp⟩, ?_⟩
  rintro ⟨h', hh', hp⟩
  obtain rfl := Except.ok.inj (hh.symm.trans hh')
  exact hp

theorem bounds_of_mem_references (hs : a.Spans id stop i starts)
    (hp : p ∈ a.references id starts) : i ≤ p ∧ p < stop ∧ p < a.used id := by
  obtain ⟨x, hx, hp⟩ := List.mem_flatMap.mp hp
  obtain ⟨h, hh, hle, hends⟩ := hs.object hx
  have := bounds_of_mem_holders hh hp
  omega

/-- The visited words come in address order, so none of them is visited twice. -/
theorem references_sorted (hs : a.Spans id stop i starts) :
    (a.references id starts).Pairwise (· < ·) := by
  induction starts generalizing i with
  | nil => exact .nil
  | cons start rest ih =>
    obtain ⟨rfl, h, hh, -, hrest⟩ := hs
    rw [references, List.flatMap_cons, List.pairwise_append]
    refine ⟨holders_sorted hh, ih hrest, fun p hp q hq => ?_⟩
    have hp := bounds_of_mem_holders hh hp
    have hq := hrest.bounds_of_mem_references hq
    omega

/-- Of the words of an object no scan visits the packed one, and of an object without slots none
but the first. -/
theorem not_mem_references {k : Nat} (hs : a.Spans id stop i starts) (hx : x ∈ starts)
    (hh : a.header ⟨id, x⟩ = .ok h) (hlo : x ≤ k) (hhi : k < x + h.totalWords)
    (hk : k = x + 1 ∨ h.kind = .bytes ∧ k ≠ x ∨ h.kind = .pad ∨ h.kind = .forwarded) :
    k ∉ a.references id starts := by
  intro hmem
  obtain ⟨y, hy, hky⟩ := List.mem_flatMap.mp hmem
  obtain ⟨h', hh', -⟩ := hs.object hy
  have hbounds := bounds_of_mem_holders hh' hky
  rcases Nat.lt_trichotomy x y with hxy | rfl | hxy
  · have := hs.apart hx hy hxy hh
    omega
  · obtain rfl := Except.ok.inj (hh.symm.trans hh')
    rcases (mem_holders_iff hh).mp hky with ⟨hkind, -⟩ | ⟨hkind, rfl⟩
    · simp only [hkind, reduceCtorEq, false_and, or_false] at hk
      exact hbounds.2.2 hk
    · simp only [hkind, ne_eq, not_true_eq_false, and_false, reduceCtorEq, or_false] at hk
      exact hbounds.2.2 hk
  · have := hs.apart hy hx hxy hh'
    omega

end Spans

end Ranges

section Calls

variable {σ : Type} {fix : σ → Arenas → Value → Except Fault (σ × Arenas × Value)} {id : ArenaId}
  {s s' s₁ : σ} {a a' b b' : Arenas} {p q i : Nat} {ps : List Nat}

/-- Whatever a call does to the arenas, it only appends words to them. -/
def Appending (fix : σ → Arenas → Value → Except Fault (σ × Arenas × Value)) : Prop :=
  ∀ s a v s' a' v', fix s a v = .ok (s', a', v') → ∀ id, ∃ ws, a'.space id = a.space id ++ ws

/-- A call for each of the given words, one after the other. Each is shown what its word held in
`a`, and what it leaves is stored there. -/
def visitAll (fix : σ → Arenas → Value → Except Fault (σ × Arenas × Value)) (id : ArenaId)
    (a : Arenas) : List Nat → σ → Arenas → Except Fault (σ × Arenas)
  | [], s, b => .ok (s, b)
  | p :: ps, s, b => do
    let w ← a.word id p
    let (s, b, v) ← fix s b ⟨w⟩
    visitAll fix id a ps s (b.setWord id p v.raw)

structure Call where
  place : Nat
  shown : Value
  left : Value

inductive Calls (fix : σ → Arenas → Value → Except Fault (σ × Arenas × Value)) (id : ArenaId) :
    σ → Arenas → List Call → σ → Arenas → Prop
  | done (s : σ) (a : Arenas) : Calls fix id s a [] s a
  | call {s s₁ s' : σ} {a a₁ a' : Arenas} {rest : List Call} (c : Call)
      (made : fix s a c.shown = .ok (s₁, a₁, c.left))
      (next : Calls fix id s₁ (a₁.setWord id c.place c.left.raw) rest s' a') :
      Calls fix id s a (c :: rest) s' a'

theorem visitAll_append (ps qs : List Nat) (s : σ) (b : Arenas) :
    visitAll fix id a (ps ++ qs) s b =
      visitAll fix id a ps s b >>= fun r => visitAll fix id a qs r.1 r.2 := by
  induction ps generalizing s b with
  | nil => rfl
  | cons p ps ih =>
    simp only [List.cons_append, visitAll, bind, Except.bind]
    cases a.word id p with
    | error e => rfl
    | ok w =>
      cases hfix : fix s b ⟨w⟩ with
      | error e => simp only [hfix]
      | ok r =>
        simp only [hfix]
        exact ih _ _

theorem visitAll_cons_eq_ok (hv : visitAll fix id a (p :: ps) s b = .ok (s', b')) :
    ∃ w s₁ b₁ v, a.word id p = .ok w ∧ fix s b ⟨w⟩ = .ok (s₁, b₁, v) ∧
      visitAll fix id a ps s₁ (b₁.setWord id p v.raw) = .ok (s', b') := by
  simp only [visitAll, bind, Except.bind] at hv
  cases hw : a.word id p with
  | error e => simp [hw] at hv
  | ok w =>
    cases hfix : fix s b ⟨w⟩ with
    | error e => simp [hw, hfix] at hv
    | ok r =>
      simp only [hw, hfix] at hv
      exact ⟨w, r.1, r.2.1, r.2.2, rfl, hfix, hv⟩

theorem visitAll_eq_ok_iff : visitAll fix id a ps s b = .ok (s', b') ↔
    ∃ calls, calls.map Call.place = ps ∧ (∀ c ∈ calls, a.word id c.place = .ok c.shown.raw) ∧
      Calls fix id s b calls s' b' := by
  constructor
  · intro hv
    induction ps generalizing s b with
    | nil =>
      cases hv
      exact ⟨[], rfl, by simp, .done _ _⟩
    | cons p ps ih =>
      obtain ⟨w, s₁, b₁, v, hw, hfix, hrest⟩ := visitAll_cons_eq_ok hv
      obtain ⟨calls, hplaces, hshown, hcalls⟩ := ih hrest
      refine ⟨⟨p, ⟨w⟩, v⟩ :: calls, congrArg (p :: ·) hplaces, ?_, .call _ hfix hcalls⟩
      exact List.forall_mem_cons.mpr ⟨hw, hshown⟩
  · rintro ⟨calls, rfl, hshown, hcalls⟩
    induction hcalls with
    | done => rfl
    | call c made _ ih =>
      obtain ⟨hc, hrest⟩ := List.forall_mem_cons.mp hshown
      simp only [List.map_cons, visitAll, hc, bind, Except.bind, made]
      exact ih hrest

/-- Visits fail only where a call does. -/
theorem visitAll_eq_error (hin : ∀ p ∈ ps, p < a.used id) {e : Fault}
    (hv : visitAll fix id a ps s b = .error e) :
    ∃ done p rest s₁ b₁ w, ps = done ++ p :: rest ∧ visitAll fix id a done s b = .ok (s₁, b₁) ∧
      a.word id p = .ok w ∧ fix s₁ b₁ ⟨w⟩ = .error e := by
  induction ps generalizing s b with
  | nil => cases hv
  | cons p ps ih =>
    obtain ⟨hp, hps⟩ := List.forall_mem_cons.mp hin
    have hw : a.word id p = .ok (a.space id)[p] :=
      word_eq_ok_iff.mpr (Array.getElem?_eq_getElem hp)
    cases hfix : fix s b ⟨(a.space id)[p]⟩ with
    | error e' =>
      simp only [visitAll, hw, hfix, bind, Except.bind] at hv
      cases hv
      exact ⟨[], p, ps, s, b, _, rfl, rfl, hw, hfix⟩
    | ok r =>
      simp only [visitAll, hw, hfix, bind, Except.bind] at hv
      obtain ⟨done, q, rest, s₁, b₁, w, rfl, hdone, hq, he⟩ := ih hps hv
      refine ⟨p :: done, q, rest, s₁, b₁, w, rfl, ?_, hq, he⟩
      simp only [visitAll, hw, hfix, bind, Except.bind]
      exact hdone

theorem Appending.getElem? (hfix : Appending fix) {v v' : Value}
    (hcall : fix s b v = .ok (s', b', v')) {j : ArenaId} {k : Nat} {w : UInt64}
    (hw : (b.space j)[k]? = some w) : (b'.space j)[k]? = some w := by
  obtain ⟨ws, hws⟩ := hfix _ _ _ _ _ _ hcall j
  have hk := (Array.getElem?_eq_some_iff.mp hw).1
  rw [hws, Array.getElem?_append_left hk, hw]

/-- Visits leave every word as it was but the ones they are for. -/
theorem Calls.keeps (hfix : Appending fix) {calls : List Call} (hc : Calls fix id s b calls s' b')
    {j : ArenaId} {k : Nat} {w : UInt64} (hw : (b.space j)[k]? = some w)
    (hk : j = id → k ∉ calls.map Call.place) : (b'.space j)[k]? = some w := by
  induction hc with
  | done => exact hw
  | call c made _ ih =>
    refine ih ?_ fun hj => List.not_mem_of_not_mem_cons (hk hj)
    rw [getElem?_setWord, if_neg fun heq => List.ne_of_not_mem_cons (hk heq.1) heq.2]
    exact hfix.getElem? made hw

/-- What a call leaves is in its word afterwards, since no other call is for that word. -/
theorem Calls.stores (hfix : Appending fix) {calls : List Call} (hc : Calls fix id s b calls s' b')
    (hnodup : (calls.map Call.place).Nodup) (hin : ∀ c ∈ calls, c.place < b.used id) :
    ∀ c ∈ calls, (b'.space id)[c.place]? = some c.left.raw := by
  induction hc with
  | done => simp
  | @call s s₁ s' b b₁ b' rest c made next ih =>
    obtain ⟨hnew, hnodup⟩ := List.nodup_cons.mp hnodup
    obtain ⟨hplace, hin⟩ := List.forall_mem_cons.mp hin
    obtain ⟨ws, hws⟩ := hfix _ _ _ _ _ _ made id
    have hgrow : b.used id ≤ b₁.used id := by
      rw [used, used, hws, Array.size_append]
      exact Nat.le_add_right _ _
    have hstored : ((b₁.setWord id c.place c.left.raw).space id)[c.place]? = some c.left.raw := by
      have hlt : c.place < (b₁.space id).size := Nat.lt_of_lt_of_le hplace hgrow
      rw [getElem?_setWord, if_pos ⟨rfl, rfl⟩, Array.getElem?_eq_getElem hlt]
      rfl
    refine List.forall_mem_cons.mpr ⟨next.keeps hfix hstored fun _ => hnew, ih hnodup ?_⟩
    intro c' hc'
    rw [used_setWord]
    exact Nat.lt_of_lt_of_le (hin c' hc') hgrow

end Calls

section Scans

variable {σ : Type} {fix : σ → Arenas → Value → Except Fault (σ × Arenas × Value)} {id : ArenaId}
  {s s' : σ} {a a' b b' : Arenas} {i stop : Nat} {starts : List Nat}

/-- From word `i` on, `b` holds what `a` holds, and perhaps more behind that. -/
def Continues (a b : Arenas) (id : ArenaId) (i : Nat) : Prop :=
  ∀ k w, i ≤ k → (a.space id)[k]? = some w → (b.space id)[k]? = some w

theorem Continues.mono {j : Nat} (hb : Continues a b id i) (hij : i ≤ j) : Continues a b id j :=
  fun k w hk => hb k w (Nat.le_trans hij hk)

theorem Continues.word {k : Nat} (hb : Continues a b id i) (hk : i ≤ k) (hin : k < a.used id) :
    b.word id k = a.word id k := by
  have hw : (a.space id)[k]? = some (a.space id)[k] := Array.getElem?_eq_getElem hin
  rw [word_eq_ok_iff.mpr hw, word_eq_ok_iff.mpr (hb k _ hk hw)]

theorem Continues.header {h : Header} (hb : Continues a b id i) (hh : a.header ⟨id, i⟩ = .ok h) :
    b.header ⟨id, i⟩ = .ok h := by
  obtain ⟨w, p, hw, hp, rfl⟩ := header_eq_ok_iff.mp hh
  exact header_eq_ok_iff.mpr
    ⟨w, p, hb _ _ (Nat.le_refl _) hw, hb _ _ (Nat.le_succ _) hp, rfl⟩

theorem Continues.visitAll (hfix : Appending fix) {ps : List Nat} {j : Nat}
    (hb : Continues a b id i) (hv : visitAll fix id a ps s b = .ok (s', b')) (hij : i ≤ j)
    (hps : ∀ p ∈ ps, p < j) : Continues a b' id j := by
  obtain ⟨calls, rfl, -, hcalls⟩ := visitAll_eq_ok_iff.mp hv
  intro k w hk hw
  refine hcalls.keeps hfix (hb k w (Nat.le_trans hij hk) hw) fun _ hmem => ?_
  exact absurd (hps k hmem) (Nat.not_lt.mpr hk)

theorem fixWord_eq_visitAll (hb : Continues a b id i) (hin : i < a.used id) (s : σ) :
    fixWord fix id s b i = visitAll fix id a [i] s b := by
  simp only [fixWord, visitAll, hb.word (Nat.le_refl i) hin]
  rfl

theorem fixWords_eq_visitAll (hfix : Appending fix) {count : Nat} (hb : Continues a b id i)
    (hin : i + count ≤ a.used id) (s : σ) :
    fixWords fix id s b i count = visitAll fix id a (List.range' i count) s b := by
  induction count generalizing i s b with
  | zero => rfl
  | succ count ih =>
    rw [fixWords, fixWord_eq_visitAll hb (by omega), List.range'_succ,
      ← List.singleton_append (l := List.range' (i + 1) count), visitAll_append]
    cases hv : visitAll fix id a [i] s b with
    | error e => rfl
    | ok r =>
      have hb' : Continues a r.2 id (i + 1) :=
        hb.visitAll hfix hv (Nat.le_succ i) (by simp)
      exact ih hb' (by omega) r.1

/-- Visits leave an object as long as it was, whatever they make of its class. -/
theorem Continues.header_visitAll (hfix : Appending fix) {h : Header} {ps : List Nat}
    (hb : Continues a b id i) (hh : a.header ⟨id, i⟩ = .ok h)
    (hv : Arenas.visitAll fix id a ps s b = .ok (s', b')) (hps : i + 1 ∉ ps) :
    ∃ h', b'.header ⟨id, i⟩ = .ok h' ∧ h'.totalWords = h.totalWords := by
  obtain ⟨calls, rfl, -, hcalls⟩ := visitAll_eq_ok_iff.mp hv
  obtain ⟨hw, hp⟩ := words_of_header (hb.header hh)
  have hp' := hcalls.keeps hfix hp fun _ => hps
  obtain ⟨isa, hisa⟩ : ∃ isa, (b'.space id)[i]? = some isa := by
    have hlt := (Array.getElem?_eq_some_iff.mp hp').1
    exact ⟨_, Array.getElem?_eq_getElem (Nat.lt_of_succ_lt hlt)⟩
  exact ⟨_, header_eq_ok_iff.mpr ⟨isa, _, hisa, hp', rfl⟩, h.totalWords_ofWords_packed isa⟩

/-- The class and the slots of an object, visited. -/
theorem fixObject_eq_visitAll (hfix : Appending fix) {count : Nat} (hb : Continues a b id i)
    (hin : i + headerWords + count ≤ a.used id) (s : σ) :
    (fixWord fix id s b i >>= fun r => fixWords fix id r.1 r.2 (i + headerWords) count) =
      visitAll fix id a (i :: List.range' (i + headerWords) count) s b := by
  rw [fixWord_eq_visitAll hb (by simp only [headerWords] at hin; omega),
    ← List.singleton_append (l := List.range' (i + headerWords) count), visitAll_append]
  cases hv : visitAll fix id a [i] s b with
  | error e => rfl
  | ok r =>
    exact fixWords_eq_visitAll hfix (hb.visitAll hfix hv (Nat.le_add_right _ _) (by simp)) hin r.1

/-- What follows a computation matters only for what the computation delivers. -/
theorem bind_congr_ok {ε α β : Type} {x : Except ε α} {f g : α → Except ε β}
    (hfg : ∀ r, x = .ok r → f r = g r) : x >>= f = x >>= g := by
  cases x with
  | error e => rfl
  | ok r => exact hfg r rfl

/-- A scan calls for each word of the range that holds a value, as the range was before it. -/
theorem scan_eq_visitAll (hfix : Appending fix) (hs : a.Spans id stop i starts)
    (hb : Continues a b id i) (s : σ) :
    b.scan fix id s i stop = visitAll fix id a (a.references id starts) s b := by
  induction starts generalizing i s b with
  | nil =>
    obtain rfl : i = stop := hs
    rw [scan, if_neg (Nat.lt_irrefl _)]
    rfl
  | cons start rest ih =>
    obtain ⟨rfl, h, hh, hend, hrest⟩ := hs
    have htotal := h.headerWords_le_totalWords
    have hstop := hrest.le_stop
    simp only [headerWords] at htotal
    rw [references, List.flatMap_cons, visitAll_append, scan, if_pos (by omega), hb.header hh]
    -- An object with visited words is as long after the visits as before.
    have hvisited : ∀ count, a.holders id start =
          start :: List.range' (start + headerWords) count →
        start + headerWords + count ≤ a.used id →
        (fixWord fix id s b start >>= fun r =>
          fixWords fix id r.1 r.2 (start + headerWords) count >>= fun r =>
            r.2.header ⟨id, start⟩ >>= fun h' => r.2.scan fix id r.1 (start + h'.totalWords) stop) =
          visitAll fix id a (a.holders id start) s b >>= fun r =>
            visitAll fix id a (a.references id rest) r.1 r.2 := by
      intro count hholders hin
      rw [← bind_assoc, fixObject_eq_visitAll hfix hb hin, ← hholders]
      refine bind_congr_ok fun r hv => ?_
      obtain ⟨h', hh', hsame⟩ := hb.header_visitAll hfix hh hv fun hmem =>
        (bounds_of_mem_holders hh hmem).2.2 rfl
      rw [hh', ← ih hrest (hb.visitAll hfix hv (Nat.le_add_right _ _) fun p hp =>
        (bounds_of_mem_holders hh hp).2.1), ← hsame]
      rfl
    cases hkind : h.kind with
    | pad =>
      rw [holders_eq hh, hkind]
      simp only [bind, Except.bind, hkind]
      exact ih hrest (hb.mono (Nat.le_add_right _ _)) s
    | forwarded =>
      rw [holders_eq hh, hkind]
      simp only [bind, Except.bind, hkind]
      exact ih hrest (hb.mono (Nat.le_add_right _ _)) s
    | bytes =>
      refine Eq.trans ?_ (hvisited 0 (by rw [holders_eq hh, hkind]; rfl)
        (by simp only [headerWords]; omega))
      simp only [bind, Except.bind, hkind]
      rfl
    | pointers =>
      have hsize : h.totalWords = headerWords + h.size.toNat := by
        rw [Header.totalWords, Header.payloadWords, hkind]
      refine Eq.trans ?_ (hvisited h.size.toNat (by rw [holders_eq hh, hkind]) (by omega))
      simp only [bind, Except.bind, hkind]
      rfl

structure Visited (fix : σ → Arenas → Value → Except Fault (σ × Arenas × Value)) (id : ArenaId)
    (a : Arenas) (starts : List Nat) (s : σ) (calls : List Call) (s' : σ) (a' : Arenas) : Prop where
  made : Calls fix id s a calls s' a'
  places : calls.map Call.place = a.references id starts
  shown : ∀ c ∈ calls, a.word id c.place = .ok c.shown.raw
  stored : ∀ c ∈ calls, a'.word id c.place = .ok c.left.raw
  kept : ∀ j k w, a.word j k = .ok w → (j = id → k ∉ a.references id starts) → a'.word j k = .ok w
  packed : ∀ x ∈ starts, a'.word id (x + 1) = a.word id (x + 1)
  payload : ∀ x ∈ starts, ∀ h, a.header ⟨id, x⟩ = .ok h → h.kind = .bytes →
    ∀ k, x < k → k < x + h.totalWords → a'.word id k = a.word id k

theorem Calls.visited (hfix : Appending fix) (hs : a.Spans id stop i starts) {calls : List Call}
    (made : Calls fix id s a calls s' a') (places : calls.map Call.place = a.references id starts)
    (shown : ∀ c ∈ calls, a.word id c.place = .ok c.shown.raw) :
    Visited fix id a starts s calls s' a' := by
  have hplace : ∀ c ∈ calls, c.place ∈ a.references id starts := fun c hc =>
    places ▸ List.mem_map_of_mem hc
  have kept : ∀ j k w, a.word j k = .ok w → (j = id → k ∉ a.references id starts) →
      a'.word j k = .ok w := fun j k w hw hk =>
    word_eq_ok_iff.mpr (made.keeps hfix (word_eq_ok_iff.mp hw) (places ▸ hk))
  have same : ∀ x ∈ starts, ∀ h, a.header ⟨id, x⟩ = .ok h → ∀ k, x ≤ k → k < x + h.totalWords →
      k = x + 1 ∨ h.kind = .bytes ∧ k ≠ x → a'.word id k = a.word id k := by
    intro x hx h hh k hlo hhi hk
    obtain ⟨h', hh', -, -, hend⟩ := hs.object hx
    obtain rfl := Except.ok.inj (hh.symm.trans hh')
    have hin : k < (a.space id).size := Nat.lt_of_lt_of_le hhi hend
    have hw : a.word id k = .ok (a.space id)[k] :=
      word_eq_ok_iff.mpr (Array.getElem?_eq_getElem hin)
    rw [hw, kept id k _ hw fun _ => hs.not_mem_references hx hh hlo hhi ?_]
    exact hk.imp_right .inl
  refine ⟨made, places, shown, fun c hc => word_eq_ok_iff.mpr ?_, kept, fun x hx => ?_,
    fun x hx h hh hkind k hlo hhi => same x hx h hh k (Nat.le_of_lt hlo) hhi (.inr ⟨hkind, ?_⟩)⟩
  · refine made.stores hfix (places ▸ hs.references_sorted.imp Nat.ne_of_lt) (fun c hc => ?_) c hc
    exact (hs.bounds_of_mem_references (hplace c hc)).2.2
  · obtain ⟨h, hh, -⟩ := hs.object hx
    have := h.headerWords_le_totalWords
    simp only [headerWords] at this
    exact same x hx h hh (x + 1) (Nat.le_succ x) (by omega) (.inl rfl)
  · exact Nat.ne_of_gt hlo

/-- A scan of whole objects calls once, in address order, for the class of each object that it
visits and for each slot, and for no other word. It stores what each call leaves and changes no
other word; it fails only where a call does. -/
theorem scan_visits (hfix : Appending fix) (hs : a.Spans id stop i starts) (s : σ) :
    (a.references id starts).Pairwise (· < ·) ∧
      (∀ p, p ∈ a.references id starts ↔
        ∃ x ∈ starts, ∃ h, a.header ⟨id, x⟩ = .ok h ∧
          (h.kind = .pointers ∧ (p = x ∨ ∃ j < h.size.toNat, p = x + headerWords + j) ∨
            h.kind = .bytes ∧ p = x)) ∧
      (∀ p ∈ a.references id starts, i ≤ p ∧ p < stop ∧ p < a.used id) ∧
      ((∃ calls s' a', a.scan fix id s i stop = .ok (s', a') ∧
          Visited fix id a starts s calls s' a') ∨
        ∃ e, a.scan fix id s i stop = .error e ∧
          ∃ done p rest calls s₁ a₁ w, a.references id starts = done ++ p :: rest ∧
            calls.map Call.place = done ∧ Calls fix id s a calls s₁ a₁ ∧ a.word id p = .ok w ∧
            fix s₁ a₁ ⟨w⟩ = .error e) := by
  have hscan := scan_eq_visitAll hfix hs (fun _ _ _ hw => hw) s
  refine ⟨hs.references_sorted, fun p => hs.mem_references_iff,
    fun p hp => hs.bounds_of_mem_references hp, ?_⟩
  cases hv : visitAll fix id a (a.references id starts) s a with
  | ok r =>
    obtain ⟨calls, places, shown, made⟩ := visitAll_eq_ok_iff.mp hv
    exact .inl ⟨calls, r.1, r.2, hscan.trans hv, made.visited hfix hs places shown⟩
  | error e =>
    obtain ⟨done, p, rest, s₁, a₁, w, hsplit, hdone, hw, he⟩ :=
      visitAll_eq_error (fun p hp => (hs.bounds_of_mem_references hp).2.2) hv
    obtain ⟨calls, places, -, made⟩ := visitAll_eq_ok_iff.mp hdone
    exact .inr ⟨e, hscan.trans hv, done, p, rest, calls, s₁, a₁, w, hsplit, places, made, hw, he⟩

end Scans

section Littering

/-- Numbers the values it is shown, and puts filler behind each arena as it does. -/
def litter (n : Nat) (a : Arenas) (_ : Value) : Except Fault (Nat × Arenas × Value) :=
  let filler := #[0, (Header.pad 0).packed]
  .ok (n + 1, ((a.append .pointers filler).2.append .leaf filler).2, .ofNat n)

theorem litter_appending : Appending litter := by
  intro s a v s' a' v' h id
  cases h
  cases id with
  | pointers => exact ⟨_, by rw [space_append, if_neg (by decide), space_append, if_pos rfl]⟩
  | leaf => exact ⟨_, by rw [space_append, if_pos rfl, space_append, if_neg (by decide)]⟩

/-- An object with one slot behind filler, and a byte object behind that. -/
def sampled : Arenas :=
  ⟨#[0, (Header.pad 0).packed, 9, (Header.mk .nil .pointers 1 1).packed, 17,
      25, (Header.mk .nil .bytes 1 8).packed, 0x6d616e79], (empty).leaf⟩

theorem sampled_spans : sampled.Spans .pointers 8 0 [0, 2, 5] := by
  refine ⟨rfl, _, rfl, by decide, rfl, _, rfl, by decide, rfl, _, rfl, by decide, rfl⟩

/-- The filler and the bytes are passed over, and so is what the visits append. -/
theorem scan_visits_sampled :
    sampled.references .pointers [0, 2, 5] = [2, 4, 5] ∧
      (sampled.scan litter .pointers 0 0 8).toOption.map Prod.fst = some 3 ∧
      (sampled.references .pointers [0, 2, 5]).Pairwise (· < ·) := by
  refine ⟨by decide, ?_, (scan_visits litter_appending sampled_spans 0).1⟩
  rw [scan_eq_visitAll litter_appending sampled_spans (fun _ _ _ hw => hw)]
  decide

end Littering

end ObjectMachine.Arenas
