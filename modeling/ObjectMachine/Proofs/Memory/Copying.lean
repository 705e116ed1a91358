import Mathlib.Algebra.Order.BigOperators.Group.List
import Mathlib.Algebra.Order.Ring.Nat
import Mathlib.Logic.Function.Basic
import ObjectMachine.Memory.Collect
import ObjectMachine.Proofs.Memory.Reachability

namespace ObjectMachine.Arenas

abbrev Moves := Address → Option Address

def Moves.Settles (moves : Moves) (v v' : Value) : Prop :=
  match v.address? with
  | none => v' = v
  | some loc => ∃ new, moves loc = some new ∧ v' = .ofAddress new

def Moves.Extends (later earlier : Moves) : Prop :=
  ∀ loc new, earlier loc = some new → later loc = some new

theorem Moves.Extends.refl (moves : Moves) : moves.Extends moves := fun _ _ h => h

theorem Moves.Extends.trans {m₁ m₂ m₃ : Moves} (h₁ : m₃.Extends m₂) (h₂ : m₂.Extends m₁) :
    m₃.Extends m₁ := fun loc new h => h₁ loc new (h₂ loc new h)

theorem Moves.Settles.mono {earlier later : Moves} {v v' : Value} (hs : earlier.Settles v v')
    (he : later.Extends earlier) : later.Settles v v' := by
  rw [Settles] at *
  cases hv : v.address? with
  | none => simpa [hv] using hs
  | some loc =>
    rw [hv] at hs
    obtain ⟨new, hnew, rfl⟩ := hs
    exact ⟨new, he _ _ hnew, rfl⟩

/-- Word `j` of the copy at `new` of the object at `loc` holds a new name. In the pointer arena
these are the words below `scan`, in the leaf arena the classes of all but the objects whose move
has not ended. The second word of a header names nothing. -/
def Settled (scan : Nat) (moving : List Nat) (loc new : Address) (j : Nat) : Prop :=
  j ≠ 1 ∧ match loc.arena with
    | .pointers => new.word + j < scan
    | .leaf => j = 0 ∧ loc.word ∉ moving

/-- The memory that is collected: the words at which its objects start, and those among its
objects that are reachable. -/
structure Ground (a : Arenas) (starts : ArenaId → List Nat) (live : Address → Prop) : Prop where
  tiled : ∀ id, a.Tiled id firstObject (starts id)
  kind : ∀ {loc h}, loc.word ∈ starts loc.arena → a.header loc = .ok h →
    h.kind = loc.arena.objectKind
  small : ∀ id, a.used id ≤ addressLimit
  allocated : ∀ {loc}, live loc → loc.word ∈ starts loc.arena
  closed : ∀ {loc v target}, live loc → a.Refers loc v → v.address? = some target → live target

variable {a : Arenas} {starts : ArenaId → List Nat} {live : Address → Prop}

namespace Ground

theorem object (g : Ground a starts live) {loc : Address} (hl : live loc) :
    ∃ h, a.header loc = .ok h ∧ h.kind = loc.arena.objectKind ∧ firstObject ≤ loc.word ∧
      loc.word + h.totalWords ≤ a.used loc.arena ∧ a.extent loc = h.totalWords := by
  obtain ⟨h, hh, hle, hend⟩ := (g.tiled loc.arena).object (g.allocated hl)
  exact ⟨h, hh, g.kind (g.allocated hl) hh, hle, hend, extent_eq hh⟩

theorem extent_pos (g : Ground a starts live) {loc : Address} (hl : live loc) :
    2 ≤ a.extent loc := by
  obtain ⟨h, -, -, -, -, he⟩ := g.object hl
  exact he ▸ h.headerWords_le_totalWords

theorem bounds (g : Ground a starts live) {loc : Address} (hl : live loc) :
    loc.word < addressLimit ∧ 0 < loc.word := by
  obtain ⟨h, -, -, hfirst, hend, -⟩ := g.object hl
  have hsize := h.headerWords_le_totalWords
  have hsmall := g.small loc.arena
  simp only [firstObject, headerWords] at hfirst hsize
  omega

/-- Of two reachable objects of an arena, one ends before the other starts. -/
theorem apart (g : Ground a starts live) {loc loc' : Address} (hl : live loc) (hl' : live loc')
    (harena : loc.arena = loc'.arena) (hlt : loc.word < loc'.word) :
    loc.word + a.extent loc ≤ loc'.word :=
  (g.tiled loc.arena).apart (g.allocated hl) (harena ▸ g.allocated hl') hlt

end Ground

def movedWords (a : Arenas) (starts : ArenaId → List Nat) (moves : Moves) (id : ArenaId) : Nat :=
  ((starts id).map fun x => if (moves ⟨id, x⟩).isSome then a.extent ⟨id, x⟩ else 0).sum

def unmoved (starts : ArenaId → List Nat) (moves : Moves) (id : ArenaId) : Nat :=
  ((starts id).map fun x => if (moves ⟨id, x⟩).isNone then 1 else 0).sum

theorem update_eq_some {moves : Moves} {old new loc n : Address} :
    Function.update moves old (some new) loc = some n ↔
      loc = old ∧ n = new ∨ loc ≠ old ∧ moves loc = some n := by
  by_cases h : loc = old
  · subst h
    simp [eq_comm]
  · simp [h]

theorem update_eq_none {moves : Moves} {old new loc : Address} :
    Function.update moves old (some new) loc = none ↔ loc ≠ old ∧ moves loc = none := by
  by_cases h : loc = old
  · subst h
    simp
  · simp [h]

/-- A sum over distinct items in which the term of one item changes from zero. -/
theorem sum_map_of_one {l : List Nat} (hl : l.Nodup) {x : Nat} (hx : x ∈ l) {f g : Nat → Nat}
    (zero : f x = 0) (same : ∀ y ∈ l, y ≠ x → g y = f y) :
    (l.map g).sum = (l.map f).sum + g x := by
  induction l with
  | nil => cases hx
  | cons y rest ih =>
    obtain ⟨hy, hrest⟩ := List.nodup_cons.mp hl
    simp only [List.map_cons, List.sum_cons]
    rcases List.mem_cons.mp hx with rfl | hx'
    · have hsum : rest.map g = rest.map f := List.map_congr_left fun z hz =>
        same z (List.mem_cons_of_mem _ hz) fun hzx => hy (hzx ▸ hz)
      rw [hsum, zero]
      omega
    · have hne : y ≠ x := fun hyx => hy (hyx ▸ hx')
      rw [ih hrest hx' fun z hz => same z (List.mem_cons_of_mem _ hz),
        same y List.mem_cons_self hne]
      omega

theorem movedWords_update (g : Ground a starts live) {moves : Moves} {old new : Address}
    (hl : live old) (hn : moves old = none) (id : ArenaId) :
    movedWords a starts (Function.update moves old (some new)) id =
      movedWords a starts moves id + if id = old.arena then a.extent old else 0 := by
  by_cases hid : id = old.arena
  · subst hid
    rw [movedWords, sum_map_of_one (g.tiled _).nodup (g.allocated hl)
      (f := fun x => if (moves ⟨old.arena, x⟩).isSome then a.extent ⟨old.arena, x⟩ else 0)]
    · simp [movedWords]
    · simp [hn]
    · intro y _ hy
      rw [Function.update_of_ne]
      exact fun h => hy (congrArg Address.word h)
  · rw [if_neg hid, Nat.add_zero, movedWords, movedWords]
    congr 1
    apply List.map_congr_left
    intro y _
    rw [Function.update_of_ne]
    exact fun h => hid (congrArg Address.arena h)

theorem unmoved_update (g : Ground a starts live) {moves : Moves} {old new : Address}
    (hl : live old) (hn : moves old = none) :
    unmoved starts (Function.update moves old (some new)) old.arena <
      unmoved starts moves old.arena := by
  have hsum := sum_map_of_one (g.tiled old.arena).nodup (g.allocated hl)
    (f := fun x => if (Function.update moves old (some new) ⟨old.arena, x⟩).isNone then 1 else 0)
    (g := fun x => if (moves ⟨old.arena, x⟩).isNone then 1 else 0) (by simp) (by
      intro y _ hy
      rw [Function.update_of_ne]
      exact fun h => hy (congrArg Address.word h))
  simp only [hn, Option.isNone_none, if_true] at hsum
  rw [unmoved, unmoved, hsum]
  exact Nat.lt_succ_self _

theorem unmoved_le {earlier later : Moves} (he : later.Extends earlier) (id : ArenaId) :
    unmoved starts later id ≤ unmoved starts earlier id := by
  apply List.sum_le_sum
  intro x _
  cases hm : earlier ⟨id, x⟩ with
  | none => split <;> simp
  | some new => simp [he _ _ hm]

/-- The byte objects whose move has not ended, once the move of an object has begun. -/
def nowMoving (old : Address) (moving : List Nat) : List Nat :=
  match old.arena with
  | .pointers => moving
  | .leaf => old.word :: moving

def leave (source : Arenas) (old new : Address) (payload : UInt32) : Arenas :=
  (source.setWord old.arena old.word (Value.ofAddress new).raw).setWord old.arena (old.word + 1)
    (Header.forwarded (.ofAddress new) payload).packed

theorem getElem?_append_left {target : Arenas} {id id' : ArenaId} {ws : Array UInt64} {i : Nat}
    (hi : i < target.used id') :
    ((target.append id ws).2.space id')[i]? = (target.space id')[i]? := by
  rw [space_append]
  split
  case isTrue h => subst h; exact Array.getElem?_append_left hi
  case isFalse => rfl

theorem getElem?_append_right {target : Arenas} {id : ArenaId} {ws : Array UInt64} (j : Nat) :
    ((target.append id ws).2.space id)[target.used id + j]? = ws[j]? := by
  rw [space_append, if_pos rfl, used, Array.getElem?_append_right (Nat.le_add_right _ _),
    Nat.add_sub_cancel_left]

theorem header_append {target : Arenas} {id : ArenaId} {ws : Array UInt64} {loc : Address}
    {h : Header} (hh : target.header loc = .ok h) :
    (target.append id ws).2.header loc = .ok h := by
  have hlt := lt_used_of_header hh
  obtain ⟨w, p, hw, hp, rfl⟩ := header_eq_ok_iff.mp hh
  refine header_eq_ok_iff.mpr ⟨w, p, ?_, ?_, rfl⟩
  · rw [getElem?_append_left (by omega), hw]
  · rw [getElem?_append_left hlt, hp]

theorem used_append (target : Arenas) (id id' : ArenaId) (ws : Array UInt64) :
    (target.append id ws).2.used id' = target.used id' + if id' = id then ws.size else 0 := by
  rw [used, space_append]
  split
  case isTrue h => subst h; simp [used]
  case isFalse => rfl

theorem setWord_self {a : Arenas} {id : ArenaId} {i : Nat} {w : UInt64}
    (hw : (a.space id)[i]? = some w) : a.setWord id i w = a := by
  have hself : (a.space id).setIfInBounds i w = a.space id := by
    apply Array.ext_getElem?
    intro k
    rw [Array.getElem?_setIfInBounds]
    split
    case isTrue h => subst h; rw [if_pos (Array.getElem?_eq_some_iff.mp hw).1, hw]
    case isFalse => rfl
  cases id with
  | pointers => exact congrArg (Arenas.mk · a.leaf) hself
  | leaf => exact congrArg (Arenas.mk a.pointers) hself

structure Copying (a : Arenas) (starts : ArenaId → List Nat) (live : Address → Prop)
    (moves : Moves) (scan : Nat) (moving : List Nat) (source target : Arenas) : Prop where
  live : ∀ {loc new}, moves loc = some new → live loc
  arena : ∀ {loc new}, moves loc = some new → new.arena = loc.arena
  injective : ∀ {loc loc' new}, moves loc = some new → moves loc' = some new → loc = loc'
  forwarded : ∀ {loc new h}, moves loc = some new → a.header loc = .ok h →
    source.header loc = .ok (.forwarded (.ofAddress new) h.payloadWords.toUInt32)
  untouched : ∀ {id i}, moves ⟨id, i⟩ = none → (∀ k, i = k + 1 → moves ⟨id, k⟩ = none) →
    (source.space id)[i]? = (a.space id)[i]?
  usedSource : ∀ id, source.used id = a.used id
  pad : ∀ id, target.header ⟨id, 0⟩ = .ok (Header.pad 0)
  tiled : ∀ id, ∃ news, target.Tiled id firstObject news ∧
    ∀ y, y ∈ news ↔ ∃ loc, moves loc = some ⟨id, y⟩
  copied : ∀ {loc new}, moves loc = some new → ∀ j < a.extent loc, ∃ w w',
    (a.space loc.arena)[loc.word + j]? = some w ∧
    (target.space loc.arena)[new.word + j]? = some w' ∧
    (Settled scan moving loc new j → moves.Settles ⟨w⟩ ⟨w'⟩) ∧
    (¬Settled scan moving loc new j → w' = w)
  used : ∀ id, target.used id = firstObject + movedWords a starts moves id
  scanned : scan ≤ target.used .pointers
  moving : ∀ x ∈ moving, (moves ⟨.leaf, x⟩).isSome

namespace Copying

variable {moves : Moves} {scan : Nat} {moving : List Nat} {source target : Arenas}

theorem used_le (g : Ground a starts live)
    (c : Copying a starts live moves scan moving source target)
    (id : ArenaId) : target.used id ≤ a.used id := by
  rw [c.used, (g.tiled id).used_eq, movedWords]
  apply Nat.add_le_add_left
  apply List.sum_le_sum
  intro x _
  split <;> omega

/-- A copy has a header of the same kind, hash and size. -/
theorem header_copy (g : Ground a starts live)
    (c : Copying a starts live moves scan moving source target) {loc new : Address}
    (hm : moves loc = some new) :
    ∃ h w, a.header loc = .ok h ∧ target.header new = .ok { h with isa := ⟨w⟩ } := by
  have hpos := g.extent_pos (c.live hm)
  obtain ⟨w₀, w₀', h₀, h₀', -⟩ := c.copied hm 0 (by omega)
  obtain ⟨w₁, w₁', h₁, h₁', -, hsame⟩ := c.copied hm 1 (by omega)
  obtain rfl := hsame fun hs => hs.1 rfl
  refine ⟨.ofWords w₀ w₁', w₀', ?_, ?_⟩
  · exact header_eq_ok_iff.mpr ⟨w₀, w₁', h₀, h₁, rfl⟩
  · rw [← c.arena hm] at h₀' h₁'
    exact header_eq_ok_iff.mpr ⟨w₀', w₁', h₀', h₁', rfl⟩

theorem mem_news (c : Copying a starts live moves scan moving source target) {loc new : Address}
    (hm : moves loc = some new) :
    ∃ news, target.Tiled new.arena firstObject news ∧ new.word ∈ news := by
  obtain ⟨news, ht, hmem⟩ := c.tiled new.arena
  exact ⟨news, ht, (hmem _).mpr ⟨loc, hm⟩⟩

theorem extent_copy (g : Ground a starts live)
    (c : Copying a starts live moves scan moving source target) {loc new : Address}
    (hm : moves loc = some new) : target.extent new = a.extent loc := by
  obtain ⟨h, w, hh, hh'⟩ := c.header_copy g hm
  rw [extent_eq hh, extent_eq hh']
  rfl

theorem bounds (g : Ground a starts live)
    (c : Copying a starts live moves scan moving source target) {loc new : Address}
    (hm : moves loc = some new) :
    firstObject ≤ new.word ∧ new.word + a.extent loc ≤ target.used loc.arena ∧
      new.word < addressLimit := by
  obtain ⟨news, ht, hmem⟩ := c.mem_news hm
  obtain ⟨h, hh, hle, hend⟩ := ht.object hmem
  rw [← extent_eq hh, c.extent_copy g hm, c.arena hm] at hend
  have hpos := g.extent_pos (c.live hm)
  have hused := c.used_le g loc.arena
  have hsmall := g.small loc.arena
  exact ⟨hle, hend, by omega⟩

/-- Two copies do not share a word. -/
theorem apart (g : Ground a starts live)
    (c : Copying a starts live moves scan moving source target) {loc loc' new new' : Address}
    (hm : moves loc = some new) (hm' : moves loc' = some new') (harena : loc.arena = loc'.arena)
    {j j' : Nat} (hj : j < a.extent loc) (hj' : j' < a.extent loc')
    (same : new.word + j = new'.word + j') : loc = loc' ∧ j = j' := by
  obtain ⟨news, ht, hmem⟩ := c.tiled loc.arena
  have hn : new.arena = loc.arena := c.arena hm
  have hn' : new'.arena = loc.arena := (c.arena hm').trans harena.symm
  have hx : new.word ∈ news := (hmem _).mpr ⟨loc, by rw [hm, ← hn]⟩
  have hy : new'.word ∈ news := (hmem _).mpr ⟨loc', by rw [hm', ← hn']⟩
  have he : target.extent ⟨loc.arena, new.word⟩ = a.extent loc := by
    rw [← hn, c.extent_copy g hm]
  have he' : target.extent ⟨loc.arena, new'.word⟩ = a.extent loc' := by
    rw [← hn', c.extent_copy g hm']
  rcases Nat.lt_trichotomy new.word new'.word with hlt | heq | hlt
  · have := ht.apart hx hy hlt
    omega
  · have hnew : new = new' := by
      obtain ⟨_, _⟩ := new
      obtain ⟨_, _⟩ := new'
      simp_all
    subst hnew
    exact ⟨c.injective hm hm', by omega⟩
  · have := ht.apart hy hx hlt
    omega

theorem source_word (g : Ground a starts live)
    (c : Copying a starts live moves scan moving source target) {old : Address} (hl : live old)
    (hn : moves old = none) {j : Nat} (hj : j < a.extent old) :
    (source.space old.arena)[old.word + j]? = (a.space old.arena)[old.word + j]? := by
  have unmoved_at : ∀ k, old.word ≤ k → k < old.word + a.extent old →
      moves ⟨old.arena, k⟩ = none := by
    intro k hle hlt
    by_contra hne
    obtain ⟨new, hm⟩ := Option.ne_none_iff_exists'.mp hne
    rcases Nat.eq_or_lt_of_le hle with rfl | hlt'
    · rw [hn] at hm
      cases hm
    · have : old.word + a.extent old ≤ k := g.apart hl (c.live hm) rfl hlt'
      omega
  apply c.untouched (unmoved_at _ (by omega) (by omega))
  intro k hk
  by_cases hle : old.word ≤ k
  · exact unmoved_at k hle (by omega)
  · by_contra hne
    obtain ⟨new, hm⟩ := Option.ne_none_iff_exists'.mp hne
    have hpos := g.extent_pos (c.live hm)
    have : k + a.extent ⟨old.arena, k⟩ ≤ old.word :=
      g.apart (c.live hm) hl rfl (Nat.lt_of_not_le hle)
    omega

theorem source_header (g : Ground a starts live)
    (c : Copying a starts live moves scan moving source target) {old : Address} {h : Header}
    (hl : live old) (hn : moves old = none) (hh : a.header old = .ok h) :
    source.header old = .ok h := by
  have hpos := g.extent_pos hl
  have h₀ := c.source_word g hl hn (j := 0) (by omega)
  have h₁ := c.source_word g hl hn (j := 1) (by omega)
  rw [Nat.add_zero] at h₀
  obtain ⟨w, p, hw, hp, rfl⟩ := header_eq_ok_iff.mp hh
  exact header_eq_ok_iff.mpr ⟨w, p, h₀.trans hw, h₁.trans hp, rfl⟩

theorem source_words (g : Ground a starts live)
    (c : Copying a starts live moves scan moving source target) {old : Address} {h : Header}
    (hl : live old) (hn : moves old = none) (hh : a.header old = .ok h) :
    ∃ ws : Array UInt64, source.words old.arena old.word (old.word + h.totalWords) = .ok ws ∧
      ws.size = a.extent old ∧ ∀ j < a.extent old, ws[j]? = (a.space old.arena)[old.word + j]? := by
  obtain ⟨h', hh', -, -, hend, he⟩ := g.object hl
  obtain rfl : h' = h := Except.ok.inj (hh'.symm.trans hh)
  have hused := c.usedSource old.arena
  refine ⟨_, if_pos ⟨Nat.le_add_right _ _, by omega⟩, ?_, ?_⟩
  · rw [Arenas.used] at hused
    simp only [Array.size_extract]
    omega
  · intro j hj
    rw [Array.getElem?_extract, if_pos (by rw [Arenas.used] at hused; omega)]
    exact c.source_word g hl hn hj

theorem getElem?_leave {old new : Address} {payload : UInt32} {id : ArenaId} {i : Nat}
    (apart : id = old.arena → i ≠ old.word ∧ i ≠ old.word + 1) :
    ((source.leave old new payload).space id)[i]? = (source.space id)[i]? := by
  rw [leave, getElem?_setWord, if_neg, getElem?_setWord, if_neg]
  · exact fun h => (apart h.1).1 h.2
  · exact fun h => (apart h.1).2 h.2

theorem header_leave {old new : Address} {payload : UInt32} {h : Header}
    (hh : source.header old = .ok h) :
    (source.leave old new payload).header old = .ok (.forwarded (.ofAddress new) payload) := by
  obtain ⟨w, p, hw, hp, -⟩ := header_eq_ok_iff.mp hh
  refine header_eq_ok_iff.mpr ⟨_, _, ?_, ?_, (Header.ofWords_packed ?_).symm⟩
  · rw [leave, getElem?_setWord, if_neg (by omega), getElem?_setWord, if_pos ⟨rfl, rfl⟩, hw]
    rfl
  · rw [leave, getElem?_setWord, if_pos ⟨rfl, rfl⟩, getElem?_setWord, if_neg (by omega), hp]
    rfl
  · exact Nat.zero_lt_succ _

/-- The moves of other objects do not unsettle a word. -/
theorem settled_nowMoving {old loc new : Address} {j : Nat} (hne : loc ≠ old) :
    Settled scan (nowMoving old moving) loc new j ↔ Settled scan moving loc new j := by
  obtain ⟨arena, word⟩ := loc
  obtain ⟨arena', word'⟩ := old
  cases arena <;> cases arena' <;> try rfl
  have hword : word ≠ word' := fun h => hne (by rw [h])
  simp [Settled, nowMoving, hword]

theorem advance (g : Ground a starts live)
    (c : Copying a starts live moves scan moving source target) {old : Address} {h : Header}
    (hl : live old) (hn : moves old = none) (hh : a.header old = .ok h) {ws : Array UInt64}
    (hsize : ws.size = a.extent old)
    (hws : ∀ j < a.extent old, ws[j]? = (a.space old.arena)[old.word + j]?) :
    Copying a starts live (Function.update moves old (some ⟨old.arena, target.used old.arena⟩)) scan
      (nowMoving old moving)
      (source.leave old ⟨old.arena, target.used old.arena⟩ h.payloadWords.toUInt32)
      (target.append old.arena ws).2 := by
  have hsrc := c.source_header g hl hn hh
  have hpos := g.extent_pos hl
  have hext : ∀ {loc new}, moves loc = some new → loc ≠ old := by
    rintro loc new hm rfl
    rw [hn] at hm
    cases hm
  -- the words of another object and the header of this one are different words
  have hdisj : ∀ {loc new}, moves loc = some new → ∀ k, k < 2 → loc.arena = old.arena →
      loc.word + k ≠ old.word ∧ loc.word + k ≠ old.word + 1 := by
    intro loc new hm k hk harena
    have hloc := g.extent_pos (c.live hm)
    rcases Nat.lt_trichotomy loc.word old.word with hlt | heq | hlt
    · have := g.apart (c.live hm) hl harena hlt
      omega
    · exact absurd (by cases loc; cases old; simp_all) (hext hm)
    · have := g.apart hl (c.live hm) harena.symm hlt
      omega
  constructor
  case live =>
    intro loc new hm
    rcases update_eq_some.mp hm with ⟨rfl, -⟩ | ⟨-, hm⟩
    · exact hl
    · exact c.live hm
  case arena =>
    intro loc new hm
    rcases update_eq_some.mp hm with ⟨rfl, rfl⟩ | ⟨-, hm⟩
    · rfl
    · exact c.arena hm
  case injective =>
    have fresh : ∀ loc, moves loc ≠ some ⟨old.arena, target.used old.arena⟩ := by
      intro loc hm
      have harena := c.arena hm
      change old.arena = loc.arena at harena
      have hb : target.used old.arena + a.extent loc ≤ target.used loc.arena := (c.bounds g hm).2.1
      have := g.extent_pos (c.live hm)
      rw [harena] at hb
      omega
    intro loc loc' new hm hm'
    rcases update_eq_some.mp hm with ⟨rfl, rfl⟩ | ⟨-, hm₁⟩ <;>
      rcases update_eq_some.mp hm' with ⟨rfl, heq⟩ | ⟨-, hm₂⟩
    · rfl
    · exact absurd hm₂ (fresh _)
    · exact absurd (heq ▸ hm₁) (fresh _)
    · exact c.injective hm₁ hm₂
  case forwarded =>
    intro loc new h' hm hh'
    rcases update_eq_some.mp hm with ⟨rfl, rfl⟩ | ⟨-, hm⟩
    · obtain rfl : h' = h := Except.ok.inj (hh'.symm.trans hh)
      exact header_leave hsrc
    · obtain ⟨w, p, hw, hp, heq⟩ := header_eq_ok_iff.mp (c.forwarded hm hh')
      refine header_eq_ok_iff.mpr ⟨w, p, ?_, ?_, heq⟩
      · rw [getElem?_leave, hw]
        exact hdisj hm 0 (by omega)
      · rw [getElem?_leave, hp]
        exact hdisj hm 1 (by omega)
  case untouched =>
    intro id i hnone hprev
    obtain ⟨hne, hnone⟩ := update_eq_none.mp hnone
    have hprev' : ∀ k, i = k + 1 → ⟨id, k⟩ ≠ old ∧ moves ⟨id, k⟩ = none :=
      fun k hk => update_eq_none.mp (hprev k hk)
    rw [getElem?_leave, c.untouched hnone fun k hk => (hprev' k hk).2]
    rintro rfl
    refine ⟨fun hi => hne (by rw [hi]), fun hi => ?_⟩
    exact (hprev' _ hi).1 rfl
  case usedSource =>
    intro id
    rw [leave, used_setWord, used_setWord, c.usedSource]
  case pad => exact fun id => header_append (c.pad id)
  case tiled =>
    intro id
    obtain ⟨news, ht, hmem⟩ := c.tiled id
    by_cases hid : id = old.arena
    · subst hid
      refine ⟨news ++ [target.used old.arena], ht.snoc (h := h) ?_ ?_ ?_, ?_⟩
      · obtain ⟨w, p, hw, hp, heq⟩ := header_eq_ok_iff.mp hh
        refine header_eq_ok_iff.mpr ⟨w, p, ?_, ?_, heq⟩
        · rw [← Nat.add_zero (target.used old.arena), getElem?_append_right, hws 0 (by omega), ← hw]
          rfl
        · rw [getElem?_append_right, hws 1 (by omega), ← hp]
      · rw [used_append, if_pos rfl, hsize, extent_eq hh]
      · intro x hx
        obtain ⟨hx', hhx, -⟩ := ht.object hx
        rw [hhx, header_append hhx]
      · intro y
        rw [List.mem_append, hmem, List.mem_singleton]
        constructor
        · rintro (⟨loc, hm⟩ | rfl)
          · exact ⟨loc, update_eq_some.mpr (.inr ⟨hext hm, hm⟩)⟩
          · exact ⟨old, update_eq_some.mpr (.inl ⟨rfl, rfl⟩)⟩
        · rintro ⟨loc, hm⟩
          rcases update_eq_some.mp hm with ⟨-, heq⟩ | ⟨-, hm⟩
          · exact .inr (congrArg Address.word heq)
          · exact .inl ⟨loc, hm⟩
    · refine ⟨news, ht.congr (by rw [used_append, if_neg hid, Nat.add_zero]) ?_, ?_⟩
      · intro x hx h' hh'
        exact ⟨h', header_append hh', rfl⟩
      · intro y
        rw [hmem]
        constructor
        · rintro ⟨loc, hm⟩
          exact ⟨loc, update_eq_some.mpr (.inr ⟨hext hm, hm⟩)⟩
        · rintro ⟨loc, hm⟩
          rcases update_eq_some.mp hm with ⟨-, heq⟩ | ⟨-, hm⟩
          · exact absurd (congrArg Address.arena heq) hid
          · exact ⟨loc, hm⟩
  case copied =>
    intro loc new hm j hj
    rcases update_eq_some.mp hm with ⟨rfl, rfl⟩ | ⟨hne, hm⟩
    · obtain ⟨w, hw⟩ : ∃ w, ws[j]? = some w :=
        ⟨_, Array.getElem?_eq_getElem (by omega)⟩
      refine ⟨w, w, (hws j hj) ▸ hw, (getElem?_append_right j).trans hw, fun hs => ?_, fun _ => rfl⟩
      -- nothing of a fresh copy is settled
      have hscan := c.scanned
      obtain ⟨arena, word⟩ := loc
      cases arena with
      | pointers => exact absurd hs.2 (by simp only; omega)
      | leaf => exact absurd List.mem_cons_self hs.2.2
    · obtain ⟨w, w', hw, hw', hset, hunset⟩ := c.copied hm j hj
      have hiff : Settled scan (nowMoving old moving) loc new j ↔ Settled scan moving loc new j :=
        settled_nowMoving hne
      refine ⟨w, w', hw, ?_, fun hs => ?_, fun hs => hunset (hs ∘ hiff.mpr)⟩
      · rw [getElem?_append_left, hw']
        have := (c.bounds g hm).2.1
        omega
      · exact (hset (hiff.mp hs)).mono fun loc' new' hm' =>
          update_eq_some.mpr (.inr ⟨hext hm', hm'⟩)
  case used =>
    intro id
    rw [used_append, c.used, movedWords_update g hl hn, hsize, Nat.add_assoc]
  case scanned =>
    have := c.scanned
    rw [used_append]
    omega
  case moving =>
    intro x hx
    have keep : (moves ⟨.leaf, x⟩).isSome →
        (Function.update moves old (some ⟨old.arena, target.used old.arena⟩)
          ⟨.leaf, x⟩).isSome := by
      intro hs
      obtain ⟨new, hm⟩ := Option.isSome_iff_exists.mp hs
      rw [Option.isSome_iff_exists]
      exact ⟨new, update_eq_some.mpr (.inr ⟨hext hm, hm⟩)⟩
    obtain ⟨arena, word⟩ := old
    cases arena with
    | pointers => exact keep (c.moving x hx)
    | leaf =>
      rcases List.mem_cons.mp hx with rfl | hx
      · simp
      · exact keep (c.moving x hx)

/-- One more word of a copy holds a new name. -/
theorem settle (g : Ground a starts live)
    (c : Copying a starts live moves scan moving source target) {loc new : Address} {j : Nat}
    (hm : moves loc = some new) (hj : j < a.extent loc) (hj₁ : j ≠ 1) {w : UInt64} {v : Value}
    (hw : (a.space loc.arena)[loc.word + j]? = some w) (hv : moves.Settles ⟨w⟩ v)
    {scan' : Nat} {moving' : List Nat}
    (hset : ∀ {loc' new' j'}, moves loc' = some new' → j' < a.extent loc' →
      (Settled scan' moving' loc' new' j' ↔
        Settled scan moving loc' new' j' ∨ loc' = loc ∧ j' = j))
    (hscan : scan' ≤ target.used .pointers) (hmoving : ∀ x ∈ moving', (moves ⟨.leaf, x⟩).isSome) :
    Copying a starts live moves scan' moving' source
      (target.setWord loc.arena (new.word + j) v.raw) := by
  have hfirst : 2 ≤ new.word := (c.bounds g hm).1
  refine { c with
    pad := fun id => ?_, tiled := fun id => ?_, copied := fun {loc' new'} hm' j' hj' => ?_
    used := fun id => (used_setWord ..).trans (c.used id)
    scanned := (used_setWord ..).symm ▸ hscan, moving := hmoving }
  · obtain ⟨w, p, hw, hp, heq⟩ := header_eq_ok_iff.mp (c.pad id)
    refine header_eq_ok_iff.mpr ⟨w, p, ?_, ?_, heq⟩
    · rw [getElem?_setWord, if_neg, hw]
      rintro ⟨-, hpos⟩
      change 0 = new.word + j at hpos
      omega
    · rw [getElem?_setWord, if_neg, hp]
      rintro ⟨-, hpos⟩
      change 1 = new.word + j at hpos
      omega
  · obtain ⟨news, ht, hmem⟩ := c.tiled id
    refine ⟨news, ht.congr (used_setWord ..) fun x hx h hh => ?_, hmem⟩
    obtain ⟨loc', hm'⟩ := (hmem x).mp hx
    have harena : id = loc'.arena := c.arena hm'
    obtain ⟨w, p, hw, hp, rfl⟩ := header_eq_ok_iff.mp hh
    have hp' : ((target.setWord loc.arena (new.word + j) v.raw).space id)[x + 1]? = some p := by
      rw [getElem?_setWord, if_neg, ← hp]
      rintro ⟨rfl, hpos⟩
      have hpos' := g.extent_pos (c.live hm')
      have := c.apart g hm' hm harena.symm (j := 1) (by omega) hj hpos
      omega
    obtain ⟨w', hw'⟩ : ∃ w', ((target.setWord loc.arena (new.word + j) v.raw).space id)[x]? =
        some w' := by
      have hlt := (Array.getElem?_eq_some_iff.mp hp').1
      exact ⟨_, Array.getElem?_eq_getElem (by omega)⟩
    exact ⟨_, header_eq_ok_iff.mpr ⟨w', p, hw', hp', rfl⟩, rfl⟩
  · obtain ⟨w₁, w₂, hw₁, hw₂, hs₁, hs₂⟩ := c.copied hm' j' hj'
    by_cases hsame : loc' = loc ∧ j' = j
    · obtain ⟨rfl, rfl⟩ := hsame
      obtain rfl : new' = new := Option.some.inj (hm'.symm.trans hm)
      obtain rfl : w₁ = w := Option.some.inj (hw₁.symm.trans hw)
      refine ⟨w₁, v.raw, hw₁, ?_, fun _ => hv,
        fun hs => absurd ((hset hm' hj').mpr (.inr ⟨rfl, rfl⟩)) hs⟩
      rw [getElem?_setWord, if_pos ⟨rfl, rfl⟩, hw₂]
      rfl
    · have hiff : Settled scan' moving' loc' new' j' ↔ Settled scan moving loc' new' j' := by
        rw [hset hm' hj', or_iff_left hsame]
      refine ⟨w₁, w₂, hw₁, ?_, fun hs => hs₁ (hiff.mp hs), fun hs => hs₂ (hs ∘ hiff.mpr)⟩
      rw [getElem?_setWord, if_neg, hw₂]
      rintro ⟨harena, hpos⟩
      exact hsame (c.apart g hm' hm harena hj' hj hpos)

theorem forwarding_moved (g : Ground a starts live)
    (c : Copying a starts live moves scan moving source target) {old new : Address}
    (hm : moves old = some new) : source.forwarding? old = .ok (some new) := by
  obtain ⟨h, hh, -⟩ := g.object (c.live hm)
  obtain ⟨hfirst, -, hsmall⟩ := c.bounds g hm
  have hnew := Value.address?_ofAddress hsmall (Nat.lt_of_lt_of_le Nat.zero_lt_two hfirst)
  simp [forwarding?, c.forwarded hm hh, bind, Except.bind, pure, Except.pure, Header.forwarding?,
    Header.forwarded, hnew]

theorem forwarding_unmoved (g : Ground a starts live)
    (c : Copying a starts live moves scan moving source target) {old : Address} (hl : live old)
    (hn : moves old = none) : source.forwarding? old = .ok none := by
  obtain ⟨h, hh, hkind, -⟩ := g.object hl
  have hne : h.kind ≠ .forwarded := by
    rw [hkind]
    cases old.arena <;> decide
  simp [forwarding?, c.source_header g hl hn hh, bind, Except.bind, pure, Except.pure,
    Header.forwarding?, hne]

theorem forward_eq (g : Ground a starts live)
    (c : Copying a starts live moves scan moving source target) {old : Address} {h : Header}
    (hl : live old) (hn : moves old = none) (hh : a.header old = .ok h) (new : Address) :
    source.forward old new = .ok (source.leave old new h.payloadWords.toUInt32) := by
  have hsrc := c.source_header g hl hn hh
  simp only [forward, hsrc, bind, Except.bind, setHeader, if_pos (lt_used_of_header hsrc)]
  rfl

/-- The class of a byte object is settled when its move ends. -/
theorem settle_class (g : Ground a starts live) {x : Nat} {new : Address} {h : Header} {v : Value}
    (c : Copying a starts live moves scan (x :: moving) source target)
    (hm : moves ⟨.leaf, x⟩ = some new) (hx : x ∉ moving) (hh : a.header ⟨.leaf, x⟩ = .ok h)
    (hv : moves.Settles h.isa v) :
    Copying a starts live moves scan moving source (target.setWord .leaf new.word v.raw) := by
  have hpos := g.extent_pos (c.live hm)
  obtain ⟨w, p, hw, hp, rfl⟩ := header_eq_ok_iff.mp hh
  refine c.settle g (j := 0) hm (by omega) (by omega) hw hv ?_ c.scanned
    fun y hy => c.moving y (List.mem_cons_of_mem _ hy)
  intro loc' new' j' _ _
  obtain ⟨arena, y⟩ := loc'
  cases arena with
  | pointers => simp [Settled]
  | leaf =>
    by_cases hy : y = x
    · subst hy
      simp [Settled, hx]
      omega
    · simp [Settled, hy]

theorem moveObject_moved (g : Ground a starts live) (fuel : Nat)
    (c : Copying a starts live moves scan moving source target) {old new : Address}
    (hm : moves old = some new) :
    moveObject (fuel + 1) source target old = .ok (source, target, new) := by
  rw [moveObject, c.forwarding_moved g hm]
  rfl

/-- An object that has not moved goes to the end of its arena, and the class of a byte object
follows it. -/
theorem moveObject_unmoved (g : Ground a starts live) (fuel : Nat)
    (c : Copying a starts live moves scan moving source target) {old new : Address} {h : Header}
    (hl : live old) (hn : moves old = none) (hh : a.header old = .ok h)
    (hnew : new = ⟨old.arena, target.used old.arena⟩) :
    ∃ source' target',
      Copying a starts live (Function.update moves old (some new)) scan (nowMoving old moving)
        source' target' ∧
      (∀ id, target'.used id = target.used id + if id = old.arena then a.extent old else 0) ∧
      (target'.space old.arena)[new.word]? = some h.isa.raw ∧
      moveObject (fuel + 1) source target old =
        match old.arena with
        | .pointers => .ok (source', target', new)
        | .leaf =>
          match h.isa.address? with
          | none => .ok (source', target', new)
          | some cls => do
            let (source, target, cls) ← moveObject fuel source' target' cls
            let target ← target.setClass new (.ofAddress cls)
            return (source, target, new) := by
  subst hnew
  obtain ⟨ws, hwords, hsize, hws⟩ := c.source_words g hl hn hh
  refine ⟨_, _, c.advance g hl hn hh hsize hws, fun id => ?_, ?_, ?_⟩
  · rw [used_append, hsize]
  · obtain ⟨w, p, hw, -, rfl⟩ := header_eq_ok_iff.mp hh
    have hpos := g.extent_pos hl
    exact (getElem?_append_right 0).trans ((hws 0 (by omega)).trans hw)
  · rw [moveObject]
    simp only [c.forwarding_unmoved g hl hn, c.source_header g hl hn hh, hwords, bind, Except.bind,
      c.forward_eq g hl hn hh, append]
    rfl

theorem moveObject_moves (g : Ground a starts live) (fuel : Nat)
    (c : Copying a starts live moves scan moving source target) {old : Address} (hl : live old)
    (hfuel : unmoved starts moves .leaf < fuel) :
    ∃ source' target' moves' new, moveObject fuel source target old = .ok (source', target', new) ∧
      Copying a starts live moves' scan moving source' target' ∧ moves'.Extends moves ∧
      moves' old = some new := by
  induction fuel generalizing moves moving source target old with
  | zero => omega
  | succ fuel ih =>
    cases hm : moves old with
    | some new => exact ⟨source, target, moves, new, c.moveObject_moved g fuel hm, c, .refl _, hm⟩
    | none =>
      obtain ⟨h, hh, -⟩ := g.object hl
      obtain ⟨source₁, target₁, hc, -, hisa, heq⟩ := c.moveObject_unmoved g fuel hl hm hh rfl
      have hext : Moves.Extends
        (Function.update moves old (some ⟨old.arena, target.used old.arena⟩))
          moves := by
        intro loc new hloc
        refine update_eq_some.mpr (.inr ⟨?_, hloc⟩)
        rintro rfl
        rw [hm] at hloc
        cases hloc
      have hnew : Function.update moves old (some ⟨old.arena, target.used old.arena⟩) old =
          some ⟨old.arena, target.used old.arena⟩ := update_eq_some.mpr (.inl ⟨rfl, rfl⟩)
      rw [heq]
      obtain ⟨arena, x⟩ := old
      cases arena with
      | pointers => exact ⟨_, _, _, _, rfl, hc, hext, hnew⟩
      | leaf =>
        have hx : x ∉ moving := fun hmem => by simpa [hm] using c.moving x hmem
        cases hcls : h.isa.address? with
        | none =>
          have hset := hc.settle_class g hnew hx hh (v := h.isa) (by rw [Moves.Settles, hcls])
          rw [setWord_self hisa] at hset
          exact ⟨_, _, _, _, rfl, hset, hext, hnew⟩
        | some cls =>
          have hcls' := g.closed hl ⟨h, hh, .inl rfl⟩ hcls
          obtain ⟨source₂, target₂, moves₂, new₂, hrec, hc₂, hext₂, hm₂⟩ :=
            ih hc hcls' (Nat.lt_of_lt_of_le (unmoved_update g hl hm) (Nat.le_of_lt_succ hfuel))
          have hnew₂ := hext₂ _ _ hnew
          have hset := hc₂.settle_class g hnew₂ hx hh (v := .ofAddress new₂) (by
            rw [Moves.Settles, hcls]
            exact ⟨new₂, hm₂, rfl⟩)
          have hpos := g.extent_pos hl
          have hlt := (hc₂.bounds g hnew₂).2.1
          simp only [hrec, setClass, bind, Except.bind, pure, Except.pure]
          rw [if_pos (by simp only at hlt ⊢; omega)]
          exact ⟨_, _, _, _, rfl, hset, hext₂.trans hext, hnew₂⟩

end Copying

end ObjectMachine.Arenas
