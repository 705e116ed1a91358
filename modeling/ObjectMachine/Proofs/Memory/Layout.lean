import Mathlib.Algebra.BigOperators.Group.List.Basic
import Mathlib.Algebra.GroupWithZero.Nat
import Mathlib.Data.List.Pairwise
import ObjectMachine.Memory.Census
import ObjectMachine.Proofs.Memory.Words

namespace ObjectMachine

def ArenaId.objectKind : ArenaId → ObjectKind
  | .pointers => .pointers
  | .leaf => .bytes

namespace Arenas

section Words

variable (a : Arenas)

theorem space_modify (id id' : ArenaId) (f : Array UInt64 → Array UInt64) :
    (a.modify id f).space id' = if id' = id then f (a.space id) else a.space id' := by
  cases id <;> cases id' <;> rfl

theorem getElem?_setWord (id id' : ArenaId) (i k : Nat) (w : UInt64) :
    ((a.setWord id i w).space id')[k]? =
      if id' = id ∧ k = i then ((a.space id)[i]?).map fun _ => w else (a.space id')[k]? := by
  rw [setWord, space_modify]
  by_cases hid : id' = id
  · subst hid
    rw [if_pos rfl, Array.getElem?_setIfInBounds]
    by_cases hk : i = k
    · subst hk
      by_cases hi : i < (a.space id').size <;> simp [hi]
    · simp [hk, Ne.symm hk]
  · simp [hid]

@[simp] theorem used_setWord (id id' : ArenaId) (i : Nat) (w : UInt64) :
    (a.setWord id i w).used id' = a.used id' := by
  rw [used, setWord, space_modify]
  split <;> simp_all [used]

theorem space_append (id id' : ArenaId) (ws : Array UInt64) :
    (a.append id ws).2.space id' = if id' = id then a.space id ++ ws else a.space id' := by
  rw [append, space_modify]

variable {a} {loc : Address} {h : Header}

theorem header_eq_ok_iff : a.header loc = .ok h ↔
    ∃ w p, (a.space loc.arena)[loc.word]? = some w ∧
      (a.space loc.arena)[loc.word + 1]? = some p ∧ h = .ofWords w p := by
  simp only [header, word]
  cases (a.space loc.arena)[loc.word]? with
  | none => simp [bind, Except.bind]
  | some w =>
    cases (a.space loc.arena)[loc.word + 1]? with
    | none => simp [bind, Except.bind]
    | some p => simp [bind, Except.bind, pure, Except.pure, eq_comm]

theorem words_of_header (hh : a.header loc = .ok h) :
    (a.space loc.arena)[loc.word]? = some h.isa.raw ∧
      (a.space loc.arena)[loc.word + 1]? = some h.packed := by
  obtain ⟨w, p, hw, hp, rfl⟩ := header_eq_ok_iff.mp hh
  exact ⟨hw, hp.trans (congrArg some (Header.packed_ofWords w p).symm)⟩

theorem word_eq_ok_iff {id : ArenaId} {i : Nat} {w : UInt64} :
    a.word id i = .ok w ↔ (a.space id)[i]? = some w := by
  rw [word]
  cases (a.space id)[i]? <;> simp

theorem lt_used_of_header (hh : a.header loc = .ok h) : loc.word + 1 < a.used loc.arena := by
  obtain ⟨w, p, -, hp, -⟩ := header_eq_ok_iff.mp hh
  exact (Array.getElem?_eq_some_iff.mp hp).1

end Words

/-- How many words an object takes. -/
def extent (a : Arenas) (loc : Address) : Nat :=
  match a.header loc with
  | .ok h => h.totalWords
  | .error _ => 0

theorem extent_eq {a : Arenas} {loc : Address} {h : Header} (hh : a.header loc = .ok h) :
    a.extent loc = h.totalWords := by rw [extent, hh]

/-- From word `i` on, the arena is a row of whole objects, which start at the given words. -/
def Tiled (a : Arenas) (id : ArenaId) : Nat → List Nat → Prop
  | i, [] => i = a.used id
  | i, start :: rest =>
    start = i ∧ ∃ h, a.header ⟨id, i⟩ = .ok h ∧ a.Tiled id (i + h.totalWords) rest

namespace Tiled

variable {a : Arenas} {id : ArenaId} {i : Nat} {l : List Nat}

theorem le_used (ht : a.Tiled id i l) : i ≤ a.used id := by
  induction l generalizing i with
  | nil => exact Nat.le_of_eq ht
  | cons start rest ih =>
    obtain ⟨-, h, -, hrest⟩ := ht
    exact Nat.le_trans (Nat.le_add_right _ _) (ih hrest)

theorem object (ht : a.Tiled id i l) {x : Nat} (hx : x ∈ l) :
    ∃ h, a.header ⟨id, x⟩ = .ok h ∧ i ≤ x ∧ x + h.totalWords ≤ a.used id := by
  induction l generalizing i with
  | nil => cases hx
  | cons start rest ih =>
    obtain ⟨rfl, h, hh, hrest⟩ := ht
    rcases List.mem_cons.mp hx with rfl | hx
    · exact ⟨h, hh, Nat.le_refl _, hrest.le_used⟩
    · obtain ⟨h', hh', hle, hend⟩ := ih hrest hx
      exact ⟨h', hh', Nat.le_trans (Nat.le_add_right _ _) hle, hend⟩

theorem apart (ht : a.Tiled id i l) {x y : Nat} (hx : x ∈ l) (hy : y ∈ l) (hxy : x < y) :
    x + a.extent ⟨id, x⟩ ≤ y := by
  induction l generalizing i with
  | nil => cases hx
  | cons start rest ih =>
    obtain ⟨rfl, h, hh, hrest⟩ := ht
    rcases List.mem_cons.mp hx with hx' | hx'
    · rcases List.mem_cons.mp hy with hy' | hy'
      · omega
      · obtain ⟨-, -, hle, -⟩ := hrest.object hy'
        rwa [hx', extent_eq hh]
    · rcases List.mem_cons.mp hy with hy' | hy'
      · obtain ⟨-, -, hle, -⟩ := hrest.object hx'
        omega
      · exact ih hrest hx' hy'

theorem nodup (ht : a.Tiled id i l) : l.Nodup := by
  induction l generalizing i with
  | nil => exact List.nodup_nil
  | cons start rest ih =>
    obtain ⟨rfl, h, -, hrest⟩ := ht
    refine List.nodup_cons.mpr ⟨fun hmem => ?_, ih hrest⟩
    obtain ⟨-, -, hle, -⟩ := hrest.object hmem
    have := h.headerWords_le_totalWords
    simp only [headerWords] at this
    omega

/-- Every word from the first on belongs to an object. -/
theorem covers (ht : a.Tiled id i l) {k : Nat} (hle : i ≤ k) (hlt : k < a.used id) :
    ∃ x ∈ l, x ≤ k ∧ k < x + a.extent ⟨id, x⟩ := by
  induction l generalizing i with
  | nil =>
    have hend : i = a.used id := ht
    omega
  | cons start rest ih =>
    obtain ⟨rfl, h, hh, hrest⟩ := ht
    by_cases hk : k < start + h.totalWords
    · exact ⟨start, List.mem_cons_self, hle, by rwa [extent_eq hh]⟩
    · obtain ⟨x, hx, hxk⟩ := ih hrest (Nat.le_of_not_lt hk)
      exact ⟨x, List.mem_cons_of_mem _ hx, hxk⟩

theorem used_eq (ht : a.Tiled id i l) :
    a.used id = i + (l.map fun x => a.extent ⟨id, x⟩).sum := by
  induction l generalizing i with
  | nil => simpa using Eq.symm ht
  | cons start rest ih =>
    obtain ⟨rfl, h, hh, hrest⟩ := ht
    rw [ih hrest, List.map_cons, List.sum_cons, extent_eq hh]
    omega

theorem startsFrom_eq (ht : a.Tiled id i l) : a.startsFrom id i = .ok l := by
  induction l generalizing i with
  | nil =>
    rw [startsFrom, if_neg (by rw [show i = a.used id from ht]; omega)]
    rfl
  | cons start rest ih =>
    obtain ⟨rfl, h, hh, hrest⟩ := ht
    have hlt := lt_used_of_header hh
    rw [startsFrom, if_pos (by simp only at hlt; omega), hh]
    simp only [bind, Except.bind, ih hrest]
    rfl

/-- The row depends on nothing but the lengths of its objects. -/
theorem congr {b : Arenas} (ht : a.Tiled id i l) (used : b.used id = a.used id)
    (same : ∀ x ∈ l, ∀ h, a.header ⟨id, x⟩ = .ok h →
      ∃ h', b.header ⟨id, x⟩ = .ok h' ∧ h'.totalWords = h.totalWords) : b.Tiled id i l := by
  induction l generalizing i with
  | nil => exact (show i = a.used id from ht).trans used.symm
  | cons start rest ih =>
    obtain ⟨rfl, h, hh, hrest⟩ := ht
    obtain ⟨h', hh', heq⟩ := same _ List.mem_cons_self h hh
    exact ⟨rfl, h', hh', heq ▸ ih hrest fun x hx => same x (List.mem_cons_of_mem _ hx)⟩

/-- One more object at the end of the row. -/
theorem snoc {b : Arenas} {h : Header} (ht : a.Tiled id i l)
    (last : b.header ⟨id, a.used id⟩ = .ok h) (used : b.used id = a.used id + h.totalWords)
    (same : ∀ x ∈ l, b.header ⟨id, x⟩ = a.header ⟨id, x⟩) : b.Tiled id i (l ++ [a.used id]) := by
  induction l generalizing i with
  | nil =>
    obtain rfl : i = a.used id := ht
    exact ⟨rfl, h, last, used.symm⟩
  | cons start rest ih =>
    obtain ⟨rfl, h', hh', hrest⟩ := ht
    refine ⟨rfl, h', ?_, ih hrest fun x hx => same x (List.mem_cons_of_mem _ hx)⟩
    rw [same _ List.mem_cons_self, hh']

end Tiled

def Allocated (a : Arenas) (loc : Address) : Prop :=
  ∃ l, a.starts loc.arena = .ok l ∧ loc.word ∈ l

/-- Both arenas consist of a pad and whole objects of their kind. -/
structure Laid (a : Arenas) : Prop where
  pad : ∀ id, a.header ⟨id, 0⟩ = .ok (Header.pad 0)
  tiled : ∀ id, ∃ l, a.Tiled id firstObject l
  kind : ∀ loc, a.Allocated loc → ∀ h, a.header loc = .ok h → h.kind = loc.arena.objectKind

theorem starts_eq {a : Arenas} {id : ArenaId} {l : List Nat}
    (pad : a.header ⟨id, 0⟩ = .ok (Header.pad 0)) (ht : a.Tiled id firstObject l) :
    a.starts id = .ok l := by
  simp only [starts, next, pad, bind, Except.bind, pure, Except.pure]
  exact ht.startsFrom_eq

theorem allocated_iff {a : Arenas} {loc : Address} {l : List Nat}
    (pad : a.header ⟨loc.arena, 0⟩ = .ok (Header.pad 0)) (ht : a.Tiled loc.arena firstObject l) :
    a.Allocated loc ↔ loc.word ∈ l := by
  simp [Allocated, starts_eq pad ht]

theorem Laid.object {a : Arenas} (laid : a.Laid) {loc : Address} (hl : a.Allocated loc) :
    ∃ h, a.header loc = .ok h ∧ h.kind = loc.arena.objectKind ∧ firstObject ≤ loc.word ∧
      loc.word + h.totalWords ≤ a.used loc.arena := by
  obtain ⟨l, ht⟩ := laid.tiled loc.arena
  obtain ⟨h, hh, hle, hend⟩ := ht.object ((allocated_iff (laid.pad _) ht).mp hl)
  exact ⟨h, hh, laid.kind loc hl h hh, hle, hend⟩

end Arenas

end ObjectMachine
