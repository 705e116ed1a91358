import ObjectMachine.Memory.Fault

namespace ObjectMachine

/-- Each arena starts with a pad of two words, so that no object stands at word 0, and objects
follow one another without gaps. -/
structure Arenas where
  pointers : Array UInt64
  leaf : Array UInt64
  deriving Inhabited

namespace Arenas

abbrev firstObject : Nat := headerWords

/-- Both arenas with nothing but their pads. -/
def empty : Arenas :=
  ⟨#[0, (Header.pad 0).packed], #[0, (Header.pad 0).packed]⟩

@[inline] def space (a : Arenas) : ArenaId → Array UInt64
  | .pointers => a.pointers
  | .leaf => a.leaf

@[inline] def modify (a : Arenas) (id : ArenaId) (f : Array UInt64 → Array UInt64) : Arenas :=
  match id with
  | .pointers => { a with pointers := f a.pointers }
  | .leaf => { a with leaf := f a.leaf }

@[inline] def used (a : Arenas) (id : ArenaId) : Nat := (a.space id).size

@[inline] def word (a : Arenas) (id : ArenaId) (i : Nat) : Except Fault UInt64 :=
  match (a.space id)[i]? with
  | some w => .ok w
  | none => .error .outOfRange

@[inline] def setWord (a : Arenas) (id : ArenaId) (i : Nat) (w : UInt64) : Arenas :=
  a.modify id (·.setIfInBounds i w)

def words (a : Arenas) (id : ArenaId) (start stop : Nat) : Except Fault (Array UInt64) :=
  if start ≤ stop ∧ stop ≤ a.used id then .ok ((a.space id).extract start stop)
  else .error .outOfRange

@[inline] def header (a : Arenas) (loc : Address) : Except Fault Header := do
  let isa ← a.word loc.arena loc.word
  let packed ← a.word loc.arena (loc.word + 1)
  return .ofWords isa packed

@[inline] def setHeader (a : Arenas) (loc : Address) (h : Header) : Except Fault Arenas :=
  if loc.word + 1 < a.used loc.arena then
    .ok ((a.setWord loc.arena loc.word h.isa.raw).setWord loc.arena (loc.word + 1) h.packed)
  else .error .outOfRange

def setClass (a : Arenas) (loc : Address) (isa : Value) : Except Fault Arenas :=
  if loc.word < a.used loc.arena then .ok (a.setWord loc.arena loc.word isa.raw)
  else .error .outOfRange

/-- Appends the words of an object and tells where it now stands. -/
def append (a : Arenas) (id : ArenaId) (ws : Array UInt64) : Address × Arenas :=
  (⟨id, a.used id⟩, a.modify id (· ++ ws))

/-- The address just past an object. -/
def next (a : Arenas) (loc : Address) : Except Fault Address := do
  let h ← a.header loc
  return ⟨loc.arena, loc.word + h.totalWords⟩

/-- Records in the header of an object that it now lives at `new`. -/
@[inline] def forward (a : Arenas) (old new : Address) : Except Fault Arenas := do
  let h ← a.header old
  a.setHeader old (.forwarded (.ofAddress new) h.payloadWords.toUInt32)

/-- Where an object went, if it moved. -/
@[inline] def forwarding? (a : Arenas) (loc : Address) : Except Fault (Option Address) := do
  let h ← a.header loc
  return h.forwarding?.bind Value.address?

section Scan

variable {σ : Type} (fix : σ → Arenas → Value → Except Fault (σ × Arenas × Value)) (id : ArenaId)

@[inline] def fixWord (s : σ) (a : Arenas) (i : Nat) : Except Fault (σ × Arenas) := do
  let w ← a.word id i
  let (s, a, v) ← fix s a ⟨w⟩
  return (s, a.setWord id i v.raw)

@[specialize] def fixWords (s : σ) (a : Arenas) (i : Nat) : Nat → Except Fault (σ × Arenas)
  | 0 => return (s, a)
  | count + 1 => do
    let (s, a) ← fixWord fix id s a i
    fixWords s a (i + 1) count

/-- Visits the class word and the slots of every object that starts in `[i, stop)`, in address
order. Filler and objects that moved are passed over, and `fix` may append objects. -/
@[specialize] def scan (s : σ) (a : Arenas) (i stop : Nat) : Except Fault (σ × Arenas) :=
  if i < stop then do
    let h ← a.header ⟨id, i⟩
    match h.kind with
    | .pad | .forwarded => scan s a (i + h.totalWords) stop
    | .pointers | .bytes =>
      let (s, a) ← fixWord fix id s a i
      let slots := if h.kind = .pointers then h.size.toNat else 0
      let (s, a) ← fixWords fix id s a (i + headerWords) slots
      let h' ← a.header ⟨id, i⟩
      scan s a (i + h'.totalWords) stop
  else return (s, a)
termination_by stop - i
decreasing_by
  all_goals simp only [Header.totalWords, headerWords]; omega

end Scan

end Arenas

end ObjectMachine
