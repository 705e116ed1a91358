import ObjectMachine.Memory.Arena
import ObjectMachine.Text.Lossy

namespace ObjectMachine

structure Collection where
  livePointers : Nat := 0
  liveLeaf : Nat := 0
  freed : Nat := 0
  deriving DecidableEq, Inhabited

def Collection.live (c : Collection) : Nat := c.livePointers + c.liveLeaf

structure HeapStats where
  objects : Nat := 0
  words : Nat := 0
  collections : Nat := 0
  last : Collection := {}
  deriving DecidableEq, Inhabited

inductive HeapError where
  | exhausted (arena : ArenaId) (requested used capacity : Nat)
  | dangling (arena : ArenaId) (value : Value)
  deriving DecidableEq

def HeapError.message : HeapError → String
  | .exhausted arena requested used capacity =>
      s!"{arena.name} arena exhausted: {requested} words requested, {used} of {capacity} in use"
  | .dangling arena value =>
      s!"dangling reference {value.describe} held by an object in the {arena.name} arena"

inductive SettingsError where
  | arenaTooSmall
  | arenaTooLarge
  | threshold
  deriving DecidableEq

def SettingsError.message : SettingsError → String
  | .arenaTooSmall => "arena_words must be at least 1024"
  | .arenaTooLarge => "arena_words must fit in 32 bits"
  | .threshold => "collect_threshold must be in (0, 1]"

/-- The capacity of each arena, and the share of it that may fill up before a collection. -/
structure HeapSettings where
  arenaWords : Nat := 0x100000
  threshold : Float := 0.75

namespace HeapSettings

def check (s : HeapSettings) : Except SettingsError Unit :=
  if s.arenaWords < 1024 then .error .arenaTooSmall
  else if 0x100000000 ≤ s.arenaWords then .error .arenaTooLarge
  else if !(s.threshold > 0 && s.threshold ≤ 1) then .error .threshold
  else .ok ()

/-- The largest use of an arena that asks for no collection. -/
def limit (s : HeapSettings) : Nat := (Float.ofNat s.arenaWords * s.threshold).toUInt64.toNat

end HeapSettings

/-- Two arenas with a common capacity, in which objects are allocated one after the other, a
counter of identity hashes, and figures on what was allocated. -/
structure Heap where
  arenas : Arenas
  capacity : Nat
  /-- More used words than this ask for a collection. -/
  limit : Nat
  nextHash : Nat
  stats : HeapStats
  deriving Inhabited

namespace Heap

def create (settings : HeapSettings) : Except SettingsError Heap := do
  settings.check
  return ⟨.empty, settings.arenaWords, settings.limit, 1, {}⟩

def used (h : Heap) (id : ArenaId) : Nat := h.arenas.used id

def needsCollection (h : Heap) : Bool :=
  h.limit < h.used .pointers || h.limit < h.used .leaf

/-- The hash after `hash`: zero is passed over when the counter wraps. -/
def hashAfter (hash : Nat) : Nat := if hash + 1 ≥ hashLimit then 1 else hash + 1

/-- Appends an object. An attempt uses up an identity hash whether or not the object fits. -/
@[specialize] def allocate (arena : ArenaId) (isa : Value) (kind : ObjectKind) (size : UInt32)
    (fill : Array UInt64 → Array UInt64) : Action HeapError Heap Value := fun h =>
  let header : Header := ⟨isa, kind, h.nextHash.toUInt32, size⟩
  let total := header.totalWords
  let used := h.used arena
  if used + total > h.capacity then
    .error (.failure (.exhausted arena total used h.capacity))
      { h with nextHash := hashAfter h.nextHash }
  else
    .ok (.ofAddress ⟨arena, used⟩)
      { h with
        arenas := h.arenas.modify arena fun s => fill ((s.push isa.raw).push header.packed)
        nextHash := hashAfter h.nextHash
        stats := { h.stats with objects := h.stats.objects + 1, words := h.stats.words + total } }

def pushZeros (s : Array UInt64) : Nat → Array UInt64
  | 0 => s
  | n + 1 => pushZeros (s.push 0) n

/-- An object with every slot nil. The number of slots is taken modulo 2^32. -/
def allocatePointers (isa : Value) (slots : Nat) : Action HeapError Heap Value :=
  allocate .pointers isa .pointers slots.toUInt32 (pushZeros · slots.toUInt32.toNat)

/-- Word `i` of packed bytes: eight bytes, the first of them lowest, zeros past the end. -/
def packedWord (bytes : Array UInt8) (i : Nat) : UInt64 :=
  (List.range 8).foldr (fun j acc => acc * 256 + (bytes.getD (8 * i + j) 0).toUInt64) 0

def pushPacked (bytes : Array UInt8) (s : Array UInt64) (i : Nat) : Nat → Array UInt64
  | 0 => s
  | n + 1 => pushPacked bytes (s.push (packedWord bytes i)) (i + 1) n

/-- A byte object with the given content. The size is taken modulo 2^32, and content that does not
go into the words set aside for it is a fault. -/
def allocateBytes (isa : Value) (bytes : Array UInt8) : Action HeapError Heap Value := do
  let object ← allocate .leaf isa .bytes bytes.size.toUInt32
    (pushPacked bytes · 0 ((bytes.size.toUInt32.toNat + 7) / 8))
  if bytes.size < 0x100000000 then return object else Action.fault .outOfRange

@[inline] def locate (v : Value) : Except Fault Address :=
  match v.address? with
  | some a => .ok a
  | none => .error (.notReference v)

@[inline] def header (h : Heap) (v : Value) : Except Fault Header := do
  h.arenas.header (← locate v)

def setClass (v isa : Value) {ε : Type} : Action ε Heap Unit := fun h =>
  match locate v with
  | .error f => .error (.fault f) h
  | .ok a =>
    if a.word < h.used a.arena then
      .ok () { h with arenas := h.arenas.setWord a.arena a.word isa.raw }
    else .error (.fault .outOfRange) h

/-- The hash that identifies a value: of an integer its low bits, of nil zero. -/
def identityHash (h : Heap) (v : Value) : Except Fault Nat :=
  match v.toInt? with
  | some n => .ok (n % hashLimit).toNat
  | none => if v.isNil then .ok 0 else return (← h.header v).hash.toNat

def size (h : Heap) (v : Value) : Except Fault Nat := return (← h.header v).size.toNat

@[inline] def slotWord (h : Heap) (v : Value) (i : Nat) : Except Fault (ArenaId × Nat) := do
  let a ← locate v
  let header ← h.arenas.header a
  if header.kind = .pointers ∧ i < header.size.toNat then
    return (a.arena, a.word + headerWords + i)
  else .error (.slotBounds i header.kind header.size.toNat)

def slot (h : Heap) (v : Value) (i : Nat) : Except Fault Value := do
  let (arena, w) ← h.slotWord v i
  return ⟨← h.arenas.word arena w⟩

def setSlot (v : Value) (i : Nat) (x : Value) {ε : Type} : Action ε Heap Unit := fun h =>
  match h.slotWord v i with
  | .error f => .error (.fault f) h
  | .ok (arena, w) =>
    if w < h.used arena then .ok () { h with arenas := h.arenas.setWord arena w x.raw }
    else .error (.fault .outOfRange) h

def byteOfWord (w : UInt64) (i : Nat) : UInt8 := (w >>> (8 * i).toUInt64).toUInt8

def byteAt (h : Heap) (v : Value) (i : Nat) : Except Fault UInt8 := do
  let a ← locate v
  let header ← h.arenas.header a
  if i < header.size.toNat then
    return byteOfWord (← h.arenas.word a.arena (a.word + headerWords + i / 8)) (i % 8)
  else .error (.byteBounds i)

/-- The first `n` bytes held in packed words. -/
def unpack (ws : Array UInt64) (n : Nat) : Array UInt8 :=
  (ws.flatMap fun w => (Array.range 8).map (byteOfWord w)).take n

def bytes (h : Heap) (v : Value) : Except Fault (Array UInt8) := do
  let a ← locate v
  let header ← h.arenas.header a
  let start := a.word + headerWords
  return unpack (← h.arenas.words a.arena start (start + header.payloadWords)) header.size.toNat

def text (h : Heap) (v : Value) : Except Fault String := return Text.ofBytes (← h.bytes v)

end Heap

end ObjectMachine
