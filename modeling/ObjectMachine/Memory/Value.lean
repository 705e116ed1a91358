namespace ObjectMachine

/-- How many words of 64 bits there are. Positions in code count modulo this. -/
abbrev wordModulus : Nat := 0x10000000000000000

/-- Objects with slots live in `pointers`, byte objects in `leaf`. -/
inductive ArenaId where
  | pointers
  | leaf
  deriving DecidableEq, Inhabited

namespace ArenaId

def all : List ArenaId := [.pointers, .leaf]

def name : ArenaId → String
  | .pointers => "Pointers"
  | .leaf => "Leaf"

def bit : ArenaId → UInt64
  | .pointers => 0
  | .leaf => 1

end ArenaId

/-- Where an object header stands. -/
structure Address where
  arena : ArenaId
  word : Nat
  deriving DecidableEq, Inhabited

/-- The zero word is nil, a word with tag 1 in its low three bits is a 61-bit signed integer, and
a nonzero word with tag 0 is a reference: bit 3 selects the arena, and the bits above it are the
word index of an object header. -/
structure Value where
  raw : UInt64
  deriving DecidableEq, Inhabited, Hashable

/-- A word in hexadecimal, without leading zeros. -/
def hexWord (w : UInt64) : String :=
  "0x" ++ String.ofList (Nat.toDigits 16 w.toNat)

namespace Value

def nil : Value := ⟨0⟩

/-- The largest number of 61 bits with a sign. -/
def maxInteger : Int := 0xFFFFFFFFFFFFFFF

def minInteger : Int := -0x1000000000000000

def Fits (n : Int) : Prop := minInteger ≤ n ∧ n ≤ maxInteger

instance (n : Int) : Decidable (Fits n) := inferInstanceAs (Decidable (_ ∧ _))

/-- The tagged word of `n` modulo 2^61. -/
def wrapInt (n : Int) : Value := ⟨UInt64.ofInt n * 8 + 1⟩

/-- The tagged word of `n`, refused when 61 bits do not hold it. -/
def ofInt? (n : Int) : Option Value :=
  if Fits n then some (wrapInt n) else none

/-- The tagged word of a count, modulo 2^61. -/
@[inline] def ofNat (n : Nat) : Value := ⟨n.toUInt64 * 8 + 1⟩

@[inline] def ofAddress (a : Address) : Value := ⟨a.word.toUInt64 * 16 + a.arena.bit * 8⟩

@[inline] def isNil (v : Value) : Bool := v.raw == 0

@[inline] def isInteger (v : Value) : Bool := v.raw % 8 == 1

@[inline] def isReference (v : Value) : Bool := v.raw != 0 && v.raw % 8 == 0

def toInt? (v : Value) : Option Int :=
  if v.isInteger then some (v.raw.toInt64.toInt / 8) else none

def toNat? (v : Value) : Option Nat :=
  if v.isInteger && v.raw < 0x8000000000000000 then some (v.raw / 8).toNat else none

@[inline] def address? (v : Value) : Option Address :=
  if v.isReference then
    some ⟨if v.raw / 8 % 2 == 0 then .pointers else .leaf, (v.raw / 16).toNat⟩
  else none

/-- The form in which the memory names a value in its reports. -/
def describe (v : Value) : String :=
  if v.isNil then "nil"
  else match v.toInt? with
    | some n => s!"Int({n})"
    | none => match v.address? with
      | some a => s!"Ref({a.arena.name}@{a.word})"
      | none => s!"Invalid({hexWord v.raw})"

end Value

end ObjectMachine
