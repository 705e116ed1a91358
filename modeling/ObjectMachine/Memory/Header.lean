import ObjectMachine.Memory.Value

namespace ObjectMachine

abbrev headerWords : Nat := 2

/-- Identity hashes are positive and below this bound. -/
abbrev hashLimit : Nat := 0x40000000

/-- What follows a header: slots, bytes, filler, or the remains of an object that moved. -/
inductive ObjectKind where
  | pointers
  | bytes
  | pad
  | forwarded
  deriving DecidableEq, Inhabited

namespace ObjectKind

def name : ObjectKind → String
  | .pointers => "Pointers"
  | .bytes => "Bytes"
  | .pad => "Pad"
  | .forwarded => "Forwarded"

def bits : ObjectKind → UInt64
  | .pointers => 0
  | .bytes => 1
  | .pad => 2
  | .forwarded => 3

@[inline] def ofBits (w : UInt64) : ObjectKind :=
  if w % 4 == 0 then .pointers
  else if w % 4 == 1 then .bytes
  else if w % 4 == 2 then .pad
  else .forwarded

def isObject : ObjectKind → Bool
  | .pointers | .bytes => true
  | .pad | .forwarded => false

end ObjectKind

/-- The first word is the class or, once the object has moved, its new address; the second is
`kind + hash * 2^2 + size * 2^32`. The size counts slots of a pointer object, bytes of a byte
object, and payload words of filler and of an object that moved. -/
structure Header where
  isa : Value
  kind : ObjectKind
  hash : UInt32
  size : UInt32
  deriving DecidableEq, Inhabited

namespace Header

def pad (payload : UInt32) : Header := ⟨.nil, .pad, 0, payload⟩

/-- What stays behind when an object moves: its length still tells where the next one starts. -/
def forwarded (target : Value) (payload : UInt32) : Header := ⟨target, .forwarded, 0, payload⟩

@[inline] def packed (h : Header) : UInt64 :=
  h.kind.bits + h.hash.toUInt64 % 0x40000000 * 4 + h.size.toUInt64 * 0x100000000

@[inline] def ofWords (isa packed : UInt64) : Header where
  isa := ⟨isa⟩
  kind := .ofBits packed
  hash := (packed / 4 % 0x40000000).toUInt32
  size := (packed / 0x100000000).toUInt32

@[inline] def payloadWords (h : Header) : Nat :=
  match h.kind with
  | .bytes => (h.size.toNat + 7) / 8
  | .pointers | .pad | .forwarded => h.size.toNat

@[inline] def totalWords (h : Header) : Nat := headerWords + h.payloadWords

/-- Where the object went, if it moved. -/
@[inline] def forwarding? (h : Header) : Option Value :=
  if h.kind = .forwarded then some h.isa else none

end Header

end ObjectMachine
