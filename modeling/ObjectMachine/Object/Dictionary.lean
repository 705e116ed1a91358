import ObjectMachine.Object.Layout

namespace ObjectMachine.Heap

abbrev methodBuckets : Nat := 32

abbrev globalBuckets : Nat := 128

/-- A dictionary is an object `[tally, bucket, ...]`; the identity hash of a key picks a bucket,
and a bucket heads a chain of links `[key, value, next]`. The number of buckets never changes. -/
def newDictionary (isa : Value) (buckets : Nat) : Action HeapError Heap Value := do
  let d ← allocatePointers isa (Slot.Dictionary.buckets + buckets)
  setSlot d Slot.Dictionary.tally (.ofNat 0)
  return d

/-- The number of buckets of an object taken for a dictionary: its slots but one, in 64-bit
arithmetic. -/
def bucketCount (slots : Nat) : Nat := if slots = 0 then wordModulus - 1 else slots - 1

def bucketSlot (h : Heap) (d key : Value) : Except Fault Nat := do
  let buckets := bucketCount (← h.size d)
  let hash ← h.identityHash key
  if buckets = 0 then .error .noBuckets
  else return Slot.Dictionary.buckets + hash % buckets

def linkFrom (h : Heap) (key : Value) : Nat → Value → Except Fault (Option Value)
  | 0, _ => .error .endless
  | fuel + 1, link =>
    if link.isNil then return none
    else do
      if (← h.slot link Slot.Link.key) = key then return some link
      else h.linkFrom key fuel (← h.slot link Slot.Link.next)

def dictionaryLink (h : Heap) (d key : Value) : Except Fault (Option Value) := do
  let bucket ← h.slot d (← h.bucketSlot d key)
  h.linkFrom key (h.chainBound + 1) bucket

def dictionaryAt (h : Heap) (d key : Value) : Except Fault (Option Value) := do
  match ← h.dictionaryLink d key with
  | some link => return some (← h.slot link Slot.Link.value)
  | none => return none

/-- Stores `value` under `key` and answers the link that holds it. -/
def dictionaryPut (linkClass d key value : Value) : Action HeapError Heap Value := do
  match ← Action.query (·.dictionaryLink d key) with
  | some link =>
    setSlot link Slot.Link.value value
    return link
  | none =>
    let link ← allocatePointers linkClass Slot.Link.count
    let bucket ← Action.query (·.bucketSlot d key)
    setSlot link Slot.Link.key key
    setSlot link Slot.Link.value value
    setSlot link Slot.Link.next (← Action.query (·.slot d bucket))
    setSlot d bucket link
    let tally := (← Action.query (·.slot d Slot.Dictionary.tally)).toInt?.getD 0
    setSlot d Slot.Dictionary.tally ((Value.ofInt? (tally + 1)).getD .nil)
    return link

def dictionarySize (h : Heap) (d : Value) : Except Fault Nat :=
  h.count d Slot.Dictionary.tally

def keysFrom (h : Heap) : Nat → Value → Except Fault (List Value)
  | 0, _ => .error .endless
  | fuel + 1, link =>
    if link.isNil then return []
    else do
      let key ← h.slot link Slot.Link.key
      return key :: (← h.keysFrom fuel (← h.slot link Slot.Link.next))

def keysOfBuckets (h : Heap) (d : Value) (i : Nat) : Nat → Except Fault (List Value)
  | 0 => return []
  | count + 1 => do
    let keys ← h.keysFrom (h.chainBound + 1) (← h.slot d i)
    return keys ++ (← h.keysOfBuckets d (i + 1) count)

def dictionaryKeys (h : Heap) (d : Value) : Except Fault (List Value) := do
  let slots ← h.size d
  h.keysOfBuckets d Slot.Dictionary.buckets (slots - Slot.Dictionary.buckets)

end ObjectMachine.Heap
