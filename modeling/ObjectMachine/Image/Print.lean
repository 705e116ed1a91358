import ObjectMachine.Image.Basic

namespace ObjectMachine.Image

def text? (i : Image) (v : Value) : Except Fault (Option String) := do
  if !v.isReference then
    return none
  if ← i.isKindOf v (i.kernelClass .string) then
    return some (← i.heap.text v)
  else return none

def withArticle (name : String) : String :=
  match name.toList with
  | c :: _ => if "AEIOU".toList.contains c then "an " ++ name else "a " ++ name
  | [] => "a " ++ name

def printSlots (i : Image) (print : Value → Except Fault String) (v : Value) (k : Nat) :
    Nat → Except Fault (List String)
  | 0 => return []
  | count + 1 => do
    let text ← print (← i.heap.slot v k)
    return text :: (← printSlots i print v (k + 1) count)

/-- Prints a value; arrays nested deeper than the given number are cut short. -/
def printAt (i : Image) : Nat → Value → Except Fault String
  | depth, v =>
    match v.toInt? with
    | some n => return toString n
    | none =>
      if v.isNil then return "nil"
      else if v = i.trueObject then return "true"
      else if v = i.falseObject then return "false"
      else do
        if ← i.isClass v then
          i.heap.className v
        else
          let cls ← i.classOf v
          if cls = i.kernelClass .symbol then
            return "#" ++ (← i.heap.text v)
          else if cls = i.kernelClass .string then
            return "'" ++ (← i.heap.text v) ++ "'"
          else if cls = i.kernelClass .array then
            match depth with
            | 0 => return "(...)"
            | depth + 1 =>
              let items ← i.printSlots (i.printAt depth) v 0 (← i.heap.size v)
              return "(" ++ " ".intercalate items ++ ")"
          else
            return withArticle (← i.heap.className cls)

def printString (i : Image) (v : Value) : Except Fault String := i.printAt 4 v

/-- Like `printString`, but strings and symbols stand for themselves. -/
def displayString (i : Image) (v : Value) : Except Fault String := do
  match ← i.text? v with
  | some text => return text
  | none => i.printString v

end ObjectMachine.Image
