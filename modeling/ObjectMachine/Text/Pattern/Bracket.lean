import ObjectMachine.Text.Pattern.Escape

namespace ObjectMachine.Text.Pattern

/-- A set, and how deep what describes it is nested. -/
structure Bracket where
  set : CharSet := {}
  depth : Nat := 0
  deriving DecidableEq, Inhabited

inductive SetOperator where
  | inter
  | diff
  | symmDiff
  deriving DecidableEq

def SetOperator.apply : SetOperator → CharSet → CharSet → CharSet
  | .inter => CharSet.inter
  | .diff => CharSet.diff
  | .symmDiff => CharSet.symmDiff

namespace Bracket

def ofItems : List Bracket → Bracket
  | [] => {}
  | [item] => item
  | items =>
    { set := items.foldl (fun s item => s.union item.set) {}
      depth := items.foldl (fun n item => max n item.depth) 0 + 1 }

structure Pending where
  left : Bracket
  operator : SetOperator

def complete (pending : Option Pending) (right : Bracket) : Bracket :=
  match pending with
  | none => right
  | some p =>
    { set := p.operator.apply p.left.set right.set
      depth := max p.left.depth right.depth + 1 }

/-- Characters as an item of a set. Case can only be ignored among the first 128 characters. -/
def ofSet? (f : Flags) (s : CharSet) : Option Bracket :=
  if !f.allScripts && !s.isAscii then none
  else if !f.ignoreCase then some { set := s }
  else if f.allScripts then none
  else some { set := s.foldCase }

/-- All other characters. There are such beyond the first 128. -/
def negate? (f : Flags) (s : CharSet) : Option CharSet :=
  if f.allScripts then some s.complement else none

def readName : List Char → Option (NamedSet × Bool × List Char)
  | ':' :: cs =>
    let (negated, cs) := match cs with
      | '^' :: cs => (true, cs)
      | cs => (false, cs)
    match cs.span (· != ':') with
    | (name, ':' :: ']' :: rest) =>
      (NamedSet.ofName? (String.ofList name)).map fun n => (n, negated, rest)
    | _ => none
  | _ => none

def ofName? (f : Flags) (n : NamedSet) (negated : Bool) : Option Bracket := do
  let item ← ofSet? f n.toSet
  if negated then return { item with set := ← negate? f item.set } else return item

def readAtom (f : Flags) : List Char → Option (Atom × List Char)
  | [] => none
  | '\\' :: cs => readEscape f cs
  | c :: cs => some (.char c false, cs)

/-- Conditions on a place are no characters. -/
def ofAtom? (f : Flags) : Atom → Option Bracket
  | .char c _ => ofSet? f (.single c)
  | .named n negated => (escapedSet? f n negated).map ({ set := · })
  | _ => none

def ofRange? (f : Flags) : Atom → Atom → Option Bracket
  | .char first _, .char last _ => if first ≤ last then ofSet? f (.range first last) else none
  | _, _ => none

/-- Reads a character, a named set or a range. A dash before the closing bracket or before
another dash is no sign of a range. -/
def readItem (f : Flags) (cs : List Char) : Option (Bracket × List Char) := do
  let (first, cs) ← readAtom f cs
  match f.skip cs with
  | '-' :: rest =>
    let next := f.peek rest
    if next = some ']' ∨ next = some '-' then return (← ofAtom? f first, '-' :: rest)
    else
      let (last, rest) ← readAtom f (f.skip rest)
      return (← ofRange? f first last, rest)
  | rest => return (← ofAtom? f first, rest)

/-- Reads a caret, dashes and a bracket that stand first. The dashes stand for themselves, and so
does the bracket. -/
def readHead (f : Flags) (cs : List Char) : Option (Bool × List Bracket × List Char) := do
  let (negated, cs) := match f.skip cs with
    | '^' :: cs => (true, f.skip cs)
    | cs => (false, cs)
  match f.span (· == '-') cs with
  | ([], ']' :: rest) => return (negated, [← ofSet? f (.single ']')], rest)
  | (dashes, rest) =>
    return (negated, ← dashes.mapM fun _ => ofSet? f (.single '-'), rest)

def readItems (f : Flags) : Nat → Option Pending → List Bracket → List Char →
    Option (Bracket × List Char)
  | 0, _, _, _ => none
  | fuel + 1, pending, items, cs =>
    let operand := complete pending (ofItems items)
    match f.skip cs with
    | [] => none
    | ']' :: rest => some (operand, rest)
    | '&' :: '&' :: rest => readItems f fuel (some ⟨operand, .inter⟩) [] rest
    | '-' :: '-' :: rest => readItems f fuel (some ⟨operand, .diff⟩) [] rest
    | '~' :: '~' :: rest => readItems f fuel (some ⟨operand, .symmDiff⟩) [] rest
    | '[' :: rest =>
      match readName rest with
      | some (n, negated, rest) => do
        readItems f fuel pending (items ++ [← ofName? f n negated]) rest
      | none => do
        let (negated, inner, rest) ← readHead f rest
        let (inner, rest) ← readItems f fuel none inner rest
        let set ← if negated then negate? f inner.set else some inner.set
        readItems f fuel pending (items ++ [⟨set, inner.depth + 1⟩]) rest
    | cs => do
      let (item, rest) ← readItem f cs
      readItems f fuel pending (items ++ [item]) rest

def read (f : Flags) (cs : List Char) : Option (Bracket × List Char) := do
  let (negated, items, rest) ← readHead f cs
  let (inner, rest) ← readItems f (cs.length + 1) none items rest
  let set ← if negated then negate? f inner.set else some inner.set
  return (⟨set, inner.depth + 1⟩, rest)

end Bracket

end ObjectMachine.Text.Pattern
