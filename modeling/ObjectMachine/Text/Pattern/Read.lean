import ObjectMachine.Text.Letter
import ObjectMachine.Text.Pattern.Bracket
import ObjectMachine.Text.Pattern.Weight

namespace ObjectMachine.Text.Pattern

/-- A part of a pattern, how deep it is nested, and whether it can be repeated. -/
structure Part where
  pattern : Pattern
  depth : Nat := 0
  repeatable : Bool := true

namespace Part

def depthOf (parts : List Part) : Nat := parts.foldl (fun n p => max n p.depth) 0 + 1

/-- Parts one after the other; the last of them is given first. -/
def sequence : List Part → Part
  | [] => { pattern := .empty }
  | [p] => p
  | parts =>
    { pattern := parts.foldl (fun q p => p.pattern.andThen q) .empty, depth := depthOf parts }

/-- Any of several parts; the last of them is given first. -/
def choice : List Part → Part
  | [] => { pattern := .empty }
  | [p] => p
  | parts =>
    { pattern := Pattern.choice (parts.reverse.map (·.pattern)), depth := depthOf parts }

end Part

/-- A group that is being read: the alternatives before the current one, and the parts of the
current one, each time the last of them first. -/
structure Level where
  before : List Part := []
  parts : List Part := []

def Level.toPart (l : Level) : Part := Part.choice (Part.sequence l.parts :: l.before)

/-- What is around a group: the level that it is a part of, the flags that hold there, and whether
the group can be asked for. -/
structure Enclosing where
  level : Level
  flags : Flags
  asked : Bool

structure Reading where
  flags : Flags := {}
  level : Level := {}
  outer : List Enclosing := []
  names : List (List Char) := []

namespace Reading

def push (r : Reading) (p : Part) : Reading :=
  { r with level := { r.level with parts := p :: r.level.parts } }

def alternative (r : Reading) : Reading :=
  { r with level := { before := Part.sequence r.level.parts :: r.level.before } }

/-- Repeats the last part. Flags cannot be repeated. -/
def repeatLast (r : Reading) (least : Nat) (most : Option Nat) : Option Reading :=
  match r.level.parts with
  | [] => none
  | p :: parts =>
    if p.repeatable then
      let part := { pattern := p.pattern.repeated least most, depth := p.depth + 1 }
      some { r with level := { r.level with parts := part :: parts } }
    else none

def enter (r : Reading) (flags : Flags) (asked : Bool) : Reading :=
  { r with flags, level := {}, outer := ⟨r.level, r.flags, asked⟩ :: r.outer }

def leave (r : Reading) : Option Reading :=
  match r.outer with
  | [] => none
  | o :: outer =>
    let inner := r.level.toPart
    let pattern := if o.asked then .group inner.pattern else inner.pattern
    some ({ r with flags := o.flags, level := o.level, outer }.push
      { pattern, depth := inner.depth + 1 })

/-- Parts must not be nested deeper than this. -/
def depthLimit : Nat := 250

def finish (r : Reading) : Option Pattern :=
  let whole := r.level.toPart
  if r.outer.isEmpty ∧ whole.depth ≤ depthLimit then some whole.pattern else none

def isName : List Char → Bool
  | [] => false
  | c :: cs =>
    (c == '_' || isLetter c) &&
      cs.all fun c => c == '_' || c == '.' || c == '[' || c == ']' || isLetterOrNumber c

/-- Reads the name of a group; no two have the same. -/
def readName (r : Reading) (cs : List Char) : Option (Reading × List Char) :=
  match cs.span (· != '>') with
  | (_, []) => none
  | (name, _ :: rest) =>
    if isName name && !r.names.contains name then
      some ({ r with names := name :: r.names }.enter r.flags true, rest)
    else none

/-- Reads what stands after an opening parenthesis: a name, flags for the group or for what comes
after, or nothing. Conditions on what stands around are not understood. -/
def readOpening (r : Reading) (cs : List Char) : Option (Reading × List Char) :=
  match r.flags.skip cs with
  | '?' :: '<' :: '=' :: _ | '?' :: '<' :: '!' :: _ => none
  | '?' :: '<' :: cs | '?' :: 'P' :: '<' :: cs => r.readName cs
  | '?' :: cs => do
    let (flags, last, rest) ← r.flags.read true [] cs
    if last = ')' then
      return ({ r with flags }.push { pattern := .empty, repeatable := false }, rest)
    else return (r.enter flags false, rest)
  | cs => some (r.enter r.flags true, cs)

/-- A question mark after a repetition says which match is preferred, and a search does not
tell. -/
def dropPreference : List Char → List Char
  | '?' :: cs => cs
  | cs => cs

def readAtom (f : Flags) : List Char → Option (Atom × List Char)
  | [] => none
  | '\\' :: cs => readEscape f cs
  | '.' :: cs => some (.dot, cs)
  | '^' :: cs => some (.lineStart, cs)
  | '$' :: cs => some (.lineEnd, cs)
  | c :: cs => some (.char c false, cs)

/-- Reads the next part; nothing is answered at the end. -/
def step (r : Reading) (cs : List Char) : Option (Reading × List Char) :=
  match cs with
  | '(' :: cs => r.readOpening cs
  | ')' :: cs => do return (← r.leave, cs)
  | '|' :: cs => some (r.alternative, cs)
  | '[' :: cs => do
    let (b, rest) ← Bracket.read r.flags cs
    return (r.push { pattern := .char b.set, depth := b.depth }, rest)
  | '?' :: cs => do return (← r.repeatLast 0 (some 1), dropPreference cs)
  | '*' :: cs => do return (← r.repeatLast 0 none, dropPreference cs)
  | '+' :: cs => do return (← r.repeatLast 1 none, dropPreference cs)
  | '\x7b' :: cs => do
    let ((least, most), rest) ← readCounts r.flags cs
    return (← r.repeatLast least most, dropPreference (r.flags.skip rest))
  | cs => do
    let (atom, rest) ← readAtom r.flags cs
    return (r.push { pattern := ← atom.toPattern? r.flags }, rest)

/-- Reads to the end. Each step takes at least one character. -/
def run (r : Reading) : Nat → List Char → Option Pattern
  | 0, _ => none
  | fuel + 1, cs =>
    match r.flags.skip cs with
    | [] => r.finish
    | cs => do
      let (r, rest) ← r.step cs
      r.run fuel rest

end Reading

def parse? (text : String) : Option Pattern := do
  let cs := text.toList
  let p ← Reading.run {} (cs.length + 1) cs
  if p.isUsable then return p else none

end ObjectMachine.Text.Pattern
