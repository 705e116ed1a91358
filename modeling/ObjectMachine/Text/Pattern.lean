import ObjectMachine.Text.CharSet

namespace ObjectMachine.Text

/-- A place in a text: the characters before and after it, as far as there are any. -/
structure Place where
  before : Option Char
  after : Option Char
  deriving DecidableEq, Inhabited

/-- What a place has to do with words. The halves look at one side only. -/
inductive WordPlace where
  | edge
  | noEdge
  | start
  | stop
  | startHalf
  | stopHalf
  deriving DecidableEq

def WordPlace.holds (before after : Bool) : WordPlace → Bool
  | .edge => before != after
  | .noEdge => before == after
  | .start => !before && after
  | .stop => before && !after
  | .startHalf => !before
  | .stopHalf => !after

inductive Look where
  | textStart
  | textEnd
  | lineStart
  | lineEnd
  /-- As for lines, where a carriage return, alone or before a line feed, also ends a line. -/
  | returnStart
  | returnEnd
  /-- Words are made of letters, digits and underscores. Those of all scripts can be asked for,
  and not be looked for. -/
  | word (which : WordPlace) (allScripts : Bool)
  deriving DecidableEq

def isWordChar (c : Char) : Bool := c.isAlphanum || c == '_'

namespace Look

def holds (p : Place) : Look → Bool
  | .textStart => p.before.isNone
  | .textEnd => p.after.isNone
  | .lineStart => p.before.isNone || p.before == some '\n'
  | .lineEnd => p.after.isNone || p.after == some '\n'
  | .returnStart =>
    p.before.isNone || p.before == some '\n' || (p.before == some '\r' && p.after != some '\n')
  | .returnEnd =>
    p.after.isNone || p.after == some '\r' || (p.after == some '\n' && p.before != some '\r')
  | .word which _ => which.holds (p.before.any isWordChar) (p.after.any isWordChar)

def isKnown : Look → Bool
  | .word _ allScripts => !allScripts
  | _ => true

end Look

/-- A pattern is matched by what is left of it once a character has been read: it occurs in a
text if nothing has to be left of it somewhere. -/
inductive Pattern where
  | empty
  | char (set : CharSet)
  | look (l : Look)
  | seq (p q : Pattern)
  | alt (p q : Pattern)
  /-- A part between parentheses that can be asked for. -/
  | group (p : Pattern)
  /-- So many times at least, and at most. -/
  | rep (least : Nat) (most : Option Nat) (p : Pattern)
  deriving DecidableEq, Inhabited

namespace Pattern

def andThen : Pattern → Pattern → Pattern
  | .empty, q => q
  | p, .empty => p
  | p, q => .seq p q

def alternatives : Pattern → List Pattern
  | .alt p q => p.alternatives ++ q.alternatives
  | p => [p]

def set? : Pattern → Option CharSet
  | .char s => some s
  | _ => none

def setOfAll? (ps : List Pattern) : Option CharSet := do
  let sets ← ps.mapM set?
  let singles := sets.filter fun s => s.single?.isSome
  if singles.length = 0 ∨ singles.length = sets.length then
    return sets.foldl CharSet.union {}
  else none

/-- Any of several patterns. Characters become a set, and sets a single one. -/
def choice (ps : List Pattern) : Pattern :=
  let ps := ps.flatMap alternatives
  match setOfAll? ps, ps.reverse with
  | some s, _ => .char s
  | none, [] => .char {}
  | none, p :: ps => ps.foldl (fun q p => .alt p q) p

/-- Whether a pattern holds a set of characters. One without matches no more than a place. -/
def reads : Pattern → Bool
  | .empty | .look _ => false
  | .char _ => true
  | .seq p q | .alt p q => p.reads || q.reads
  | .group p | .rep _ _ p => p.reads

/-- A pattern repeated. What is no more than a place is not asked for twice. -/
def repeated (p : Pattern) (least : Nat) (most : Option Nat) : Pattern :=
  let least := if p.reads then least else min least 1
  let most := if p.reads then most else some (min (most.getD 1) 1)
  if most = some 0 then .empty
  else if least = 1 ∧ most = some 1 then p
  else .rep least most p

/-- Whether a pattern matches at a place without reading on. -/
def nullable (place : Place) : Pattern → Bool
  | .empty => true
  | .char _ => false
  | .look l => l.holds place
  | .seq p q => p.nullable place && q.nullable place
  | .alt p q => p.nullable place || q.nullable place
  | .group p => p.nullable place
  | .rep least _ p => least == 0 || p.nullable place

/-- What can be left of a pattern after a character. A repetition whose part matches without
reading on can have got through its first rounds that way. -/
def rests (before : Option Char) (c : Char) : Pattern → List Pattern
  | .empty | .look _ => []
  | .char set => if set.contains c then [.empty] else []
  | .seq p q =>
    let left := (p.rests before c).map (·.andThen q)
    if p.nullable ⟨before, some c⟩ then left ++ q.rests before c else left
  | .alt p q => p.rests before c ++ q.rests before c
  | .group p => p.rests before c
  | .rep least most p =>
    if most = some 0 then []
    else
      let least := if p.nullable ⟨before, some c⟩ then 0 else least - 1
      (p.rests before c).map (·.andThen (.rep least (most.map (· - 1)) p))

/-- Whether a pattern, or one of those that are left of it, matches from here on. -/
def occursFrom (p : Pattern) (before : Option Char) (left : List Pattern) : List Char → Bool
  | [] => (p :: left).any (·.nullable ⟨before, none⟩)
  | c :: cs =>
    (p :: left).any (·.nullable ⟨before, some c⟩) ||
      occursFrom p (some c) (((p :: left).flatMap (·.rests before c)).eraseDups) cs

def occursIn (p : Pattern) (text : String) : Bool := p.occursFrom none [] text.toList

end Pattern

end ObjectMachine.Text
