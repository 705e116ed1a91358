namespace ObjectMachine.Text

/-- The first and the last code point of each run of characters in a set. Runs are in order and
apart from each other, so that sets with the same characters are equal. -/
structure CharSet where
  runs : List (Nat × Nat) := []
  deriving DecidableEq, Inhabited

namespace CharSet

def contains (s : CharSet) (c : Char) : Bool :=
  s.runs.any fun (first, last) => decide (first ≤ c.toNat) && decide (c.toNat ≤ last)

def single (c : Char) : CharSet := ⟨[(c.toNat, c.toNat)]⟩

def range (first last : Char) : CharSet := ⟨[(first.toNat, last.toNat)]⟩

/-- Adds a run. Runs that it touches are joined with it. -/
def insertRun (first last : Nat) : List (Nat × Nat) → List (Nat × Nat)
  | [] => [(first, last)]
  | (a, b) :: rest =>
    if last + 1 < a then (first, last) :: (a, b) :: rest
    else if b + 1 < first then (a, b) :: insertRun first last rest
    else insertRun (min first a) (max last b) rest

def union (s t : CharSet) : CharSet :=
  ⟨t.runs.foldl (fun runs (first, last) => insertRun first last runs) s.runs⟩

def ofRuns (runs : List (Char × Char)) : CharSet :=
  runs.foldl (fun s (first, last) => s.union (range first last)) {}

/-- The runs between runs, from a code point on. -/
def gaps (start : Nat) : List (Nat × Nat) → List (Nat × Nat)
  | [] => if start ≤ 0x10ffff then [(start, 0x10ffff)] else []
  | (a, b) :: rest => if start < a then (start, a - 1) :: gaps (b + 1) rest else gaps (b + 1) rest

/-- All other characters. The code points from D800 to DFFF are no characters. -/
def complement (s : CharSet) : CharSet := ⟨gaps 0 (insertRun 0xd800 0xdfff s.runs)⟩

def inter (s t : CharSet) : CharSet := (s.complement.union t.complement).complement

def diff (s t : CharSet) : CharSet := s.inter t.complement

def symmDiff (s t : CharSet) : CharSet := (s.union t).diff (s.inter t)

def foldCase (s : CharSet) : CharSet :=
  let upper := (s.inter (range 'A' 'Z')).runs.map fun (a, b) => (a + 32, b + 32)
  let lower := (s.inter (range 'a' 'z')).runs.map fun (a, b) => (a - 32, b - 32)
  (s.union ⟨upper⟩).union ⟨lower⟩

/-- Everything but the given characters. -/
def allBut (cs : List Char) : CharSet := (ofRuns (cs.map fun c => (c, c))).complement

/-- Whether all characters are among the first 128. -/
def isAscii (s : CharSet) : Bool := s.runs.all fun (_, last) => last < 0x80

def single? (s : CharSet) : Option Char :=
  match s.runs with
  | [(a, b)] => if a = b then some (.ofNat a) else none
  | _ => none

end CharSet

inductive NamedSet where
  | alnum
  | alpha
  | ascii
  | blank
  | cntrl
  | digit
  | graph
  | lower
  | print
  | punct
  | space
  | upper
  | word
  | xdigit
  deriving DecidableEq

namespace NamedSet

def all : List NamedSet :=
  [.alnum, .alpha, .ascii, .blank, .cntrl, .digit, .graph, .lower, .print, .punct, .space, .upper,
    .word, .xdigit]

def name : NamedSet → String
  | .alnum => "alnum"
  | .alpha => "alpha"
  | .ascii => "ascii"
  | .blank => "blank"
  | .cntrl => "cntrl"
  | .digit => "digit"
  | .graph => "graph"
  | .lower => "lower"
  | .print => "print"
  | .punct => "punct"
  | .space => "space"
  | .upper => "upper"
  | .word => "word"
  | .xdigit => "xdigit"

def ofName? (name : String) : Option NamedSet := all.find? (·.name == name)

def runs : NamedSet → List (Char × Char)
  | .alnum => [('0', '9'), ('A', 'Z'), ('a', 'z')]
  | .alpha => [('A', 'Z'), ('a', 'z')]
  | .ascii => [('\x00', '\x7f')]
  | .blank => [('\t', '\t'), (' ', ' ')]
  | .cntrl => [('\x00', '\x1f'), ('\x7f', '\x7f')]
  | .digit => [('0', '9')]
  | .graph => [('!', '~')]
  | .lower => [('a', 'z')]
  | .print => [(' ', '~')]
  | .punct => [('!', '/'), (':', '@'), ('[', '\x60'), ('\x7b', '~')]
  | .space => [('\t', '\r'), (' ', ' ')]
  | .upper => [('A', 'Z')]
  | .word => [('0', '9'), ('A', 'Z'), ('_', '_'), ('a', 'z')]
  | .xdigit => [('0', '9'), ('A', 'F'), ('a', 'f')]

def toSet (n : NamedSet) : CharSet := .ofRuns n.runs

end NamedSet

end ObjectMachine.Text
