import ObjectMachine.Text.Pattern

namespace ObjectMachine.Text.Pattern

/-- Whether a pattern asks for nothing that cannot be looked for. -/
def isKnown : Pattern → Bool
  | .empty | .char _ => true
  | .look l => l.isKnown
  | .seq p q | .alt p q => p.isKnown && q.isKnown
  | .group p | .rep _ _ p => p.isKnown

/-- Whether a pattern matches the empty text wherever its conditions hold. -/
def canBeEmpty : Pattern → Bool
  | .empty | .look _ => true
  | .char _ => false
  | .seq p q => p.canBeEmpty && q.canBeEmpty
  | .alt p q => p.canBeEmpty || q.canBeEmpty
  | .group p => p.canBeEmpty
  | .rep least _ p => least == 0 || p.canBeEmpty

inductive Direction where
  | forward
  | backward
  deriving DecidableEq

/-- The code points from `a` to `b`, cut so that within a piece each byte but the first ones is
fixed or free: at multiples of `unit`, then of 64 times that, and so on. -/
def pieces (unit : Nat) : Nat → Nat → Nat → List (Nat × Nat)
  | 0, a, b => [(a, b)]
  | levels + 1, a, b =>
    if a / unit = b / unit then [(a, b)]
    else
      let start := (a + unit - 1) / unit * unit
      let stop := (b + 1) / unit * unit
      let head := if a < start then [(a, start - 1)] else []
      let middle := if start < stop then pieces (unit * 64) levels start (stop - 1) else []
      let tail := if stop ≤ b then [(stop, b)] else []
      head ++ middle ++ tail

/-- The first and the last code points of each length, leaving out those that are no characters. -/
def lengthRuns : List (Nat × Nat) :=
  [(0, 0x7f), (0x80, 0x7ff), (0x800, 0xd7ff), (0xe000, 0xffff), (0x10000, 0x10ffff)]

def codeBytes (n : Nat) : List UInt8 := (Char.ofNat n).toString.toUTF8.toList

/-- The bytes of a run of code points, as the ranges that each of them goes through. -/
def byteRanges (run : Nat × Nat) : List (List (UInt8 × UInt8)) :=
  lengthRuns.flatMap fun (first, last) =>
    let a := max first run.1
    let b := min last run.2
    if b < a then []
    else if last < 0x80 then [(codeBytes a).zip (codeBytes b)]
    else (pieces 64 3 a b).map fun (a, b) => (codeBytes a).zip (codeBytes b)

/-- What stands after each first range, in order. -/
def branches (ways : List (List (UInt8 × UInt8))) : List (List (List (UInt8 × UInt8))) :=
  ((ways.filterMap List.head?).eraseDups).map fun r =>
    (ways.filter (·.head? == some r)).map List.tail

/-- The places to go through that are not the end, each given by what can come after it. -/
def inner (ways : List (List (UInt8 × UInt8))) : Nat → List (List (List (UInt8 × UInt8)))
  | 0 => []
  | length + 1 =>
    if ways.all List.isEmpty then []
    else ways :: (branches ways).flatMap (inner · length)

def beginnings (way : List (UInt8 × UInt8)) : List (List (UInt8 × UInt8)) :=
  (List.range way.length).map fun k => way.take (k + 1)

/-- The bytes that it takes to tell the characters of a set from others. Forward, places with the
same ways on are shared; backward, beginnings are. -/
def setWeight (d : Direction) (s : CharSet) : Nat :=
  match s.single? with
  | some c => 32 * c.utf8Size
  | none =>
    if s.isAscii then 64 + 8 * s.runs.length
    else
      let ways := s.runs.flatMap byteRanges
      match d with
      | .forward =>
        (inner ways 5).eraseDups.foldl (fun n place => n + 32 + 8 * (branches place).length) 32
      | .backward =>
        64 + 32 * ((ways.flatMap beginnings).eraseDups).length + 4 * ways.length

def word? : Pattern → Option (List UInt8)
  | .char s => s.single?.map fun c => c.toString.toUTF8.toList
  | .seq p q => do return (← p.word?) ++ (← q.word?)
  | _ => none

def wordRuns : List (List UInt8) → List (List (List UInt8))
  | [] => [[]]
  | word :: words =>
    match wordRuns words with
    | [] => [[word]]
    | run :: runs => if word.isEmpty then [] :: run :: runs else (word :: run) :: runs

/-- The bytes of what goes on from the common beginning of some words: a step for the first bytes
of each run, and one that chooses among the runs and the end of a word. The second argument bounds
the lengths of the words. -/
def wordsWeight (words : List (List UInt8)) : Nat → Nat
  | 0 => 0
  | length + 1 =>
    if words.all List.isEmpty then 0
    else
      let runs := match words with
        | [] :: rest => wordRuns ([] :: rest.dropWhile List.isEmpty)
        | _ => wordRuns words
      let used := runs.filter (!·.isEmpty)
      let choice := 32 + 4 * (used.length + runs.length - 1)
      used.foldl (fun total run =>
        let firsts := (run.filterMap List.head?).eraseDups
        let step := if firsts.length = 1 then 32 else 32 + 8 * firsts.length
        firsts.foldl (fun total b =>
          total + wordsWeight ((run.filter (·.head? == some b)).map List.tail) length)
          (total + step)) choice

/-- The bytes that it takes to choose among words, if there are no other alternatives. -/
def choiceWeight? (d : Direction) (ps : List Pattern) : Option Nat := do
  let words ← ps.mapM word?
  let words := if d = .forward then words else words.map List.reverse
  return 32 + wordsWeight words (words.foldl (fun n word => max n word.length) 0 + 1)

/-- The bytes that a pattern takes when repetitions are written out: 32 for each step, and some
more for steps that go on in several ways. `among` tells that it is one of several alternatives. -/
def weight (d : Direction) (among : Bool) : Pattern → Nat
  | .alt p q =>
    let all := p.weight d true + q.weight d true
    if among then all else (choiceWeight? d (p.alternatives ++ q.alternatives)).getD (64 + all)
  | .empty | .look _ => 32 + if among then 4 else 0
  | .char set => setWeight d set + if among then 4 else 0
  | .seq p q => p.weight d false + q.weight d false + if among then 4 else 0
  | .group p =>
    p.weight d false + (if d = .forward then 64 else 0) + if among then 4 else 0
  | .rep least most p =>
    let w := p.weight d false
    let first := if least = 0 then 32 else least * w
    let whole := match most with
      | none =>
        if least = 0 then w + if p.canBeEmpty then 112 else 40 else least * w + 40
      | some most =>
        if least = most then first
        else if least = 0 ∧ most = 1 then w + 72
        else first + (most - least) * (w + 40) + 32
    whole + if among then 4 else 0

/-- The bytes that a search takes beside its pattern. -/
def searchWeight : Direction → Nat
  | .forward => 208
  | .backward => 144

def weightLimit : Nat := 0xa00000

/-- A pattern can be searched for if it asks for nothing unknown, and is not too heavy when its
repetitions are written out as the steps of an automaton that reads byte for byte. -/
def isUsable (p : Pattern) : Bool :=
  p.isKnown && p.weight .forward false + searchWeight .forward ≤ weightLimit &&
    p.weight .backward false + searchWeight .backward ≤ weightLimit

end ObjectMachine.Text.Pattern
