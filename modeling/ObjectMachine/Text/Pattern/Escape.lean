import ObjectMachine.Text.Pattern
import ObjectMachine.Text.Pattern.Flags

namespace ObjectMachine.Text.Pattern

/-- The smallest parts of a pattern, before the flags are asked what they mean. -/
inductive Atom where
  /-- A character; `asByte` if it is written as the two digits of a byte. -/
  | char (c : Char) (asByte : Bool)
  | dot
  | lineStart
  | lineEnd
  | textStart
  | textEnd
  | word (which : WordPlace)
  | named (set : NamedSet) (negated : Bool)
  deriving DecidableEq

/-- The character of a code point, if it is one. -/
def charOf? (n : Nat) : Option Char :=
  if n < 0xd800 ∨ (0xdfff < n ∧ n < 0x110000) then some (.ofNat n) else none

def readHexDigits (f : Flags) : Nat → List Char → Option (List Nat × List Char)
  | 0, cs => some ([], cs)
  | _ + 1, [] => none
  | k + 1, c :: cs => do
    let d ← hexDigit? c
    let (ds, rest) ← readHexDigits f k (f.skip cs)
    return (d :: ds, rest)

/-- Reads a character written by its code point: so many digits, or any number of them in
braces. -/
def readCodePoint (f : Flags) (digits : Nat) (cs : List Char) : Option (Atom × List Char) :=
  match f.skip cs with
  | '\x7b' :: cs =>
    match f.span (· != '\x7d') (f.skip cs) with
    | (taken, _ :: rest) => do
      guard (!taken.isEmpty)
      let c ← charOf? (number 16 (← taken.mapM hexDigit?))
      return (.char c false, f.skip rest)
    | (_, []) => none
  | cs => do
    let (taken, rest) ← readHexDigits f digits cs
    let c ← charOf? (number 16 taken)
    return (.char c (digits == 2), rest)

def wordPlace? : String → Option WordPlace
  | "start" => some .start
  | "end" => some .stop
  | "start-half" => some .startHalf
  | "end-half" => some .stopHalf
  | _ => none

/-- Reads which edge of a word is meant, if a brace and a name say so. A brace before anything but
a name is left to be read as a repetition. -/
def readWordPlace (f : Flags) (cs : List Char) : Option (Atom × List Char) :=
  match cs with
  | '\x7b' :: rest =>
    match f.skip rest with
    | [] => none
    | c :: rest =>
      let inName := fun (c : Char) => c.isAlpha || c == '-'
      if inName c then
        match f.span inName (c :: rest) with
        | (name, '\x7d' :: rest) =>
          (wordPlace? (String.ofList name)).map fun w => (.word w, rest)
        | _ => none
      else some (.word .edge, cs)
  | _ => some (.word .edge, cs)

/-- Reads what stands after a backslash. Letters and digits without a meaning are refused, as are
properties of characters of all scripts. -/
def readEscape (f : Flags) : List Char → Option (Atom × List Char)
  | [] => none
  | c :: cs =>
    match c with
    | 'x' => readCodePoint f 2 cs
    | 'u' => readCodePoint f 4 cs
    | 'U' => readCodePoint f 8 cs
    | 'd' => some (.named .digit false, cs)
    | 'D' => some (.named .digit true, cs)
    | 's' => some (.named .space false, cs)
    | 'S' => some (.named .space true, cs)
    | 'w' => some (.named .word false, cs)
    | 'W' => some (.named .word true, cs)
    | 'a' => some (.char '\x07' false, cs)
    | 'f' => some (.char '\x0c' false, cs)
    | 't' => some (.char '\t' false, cs)
    | 'n' => some (.char '\n' false, cs)
    | 'r' => some (.char '\r' false, cs)
    | 'v' => some (.char '\x0b' false, cs)
    | 'A' => some (.textStart, cs)
    | 'z' => some (.textEnd, cs)
    | 'b' => readWordPlace f cs
    | 'B' => some (.word .noEdge, cs)
    | '<' => some (.word .start, cs)
    | '>' => some (.word .stop, cs)
    | c => if c.isAlphanum || 0x80 ≤ c.toNat then none else some (.char c false, cs)

/-- The pattern of a set. Case can only be ignored among the first 128 characters. -/
def ofSet (f : Flags) (s : CharSet) : Option Pattern :=
  if !f.ignoreCase then some (.char s)
  else if f.allScripts then none
  else some (.char s.foldCase)

/-- The set of a name. The sets of all scripts are not known, and without them there is none of
all other characters. -/
def escapedSet? (f : Flags) (n : NamedSet) (negated : Bool) : Option CharSet :=
  if f.allScripts || negated then none else some n.toSet

def Atom.toPattern? (f : Flags) : Atom → Option Pattern
  | .char c asByte =>
    if asByte && !f.allScripts && 0x80 ≤ c.toNat then none else ofSet f (.single c)
  | .dot =>
    if !f.allScripts then none
    else if f.dotAll then some (.char (.allBut []))
    else if f.returns then some (.char (.allBut ['\r', '\n']))
    else some (.char (.allBut ['\n']))
  | .lineStart =>
    some (.look (if !f.lines then .textStart else if f.returns then .returnStart else .lineStart))
  | .lineEnd =>
    some (.look (if !f.lines then .textEnd else if f.returns then .returnEnd else .lineEnd))
  | .textStart => some (.look .textStart)
  | .textEnd => some (.look .textEnd)
  | .word which => some (.look (.word which f.allScripts))
  | .named n negated => (escapedSet? f n negated).map .char

end ObjectMachine.Text.Pattern
