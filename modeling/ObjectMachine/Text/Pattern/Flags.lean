import ObjectMachine.Text.Blank

namespace ObjectMachine.Text.Pattern

structure Flags where
  ignoreCase : Bool := false
  /-- Line ends are looked for, and not only the ends of the text. -/
  lines : Bool := false
  /-- A dot stands for line ends, too. -/
  dotAll : Bool := false
  /-- Carriage returns end lines, too. -/
  returns : Bool := false
  /-- Characters of all scripts, and not only the first 128, are told apart. -/
  allScripts : Bool := true
  freeSpacing : Bool := false
  deriving DecidableEq, Inhabited

namespace Flags

/-- Gives the flag of a letter its value. One that only says which match is preferred changes
nothing for a search. -/
def set? (f : Flags) (on : Bool) : Char → Option Flags
  | 'i' => some { f with ignoreCase := on }
  | 'm' => some { f with lines := on }
  | 's' => some { f with dotAll := on }
  | 'R' => some { f with returns := on }
  | 'u' => some { f with allScripts := on }
  | 'x' => some { f with freeSpacing := on }
  | 'U' => some f
  | _ => none

/-- Reads flags up to a colon or a closing parenthesis, and answers which of them it was. Flags
after a dash are turned off. No flag may come twice, a dash needs a flag after it, and a
parenthesis needs one before it. -/
def read (f : Flags) (on : Bool) (seen : List Char) :
    List Char → Option (Flags × Char × List Char)
  | [] => none
  | c :: cs =>
    if c = ':' ∨ c = ')' then
      if seen.head? = some '-' ∨ (c = ')' ∧ seen = []) then none else some (f, c, cs)
    else if seen.contains c then none
    else if c = '-' then f.read false (c :: seen) cs
    else do (← f.set? on c).read on (c :: seen) cs

end Flags

/-- Drops blanks and comments, which end with their line. -/
def dropSpacing (inComment : Bool) : List Char → List Char
  | [] => []
  | c :: cs =>
    if inComment then dropSpacing (c != '\n') cs
    else if isBlank c then dropSpacing false cs
    else if c = '#' then dropSpacing true cs
    else c :: cs

theorem length_dropSpacing_le (inComment : Bool) (cs : List Char) :
    (dropSpacing inComment cs).length ≤ cs.length := by
  induction cs generalizing inComment with
  | nil => simp [dropSpacing]
  | cons c cs ih =>
    rw [dropSpacing]
    split
    · exact Nat.le_succ_of_le (ih _)
    · split
      · exact Nat.le_succ_of_le (ih _)
      · split
        · exact Nat.le_succ_of_le (ih _)
        · exact Nat.le_refl _

namespace Flags

/-- The text from its next character on that means something. -/
def skip (f : Flags) (cs : List Char) : List Char :=
  if f.freeSpacing then dropSpacing false cs else cs

theorem length_skip_le (f : Flags) (cs : List Char) : (f.skip cs).length ≤ cs.length := by
  unfold skip
  split
  · exact length_dropSpacing_le false cs
  · exact Nat.le_refl _

/-- The characters from here on that satisfy a condition, and the text after them. -/
def span (f : Flags) (p : Char → Bool) : List Char → List Char × List Char
  | [] => ([], [])
  | c :: cs =>
    if p c then
      let (taken, rest) := f.span p (f.skip cs)
      (c :: taken, rest)
    else ([], c :: cs)
termination_by cs => cs.length
decreasing_by exact Nat.lt_succ_of_le (f.length_skip_le cs)

/-- The next character of some text. A look ahead takes only the sign of a comment for spacing,
and not the comment. -/
def peek (f : Flags) (cs : List Char) : Option Char :=
  if f.freeSpacing then
    match cs.dropWhile isBlank with
    | '#' :: cs => (cs.dropWhile isBlank).head?
    | cs => cs.head?
  else cs.head?

end Flags

def number (base : Nat) (digits : List Nat) : Nat :=
  digits.foldl (fun n d => n * base + d) 0

def hexDigit? (c : Char) : Option Nat :=
  if c.isDigit then some (c.toNat - '0'.toNat)
  else if 'a' ≤ c ∧ c ≤ 'f' then some (c.toNat - 'a'.toNat + 10)
  else if 'A' ≤ c ∧ c ≤ 'F' then some (c.toNat - 'A'.toNat + 10)
  else none

/-- Reads a decimal number of at most 32 bits. Blanks around it stand for nothing. -/
def readDecimal (f : Flags) (cs : List Char) : Option (Nat × List Char) :=
  let (digits, rest) := f.span Char.isDigit (cs.dropWhile isBlank)
  let n := number 10 (digits.map fun c => c.toNat - '0'.toNat)
  if digits.isEmpty ∨ 0x100000000 ≤ n then none else some (n, rest.dropWhile isBlank)

/-- Reads how often something is repeated, up to the closing brace. -/
def readCounts (f : Flags) (cs : List Char) : Option ((Nat × Option Nat) × List Char) := do
  let (least, cs) ← readDecimal f (f.skip cs)
  match cs with
  | '\x7d' :: rest => return ((least, some least), rest)
  | ',' :: rest =>
    match f.skip rest with
    | '\x7d' :: rest => return ((least, none), rest)
    | rest =>
      let (most, rest) ← readDecimal f rest
      match rest with
      | '\x7d' :: rest => if least ≤ most then return ((least, some most), rest) else none
      | _ => none
  | _ => none

end ObjectMachine.Text.Pattern
