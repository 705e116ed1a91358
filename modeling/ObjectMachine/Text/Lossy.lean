namespace ObjectMachine.Text

/-- The code point that stands for bytes that are not text. -/
def replacement : Char := Char.ofNat 0xFFFD

/-- The number of bytes after a lead byte, and the range of the first of them. -/
def lead? (b : UInt8) : Option (Nat × UInt8 × UInt8) :=
  if 0xC2 ≤ b ∧ b ≤ 0xDF then some (1, 0x80, 0xBF)
  else if b = 0xE0 then some (2, 0xA0, 0xBF)
  else if b = 0xED then some (2, 0x80, 0x9F)
  else if 0xE1 ≤ b ∧ b ≤ 0xEF then some (2, 0x80, 0xBF)
  else if b = 0xF0 then some (3, 0x90, 0xBF)
  else if 0xF1 ≤ b ∧ b ≤ 0xF3 then some (3, 0x80, 0xBF)
  else if b = 0xF4 then some (3, 0x80, 0x8F)
  else none

/-- The payload of a lead byte that `n` bytes follow. -/
def leadBits (n : Nat) (b : UInt8) : Nat := b.toNat % Nat.pow 2 (6 - n)

/-- Reads up to `n` continuation bytes, the first of them between `lo` and `hi`. -/
def follow : Nat → UInt8 → UInt8 → Nat → List UInt8 → Char × List UInt8
  | 0, _, _, code, rest => (Char.ofNat code, rest)
  | _ + 1, _, _, _, [] => (replacement, [])
  | n + 1, lo, hi, code, b :: rest =>
    if lo ≤ b ∧ b ≤ hi then follow n 0x80 0xBF (code * 64 + b.toNat % 64) rest
    else (replacement, b :: rest)

/-- The first character of some bytes, with the bytes after it. A part that starts like a code
point but does not finish one stands for U+FFFD. -/
def firstChar (b : UInt8) (rest : List UInt8) : Char × List UInt8 :=
  if b < 0x80 then (Char.ofNat b.toNat, rest)
  else match lead? b with
    | some (n, lo, hi) => follow n lo hi (leadBits n b) rest
    | none => (replacement, rest)

theorem follow_length (n : Nat) (lo hi : UInt8) (code : Nat) (rest : List UInt8) :
    (follow n lo hi code rest).2.length ≤ rest.length := by
  fun_induction follow n lo hi code rest with
  | case1 => simp
  | case2 => simp
  | case3 _ _ _ _ _ _ _ ih => exact Nat.le_succ_of_le ih
  | case4 => simp

theorem firstChar_length (b : UInt8) (rest : List UInt8) :
    (firstChar b rest).2.length ≤ rest.length := by
  unfold firstChar
  split
  · simp
  · split
    · exact follow_length ..
    · simp

def lossyChars : List UInt8 → List Char
  | [] => []
  | b :: rest => (firstChar b rest).1 :: lossyChars (firstChar b rest).2
termination_by bytes => bytes.length
decreasing_by
  have := firstChar_length b rest
  simp only [List.length_cons]
  omega

def ofBytes (bytes : Array UInt8) : String :=
  match String.fromUTF8? ⟨bytes⟩ with
  | some text => text
  | none => String.ofList (lossyChars bytes.toList)

def toBytes (text : String) : Array UInt8 := text.toUTF8.data

end ObjectMachine.Text
