import BlockLang.Json.Basic
import BlockLang.Text.Ranges

/-!
# Integers in a text

A text reads as an integer when, blanks around it removed, it is an optional sign and digits, and
the number fits 64 bits.
-/

namespace BlockLang.Text

/-- The characters with the White_Space property. -/
def blankRanges : List (Nat × Nat) := [
  (0x9, 0xD), (0x20, 0x20), (0x85, 0x85), (0xA0, 0xA0), (0x1680, 0x1680), (0x2000, 0x200A),
  (0x2028, 0x2029), (0x202F, 0x202F), (0x205F, 0x205F), (0x3000, 0x3000)]

def isBlank (c : Char) : Bool := inRanges blankRanges c

/-- The characters without the blanks at both ends. -/
def trim (cs : List Char) : List Char :=
  ((cs.dropWhile isBlank).reverse.dropWhile isBlank).reverse

/-- The number that one or more digits write. -/
def digits? (cs : List Char) : Option Nat :=
  if !cs.isEmpty && cs.all Char.isDigit then some (Numeral.digitsValue cs) else none

/-- The number that digits with an optional sign write. -/
def signed? : List Char → Option Int
  | '-' :: cs => (digits? cs).map fun n => -(n : Int)
  | '+' :: cs => (digits? cs).map Int.ofNat
  | cs => (digits? cs).map Int.ofNat

/-- The integer that a text writes, when it fits 64 bits. -/
def toInt64? (s : String) : Option Int64 := do
  let i ← signed? (trim s.toList)
  int64? i

end BlockLang.Text
