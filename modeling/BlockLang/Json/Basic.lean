import BlockLang.Integer

/-!
# JSON values

A value keeps what the text said and nothing is decided early: numerals keep their digits, objects
keep every member in order (repeated names included), and a string keeps whether all its escapes
named characters. Readers of a particular shape decide what they accept.
-/

namespace BlockLang

/-- The characters of a JSON string, or `none` when one of its escapes names half of a surrogate
pair, so that the string has no characters. -/
abbrev JsonText := Option String

/-- A number as it was written. -/
structure Numeral where
  negative : Bool := false
  /-- Digits before the point. -/
  whole : List Char
  /-- Digits after the point; empty when there is no point. -/
  fraction : List Char := []
  /-- Whether the exponent is negative, and its digits. -/
  exponent : Option (Bool × List Char) := none
deriving DecidableEq, Repr

/-- A JSON value. -/
inductive Json where
  | null
  | bool (value : Bool)
  | number (numeral : Numeral)
  | string (text : JsonText)
  | array (items : List Json)
  | object (members : List (JsonText × Json))
deriving Inhabited

namespace Numeral

/-- The number that a list of decimal digits writes. -/
def digitsValue (digits : List Char) : Nat :=
  digits.foldl (fun n c => n * 10 + (c.toNat - '0'.toNat)) 0

def ofNat (n : Nat) : Numeral where
  whole := Nat.toDigits 10 n

def ofInt (i : Int) : Numeral where
  negative := decide (i < 0)
  whole := Nat.toDigits 10 i.natAbs

/-- The integer a numeral without point and exponent writes. A zero with a sign is no integer. -/
def toInt? (n : Numeral) : Option Int :=
  if n.fraction.isEmpty && n.exponent.isNone then
    match n.negative, digitsValue n.whole with
    | false, m => some m
    | true, 0 => none
    | true, m => some (-(m : Int))
  else
    none

/-- The integer a numeral writes, when it is between `-2 ^ 63` and `2 ^ 63 - 1`. -/
def toInt64? (n : Numeral) : Option Int64 := do
  let i ← n.toInt?
  int64? i

/-- The natural number a numeral writes, when it is below `2 ^ 64`. -/
def toUInt64? (n : Numeral) : Option UInt64 := do
  let i ← n.toInt?
  if 0 ≤ i ∧ i < UInt64.size then some (UInt64.ofNat i.toNat) else none

end Numeral

namespace Json

/-- A string value with known characters. -/
def text (s : String) : Json := .string (some s)

def nat (n : Nat) : Json := .number (.ofNat n)

def int (i : Int) : Json := .number (.ofInt i)

/-- An object from names and values. -/
def record (members : List (String × Json)) : Json :=
  .object (members.map fun m => (some m.1, m.2))

/-- The value of the last member called `name`. -/
def member? : Json → String → Option Json
  | .object members, name => (members.reverse.lookup (some name))
  | _, _ => none

end Json

end BlockLang
