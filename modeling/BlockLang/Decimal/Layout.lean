import BlockLang.Decimal.Shortest
import BlockLang.Json.Basic

/-!
# Writing numbers

How a decimal is laid out is a `Layout`: how many places are kept at least, and outside which
magnitudes the number is written with an exponent.
-/

namespace BlockLang.Decimal

def digitsText (n : Nat) : String := String.ofList (Nat.toDigits 10 n)

def zeros (n : Nat) : String := String.ofList (List.replicate n '0')

/-- Decisions about the text of a number. -/
structure Layout where
  /-- The least number of places after the point. -/
  places : Nat
  /-- Numbers whose first digit stands at `10 ^ k` are positional when `low ≤ k < high`;
  `none` leaves every number positional. -/
  positional : Option (Int × Int)
deriving Repr

namespace Scientific

/-- The `k` such that the first digit stands at `10 ^ k`. -/
def leading (s : Scientific) : Int :=
  s.exponent + (Nat.toDigits 10 s.coefficient).length - 1

/-- All digits, with zeros filled in around the point. -/
def positional (s : Scientific) (places : Nat) : String :=
  let digits := Nat.toDigits 10 s.coefficient
  let point := s.exponent + digits.length
  if point ≤ 0 then
    "0." ++ zeros (-point).toNat ++ String.ofList digits
  else if point < digits.length then
    String.ofList (digits.take point.toNat) ++ "." ++ String.ofList (digits.drop point.toNat)
  else
    let whole := String.ofList digits ++ zeros (point.toNat - digits.length)
    if places == 0 then whole else whole ++ "." ++ zeros places

/-- One digit before the point and the exponent after the mark `e`. -/
def exponential (s : Scientific) : String :=
  let digits := Nat.toDigits 10 s.coefficient
  let head := String.ofList (digits.take 1)
  let tail := String.ofList (digits.drop 1)
  let point := if tail.isEmpty then "" else "."
  let k := s.leading
  let sign := if k < 0 then "-" else ""
  head ++ point ++ tail ++ "e" ++ sign ++ digitsText k.natAbs

def render (s : Scientific) (layout : Layout) : String :=
  match layout.positional with
  | none => s.positional layout.places
  | some (low, high) =>
    if low ≤ s.leading ∧ s.leading < high then s.positional layout.places else s.exponential

end Scientific

/-- The text of a number by its shortest decimal. -/
def render (layout : Layout) (x : Float) : String :=
  let signed (negative : Bool) (text : String) := if negative then "-" ++ text else text
  match Shape.ofFloat x with
  | .nan => "NaN"
  | .infinite negative => signed negative "inf"
  | .zero negative =>
    signed negative (if layout.places == 0 then "0" else "0." ++ zeros layout.places)
  | .finite negative b => signed negative (b.shortest.render layout)

/-- The number without places, when it is an integer: every digit of it, and its sign. -/
def integer? (x : Float) : Option (Bool × Nat) :=
  match Shape.ofFloat x with
  | .zero negative => some (negative, 0)
  | .finite negative b => b.toNat?.map fun n => (negative, n)
  | _ => none

/-- The shortest decimal as a numeral; numbers that are not finite have none. -/
def numeral? (x : Float) : Option Numeral :=
  match Shape.ofFloat x with
  | .zero negative => some { negative, whole := ['0'], fraction := ['0'] }
  | .finite negative b =>
    let s := b.shortest
    some {
      negative
      whole := Nat.toDigits 10 s.coefficient
      exponent := some (decide (s.exponent < 0), Nat.toDigits 10 s.exponent.natAbs) }
  | _ => none

end BlockLang.Decimal
