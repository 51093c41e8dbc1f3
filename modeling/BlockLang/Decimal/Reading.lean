import BlockLang.Json.Basic

/-!
# Reading numerals as binary64 numbers

A numeral is read by scaling: the leading digits that fit in 64 bits make a significand, which is
then multiplied or divided by a power of ten, each step rounded. A number too large for the format
cannot be read; one too small for it is zero.
-/

namespace BlockLang.Decimal

/-- Appends digits to a significand as long as it stays below `2 ^ 64`; returns the significand
and the digits that were left over. -/
def accumulate : Nat → List Char → Nat × List Char
  | n, [] => (n, [])
  | n, c :: cs =>
    let next := n * 10 + (c.toNat - '0'.toNat)
    if next < UInt64.size then accumulate next cs else (n, c :: cs)

def powerOfTen (n : Nat) : Float := Float.ofScientific 1 false n

/-- The largest power of ten that the format holds is `10 ^ 308`. -/
def maxPower : Nat := 308

/-- `x * 10 ^ n`, unless that is too large. -/
def scaleUp? (x : Float) (n : Nat) : Option Float :=
  if n ≤ maxPower then
    let y := x * powerOfTen n
    if y.isInf then none else some y
  else if x == 0 then
    some x
  else
    none

/-- `x / 10 ^ n`, dividing by the largest power first. -/
def scaleDown (x : Float) (n : Nat) : Float :=
  if n ≤ maxPower then x / powerOfTen n
  else if n ≤ 2 * maxPower then x / powerOfTen maxPower / powerOfTen (n - maxPower)
  else 0

def scale? (x : Float) (e : Int) : Option Float :=
  if 0 ≤ e then scaleUp? x e.toNat else some (scaleDown x (-e).toNat)

end Decimal

/-- The number that a numeral writes, unless it is too large. -/
def Numeral.toFloat? (n : Numeral) : Option Float := do
  let (significand, dropped) := Decimal.accumulate 0 n.whole
  let (significand, unread) := Decimal.accumulate significand n.fraction
  let places : Int := (n.fraction.length : Int) - unread.length
  let exponent : Int := match n.exponent with
    | none => 0
    | some (negative, digits) =>
      let e : Int := Numeral.digitsValue digits
      if negative then -e else e
  let x ← Decimal.scale? (UInt64.ofNat significand).toFloat (dropped.length - places + exponent)
  some (if n.negative then -x else x)

end BlockLang
