import BlockLang.Decimal.Shortest

/-!
# The remainder of binary64 numbers

The remainder of a division is exact: it is a multiple of the smaller unit of the two operands and
smaller than the divisor, so it is again a number of the format. `modulo` moves it into the range
from zero to the divisor's size.
-/

namespace BlockLang.Decimal

/-- The remainder of `a` by `b`, both counted in the smaller of their units, and that unit. -/
def Binary.remainder (a b : Binary) : Nat × Int :=
  let unit := min a.exponent b.exponent
  let m := a.mantissa * Nat.pow 2 (a.exponent - unit).toNat
  let n := b.mantissa * Nat.pow 2 (b.exponent - unit).toNat
  (m % n, unit)

/-- The remainder of `x` by `y` when the quotient is rounded toward zero; it has the sign of
`x`. -/
def truncatedRemainder (x y : Float) : Float :=
  match Shape.ofFloat x, Shape.ofFloat y with
  | .finite negative a, .finite _ b =>
    let (r, unit) := a.remainder b
    let magnitude := (Float.ofNat r).scaleB unit
    if negative then -magnitude else magnitude
  | .finite _ _, .infinite _ => x
  | .zero _, .finite _ _ => x
  | .zero _, .infinite _ => x
  | _, _ => 0 / 0

/-- The remainder of `x` by `y` that is not negative. -/
def modulo (x y : Float) : Float :=
  let r := truncatedRemainder x y
  if r < 0 then r + y.abs else r

end BlockLang.Decimal
