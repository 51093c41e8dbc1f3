/-!
# The shortest decimal of a binary64 number

A finite number other than zero is `mantissa * 2 ^ exponent`. The reals nearer to it than to any
other number form an interval, whose ends belong to it when the mantissa is even. The shortest
decimal is the one with the fewest digits in that interval, and among those the nearest. It is
found by trying one digit, two digits and so on: on the grid of decimals with a given number of
digits only the two neighbours of the number have to be tested. All arithmetic is exact.
-/

namespace BlockLang.Decimal

/-- A finite number other than zero, without its sign. -/
structure Binary where
  mantissa : Nat
  exponent : Int
  /-- Whether the next smaller number is only half as far away as the next larger one. -/
  narrow : Bool
deriving Repr

/-- A decimal `coefficient * 10 ^ exponent`. -/
structure Scientific where
  coefficient : Nat
  exponent : Int
deriving DecidableEq, Repr

/-- What kind of number a bit pattern is. -/
inductive Shape where
  | nan
  | infinite (negative : Bool)
  | zero (negative : Bool)
  | finite (negative : Bool) (value : Binary)
deriving Repr

/-- Takes a bit pattern apart. -/
def Shape.ofBits (bits : UInt64) : Shape :=
  let negative := bits.toNat / Nat.pow 2 63 == 1
  let biased : Nat := bits.toNat / Nat.pow 2 52 % 2048
  let fraction : Nat := bits.toNat % Nat.pow 2 52
  if biased == 2047 then
    if fraction == 0 then .infinite negative else .nan
  else if biased == 0 then
    if fraction == 0 then .zero negative else .finite negative ⟨fraction, -1074, false⟩
  else
    .finite negative ⟨Nat.pow 2 52 + fraction, (biased : Int) - 1075, fraction == 0 && biased != 1⟩

def Shape.ofFloat (x : Float) : Shape := .ofBits x.toBits

namespace Binary

/-- The number as a fraction. -/
def ratio (b : Binary) : Nat × Nat :=
  if 0 ≤ b.exponent then (b.mantissa * Nat.pow 2 b.exponent.toNat, 1)
  else (b.mantissa, Nat.pow 2 (-b.exponent).toNat)

/-- The integer that the number is, if it is one. -/
def toNat? (b : Binary) : Option Nat :=
  let (n, d) := b.ratio
  if n % d == 0 then some (n / d) else none

/-- The `k` with `10 ^ (k - 1) ≤ b < 10 ^ k`. -/
def magnitude (b : Binary) : Int :=
  let (n, d) := b.ratio
  if d ≤ n then (Nat.toDigits 10 (n / d)).length
  else 1 - ((Nat.toDigits 10 ((d + n - 1) / n - 1)).length : Int)

/-- Four times the number, and the ends of its interval at the same scale, in units of
`2 ^ exponent`. -/
def ends (b : Binary) : Nat × Nat :=
  (4 * b.mantissa - (if b.narrow then 1 else 2), 4 * b.mantissa + 2)

/-- Compares `c * 10 ^ e` with `m * 2 ^ (b.exponent - 2)` by returning both as integers at a
common scale. -/
def common (b : Binary) (c : Nat) (e : Int) (m : Nat) : Nat × Nat :=
  let q := b.exponent - 2
  let left := c * Nat.pow 10 e.toNat * Nat.pow 2 (-q).toNat
  let right := m * Nat.pow 2 q.toNat * Nat.pow 10 (-e).toNat
  (left, right)

/-- Whether `c * 10 ^ e` lies in the interval of the number. -/
def contains (b : Binary) (c : Nat) (e : Int) : Bool :=
  let (low, high) := b.ends
  let (x, lo) := b.common c e low
  let (y, hi) := b.common c e high
  if b.mantissa % 2 == 0 then lo ≤ x && y ≤ hi else lo < x && y < hi

/-- The largest integer `c` with `c * 10 ^ e ≤ b`. -/
def floorAt (b : Binary) (e : Int) : Nat :=
  let (n, d) := b.ratio
  n * Nat.pow 10 (-e).toNat / (d * Nat.pow 10 e.toNat)

/-- Whether the number is at least as near to `c * 10 ^ e` as to `(c + 1) * 10 ^ e`, where `c` is
the floor. -/
def nearerToFloor (b : Binary) (c : Nat) (e : Int) : Bool :=
  let (x, v) := b.common (2 * c + 1) e (8 * b.mantissa)
  v < x

/-- The coefficient of a decimal with exponent `e` in the interval, if there is one. -/
def hit? (b : Binary) (e : Int) : Option Nat :=
  let c := b.floorAt e
  match b.contains c e, b.contains (c + 1) e with
  | true, true => some (if b.nearerToFloor c e then c else c + 1)
  | true, false => some c
  | false, true => some (c + 1)
  | false, false => none

/-- Tries decimals of more and more digits. -/
def search (b : Binary) (k : Int) : Nat → Nat → Scientific
  | 0, digits => ⟨b.floorAt (k - digits), k - digits⟩
  | n + 1, digits =>
    match b.hit? (k - digits) with
    | some c => ⟨c, k - digits⟩
    | none => b.search k n (digits + 1)

end Binary

/-- Moves the zeros at the end of the coefficient into the exponent. -/
def Scientific.strip : Nat → Scientific → Scientific
  | 0, s => s
  | n + 1, s =>
    if s.coefficient % 10 == 0 && s.coefficient != 0 then
      strip n ⟨s.coefficient / 10, s.exponent + 1⟩
    else
      s

/-- The shortest decimal that is nearer to the number than to any other. Seventeen digits are
always enough. -/
def Binary.shortest (b : Binary) : Scientific :=
  (b.search b.magnitude 17 1).strip 20

end BlockLang.Decimal
