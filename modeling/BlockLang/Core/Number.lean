import BlockLang.Core.Basic
import BlockLang.Decimal.Remainder

/-!
# Numbers

Integers have 64 bits. An operation on them is the exact one, and fails when the result does not
fit; division goes down, and the remainder has the divisor's sign. An operation with a number that
is not an integer is one on numbers in double precision.
-/

namespace BlockLang

/-- Operations on two numbers. -/
inductive Operator where
  | add
  | sub
  | mul
  | div
  | mod
  | pow
  | lt
  | gt
  | le
  | ge
  | compare
deriving DecidableEq, Repr

/-- An integer of 64 bits, if it is one. -/
def fitInt (x : Int) : Except Fault Int64 :=
  match int64? x with
  | some i => .ok i
  | none => .error .integerOverflow

/-- What a division by words comes to, unless the divisor is 0 or the quotient has no word. -/
def divided (a b result : Int64) : Except Fault Int64 :=
  if b = 0 then .error .divisionByZero
  else if a = Int64.minValue ∧ b = -1 then .error .integerOverflow
  else .ok result

/-- The floor of the quotient: one less than the word that goes towards zero, where there is a
remainder and the signs differ. -/
def floorDiv (a b : Int64) : Except Fault Int64 :=
  divided a b (if a % b ≠ 0 ∧ (a < 0 ↔ ¬ b < 0) then a / b - 1 else a / b)

/-- What the floor of the quotient leaves. It fails where the quotient does. -/
def floorMod (a b : Int64) : Except Fault Int64 :=
  divided a b (if a % b ≠ 0 ∧ (a % b < 0 ↔ ¬ b < 0) then a % b + b else a % b)

/-- The exponents that powers of integers can have. -/
def maxExponent : Nat := Nat.pow 2 32 - 1

/-- A power with an exponent that is not negative. Powers of -1, 0 and 1 go in circles, and those
of other numbers leave 64 bits before the exponent does. -/
def power (a : Int64) (b : Nat) : Except Fault Int64 :=
  if maxExponent < b then .error .integerOverflow
  else if a.toInt.natAbs ≤ 1 then fitInt (a.toInt.pow (min b (2 + b % 2)))
  else if 64 ≤ b then .error .integerOverflow
  else fitInt (a.toInt.pow b)

namespace Operator

def ofName? : String → Option Operator
  | "+" => some add
  | "-" => some sub
  | "*" => some mul
  | "/" => some div
  | "%" => some mod
  | "**" => some pow
  | "<" => some lt
  | ">" => some gt
  | "<=" => some le
  | ">=" => some ge
  | "<=>" => some compare
  | _ => none

/-- The operation on integers. A negative exponent gives a number in double precision. -/
def onIntegers (a b : Int64) : Operator → Except Fault Value
  | add => .int <$> fitInt (a.toInt + b.toInt)
  | sub => .int <$> fitInt (a.toInt - b.toInt)
  | mul => .int <$> fitInt (a.toInt * b.toInt)
  | div => .int <$> floorDiv a b
  | mod => .int <$> floorMod a b
  | pow =>
    if 0 ≤ b then .int <$> power a b.toInt.toNat else .ok (.float (a.toFloat.pow b.toFloat))
  | lt => .ok (.bool (a < b))
  | gt => .ok (.bool (b < a))
  | le => .ok (.bool (a ≤ b))
  | ge => .ok (.bool (b ≤ a))
  | compare => .ok (.int (if a < b then -1 else if b < a then 1 else 0))

/-- The operation in double precision. -/
def onFloats? (a b : Float) : Operator → Option Value
  | add => some (.float (a + b))
  | sub => some (.float (a - b))
  | mul => some (.float (a * b))
  | div => some (.float (a / b))
  | mod => some (.float (Decimal.modulo a b))
  | pow => some (.float (a.pow b))
  | lt => some (.bool (a < b))
  | gt => some (.bool (b < a))
  | le => some (.bool (a ≤ b))
  | ge => some (.bool (b ≤ a))
  | compare => none

end Operator

def Value.toFloat? : Value → Option Float
  | .int i => some i.toFloat
  | .float x => some x
  | _ => none

/-- The sum of two numbers. -/
def addValues? : Value → Value → Option (Except Fault Value)
  | .int a, .int b => some (Operator.add.onIntegers a b)
  | a, b => do
    let x ← a.toFloat?
    let y ← b.toFloat?
    some (.ok (.float (x + y)))

namespace Core

/-- An operator between two values, the left one a number. -/
def binary (left right : Value) (op : Operator) : Core (Option Reply) := do
  match left, right with
  | .int a, .int b => answer (← ofFault (op.onIntegers a b))
  | _, _ =>
    match left.toFloat?, right.toFloat? with
    | some a, some b => return (op.onFloats? a b).map .value
    | _, _ =>
      if op = .compare then return none
      else raise (.notCoercible (← typeName right) (← typeName left))

def intMethod (i : Int64) (name : String) (args : List Value) : Core (Option Reply) := do
  let fit (x : Int) : Core (Option Reply) := do answer (.int (← ofFault (fitInt x)))
  match name with
  | "-@" => fit (-i.toInt)
  | "zero?" => answerBool (i == 0)
  | "even?" => answerBool (i.toInt % 2 == 0)
  | "odd?" => answerBool (i.toInt % 2 != 0)
  | "succ" => fit (i.toInt + 1)
  | "pred" => fit (i.toInt - 1)
  | "abs" => fit i.toInt.natAbs
  | "to_i" => answer (.int i)
  | "to_f" => answer (.float i.toFloat)
  | "times" => return some (.iterate (.count 0 (i.toInt - 1) (.int i)))
  | "upto" => do
    let last ← intArg args 0
    return some (.iterate (.count i.toInt last.toInt (.int i)))
  | _ => return none

def floatMethod (x : Float) : String → Core (Option Reply)
  | "-@" => answer (.float (-x))
  | "zero?" => answerBool (x == 0)
  | "abs" => answer (.float x.abs)
  | "to_i" => answer (.int x.toInt64)
  | "to_f" => answer (.float x)
  | _ => return none

/-- Methods of numbers. An operator that does not apply leaves the name to the others. -/
def numberMethod (receiver : Value) (name : String) (args : List Value) :
    Core (Option Reply) := do
  if let [right] := args then
    if let some op := Operator.ofName? name then
      if let some reply ← binary receiver right op then
        return some reply
  match receiver with
  | .int i => intMethod i name args
  | .float x => floatMethod x name
  | _ => return none

end Core

end BlockLang
