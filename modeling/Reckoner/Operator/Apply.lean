import Reckoner.Decimal.Fixed
import Reckoner.Decimal.Power
import Reckoner.Error
import Reckoner.Operator
import Reckoner.Settings

/-! What the operators compute. Sums, products, remainders and whole powers are exact. Quotients,
and with them powers below zero, are exact where they end. -/
namespace Reckoner
open Decimal

def UnaryOperator.apply : UnaryOperator → Decimal → Decimal
  | .pos, d => d
  | .neg, d => d.neg

namespace BinaryOperator

def exactly (d : Decimal) : Except Failure Decimal := (d.fit fullPrecision).mapError .limit

def divide (a b : Decimal) : Except Failure Decimal :=
  if b.coefficient = 0 then .error (.unplaced .divisionByZero)
  else (a.quotient Settings.arithmetic.divisionPrecision b).mapError .limit

/-- A whole quotient with more digits than any precision holds leaves no remainder to be found. -/
def modulo (a b : Decimal) : Except Failure Decimal :=
  if b.coefficient = 0 then .error (.unplaced .moduloByZero)
  else if a.coefficient ≠ 0 ∧ (fullPrecision : Int) < a.adjusted - b.adjusted then
    .error (.limit .invalidOperation)
  else exactly (a.rem b)

/-- The exponent of a power as a whole number of absolute value at most `limit`. -/
def wholeExponent (limit : Int) : Extended → Except Cause Int
  | .finite e =>
    if !e.isWhole then .error (.nonIntegerExponent (.finite e))
    else if e.exceeds limit then .error (.exponentOutOfRange e)
    else .ok e.truncated
  | e => .error (.nonIntegerExponent e)

def raise (limit : Int) (a : Decimal) (e : Extended) : Except Failure Decimal := do
  let n ← (wholeExponent limit e).mapError .unplaced
  if 0 ≤ n then (a.power n.toNat).mapError .limit
  else if a.coefficient = 0 then throw (.unplaced .zeroToNegativePower)
  else
    let p ← (a.power n.natAbs).mapError .limit
    (one.quotient Settings.arithmetic.divisionPrecision p).mapError .limit

def apply : BinaryOperator → Decimal → Decimal → Except Failure Decimal
  | .add, a, b => exactly (a.add b)
  | .sub, a, b => exactly (a.sub b)
  | .mul, a, b => exactly (a.mul b)
  | .div, a, b => divide a b
  | .mod, a, b => modulo a b
  | .pow, a, b => raise Settings.arithmetic.maxExponent a (.finite b)

end BinaryOperator
end Reckoner
