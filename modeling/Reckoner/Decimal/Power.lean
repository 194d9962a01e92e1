import Reckoner.Decimal.Quotient

/-! Powers with a whole exponent, by repeated squaring from the lowest binary digit. The base is
squared only while binary digits of the exponent remain. -/
namespace Reckoner.Decimal

def product (a b : Decimal) : Except Signal Decimal := (a.mul b).fit fullPrecision

/-- `acc` times the `n`-th power of `base`. -/
def powerFrom (acc base : Decimal) (n : Nat) : Except Signal Decimal :=
  if n = 0 then .ok acc
  else do
    let acc ← if n % 2 = 1 then acc.product base else .ok acc
    if n / 2 = 0 then return acc
    else powerFrom acc (← base.product base) (n / 2)
termination_by n

def power (base : Decimal) (n : Nat) : Except Signal Decimal := powerFrom one base n

def isWhole (d : Decimal) : Bool :=
  let places := (-d.exponent).toNat
  d.coefficient == 0 || places ≤ digitCount d.coefficient && d.coefficient % pow10 places == 0

/-- The whole number nearest to `d` in the direction of zero. The places of a zero do not count. -/
def truncated (d : Decimal) : Int :=
  if d.coefficient = 0 then 0
  else
    let n := d.coefficientAt 0 / pow10 (-d.exponent).toNat
    if d.negative then -n else n

/-- Whether a whole `d` is larger in absolute value than `limit`. A number with more digits than
the limit is, and is not written out. -/
def exceeds (d : Decimal) (limit : Int) : Bool :=
  if d.coefficient = 0 then limit < 0
  else limit < 0 || digitCount limit.toNat ≤ d.adjusted || limit < d.truncated.natAbs

end Reckoner.Decimal
