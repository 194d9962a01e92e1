import Reckoner.Decimal.Scientific

/-! The printed form of a result: positional, rounded half up to a number of fraction places, and
without zeros at the end of the fraction. What rounds to zero is printed as a bare `0`. -/
namespace Reckoner.Decimal

def widestShift : Nat := 2 * (topExponent.toNat + fullPrecision)

/-- The lowest place that is printed at a scale. -/
def displayPlace (scale : Nat) : Int :=
  if -(scale : Int) < lowestPlace fullPrecision then lowestPlace fullPrecision else -scale

/-- Rounds to the place `e`; a number without digits below it stays as it is. -/
def roundTo (d : Decimal) (e : Int) : Decimal := if d.exponent < e then d.roundAt e else d

def positional (d : Decimal) : List Char × List Char :=
  let ds := digits d.coefficient
  if 0 ≤ d.exponent then (ds ++ List.replicate d.exponent.toNat '0', [])
  else splitPoint ds (-d.exponent).toNat

def dropTrailingZeros (cs : List Char) : List Char :=
  (cs.reverse.dropWhile (· == '0')).reverse

def plainChars (d : Decimal) : List Char :=
  if d.coefficient = 0 then ['0']
  else
    let parts := d.positional
    signChars d.negative ++ joinPoint (parts.1, dropTrailingZeros parts.2)

/-- Whether a number has more digits down to the place `e` than any precision holds. The decimal
digits are counted only where the binary ones might be too many. -/
def exceedsPrecision (d : Decimal) (e : Int) : Bool :=
  d.coefficient != 0 && fullPrecision < d.coefficient.log2 + 1 + (d.exponent - e) &&
    fullPrecision < digitCount d.coefficient + (d.exponent - e)

theorem exceedsPrecision_iff (d : Decimal) (e : Int) :
    d.exceedsPrecision e = true ↔
      d.coefficient ≠ 0 ∧ fullPrecision < digitCount d.coefficient + (d.exponent - e) := by
  have hle := digitCount_le_log2 d.coefficient
  simp only [exceedsPrecision, Bool.and_eq_true, bne_iff_ne, decide_eq_true_eq]
  omega

/-- Fails where the digits down to the lowest printed place are more than any precision holds. -/
def format (d : Decimal) (scale : Nat) : Except Signal String :=
  let e := displayPlace scale
  if widestShift < scale ∨ d.exceedsPrecision e then .error .invalidOperation
  else .ok (String.ofList (d.roundTo e).plainChars)

end Reckoner.Decimal
