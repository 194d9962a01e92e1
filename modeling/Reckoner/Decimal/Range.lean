import Reckoner.Decimal.Basic

/-! The limits on a decimal number. The leading digit may stand at any exponent of eighteen digits
or fewer; a precision of `p` digits lets the last one stand `p - 1` places lower. A result above the
range is an overflow, one below it is rounded at the lowest place. -/
namespace Reckoner.Decimal

/-- What stops an operation at the limits of the format. -/
inductive Signal where
  | invalidOperation | overflow | divisionByZero
deriving DecidableEq

def topExponent : Int := 999999999999999999
def bottomExponent : Int := -999999999999999999

def fullPrecision : Nat := 999999999999999999

/-- The lowest place that a number of `p` digits can use. -/
def lowestPlace (p : Nat) : Int := bottomExponent - p + 1

/-- Rounds half up at the place `e`. Where more decimal digits are dropped than there are binary
ones, nothing is left. -/
def roundAt (d : Decimal) (e : Int) : Decimal :=
  let dropped := (e - d.exponent).toNat
  let c :=
    if d.coefficient.log2 + 1 < dropped then 0 else halfUp d.coefficient (pow10 dropped)
  ⟨d.negative, c, e⟩

/-- Results that the format holds as they are. -/
def InRange (d : Decimal) : Prop := bottomExponent ≤ d.adjusted ∧ d.adjusted ≤ topExponent

instance (d : Decimal) : Decidable d.InRange := inferInstanceAs (Decidable (_ ∧ _))

/-- A condition for being in range that leaves the decimal digits uncounted. -/
def plainlyInRange (d : Decimal) : Bool :=
  bottomExponent ≤ d.exponent && d.exponent + d.coefficient.log2 ≤ topExponent

def fit (p : Nat) (d : Decimal) : Except Signal Decimal :=
  if d.plainlyInRange then .ok d
  else if topExponent < d.adjusted then
    if d.coefficient = 0 then .ok { d with exponent := topExponent } else .error .overflow
  else if d.adjusted < bottomExponent ∧ d.exponent < lowestPlace p then
    .ok (d.roundAt (lowestPlace p))
  else .ok d

theorem coefficient_roundAt (d : Decimal) (e : Int) :
    (d.roundAt e).coefficient = halfUp d.coefficient (pow10 (e - d.exponent).toNat) := by
  simp only [roundAt]
  generalize (e - d.exponent).toNat = k
  split
  case isTrue h =>
    have hlog := lt_pow10_log2 d.coefficient
    have hle := pow10_le_pow10 (Nat.succ_le_of_lt h)
    rw [pow10_succ] at hle
    exact (Nat.div_eq_of_lt (by omega)).symm
  case isFalse => rfl

theorem inRange_of_plainlyInRange {d : Decimal} (h : d.plainlyInRange = true) : d.InRange := by
  have hpos := digitCount_pos d.coefficient
  have hle := digitCount_le_log2 d.coefficient
  simp only [plainlyInRange, Bool.and_eq_true, decide_eq_true_eq] at h
  simp only [InRange, adjusted]
  omega

theorem fit_of_inRange {d : Decimal} (p : Nat) (h : d.InRange) : d.fit p = .ok d := by
  simp [fit, Int.not_lt.2 h.1, Int.not_lt.2 h.2]

/-- What happens to a result is decided by its leading digit, its last place and the precision. -/
theorem fit_eq (p : Nat) (d : Decimal) :
    d.fit p =
      if topExponent < d.adjusted then
        if d.coefficient = 0 then .ok { d with exponent := topExponent } else .error .overflow
      else if d.adjusted < bottomExponent ∧ d.exponent < lowestPlace p then
        .ok (d.roundAt (lowestPlace p))
      else .ok d := by
  by_cases h : d.plainlyInRange = true
  · have hr := inRange_of_plainlyInRange h
    simp [fit, h, Int.not_lt.2 hr.1, Int.not_lt.2 hr.2]
  · simp [fit, h]

end Reckoner.Decimal
