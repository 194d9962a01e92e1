import Reckoner.Decimal.Digits
import Reckoner.Decimal.Residue

/-! Decimal numbers as sign, coefficient and exponent. Trailing zeros and the sign of zero belong
to a number, so `1.50` and `1.5` are two numbers of one value. The operations here are exact and
know no limit on the exponent. -/
namespace Reckoner

structure Decimal where
  negative : Bool
  coefficient : Nat
  exponent : Int
deriving DecidableEq, Inhabited

/-- The integer nearest to `n / d`, a half going up. -/
def halfUp (n d : Nat) : Nat := (2 * n + d) / (2 * d)

namespace Decimal

def ofNat (n : Nat) : Decimal := ⟨false, n, 0⟩

def one : Decimal := ofNat 1

/-- The exponent of the leading digit. -/
def adjusted (d : Decimal) : Int := d.exponent + digitCount d.coefficient - 1

/-- The coefficient of `d` written with the exponent `e`, which is at most that of `d`. -/
def coefficientAt (d : Decimal) (e : Int) : Nat :=
  if d.coefficient = 0 then 0 else d.coefficient * pow10 (d.exponent - e).toNat

def signedAt (d : Decimal) (e : Int) : Int :=
  if d.negative then -(d.coefficientAt e : Int) else d.coefficientAt e

def commonExponent (a b : Decimal) : Int :=
  if a.exponent ≤ b.exponent then a.exponent else b.exponent

def neg (d : Decimal) : Decimal := { d with negative := !d.negative }

/-- A zero sum is negative only where both operands are. -/
def add (a b : Decimal) : Decimal :=
  let e := a.commonExponent b
  let s := a.signedAt e + b.signedAt e
  ⟨if s = 0 then a.negative && b.negative else decide (s < 0), s.natAbs, e⟩

def sub (a b : Decimal) : Decimal := a.add b.neg

def mul (a b : Decimal) : Decimal :=
  ⟨a.negative ^^ b.negative, a.coefficient * b.coefficient, a.exponent + b.exponent⟩

/-- What is left of `a` after taking away a whole multiple of `b`, with the sign of `a`. Where the
leading digit of `a` stands below that of `b` nothing is taken away. -/
def rem (a b : Decimal) : Decimal :=
  let e := a.commonExponent b
  let c :=
    if a.adjusted < b.adjusted then a.coefficientAt e
    else
      let m := b.coefficientAt e
      a.coefficient * powMod 10 (a.exponent - e).toNat m % m
  ⟨a.negative, c, e⟩

theorem coefficientAt_mod (d : Decimal) (e : Int) (m : Nat) :
    d.coefficientAt e % m = d.coefficient * powMod 10 (d.exponent - e).toNat m % m := by
  rw [powMod_eq, Nat.mul_mod_mod]
  unfold coefficientAt
  split
  · next h => rw [h, Nat.zero_mul]
  · rfl

@[simp] theorem neg_neg (d : Decimal) : d.neg.neg = d := by simp [neg]

theorem mul_comm (a b : Decimal) : a.mul b = b.mul a := by
  simp [mul, Bool.xor_comm, Nat.mul_comm, Int.add_comm]

theorem mul_assoc (a b c : Decimal) : (a.mul b).mul c = a.mul (b.mul c) := by
  simp [mul, Nat.mul_assoc, Int.add_assoc]

end Decimal
end Reckoner
