import Reckoner.Decimal.Range
import Reckoner.Numeral

/-! The written form of a decimal number, which shows coefficient and exponent in full. It is
positional where the exponent is at most zero and the leading digit stands no lower than the sixth
place after the point, else it has one digit before the point and the exponent of that digit.
Reading takes both forms back. -/
namespace Reckoner.Decimal

def signChars (negative : Bool) : List Char := if negative then ['-'] else []

/-- Parts the digits so that `places` of them follow the point and at least one stands before it. -/
def splitPoint (digits : List Char) (places : Nat) : List Char × List Char :=
  let padded := List.replicate (places + 1 - digits.length) '0' ++ digits
  padded.splitAt (padded.length - places)

/-- A point is written only where digits follow it. -/
def joinPoint (parts : List Char × List Char) : List Char :=
  if parts.2 = [] then parts.1 else parts.1 ++ '.' :: parts.2

def intChars (n : Int) : List Char :=
  (if n < 0 then '-' else '+') :: Nat.toDigits 10 n.natAbs

def chars (d : Decimal) : List Char :=
  let ds := digits d.coefficient
  signChars d.negative ++
    if d.exponent ≤ 0 ∧ -6 ≤ d.adjusted then joinPoint (splitPoint ds (-d.exponent).toNat)
    else joinPoint (ds.splitAt 1) ++ 'E' :: intChars d.adjusted

protected def toString (d : Decimal) : String := String.ofList d.chars

instance : ToString Decimal := ⟨Decimal.toString⟩

def readSign : List Char → Bool × List Char
  | '-' :: cs => (true, cs)
  | '+' :: cs => (false, cs)
  | cs => (false, cs)

def readInt? (cs : List Char) : Option Int :=
  let p := readSign cs
  if areDigits p.2 then
    let n := Nat.ofDigitChars 10 p.2 0
    some (if p.1 then -n else n)
  else none

/-- The exponent stands after its mark; without one it is zero. -/
def readExponent? : List Char → Option Int
  | [] => some 0
  | _ :: cs => readInt? cs

def isExponentMark (c : Char) : Bool := c == 'E' || c == 'e'

def ofChars? (cs : List Char) : Option Decimal := do
  let p := readSign cs
  let n ← Numeral.ofChars? (p.2.takeWhile (!isExponentMark ·))
  let e ← readExponent? (p.2.dropWhile (!isExponentMark ·))
  return ⟨p.1, n.value.coefficient, n.value.exponent + e⟩

def ofString (s : String) : Except Signal Decimal :=
  match ofChars? s.toList with
  | none => .error .invalidOperation
  | some d => match d.fit fullPrecision with
    | .ok r => if r = d then .ok d else .error .invalidOperation
    | .error _ => .error .invalidOperation

end Reckoner.Decimal
