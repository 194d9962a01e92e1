import Reckoner.Decimal.Digits
import Reckoner.Text.Blank
import Reckoner.Text.Digit

/-! Whole numbers as they are typed and as they are written. Typed ones may have white space around
them, a sign, and decimal digits of any script, between which single underscores may stand. Numbers
of too many digits are neither read nor written. -/
namespace Reckoner.Text

/-- The most digits that are read or written. -/
def mostDigits : Nat := 4300

/-- The digit values of a text in which each underscore stands between two digits. -/
def groupedDigits? : List Char → Option (List Nat)
  | [] => none
  | [c] => (digitValue? c).map ([·])
  | c :: '_' :: cs => do return (← digitValue? c) :: (← groupedDigits? cs)
  | c :: cs => do return (← digitValue? c) :: (← groupedDigits? cs)

def natural? (cs : List Char) : Option Nat := do
  let ds ← groupedDigits? cs
  if mostDigits < ds.length then none else some (ds.foldl (10 * · + ·) 0)

def integer? (s : String) : Option Int :=
  match trimBy isWhiteSpace s.toList with
  | '-' :: cs => (natural? cs).map fun n => -n
  | '+' :: cs => (natural? cs).map fun n => n
  | cs => (natural? cs).map fun n => n

def written? (n : Int) : Option String :=
  if n.natAbs < pow10 mostDigits then some (toString n) else none

theorem written?_natCast {n : Nat} (h : n < pow10 mostDigits) :
    written? n = some (toString n) := if_pos h

theorem written?_eq_none {n : Nat} (h : pow10 mostDigits ≤ n) : written? n = none :=
  if_neg (Nat.not_lt.2 h)

end Reckoner.Text
