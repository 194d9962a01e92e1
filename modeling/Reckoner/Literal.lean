import Reckoner.Decimal.Fixed
import Reckoner.Decimal.Shortest
import Reckoner.Text.Integer
import Reckoner.Text.Quoted

/-! Values as they may be offered where a whole number is asked for, and how a refusal shows them, if
it can. -/
namespace Reckoner

inductive Literal where
  | absent
  | truth (b : Bool)
  | whole (n : Int)
  | real (x : Float)
  | text (s : String)
  | list (items : List Literal)
  | record (fields : List (String × Literal))

namespace Literal

/-- An exponent has a sign and at least two digits. -/
def exponentChars (e : Int) : List Char :=
  let ds := Nat.toDigits 10 e.natAbs
  (if e < 0 then '-' else '+') :: (List.replicate (2 - ds.length) '0' ++ ds)

/-- Positional from a ten-thousandth up to ten to the sixteenth, with a digit after the point; else
with the exponent of the leading digit. -/
def realChars (d : Decimal) : List Char :=
  let ds := digits d.coefficient
  if d.coefficient = 0 then ['0', '.', '0']
  else if -4 ≤ d.adjusted ∧ d.adjusted < 16 then
    let parts := d.positional
    let rest := Decimal.dropTrailingZeros parts.2
    parts.1 ++ '.' :: if rest = [] then ['0'] else rest
  else Decimal.joinPoint (ds.take 1, Decimal.dropTrailingZeros (ds.drop 1)) ++
    'e' :: exponentChars d.adjusted

def showReal (x : Float) : String :=
  let bits := x.toBits.toNat
  let mark := if 0x8000000000000000 ≤ bits then "-" else ""
  if x.isNaN then "nan"
  else if x.isInf then mark ++ "inf"
  else mark ++ String.ofList (realChars (Decimal.shortest (.ofBits bits)))

mutual

def shown? : Literal → Option String
  | .absent => some "None"
  | .truth true => some "True"
  | .truth false => some "False"
  | .whole n => Text.written? n
  | .real x => some (showReal x)
  | .text s => some (Text.quoted s)
  | .list items => do return "[" ++ ", ".intercalate (← shownItems? items) ++ "]"
  | .record fields => do return "\x7b" ++ ", ".intercalate (← shownFields? fields) ++ "\x7d"

def shownItems? : List Literal → Option (List String)
  | [] => some []
  | x :: xs => do return (← x.shown?) :: (← shownItems? xs)

def shownFields? : List (String × Literal) → Option (List String)
  | [] => some []
  | (name, x) :: rest => do
    return (Text.quoted name ++ ": " ++ (← x.shown?)) :: (← shownFields? rest)

end

end Literal
end Reckoner
