import Reckoner.Text.Blank

/-! Lexemes: the pieces of a text between its blanks. Digits and points stick together; every other
character is a piece by itself. -/
namespace Reckoner

inductive Lexeme where
  | number (position : Nat) (chars : List Char)
  | mark (position : Nat) (c : Char)
deriving DecidableEq

namespace Lexeme

def isNumberChar (c : Char) : Bool := c.isDigit || c == '.'

/-- The lexemes of a text whose first character stands at position `p`. -/
def split (p : Nat) : List Char → List Lexeme
  | [] => []
  | c :: cs =>
    if Text.isBlank c then split (p + 1) cs
    else if isNumberChar c then
      let more := cs.takeWhile isNumberChar
      .number p (c :: more) :: split (p + 1 + more.length) (cs.dropWhile isNumberChar)
    else .mark p c :: split (p + 1) cs
termination_by cs => cs.length
decreasing_by
  · simp
  · exact Nat.lt_succ_of_le ((List.dropWhile_sublist _).length_le)
  · simp

def position : Lexeme → Nat
  | .number p _ | .mark p _ => p

def chars : Lexeme → List Char
  | .number _ cs => cs
  | .mark _ c => [c]

end Lexeme
end Reckoner
