import Reckoner.Decimal.Basic
import Reckoner.Text.Digit

/-! Numerals: digits with at most one point among them, before them or after them. A numeral keeps
its spelling; its value has one fraction place for each digit after the point. -/
namespace Reckoner

def areDigits (cs : List Char) : Bool := !cs.isEmpty && cs.all Char.isDigit

structure Numeral where
  whole : List Char
  fraction : Option (List Char)
  allDigits : areDigits (whole ++ fraction.getD []) = true
deriving DecidableEq

namespace Numeral

inductive Flaw where
  | noDigit | manyPoints | foreign
deriving DecidableEq

def digits (n : Numeral) : List Char := n.whole ++ n.fraction.getD []

def places (n : Numeral) : Nat := (n.fraction.getD []).length

def chars (n : Numeral) : List Char := n.whole ++ (n.fraction.map ('.' :: ·)).getD []

def lexeme (n : Numeral) : String := String.ofList n.chars

def value (n : Numeral) : Decimal := ⟨false, Nat.ofDigitChars 10 n.digits 0, -(n.places : Int)⟩

/-- The fraction follows the first point; without a point there is none. -/
def split (cs : List Char) : List Char × Option (List Char) :=
  (cs.takeWhile (· != '.'), (cs.dropWhile (· != '.')).tail?)

def ofChars? (cs : List Char) : Option Numeral :=
  let p := split cs
  if h : areDigits (p.1 ++ p.2.getD []) = true then some ⟨p.1, p.2, h⟩ else none

/-- Of two flaws a missing digit is named first, then a second point. Digits of any script count as
digits here, though a numeral has those of ASCII only. -/
def read (cs : List Char) : Except Flaw Numeral :=
  if cs.all (!Text.isDigitSign ·) then .error .noDigit
  else if 1 < cs.count '.' then .error .manyPoints
  else match ofChars? cs with
    | some n => .ok n
    | none => .error .foreign

theorem chars_of_ofChars? {cs : List Char} {n : Numeral} (h : ofChars? cs = some n) :
    n.chars = cs := by
  unfold ofChars? at h
  dsimp only at h
  split at h
  · obtain rfl := Option.some.inj h
    simp only [chars, split]
    conv => rhs; rw [← List.takeWhile_append_dropWhile (p := (· != '.')) (l := cs)]
    congr 1
    cases hd : cs.dropWhile (· != '.') with
    | nil => rfl
    | cons c r =>
      have := List.head?_dropWhile_not (· != '.') cs
      simp_all
  · simp at h

theorem chars_of_read {cs : List Char} {n : Numeral} (h : read cs = .ok n) : n.chars = cs := by
  unfold read at h
  split at h
  · simp at h
  split at h
  · simp at h
  split at h
  · next m hm => exact Except.ok.inj h ▸ chars_of_ofChars? hm
  · simp at h

end Numeral
end Reckoner
