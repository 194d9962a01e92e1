import Reckoner.Text.Range

/-! Blanks: white space, which is the Unicode property of that name, and the four information
separators `U+001C` to `U+001F`. -/
namespace Reckoner.Text

def whiteSpaceRanges : List (Nat × Nat) :=
  [(0x0009, 0x000D), (0x0020, 0x0020), (0x0085, 0x0085), (0x00A0, 0x00A0), (0x1680, 0x1680),
   (0x2000, 0x200A), (0x2028, 0x2029), (0x202F, 0x202F), (0x205F, 0x205F), (0x3000, 0x3000)]

def isWhiteSpace (c : Char) : Bool := within whiteSpaceRanges c

def isBlank (c : Char) : Bool := isWhiteSpace c || within [(0x001C, 0x001F)] c

def trimBy (p : Char → Bool) (cs : List Char) : List Char :=
  ((cs.dropWhile p).reverse.dropWhile p).reverse

def trim (s : String) : String := String.ofList (trimBy isBlank s.toList)

@[simp] theorem trimBy_nil (p : Char → Bool) : trimBy p [] = [] := rfl

end Reckoner.Text
