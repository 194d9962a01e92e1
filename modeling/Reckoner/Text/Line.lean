import Reckoner.Text.Blank

/-! Lines. A stream is cut at line feeds only. A document is cut also at carriage returns, vertical
tabs and form feeds, at the separators of files, groups and records, at `U+0085`, and at the line
and paragraph separators; a carriage return and a line feed together are one end. The end of the
last line opens no further line. -/
namespace Reckoner.Text

def feedLines : List Char → List (List Char)
  | [] => []
  | c :: cs =>
    (c :: cs).takeWhile (· != '\n') :: feedLines (((c :: cs).dropWhile (· != '\n')).drop 1)
termination_by cs => cs.length
decreasing_by
  have := (List.dropWhile_sublist (l := c :: cs) (· != '\n')).length_le
  simp only [List.length_drop, List.length_cons] at *
  omega

/-- Line ends of three kinds made one: a carriage return, and the line feed that may stand behind it,
become a line feed. -/
def withFeeds : List Char → List Char
  | '\r' :: '\n' :: cs => '\n' :: withFeeds cs
  | '\r' :: cs => '\n' :: withFeeds cs
  | c :: cs => c :: withFeeds cs
  | [] => []

def lineBreaks : List Char :=
  ['\n', '\x0b', '\x0c', '\r', '\x1c', '\x1d', '\x1e', '\x85', '\u2028', '\u2029']

def isLineBreak (c : Char) : Bool := lineBreaks.contains c

def afterBreak : List Char → List Char
  | '\r' :: '\n' :: cs => cs
  | _ :: cs => cs
  | [] => []

theorem length_afterBreak_le (cs : List Char) : (afterBreak cs).length ≤ cs.length - 1 := by
  unfold afterBreak
  split <;> simp

def lines : List Char → List (List Char)
  | [] => []
  | c :: cs =>
    (c :: cs).takeWhile (!isLineBreak ·) ::
      lines (afterBreak ((c :: cs).dropWhile (!isLineBreak ·)))
termination_by cs => cs.length
decreasing_by
  have h := (List.dropWhile_sublist (l := c :: cs) (!isLineBreak ·)).length_le
  have h' := length_afterBreak_le ((c :: cs).dropWhile (!isLineBreak ·))
  simp only [List.length_cons] at *
  omega

end Reckoner.Text
