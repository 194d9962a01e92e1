import Reckoner.Error
import Reckoner.Operator

/-! Tokens. Two tokens are the same if they have the same symbol, wherever they stand. -/
namespace Reckoner

inductive Side where
  | left | right
deriving DecidableEq

inductive Symbol where
  | number (n : Numeral)
  | operator (o : Operator)
  | paren (side : Side) (lexeme : String)
  /-- A symbol of a kind that expressions do not have. -/
  | other (kind lexeme : String)
deriving DecidableEq

structure Token where
  symbol : Symbol
  position : Option Int
deriving DecidableEq

namespace Symbol

def kind : Symbol → String
  | .number _ => "number"
  | .operator (.binary _) => "operator"
  | .operator (.unary _) => "unary_operator"
  | .paren .left _ => "left_paren"
  | .paren .right _ => "right_paren"
  | .other kind _ => kind

def lexeme : Symbol → String
  | .number n => n.lexeme
  | .operator o => o.lexeme
  | .paren _ lexeme | .other _ lexeme => lexeme

def value? : Symbol → Option Decimal
  | .number n => some n.value
  | _ => none

def operator? : Symbol → Option Operator
  | .operator o => some o
  | _ => none

/-- Signs are marked with `u`, which sets them apart from sums and differences. -/
def shown : Symbol → String
  | .operator (.unary o) => s!"u{o.symbol}"
  | s => s.lexeme

/-- After an operator or a left parenthesis an operand has yet to come. -/
def opensOperand : Symbol → Bool
  | .operator _ | .paren .left _ => true
  | _ => false

def ofNumeral (lexeme : String) : Except Cause Symbol :=
  match Numeral.read lexeme.toList with
  | .ok n => .ok (.number n)
  | .error flaw => .error (.malformedNumber lexeme flaw)

end Symbol

namespace Token

def lexeme (t : Token) : String := t.symbol.lexeme
def shown (t : Token) : String := t.symbol.shown
def operator? (t : Token) : Option Operator := t.symbol.operator?

def same (a b : Token) : Bool := a.symbol = b.symbol

theorem same_iff {a b : Token} : a.same b = true ↔ a.symbol = b.symbol := by simp [same]

def showAll (ts : List Token) : String := " ".intercalate (ts.map shown)

def operatorOf? (unary : Bool) (lexeme : String) : Option Operator :=
  match lexeme.toList with
  | [c] =>
    if unary then (UnaryOperator.ofChar? c).map .unary
    else (BinaryOperator.ofChar? c).map .binary
  | _ => none

def ofSpelling (kind lexeme : String) (position : Option Int) : Except Failure Token :=
  match kind with
  | "number" => match Symbol.ofNumeral lexeme with
    | .ok s => .ok ⟨s, position⟩
    | .error c => .error (.fault ⟨c, position⟩)
  | "operator" | "unary_operator" => match operatorOf? (kind == "unary_operator") lexeme with
    | some o => .ok ⟨.operator o, position⟩
    | none => .error (.unknownOperator kind lexeme)
  | "left_paren" => .ok ⟨.paren .left lexeme, position⟩
  | "right_paren" => .ok ⟨.paren .right lexeme, position⟩
  | _ => .ok ⟨.other kind lexeme, position⟩

end Token
end Reckoner
