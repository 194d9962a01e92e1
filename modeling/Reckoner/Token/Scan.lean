import Reckoner.Lexeme
import Reckoner.Token

/-! From text to tokens. A plus or minus is a sign where an operand has yet to come: at the start,
after an operator and after a left parenthesis. -/
namespace Reckoner.Token

def ofMark (signed : Bool) (p : Nat) (c : Char) : Except Fault Token :=
  if c = '(' then .ok ⟨.paren .left "(", some p⟩
  else if c = ')' then .ok ⟨.paren .right ")", some p⟩
  else match if signed then UnaryOperator.ofChar? c else none with
    | some o => .ok ⟨.operator (.unary o), some p⟩
    | none => match BinaryOperator.ofChar? c with
      | some o => .ok ⟨.operator (.binary o), some p⟩
      | none => .error ⟨.unexpectedCharacter c p, some p⟩

def ofLexeme (signed : Bool) : Lexeme → Except Fault Token
  | .number p cs => match Symbol.ofNumeral (String.ofList cs) with
    | .ok s => .ok ⟨s, some p⟩
    | .error c => .error ⟨c, some p⟩
  | .mark p c => ofMark signed p c

def ofLexemes (signed : Bool) : List Lexeme → Except Fault (List Token)
  | [] => .ok []
  | l :: ls => do
    let t ← ofLexeme signed l
    return t :: (← ofLexemes t.symbol.opensOperand ls)

def scan (text : String) : Except Fault (List Token) := ofLexemes true (Lexeme.split 0 text.toList)

end Reckoner.Token
