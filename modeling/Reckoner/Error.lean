import Reckoner.Access
import Reckoner.Decimal.Extended

/-! What can go wrong. A fault lies in the expression or in the scale and is reported to the user;
the other failures end the run. -/
namespace Reckoner

/-- The class of a fault, as reports name it. -/
inductive FaultKind where
  | malformedNumber | unexpectedCharacter
  | mismatchedParentheses | invalidOperatorSequence
  | malformedExpression | divisionByZero | nonIntegerExponent | zeroToNegativePower
  | exponentOutOfRange
  | invalidScale
deriving DecidableEq

inductive Stage where
  | tokens | syntactic | evaluation | setup
deriving DecidableEq

inductive Cause where
  | malformedNumber (lexeme : String) (flaw : Numeral.Flaw)
  | unexpectedCharacter (c : Char) (index : Nat)
  | unmatchedRight
  | unclosedLeft
  | missingOperand (lexeme : String)
  | signAfterOperand (lexeme : String)
  | operatorWithoutOperand (lexeme : String)
  | strayToken (lexeme : String)
  | missingValues (shown : String)
  | noValue
  | surplusValues (count : Nat) (postfixText : String)
  | divisionByZero
  | moduloByZero
  | nonIntegerExponent (e : Decimal.Extended)
  | exponentOutOfRange (e : Decimal)
  | zeroToNegativePower
  | scaleNotInteger (shown : String)
  | negativeScale (shown : String)
deriving DecidableEq

/-- A cause, and where in the text it lies if it lies at one token. -/
structure Fault where
  cause : Cause
  position : Option Int
deriving DecidableEq

inductive Failure where
  | fault (f : Fault)
  /-- A number outside the limits of the decimal format. -/
  | limit (s : Decimal.Signal)
  /-- A token of a kind that expressions do not have. -/
  | unsupportedToken (kind : String)
  /-- An operator of the given kind that does not exist. -/
  | unknownOperator (kind lexeme : String)
  /-- A whole number that is too long to be written. -/
  | tooManyDigits
  /-- A document that is not text in UTF-8. -/
  | undecodable
  /-- A file that cannot be used. -/
  | access (e : AccessError)
  /-- A path with a null character in it. -/
  | nullInPath
  /-- What else may keep a table from being saved, by class and message. -/
  | unsaved (kind message : String)
  /-- An option that asks for a level of logging and names none. -/
  | unnamedLevel
deriving DecidableEq

def FaultKind.name : FaultKind → String
  | .malformedNumber => "MalformedNumber"
  | .unexpectedCharacter => "UnexpectedCharacter"
  | .mismatchedParentheses => "MismatchedParentheses"
  | .invalidOperatorSequence => "InvalidOperatorSequence"
  | .malformedExpression => "MalformedExpression"
  | .divisionByZero => "DivisionByZero"
  | .nonIntegerExponent => "NonIntegerExponent"
  | .zeroToNegativePower => "ZeroToNegativePower"
  | .exponentOutOfRange => "ExponentOutOfRange"
  | .invalidScale => "InvalidScale"

def FaultKind.stage : FaultKind → Stage
  | .malformedNumber | .unexpectedCharacter => .tokens
  | .mismatchedParentheses | .invalidOperatorSequence => .syntactic
  | .malformedExpression | .divisionByZero | .nonIntegerExponent | .zeroToNegativePower
  | .exponentOutOfRange => .evaluation
  | .invalidScale => .setup

namespace Cause

def kind : Cause → FaultKind
  | .malformedNumber .. => .malformedNumber
  | .unexpectedCharacter .. => .unexpectedCharacter
  | .unmatchedRight | .unclosedLeft => .mismatchedParentheses
  | .missingOperand _ | .signAfterOperand _ | .operatorWithoutOperand _ => .invalidOperatorSequence
  | .strayToken _ | .missingValues _ | .noValue | .surplusValues .. => .malformedExpression
  | .divisionByZero | .moduloByZero => .divisionByZero
  | .nonIntegerExponent _ => .nonIntegerExponent
  | .exponentOutOfRange _ => .exponentOutOfRange
  | .zeroToNegativePower => .zeroToNegativePower
  | .scaleNotInteger _ | .negativeScale _ => .invalidScale

def message : Cause → String
  | .malformedNumber lexeme .noDigit => s!"Invalid number '{lexeme}': no digits"
  | .malformedNumber lexeme .manyPoints => s!"Invalid number '{lexeme}': multiple decimal points"
  | .malformedNumber lexeme .foreign => s!"Invalid number '{lexeme}'"
  | .unexpectedCharacter c index => s!"Unexpected character '{c}' at position {index}"
  | .unmatchedRight => "Mismatched parentheses: unmatched ')'"
  | .unclosedLeft => "Mismatched parentheses: unclosed '('"
  | .missingOperand lexeme => s!"Missing operand after '{lexeme}'"
  | .signAfterOperand lexeme => s!"Unary operator '{lexeme}' cannot follow an operand"
  | .operatorWithoutOperand lexeme => s!"Unexpected operator: {lexeme}"
  | .strayToken lexeme => s!"Unexpected token in postfix expression: {lexeme}"
  | .missingValues shown => s!"Insufficient operands for '{shown}'"
  | .noValue => "Empty expression"
  | .surplusValues count postfixText =>
    s!"Invalid expression: {count} values left after evaluating '{postfixText}'"
  | .divisionByZero => "Division by zero"
  | .moduloByZero => "Modulo by zero"
  | .nonIntegerExponent e => s!"Exponent must be an integer value: {e}"
  | .exponentOutOfRange e => s!"Exponent is out of range: {e}"
  | .zeroToNegativePower => "Zero cannot be raised to a negative power"
  | .scaleNotInteger shown => s!"Scale must be an integer, got {shown}"
  | .negativeScale shown => s!"Scale must be non-negative, got {shown}"

end Cause

namespace Fault

def kind (f : Fault) : FaultKind := f.cause.kind

def message (f : Fault) : String := f.cause.message

end Fault

namespace Failure

def unplaced (c : Cause) : Failure := .fault ⟨c, none⟩

def message? : Failure → Option String
  | .fault f => some f.message
  | .limit _ | .tooManyDigits | .undecodable => none
  | .unsupportedToken kind => some s!"Unsupported token type: {kind}"
  | .unknownOperator kind lexeme =>
    let shown := Text.quoted lexeme
    some s!"Unknown {kind}: {shown}"
  | .access e => some e.message
  | .nullInPath => some "embedded null byte"
  | .unsaved _ message => some message
  | .unnamedLevel => some "attribute name must be string, not 'list'"

end Failure

@[simp] theorem mapError_ok {ε δ α : Type} (f : ε → δ) (a : α) :
    (Except.ok a : Except ε α).mapError f = .ok a := rfl

@[simp] theorem mapError_error {ε δ α : Type} (f : ε → δ) (e : ε) :
    (Except.error e : Except ε α).mapError f = .error (f e) := rfl

end Reckoner
