import Reckoner.Literal
import Reckoner.Postfix.Evaluate
import Reckoner.Token.Scan

/-! The calculator: from the text of an expression to the text of its value at a fixed scale. -/
namespace Reckoner

/-- The value of an expression. A missing text is an empty one. -/
def evaluate (text : Option String) : Except Failure Decimal := do
  let infixTokens ← (Token.scan (text.getD "")).mapError .fault
  let postfixTokens ← Postfix.ofInfix infixTokens
  Postfix.evaluate postfixTokens

/-- A refusal tells what was offered. Where that cannot be written, the refusal fails itself. -/
def refuseScale (cause : String → Cause) (offered : Literal) : Failure :=
  offered.shown?.elim .tooManyDigits fun shown => .unplaced (cause shown)

/-- Only whole numbers from zero on are scales. -/
def scaleOf : Literal → Except Failure Nat
  | .whole n => if 0 ≤ n then .ok n.toNat else .error (refuseScale .negativeScale (.whole n))
  | l => .error (refuseScale .scaleNotInteger l)

def formatAt (d : Decimal) (scale : Literal) : Except Failure String := do
  let s ← scaleOf scale
  (d.format s).mapError .limit

structure Calculator where
  scale : Nat
deriving DecidableEq

/-- What became of one line: the text of its value, or the fault found in it. -/
structure Report where
  expression : Option String
  outcome : Except Fault String

namespace Report

def value? (r : Report) : Option String := r.outcome.toOption

def fault? (r : Report) : Option Fault :=
  match r.outcome with
  | .ok _ => none
  | .error f => some f

def succeeded (r : Report) : Bool := r.fault?.isNone

end Report

namespace Calculator

def standard : Calculator := ⟨Settings.arithmetic.scale⟩

/-- A calculator at the offered scale, or at the standard one where none is offered. -/
def ofLiteral : Literal → Except Failure Calculator
  | .absent => .ok standard
  | l => (scaleOf l).map Calculator.mk

def calculate (k : Calculator) (text : Option String) : Except Failure String := do
  let v ← evaluate text
  (v.format k.scale).mapError .limit

def report (k : Calculator) (text : Option String) : Except Failure Report :=
  match k.calculate text with
  | .ok v => .ok ⟨text, .ok v⟩
  | .error (.fault f) => .ok ⟨text, .error f⟩
  | .error e => .error e

theorem expression_of_report {k : Calculator} {text : Option String} {r : Report}
    (h : k.report text = .ok r) : r.expression = text := by
  unfold report at h
  split at h
  · obtain rfl := Except.ok.inj h; rfl
  · obtain rfl := Except.ok.inj h; rfl
  · simp at h

end Calculator
end Reckoner
