import Reckoner.Token

/-! Postfix order: each operator after its operands. Operators wait on a stack, above the left
parenthesis they stand in, until one comes that they are carried out before. -/
namespace Reckoner.Postfix

structure State where
  /-- The tokens put out so far, the last one first. -/
  output : List Token
  /-- Operators and left parentheses, the latest first. -/
  waiting : List Token
  expectsOperand : Bool
  last : Option Token

namespace State

def start : State := ⟨[], [], true, none⟩

/-- The fault of ending at an operator, if that is where the tokens have come to. -/
def missingOperand? (s : State) : Option Fault :=
  s.last.bind fun t => t.operator?.map fun _ => ⟨.missingOperand t.lexeme, t.position⟩

end State

def isLeft (t : Token) : Bool :=
  match t.symbol with
  | .paren .left _ => true
  | _ => false

def leavesFor (o : Operator) (t : Token) : Bool :=
  match t.operator? with
  | some w => w.yieldsTo o
  | none => false

def close (t : Token) (s : State) : Except Failure State :=
  match s.waiting.dropWhile (!isLeft ·) with
  | [] => .error (.fault ⟨.unmatchedRight, t.position⟩)
  | _ :: rest =>
    .ok ⟨(s.waiting.takeWhile (!isLeft ·)).reverse ++ s.output, rest, false, some t⟩

def step (t : Token) (s : State) : Except Failure State :=
  match t.symbol with
  | .number _ => .ok { s with output := t :: s.output, expectsOperand := false, last := some t }
  | .paren .left _ =>
    .ok { s with waiting := t :: s.waiting, expectsOperand := true, last := some t }
  | .paren .right _ => match s.missingOperand? with
    | some f => .error (.fault f)
    | none => close t s
  | .operator (.unary _) =>
    if s.expectsOperand then .ok { s with waiting := t :: s.waiting, last := some t }
    else .error (.fault ⟨.signAfterOperand t.lexeme, t.position⟩)
  | .operator (.binary o) =>
    if s.expectsOperand then .error (.fault ⟨.operatorWithoutOperand t.lexeme, t.position⟩)
    else
      let leaves := leavesFor (.binary o)
      .ok ⟨(s.waiting.takeWhile leaves).reverse ++ s.output, t :: s.waiting.dropWhile leaves, true,
        some t⟩
  | .other kind _ => .error (.unsupportedToken kind)

def run : List Token → State → Except Failure State
  | [], s => .ok s
  | t :: ts, s => step t s >>= run ts

theorem run_append (ts us : List Token) (s : State) :
    run (ts ++ us) s = run ts s >>= run us := by
  induction ts generalizing s with
  | nil => rfl
  | cons t ts ih =>
    simp only [List.cons_append, run]
    cases step t s with
    | error e => rfl
    | ok s' => exact ih s'

/-- All that waits goes out, unless a left parenthesis is among it. -/
def finish (s : State) : Except Failure (List Token) :=
  match s.missingOperand? with
  | some f => .error (.fault f)
  | none => match s.waiting.find? isLeft with
    | some t => .error (.fault ⟨.unclosedLeft, t.position⟩)
    | none => .ok (s.output.reverse ++ s.waiting)

def ofInfix (ts : List Token) : Except Failure (List Token) := run ts .start >>= finish

end Reckoner.Postfix
