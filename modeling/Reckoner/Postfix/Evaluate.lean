import Reckoner.Operator.Apply
import Reckoner.Postfix

/-! The value of tokens in postfix order, on a stack of values. -/
namespace Reckoner.Postfix

def applyTop (t : Token) (o : Operator) (values : List Decimal) : Except Failure (List Decimal) :=
  match o, values with
  | .unary u, a :: rest => .ok (u.apply a :: rest)
  | .binary o, b :: a :: rest => (o.apply a b).map (· :: rest)
  | _, _ => .error (.fault ⟨.missingValues t.shown, t.position⟩)

def push (t : Token) (values : List Decimal) : Except Failure (List Decimal) :=
  match t.symbol with
  | .number n => .ok (n.value :: values)
  | .operator o => applyTop t o values
  | _ => .error (.fault ⟨.strayToken t.lexeme, t.position⟩)

def pushAll : List Token → List Decimal → Except Failure (List Decimal)
  | [], values => .ok values
  | t :: ts, values => push t values >>= pushAll ts

theorem pushAll_append (ts us : List Token) (values : List Decimal) :
    pushAll (ts ++ us) values = pushAll ts values >>= pushAll us := by
  induction ts generalizing values with
  | nil => rfl
  | cons t ts ih =>
    simp only [List.cons_append, pushAll]
    cases push t values with
    | error e => rfl
    | ok values' => exact ih values'

def evaluate (ts : List Token) : Except Failure Decimal := do
  match ← pushAll ts [] with
  | [v] => return v
  | [] => throw (.unplaced .noValue)
  | values => throw (.unplaced (.surplusValues values.length (Token.showAll ts)))

end Reckoner.Postfix
