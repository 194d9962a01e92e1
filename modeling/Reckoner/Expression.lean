import Reckoner.Postfix.Evaluate

/-! Expressions as trees, with the place of each number and operator in the text. Main statement: on
the tokens of a tree in postfix order the stack machine finds the value of the tree. -/
namespace Reckoner

inductive Expression where
  | number (n : Numeral) (position : Option Int)
  | unary (o : UnaryOperator) (position : Option Int) (e : Expression)
  | binary (o : BinaryOperator) (position : Option Int) (l r : Expression)
deriving DecidableEq

namespace Expression

/-- Operands first, from left to right. -/
def postorder : Expression → List Token
  | .number n p => [⟨.number n, p⟩]
  | .unary o p e => e.postorder ++ [⟨.operator (.unary o), p⟩]
  | .binary o p l r => l.postorder ++ r.postorder ++ [⟨.operator (.binary o), p⟩]

/-- A failure on the left comes before one on the right, and both before one of the operation. -/
def value : Expression → Except Failure Decimal
  | .number n _ => .ok n.value
  | .unary o _ e => e.value.map o.apply
  | .binary o _ l r => l.value >>= fun a => r.value >>= fun b => o.apply a b

theorem pushAll_postorder (e : Expression) (values : List Decimal) :
    Postfix.pushAll e.postorder values = e.value.map (· :: values) := by
  induction e generalizing values with
  | number n p => rfl
  | unary o p e ih =>
    rw [postorder, Postfix.pushAll_append, ih, value]
    cases e.value <;> rfl
  | binary o p l r ihl ihr =>
    rw [postorder, Postfix.pushAll_append, Postfix.pushAll_append, ihl, value]
    cases l.value with
    | error e => rfl
    | ok a =>
      simp only [Except.map, bind, Except.bind]
      rw [ihr]
      cases r.value with
      | error e => rfl
      | ok b =>
        simp only [Except.map, Postfix.pushAll, Postfix.push, Postfix.applyTop]
        cases o.apply a b <;> rfl

theorem evaluate_postorder (e : Expression) : Postfix.evaluate e.postorder = e.value := by
  rw [Postfix.evaluate, pushAll_postorder]
  cases e.value <;> rfl

end Expression
end Reckoner
