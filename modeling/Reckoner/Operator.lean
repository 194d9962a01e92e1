/-! The operators, with what decides how they group: signs bind tighter than products and weaker
than powers, and signs and powers group to the right. -/
namespace Reckoner

inductive Associativity where
  | left | right
deriving DecidableEq

inductive UnaryOperator where
  | pos | neg
deriving DecidableEq

inductive BinaryOperator where
  | add | sub | mul | div | mod | pow
deriving DecidableEq

inductive Operator where
  | unary (o : UnaryOperator)
  | binary (o : BinaryOperator)
deriving DecidableEq

def UnaryOperator.symbol : UnaryOperator → Char
  | .pos => '+'
  | .neg => '-'

def UnaryOperator.ofChar? : Char → Option UnaryOperator
  | '+' => some .pos
  | '-' => some .neg
  | _ => none

@[simp] theorem UnaryOperator.ofChar?_symbol (o : UnaryOperator) : ofChar? o.symbol = some o := by
  cases o <;> rfl

theorem UnaryOperator.symbol_of_ofChar? {c : Char} {o : UnaryOperator} (h : ofChar? c = some o) :
    o.symbol = c := by
  unfold ofChar? at h
  split at h <;> cases h <;> rfl

def BinaryOperator.symbol : BinaryOperator → Char
  | .add => '+'
  | .sub => '-'
  | .mul => '*'
  | .div => '/'
  | .mod => '%'
  | .pow => '^'

def BinaryOperator.ofChar? : Char → Option BinaryOperator
  | '+' => some .add
  | '-' => some .sub
  | '*' => some .mul
  | '/' => some .div
  | '%' => some .mod
  | '^' => some .pow
  | _ => none

@[simp] theorem BinaryOperator.ofChar?_symbol (o : BinaryOperator) : ofChar? o.symbol = some o := by
  cases o <;> rfl

theorem BinaryOperator.symbol_of_ofChar? {c : Char} {o : BinaryOperator} (h : ofChar? c = some o) :
    o.symbol = c := by
  unfold ofChar? at h
  split at h <;> cases h <;> rfl

namespace Operator

def symbol : Operator → Char
  | .unary o => o.symbol
  | .binary o => o.symbol

def lexeme (o : Operator) : String := String.singleton o.symbol

def name : Operator → String
  | .unary .pos => "pos"
  | .unary .neg => "neg"
  | .binary .add => "add"
  | .binary .sub => "sub"
  | .binary .mul => "mul"
  | .binary .div => "div"
  | .binary .mod => "mod"
  | .binary .pow => "pow"

def precedence : Operator → Nat
  | .binary .add | .binary .sub => 1
  | .binary .mul | .binary .div | .binary .mod => 2
  | .unary _ => 3
  | .binary .pow => 4

def associativity : Operator → Associativity
  | .unary _ | .binary .pow => .right
  | .binary _ => .left

def arity : Operator → Nat
  | .unary _ => 1
  | .binary _ => 2

def all : List Operator :=
  [.binary .mod, .binary .mul, .unary .pos, .binary .add, .unary .neg, .binary .sub, .binary .div,
    .binary .pow]

theorem mem_all (o : Operator) : o ∈ all := by
  rcases o with o | o <;> cases o <;> decide

/-- Whether an operator that waits is carried out before one that comes after it. -/
def yieldsTo (waiting next : Operator) : Bool :=
  match next.associativity with
  | .left => next.precedence ≤ waiting.precedence
  | .right => next.precedence < waiting.precedence

end Operator
end Reckoner
