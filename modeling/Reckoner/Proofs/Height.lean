import Reckoner.Expression
import Reckoner.Proofs.Basic

/-! How many values the stack machine holds, which the tokens decide without the values. Main
statement: where the count never falls short, the machine leaves that many values or stops at a
failure of an operation. -/
namespace Reckoner

def FaultKind.isArithmetic : FaultKind → Bool
  | .divisionByZero | .nonIntegerExponent | .exponentOutOfRange | .zeroToNegativePower => true
  | _ => false

/-- The failures of the operations themselves: operands they are not defined at, which are reported
at no position, and numbers outside the limits of the format. -/
def Failure.IsArithmetic : Failure → Prop
  | .fault f => f.position = none ∧ f.kind.isArithmetic = true
  | .limit _ => True
  | _ => False

theorem isArithmetic_unplaced {c : Cause} (h : c.kind.isArithmetic = true) :
    (Failure.unplaced c).IsArithmetic := ⟨rfl, h⟩

theorem isArithmetic_of_mapError_limit {α : Type} {x : Except Decimal.Signal α} {f : Failure}
    (h : x.mapError .limit = .error f) : f.IsArithmetic := by
  cases x with
  | error s => obtain rfl := Except.error.inj h; trivial
  | ok a => cases h

namespace BinaryOperator

theorem isArithmetic_of_wholeExponent {limit : Int} {e : Decimal.Extended} {c : Cause}
    (h : wholeExponent limit e = .error c) : (Failure.unplaced c).IsArithmetic := by
  unfold wholeExponent at h
  split at h
  · split at h
    · obtain rfl := Except.error.inj h
      exact isArithmetic_unplaced rfl
    split at h
    · obtain rfl := Except.error.inj h
      exact isArithmetic_unplaced rfl
    · cases h
  · obtain rfl := Except.error.inj h
    exact isArithmetic_unplaced rfl

theorem isArithmetic_of_divide {a b : Decimal} {f : Failure} (h : divide a b = .error f) :
    f.IsArithmetic := by
  unfold divide at h
  split at h
  · obtain rfl := Except.error.inj h
    exact isArithmetic_unplaced rfl
  · exact isArithmetic_of_mapError_limit h

theorem isArithmetic_of_modulo {a b : Decimal} {f : Failure} (h : modulo a b = .error f) :
    f.IsArithmetic := by
  unfold modulo at h
  split at h
  · obtain rfl := Except.error.inj h
    exact isArithmetic_unplaced rfl
  split at h
  · obtain rfl := Except.error.inj h
    trivial
  · exact isArithmetic_of_mapError_limit h

theorem isArithmetic_of_raise {limit : Int} {a : Decimal} {e : Decimal.Extended} {f : Failure}
    (h : raise limit a e = .error f) : f.IsArithmetic := by
  unfold raise at h
  cases hw : wholeExponent limit e with
  | error c =>
    rw [hw] at h
    obtain rfl := Except.error.inj h
    exact isArithmetic_of_wholeExponent hw
  | ok n =>
    simp only [hw, mapError_ok, bind, Except.bind] at h
    split at h
    · exact isArithmetic_of_mapError_limit h
    split at h
    · obtain rfl := Except.error.inj h
      exact isArithmetic_unplaced rfl
    · cases hp : a.power n.natAbs with
      | error s =>
        rw [hp] at h
        obtain rfl := Except.error.inj h
        trivial
      | ok p =>
        rw [hp] at h
        exact isArithmetic_of_mapError_limit h

theorem isArithmetic_of_apply {o : BinaryOperator} {a b : Decimal} {f : Failure}
    (h : o.apply a b = .error f) : f.IsArithmetic := by
  cases o with
  | add => exact isArithmetic_of_mapError_limit h
  | sub => exact isArithmetic_of_mapError_limit h
  | mul => exact isArithmetic_of_mapError_limit h
  | div => exact isArithmetic_of_divide h
  | mod => exact isArithmetic_of_modulo h
  | pow => exact isArithmetic_of_raise h

end BinaryOperator

namespace Postfix

def heightStep (t : Token) (n : Nat) : Option Nat :=
  match t.symbol with
  | .number _ => some (n + 1)
  | .operator o => if o.arity ≤ n then some (n - o.arity + 1) else none
  | _ => none

def height : List Token → Nat → Option Nat
  | [], n => some n
  | t :: ts, n => heightStep t n >>= height ts

theorem heightStep_operator {t : Token} {o : Operator} (h : t.symbol = .operator o) (n : Nat) :
    heightStep t (n + o.arity) = some (n + 1) := by
  simp only [heightStep, h]
  rw [if_pos (Nat.le_add_left ..), Nat.add_sub_cancel]

theorem height_append (ts us : List Token) (n : Nat) :
    height (ts ++ us) n = height ts n >>= height us := by
  induction ts generalizing n with
  | nil => rfl
  | cons t ts ih =>
    simp only [List.cons_append, height]
    cases heightStep t n with
    | none => rfl
    | some m => exact ih m

theorem height_postorder (e : Expression) (n : Nat) : height e.postorder n = some (n + 1) := by
  induction e generalizing n with
  | number m p => rfl
  | unary o p e ih =>
    rw [Expression.postorder, height_append, ih]
    rfl
  | binary o p l r ihl ihr =>
    rw [Expression.postorder, height_append, height_append, ihl]
    change height r.postorder (n + 1) >>= height _ = _
    rw [ihr]
    simp [height, heightStep, Operator.arity, bind]

theorem push_of_heightStep {t : Token} {values : List Decimal} {n : Nat}
    (h : heightStep t values.length = some n) :
    (∃ f, push t values = .error f ∧ f.IsArithmetic) ∨
      ∃ values', push t values = .ok values' ∧ values'.length = n := by
  unfold heightStep at h
  split at h
  next m hm =>
    obtain rfl := Option.some.inj h
    exact .inr ⟨m.value :: values, by simp [push, hm], rfl⟩
  next o ho =>
    split at h
    case isFalse => cases h
    case isTrue harity =>
      obtain rfl := Option.some.inj h
      rcases o with u | o
      · obtain ⟨a, rest, rfl⟩ := List.exists_cons_of_length_pos harity
        exact .inr ⟨u.apply a :: rest, by simp [push, ho, applyTop], by simp [Operator.arity]⟩
      · obtain ⟨b, a, rest, rfl⟩ := exists_cons_cons_of_length harity
        cases hab : o.apply a b with
        | error f =>
          exact .inl ⟨f, by simp [push, ho, applyTop, hab, Except.map],
            BinaryOperator.isArithmetic_of_apply hab⟩
        | ok v =>
          exact .inr ⟨v :: rest, by simp [push, ho, applyTop, hab, Except.map],
            by simp [Operator.arity]⟩
  next => cases h

/-- The machine leaves as many values as the tokens decide, or an operation fails. -/
theorem pushAll_of_height {ts : List Token} {values : List Decimal} {n : Nat}
    (h : height ts values.length = some n) :
    (∃ f, pushAll ts values = .error f ∧ f.IsArithmetic) ∨
      ∃ values', pushAll ts values = .ok values' ∧ values'.length = n := by
  induction ts generalizing values with
  | nil =>
    obtain rfl := Option.some.inj h
    exact .inr ⟨values, rfl, rfl⟩
  | cons t ts ih =>
    obtain ⟨m, hm, hn⟩ := Option.bind_eq_some_iff.1 h
    rcases push_of_heightStep hm with ⟨f, hf, ha⟩ | ⟨values', hv, rfl⟩
    · exact .inl ⟨f, by simp [pushAll, hf, bind, Except.bind], ha⟩
    · simp only [pushAll, hv, bind, Except.bind]
      exact ih hn

end Postfix
end Reckoner
