import Reckoner.Postfix.Evaluate

/-! Where the stack machine fails. Main statement: a run fails at the first token that the values
before it do not do for, and a run to the end fails if it does not leave one value. -/
namespace Reckoner.Postfix

/-- `Jams t values e`: the values do not do for the token `t`, and `e` is what is said of it. -/
inductive Jams (t : Token) : List Decimal → Failure → Prop
  | operation {o : BinaryOperator} {a b : Decimal} {rest : List Decimal} {e : Failure}
      (ht : t.symbol = .operator (.binary o)) (h : o.apply a b = .error e) :
      Jams t (b :: a :: rest) e
  | missing {o : Operator} {values : List Decimal} (ht : t.symbol = .operator o)
      (h : values.length < o.arity) :
      Jams t values (.fault ⟨.missingValues t.shown, t.position⟩)
  | stray {values : List Decimal} (hn : ∀ n, t.symbol ≠ .number n)
      (ho : ∀ o, t.symbol ≠ .operator o) :
      Jams t values (.fault ⟨.strayToken t.lexeme, t.position⟩)

theorem Jams.push_eq {t : Token} {values : List Decimal} {e : Failure} (h : Jams t values e) :
    push t values = .error e := by
  cases h with
  | operation ht h => simp only [push, ht, applyTop, h, Except.map]
  | @missing o _ ht h =>
    simp only [push, ht]
    cases o with
    | unary u =>
      obtain rfl := List.length_eq_zero_iff.1 (Nat.lt_one_iff.1 h)
      rfl
    | binary o =>
      obtain _ | ⟨b, _ | ⟨a, rest⟩⟩ := values
      · rfl
      · rfl
      · exact absurd h (by simp [Operator.arity])
  | stray hn ho =>
    unfold push
    split
    next n h => exact absurd h (hn n)
    next o h => exact absurd h (ho o)
    next => rfl

theorem jams_of_push {t : Token} {values : List Decimal} {e : Failure}
    (h : push t values = .error e) : Jams t values e := by
  unfold push at h
  split at h
  next => cases h
  next o ho =>
    unfold applyTop at h
    split at h
    next => cases h
    next o b a rest =>
      cases hab : o.apply a b with
      | ok v => rw [hab] at h; cases h
      | error e' =>
        rw [hab] at h
        obtain rfl := Except.error.inj h
        exact .operation ho hab
    next hunary hbinary =>
      obtain rfl := Except.error.inj h
      refine .missing ho ?_
      cases o with
      | unary u =>
        cases values with
        | nil => exact Nat.zero_lt_one
        | cons a rest => exact (hunary u a rest rfl rfl).elim
      | binary o =>
        obtain _ | ⟨b, _ | ⟨a, rest⟩⟩ := values
        · exact Nat.zero_lt_two
        · exact Nat.one_lt_two
        · exact (hbinary o b a rest rfl rfl).elim
  next hn ho =>
    obtain rfl := Except.error.inj h
    exact .stray hn ho

theorem push_eq_error_iff {t : Token} {values : List Decimal} {e : Failure} :
    push t values = .error e ↔ Jams t values e :=
  ⟨jams_of_push, Jams.push_eq⟩

theorem pushAll_eq_error_iff {ts : List Token} {values : List Decimal} {e : Failure} :
    pushAll ts values = .error e ↔ ∃ before t after values', ts = before ++ t :: after ∧
      pushAll before values = .ok values' ∧ Jams t values' e := by
  constructor
  · intro h
    induction ts generalizing values with
    | nil => cases h
    | cons t ts ih =>
      rw [pushAll] at h
      cases hp : push t values with
      | error e' =>
        rw [hp] at h
        obtain rfl := Except.error.inj h
        exact ⟨[], t, ts, values, rfl, rfl, push_eq_error_iff.1 hp⟩
      | ok values₁ =>
        rw [hp] at h
        obtain ⟨before, u, after, values', rfl, hrun, hjams⟩ := ih h
        exact ⟨t :: before, u, after, values', rfl, by rw [pushAll, hp]; exact hrun, hjams⟩
  · rintro ⟨before, t, after, values', rfl, hrun, hjams⟩
    rw [pushAll_append, hrun]
    simp only [bind, Except.bind, pushAll, push_eq_error_iff.2 hjams]

theorem evaluate_eq_error_iff {ts : List Token} {e : Failure} :
    evaluate ts = .error e ↔ pushAll ts [] = .error e ∨ ∃ values, pushAll ts [] = .ok values ∧
      (values = [] ∧ e = .unplaced .noValue ∨ 1 < values.length ∧
        e = .unplaced (.surplusValues values.length (Token.showAll ts))) := by
  unfold evaluate
  cases pushAll ts [] with
  | error e' => simp [bind, Except.bind]
  | ok values =>
    obtain _ | ⟨a, _ | ⟨b, rest⟩⟩ := values
    · simp [bind, Except.bind, throw, throwThe, MonadExceptOf.throw, eq_comm]
    · simp [bind, Except.bind, pure, Except.pure]
    · simp [bind, Except.bind, throw, throwThe, MonadExceptOf.throw, eq_comm]

end Reckoner.Postfix
