import Reckoner.Proofs.Adjacency
import Reckoner.Proofs.Jams

/-! Lists of tokens read as trees. Main statement: a list that is some tree in postfix order is that
of no other tree and has its value; every other list is refused, at the first token that the number
of values before it does not do for, or else for the number of values left at the end, unless an
operation has failed by then. -/
namespace Reckoner.Postfix

/-- The trees after a token, the latest first, if it finds its operands among them. -/
def join (t : Token) (trees : List Expression) : Option (List Expression) :=
  match t.symbol, trees with
  | .number n, trees => some (.number n t.position :: trees)
  | .operator (.unary o), e :: rest => some (.unary o t.position e :: rest)
  | .operator (.binary o), r :: l :: rest => some (.binary o t.position l r :: rest)
  | _, _ => none

def joinAll : List Token → List Expression → Option (List Expression)
  | [], trees => some trees
  | t :: ts, trees => join t trees >>= joinAll ts

def listing (trees : List Expression) : List Token := trees.reverse.flatMap Expression.postorder

theorem listing_cons (e : Expression) (trees : List Expression) :
    listing (e :: trees) = listing trees ++ e.postorder := by simp [listing]

theorem joinAll_append (ts us : List Token) (trees : List Expression) :
    joinAll (ts ++ us) trees = joinAll ts trees >>= joinAll us := by
  induction ts generalizing trees with
  | nil => rfl
  | cons t ts ih =>
    simp only [List.cons_append, joinAll]
    cases join t trees with
    | none => rfl
    | some trees' => exact ih trees'

theorem joinAll_postorder (e : Expression) (trees : List Expression) :
    joinAll e.postorder trees = some (e :: trees) := by
  induction e generalizing trees with
  | number n p => rfl
  | unary o p e ih =>
    rw [Expression.postorder, joinAll_append, ih]
    rfl
  | binary o p l r ihl ihr =>
    rw [Expression.postorder, joinAll_append, joinAll_append, ihl]
    change joinAll r.postorder (l :: trees) >>= joinAll _ = _
    rw [ihr]
    rfl

theorem postorder_injective {e e' : Expression} (h : e.postorder = e'.postorder) : e = e' := by
  have hjoin := joinAll_postorder e []
  rw [h, joinAll_postorder e' []] at hjoin
  exact (List.cons.inj (Option.some.inj hjoin)).1.symm

theorem listing_join {t : Token} {trees trees' : List Expression}
    (h : join t trees = some trees') : listing trees' = listing trees ++ [t] := by
  obtain ⟨s, p⟩ := t
  unfold join at h
  split at h
  next n hs =>
    obtain rfl : s = .number n := hs
    obtain rfl := Option.some.inj h
    rw [listing_cons, Expression.postorder]
  next o e rest hs =>
    obtain rfl : s = .operator (.unary o) := hs
    obtain rfl := Option.some.inj h
    rw [listing_cons, listing_cons, Expression.postorder, List.append_assoc]
  next o r l rest hs =>
    obtain rfl : s = .operator (.binary o) := hs
    obtain rfl := Option.some.inj h
    simp only [listing_cons, Expression.postorder, List.append_assoc]
  next => cases h

theorem listing_joinAll {ts : List Token} {trees trees' : List Expression}
    (h : joinAll ts trees = some trees') : listing trees' = listing trees ++ ts := by
  induction ts generalizing trees with
  | nil =>
    obtain rfl := Option.some.inj h
    rw [List.append_nil]
  | cons t ts ih =>
    obtain ⟨trees₁, ht, hts⟩ := Option.bind_eq_some_iff.1 h
    rw [ih hts, listing_join ht, List.append_assoc, List.singleton_append]

theorem length_join (t : Token) (trees : List Expression) :
    (join t trees).map List.length = heightStep t trees.length := by
  cases hs : t.symbol with
  | number n => simp [join, heightStep, hs]
  | operator o =>
    rcases o with u | o
    · obtain _ | ⟨e, rest⟩ := trees
      · simp [join, heightStep, hs, Operator.arity]
      · simp [join, heightStep, hs, Operator.arity]
    · obtain _ | ⟨r, _ | ⟨l, rest⟩⟩ := trees
      · simp [join, heightStep, hs, Operator.arity]
      · simp [join, heightStep, hs, Operator.arity]
      · simp [join, heightStep, hs, Operator.arity]
  | paren side a => simp [join, heightStep, hs]
  | other kind a => simp [join, heightStep, hs]

theorem length_joinAll (ts : List Token) (trees : List Expression) :
    (joinAll ts trees).map List.length = height ts trees.length := by
  induction ts generalizing trees with
  | nil => rfl
  | cons t ts ih =>
    rw [joinAll, height, ← length_join]
    cases join t trees with
    | none => rfl
    | some trees' => exact ih trees'

/-- A list that leaves one value is a tree in postfix order. -/
theorem exists_postorder {ts : List Token} (h : height ts 0 = some 1) :
    ∃ e : Expression, e.postorder = ts := by
  have hlength : (joinAll ts []).map List.length = some 1 := (length_joinAll ts []).trans h
  obtain ⟨trees, hjoin, hone⟩ := Option.map_eq_some_iff.1 hlength
  obtain ⟨e, rfl⟩ := List.length_eq_one_iff.1 hone
  have hlisting := listing_joinAll hjoin
  exact ⟨e, by simpa [listing] using hlisting⟩

/-- The token is no part of a tree, or an operator with more operands than there are values. -/
def Unfit (t : Token) (count : Nat) : Prop :=
  (∀ n, t.symbol ≠ .number n) ∧ ∀ o, t.symbol = .operator o → count < o.arity

theorem heightStep_eq_none_iff {t : Token} {n : Nat} : heightStep t n = none ↔ Unfit t n := by
  cases hs : t.symbol with
  | number m => simp [heightStep, Unfit, hs]
  | operator o => simp [heightStep, Unfit, hs]
  | paren side a => simp [heightStep, Unfit, hs]
  | other kind a => simp [heightStep, Unfit, hs]

theorem exists_unfit {ts : List Token} {n : Nat} (h : height ts n = none) :
    ∃ before t after m, ts = before ++ t :: after ∧ height before n = some m ∧ Unfit t m := by
  induction ts generalizing n with
  | nil => cases h
  | cons t ts ih =>
    rw [height] at h
    cases ht : heightStep t n with
    | none => exact ⟨[], t, ts, n, rfl, rfl, heightStep_eq_none_iff.1 ht⟩
    | some m =>
      rw [ht] at h
      obtain ⟨before, u, after, k, rfl, hbefore, hu⟩ := ih h
      refine ⟨t :: before, u, after, k, rfl, ?_, hu⟩
      rw [height, ht]
      exact hbefore

theorem count_of_heightStep {t : Token} {n m : Nat} (h : heightStep t n = some m) :
    m + binaries [t] = n + numbers [t] := by
  cases hs : t.symbol with
  | number k =>
    simp only [heightStep, hs, Option.some.injEq] at h
    simp [binaries, numbers, isNumber, hs, ← h]
  | operator o =>
    simp only [heightStep, hs] at h
    split at h
    case isFalse => cases h
    case isTrue harity =>
      obtain rfl := Option.some.inj h
      rcases o with u | o
      · have hone : 1 ≤ n := harity
        simp [binaries, numbers, isNumber, hs, Operator.arity]
        omega
      · have htwo : 2 ≤ n := harity
        simp [binaries, numbers, isNumber, hs, Operator.arity]
        omega
  | paren side a => simp [heightStep, hs] at h
  | other kind a => simp [heightStep, hs] at h

theorem count_of_height {ts : List Token} {n m : Nat} (h : height ts n = some m) :
    m + binaries ts = n + numbers ts := by
  induction ts generalizing n with
  | nil =>
    obtain rfl := Option.some.inj h
    rfl
  | cons t ts ih =>
    obtain ⟨k, ht, hts⟩ := Option.bind_eq_some_iff.1 h
    have hstep := count_of_heightStep ht
    have hrest := ih hts
    have hb : binaries (t :: ts) = binaries [t] + binaries ts := binaries_append [t] ts
    have hn : numbers (t :: ts) = numbers [t] + numbers ts := numbers_append [t] ts
    omega

/-- Some operation of the list fails with `f` on the values that all before it have left. -/
def OperationFails (ts : List Token) (f : Failure) : Prop :=
  ∃ before t after o a b rest, ts = before ++ t :: after ∧ t.symbol = .operator (.binary o) ∧
    pushAll before [] = .ok (b :: a :: rest) ∧ o.apply a b = .error f

theorem OperationFails.pushAll_eq {ts : List Token} {f : Failure} (h : OperationFails ts f) :
    pushAll ts [] = .error f := by
  obtain ⟨before, t, after, o, a, b, rest, rfl, ht, hrun, hab⟩ := h
  exact pushAll_eq_error_iff.2 ⟨before, t, after, _, rfl, hrun, .operation ht hab⟩

theorem OperationFails.isArithmetic {ts : List Token} {f : Failure} (h : OperationFails ts f) :
    f.IsArithmetic := by
  obtain ⟨before, t, after, o, a, b, rest, -, -, -, hab⟩ := h
  exact BinaryOperator.isArithmetic_of_apply hab

theorem operationFails_of_pushAll {ts : List Token} {n : Nat} {f : Failure}
    (hn : height ts 0 = some n) (h : pushAll ts [] = .error f) : OperationFails ts f := by
  have harithmetic : f.IsArithmetic := by
    obtain ⟨g, hg, ha⟩ | ⟨values, hok, -⟩ := @pushAll_of_height ts [] n hn
    · rw [h] at hg
      exact Except.error.inj hg ▸ ha
    · rw [h] at hok
      cases hok
  obtain ⟨before, t, after, values, rfl, hrun, hjams⟩ := pushAll_eq_error_iff.1 h
  cases hjams with
  | operation ht hab => exact ⟨before, t, after, _, _, _, _, rfl, ht, hrun, hab⟩
  | missing => exact absurd harithmetic.2 (by simp [Fault.kind, Cause.kind, FaultKind.isArithmetic])
  | stray => exact absurd harithmetic.2 (by simp [Fault.kind, Cause.kind, FaultKind.isArithmetic])

theorem pushAll_cases {ts : List Token} {n : Nat} (hn : height ts 0 = some n) :
    (∃ f, OperationFails ts f) ∨
      (∀ f, ¬ OperationFails ts f) ∧ ∃ values, pushAll ts [] = .ok values ∧ values.length = n := by
  obtain ⟨f, hf, -⟩ | ⟨values, hok, hlength⟩ := @pushAll_of_height ts [] n hn
  · exact .inl ⟨f, operationFails_of_pushAll hn hf⟩
  · refine .inr ⟨fun f h => ?_, values, hok, hlength⟩
    rw [h.pushAll_eq] at hok
    cases hok

def complaint (t : Token) : Fault :=
  ⟨match t.operator? with
    | some _ => .missingValues t.shown
    | none => .strayToken t.lexeme, t.position⟩

theorem kind_complaint (t : Token) : (complaint t).kind = .malformedExpression := by
  unfold complaint Fault.kind
  split <;> rfl

theorem Unfit.push_eq {t : Token} {values : List Decimal} (h : Unfit t values.length) :
    push t values = .error (.fault (complaint t)) := by
  cases hs : t.symbol with
  | number n => exact absurd hs (h.1 n)
  | operator o =>
    rw [(Jams.missing hs (h.2 o hs)).push_eq]
    simp [complaint, Token.operator?, hs, Symbol.operator?]
  | paren side a =>
    rw [(Jams.stray (fun n => by simp [hs]) fun o => by simp [hs]).push_eq]
    simp [complaint, Token.operator?, hs, Symbol.operator?]
  | other kind a =>
    rw [(Jams.stray (fun n => by simp [hs]) fun o => by simp [hs]).push_eq]
    simp [complaint, Token.operator?, hs, Symbol.operator?]

theorem evaluate_of_pushAll_error {ts : List Token} {f : Failure} (h : pushAll ts [] = .error f) :
    evaluate ts = .error f := evaluate_eq_error_iff.2 (.inl h)

theorem OperationFails.append {ts : List Token} {f : Failure} (h : OperationFails ts f)
    (us : List Token) : OperationFails (ts ++ us) f := by
  obtain ⟨before, t, after, o, a, b, rest, rfl, ht, hrun, hab⟩ := h
  exact ⟨before, t, after ++ us, o, a, b, rest, by simp, ht, hrun, hab⟩

def surplus (ts : List Token) (n : Nat) : Cause :=
  if n = 0 then .noValue else .surplusValues n (Token.showAll ts)

theorem kind_surplus (ts : List Token) (n : Nat) :
    (surplus ts n).kind = .malformedExpression := by
  unfold surplus
  split <;> rfl

theorem evaluate_of_length_ne_one {ts : List Token} {values : List Decimal}
    (h : pushAll ts [] = .ok values) (hne : values.length ≠ 1) :
    evaluate ts = .error (.unplaced (surplus ts values.length)) := by
  refine evaluate_eq_error_iff.2 (.inr ⟨values, h, ?_⟩)
  by_cases h0 : values.length = 0
  · exact .inl ⟨List.length_eq_zero_iff.1 h0, by rw [surplus, if_pos h0]⟩
  · exact .inr ⟨by omega, by rw [surplus, if_neg h0]⟩

/-- The list ends in the fault `g`, unless one of the operations in `us` fails. -/
def EndsIn (ts us : List Token) (g : Fault) : Prop :=
  (∃ f, OperationFails us f ∧ f.IsArithmetic ∧ evaluate ts = .error f) ∨
    (∀ f, ¬ OperationFails us f) ∧ g.kind = .malformedExpression ∧ evaluate ts = .error (.fault g)

theorem endsIn_of_unfit {before after : List Token} {t : Token} {n : Nat}
    (hn : height before 0 = some n) (ht : Unfit t n) :
    EndsIn (before ++ t :: after) before (complaint t) := by
  obtain ⟨f, hf⟩ | ⟨hno, values, hok, rfl⟩ := pushAll_cases hn
  · exact .inl ⟨f, hf, hf.isArithmetic, evaluate_of_pushAll_error (hf.append _).pushAll_eq⟩
  · refine .inr ⟨hno, kind_complaint t, evaluate_of_pushAll_error ?_⟩
    simp only [pushAll_append, hok, pushAll, bind, Except.bind, ht.push_eq]

theorem endsIn_of_count {ts : List Token} {n : Nat} (hn : height ts 0 = some n) (hne : n ≠ 1) :
    EndsIn ts ts ⟨surplus ts n, none⟩ := by
  obtain ⟨f, hf⟩ | ⟨hno, values, hok, rfl⟩ := pushAll_cases hn
  · exact .inl ⟨f, hf, hf.isArithmetic, evaluate_of_pushAll_error hf.pushAll_eq⟩
  · exact .inr ⟨hno, kind_surplus ts _, evaluate_of_length_ne_one hok hne⟩

/-- The value of a list is that of the tree it is the postfix order of, or the failure of its first
operation that fails. A list that is the postfix order of no tree has no value. -/
theorem evaluate_outcome (ts : List Token) :
    (∃ e : Expression, e.postorder = ts ∧ (∀ e' : Expression, e'.postorder = ts → e' = e) ∧
      evaluate ts = e.value ∧ ∀ f, evaluate ts = .error f → OperationFails ts f ∧ f.IsArithmetic) ∨
    (∀ e : Expression, e.postorder ≠ ts) ∧
      ((∃ before t after n, ts = before ++ t :: after ∧ height before 0 = some n ∧
          n + binaries before = numbers before ∧ Unfit t n ∧ EndsIn ts before (complaint t)) ∨
        ∃ n, height ts 0 = some n ∧ n + binaries ts = numbers ts ∧ n ≠ 1 ∧
          EndsIn ts ts ⟨surplus ts n, none⟩) := by
  -- the count alone tells whether the list is the order of a tree
  cases hheight : height ts 0 with
  | none =>
    obtain ⟨before, t, after, n, rfl, hn, ht⟩ := exists_unfit hheight
    refine .inr ⟨fun e he => ?_, .inl ⟨before, t, after, n, rfl, hn, ?_, ht, endsIn_of_unfit hn ht⟩⟩
    · rw [← he, height_postorder] at hheight
      cases hheight
    · simpa using count_of_height hn
  | some n =>
    by_cases hone : n = 1
    · obtain ⟨e, rfl⟩ := exists_postorder (hone ▸ hheight)
      refine .inl ⟨e, rfl, fun e' => postorder_injective, e.evaluate_postorder, fun f hf => ?_⟩
      have hrun : pushAll e.postorder [] = .error f := by
        rw [e.evaluate_postorder] at hf
        rw [e.pushAll_postorder, hf, Except.map]
      have hfails := operationFails_of_pushAll hheight hrun
      exact ⟨hfails, hfails.isArithmetic⟩
    · refine .inr ⟨fun e he => ?_, .inr ⟨n, rfl, ?_, hone, endsIn_of_count hheight hone⟩⟩
      · rw [← he, height_postorder] at hheight
        exact hone (Option.some.inj hheight).symm
      · simpa using count_of_height hheight

end Reckoner.Postfix
