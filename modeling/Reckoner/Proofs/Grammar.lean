import Reckoner.Calculator
import Reckoner.Expression
import Reckoner.Proofs.Moves

/-! The grammar of expressions, with the tree that each derivation stands for. Main statement: the
tokens of a derivation are put into the postfix order of its tree, and the stack machine finds the
value of that tree. -/
namespace Reckoner

inductive Level where
  | expression | term | unary | power | atom
deriving DecidableEq

/-- The least precedence of an operator outside all parentheses. In the exponent of a power there
may be signs. -/
def Level.precedence : Level → Nat
  | .expression => 1
  | .term => 2
  | .unary | .power => 3
  | .atom => 5

/-- Sums and products group to the left, signs and powers to the right. The exponent of a power may
have signs of its own. -/
inductive Derives : Level → List Token → Expression → Prop where
  | number (n : Numeral) (p : Option Int) : Derives .atom [⟨.number n, p⟩] (.number n p)
  | group {ts : List Token} {e : Expression} (a b : String) (p q : Option Int)
      (h : Derives .expression ts e) :
      Derives .atom (⟨.paren .left a, p⟩ :: (ts ++ [⟨.paren .right b, q⟩])) e
  | ofAtom {ts : List Token} {e : Expression} (h : Derives .atom ts e) : Derives .power ts e
  | power {ts us : List Token} {l r : Expression} (p : Option Int)
      (hl : Derives .atom ts l) (hr : Derives .unary us r) :
      Derives .power (ts ++ ⟨.operator (.binary .pow), p⟩ :: us) (.binary .pow p l r)
  | ofPower {ts : List Token} {e : Expression} (h : Derives .power ts e) : Derives .unary ts e
  | sign {ts : List Token} {e : Expression} (o : UnaryOperator) (p : Option Int)
      (h : Derives .unary ts e) :
      Derives .unary (⟨.operator (.unary o), p⟩ :: ts) (.unary o p e)
  | ofUnary {ts : List Token} {e : Expression} (h : Derives .unary ts e) : Derives .term ts e
  | term {ts us : List Token} {l r : Expression} {o : BinaryOperator} (p : Option Int)
      (ho : o = .mul ∨ o = .div ∨ o = .mod) (hl : Derives .term ts l) (hr : Derives .unary us r) :
      Derives .term (ts ++ ⟨.operator (.binary o), p⟩ :: us) (.binary o p l r)
  | ofTerm {ts : List Token} {e : Expression} (h : Derives .term ts e) : Derives .expression ts e
  | expression {ts us : List Token} {l r : Expression} {o : BinaryOperator} (p : Option Int)
      (ho : o = .add ∨ o = .sub) (hl : Derives .expression ts l) (hr : Derives .term us r) :
      Derives .expression (ts ++ ⟨.operator (.binary o), p⟩ :: us) (.binary o p l r)

theorem groups_left_of_product {o : BinaryOperator} (h : o = .mul ∨ o = .div ∨ o = .mod) :
    (Operator.binary o).precedence = Level.term.precedence ∧
      (Operator.binary o).associativity = .left := by
  rcases h with rfl | rfl | rfl <;> exact ⟨rfl, rfl⟩

theorem groups_left_of_sum {o : BinaryOperator} (h : o = .add ∨ o = .sub) :
    (Operator.binary o).precedence = Level.expression.precedence ∧
      (Operator.binary o).associativity = .left := by
  rcases h with rfl | rfl <;> exact ⟨rfl, rfl⟩

namespace Level
open Postfix

def Stops (l : Level) (waiting : List Token) : Prop :=
  ∀ o : BinaryOperator, l.precedence ≤ (Operator.binary o).precedence →
    ∀ t ∈ waiting.head?, leavesFor (.binary o) t = false

def Binds (l : Level) (t : Token) : Prop :=
  ∃ o, t.symbol = .operator o ∧ l.precedence ≤ o.precedence

theorem Stops.mono {l k : Level} {w : List Token} (h : l.Stops w)
    (hk : l.precedence ≤ k.precedence) : k.Stops w :=
  fun o ho => h o (Nat.le_trans hk ho)

theorem Binds.mono {l k : Level} {t : Token} (h : k.Binds t)
    (hk : l.precedence ≤ k.precedence) : l.Binds t := by
  obtain ⟨o, ho, hp⟩ := h
  exact ⟨o, ho, Nat.le_trans hk hp⟩

theorem stops_unary (w : List Token) : Level.unary.Stops w := by
  intro o ho t _
  cases hw : t.operator? with
  | none => simp [leavesFor, hw]
  | some v =>
    rcases v with v | v <;> cases v <;> cases o <;>
      simp_all [leavesFor, Operator.yieldsTo, Operator.associativity, Operator.precedence,
        Level.precedence]

theorem stops_sum {v : BinaryOperator} (hv : v = .add ∨ v = .sub) (p : Option Int)
    (w : List Token) : Level.term.Stops (⟨.operator (.binary v), p⟩ :: w) := by
  intro o ho t ht
  obtain rfl : _ = t := by simpa using ht
  rcases hv with rfl | rfl <;> cases o <;> first | rfl | simp [Level.precedence,
    Operator.precedence] at ho

theorem stops_paren (l : Level) (a : String) (p : Option Int) (w : List Token) :
    l.Stops (⟨.paren .left a, p⟩ :: w) := by
  intro o _ t ht
  obtain rfl : _ = t := by simpa using ht
  rfl

theorem Binds.not_isLeft {l : Level} {t : Token} (h : l.Binds t) : isLeft t = false := by
  obtain ⟨o, ho, _⟩ := h
  simp [isLeft, ho]

theorem Binds.leavesFor {l : Level} {t : Token} {o : BinaryOperator} (h : l.Binds t)
    (ho : (Operator.binary o).precedence = l.precedence)
    (hleft : (Operator.binary o).associativity = .left) : leavesFor (.binary o) t = true := by
  obtain ⟨v, hv, hp⟩ := h
  have hv' : t.operator? = some v := by simp [Token.operator?, hv, Symbol.operator?]
  simp [Postfix.leavesFor, hv', Operator.yieldsTo, hleft, ho, hp]

end Level

namespace Postfix

/-- The state `s'` is reached from `s` by an operand of the tree `e`: what has gone out and what
still waits make up the postfix order, and nothing that waited before has moved. -/
def Reaches (l : Level) (e : Expression) (s s' : State) : Prop :=
  ∃ out pend last, s' = ⟨out.reverse ++ s.output, pend ++ s.waiting, false, some last⟩ ∧
    out ++ pend = e.postorder ∧ (∀ t ∈ pend, l.Binds t) ∧ last.operator? = none

theorem Reaches.mono {l k : Level} {e : Expression} {s s' : State} (h : Reaches k e s s')
    (hk : l.precedence ≤ k.precedence) : Reaches l e s s' := by
  obtain ⟨out, pend, last, hs, he, hp, hl⟩ := h
  exact ⟨out, pend, last, hs, he, fun t ht => (hp t ht).mono hk, hl⟩

theorem Reaches.missingOperand? {l : Level} {e : Expression} {s s' : State}
    (h : Reaches l e s s') : s'.missingOperand? = none := by
  obtain ⟨out, pend, last, rfl, -, -, hl⟩ := h
  simp [State.missingOperand?, hl]

theorem Reaches.step_left {l : Level} {e : Expression} {s s' : State} {o : BinaryOperator}
    (h : Reaches l e s s') (hw : l.Stops s.waiting)
    (ho : (Operator.binary o).precedence = l.precedence)
    (hleft : (Operator.binary o).associativity = .left) (p : Option Int) :
    step ⟨.operator (.binary o), p⟩ s' =
      .ok ⟨e.postorder.reverse ++ s.output, ⟨.operator (.binary o), p⟩ :: s.waiting, true,
        some ⟨.operator (.binary o), p⟩⟩ := by
  obtain ⟨out, pend, last, rfl, he, hp, -⟩ := h
  rw [(Move.operator o pend s.waiting rfl rfl rfl (fun t ht => (hp t ht).leavesFor ho hleft)
    (hw o (Nat.le_of_eq ho.symm))).step_eq]
  simp [← he]

theorem Reaches.step_power {e : Expression} {s s' : State} (h : Reaches .atom e s s')
    (p : Option Int) :
    step ⟨.operator (.binary .pow), p⟩ s' =
      .ok ⟨e.postorder.reverse ++ s.output, ⟨.operator (.binary .pow), p⟩ :: s.waiting, true,
        some ⟨.operator (.binary .pow), p⟩⟩ := by
  obtain ⟨out, pend, last, rfl, he, hp, -⟩ := h
  have hnil : pend = [] := by
    apply List.eq_nil_iff_forall_not_mem.2
    intro t ht
    obtain ⟨o, -, ho⟩ := hp t ht
    rcases o with o | o <;> cases o <;> simp [Level.precedence, Operator.precedence] at ho
  subst hnil
  have hmove : Move ⟨.operator (.binary .pow), p⟩
      ⟨out.reverse ++ s.output, [] ++ s.waiting, false, some last⟩ _ :=
    .operator .pow [] s.waiting rfl rfl rfl (by simp)
      (Level.stops_unary s.waiting .pow (by decide))
  rw [hmove.step_eq]
  simp [← he]

theorem Reaches.binary {l k : Level} {a b : Expression} {s s' : State} {o : BinaryOperator}
    {p : Option Int} {last? : Option Token}
    (h : Reaches k b ⟨a.postorder.reverse ++ s.output, ⟨.operator (.binary o), p⟩ :: s.waiting,
      true, last?⟩ s')
    (hk : l.precedence ≤ k.precedence) (ho : l.precedence ≤ (Operator.binary o).precedence) :
    Reaches l (.binary o p a b) s s' := by
  obtain ⟨out, pend, last, rfl, he, hp, hl⟩ := h
  refine ⟨a.postorder ++ out, pend ++ [⟨.operator (.binary o), p⟩], last, by simp, ?_, ?_, hl⟩
  · simp [Expression.postorder, ← he]
  · intro t ht
    rcases List.mem_append.1 ht with ht | ht
    · exact (hp t ht).mono hk
    · obtain rfl := List.mem_singleton.1 ht
      exact ⟨_, rfl, ho⟩

theorem Reaches.unary {e : Expression} {s s' : State} {o : UnaryOperator} {p : Option Int}
    {last? : Option Token}
    (h : Reaches .unary e ⟨s.output, ⟨.operator (.unary o), p⟩ :: s.waiting, true, last?⟩ s') :
    Reaches .unary (.unary o p e) s s' := by
  obtain ⟨out, pend, last, rfl, he, hp, hl⟩ := h
  refine ⟨out, pend ++ [⟨.operator (.unary o), p⟩], last, by simp, ?_, ?_, hl⟩
  · simp [Expression.postorder, ← he]
  · intro t ht
    rcases List.mem_append.1 ht with ht | ht
    · exact hp t ht
    · obtain rfl := List.mem_singleton.1 ht
      exact ⟨_, rfl, Nat.le_refl _⟩

theorem Reaches.step_right {e : Expression} {s s' : State} {a : String} {p : Option Int}
    {last? : Option Token}
    (h : Reaches .expression e ⟨s.output, ⟨.paren .left a, p⟩ :: s.waiting, true, last?⟩ s')
    (b : String) (q : Option Int) :
    ∃ s'', step ⟨.paren .right b, q⟩ s' = .ok s'' ∧ Reaches .atom e s s'' := by
  have hm := h.missingOperand?
  obtain ⟨out, pend, last, rfl, he, hp, -⟩ := h
  have hmove := (Move.right b pend s.waiting ⟨.paren .left a, p⟩ rfl hm rfl
    (fun t ht => (hp t ht).not_isLeft) rfl : Move ⟨.paren .right b, q⟩ _ _)
  refine ⟨_, hmove.step_eq, e.postorder, [], ⟨.paren .right b, q⟩, ?_, by simp, by simp, rfl⟩
  simp [← he]

theorem run_binary {ts us : List Token} {t : Token} {s s₁ s₂ : State} (h₁ : run ts s = .ok s₁)
    (h₂ : step t s₁ = .ok s₂) : run (ts ++ t :: us) s = run us s₂ := by
  rw [run_append, h₁]
  change step t s₁ >>= run us = _
  rw [h₂]
  rfl

/-- The run over a derivation, whatever waits below it: induction on the derivation. -/
theorem run_derives {l : Level} {ts : List Token} {e : Expression} (h : Derives l ts e) (s : State)
    (hs : s.expectsOperand = true) (hw : l.Stops s.waiting) :
    ∃ s', run ts s = .ok s' ∧ Reaches l e s s' := by
  induction h generalizing s with
  | number n p => exact ⟨_, rfl, [⟨.number n, p⟩], [], _, rfl, rfl, by simp, rfl⟩
  | group a b p q h ih =>
    obtain ⟨s₁, hr, h₁⟩ := ih ⟨s.output, ⟨.paren .left a, p⟩ :: s.waiting, true,
      some ⟨.paren .left a, p⟩⟩ rfl (Level.stops_paren _ a p s.waiting)
    obtain ⟨s₂, hstep, h₂⟩ := h₁.step_right b q
    exact ⟨s₂, run_binary hr hstep, h₂⟩
  | ofAtom h ih =>
    obtain ⟨s', hr, h'⟩ := ih s hs (hw.mono (by decide))
    exact ⟨s', hr, h'.mono (by decide)⟩
  | power p hl hr ihl ihr =>
    obtain ⟨s₁, hr₁, h₁⟩ := ihl s hs (hw.mono (by decide))
    obtain ⟨s₂, hr₂, h₂⟩ := ihr ⟨_, _, true, _⟩ rfl (Level.stops_unary _)
    exact ⟨s₂, (run_binary hr₁ (h₁.step_power p)).trans hr₂, h₂.binary (by decide) (by decide)⟩
  | ofPower h ih =>
    obtain ⟨s', hr, h'⟩ := ih s hs (Level.stops_unary _ |>.mono (by decide))
    exact ⟨s', hr, h'.mono (by decide)⟩
  | sign o p h ih =>
    obtain ⟨s', hr, h'⟩ := ih ⟨s.output, ⟨.operator (.unary o), p⟩ :: s.waiting, true,
      some ⟨.operator (.unary o), p⟩⟩ rfl (Level.stops_unary _)
    refine ⟨s', ?_, h'.unary⟩
    simp only [run, step, hs]
    exact hr
  | ofUnary h ih =>
    obtain ⟨s', hr, h'⟩ := ih s hs (hw.mono (by decide))
    exact ⟨s', hr, h'.mono (by decide)⟩
  | term p ho hl hr ihl ihr =>
    obtain ⟨s₁, hr₁, h₁⟩ := ihl s hs hw
    obtain ⟨hp, ha⟩ := groups_left_of_product ho
    have hstep := h₁.step_left hw hp ha p
    obtain ⟨s₂, hr₂, h₂⟩ := ihr ⟨_, _, true, _⟩ rfl (Level.stops_unary _)
    exact ⟨s₂, (run_binary hr₁ hstep).trans hr₂,
      h₂.binary (by decide) (Nat.le_of_eq hp.symm)⟩
  | ofTerm h ih =>
    obtain ⟨s', hr, h'⟩ := ih s hs (hw.mono (by decide))
    exact ⟨s', hr, h'.mono (by decide)⟩
  | expression p ho hl hr ihl ihr =>
    obtain ⟨s₁, hr₁, h₁⟩ := ihl s hs hw
    obtain ⟨hp, ha⟩ := groups_left_of_sum ho
    have hstep := h₁.step_left hw hp ha p
    obtain ⟨s₂, hr₂, h₂⟩ := ihr ⟨_, _, true, _⟩ rfl (Level.stops_sum ho p _)
    exact ⟨s₂, (run_binary hr₁ hstep).trans hr₂,
      h₂.binary (by decide) (Nat.le_of_eq hp.symm)⟩

theorem Reaches.finish {e : Expression} {s' : State} (h : Reaches .expression e .start s') :
    finish s' = .ok e.postorder := by
  have hm := h.missingOperand?
  obtain ⟨out, pend, last, rfl, he, hp, -⟩ := h
  have hnone : (pend ++ State.start.waiting).find? isLeft = none := by
    rw [List.find?_eq_none]
    intro t ht
    simpa using (hp t (by simpa [State.start] using ht)).not_isLeft
  rw [Postfix.finish, hm]
  simp only [hnone]
  simp [State.start, ← he]

end Postfix

namespace Derives

theorem ofInfix {ts : List Token} {e : Expression} (h : Derives .expression ts e) :
    Postfix.ofInfix ts = .ok e.postorder := by
  have hstart : Level.expression.Stops Postfix.State.start.waiting := by
    simp [Level.Stops, Postfix.State.start]
  obtain ⟨s', hr, h'⟩ := Postfix.run_derives h .start rfl hstart
  rw [Postfix.ofInfix, hr]
  exact h'.finish

/-- The two stages together are the recursive evaluator. -/
theorem ofInfix_and_evaluate {ts : List Token} {e : Expression} (h : Derives .expression ts e) :
    Postfix.ofInfix ts = .ok e.postorder ∧
      Postfix.ofInfix ts >>= Postfix.evaluate = e.value := by
  refine ⟨h.ofInfix, ?_⟩
  rw [h.ofInfix]
  exact e.evaluate_postorder

def signedExponent : List Token :=
  [⟨.number ⟨['2'], none, rfl⟩, some 0⟩, ⟨.operator (.binary .pow), some 1⟩,
    ⟨.operator (.unary .neg), some 2⟩, ⟨.number ⟨['3'], none, rfl⟩, some 3⟩,
    ⟨.operator (.binary .mul), some 4⟩, ⟨.number ⟨['4'], none, rfl⟩, some 5⟩]

def signedExponentTree : Expression :=
  .binary .mul (some 4)
    (.binary .pow (some 1) (.number ⟨['2'], none, rfl⟩ (some 0))
      (.unary .neg (some 2) (.number ⟨['3'], none, rfl⟩ (some 3))))
    (.number ⟨['4'], none, rfl⟩ (some 5))

theorem derives_signedExponent : Derives .expression signedExponent signedExponentTree :=
  .ofTerm (.term (some 4) (.inl rfl)
    (.ofUnary (.ofPower (.power (some 1) (.number _ _)
      (.sign .neg (some 2) (.ofPower (.ofAtom (.number _ _)))))))
    (.ofPower (.ofAtom (.number _ _))))

theorem ofInfix_and_evaluate_signedExponent :
    Derives .expression signedExponent signedExponentTree ∧
      Postfix.ofInfix signedExponent = .ok signedExponentTree.postorder ∧
      Postfix.ofInfix signedExponent >>= Postfix.evaluate = signedExponentTree.value :=
  ⟨derives_signedExponent, ofInfix_and_evaluate derives_signedExponent⟩

theorem ends {l : Level} {ts : List Token} {e : Expression} (h : Derives l ts e) :
    ∃ us t, ts = us ++ [t] ∧ Postfix.endsOperand t = true := by
  induction h with
  | number n p => exact ⟨[], _, rfl, rfl⟩
  | @group ts _ a b p q _ _ => exact ⟨⟨.paren .left a, p⟩ :: ts, _, rfl, rfl⟩
  | ofAtom _ ih => exact ih
  | @power ts us _ _ p _ _ _ ih =>
    obtain ⟨vs, t, rfl, ht⟩ := ih
    exact ⟨ts ++ ⟨.operator (.binary .pow), p⟩ :: vs, t, by simp, ht⟩
  | ofPower _ ih => exact ih
  | sign o p _ ih =>
    obtain ⟨vs, t, rfl, ht⟩ := ih
    exact ⟨⟨.operator (.unary o), p⟩ :: vs, t, rfl, ht⟩
  | ofUnary _ ih => exact ih
  | @term ts us _ _ o p _ _ _ _ ih =>
    obtain ⟨vs, t, rfl, ht⟩ := ih
    exact ⟨ts ++ ⟨.operator (.binary o), p⟩ :: vs, t, by simp, ht⟩
  | ofTerm _ ih => exact ih
  | @expression ts us _ _ o p _ _ _ _ ih =>
    obtain ⟨vs, t, rfl, ht⟩ := ih
    exact ⟨ts ++ ⟨.operator (.binary o), p⟩ :: vs, t, by simp, ht⟩

theorem append_left_term {ts : List Token}
    (hu : ∀ us e, Derives .unary us e → ∃ e', Derives .term (ts ++ us) e')
    {us : List Token} {e : Expression} (h : Derives .term us e) :
    ∃ e', Derives .term (ts ++ us) e' := by
  generalize hl : Level.term = l at h
  induction h with
  | ofUnary h => exact hu _ _ h
  | term p ho _ hr ihl =>
    obtain ⟨e', h'⟩ := ihl rfl
    exact ⟨_, by simpa using Derives.term p ho h' hr⟩
  | _ => cases hl

theorem append_left_expression {ts : List Token}
    (ht : ∀ us e, Derives .term us e → ∃ e', Derives .expression (ts ++ us) e')
    {us : List Token} {e : Expression} (h : Derives .expression us e) :
    ∃ e', Derives .expression (ts ++ us) e' := by
  generalize hl : Level.expression = l at h
  induction h with
  | ofTerm h => exact ht _ _ h
  | expression p ho _ hr ihl =>
    obtain ⟨e', h'⟩ := ihl rfl
    exact ⟨_, by simpa using Derives.expression p ho h' hr⟩
  | _ => cases hl

theorem append_left (ts : List Token)
    (hu : ∀ us e, Derives .unary us e → ∃ e', Derives .term (ts ++ us) e')
    {us : List Token} {e : Expression} (h : Derives .expression us e) :
    ∃ e', Derives .expression (ts ++ us) e' :=
  append_left_expression (fun _ _ ht => (append_left_term hu ht).imp fun _ => .ofTerm) h

theorem sign_expression (o : UnaryOperator) (p : Option Int) {ts : List Token} {e : Expression}
    (h : Derives .expression ts e) :
    ∃ e', Derives .expression (⟨.operator (.unary o), p⟩ :: ts) e' :=
  append_left [⟨.operator (.unary o), p⟩] (fun _ _ hu => ⟨_, .ofUnary (.sign o p hu)⟩) h

theorem operator_expression (o : BinaryOperator) (p : Option Int) {ts us : List Token}
    {a e : Expression} (ha : Derives .atom ts a) (h : Derives .expression us e) :
    ∃ e', Derives .expression (ts ++ ⟨.operator (.binary o), p⟩ :: us) e' := by
  have hu : Derives .unary ts a := .ofPower (.ofAtom ha)
  have hsum : o = .add ∨ o = .sub → ∃ e',
      Derives .expression ((ts ++ [⟨.operator (.binary o), p⟩]) ++ us) e' := fun ho =>
    append_left_expression (fun us e ht =>
      ⟨_, by simpa using Derives.expression p ho (.ofTerm (.ofUnary hu)) ht⟩) h
  have hproduct : o = .mul ∨ o = .div ∨ o = .mod → ∃ e',
      Derives .expression ((ts ++ [⟨.operator (.binary o), p⟩]) ++ us) e' := fun ho =>
    append_left _ (fun us e hr => ⟨_, by simpa using Derives.term p ho (.ofUnary hu) hr⟩) h
  rw [← List.append_cons] at hsum hproduct
  cases o with
  | add => exact hsum (.inl rfl)
  | sub => exact hsum (.inr rfl)
  | mul => exact hproduct (.inl rfl)
  | div => exact hproduct (.inr (.inl rfl))
  | mod => exact hproduct (.inr (.inr rfl))
  | pow =>
    have hpow := append_left (ts ++ [⟨.operator (.binary .pow), p⟩]) (fun us e hr =>
      ⟨_, by simpa using Derives.ofUnary (.ofPower (.power p ha hr))⟩) h
    rwa [← List.append_cons] at hpow

end Derives

theorem evaluate_of_derives {text : String} {ts : List Token} {e : Expression}
    (hs : Token.scan text = .ok ts) (hd : Derives .expression ts e) :
    evaluate (some text) = e.value := by
  simp only [evaluate, Option.getD_some, hs, mapError_ok, bind, Except.bind, hd.ofInfix]
  exact e.evaluate_postorder

end Reckoner
