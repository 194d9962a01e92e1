import Mathlib.Data.List.TakeWhile
import Reckoner.Proofs.Nesting
import Reckoner.Proofs.Seams

/-! The placement of tokens: which lists can be put into postfix order, and which fault is found in
the others. Main statement: what is accepted is told from neighbours and from the nesting of
parentheses, and the fault reported is that of the first token out of place; an operator at the end
comes next, and the innermost parenthesis left open comes last. -/
namespace Reckoner

def Token.Known (t : Token) : Prop := ∀ kind lexeme, t.symbol ≠ .other kind lexeme

theorem Token.exists_operator {t : Token} (h : t.operator? ≠ none) :
    ∃ o, t.symbol = .operator o := by
  cases hs : t.symbol <;> simp [operator?, hs, Symbol.operator?] at h ⊢

namespace Postfix

/-- Every token in its place, each condition told from a token and the one directly before it. -/
structure WellPlaced (ts : List Token) : Prop where
  nesting : Balanced ts
  sign : ∀ u t o, [u, t] <:+: ts → t.symbol = .operator (.unary o) → endsOperand u = false
  first : ∀ t ∈ ts.head?, ∀ o, t.symbol ≠ .operator (.binary o)
  operator : ∀ u t o, [u, t] <:+: ts → t.symbol = .operator (.binary o) →
    u.symbol.opensOperand = false
  closing : ∀ u t, [u, t] <:+: ts → isRight t = true → u.operator? = none
  ending : ∀ u ∈ ts.getLast?, u.operator? = none

/-- What is wrong with the token `t` directly after the tokens `ts`: the class of the fault, and the
fault with its position. A missing operand is the fault of the operator that lacks it, and it comes
before a parenthesis that closes nothing. -/
inductive Offends (ts : List Token) (t : Token) : FaultKind → Fault → Prop
  | sign {u : Token} {o : UnaryOperator} (ht : t.symbol = .operator (.unary o))
      (hu : u ∈ ts.getLast?) (he : endsOperand u = true) :
      Offends ts t .invalidOperatorSequence ⟨.signAfterOperand t.lexeme, t.position⟩
  | operator {o : BinaryOperator} (ht : t.symbol = .operator (.binary o))
      (hu : ∀ u ∈ ts.getLast?, u.symbol.opensOperand = true) :
      Offends ts t .invalidOperatorSequence ⟨.operatorWithoutOperand t.lexeme, t.position⟩
  | missing {u : Token} (ht : isRight t = true) (hu : u ∈ ts.getLast?) (ho : u.operator? ≠ none) :
      Offends ts t .invalidOperatorSequence ⟨.missingOperand u.lexeme, u.position⟩
  | surplus (ht : isRight t = true) (hu : ∀ u ∈ ts.getLast?, u.operator? = none)
      (hc : opens (ts ++ [t]) < closes (ts ++ [t])) :
      Offends ts t .mismatchedParentheses ⟨.unmatchedRight, t.position⟩

def Clear (ts : List Token) : Prop :=
  ∀ us t vs k f, ts = us ++ t :: vs → ¬ Offends us t k f

/-- The fault to be reported: that of the first token that offends; else that of an operator at the
end; else that of the last left parenthesis which nothing closes. -/
inductive FirstFault (ts : List Token) : FaultKind → Fault → Prop
  | token {us vs : List Token} {t : Token} {k : FaultKind} {f : Fault} (hts : ts = us ++ t :: vs)
      (hc : Clear us) (h : Offends us t k f) : FirstFault ts k f
  | ending {u : Token} (hc : Clear ts) (hu : u ∈ ts.getLast?) (ho : u.operator? ≠ none) :
      FirstFault ts .invalidOperatorSequence ⟨.missingOperand u.lexeme, u.position⟩
  | unclosed {us vs : List Token} {l : Token} (hc : Clear ts)
      (he : ∀ u ∈ ts.getLast?, u.operator? = none) (hts : ts = us ++ l :: vs)
      (hl : isLeft l = true) (hopen : Covered vs)
      (hlast : ∀ us' l' vs', vs = us' ++ l' :: vs' → isLeft l' = true → ¬ Covered vs') :
      FirstFault ts .mismatchedParentheses ⟨.unclosedLeft, l.position⟩

/-! What a state keeps of the tokens that led to it. -/

section Reached
variable {ts : List Token} {s : State} (hr : run ts .start = .ok s)
include hr

theorem last_eq : s.last = ts.getLast? := by
  rw [run_last hr, State.start, Option.or_none]

theorem expectsOperand_eq : s.expectsOperand = ts.getLast?.elim true (·.symbol.opensOperand) := by
  rw [(State.sound_start.run hr).expects, last_eq hr]

theorem expectsOperand_iff :
    s.expectsOperand = true ↔ ∀ u ∈ ts.getLast?, u.symbol.opensOperand = true := by
  rw [expectsOperand_eq hr]
  cases ts.getLast? <;> simp

theorem not_expectsOperand_iff :
    s.expectsOperand = false ↔ ∃ u ∈ ts.getLast?, endsOperand u = true := by
  have hends := (State.sound_start.run hr).ends
  rw [last_eq hr] at hends
  rw [expectsOperand_eq hr]
  cases hl : ts.getLast? with
  | none => simp
  | some u => simp [hends u hl]

theorem missingOperand?_eq_none_iff :
    s.missingOperand? = none ↔ ∀ u ∈ ts.getLast?, u.operator? = none := by
  rw [State.missingOperand?, last_eq hr]
  cases ts.getLast? <;> simp

theorem missingOperand?_eq_some_iff {f : Fault} : s.missingOperand? = some f ↔
    ∃ u ∈ ts.getLast?, u.operator? ≠ none ∧ f = ⟨.missingOperand u.lexeme, u.position⟩ := by
  rw [State.missingOperand?, last_eq hr]
  cases ts.getLast? with
  | none => simp
  | some u =>
    cases ho : u.operator? with
    | none => simp [ho]
    | some o => simp [ho, eq_comm]

theorem surplus_iff {t : Token} (ht : isRight t = true) :
    opens (ts ++ [t]) < closes (ts ++ [t]) ↔ s.waiting.filter isLeft = [] := by
  have hcount := (nested_run hr).opens_eq
  rw [opens_append, closes_append, (opens_right ht).1, (opens_right ht).2,
    ← List.length_eq_zero_iff]
  omega

end Reached

theorem close_eq_error_iff {t : Token} {s : State} {e : Failure} : close t s = .error e ↔
    s.waiting.filter isLeft = [] ∧ e = .fault ⟨.unmatchedRight, t.position⟩ := by
  have hnil : s.waiting.dropWhile (!isLeft ·) = [] ↔ s.waiting.filter isLeft = [] := by
    simp [List.dropWhile_eq_nil_iff, List.filter_eq_nil_iff]
  rw [← hnil, close]
  split
  · next h => simp [h, eq_comm]
  · next h => simp [h]

theorem Offends.step_eq {ts : List Token} {t : Token} {s : State} {k : FaultKind} {f : Fault}
    (h : Offends ts t k f) (hr : run ts .start = .ok s) : step t s = .error (.fault f) := by
  cases h with
  | sign ht hu he =>
    have hs := (not_expectsOperand_iff hr).2 ⟨_, hu, he⟩
    simp [step, ht, hs]
  | operator ht hu =>
    have hs := (expectsOperand_iff hr).2 hu
    simp [step, ht, hs]
  | missing ht hu ho =>
    obtain ⟨b, hb⟩ := isRight_iff.1 ht
    have hm := (missingOperand?_eq_some_iff hr).2 ⟨_, hu, ho, rfl⟩
    simp [step, hb, hm]
  | surplus ht hu hc =>
    obtain ⟨b, hb⟩ := isRight_iff.1 ht
    have hm := (missingOperand?_eq_none_iff hr).2 hu
    have hclose := (close_eq_error_iff (t := t)).2 ⟨(surplus_iff hr ht).1 hc, rfl⟩
    simp [step, hb, hm, hclose]

theorem offends_of_step {ts : List Token} {t : Token} {s : State} {e : Failure} (ht : t.Known)
    (hr : run ts .start = .ok s) (h : step t s = .error e) :
    ∃ f, e = .fault f ∧ Offends ts t f.kind f := by
  unfold step at h
  split at h
  next => cases h
  next => cases h
  next b hb =>
    have hright := isRight_iff.2 ⟨b, hb⟩
    split at h
    next f hm =>
      obtain rfl := Except.error.inj h
      obtain ⟨u, hu, ho, rfl⟩ := (missingOperand?_eq_some_iff hr).1 hm
      exact ⟨_, rfl, .missing hright hu ho⟩
    next hm =>
      obtain ⟨hnil, rfl⟩ := close_eq_error_iff.1 h
      exact ⟨_, rfl, .surplus hright ((missingOperand?_eq_none_iff hr).1 hm)
        ((surplus_iff hr hright).2 hnil)⟩
  next o ho =>
    split at h
    · cases h
    next hs =>
      obtain rfl := Except.error.inj h
      obtain ⟨u, hu, he⟩ := (not_expectsOperand_iff hr).1 (by simpa using hs)
      exact ⟨_, rfl, .sign ho hu he⟩
  next o ho =>
    split at h
    next hs =>
      obtain rfl := Except.error.inj h
      exact ⟨_, rfl, .operator ho ((expectsOperand_iff hr).1 hs)⟩
    · cases h
  next kind lexeme ho => exact absurd ho (ht kind lexeme)

theorem clear_of_run {ts : List Token} {s : State} (h : run ts .start = .ok s) : Clear ts := by
  rintro us t vs k f rfl ho
  obtain ⟨s₁, hr, h₁⟩ := run_append_eq_ok h
  obtain ⟨s₂, hm, -⟩ := run_cons_eq_ok h₁
  have herror := ho.step_eq hr
  rw [hm.step_eq] at herror
  cases herror

theorem run_eq_error_of_offends {us vs : List Token} {t : Token} {s : State} {k : FaultKind}
    {f : Fault} (hr : run us .start = .ok s) (h : Offends us t k f) :
    run (us ++ t :: vs) .start = .error (.fault f) := by
  rw [run_append, hr]
  change step t s >>= run vs = _
  rw [h.step_eq hr]
  rfl

/-- A run stops at the first token that offends: induction from the right. -/
theorem run_outcome {ts : List Token} (hk : ∀ t ∈ ts, t.Known) :
    (∃ s, run ts .start = .ok s) ∨ ∃ us t vs f, ts = us ++ t :: vs ∧ Clear us ∧
      Offends us t f.kind f ∧ run ts .start = .error (.fault f) := by
  induction ts using List.reverseRecOn with
  | nil => exact .inl ⟨_, rfl⟩
  | append_singleton ts t ih =>
    obtain ⟨s, hr⟩ | ⟨us, u, vs, f, rfl, hc, ho, hf⟩ := ih fun u hu => hk u (by simp [hu])
    · cases hstep : step t s with
      | ok s' =>
        refine .inl ⟨s', ?_⟩
        rw [run_append, hr]
        change step t s >>= run [] = _
        rw [hstep]
        rfl
      | error e =>
        obtain ⟨f, rfl, ho⟩ := offends_of_step (hk t (by simp)) hr hstep
        exact .inr ⟨ts, t, [], f, rfl, clear_of_run hr, ho, run_eq_error_of_offends hr ho⟩
    · refine .inr ⟨us, u, vs ++ [t], f, by simp, hc, ho, ?_⟩
      rw [run_append, hf]
      rfl

theorem exists_run_of_clear {ts : List Token} (hk : ∀ t ∈ ts, t.Known) (hc : Clear ts) :
    ∃ s, run ts .start = .ok s := by
  obtain h | ⟨us, t, vs, f, hts, -, ho, -⟩ := run_outcome hk
  · exact h
  · exact absurd ho (hc us t vs _ f hts)

theorem Nested.innermost {ts ls : List Token} {l : Token} (h : Nested ts (l :: ls)) :
    ∃ us vs, ts = us ++ l :: vs ∧ isLeft l = true ∧ Covered vs ∧
      ∀ us' l' vs', vs = us' ++ l' :: vs' → isLeft l' = true → ¬ Covered vs' := by
  cases h with
  | @opened us vs ls l h hl hv =>
    refine ⟨us, vs, rfl, hl, hv.covered, ?_⟩
    rintro us' l' vs' rfl hl'
    exact hv.not_covered hl'

theorem innermost_unique {us vs us' vs' : List Token} {l l' : Token}
    (h : us ++ l :: vs = us' ++ l' :: vs') (hl : isLeft l = true) (hl' : isLeft l' = true)
    (hv : Covered vs) (hv' : Covered vs')
    (hlast : ∀ ws m xs, vs = ws ++ m :: xs → isLeft m = true → ¬ Covered xs)
    (hlast' : ∀ ws m xs, vs' = ws ++ m :: xs → isLeft m = true → ¬ Covered xs) : l = l' := by
  obtain ⟨ws, -, hws⟩ | ⟨ws, -, hws⟩ := List.append_eq_append_iff.1 h
  · cases ws with
    | nil => exact (List.cons.inj hws).1
    | cons w ws => exact absurd hv' (hlast ws l' vs' (List.cons.inj hws).2 hl')
  · cases ws with
    | nil => exact (List.cons.inj hws).1.symm
    | cons w ws => exact absurd hv (hlast' ws l vs (List.cons.inj hws).2 hl)

section Reached
variable {ts : List Token} {s : State} (hr : run ts .start = .ok s)
include hr

theorem finish_of_ending {u : Token} (hu : u ∈ ts.getLast?) (ho : u.operator? ≠ none) :
    finish s = .error (.fault ⟨.missingOperand u.lexeme, u.position⟩) := by
  rw [finish, (missingOperand?_eq_some_iff hr).2 ⟨u, hu, ho, rfl⟩]

theorem finish_of_nested (he : ∀ u ∈ ts.getLast?, u.operator? = none) :
    (∃ out, finish s = .ok out ∧ Nested ts []) ∨
      ∃ l ls, finish s = .error (.fault ⟨.unclosedLeft, l.position⟩) ∧ Nested ts (l :: ls) := by
  have hn := nested_run hr
  rw [finish, (missingOperand?_eq_none_iff hr).2 he, ← List.head?_filter]
  cases hw : s.waiting.filter isLeft with
  | nil => exact .inl ⟨_, rfl, hw ▸ hn⟩
  | cons l ls => exact .inr ⟨l, ls, rfl, hw ▸ hn⟩

end Reached

theorem ofInfix_of_run {ts : List Token} {s : State} (hr : run ts .start = .ok s) :
    ofInfix ts = finish s := by
  rw [ofInfix, hr]
  rfl

theorem Clear.wellPlaced {ts : List Token} (hc : Clear ts) (hb : Balanced ts)
    (he : ∀ u ∈ ts.getLast?, u.operator? = none) : WellPlaced ts where
  nesting := hb
  sign := by
    rintro u t o ⟨us, vs, rfl⟩ ht
    refine Bool.eq_false_iff.2 fun hu => hc (us ++ [u]) t vs _ _ (by simp) (.sign ht ?_ hu)
    simp
  first := by
    intro t ht o ho
    obtain ⟨vs, rfl⟩ := List.head?_eq_some_iff.1 ht
    exact hc [] t vs _ _ rfl (.operator ho (by simp))
  operator := by
    rintro u t o ⟨us, vs, rfl⟩ ht
    refine Bool.eq_false_iff.2 fun hu => hc (us ++ [u]) t vs _ _ (by simp) (.operator ht ?_)
    simpa using hu
  closing := by
    rintro u t ⟨us, vs, rfl⟩ ht
    by_contra hu
    exact hc (us ++ [u]) t vs _ _ (by simp) (.missing ht (by simp) hu)
  ending := he

theorem WellPlaced.clear {ts : List Token} (h : WellPlaced ts) : Clear ts := by
  rintro us t vs k f rfl ho
  have hnext : ∀ u ∈ us.getLast?, [u, t] <:+: us ++ t :: vs := by
    intro u hu
    obtain ⟨ws, rfl⟩ := List.getLast?_eq_some_iff.1 hu
    exact ⟨ws, vs, by simp⟩
  cases ho with
  | sign ht hu he =>
    have hno := h.sign _ t _ (hnext _ hu) ht
    rw [he] at hno
    cases hno
  | operator ht hu =>
    cases hl : us.getLast? with
    | none =>
      obtain rfl := List.getLast?_eq_none_iff.1 hl
      exact h.first t rfl _ ht
    | some u =>
      have hno := h.operator u t _ (hnext u hl) ht
      rw [hu u hl] at hno
      cases hno
  | missing ht hu ho => exact ho (h.closing _ t (hnext _ hu) ht)
  | surplus ht hu hc =>
    have hle := h.nesting.covered (us ++ [t]) ⟨vs, by simp⟩
    omega

theorem ofInfix_cases {ts : List Token} (hk : ∀ t ∈ ts, t.Known) :
    (∃ out, ofInfix ts = .ok out ∧ WellPlaced ts) ∨
      ∃ f, ofInfix ts = .error (.fault f) ∧ FirstFault ts f.kind f := by
  obtain ⟨s, hr⟩ | ⟨us, t, vs, f, hts, hc, ho, hf⟩ := run_outcome hk
  · have hc := clear_of_run hr
    rw [ofInfix_of_run hr]
    by_cases he : ∀ u ∈ ts.getLast?, u.operator? = none
    · obtain ⟨out, hout, hn⟩ | ⟨l, ls, hl, hn⟩ := finish_of_nested hr he
      · exact .inl ⟨out, hout, hc.wellPlaced (hn.balanced_iff.2 rfl) he⟩
      · obtain ⟨us, vs, hts, hleft, hopen, hlast⟩ := hn.innermost
        exact .inr ⟨_, hl, .unclosed hc he hts hleft hopen hlast⟩
    · push Not at he
      obtain ⟨u, hu, ho⟩ := he
      exact .inr ⟨_, finish_of_ending hr hu ho, .ending hc hu ho⟩
  · refine .inr ⟨f, ?_, .token hts hc ho⟩
    rw [ofInfix, hf]
    rfl

theorem FirstFault.ofInfix_eq {ts : List Token} {k : FaultKind} {f : Fault}
    (hk : ∀ t ∈ ts, t.Known) (h : FirstFault ts k f) : ofInfix ts = .error (.fault f) := by
  cases h with
  | token hts hc ho =>
    subst hts
    obtain ⟨s, hr⟩ := exists_run_of_clear (fun t ht => hk t (by simp [ht])) hc
    rw [ofInfix, run_eq_error_of_offends hr ho]
    rfl
  | ending hc hu ho =>
    obtain ⟨s, hr⟩ := exists_run_of_clear hk hc
    rw [ofInfix_of_run hr, finish_of_ending hr hu ho]
  | unclosed hc he hts hl hopen hlast =>
    obtain ⟨s, hr⟩ := exists_run_of_clear hk hc
    rw [ofInfix_of_run hr]
    obtain ⟨out, -, hn⟩ | ⟨l', ls, hl', hn⟩ := finish_of_nested hr he
    · have hb := hn.balanced_iff.2 rfl
      exact absurd hopen ((hts ▸ hb).not_covered hl)
    · obtain ⟨us', vs', hts', hleft', hopen', hlast'⟩ := hn.innermost
      rw [hl', innermost_unique (hts.symm.trans hts') hl hleft' hopen hopen' hlast hlast']

/-- Of the tokens that expressions have, just the lists with every token in its place are put into
postfix order. For the others the first fault is reported, and there is one. -/
theorem ofInfix_outcome {ts : List Token} (hk : ∀ t ∈ ts, t.Known) :
    ((∃ out, ofInfix ts = .ok out) ↔ WellPlaced ts) ∧
      ∀ e, ofInfix ts = .error e ↔ ∃ f, e = .fault f ∧ FirstFault ts f.kind f := by
  refine ⟨⟨fun ⟨out, hout⟩ => ?_, fun hw => ?_⟩, fun e => ⟨fun he => ?_, ?_⟩⟩
  · obtain ⟨-, -, hw⟩ | ⟨f, hf, -⟩ := ofInfix_cases hk
    · exact hw
    · rw [hout] at hf
      cases hf
  · obtain ⟨s, hr⟩ := exists_run_of_clear hk hw.clear
    rw [ofInfix_of_run hr]
    obtain ⟨out, hout, -⟩ | ⟨l, ls, -, hn⟩ := finish_of_nested hr hw.ending
    · exact ⟨out, hout⟩
    · cases hn.balanced_iff.1 hw.nesting
  · obtain ⟨out, hout, -⟩ | ⟨f, hf, hfirst⟩ := ofInfix_cases hk
    · rw [hout] at he
      cases he
    · exact ⟨f, Except.error.inj (he.symm.trans hf), hfirst⟩
  · rintro ⟨f, rfl, hf⟩
    exact hf.ofInfix_eq hk

def twoPlusClosed : List Token :=
  [⟨.paren .left "(", some 0⟩, ⟨.number two, some 1⟩, ⟨.operator (.binary .add), some 2⟩,
    ⟨.paren .right ")", some 3⟩, ⟨.paren .right ")", some 4⟩, ⟨.operator (.binary .mul), some 5⟩,
    ⟨.paren .left "(", some 6⟩]

theorem ofInfix_outcome_two_plus_closed :
    (∀ t ∈ twoPlusClosed, t.Known) ∧ ¬ WellPlaced twoPlusClosed ∧
      FirstFault twoPlusClosed .invalidOperatorSequence ⟨.missingOperand "+", some 2⟩ := by
  have hk : ∀ t ∈ twoPlusClosed, t.Known := by simp [twoPlusClosed, Token.Known]
  obtain ⟨hok, herror⟩ := ofInfix_outcome hk
  have hrun : ofInfix twoPlusClosed = .error (.fault ⟨.missingOperand "+", some 2⟩) := rfl
  refine ⟨hk, fun hw => ?_, ?_⟩
  · obtain ⟨out, hout⟩ := hok.2 hw
    rw [hrun] at hout
    cases hout
  · obtain ⟨f, hf, hfirst⟩ := (herror _).1 hrun
    obtain rfl := Failure.fault.inj hf
    exact hfirst

end Postfix
end Reckoner
