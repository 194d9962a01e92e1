import Reckoner.Proofs.Messages
import Reckoner.Proofs.Overflow

/-! Which texts are reported on. Main statement: every text has a report, with a value or with a
fault, unless a number on the way to its value or the value in print is too much for the format. -/
namespace Reckoner

namespace Decimal

/-- The number has more digits down to the lowest place of the scale than any precision holds, or
the scale is wider than any shift. -/
def TooLong (q : ℚ) (scale : Nat) : Prop :=
  widestShift < scale ∨ q ≠ 0 ∧ fullPrecision ≤ Int.log 10 |q| - displayPlace scale

theorem exceedsPrecision_iff_log {d : Decimal} {e : Int} :
    d.exceedsPrecision e = true ↔ d.toRat ≠ 0 ∧ fullPrecision ≤ Int.log 10 |d.toRat| - e := by
  have hzero : d.toRat ≠ 0 ↔ d.coefficient ≠ 0 := toRat_eq_zero_iff.not
  rw [exceedsPrecision_iff, hzero]
  refine and_congr_right fun hc => ?_
  rw [log_abs_toRat hc, adjusted]
  omega

theorem format_eq_error_iff {d : Decimal} {scale : Nat} {s : Signal} :
    d.format scale = .error s ↔ s = .invalidOperation ∧ TooLong d.toRat scale := by
  have hlong : (widestShift < scale ∨ d.exceedsPrecision (displayPlace scale) = true) ↔
      TooLong d.toRat scale := or_congr_right exceedsPrecision_iff_log
  rw [format]
  split_ifs with h
  · simp [hlong.1 h, eq_comm]
  · simp [mt hlong.2 h]

end Decimal

open Decimal (Signal)

/-- The failures that the text of an expression can lead to. -/
def Failure.OfExpression : Failure → Prop
  | .fault _ | .limit _ => True
  | _ => False

theorem Failure.IsArithmetic.ofExpression {e : Failure} (h : e.IsArithmetic) : e.OfExpression := by
  cases e with
  | fault | limit => trivial
  | _ => exact h

namespace Postfix

theorem Jams.ofExpression {t : Token} {values : List Decimal} {e : Failure}
    (h : Jams t values e) : e.OfExpression := by
  cases h with
  | operation _ h => exact (BinaryOperator.isArithmetic_of_apply h).ofExpression
  | missing | stray => trivial

theorem ofExpression_of_evaluate {ts : List Token} {e : Failure} (h : evaluate ts = .error e) :
    e.OfExpression := by
  obtain hrun | ⟨values, -, ⟨-, rfl⟩ | ⟨-, rfl⟩⟩ := evaluate_eq_error_iff.1 h
  · obtain ⟨before, t, after, values, -, -, hjams⟩ := pushAll_eq_error_iff.1 hrun
    exact hjams.ofExpression
  · trivial
  · trivial

theorem evaluate_eq_limit_iff {ts : List Token} {s : Signal} :
    evaluate ts = .error (.limit s) ↔ ∃ before t after o a b rest,
      ts = before ++ t :: after ∧ t.symbol = .operator (.binary o) ∧
        pushAll before [] = .ok (b :: a :: rest) ∧ o.Strains a b s := by
  rw [evaluate_eq_error_iff, pushAll_eq_error_iff]
  constructor
  · rintro (⟨before, t, after, values, rfl, hrun, hjams⟩ | ⟨values, -, ⟨-, he⟩ | ⟨-, he⟩⟩)
    · cases hjams with
      | operation ht h =>
        exact ⟨before, t, after, _, _, _, _, rfl, ht, hrun, BinaryOperator.apply_eq_limit_iff.1 h⟩
    · cases he
    · cases he
  · rintro ⟨before, t, after, o, a, b, rest, rfl, ht, hrun, hs⟩
    exact .inl ⟨before, t, after, _, rfl, hrun,
      .operation ht (BinaryOperator.apply_eq_limit_iff.2 hs)⟩

end Postfix

namespace Calculator

/-- The calculator is stopped by the signal `s`: at an operator, once the values to the left of it
in postfix order have been found, or when the value is printed. -/
inductive Stopped (k : Calculator) (text : Option String) : Signal → Prop
  | operation {ts before after : List Token} {t : Token} {o : BinaryOperator} {a b : Decimal}
      {rest : List Decimal} {s : Signal} (hscan : Token.scan (text.getD "") = .ok ts)
      (hout : Postfix.ofInfix ts = .ok (before ++ t :: after))
      (ht : t.symbol = .operator (.binary o))
      (hrun : Postfix.pushAll before [] = .ok (b :: a :: rest)) (h : o.Strains a b s) :
      Stopped k text s
  | printing {v : Decimal} (hv : evaluate text = .ok v) (h : Decimal.TooLong v.toRat k.scale) :
      Stopped k text .invalidOperation

theorem calculate_eq_limit_iff {k : Calculator} {text : Option String} {s : Signal} :
    k.calculate text = .error (.limit s) ↔ k.Stopped text s := by
  constructor
  · intro h
    obtain ⟨ts, out, hscan, hout, heval⟩ | ⟨f, -, hf⟩ := evaluate_cases text
    · cases hv : evaluate text with
      | ok v =>
        rw [calculate_of_evaluate hv, BinaryOperator.mapError_limit_eq_iff,
          Decimal.format_eq_error_iff] at h
        obtain ⟨rfl, h⟩ := h
        exact .printing hv h
      | error e =>
        rw [calculate_of_evaluate_error hv] at h
        rw [Except.error.inj h, heval, Postfix.evaluate_eq_limit_iff] at hv
        obtain ⟨before, t, after, o, a, b, rest, rfl, ht, hrun, hs⟩ := hv
        exact .operation hscan hout ht hrun hs
    · rw [calculate_of_evaluate_error hf] at h
      cases h
  · intro h
    cases h with
    | operation hscan hout ht hrun hs =>
      refine calculate_of_evaluate_error ?_
      simp only [evaluate, hscan, mapError_ok, hout, bind, Except.bind]
      exact Postfix.evaluate_eq_limit_iff.2 ⟨_, _, _, _, _, _, _, rfl, ht, hrun, hs⟩
    | printing hv h =>
      rw [calculate_of_evaluate hv, BinaryOperator.mapError_limit_eq_iff,
        Decimal.format_eq_error_iff]
      exact ⟨rfl, h⟩

theorem ofExpression_of_calculate {k : Calculator} {text : Option String} {e : Failure}
    (h : k.calculate text = .error e) : e.OfExpression := by
  cases hv : evaluate text with
  | ok v =>
    rw [calculate_of_evaluate hv] at h
    exact (isArithmetic_of_mapError_limit h).ofExpression
  | error e' =>
    rw [calculate_of_evaluate_error hv] at h
    obtain rfl := Except.error.inj h
    obtain ⟨ts, out, -, -, heval⟩ | ⟨f, -, hf⟩ := evaluate_cases text
    · exact Postfix.ofExpression_of_evaluate (heval ▸ hv)
    · rw [hf] at hv
      obtain rfl := Except.error.inj hv
      trivial

/-- What is not reported is a limit, and the calculator is stopped by it. -/
theorem report_eq_error_iff {k : Calculator} {text : Option String} {e : Failure} :
    k.report text = .error e ↔ ∃ s, e = .limit s ∧ k.Stopped text s := by
  rw [report]
  cases hc : k.calculate text with
  | ok v => simp [← calculate_eq_limit_iff, hc]
  | error e' =>
    have hof := ofExpression_of_calculate hc
    cases e' with
    | fault f => simp [← calculate_eq_limit_iff, hc]
    | limit s => simp [← calculate_eq_limit_iff, hc, eq_comm]
    | _ => exact hof.elim

theorem report_of_calculate_limit {k : Calculator} {text : Option String} {s : Signal}
    (h : k.calculate text = .error (.limit s)) : k.report text = .error (.limit s) :=
  report_eq_error_iff.2 ⟨s, rfl, calculate_eq_limit_iff.1 h⟩

theorem row_of_report {k : Calculator} {text : Option String} {r : Report}
    (h : k.report text = .ok r) : (∃ v, Batch.row r = [text, some v, none, none]) ∨
      ∃ kind message, Batch.row r = [text, none, some kind, some message] := by
  unfold report at h
  split at h
  next v _ => exact .inl ⟨v, Except.ok.inj h ▸ rfl⟩
  next f _ => exact .inr ⟨f.kind.name, f.message, Except.ok.inj h ▸ rfl⟩
  next => cases h

end Calculator

namespace Session

theorem converse_eq_error (s : Session) {t : Tally} {lines : List String} {e : Failure}
    (h : s.converse t lines = .error e) :
    ∃ line ∈ heard lines, s.calculator.report (some (Text.trim line)) = .error e := by
  induction lines generalizing t with
  | nil => cases h
  | cons line rest ih =>
    cases hstay : asksToLeave line with
    | true =>
      rw [s.converse_leave t rest hstay] at h
      cases h
    | false =>
      rw [heard_stay rest hstay, List.exists_mem_cons_iff]
      by_cases hblank : Text.trim line = ""
      · rw [converse_blank s t rest hstay hblank, map_eq_error_iff] at h
        exact .inr (ih h)
      · rw [converse_text s t rest hstay hblank] at h
        cases hr : s.calculator.report (some (Text.trim line)) with
        | error e' =>
          rw [hr] at h
          exact .inl (congrArg _ (Except.error.inj h))
        | ok r =>
          rw [hr] at h
          exact .inr (ih (map_eq_error_iff.1 h))

theorem run_eq_error (s : Session) {lines : List String} {e : Failure}
    (h : s.run lines = .error e) :
    (e = .tooManyDigits ∧ pow10 Text.mostDigits ≤ s.calculator.scale) ∨
      ∃ line ∈ heard lines, s.calculator.report (some (Text.trim line)) = .error e := by
  rcases Nat.lt_or_ge s.calculator.scale (pow10 Text.mostDigits) with hscale | hscale
  · cases hrun : s.converse ⟨0, 0⟩ lines with
    | ok r =>
      rw [run_of_converse hscale hrun] at h
      cases h
    | error e' =>
      rw [run, opening_eq_ok hscale] at h
      simp only [hrun, bind, Except.bind] at h
      exact .inr (converse_eq_error s (hrun.trans h))
  · rw [run_of_long_scale hscale] at h
    exact .inl ⟨(Except.error.inj h).symm, hscale⟩

end Session

/-- Every text is reported on with a value or with a fault, unless the calculator is stopped at the
limits of the format. Nothing else ends a batch too soon, nor a dialogue that can start at all. -/
theorem Calculator.report_outcome (k : Calculator) :
    (∀ text, (∃ s, k.report text = .error (.limit s) ∧ k.Stopped text s) ∨
      (∀ s, ¬ k.Stopped text s) ∧ ∃ r, k.report text = .ok r ∧
        ((∃ v, Batch.row r = [text, some v, none, none]) ∨
          ∃ kind message, Batch.row r = [text, none, some kind, some message])) ∧
    (∀ texts e, Batch.evaluate k texts = .error e →
      ∃ text ∈ texts, ∃ s, e = .limit s ∧ k.Stopped text s) ∧
    ∀ prompt banner lines e, (Session.mk k prompt banner).run lines = .error e →
      (e = .tooManyDigits ∧ pow10 Text.mostDigits ≤ k.scale) ∨
        ∃ line ∈ Session.heard lines, ∃ s, e = .limit s ∧ k.Stopped (some (Text.trim line)) s := by
  refine ⟨fun text => ?_, fun texts e h => ?_, fun prompt banner lines e h => ?_⟩
  · cases hr : k.report text with
    | error e =>
      obtain ⟨s, rfl, h⟩ := report_eq_error_iff.1 hr
      exact .inl ⟨s, rfl, h⟩
    | ok r =>
      refine .inr ⟨fun s hs => ?_, r, rfl, row_of_report hr⟩
      rw [report_eq_error_iff.2 ⟨s, rfl, hs⟩] at hr
      cases hr
  · obtain ⟨text, hmem, herr⟩ := exists_of_mapM_eq_error h
    exact ⟨text, hmem, report_eq_error_iff.1 herr⟩
  · obtain hlong | ⟨line, hmem, herr⟩ := Session.run_eq_error _ h
    · exact .inl hlong
    · exact .inr ⟨line, hmem, report_eq_error_iff.1 herr⟩

/-- Not every text is reported on. At some scales that calculators can be made for a single digit is
too much, and at the standard one a tower of powers. -/
theorem Calculator.not_reported :
    (∃ k, Calculator.ofLiteral (.whole 999999999999999999) = .ok k ∧
      k.report (some "1") = .error (.limit .invalidOperation)) ∧
    ∃ k, Calculator.ofLiteral .absent = .ok k ∧
      k.report (some "(1/(((0.1^10000)^10000)^10000)^10000)^10000") =
        .error (.limit .overflow) :=
  ⟨⟨⟨999999999999999999⟩, rfl, report_of_calculate_limit (by decide +kernel)⟩,
    standard, rfl, report_of_calculate_limit (by decide +kernel)⟩

end Reckoner
