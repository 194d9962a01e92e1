import Reckoner.Proofs.Culprits
import Reckoner.Proofs.Document
import Reckoner.Proofs.Jams
import Reckoner.Proofs.Printed
import Reckoner.Proofs.Reading
import Reckoner.Proofs.Rendering

/-! What reports are made of. Main statement: whatever the expression, no line end gets into a value
or a message, and neither of them is empty. -/
namespace Reckoner

namespace Text

@[simp] theorem unbroken_append {s t : String} :
    Unbroken (s ++ t) ↔ Unbroken s ∧ Unbroken t := by
  simp [Unbroken, or_imp, forall_and]

@[simp] theorem unbroken_ofList {cs : List Char} :
    Unbroken (String.ofList cs) ↔ ∀ c ∈ cs, isLineBreak c = false := by
  rw [Unbroken, String.toList_ofList]

theorem OneLine.append {s t : String} (hs : OneLine s) (ht : Unbroken t) : OneLine (s ++ t) :=
  ⟨fun h => hs.ne_empty (String.append_eq_empty_iff.1 h).1, unbroken_append.2 ⟨hs.unbroken, ht⟩⟩

theorem unbroken_of_any {cs : List Char} (h : cs.any isLineBreak = false) :
    Unbroken (String.ofList cs) := by
  simpa using h

theorem oneLine_of_any {c : Char} {cs : List Char} (h : (c :: cs).any isLineBreak = false) :
    OneLine (String.ofList (c :: cs)) :=
  ⟨by simp [String.ofList_eq_empty_iff], unbroken_of_any h⟩

theorem isLineBreak_of_isBlank {c : Char} (h : isBlank c = false) : isLineBreak c = false :=
  Bool.eq_false_iff.2 fun hc => by
    rw [isBlank_of_isLineBreak hc] at h
    cases h

theorem isLineBreak_of_isNumberChar {c : Char} (h : Lexeme.isNumberChar c = true) :
    isLineBreak c = false :=
  isLineBreak_of_isBlank (Lexeme.isBlank_of_isNumberChar h)

theorem isLineBreak_of_isDigit {c : Char} (h : c.isDigit = true) : isLineBreak c = false :=
  isLineBreak_of_isNumberChar (Lexeme.isNumberChar_iff.2 (.inl h))

theorem isLineBreak_of_mem_toDigits {n : Nat} {c : Char} (h : c ∈ Nat.toDigits 10 n) :
    isLineBreak c = false :=
  isLineBreak_of_isDigit (Nat.isDigit_of_mem_toDigits (by decide) (by decide) h)

theorem unbroken_toString (n : Nat) : Unbroken (toString n) := by
  rw [Nat.toString_eq_repr, Nat.repr_eq_ofList_toDigits, unbroken_ofList]
  exact fun c => isLineBreak_of_mem_toDigits

theorem unbroken_singleton {c : Char} (h : isBlank c = false) : Unbroken (String.singleton c) := by
  rw [String.singleton_eq_ofList, unbroken_ofList]
  simpa using isLineBreak_of_isBlank h

theorem unbroken_intercalate {ss : List String} (h : ∀ s ∈ ss, Unbroken s) :
    Unbroken (" ".intercalate ss) := by
  induction ss with
  | nil => decide
  | cons s ss ih =>
    obtain ⟨hs, hss⟩ := List.forall_mem_cons.1 h
    cases ss with
    | nil => rwa [String.intercalate_singleton]
    | cons t ts =>
      rw [String.intercalate_cons_cons, unbroken_append, unbroken_append]
      exact ⟨⟨hs, by decide⟩, ih hss⟩

end Text

open Text (Unbroken OneLine unbroken_append unbroken_ofList unbroken_of_any oneLine_of_any)

namespace Decimal

theorem mem_joinPoint {parts : List Char × List Char} {c : Char} (h : c ∈ joinPoint parts) :
    c ∈ parts.1 ++ parts.2 ∨ c = '.' := by
  unfold joinPoint at h
  split at h
  · exact .inl (List.mem_append_left _ h)
  · simpa [or_comm, or_left_comm, or_assoc] using h

theorem mem_chars {d : Decimal} {c : Char} (h : c ∈ d.chars) :
    c.isDigit = true ∨ c ∈ ['.', '-', '+', 'E'] := by
  have hdigit {n : Nat} {c : Char} (h : c ∈ Nat.toDigits 10 n) : c.isDigit = true :=
    Nat.isDigit_of_mem_toDigits (by decide) (by decide) h
  have hparts {parts : List Char × List Char} (hp : ∀ c ∈ parts.1 ++ parts.2, c.isDigit = true)
      (h : c ∈ joinPoint parts) : c.isDigit = true ∨ c ∈ ['.', '-', '+', 'E'] :=
    (mem_joinPoint h).imp (hp c) fun hc => by simp [hc]
  obtain h | h := List.mem_append.1 h
  · refine .inr ?_
    unfold signChars at h
    split at h <;> simp_all
  split at h
  · exact hparts (fun c hc => isDigit_of_mem_splitPoint (digits_eq _ ▸ hc)) h
  obtain h | h := List.mem_append.1 h
  · refine hparts (fun c hc => ?_) h
    rw [List.splitAt_eq, List.take_append_drop, digits_eq] at hc
    exact hdigit hc
  · obtain rfl | h := List.mem_cons.1 h
    · simp
    obtain rfl | h := List.mem_cons.1 h
    · split <;> simp
    · exact .inl (hdigit h)

theorem unbroken_toString (d : Decimal) : Unbroken (toString d) := by
  change Unbroken (String.ofList d.chars)
  rw [unbroken_ofList]
  intro c hc
  obtain h | h := mem_chars hc
  · exact Text.isLineBreak_of_isDigit h
  · have hnone : ['.', '-', '+', 'E'].any Text.isLineBreak = false := by decide
    exact Bool.eq_false_iff.2 (List.any_eq_false.1 hnone c h)

end Decimal

namespace Plain

theorem unbroken_text (p : Plain) : Unbroken p.text := by
  rw [text, unbroken_ofList]
  intro c hc
  obtain h | h := List.mem_append.1 hc
  · unfold Decimal.signChars at h
    split at h
    · rw [List.mem_singleton.1 h]; decide
    · cases h
  obtain h | rfl := Decimal.mem_joinPoint h
  · exact Text.isLineBreak_of_isDigit (p.digits c h)
  · decide

theorem text_ne_empty (p : Plain) : p.text ≠ "" := by
  have hjoin : Decimal.joinPoint (p.whole, p.fraction) ≠ [] := by
    rw [Decimal.joinPoint]
    split <;> simp [p.whole_ne_nil]
  rw [text, Ne, String.ofList_eq_empty_iff]
  exact List.append_ne_nil_of_right_ne_nil _ hjoin

end Plain

namespace Cause

def quoted : Cause → List String
  | .malformedNumber lexeme _ | .missingOperand lexeme | .signAfterOperand lexeme
  | .operatorWithoutOperand lexeme | .strayToken lexeme => [lexeme]
  | .unexpectedCharacter c index => [String.singleton c, toString index]
  | .missingValues shown | .scaleNotInteger shown => [shown]
  | .surplusValues count postfixText => [toString count, postfixText]
  | .nonIntegerExponent e => [toString e]
  | .exponentOutOfRange e => [toString e]
  | .negativeScale n => [toString n]
  | .unmatchedRight | .unclosedLeft | .noValue | .divisionByZero | .moduloByZero
  | .zeroToNegativePower => []

theorem oneLine_message {c : Cause} (h : ∀ q ∈ c.quoted, Unbroken q) : OneLine c.message := by
  have hend {lead q : String} (hq : q ∈ c.quoted) (hlead : OneLine lead) : OneLine (lead ++ q) :=
    hlead.append (h q hq)
  cases c with
  | malformedNumber lexeme flaw =>
    have hlead := hend List.mem_cons_self
      (show OneLine "Invalid number '" from oneLine_of_any (by decide))
    cases flaw with
    | noDigit | manyPoints | foreign => exact hlead.append (unbroken_of_any (by decide))
  | unexpectedCharacter c index =>
    have hlead := hend List.mem_cons_self
      (show OneLine "Unexpected character '" from oneLine_of_any (by decide))
    have hindex := hlead.append
      (show Unbroken "' at position " from unbroken_of_any (by decide))
    exact hindex.append (h _ (List.mem_cons_of_mem _ List.mem_cons_self))
  | surplusValues count postfixText =>
    have hlead := hend List.mem_cons_self
      (show OneLine "Invalid expression: " from oneLine_of_any (by decide))
    have htext := hlead.append
      (show Unbroken " values left after evaluating '" from unbroken_of_any (by decide))
    exact (htext.append (h _ (List.mem_cons_of_mem _ List.mem_cons_self))).append
      (unbroken_of_any (by decide))
  | missingOperand | signAfterOperand | missingValues =>
    exact (hend List.mem_cons_self (oneLine_of_any (by decide))).append
      (unbroken_of_any (by decide))
  | operatorWithoutOperand | strayToken | nonIntegerExponent | exponentOutOfRange
  | scaleNotInteger | negativeScale => exact hend List.mem_cons_self (oneLine_of_any (by decide))
  | unmatchedRight | unclosedLeft | noValue | divisionByZero | moduloByZero
  | zeroToNegativePower => exact oneLine_of_any (by decide)

end Cause

theorem FaultKind.oneLine_name (k : FaultKind) : OneLine k.name := by
  cases k <;> exact oneLine_of_any (by decide)

def Fault.QuotesUnbroken (f : Fault) : Prop := ∀ q ∈ f.cause.quoted, Unbroken q

theorem Fault.quotesUnbroken_singleton {c : Cause} {p : Option Int} {q : String}
    (hc : c.quoted = [q]) (hq : Unbroken q) : Fault.QuotesUnbroken ⟨c, p⟩ := by
  simpa [Fault.QuotesUnbroken, hc] using hq

namespace Token

theorem unbroken_operator (o : Operator) : Unbroken o.lexeme := by
  cases o with
  | unary o => cases o <;> decide
  | binary o => cases o <;> decide

theorem Canonical.unbroken_lexeme {t : Token} (h : t.Canonical) : Unbroken t.lexeme := by
  unfold Canonical at h
  rw [lexeme]
  split at h
  next n hn =>
    rw [hn]
    refine unbroken_ofList.2 fun c hc => Text.isLineBreak_of_isNumberChar ?_
    exact (Numeral.in_number_of_mem hc).2.1
  next o ho => exact ho ▸ unbroken_operator o
  next a ha =>
    subst h
    rw [ha]
    decide
  next a ha =>
    subst h
    rw [ha]
    decide
  next => cases h

theorem Canonical.unbroken_shown {t : Token} (h : t.Canonical) : Unbroken t.shown := by
  have hlexeme := h.unbroken_lexeme
  rw [lexeme] at hlexeme
  rw [shown]
  cases hs : t.symbol with
  | operator o =>
    cases o with
    | unary o => cases o <;> decide
    | binary o => rwa [hs] at hlexeme
  | _ => rwa [hs] at hlexeme

theorem unbroken_showAll {ts : List Token} (h : ∀ t ∈ ts, t.Canonical) :
    Unbroken (showAll ts) := by
  refine Text.unbroken_intercalate fun s hs => ?_
  obtain ⟨t, ht, rfl⟩ := List.mem_map.1 hs
  exact (h t ht).unbroken_shown

end Token

theorem Offence.quotesUnbroken {cs : List Char} {i : Nat} {f : Fault} (h : Offence cs i f) :
    f.QuotesUnbroken := by
  have hrun {us run vs : List Char} (hr : Lexeme.IsRun us run vs) :
      Unbroken (String.ofList run) :=
    unbroken_ofList.2 fun c hc => Text.isLineBreak_of_isNumberChar (hr.inside c hc)
  cases h with
  | @character us vs c hcs hc =>
    intro q hq
    obtain rfl | rfl := List.mem_pair.1 hq
    · exact Text.unbroken_singleton (not_allowed hc).1
    · exact Text.unbroken_toString _
  | noDigit hcs hr hd => exact Fault.quotesUnbroken_singleton rfl (hrun hr)
  | manyPoints hcs hr hd hp => exact Fault.quotesUnbroken_singleton rfl (hrun hr)

namespace Postfix

theorem Offends.quotesUnbroken {ts : List Token} {t : Token} {k : FaultKind} {f : Fault}
    (hts : ∀ u ∈ ts, u.Canonical) (ht : t.Canonical) (h : Offends ts t k f) :
    f.QuotesUnbroken := by
  cases h with
  | sign => exact Fault.quotesUnbroken_singleton rfl ht.unbroken_lexeme
  | operator => exact Fault.quotesUnbroken_singleton rfl ht.unbroken_lexeme
  | missing _ hu _ =>
    exact Fault.quotesUnbroken_singleton rfl (hts _ (List.mem_of_getLast? hu)).unbroken_lexeme
  | surplus => exact fun q hq => absurd hq List.not_mem_nil

theorem FirstFault.quotesUnbroken {ts : List Token} {k : FaultKind} {f : Fault}
    (hts : ∀ u ∈ ts, u.Canonical) (h : FirstFault ts k f) : f.QuotesUnbroken := by
  cases h with
  | token heq _ ho =>
    subst heq
    exact ho.quotesUnbroken (fun u hu => hts u (by simp [hu])) (hts _ (by simp))
  | ending _ hu _ =>
    exact Fault.quotesUnbroken_singleton rfl (hts _ (List.mem_of_getLast? hu)).unbroken_lexeme
  | unclosed => exact fun q hq => absurd hq List.not_mem_nil

theorem quotesUnbroken_of_isArithmetic {f : Fault} (h : f.kind.isArithmetic = true) :
    f.QuotesUnbroken := by
  obtain ⟨c, p⟩ := f
  have hextended (e : Decimal.Extended) : Unbroken (toString e) := by
    cases e with
    | finite d => exact d.unbroken_toString
    | infinite negative => cases negative <;> decide
    | notANumber => decide
  cases c with
  | nonIntegerExponent e => exact Fault.quotesUnbroken_singleton rfl (hextended e)
  | exponentOutOfRange e => exact Fault.quotesUnbroken_singleton rfl e.unbroken_toString
  | divisionByZero | moduloByZero | zeroToNegativePower =>
    exact fun q hq => absurd hq List.not_mem_nil
  | _ => cases h

theorem Jams.quotesUnbroken {t : Token} {values : List Decimal} {f : Fault} (ht : t.Canonical)
    (h : Jams t values (.fault f)) : f.QuotesUnbroken := by
  cases h with
  | operation _ h => exact quotesUnbroken_of_isArithmetic (BinaryOperator.isArithmetic_of_apply h).2
  | missing => exact Fault.quotesUnbroken_singleton rfl ht.unbroken_shown
  | stray => exact Fault.quotesUnbroken_singleton rfl ht.unbroken_lexeme

theorem quotesUnbroken_of_evaluate {ts : List Token} {f : Fault} (hts : ∀ t ∈ ts, t.Canonical)
    (h : evaluate ts = .error (.fault f)) : f.QuotesUnbroken := by
  obtain hrun | ⟨values, -, ⟨-, he⟩ | ⟨-, he⟩⟩ := evaluate_eq_error_iff.1 h
  · obtain ⟨before, t, after, values, rfl, -, hjams⟩ := pushAll_eq_error_iff.1 hrun
    exact hjams.quotesUnbroken (hts t (by simp))
  · obtain rfl := Failure.fault.inj he
    exact fun q hq => absurd hq List.not_mem_nil
  · obtain rfl := Failure.fault.inj he
    intro q hq
    obtain rfl | rfl := List.mem_pair.1 hq
    · exact Text.unbroken_toString _
    · exact Token.unbroken_showAll hts

end Postfix

/-- No fault of an expression quotes a line end, even where the expression holds one. -/
theorem quotesUnbroken_of_evaluate {text : Option String} {f : Fault}
    (h : evaluate text = .error (.fault f)) : f.QuotesUnbroken := by
  cases faulted_of_evaluate h with
  | scanning h => exact h.quotesUnbroken
  | placing hts h => exact h.quotesUnbroken (segmented_of_scan hts).canonical
  | evaluating hts hout h =>
    have hperm := Postfix.perm_of_ofInfix hout
    refine Postfix.quotesUnbroken_of_evaluate (fun t ht => ?_) h
    exact (segmented_of_scan hts).canonical t (List.mem_filter.1 (hperm.mem_iff.1 ht)).1

namespace Calculator

theorem oneLine_of_calculate {k : Calculator} {text : Option String} {v : String}
    (h : k.calculate text = .ok v) : OneLine v := by
  obtain ⟨d, hd⟩ := format_of_calculate h
  obtain ⟨p, rfl, -⟩ := plain_of_format hd
  exact ⟨p.text_ne_empty, p.unbroken_text⟩

theorem oneLine_of_report {k : Calculator} {text : Option String} {r : Report}
    (h : k.report text = .ok r) :
    (∀ v ∈ r.value?, OneLine v) ∧ ∀ f ∈ r.fault?, OneLine f.kind.name ∧ OneLine f.message := by
  unfold report at h
  split at h
  next v hv =>
    obtain rfl := Except.ok.inj h
    refine ⟨fun w hw => ?_, fun f hf => by cases hf⟩
    obtain rfl := Option.some.inj hw
    exact oneLine_of_calculate hv
  next f hf =>
    obtain rfl := Except.ok.inj h
    refine ⟨fun w hw => (by cases hw), fun g hg => ?_⟩
    obtain rfl := Option.some.inj hg
    exact ⟨f.kind.oneLine_name,
      Cause.oneLine_message (quotesUnbroken_of_evaluate (evaluate_of_calculate_fault hf))⟩
  next => cases h

end Calculator
end Reckoner
