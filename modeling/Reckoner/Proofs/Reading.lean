import Reckoner.Proofs.Grammar
import Reckoner.Proofs.Printed
import Reckoner.Proofs.Segments

/-! Reading what was printed. Main statement: a printed result is an expression, and it is printed
as itself at the same scale and at finer ones. -/
namespace Reckoner

theorem isDigitSign_digitChar : ∀ n < 10, Text.isDigitSign (Nat.digitChar n) = true := by decide

theorem digitChar_in_number : ∀ n < 10, Lexeme.isNumberChar (Nat.digitChar n) = true ∧
    Decimal.isExponentMark (Nat.digitChar n) = false := by decide

theorem digitChar_ne_mark : ∀ n < 10, Nat.digitChar n ≠ '.' ∧ Nat.digitChar n ≠ '-' ∧
    Nat.digitChar n ≠ '+' := by decide

namespace Numeral

theorem digits_ne_nil (n : Numeral) : n.digits ≠ [] := by
  have h := n.allDigits
  simp only [areDigits, Bool.and_eq_true, Bool.not_eq_true', List.isEmpty_eq_false_iff] at h
  exact h.1

theorem isDigit_of_mem {n : Numeral} {c : Char} (hc : c ∈ n.digits) : c.isDigit = true := by
  have h := n.allDigits
  simp only [areDigits, Bool.and_eq_true, List.all_eq_true] at h
  exact h.2 c hc

theorem ne_point {n : Numeral} {c : Char} (hc : c ∈ n.digits) : c ≠ '.' := by
  obtain ⟨k, hk, rfl⟩ := digitChar_of_isDigit (isDigit_of_mem hc)
  exact (digitChar_ne_mark k hk).1

theorem mem_chars {n : Numeral} {c : Char} : c ∈ n.chars ↔
    c ∈ n.digits ∨ c = '.' ∧ n.fraction.isSome = true := by
  cases hf : n.fraction with
  | none => simp [chars, digits, hf]
  | some f =>
    simp only [chars, digits, hf, Option.map_some, Option.getD_some, List.mem_append,
      List.mem_cons, Option.isSome_some, and_true]
    rw [or_assoc, or_comm (a := c = '.')]

theorem split_chars (n : Numeral) : split n.chars = (n.whole, n.fraction) := by
  have hwhole : ∀ c ∈ n.whole, (c != '.') = true := fun c hc =>
    bne_iff_ne.2 (ne_point (List.mem_append_left _ hc))
  have hrest : ∀ c ∈ ((n.fraction.map ('.' :: ·)).getD []).head?, (c != '.') = false := by
    cases n.fraction <;> simp
  obtain ⟨htake, hdrop⟩ := takeWhile_append_of_head (· != '.') hwhole hrest
  rw [split, chars, htake, hdrop]
  cases n.fraction <;> rfl

theorem ofChars?_chars (n : Numeral) : ofChars? n.chars = some n := by
  simp only [ofChars?, split_chars, dif_pos n.allDigits]

theorem count_point_le (n : Numeral) : n.chars.count '.' ≤ 1 := by
  have hwhole : n.whole.count '.' = 0 := List.count_eq_zero.2 fun h =>
    ne_point (List.mem_append_left _ h) rfl
  have hfraction : (n.fraction.getD []).count '.' = 0 := List.count_eq_zero.2 fun h =>
    ne_point (List.mem_append_right _ h) rfl
  rw [chars, List.count_append, hwhole]
  cases hf : n.fraction with
  | none => simp
  | some f => simpa [hf] using hfraction

theorem read_chars (n : Numeral) : read n.chars = .ok n := by
  obtain ⟨c, hc⟩ := List.exists_mem_of_ne_nil _ n.digits_ne_nil
  have hsign : ¬ n.chars.all (!Text.isDigitSign ·) = true := by
    rw [List.all_eq_true]
    intro hall
    obtain ⟨k, hk, rfl⟩ := digitChar_of_isDigit (isDigit_of_mem hc)
    have hnot := hall _ (mem_chars.2 (.inl hc))
    simp [isDigitSign_digitChar k hk] at hnot
  rw [read, if_neg hsign, if_neg (Nat.not_lt.2 n.count_point_le), ofChars?_chars]

theorem in_number_of_mem {n : Numeral} {c : Char} (hc : c ∈ n.chars) :
    Text.isBlank c = false ∧ Lexeme.isNumberChar c = true ∧
      Decimal.isExponentMark c = false := by
  obtain hc | ⟨rfl, -⟩ := mem_chars.1 hc
  · obtain ⟨k, hk, rfl⟩ := digitChar_of_isDigit (isDigit_of_mem hc)
    obtain ⟨hnumber, hmark⟩ := digitChar_in_number k hk
    exact ⟨Lexeme.isBlank_of_isNumberChar hnumber, hnumber, hmark⟩
  · decide

theorem chars_ne_nil (n : Numeral) : n.chars ≠ [] := by
  obtain ⟨c, hc⟩ := List.exists_mem_of_ne_nil _ n.digits_ne_nil
  exact List.ne_nil_of_mem (mem_chars.2 (.inl hc))

theorem split_lexemes (n : Numeral) (p : Nat) : Lexeme.split p n.chars = [.number p n.chars] := by
  have hnil : ∀ c ∈ ([] : List Char).head?, Lexeme.isNumberChar c = false := by simp
  have hsplit := Lexeme.split_run n.chars_ne_nil (fun c hc => (in_number_of_mem hc).2.1) hnil p
  rwa [List.append_nil, Lexeme.split] at hsplit

end Numeral

namespace Plain
open Decimal (signChars)

def numeral (p : Plain) : Numeral where
  whole := p.whole
  fraction := if p.fraction = [] then none else some p.fraction
  allDigits := by
    have hdigits := List.all_eq_true.2 p.digits
    by_cases hf : p.fraction = []
    · simpa [areDigits, hf, p.whole_ne_nil] using hdigits
    · simpa [areDigits, hf, p.whole_ne_nil] using hdigits

theorem digits_numeral (p : Plain) : p.numeral.digits = p.whole ++ p.fraction := by
  by_cases hf : p.fraction = [] <;> simp [numeral, Numeral.digits, hf]

theorem places_numeral (p : Plain) : p.numeral.places = p.fraction.length := by
  by_cases hf : p.fraction = [] <;> simp [numeral, Numeral.places, hf]

theorem chars_eq (p : Plain) : p.chars = signChars p.negative ++ p.numeral.chars := by
  by_cases hf : p.fraction = [] <;>
    simp [chars, numeral, Numeral.chars, Decimal.joinPoint, hf]

theorem value_numeral (p : Plain) : p.numeral.value = { p.decimal with negative := false } := by
  rw [Numeral.value, digits_numeral, places_numeral, decimal]

/-- The minus of a negative number is a sign, since it stands at the start. -/
def tokens (p : Plain) : List Token :=
  if p.negative then [⟨.operator (.unary .neg), some 0⟩, ⟨.number p.numeral, some 1⟩]
  else [⟨.number p.numeral, some 0⟩]

def tree (p : Plain) : Expression :=
  if p.negative then .unary .neg (some 0) (.number p.numeral (some 1))
  else .number p.numeral (some 0)

theorem ofLexeme_number (n : Numeral) (signed : Bool) (k : Nat) :
    Token.ofLexeme signed (.number k n.chars) = .ok ⟨.number n, some k⟩ := by
  rw [Token.ofLexeme, Symbol.ofNumeral, String.toList_ofList, n.read_chars]

theorem scan_text (p : Plain) : Token.scan p.text = .ok p.tokens := by
  rw [Token.scan, text, String.toList_ofList, chars_eq, tokens]
  cases p.negative with
  | false =>
    rw [signChars, if_neg Bool.false_ne_true, List.nil_append, Numeral.split_lexemes]
    simp [Token.ofLexemes, ofLexeme_number, bind, Except.bind, pure, Except.pure]
  | true =>
    have hsplit : Lexeme.split 0 ('-' :: p.numeral.chars) =
        [.mark 0 '-', .number 1 p.numeral.chars] := by
      rw [Lexeme.split, if_neg (by decide), if_neg (by decide), Numeral.split_lexemes]
    have hmark : Token.ofLexeme true (.mark 0 '-') = .ok ⟨.operator (.unary .neg), some 0⟩ := rfl
    rw [signChars, if_pos rfl, List.singleton_append, hsplit]
    simp [Token.ofLexemes, hmark, ofLexeme_number, bind, Except.bind, pure, Except.pure]

theorem derives (p : Plain) : Derives .expression p.tokens p.tree := by
  rw [tokens, tree]
  cases p.negative with
  | false => exact .ofTerm (.ofUnary (.ofPower (.ofAtom (.number _ _))))
  | true => exact .ofTerm (.ofUnary (.sign .neg _ (.ofPower (.ofAtom (.number _ _)))))

theorem value_tree (p : Plain) : p.tree.value = .ok p.decimal := by
  have hsign : p.decimal.negative = p.negative := rfl
  rw [tree]
  cases hneg : p.negative with
  | false =>
    rw [hneg] at hsign
    rw [if_neg Bool.false_ne_true, Expression.value, value_numeral, ← hsign]
  | true =>
    rw [hneg] at hsign
    rw [if_pos rfl, Expression.value, Expression.value, value_numeral]
    simp [Except.map, UnaryOperator.apply, Decimal.neg, ← hsign]

theorem evaluate_text (p : Plain) : evaluate (some p.text) = .ok p.decimal := by
  rw [evaluate_of_derives p.scan_text p.derives, value_tree]

theorem readSign_chars (p : Plain) :
    Decimal.readSign p.chars = (p.negative, p.numeral.chars) := by
  rw [chars_eq]
  cases p.negative with
  | true => rfl
  | false =>
    obtain ⟨c, cs, hcs⟩ := List.exists_cons_of_ne_nil p.whole_ne_nil
    obtain ⟨k, hk, rfl⟩ := digitChar_of_isDigit (p.isDigit_whole c (by simp [hcs]))
    obtain ⟨-, hminus, hplus⟩ := digitChar_ne_mark k hk
    have hwhole : p.numeral.whole = Nat.digitChar k :: cs := hcs
    obtain ⟨ds, hds⟩ : ∃ ds, p.numeral.chars = Nat.digitChar k :: ds :=
      ⟨_, by rw [Numeral.chars, hwhole, List.cons_append]⟩
    rw [signChars, if_neg Bool.false_ne_true, List.nil_append, hds]
    unfold Decimal.readSign
    split
    · next h => exact absurd (List.cons.inj h).1 hminus
    · next h => exact absurd (List.cons.inj h).1 hplus
    · rfl

theorem ofChars?_chars (p : Plain) : Decimal.ofChars? p.chars = some p.decimal := by
  have hall : ∀ c ∈ p.numeral.chars, (!Decimal.isExponentMark c) = true := fun c hc => by
    rw [(Numeral.in_number_of_mem hc).2.2, Bool.not_false]
  have hnil : ∀ c ∈ ([] : List Char).head?, (!Decimal.isExponentMark c) = false := by simp
  obtain ⟨htake, hdrop⟩ := takeWhile_append_of_head _ hall hnil
  rw [List.append_nil] at htake hdrop
  simp only [Decimal.ofChars?, readSign_chars, htake, hdrop, Numeral.ofChars?_chars,
    value_numeral, Decimal.readExponent?, bind, Option.bind, pure]
  rw [Int.add_zero]
  rfl

theorem ofString_text {p : Plain} (h : p.decimal.fit Decimal.fullPrecision = .ok p.decimal) :
    Decimal.ofString p.text = .ok p.decimal := by
  simp only [Decimal.ofString, text, String.toList_ofList, ofChars?_chars, h, if_true]

theorem fit_decimal {p : Plain} (hv : |p.value| ≤ (10 : ℚ) ^ Decimal.topExponent)
    (hf : Decimal.lowestPlace Decimal.fullPrecision ≤ -(p.fraction.length : Int)) :
    p.decimal.fit Decimal.fullPrecision = .ok p.decimal := by
  have htop : p.decimal.adjusted ≤ Decimal.topExponent := by
    by_cases hc : p.decimal.coefficient = 0
    · have hexp : p.decimal.exponent = 0 := by simp [decimal, (coefficient_eq_zero hc).2]
      rw [Decimal.adjusted, hexp, hc]
      decide
    · have hpos : 0 < |p.decimal.toRat| := abs_pos.2 (Decimal.toRat_eq_zero_iff.not.2 hc)
      rw [← Decimal.log_abs_toRat hc]
      have hlog := Int.log_mono_right (b := 10) hpos hv
      rwa [Decimal.log_ten_zpow] at hlog
  rw [Decimal.fit_eq, if_neg (Int.not_lt.2 htop), if_neg fun h => Int.not_lt.2 hf h.2]

theorem abs_value_lt (p : Plain) : |p.value| < (10 : ℚ) ^ p.whole.length := by
  have hlt := ofDigitChars_lt p.digits
  rw [List.length_append, pow10_add] at hlt
  have hq : (p.decimal.coefficient : ℚ) <
      (10 : ℚ) ^ p.whole.length * (10 : ℚ) ^ p.fraction.length := by
    rw [← Decimal.cast_pow10, ← Decimal.cast_pow10]
    exact_mod_cast hlt
  have hpos : (0 : ℚ) < (10 : ℚ) ^ p.fraction.length := pow_pos (by norm_num) _
  rw [p.abs_value, zpow_neg, zpow_natCast, ← div_eq_mul_inv, div_lt_iff₀ hpos]
  exact hq

theorem length_whole_le (p : Plain) : p.whole.length ≤ p.text.length := by
  rw [text, String.length_ofList, chars_eq, Numeral.chars, numeral]
  simp only [List.length_append]
  omega

end Plain

namespace Decimal

theorem displayPlace_nonpos (s : Nat) : displayPlace s ≤ 0 := by
  rw [displayPlace]
  split
  · decide
  · omega

theorem lowestPlace_le_displayPlace (s : Nat) : lowestPlace fullPrecision ≤ displayPlace s := by
  rw [displayPlace]
  split
  · exact Int.le_refl _
  · omega

theorem displayPlace_anti {s t : Nat} (h : s ≤ t) : displayPlace t ≤ displayPlace s := by
  have hlow := lowestPlace_le_displayPlace s
  rw [displayPlace]
  split
  · exact hlow
  · rw [displayPlace]
    split <;> omega

theorem abs_roundHalfUp_le_of_format {d : Decimal} {s : Nat} {r : String} (h : d.format s = .ok r) :
    |roundHalfUp d.toRat (displayPlace s)| ≤ (10 : ℚ) ^ topExponent := by
  by_cases hc : d.coefficient = 0
  · rw [toRat_eq_zero_iff.2 hc, roundHalfUp_zero, abs_zero]
    exact (ten_zpow_pos _).le
  have hexc := (format_eq_ok_iff.1 h).2.1
  rw [exceedsPrecision_iff, not_and, Int.not_lt] at hexc
  have hdigits := hexc hc
  have hplace := displayPlace_nonpos s
  generalize displayPlace s = e at hdigits hplace ⊢
  have hle : |d.toRat| ≤ (10 ^ (d.adjusted + 1 - e).toNat : Nat) * (10 : ℚ) ^ e := by
    have hlt := Int.lt_zpow_succ_log_self (b := 10) (by norm_num) |d.toRat|
    rw [log_abs_toRat hc] at hlt
    refine hlt.le.trans ?_
    push_cast
    rw [← zpow_natCast, ← ten_zpow_add]
    exact zpow_le_zpow_right₀ (by norm_num) (by omega)
  refine (abs_roundHalfUp_le hle).trans ?_
  push_cast
  rw [← zpow_natCast, ← ten_zpow_add]
  refine zpow_le_zpow_right₀ (by norm_num) ?_
  have htop : topExponent = fullPrecision := rfl
  rw [adjusted, htop]
  omega

end Decimal

namespace Plain

theorem eq_text_of_format {p : Plain} {n e : Int} {t : Nat} {r : String}
    (hn : p.value = n * (10 : ℚ) ^ e) (he : Decimal.displayPlace t ≤ e)
    (h : p.decimal.format t = .ok r) : r = p.text := by
  obtain ⟨p', rfl, hp'⟩ := plain_of_format h
  obtain ⟨m, hm⟩ := Decimal.exists_eq_mul_of_le hn he
  have hsame : p'.value = p.value := hp'.trans (Decimal.roundHalfUp_of_eq_mul hm)
  rw [eq_of_value_eq hsame]

theorem exists_format_of_length {p : Plain} {t : Nat}
    (h : p.text.length + t ≤ Decimal.fullPrecision) : ∃ r, p.decimal.format t = .ok r := by
  have hwhole := p.length_whole_le
  have hwide : Decimal.fullPrecision ≤ Decimal.widestShift := by decide
  refine exists_format (by omega) fun hne => ?_
  have hlog : Int.log 10 |p.value| < p.whole.length := by
    refine (Int.lt_zpow_iff_log_lt (by norm_num) (abs_pos.2 hne)).1 ?_
    rw [Nat.cast_ofNat, zpow_natCast]
    exact p.abs_value_lt
  have hvalue : p.decimal.toRat = p.value := rfl
  rw [hvalue]
  omega

end Plain

/-- What is printed is an expression and a number that can be read, and it is printed as itself at
the same scale and at finer ones, as long as its digits are no more than any precision holds. -/
theorem reprint {s t : Nat} (hst : s ≤ t) {r : String}
    (h : (∃ v : Decimal, v.format s = .ok r) ∨
      ∃ text, (Calculator.mk s).calculate text = .ok r) :
    (∃ ts e, Token.scan r = .ok ts ∧ Derives .expression ts e) ∧
      ∃ d, evaluate (some r) = .ok d ∧ Decimal.ofString r = .ok d ∧
        (d.format t ≠ .error .invalidOperation →
          d.format t = .ok r ∧ (Calculator.mk t).calculate (some r) = .ok r) ∧
        (r.length + t ≤ Decimal.fullPrecision → d.format t ≠ .error .invalidOperation) := by
  obtain ⟨v, hv⟩ : ∃ v : Decimal, v.format s = .ok r := by
    obtain hv | ⟨text, htext⟩ := h
    · exact hv
    · exact format_of_calculate htext
  obtain ⟨p, rfl, hvalue⟩ := plain_of_format hv
  obtain ⟨n, hn⟩ := Decimal.exists_roundHalfUp_eq_mul v.toRat (Decimal.displayPlace s)
  have hbound := Decimal.abs_roundHalfUp_le_of_format hv
  have hlow := Decimal.lowestPlace_le_displayPlace s
  have hhigh := Decimal.displayPlace_nonpos s
  rw [← hvalue] at hbound hn
  -- the printed fraction has no digit below the scale it was printed at
  have hlength : p.fraction.length ≤ (-Decimal.displayPlace s).toNat := by
    have hexp : Decimal.displayPlace s = -((-Decimal.displayPlace s).toNat : Int) := by omega
    rw [hexp] at hn
    exact Plain.length_fraction_le hn
  refine ⟨⟨p.tokens, p.tree, p.scan_text, p.derives⟩, p.decimal, p.evaluate_text,
    Plain.ofString_text (Plain.fit_decimal hbound (by omega)), fun hne => ?_, fun hlen herr => ?_⟩
  · obtain ⟨r, hr⟩ := exists_format_of_ne_error hne
    obtain rfl := Plain.eq_text_of_format hn (Decimal.displayPlace_anti hst) hr
    exact ⟨hr, by rw [calculate_of_evaluate p.evaluate_text, hr, mapError_ok]⟩
  · obtain ⟨r, hr⟩ := Plain.exists_format_of_length hlen
    rw [hr] at herr
    cases herr

/-- A negative result is read with its minus as a sign. -/
theorem reprint_negative :
    Decimal.format ⟨true, 125, -2⟩ 1 = .ok "-1.3" ∧
      (∃ ts e, Token.scan "-1.3" = .ok ts ∧ Derives .expression ts e) ∧
      (Calculator.mk 2).calculate (some "-1.3") = .ok "-1.3" := by
  have hformat : Decimal.format ⟨true, 125, -2⟩ 1 = .ok "-1.3" := by decide +kernel
  obtain ⟨hd, d, -, -, hsame, hfits⟩ := reprint (show 1 ≤ 2 by decide) (.inl ⟨_, hformat⟩)
  exact ⟨hformat, hd, (hsame (hfits (by decide))).2⟩

end Reckoner
