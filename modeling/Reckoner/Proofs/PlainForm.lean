import Mathlib.Computability.RegularExpressions
import Reckoner.Proofs.Reading

/-! The language of printed results. Main statement: a number is printed at a scale as the one text
of that language that stands for the number rounded half up there. -/
namespace Reckoner
open RegularExpression (char star matches')

def oneOf (cs : List Char) : RegularExpression Char := cs.foldr (fun c r => char c + r) 0

def nonzeroDigit : RegularExpression Char := oneOf ['1', '2', '3', '4', '5', '6', '7', '8', '9']

def anyDigit : RegularExpression Char := char '0' + nonzeroDigit

def optional (r : RegularExpression Char) : RegularExpression Char := 1 + r

/-- The language of `-?(0|[1-9][0-9]*)(\.[0-9]*[1-9])?`: a sign or none, a zero by itself or digits
that no zero leads, and a point with digits that no zero ends or neither. -/
def plainForm : RegularExpression Char :=
  optional (char '-') * (char '0' + nonzeroDigit * star anyDigit) *
    optional (char '.' * (star anyDigit * nonzeroDigit))

theorem mem_oneOf_iff {cs x : List Char} : x ∈ (oneOf cs).matches' ↔ ∃ c ∈ cs, x = [c] := by
  induction cs with
  | nil => simp [oneOf]
  | cons c cs ih =>
    change x ∈ (char c + oneOf cs).matches' ↔ _
    rw [RegularExpression.matches'_add, Language.mem_add, ih, List.exists_mem_cons_iff]
    rfl

theorem mem_nonzeroDigit_iff {x : List Char} :
    x ∈ nonzeroDigit.matches' ↔ ∃ c : Char, c.isDigit = true ∧ c ≠ '0' ∧ x = [c] := by
  rw [nonzeroDigit, mem_oneOf_iff]
  constructor
  · rintro ⟨c, hc, rfl⟩
    have hall : ∀ c ∈ ['1', '2', '3', '4', '5', '6', '7', '8', '9'],
        c.isDigit = true ∧ c ≠ '0' := by simp
    exact ⟨c, (hall c hc).1, (hall c hc).2, rfl⟩
  · rintro ⟨c, hc, h0, rfl⟩
    obtain ⟨n, hn, rfl⟩ := digitChar_of_isDigit hc
    have hall : ∀ n < 10, Nat.digitChar n ≠ '0' →
        Nat.digitChar n ∈ ['1', '2', '3', '4', '5', '6', '7', '8', '9'] := by decide
    exact ⟨_, hall n hn h0, rfl⟩

theorem mem_anyDigit_iff {x : List Char} :
    x ∈ anyDigit.matches' ↔ ∃ c : Char, c.isDigit = true ∧ x = [c] := by
  rw [anyDigit, RegularExpression.matches'_add, Language.mem_add, mem_nonzeroDigit_iff]
  constructor
  · rintro (rfl | ⟨c, hc, -, rfl⟩)
    · exact ⟨'0', rfl, rfl⟩
    · exact ⟨c, hc, rfl⟩
  · rintro ⟨c, hc, rfl⟩
    by_cases h0 : c = '0'
    · exact .inl (by rw [h0]; rfl)
    · exact .inr ⟨c, hc, h0, rfl⟩

theorem mem_digits_iff {x : List Char} :
    x ∈ (star anyDigit).matches' ↔ ∀ c ∈ x, c.isDigit = true := by
  rw [RegularExpression.matches'_star, Language.mem_kstar]
  constructor
  · rintro ⟨words, rfl, hwords⟩ c hc
    obtain ⟨word, hword, hc⟩ := List.mem_flatten.1 hc
    obtain ⟨d, hd, rfl⟩ := mem_anyDigit_iff.1 (hwords word hword)
    exact List.mem_singleton.1 hc ▸ hd
  · intro h
    refine ⟨x.map ([·]), by simp [← List.flatMap_def], fun word hword => ?_⟩
    obtain ⟨c, hc, rfl⟩ := List.mem_map.1 hword
    exact mem_anyDigit_iff.2 ⟨c, h c hc, rfl⟩

theorem mem_optional_iff {r : RegularExpression Char} {x : List Char} :
    x ∈ (optional r).matches' ↔ x = [] ∨ x ∈ r.matches' := by
  rw [optional, RegularExpression.matches'_add, Language.mem_add]
  rfl

theorem mem_whole_iff {x : List Char} :
    x ∈ (char '0' + nonzeroDigit * star anyDigit).matches' ↔
      (∀ c ∈ x, c.isDigit = true) ∧ x ≠ [] ∧ (x.head? = some '0' → x = ['0']) := by
  rw [RegularExpression.matches'_add, RegularExpression.matches'_mul, Language.mem_add,
    Language.mem_mul]
  constructor
  · rintro (rfl | ⟨w, hw, ds, hds, rfl⟩)
    · exact ⟨by simp, by simp, fun _ => rfl⟩
    · obtain ⟨c, hc, h0, rfl⟩ := mem_nonzeroDigit_iff.1 hw
      have hall := mem_digits_iff.1 hds
      exact ⟨by simpa [hc] using hall, by simp, fun h => absurd (by simpa using h) h0⟩
  · rintro ⟨hdigits, hne, hlead⟩
    obtain ⟨c, cs, rfl⟩ := List.exists_cons_of_ne_nil hne
    by_cases h0 : c = '0'
    · exact .inl (hlead (by rw [h0]; rfl))
    · obtain ⟨hc, hcs⟩ := List.forall_mem_cons.1 hdigits
      exact .inr ⟨[c], mem_nonzeroDigit_iff.2 ⟨c, hc, h0, rfl⟩, cs, mem_digits_iff.2 hcs, rfl⟩

theorem mem_fraction_iff {x : List Char} : x ∈ (star anyDigit * nonzeroDigit).matches' ↔
    (∀ c ∈ x, c.isDigit = true) ∧ x ≠ [] ∧ x.getLast? ≠ some '0' := by
  rw [RegularExpression.matches'_mul, Language.mem_mul]
  constructor
  · rintro ⟨ds, hds, w, hw, rfl⟩
    obtain ⟨c, hc, h0, rfl⟩ := mem_nonzeroDigit_iff.1 hw
    have hall := mem_digits_iff.1 hds
    refine ⟨fun d hd => ?_, by simp, by simpa using h0⟩
    obtain hd | hd := List.mem_append.1 hd
    · exact hall d hd
    · exact List.mem_singleton.1 hd ▸ hc
  · rintro ⟨hdigits, hne, hlast⟩
    obtain ⟨cs, c, rfl⟩ := (List.eq_nil_or_concat x).resolve_left hne
    rw [List.concat_eq_append] at hdigits hlast ⊢
    refine ⟨cs, mem_digits_iff.2 fun d hd => hdigits d (by simp [hd]), [c],
      mem_nonzeroDigit_iff.2 ⟨c, hdigits c (by simp), fun h0 => hlast (by simp [h0]), rfl⟩, rfl⟩

namespace Plain

theorem chars_mem_plainForm (p : Plain) : p.chars ∈ plainForm.matches' := by
  have hsign : Decimal.signChars p.negative ∈ (optional (char '-')).matches' := by
    rw [mem_optional_iff]
    cases p.negative with
    | false => exact .inl rfl
    | true => exact .inr rfl
  have hwhole := mem_whole_iff.2 ⟨p.isDigit_whole, p.whole_ne_nil, p.leading⟩
  rw [plainForm, RegularExpression.matches'_mul, RegularExpression.matches'_mul]
  by_cases hf : p.fraction = []
  · have hchars : p.chars = Decimal.signChars p.negative ++ p.whole ++ [] := by
      simp [chars, Decimal.joinPoint, hf]
    rw [hchars]
    exact Language.append_mem_mul (Language.append_mem_mul hsign hwhole)
      (mem_optional_iff.2 (.inl rfl))
  · have hchars : p.chars = Decimal.signChars p.negative ++ p.whole ++ ('.' :: p.fraction) := by
      simp [chars, Decimal.joinPoint, hf]
    have hfraction := mem_fraction_iff.2 ⟨p.isDigit_fraction, hf, p.trailing⟩
    rw [hchars]
    refine Language.append_mem_mul (Language.append_mem_mul hsign hwhole)
      (mem_optional_iff.2 (.inr ?_))
    exact Language.append_mem_mul (a := ['.']) rfl hfraction

theorem exists_chars_eq {x : List Char} (h : x ∈ plainForm.matches') (h0 : x ≠ ['-', '0']) :
    ∃ p : Plain, p.chars = x := by
  rw [plainForm, RegularExpression.matches'_mul, RegularExpression.matches'_mul,
    Language.mem_mul] at h
  obtain ⟨y, hy, f, hf, rfl⟩ := h
  obtain ⟨s, hs, w, hw, rfl⟩ := Language.mem_mul.1 hy
  obtain ⟨negative, rfl⟩ : ∃ negative, s = Decimal.signChars negative := by
    obtain rfl | rfl := mem_optional_iff.1 hs
    · exact ⟨false, rfl⟩
    · exact ⟨true, rfl⟩
  obtain ⟨hdigits, hne, hlead⟩ := mem_whole_iff.1 hw
  obtain rfl | hf := mem_optional_iff.1 hf
  · refine ⟨⟨negative, w, [], by simpa using hdigits, hne, hlead, by simp, ?_⟩, ?_⟩
    · rintro rfl rfl
      exact absurd rfl h0
    · simp [chars, Decimal.joinPoint]
  · obtain ⟨point, hpoint, ds, hds, rfl⟩ := Language.mem_mul.1 hf
    obtain rfl : point = ['.'] := hpoint
    obtain ⟨hfraction, hfne, hlast⟩ := mem_fraction_iff.1 hds
    refine ⟨⟨negative, w, ds, fun c hc => ?_, hne, hlead, hlast, fun _ _ => hfne⟩, ?_⟩
    · exact (List.mem_append.1 hc).elim (hdigits c) (hfraction c)
    · simp [chars, Decimal.joinPoint, hfne]

theorem chars_ne_minus_zero (p : Plain) : p.chars ≠ ['-', '0'] := by
  intro h
  have hread := p.ofChars?_chars
  have hzero : Decimal.ofChars? ['-', '0'] = some ⟨true, 0, 0⟩ := by decide
  rw [h, hzero, Option.some.injEq] at hread
  have hcoefficient : p.decimal.coefficient = 0 := by rw [← hread]
  have hnegative : p.decimal.negative = true := by rw [← hread]
  exact Bool.false_ne_true ((coefficient_eq_zero hcoefficient).1.symm.trans hnegative)

theorem toList_toString (n : Int) :
    (toString n).toList = Decimal.signChars (decide (n < 0)) ++ Nat.toDigits 10 n.natAbs := by
  cases n with
  | ofNat m =>
    have h : toString (Int.ofNat m) = Nat.repr m := rfl
    rw [h]
    simp [Nat.repr, Decimal.signChars]
  | negSucc m =>
    have h : toString (Int.negSucc m) = "-" ++ Nat.repr (m + 1) := rfl
    rw [h]
    simp [Nat.repr, Decimal.signChars]

theorem exists_text_eq_toString (n : Int) : ∃ p : Plain, p.text = toString n ∧ p.value = n := by
  by_cases h0 : n = 0
  · subst h0
    refine ⟨⟨false, ['0'], [], by simp, by simp, fun _ => rfl, by simp, by simp⟩, by decide, ?_⟩
    rw [Int.cast_zero]
    exact Decimal.toRat_eq_zero_iff.2 rfl
  · obtain ⟨p, hchars, hvalue⟩ := exists_plain_of_zeros (decide (n < 0)) (Int.natAbs_pos.2 h0) 0
    refine ⟨p, ?_, ?_⟩
    · rw [text, hchars, ← String.toList_inj, toList_toString]
      simp [Decimal.joinPoint]
    · rw [hvalue]
      simpa using Decimal.signed_natAbs n

end Plain

def fractionPlaces (cs : List Char) : Nat := (cs.dropWhile (· != '.')).length - 1

theorem Plain.fractionPlaces_chars (p : Plain) : fractionPlaces p.chars = p.fraction.length := by
  have hbefore : ∀ c ∈ Decimal.signChars p.negative ++ p.whole, (c != '.') = true := by
    intro c hc
    obtain hc | hc := List.mem_append.1 hc
    · cases hneg : p.negative <;> simp_all [Decimal.signChars]
    · obtain ⟨k, hk, rfl⟩ := digitChar_of_isDigit (p.isDigit_whole c hc)
      exact bne_iff_ne.2 (digitChar_ne_mark k hk).1
  by_cases hf : p.fraction = []
  · have hchars : p.chars = Decimal.signChars p.negative ++ p.whole ++ [] := by
      simp [chars, Decimal.joinPoint, hf]
    rw [hchars, fractionPlaces, List.dropWhile_append_of_pos hbefore, hf]
    rfl
  · have hchars : p.chars = Decimal.signChars p.negative ++ p.whole ++ '.' :: p.fraction := by
      simp [chars, Decimal.joinPoint, hf]
    rw [hchars, fractionPlaces, List.dropWhile_append_of_pos hbefore]
    simp

namespace Decimal

/-- The number rounded half up to `s` places after the point, a half going away from zero. -/
def roundedTo (d : Decimal) (s : Nat) : ℚ :=
  signed d.negative (⌊|d.toRat| * 10 ^ s + 1 / 2⌋ / 10 ^ s)

theorem roundedTo_eq (d : Decimal) (s : Nat) :
    d.roundedTo s = roundHalfUp d.toRat (-(s : Int)) := by
  rw [roundHalfUp_toRat, roundedTo, abs_toRat, zpow_neg, zpow_natCast, div_inv_eq_mul,
    div_eq_mul_inv]

theorem roundHalfUp_displayPlace_of_le {d : Decimal} (hd : lowestPlace fullPrecision ≤ d.exponent)
    (s : Nat) : roundHalfUp d.toRat (displayPlace s) = d.roundedTo s := by
  rw [roundedTo_eq, displayPlace]
  split
  · next hs =>
    obtain ⟨n, hn⟩ := d.exists_toRat_eq_mul
    obtain ⟨m, hm⟩ := exists_eq_mul_of_le hn hd
    obtain ⟨k, hk⟩ := exists_eq_mul_of_le hn (hs.le.trans hd)
    rw [roundHalfUp_of_eq_mul hm, roundHalfUp_of_eq_mul hk]
  · rfl

/-- The text is of the language of printed results and has no more than `s` characters behind the
point, and the number it is read as is `d` rounded half up to `s` places. -/
structure Displays (d : Decimal) (s : Nat) (r : String) : Prop where
  form : r.toList ∈ plainForm.matches'
  not_minus_zero : r ≠ "-0"
  places : fractionPlaces r.toList ≤ s
  value : ∃ n, ofChars? r.toList = some n ∧ n.toRat = d.roundedTo s

theorem displays_text {d : Decimal} {s : Nat} {p : Plain} (h : p.value = d.roundedTo s) :
    Displays d s p.text := by
  have hlist : p.text.toList = p.chars := String.toList_ofList
  refine ⟨?_, fun h0 => ?_, ?_, p.decimal, ?_, h⟩
  · rw [hlist]
    exact p.chars_mem_plainForm
  · exact p.chars_ne_minus_zero (hlist.symm.trans (congrArg String.toList h0))
  · obtain ⟨n, hn⟩ := exists_roundHalfUp_eq_mul d.toRat (-(s : Int))
    rw [hlist, p.fractionPlaces_chars]
    exact Plain.length_fraction_le ((h.trans (roundedTo_eq d s)).trans hn)
  · rw [hlist, p.ofChars?_chars]

theorem Displays.exists_plain {d : Decimal} {s : Nat} {r : String} (h : Displays d s r) :
    ∃ p : Plain, p.text = r ∧ p.value = d.roundedTo s := by
  have hlist {cs : List Char} (hcs : r.toList = cs) : r = String.ofList cs := by
    rw [← hcs, String.ofList_toList]
  obtain ⟨p, hp⟩ := Plain.exists_chars_eq h.form fun h0 => h.not_minus_zero (hlist h0)
  obtain ⟨n, hread, hvalue⟩ := h.value
  rw [← hp, p.ofChars?_chars] at hread
  obtain rfl := Option.some.inj hread
  exact ⟨p, (hlist hp.symm).symm, hvalue⟩

end Decimal

theorem formatAt_whole (d : Decimal) (s : Nat) :
    formatAt d (.whole s) = (d.format s).mapError .limit := by
  simp [formatAt, scaleOf, bind, Except.bind]

/-- A number is printed at a scale as the one text that displays it there; where that is a whole
number, it is the text of the whole number. -/
theorem formatAt_displays {d : Decimal} {s : Nat}
    (hd : Decimal.lowestPlace Decimal.fullPrecision ≤ d.exponent)
    (h : formatAt d (.whole s) ≠ .error (.limit .invalidOperation)) :
    ∃ r, formatAt d (.whole s) = .ok r ∧ d.Displays s r ∧ (∀ r', d.Displays s r' → r' = r) ∧
      ∀ n : Int, d.roundedTo s = n → r = toString n := by
  rw [formatAt_whole] at h ⊢
  obtain ⟨r, hr⟩ := exists_format_of_ne_error fun herr => h (by rw [herr, mapError_error])
  obtain ⟨p, rfl, hvalue⟩ := plain_of_format hr
  rw [Decimal.roundHalfUp_displayPlace_of_le hd] at hvalue
  refine ⟨p.text, by rw [hr, mapError_ok], Decimal.displays_text hvalue, fun r' hr' => ?_,
    fun n hn => ?_⟩
  · obtain ⟨q, rfl, hq⟩ := hr'.exists_plain
    rw [Plain.eq_of_value_eq (hq.trans hvalue.symm)]
  · obtain ⟨q, hq, hn'⟩ := Plain.exists_text_eq_toString n
    rw [Plain.eq_of_value_eq (hvalue.trans (hn.trans hn'.symm)), hq]

/-- At one place a carry runs through all the nines of `-99.95`, and the point goes with the zero
behind it. -/
theorem formatAt_displays_carry :
    Decimal.lowestPlace Decimal.fullPrecision ≤ (-2 : Int) ∧
      formatAt ⟨true, 9995, -2⟩ (.whole 1) ≠ .error (.limit .invalidOperation) ∧
      (∀ r, Decimal.Displays ⟨true, 9995, -2⟩ 1 r ↔ r = "-100") := by
  have hformat : formatAt ⟨true, 9995, -2⟩ (.whole 1) = .ok "-100" := by decide +kernel
  have hne : formatAt ⟨true, 9995, -2⟩ (.whole (1 : Nat)) ≠ .error (.limit .invalidOperation) := by
    intro h
    rw [Int.cast_ofNat_Int] at h
    cases hformat.symm.trans h
  obtain ⟨r, hr, hdisplays, hunique, -⟩ := formatAt_displays (d := ⟨true, 9995, -2⟩) (by decide) hne
  obtain rfl := Except.ok.inj (hformat.symm.trans hr)
  exact ⟨by decide, hne, fun r => ⟨hunique r, fun h => h ▸ hdisplays⟩⟩

end Reckoner
