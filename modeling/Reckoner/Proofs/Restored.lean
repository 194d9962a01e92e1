import Reckoner.Proofs.Division
import Reckoner.Proofs.Exact
import Reckoner.Proofs.PlainForm

/-! Dividing and multiplying back. Main statement: what is lost of a quotient that does not end is
too little to be seen in print, so long as the dividend has no digit below the scale and is not
larger than the digits of a quotient allow. -/
namespace Reckoner
open Decimal

namespace Decimal

theorem exists_eq_mul_displayPlace {d : Decimal} {s : Nat} {m : Int}
    (hd : lowestPlace fullPrecision ≤ d.exponent) (hm : d.toRat = m * (10 : ℚ) ^ (-(s : Int))) :
    ∃ n : Int, d.toRat = n * (10 : ℚ) ^ displayPlace s := by
  rw [displayPlace]
  split
  · obtain ⟨n, hn⟩ := d.exists_toRat_eq_mul
    exact exists_eq_mul_of_le hn hd
  · exact ⟨m, hm⟩

theorem log_add_lt_of_abs_le {q : ℚ} {k : Int} {s : Nat} (hk : k < fullPrecision)
    (h : |q| ≤ (10 : ℚ) ^ (k - s)) (hq : q ≠ 0) : Int.log 10 |q| + s < fullPrecision := by
  have hlog := Int.log_mono_right (b := 10) (abs_pos.2 hq) h
  rw [log_ten_zpow] at hlog
  omega

theorem format_eq_of_roundHalfUp_eq {d r : Decimal} {s : Nat}
    (hd : d.toRat ≠ 0 → Int.log 10 |d.toRat| + s < fullPrecision)
    (hr : r.toRat ≠ 0 → Int.log 10 |r.toRat| + s < fullPrecision)
    (h : roundHalfUp r.toRat (displayPlace s) = roundHalfUp d.toRat (displayPlace s)) :
    r.format s = d.format s := by
  by_cases hs : s ≤ widestShift
  · obtain ⟨t, ht⟩ := exists_format hs hd
    obtain ⟨u, hu⟩ := exists_format hs hr
    obtain ⟨p, rfl, hp⟩ := plain_of_format ht
    obtain ⟨p', rfl, hp'⟩ := plain_of_format hu
    rw [ht, hu, Plain.eq_of_value_eq (hp'.trans (h.trans hp.symm))]
  · have hwide (x : Decimal) : x.format s = .error .invalidOperation :=
      if_pos (.inl (Nat.lt_of_not_le hs))
    rw [hwide, hwide]

theorem format_eq_of_near {d r : Decimal} {s : Nat} {m k : Int}
    (hd : lowestPlace fullPrecision ≤ d.exponent) (hm : d.toRat = m * (10 : ℚ) ^ (-(s : Int)))
    (h0 : 0 ≤ k) (hk : k + 1 < fullPrecision) (hle : |d.toRat| ≤ (10 : ℚ) ^ (k - s))
    (h : |r.toRat - d.toRat| < (10 : ℚ) ^ (-(s : Int)) / 2) : r.format s = d.format s := by
  obtain ⟨n, hn⟩ := exists_eq_mul_displayPlace hd hm
  have hround : roundHalfUp r.toRat (displayPlace s) = d.toRat := by
    refine roundHalfUp_of_near hn (h.trans_le ?_)
    gcongr
    · norm_num
    · exact neg_le_displayPlace s
  have hsmall : |r.toRat| ≤ (10 : ℚ) ^ (k + 1 - s) := by
    have hunit : (10 : ℚ) ^ (-(s : Int)) ≤ (10 : ℚ) ^ (k - s) :=
      zpow_le_zpow_right₀ (by norm_num) (by omega)
    have hten : (10 : ℚ) ^ (k + 1 - s) = (10 : ℚ) ^ (k - s) * 10 := by
      rw [← zpow_add_one₀ (by norm_num), sub_add_eq_add_sub]
    have htriangle := abs_sub_abs_le_abs_sub r.toRat d.toRat
    have hpos := ten_zpow_pos (-(s : Int))
    linarith
  refine format_eq_of_roundHalfUp_eq (log_add_lt_of_abs_le (by omega) hle)
    (log_add_lt_of_abs_le hk hsmall) ?_
  rw [hround, roundHalfUp_of_eq_mul hn]

/-- The quotient `q` as it is found, and the product with it, are within the limits. -/
structure Reversible (a b : Decimal) (q : ℚ) : Prop where
  found : FoundQuotient Settings.arithmetic.divisionPrecision (a.toRat / b.toRat) q
  low : bottomExponent ≤ Int.log 10 |a.toRat / b.toRat|
  high : ¬ Beyond q
  product : Representable (q * b.toRat)

section Reversible
variable {a b : Decimal} {q : ℚ} (h : Reversible a b q) (hb : b.toRat ≠ 0)
include h hb

theorem Reversible.inLimits : InLimits q := by
  refine ⟨?_, not_lt.1 h.high⟩
  cases h.found with
  | exact ht => exact h.low
  | rounded ht =>
    have hp : 0 < Settings.arithmetic.divisionPrecision := by decide
    have ha := coefficient_ne_zero_of_not_terminates ht
    have hbc := toRat_eq_zero_iff.not.1 hb
    rw [← toRat_roundedQuotient hp ha hbc]
    by_cases hc : (roundedQuotient Settings.arithmetic.divisionPrecision a b).coefficient = 0
    · rw [toRat_eq_zero_iff.2 hc]
      exact inLimits_zero.1
    · rw [log_abs_toRat hc]
      exact h.low.trans (adjusted_roundedQuotient hp hbc ha h.low).1

theorem Reversible.yields_divide : Yields (BinaryOperator.div.apply a b) q := by
  have hdivide : BinaryOperator.div.apply a b =
      (a.quotient Settings.arithmetic.divisionPrecision b).mapError .limit :=
    if_neg (toRat_eq_zero_iff.not.1 hb)
  rw [hdivide]
  exact (yields_found (by decide) hb h.found (h.inLimits hb)).mapError _

/-- Half a unit of the last digit of the quotient, times the divisor, is half a unit of that digit
of the dividend. -/
theorem Reversible.abs_mul_sub_lt {e : Int} (ha : |a.toRat| ≤ (10 : ℚ) ^ (33 + e)) :
    |q * b.toRat - a.toRat| < (10 : ℚ) ^ e / 2 := by
  have hlow := h.low
  -- an exact quotient gives the dividend back; a rounded one is off by half its last digit
  cases h.found with
  | exact ht =>
    rw [div_mul_cancel₀ _ hb, sub_self, abs_zero]
    exact half_pos (ten_zpow_pos e)
  | rounded ht =>
    have hq : |a.toRat / b.toRat| * |b.toRat| = |a.toRat| := by
      rw [← abs_mul, div_mul_cancel₀ _ hb]
    have hleast := Int.zpow_log_le_self (b := 10) (by norm_num) (abs_toRat_div_pos
      (coefficient_ne_zero_of_not_terminates ht) (toRat_eq_zero_iff.not.1 hb))
    rw [Nat.cast_ofNat] at hleast
    have hplace : quotientPlace Settings.arithmetic.divisionPrecision (a.toRat / b.toRat) =
        Int.log 10 |a.toRat / b.toRat| + -33 := by
      rw [quotientPlace_of_le hlow]
      simp only [Settings.arithmetic]
      omega
    have herr := abs_roundHalfUp_sub_lt ht (Int.log 10 |a.toRat / b.toRat| + -33)
    have hsub (x : ℚ) : x * b.toRat - a.toRat = (x - a.toRat / b.toRat) * b.toRat := by
      rw [sub_mul, div_mul_cancel₀ _ hb]
    rw [hplace, hsub, abs_mul]
    generalize a.toRat / b.toRat = x at hq hleast herr ⊢
    calc |roundHalfUp x (Int.log 10 |x| + -33) - x| * |b.toRat|
        < (10 : ℚ) ^ (Int.log 10 |x| + -33) / 2 * |b.toRat| :=
          mul_lt_mul_of_pos_right herr (abs_pos.2 hb)
      _ = (10 : ℚ) ^ (-33 : Int) / 2 * ((10 : ℚ) ^ Int.log 10 |x| * |b.toRat|) := by
          rw [ten_zpow_add]
          ring
      _ ≤ (10 : ℚ) ^ (-33 : Int) / 2 * (|x| * |b.toRat|) := by gcongr
      _ ≤ (10 : ℚ) ^ (-33 : Int) / 2 * (10 : ℚ) ^ (33 + e) := by
          rw [hq]
          gcongr
      _ = (10 : ℚ) ^ e / 2 := by
          rw [ten_zpow_add]
          norm_num
          ring

end Reversible
end Decimal

/-- A number of the format with no digit below the scale `s` and no more than `10 ^ 33` units of it
is printed at that scale as before after it was divided and multiplied back, also where the quotient
does not end. -/
theorem format_restored {a b : Decimal} {q : ℚ} {s : Nat} {m : Int}
    (ha : lowestPlace fullPrecision ≤ a.exponent) (hm : a.toRat * 10 ^ s = m)
    (hmax : |m| ≤ 10 ^ 33) (hb : b.toRat ≠ 0) (h : Reversible a b q) :
    (BinaryOperator.div.apply a b >>= fun x => BinaryOperator.mul.apply x b >>= fun r =>
      formatAt r (.whole s)) = formatAt a (.whole s) ∧
    (s ≤ widestShift → ∃ text, formatAt a (.whole s) = .ok text) := by
  have hvalue : a.toRat = m * (10 : ℚ) ^ (-(s : Int)) := by
    rw [← hm, zpow_neg, zpow_natCast, mul_inv_cancel_right₀ (by positivity)]
  have habs : |a.toRat| ≤ (10 : ℚ) ^ (33 + -(s : Int)) := by
    have hunit := ten_zpow_pos (-(s : Int))
    have hmax' : |(m : ℚ)| ≤ (10 : ℚ) ^ (33 : Int) := by exact_mod_cast hmax
    rw [hvalue, abs_mul, abs_of_pos hunit, ten_zpow_add]
    exact mul_le_mul_of_nonneg_right hmax' hunit.le
  -- the product of the quotient is so near to `a` that nothing is lost at the scale
  have hnear := h.abs_mul_sub_lt hb habs
  obtain ⟨x, hx, hxq⟩ := h.yields_divide hb
  obtain ⟨r, hr, hrq⟩ : Yields (BinaryOperator.mul.apply x b) (q * b.toRat) := by
    rw [← hxq]
    exact BinaryOperator.yields_apply (o := .mul) trivial (hxq ▸ h.product)
  rw [← hrq] at hnear
  have hformat : r.format s = a.format s :=
    format_eq_of_near ha hvalue (by norm_num) (by decide) habs hnear
  refine ⟨?_, fun hs => ?_⟩
  · calc (BinaryOperator.div.apply a b >>= fun x => BinaryOperator.mul.apply x b >>= fun r =>
          formatAt r (.whole s))
        = (BinaryOperator.mul.apply x b >>= fun r => formatAt r (.whole s)) := by
          rw [hx]
          rfl
      _ = formatAt r (.whole s) := by
          rw [hr]
          rfl
      _ = formatAt a (.whole s) := by rw [formatAt_whole, formatAt_whole, hformat]
  · obtain ⟨text, htext⟩ := exists_format hs (log_add_lt_of_abs_le (by decide) habs)
    exact ⟨text, by rw [formatAt_whole, htext, mapError_ok]⟩

/-- A third times three is a row of nines, and is printed as `1`. -/
theorem format_restored_third :
    (BinaryOperator.div.apply ⟨false, 1, 0⟩ ⟨false, 3, 0⟩ >>= fun x =>
      BinaryOperator.mul.apply x ⟨false, 3, 0⟩ >>= fun r => formatAt r (.whole 2)) = .ok "1" := by
  have hone : (Decimal.mk false 1 0).toRat = 1 := by norm_num [toRat, signed]
  have hthree : (Decimal.mk false 3 0).toRat = 3 := by norm_num [toRat, signed]
  have hlog : Int.log 10 |(1 / 3 : ℚ)| = -1 := by
    rw [← hone, ← hthree, log_abs_div (by decide) (by decide)]
    decide
  have hplace : quotientPlace Settings.arithmetic.divisionPrecision (1 / 3) = -34 := by
    rw [quotientPlace, hlog]
    decide
  have hrow : roundHalfUp (1 / 3) (-34) =
      (Decimal.mk false 3333333333333333333333333333333333 (-34)).toRat := by
    norm_num [roundHalfUp, toRat, signed]
  have hnines : (Decimal.mk false 3333333333333333333333333333333333 (-34)).toRat * 3 =
      (Decimal.mk false 9999999999999999999999999999999999 (-34)).toRat := by
    norm_num [toRat, signed]
  have h : Reversible ⟨false, 1, 0⟩ ⟨false, 3, 0⟩
      (Decimal.mk false 3333333333333333333333333333333333 (-34)).toRat := by
    have ht := (exactQuotient?_eq_none_iff (a := ⟨false, 1, 0⟩) (b := ⟨false, 3, 0⟩)
      (by decide)).1 (by decide)
    refine ⟨?_, ?_, ?_, ?_⟩
    · rw [foundQuotient_rounded_iff ht, hone, hthree, hplace, hrow]
    · rw [hone, hthree, hlog]
      decide
    · rw [beyond_toRat_iff]
      decide
    · rw [hthree, hnines]
      exact representable_of_inRange (by decide)
  have hformat : formatAt ⟨false, 1, 0⟩ (.whole 2) = .ok "1" := by decide +kernel
  exact (format_restored (s := 2) (m := 100) (by decide) (by rw [hone]; norm_num) (by norm_num)
    (by rw [hthree]; norm_num) h).1.trans hformat

end Reckoner
