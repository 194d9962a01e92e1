import Mathlib.Data.Int.Log
import Mathlib.Data.Rat.Floor
import Mathlib.Tactic.FieldSimp
import Mathlib.Tactic.LinearCombination
import Mathlib.Tactic.Linarith
import Mathlib.Tactic.Ring
import Reckoner.Operator.Apply

/-! The rational number that a decimal number stands for. Sums, products and remainders of decimal
numbers stand for those of the rational numbers. -/
namespace Reckoner.Decimal

def signed (negative : Bool) (q : ℚ) : ℚ := if negative then -q else q

def toRat (d : Decimal) : ℚ := signed d.negative (d.coefficient * (10 : ℚ) ^ d.exponent)

@[simp] theorem signed_not (b : Bool) (q : ℚ) : signed (!b) q = -signed b q := by
  cases b <;> simp [signed]

@[simp] theorem signed_zero (b : Bool) : signed b 0 = 0 := by cases b <;> simp [signed]

theorem signed_xor (a b : Bool) (q r : ℚ) : signed (a ^^ b) (q * r) = signed a q * signed b r := by
  cases a <;> cases b <;> simp [signed]

@[simp] theorem abs_signed (b : Bool) (q : ℚ) : |signed b q| = |q| := by
  cases b <;> simp [signed]

theorem cast_pow10 (k : Nat) : (pow10 k : ℚ) = (10 : ℚ) ^ k := Nat.cast_pow 10 k

theorem zpow_toNat {e : Int} (h : 0 ≤ e) : (10 : ℚ) ^ e.toNat = (10 : ℚ) ^ e := by
  rw [← zpow_natCast, Int.toNat_of_nonneg h]

theorem ten_zpow_pos (e : Int) : (0 : ℚ) < (10 : ℚ) ^ e := zpow_pos (by norm_num) e

theorem ten_zpow_add (a b : Int) : (10 : ℚ) ^ (a + b) = (10 : ℚ) ^ a * (10 : ℚ) ^ b :=
  zpow_add₀ (by norm_num) a b

theorem mul_pow10_of_mul_zpow {m n : Nat} {e : Int} (h : (m : ℚ) * (10 : ℚ) ^ e = n) :
    m * pow10 e.toNat = n * pow10 (-e).toNat := by
  have hexp : (10 : ℚ) ^ e.toNat = (10 : ℚ) ^ e * (10 : ℚ) ^ (-e).toNat := by
    rw [← zpow_natCast, ← zpow_natCast, ← ten_zpow_add]
    congr 1
    omega
  have hq : (m : ℚ) * (10 : ℚ) ^ e.toNat = n * (10 : ℚ) ^ (-e).toNat := by
    rw [← h, hexp]
    ring
  rw [← cast_pow10, ← cast_pow10] at hq
  exact_mod_cast hq

theorem abs_toRat (d : Decimal) : |d.toRat| = d.coefficient * (10 : ℚ) ^ d.exponent := by
  rw [toRat, abs_signed, abs_of_nonneg]
  exact mul_nonneg (Nat.cast_nonneg _) (ten_zpow_pos _).le

theorem toRat_eq_zero_iff {d : Decimal} : d.toRat = 0 ↔ d.coefficient = 0 := by
  rw [← abs_eq_zero, abs_toRat, mul_eq_zero, Nat.cast_eq_zero]
  simp [(ten_zpow_pos d.exponent).ne']

theorem coefficient_eq_of_toRat_eq {a b : Decimal} (h : a.toRat = b.toRat)
    (he : a.exponent = b.exponent) : a.coefficient = b.coefficient := by
  have habs : |a.toRat| = |b.toRat| := congrArg _ h
  rw [abs_toRat, abs_toRat, he] at habs
  exact_mod_cast mul_right_cancel₀ (ten_zpow_pos _).ne' habs

theorem toRat_lt_zero_iff {d : Decimal} : d.toRat < 0 ↔ d.negative = true ∧ d.coefficient ≠ 0 := by
  have hpos := ten_zpow_pos d.exponent
  cases hneg : d.negative with
  | false =>
    have hnonneg := mul_nonneg (Nat.cast_nonneg (α := ℚ) d.coefficient) hpos.le
    simp [toRat, hneg, signed, hnonneg]
  | true => simp [toRat, hneg, signed, hpos, Nat.pos_iff_ne_zero]

theorem coefficientAt_mul {d : Decimal} {e : Int} (h : e ≤ d.exponent) :
    (d.coefficientAt e : ℚ) * (10 : ℚ) ^ e = d.coefficient * (10 : ℚ) ^ d.exponent := by
  unfold coefficientAt
  split
  · next hc => simp [hc]
  · have hexp : (10 : ℚ) ^ (d.exponent - e) * (10 : ℚ) ^ e = (10 : ℚ) ^ d.exponent := by
      rw [← ten_zpow_add, Int.sub_add_cancel]
    rw [Nat.cast_mul, cast_pow10, zpow_toNat (by omega), ← hexp]
    ring

theorem signedAt_mul {d : Decimal} {e : Int} (h : e ≤ d.exponent) :
    (d.signedAt e : ℚ) * (10 : ℚ) ^ e = d.toRat := by
  rw [toRat, ← coefficientAt_mul h]
  unfold signedAt signed
  split <;> simp

theorem exists_toRat_eq_mul (d : Decimal) : ∃ n : Int, d.toRat = n * (10 : ℚ) ^ d.exponent :=
  ⟨d.signedAt d.exponent, (signedAt_mul (Int.le_refl _)).symm⟩

theorem commonExponent_le (a b : Decimal) :
    a.commonExponent b ≤ a.exponent ∧ a.commonExponent b ≤ b.exponent := by
  unfold commonExponent
  split <;> omega

theorem commonExponent_eq_min (a b : Decimal) :
    a.commonExponent b = min a.exponent b.exponent := by
  rw [commonExponent]
  split <;> omega

@[simp] theorem toRat_ofNat (n : Nat) : (ofNat n).toRat = n := by simp [toRat, ofNat, signed]

@[simp] theorem toRat_one : one.toRat = 1 := by simp [one]

@[simp] theorem toRat_neg (d : Decimal) : d.neg.toRat = -d.toRat := by simp [toRat, neg]

theorem signed_natAbs (n : Int) : signed (decide (n < 0)) (n.natAbs : ℚ) = n := by
  by_cases h : n < 0
  · simp [signed, h, Nat.cast_natAbs, abs_of_neg h]
  · simp [signed, h, Nat.cast_natAbs, abs_of_nonneg (Int.not_lt.1 h)]

theorem signed_mul (b : Bool) (q r : ℚ) : signed b (q * r) = signed b q * r := by
  cases b <;> simp [signed]

@[simp] theorem toRat_add (a b : Decimal) : (a.add b).toRat = a.toRat + b.toRat := by
  have ha := signedAt_mul (commonExponent_le a b).1
  have hb := signedAt_mul (commonExponent_le a b).2
  rw [← ha, ← hb, ← add_mul, ← Int.cast_add]
  simp only [add, toRat]
  generalize a.signedAt (a.commonExponent b) + b.signedAt (a.commonExponent b) = s
  rw [signed_mul]
  congr 1
  by_cases hs : s = 0
  · simp [hs]
  · simp only [hs, if_false, signed_natAbs]

@[simp] theorem toRat_sub (a b : Decimal) : (a.sub b).toRat = a.toRat - b.toRat := by
  rw [sub, toRat_add, toRat_neg, ← sub_eq_add_neg]

@[simp] theorem toRat_mul (a b : Decimal) : (a.mul b).toRat = a.toRat * b.toRat := by
  simp only [mul, toRat, ← signed_xor, ten_zpow_add, Nat.cast_mul]
  congr 1
  ring

def towardZero (q : ℚ) : Int := if q < 0 then ⌈q⌉ else ⌊q⌋

/-- What is left of `q` after taking away a whole multiple of `r`, with the sign of `q`. -/
def remainder (q r : ℚ) : ℚ := q - r * towardZero (q / r)

theorem towardZero_neg (q : ℚ) : towardZero (-q) = -towardZero q := by
  simp only [towardZero, Left.neg_neg_iff, Int.ceil_neg, Int.floor_neg]
  split_ifs with h1 h2 h2
  · linarith
  · rfl
  · rfl
  · obtain rfl : q = 0 := by linarith
    simp

theorem remainder_signed (a b : Bool) (q r : ℚ) :
    remainder (signed a q) (signed b r) = signed a (remainder q r) := by
  cases a <;> cases b <;>
    simp [signed, remainder, neg_div, div_neg, towardZero_neg] <;> ring

theorem towardZero_div (m n : Nat) : towardZero ((m : ℚ) / n) = (m / n : Nat) := by
  have h : ¬ ((m : ℚ) / n < 0) := not_lt.2 (by positivity)
  rw [towardZero, if_neg h, Rat.floor_natCast_div_natCast]
  rfl

theorem remainder_natCast (m n : Nat) (e : Int) :
    remainder (m * (10 : ℚ) ^ e) (n * (10 : ℚ) ^ e) = (m % n : Nat) * (10 : ℚ) ^ e := by
  have hmod : (m : ℚ) = n * (m / n : Nat) + (m % n : Nat) := by
    exact_mod_cast (Nat.div_add_mod m n).symm
  rw [remainder, mul_div_mul_right _ _ (ten_zpow_pos e).ne', towardZero_div, Int.cast_natCast]
  linear_combination (10 : ℚ) ^ e * hmod

theorem log_ten_zpow (e : Int) : Int.log 10 ((10 : ℚ) ^ e) = e := by
  have h := Int.log_zpow (R := ℚ) (b := 10) (by norm_num) e
  rwa [Nat.cast_ofNat] at h

theorem pow10_le_of_ne_zero {n : Nat} (h : n ≠ 0) : pow10 (digitCount n - 1) ≤ n := by
  by_cases h1 : digitCount n = 1
  · simpa [h1] using Nat.one_le_iff_ne_zero.2 h
  · have hpos := digitCount_pos n
    refine Nat.le_of_not_lt fun hlt => ?_
    have := (digitCount_le_iff (by omega)).2 hlt
    omega

theorem log_abs_toRat {d : Decimal} (h : d.coefficient ≠ 0) :
    Int.log 10 |d.toRat| = d.adjusted := by
  have hpos : 0 < |d.toRat| := abs_pos.2 (toRat_eq_zero_iff.not.2 h)
  have hdigits := digitCount_pos d.coefficient
  have hlow : d.adjusted ≤ Int.log 10 |d.toRat| := by
    refine (Int.zpow_le_iff_le_log (by norm_num) hpos).1 ?_
    have hsplit : d.adjusted = ((digitCount d.coefficient - 1 : Nat) : Int) + d.exponent := by
      simp only [adjusted]
      omega
    rw [abs_toRat, hsplit, Nat.cast_ofNat, ten_zpow_add, zpow_natCast, ← cast_pow10]
    have hn := pow10_le_of_ne_zero h
    exact mul_le_mul_of_nonneg_right (by exact_mod_cast hn) (ten_zpow_pos _).le
  have hhigh : Int.log 10 |d.toRat| < d.adjusted + 1 := by
    refine (Int.lt_zpow_iff_log_lt (by norm_num) hpos).1 ?_
    have hsplit : d.adjusted + 1 = (digitCount d.coefficient : Int) + d.exponent := by
      simp only [adjusted]
      omega
    rw [abs_toRat, hsplit, Nat.cast_ofNat, ten_zpow_add, zpow_natCast, ← cast_pow10]
    have hn := lt_pow10_digitCount d.coefficient
    exact mul_lt_mul_of_pos_right (by exact_mod_cast hn) (ten_zpow_pos _)
  omega

theorem coefficientAt_lt {a b : Decimal} (hb : b.coefficient ≠ 0) (h : a.adjusted < b.adjusted) :
    a.coefficientAt (a.commonExponent b) < b.coefficientAt (a.commonExponent b) := by
  have hlt : |a.toRat| < |b.toRat| := by
    by_cases ha : a.coefficient = 0
    · rw [toRat_eq_zero_iff.2 ha, abs_zero]
      exact abs_pos.2 (toRat_eq_zero_iff.not.2 hb)
    · refine lt_of_not_ge fun hle => ?_
      have hmono := Int.log_mono_right (b := 10) (abs_pos.2 (toRat_eq_zero_iff.not.2 hb)) hle
      rw [log_abs_toRat ha, log_abs_toRat hb] at hmono
      omega
  obtain ⟨ha, hb⟩ := commonExponent_le a b
  rw [abs_toRat, abs_toRat, ← coefficientAt_mul ha, ← coefficientAt_mul hb] at hlt
  exact_mod_cast lt_of_mul_lt_mul_right hlt (ten_zpow_pos _).le

theorem coefficient_rem {a b : Decimal} (hb : b.coefficient ≠ 0) :
    (a.rem b).coefficient =
      a.coefficientAt (a.commonExponent b) % b.coefficientAt (a.commonExponent b) := by
  simp only [rem]
  split
  · next h => exact (Nat.mod_eq_of_lt (coefficientAt_lt hb h)).symm
  · exact (coefficientAt_mod ..).symm

theorem toRat_rem {a b : Decimal} (hb : b.coefficient ≠ 0) :
    (a.rem b).toRat = remainder a.toRat b.toRat := by
  obtain ⟨hea, heb⟩ := commonExponent_le a b
  rw [toRat, coefficient_rem hb, toRat, toRat, ← coefficientAt_mul hea, ← coefficientAt_mul heb,
    remainder_signed, remainder_natCast]
  rfl

end Reckoner.Decimal
