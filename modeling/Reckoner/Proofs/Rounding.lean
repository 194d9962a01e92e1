import Reckoner.Decimal.Fixed
import Reckoner.Proofs.Value

/-! Rounding half up over the rational numbers, and the rounding of decimal numbers as a case of
it. -/
namespace Reckoner.Decimal

/-- The multiple of `10 ^ e` nearest to `q`, a half going away from zero. -/
def roundHalfUp (q : ℚ) (e : Int) : ℚ :=
  signed (decide (q < 0)) (⌊|q| / (10 : ℚ) ^ e + 1 / 2⌋ * (10 : ℚ) ^ e)

theorem floor_div_add_half (n : Nat) {d : Nat} (hd : 0 < d) :
    ⌊(n : ℚ) / d + 1 / 2⌋ = halfUp n d := by
  have hd' : (d : ℚ) ≠ 0 := Nat.cast_ne_zero.2 hd.ne'
  have hsum : (n : ℚ) / d + 1 / 2 = ((2 * n + d : Nat) : ℚ) / (2 * d : Nat) := by
    push_cast
    field_simp
  rw [hsum, Rat.floor_natCast_div_natCast, halfUp]
  rfl

theorem floor_add_half (n : Nat) : ⌊(n : ℚ) + 1 / 2⌋ = n := by
  have h := floor_div_add_half n Nat.one_pos
  rw [Nat.cast_one, div_one] at h
  rw [h, halfUp]
  omega

theorem roundHalfUp_zero (e : Int) : roundHalfUp 0 e = 0 := by norm_num [roundHalfUp, signed]

theorem roundHalfUp_toRat (d : Decimal) (e : Int) :
    roundHalfUp d.toRat e = signed d.negative
      (⌊d.coefficient * (10 : ℚ) ^ d.exponent / (10 : ℚ) ^ e + 1 / 2⌋ * (10 : ℚ) ^ e) := by
  by_cases hc : d.coefficient = 0
  · rw [toRat_eq_zero_iff.2 hc, roundHalfUp_zero, hc]
    norm_num
  · have hsign : decide (d.toRat < 0) = d.negative := by simp [toRat_lt_zero_iff, hc]
    rw [roundHalfUp, hsign, abs_toRat]

theorem toRat_roundTo (d : Decimal) (e : Int) : (d.roundTo e).toRat = roundHalfUp d.toRat e := by
  rw [roundHalfUp_toRat, roundTo]
  split
  · next h =>
    have hquot : d.coefficient * (10 : ℚ) ^ d.exponent / (10 : ℚ) ^ e =
        (d.coefficient : ℚ) / (pow10 (e - d.exponent).toNat : Nat) := by
      rw [cast_pow10, zpow_toNat (by omega), zpow_sub₀ (by norm_num)]
      field_simp
    rw [hquot, floor_div_add_half _ (pow10_pos _), toRat, coefficient_roundAt, Int.cast_natCast]
    rfl
  · next h =>
    have hquot : d.coefficient * (10 : ℚ) ^ d.exponent / (10 : ℚ) ^ e =
        (d.coefficientAt e : ℚ) := by
      rw [← coefficientAt_mul (Int.not_lt.1 h), mul_div_cancel_right₀ _ (ten_zpow_pos e).ne']
    rw [hquot, floor_add_half, Int.cast_natCast, coefficientAt_mul (Int.not_lt.1 h), toRat]

theorem exists_roundHalfUp_eq_mul (q : ℚ) (e : Int) :
    ∃ n : Int, roundHalfUp q e = n * (10 : ℚ) ^ e := by
  rw [roundHalfUp, signed]
  split
  · exact ⟨-⌊|q| / (10 : ℚ) ^ e + 1 / 2⌋, by rw [Int.cast_neg, neg_mul]⟩
  · exact ⟨_, rfl⟩

theorem exists_eq_mul_of_le {q : ℚ} {n a b : Int} (h : q = n * (10 : ℚ) ^ a) (hab : b ≤ a) :
    ∃ m : Int, q = m * (10 : ℚ) ^ b := by
  obtain ⟨k, rfl⟩ := Int.le.dest hab
  refine ⟨n * 10 ^ k, ?_⟩
  rw [h, ten_zpow_add, zpow_natCast]
  push_cast
  ring

theorem roundHalfUp_of_eq_mul {q : ℚ} {n e : Int} (h : q = n * (10 : ℚ) ^ e) :
    roundHalfUp q e = q := by
  have hquot : |q| / (10 : ℚ) ^ e = (n.natAbs : ℚ) := by
    rw [h, abs_mul, abs_of_pos (ten_zpow_pos e), mul_div_cancel_right₀ _ (ten_zpow_pos e).ne',
      Nat.cast_natAbs, Int.cast_abs]
  have habs : (n.natAbs : ℚ) * (10 : ℚ) ^ e = |q| := by
    rw [← hquot, div_mul_cancel₀ _ (ten_zpow_pos e).ne']
  rw [roundHalfUp, hquot, floor_add_half, Int.cast_natCast, habs]
  by_cases hq : q < 0
  · simp [signed, hq, abs_of_neg hq]
  · simp [signed, hq, abs_of_nonneg (not_lt.1 hq)]

theorem abs_roundHalfUp_le {q : ℚ} {n : Nat} {e : Int} (h : |q| ≤ n * (10 : ℚ) ^ e) :
    |roundHalfUp q e| ≤ n * (10 : ℚ) ^ e := by
  have hle : |q| / (10 : ℚ) ^ e ≤ n := (div_le_iff₀ (ten_zpow_pos e)).2 h
  have hfloor : ⌊|q| / (10 : ℚ) ^ e + 1 / 2⌋ ≤ n := by
    have hmono := Int.floor_mono (add_le_add_left hle (1 / 2))
    rwa [floor_add_half] at hmono
  have hnonneg : 0 ≤ ⌊|q| / (10 : ℚ) ^ e + 1 / 2⌋ := by
    have hdiv : 0 ≤ |q| / (10 : ℚ) ^ e := div_nonneg (abs_nonneg q) (ten_zpow_pos e).le
    exact Int.floor_nonneg.2 (by linarith)
  have hcast : ((⌊|q| / (10 : ℚ) ^ e + 1 / 2⌋ : Int) : ℚ) ≤ n := by exact_mod_cast hfloor
  rw [roundHalfUp, abs_signed, abs_mul, abs_of_pos (ten_zpow_pos e),
    abs_of_nonneg (Int.cast_nonneg hnonneg)]
  exact mul_le_mul_of_nonneg_right hcast (ten_zpow_pos e).le

end Reckoner.Decimal
