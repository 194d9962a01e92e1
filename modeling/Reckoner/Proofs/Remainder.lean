import Reckoner.Proofs.Division
import Reckoner.Proofs.Overflow

/-! Remainders to the last digit. Main statement: the remainder is what a whole number of divisors
leaves of the dividend, as many as fit in it, with the sign of the dividend and the lower of the
exponents; so it is its own remainder, and the sign of the divisor does not count. -/
namespace Reckoner
open Decimal

namespace Decimal

/-- The numbers of the format: no digit stands below the lowest place and none above the limits. -/
def InFormat (d : Decimal) : Prop :=
  lowestPlace fullPrecision ≤ d.exponent ∧ d.adjusted ≤ topExponent

instance (d : Decimal) : Decidable d.InFormat := inferInstanceAs (Decidable (_ ∧ _))

/-- The whole quotient has no more digits than any precision holds. -/
def Near (a b : Decimal) : Prop := a.coefficient ≠ 0 → a.adjusted - b.adjusted ≤ fullPrecision

instance (a b : Decimal) : Decidable (a.Near b) := inferInstanceAs (Decidable (_ → _))

theorem InFormat.held {d : Decimal} (h : d.InFormat) : d.Held fullPrecision := ⟨h.2, .inr h.1⟩

theorem InFormat.exponent_le {d : Decimal} (h : d.InFormat) : d.exponent ≤ topExponent := by
  have hpos := digitCount_pos d.coefficient
  have htop := h.2
  rw [adjusted] at htop
  omega

theorem adjusted_zero {d : Decimal} (h : d.coefficient = 0) : d.adjusted = d.exponent := by
  have hzero : digitCount 0 = 1 := by decide
  rw [adjusted, h, hzero]
  omega

theorem adjusted_le_of_abs_lt {a b : Decimal} (ha : a.coefficient ≠ 0) (h : |a.toRat| < |b.toRat|) :
    a.adjusted ≤ b.adjusted := by
  have hpos : 0 < |a.toRat| := abs_pos.2 (toRat_eq_zero_iff.not.2 ha)
  have hb : b.coefficient ≠ 0 := toRat_eq_zero_iff.not.1 (abs_pos.1 (hpos.trans h))
  rw [← log_abs_toRat ha, ← log_abs_toRat hb]
  exact Int.log_mono_right hpos h.le

section Remainder
variable {a b : Decimal} (hb : b.coefficient ≠ 0)
include hb

theorem coefficientAt_pos {e : Int} : 0 < b.coefficientAt e := by
  rw [coefficientAt, if_neg hb]
  exact Nat.mul_pos (Nat.pos_of_ne_zero hb) (pow10_pos _)

theorem abs_rem_lt : |(a.rem b).toRat| < |b.toRat| := by
  have hlt := Nat.mod_lt (a.coefficientAt (a.commonExponent b))
    (coefficientAt_pos hb (e := a.commonExponent b))
  have hexp : (a.rem b).exponent = a.commonExponent b := rfl
  rw [abs_toRat, abs_toRat, coefficient_rem hb, hexp, ← coefficientAt_mul (commonExponent_le a b).2]
  exact mul_lt_mul_of_pos_right (by exact_mod_cast hlt) (ten_zpow_pos _)

theorem rem_rem : (a.rem b).rem b = a.rem b := by
  have hexp : (a.rem b).commonExponent b = a.commonExponent b := by
    have hle := (commonExponent_le a b).2
    exact if_pos hle
  have hcoefficient : ((a.rem b).rem b).coefficient = (a.rem b).coefficient := by
    have hsame : (a.rem b).coefficientAt (a.commonExponent b) = (a.rem b).coefficient := by
      have hexp : (a.rem b).exponent = a.commonExponent b := rfl
      rw [coefficientAt, hexp, Int.sub_self, Int.toNat_zero, pow10_zero, Nat.mul_one]
      split
      · next h => exact h.symm
      · rfl
    rw [coefficient_rem hb, hexp, hsame, coefficient_rem hb, Nat.mod_mod]
  calc (a.rem b).rem b
      = ⟨a.negative, ((a.rem b).rem b).coefficient, (a.rem b).commonExponent b⟩ := rfl
    _ = a.rem b := by rw [hcoefficient, hexp]; rfl

theorem near_rem : (a.rem b).Near b := by
  intro hc
  have hle := adjusted_le_of_abs_lt hc (abs_rem_lt hb)
  omega

theorem inFormat_rem (ha : a.InFormat) (hbf : b.InFormat) : (a.rem b).InFormat := by
  have hexp : (a.rem b).exponent = min a.exponent b.exponent := commonExponent_eq_min a b
  refine ⟨hexp ▸ le_min ha.1 hbf.1, ?_⟩
  by_cases hc : (a.rem b).coefficient = 0
  · rw [adjusted_zero hc, hexp]
    exact (min_le_left _ _).trans ha.exponent_le
  · exact (adjusted_le_of_abs_lt hc (abs_rem_lt hb)).trans hbf.2

theorem eq_mul_add_rem :
    a.toRat = towardZero (a.toRat / b.toRat) * b.toRat + (a.rem b).toRat := by
  rw [toRat_rem hb, remainder]
  ring

end Remainder
end Decimal

namespace BinaryOperator

theorem modulo_of_zero {a b : Decimal} (hb : b.coefficient = 0) :
    modulo a b = .error (.unplaced .moduloByZero) := if_pos hb

theorem modulo_of_near {a b : Decimal} (hb : b.coefficient ≠ 0) (h : a.Near b) :
    modulo a b = exactly (a.rem b) := by
  rw [modulo, if_neg hb, if_neg fun hfar => Int.not_lt.2 (h hfar.1) hfar.2]

theorem modulo_of_not_near {a b : Decimal} (hb : b.coefficient ≠ 0) (h : ¬ a.Near b) :
    modulo a b = .error (.limit .invalidOperation) := by
  rw [Near, Classical.not_imp, Int.not_le] at h
  rw [modulo, if_neg hb, if_pos h]

section Modulo
variable {a b : Decimal} (ha : a.InFormat) (hb : b.InFormat)
include ha hb

theorem modulo_eq_ok (hb0 : b.coefficient ≠ 0) (h : a.Near b) : modulo a b = .ok (a.rem b) := by
  rw [modulo_of_near hb0 h, exactly_of_held (inFormat_rem hb0 ha hb).held]

theorem modulo_modulo : (modulo a b >>= fun r => modulo r b) = modulo a b := by
  by_cases hb0 : b.coefficient = 0
  · rw [modulo_of_zero hb0]
    rfl
  by_cases h : a.Near b
  · rw [modulo_eq_ok ha hb hb0 h]
    change modulo (a.rem b) b = _
    rw [modulo_eq_ok (inFormat_rem hb0 ha hb) hb hb0 (near_rem hb0), rem_rem hb0]
  · rw [modulo_of_not_near hb0 h]
    rfl

/-- The remainder of numbers of the format. Only a zero divisor is a fault, and only a whole
quotient with more digits than any precision holds is too much. Otherwise the remainder is what the
division toward zero leaves, is smaller than the divisor, and has the sign of the dividend, also
where it is zero, and the lower of the exponents. It is its own remainder, and that by the divisor
with the other sign. -/
theorem modulo_outcome :
    (Fails (modulo a b) .divisionByZero ↔ b.toRat = 0) ∧
    (b.toRat ≠ 0 → ¬ a.Near b → modulo a b = .error (.limit .invalidOperation)) ∧
    (b.toRat ≠ 0 → a.Near b → ∃ r, modulo a b = .ok r ∧
      a.toRat = towardZero (a.toRat / b.toRat) * b.toRat + r.toRat ∧ |r.toRat| < |b.toRat| ∧
      r.negative = a.negative ∧ r.exponent = min a.exponent b.exponent) ∧
    (modulo a b >>= fun r => modulo r b) = modulo a b ∧
    modulo a b.neg = modulo a b := by
  simp only [ne_eq, toRat_eq_zero_iff]
  refine ⟨?_, modulo_of_not_near, fun hb0 h => ?_, modulo_modulo ha hb, rfl⟩
  · by_cases hb0 : b.coefficient = 0
    · exact iff_of_true (by rw [modulo_of_zero hb0, fails_unplaced_iff]; rfl) hb0
    refine iff_of_false ?_ hb0
    rintro ⟨f, hf, -⟩
    by_cases h : a.Near b
    · rw [modulo_eq_ok ha hb hb0 h] at hf
      cases hf
    · rw [modulo_of_not_near hb0 h] at hf
      cases hf
  · exact ⟨_, modulo_eq_ok ha hb hb0 h, eq_mul_add_rem hb0, abs_rem_lt hb0, rfl,
      commonExponent_eq_min a b⟩

end Modulo

/-- Nothing is left of `-6` by `3.0`, and that nothing is negative and has a place after the
point. -/
theorem modulo_minus_six :
    InFormat ⟨true, 6, 0⟩ ∧ InFormat ⟨false, 30, -1⟩ ∧ Near ⟨true, 6, 0⟩ ⟨false, 30, -1⟩ ∧
      modulo ⟨true, 6, 0⟩ ⟨false, 30, -1⟩ = .ok ⟨true, 0, -1⟩ := by
  have ha : InFormat ⟨true, 6, 0⟩ := by decide
  have hb : InFormat ⟨false, 30, -1⟩ := by decide
  have hnear : Near ⟨true, 6, 0⟩ ⟨false, 30, -1⟩ := by decide
  have hsix : (Decimal.mk true 6 0).toRat = -6 := by norm_num [toRat, signed]
  have hthree : (Decimal.mk false 30 (-1)).toRat = 3 := by norm_num [toRat, signed]
  have htwo : towardZero (-6 / 3) = -2 := by norm_num [towardZero]
  obtain ⟨r, hr, hdivision, -, hnegative, hexponent⟩ :=
    (modulo_outcome ha hb).2.2.1 (by rw [hthree]; norm_num) hnear
  have hzero : r.coefficient = 0 := by
    rw [hsix, hthree, htwo] at hdivision
    rw [← toRat_eq_zero_iff]
    push_cast at hdivision
    linarith
  obtain ⟨negative, coefficient, exponent⟩ := r
  obtain rfl : negative = true := hnegative
  obtain rfl : coefficient = 0 := hzero
  obtain rfl : exponent = -1 := hexponent
  exact ⟨ha, hb, hnear, hr⟩

end BinaryOperator
end Reckoner
