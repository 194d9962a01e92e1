import Reckoner.Proofs.Division
import Reckoner.Proofs.Exact

/-! The laws of sums and products. Main statement: they hold for sign, coefficient and exponent,
with the sign of zero and the zeros at the end, and dividing a product by one factor gives the other
as it was. -/
namespace Reckoner
open Decimal

namespace Decimal
variable {a b c : Decimal}

theorem toRat_nonpos_of_negative (h : a.negative = true) : a.toRat ≤ 0 := by
  refine not_lt.1 fun hpos => ?_
  have hc : a.coefficient ≠ 0 := toRat_eq_zero_iff.not.1 hpos.ne'
  exact hpos.not_gt (toRat_lt_zero_iff.2 ⟨h, hc⟩)

theorem eq_of_toRat_eq (h : a.toRat = b.toRat) (he : a.exponent = b.exponent)
    (hzero : a.toRat = 0 → a.negative = b.negative) : a = b := by
  have hc : a.coefficient = b.coefficient := coefficient_eq_of_toRat_eq h he
  have hs : a.negative = b.negative := by
    by_cases h0 : a.toRat = 0
    · exact hzero h0
    have hac := toRat_eq_zero_iff.not.1 h0
    have hlt : a.toRat < 0 ↔ b.toRat < 0 := by rw [h]
    simpa [toRat_lt_zero_iff, hac, hc ▸ hac] using hlt
  cases a
  cases b
  simp_all

theorem add_comm (a b : Decimal) : a.add b = b.add a := by
  have hexp : a.commonExponent b = b.commonExponent a := by
    rw [commonExponent_eq_min, commonExponent_eq_min, min_comm]
  simp only [add, hexp, Int.add_comm, Bool.and_comm]

theorem exponent_add (a b : Decimal) : (a.add b).exponent = min a.exponent b.exponent :=
  commonExponent_eq_min a b

theorem negative_add_iff (h : a.toRat + b.toRat = 0) :
    (a.add b).negative = true ↔ a.negative = true ∧ b.negative = true := by
  have hc : (a.add b).coefficient = 0 := by rw [← toRat_eq_zero_iff, toRat_add, h]
  have hs : a.signedAt (a.commonExponent b) + b.signedAt (a.commonExponent b) = 0 :=
    Int.natAbs_eq_zero.1 hc
  simp [add, hs]

/-- A sum of three that is zero is negative only where all of them are: a part of it that is
negative and not zero would leave a positive third. -/
theorem negative_add_add_iff (h : a.toRat + b.toRat + c.toRat = 0) :
    ((a.add b).add c).negative = true ↔
      a.negative = true ∧ b.negative = true ∧ c.negative = true := by
  have hsum : (a.add b).toRat + c.toRat = 0 := by rw [toRat_add, h]
  rw [negative_add_iff hsum]
  constructor
  · intro ⟨hab, hc⟩
    have hle := toRat_nonpos_of_negative hab
    have hle' := toRat_nonpos_of_negative hc
    rw [toRat_add] at hle
    -- three numbers that are not positive and have no sum are all zero
    have hzero : a.toRat + b.toRat = 0 := by linarith
    obtain ⟨ha, hb⟩ := (negative_add_iff hzero).1 hab
    exact ⟨ha, hb, hc⟩
  · intro ⟨ha, hb, hc⟩
    have hle := toRat_nonpos_of_negative ha
    have hle' := toRat_nonpos_of_negative hb
    have hle'' := toRat_nonpos_of_negative hc
    have hzero : a.toRat + b.toRat = 0 := by linarith
    exact ⟨(negative_add_iff hzero).2 ⟨ha, hb⟩, hc⟩

theorem add_assoc (a b c : Decimal) : (a.add b).add c = a.add (b.add c) := by
  refine eq_of_toRat_eq ?_ ?_ fun hzero => ?_
  · simp only [toRat_add]
    ring
  · simp only [exponent_add, min_assoc]
  · rw [toRat_add, toRat_add] at hzero
    have hrotated : b.toRat + c.toRat + a.toRat = 0 := by linarith
    rw [Bool.eq_iff_iff, negative_add_add_iff hzero, add_comm a, negative_add_add_iff hrotated]
    tauto

end Decimal

namespace BinaryOperator

section Laws
variable {a b c : Decimal}

/-- An operation that associates does so on the results that are held, whatever becomes of the last
one. -/
theorem exactly_assoc {f : Decimal → Decimal → Decimal}
    (hf : ∀ a b c, f (f a b) c = f a (f b c)) (hab : (f a b).Held fullPrecision)
    (hbc : (f b c).Held fullPrecision) :
    (exactly (f a b) >>= fun r => exactly (f r c)) =
      (exactly (f b c) >>= fun r => exactly (f a r)) := by
  rw [exactly_of_held hab, exactly_of_held hbc]
  exact congrArg exactly (hf a b c)

theorem yields_mul_add (hsum : Representable (b.toRat + c.toRat))
    (h : Representable (a.toRat * (b.toRat + c.toRat))) :
    Yields (add.apply b c >>= fun r => mul.apply a r) (a.toRat * (b.toRat + c.toRat)) := by
  have hadd : Yields (add.apply b c) (b.toRat + c.toRat) := yields_apply (o := .add) trivial hsum
  refine hadd.bind fun r hr => ?_
  rw [← hr] at h ⊢
  exact yields_apply (o := .mul) trivial h

theorem yields_add_mul (hab : Representable (a.toRat * b.toRat))
    (hac : Representable (a.toRat * c.toRat)) (h : Representable (a.toRat * (b.toRat + c.toRat))) :
    Yields (mul.apply a b >>= fun r => mul.apply a c >>= fun s => add.apply r s)
      (a.toRat * (b.toRat + c.toRat)) := by
  have hr : Yields (mul.apply a b) (a.toRat * b.toRat) := yields_apply (o := .mul) trivial hab
  have hs : Yields (mul.apply a c) (a.toRat * c.toRat) := yields_apply (o := .mul) trivial hac
  rw [mul_add] at h ⊢
  refine hr.bind fun r hr => hs.bind fun s hs => ?_
  rw [← hr, ← hs] at h ⊢
  exact yields_apply (o := .add) trivial h

/-- The quotient of a product by a factor is a multiple of the power of ten that the exponents ask
for, so it is not only the value of the other factor. -/
theorem divide_mul (hb : b.coefficient ≠ 0)
    (h : a.Held (sufficientPrecision (a.mul b) b)) : divide (a.mul b) b = .ok a := by
  have hvalue : (a.mul b).toRat / b.toRat = a.toRat := by
    rw [toRat_mul, mul_div_cancel_right₀ _ (toRat_eq_zero_iff.not.2 hb)]
  obtain ⟨r, hr, -, hfound⟩ := exists_exactQuotient (a := a.mul b) hb
    (hvalue ▸ terminates_toRat a)
  have hexp : (a.mul b).exponent - b.exponent = a.exponent := Int.add_sub_cancel _ _
  obtain ⟨n, hn⟩ := a.exists_toRat_eq_mul
  -- the exponent of the product less that of `b` is that of `a`, and `a` needs no other
  have hsame : r = a := by
    refine eq_of_toRat_eq (hr.value.trans hvalue) ?_ fun _ => ?_
    · rw [hr.ideal ⟨n, by rw [hvalue, hexp, hn]⟩, hexp]
    · rw [hr.negative]
      simp [Decimal.mul]
  rw [hsame] at hfound
  exact divide_of_quotient hb (hfound h _)

end Laws

end BinaryOperator
end Reckoner
