import Mathlib.Data.Nat.Factorization.Basic
import Reckoner.Proofs.Limits

/-! Quotients that end. A divisor of a power of ten divides one that has no more zeros than the
divisor has binary digits, so the search for the places of a quotient misses none that ends. -/
namespace Reckoner.Decimal

/-- The number has a finite decimal expansion. -/
def Terminates (q : ℚ) : Prop := ∃ k : Nat, ∃ n : Int, q * (10 : ℚ) ^ k = n

theorem dvd_pow10_log2 {d k : Nat} (h : d ∣ pow10 k) : d ∣ pow10 d.log2 := by
  have hd : d ≠ 0 := fun h0 => (pow10_pos k).ne' (Nat.eq_zero_of_zero_dvd (h0 ▸ h))
  refine (Nat.dvd_iff_prime_pow_dvd_dvd _ _).2 fun p i hp hi => ?_
  by_cases h0 : i = 0
  · simp [h0]
  · have hten : p ∣ 10 := hp.dvd_of_dvd_pow ((dvd_pow_self p h0).trans (hi.trans h))
    have hi2 : Nat.pow 2 i ≤ d := (Nat.pow_le_pow_left hp.two_le i).trans
      (Nat.le_of_dvd (Nat.pos_of_ne_zero hd) hi)
    exact (pow_dvd_pow_of_dvd hten i).trans (pow10_dvd_pow10 ((Nat.le_log2 hd).2 hi2))

theorem decimalPlaces?_of_dvd {d k : Nat} (h : d ∣ pow10 k) : ∃ m, decimalPlaces? d = some m := by
  have hd : d ≠ 0 := fun h0 => (pow10_pos k).ne' (Nat.eq_zero_of_zero_dvd (h0 ▸ h))
  rw [decimalPlaces?, if_neg hd, if_pos (Nat.mod_eq_zero_of_dvd (dvd_pow10_log2 h))]
  split <;> exact ⟨_, rfl⟩

theorem signed_inv (b : Bool) (q : ℚ) : signed b q⁻¹ = (signed b q)⁻¹ := by
  cases b <;> simp [signed, inv_neg]

theorem toRat_div (a b : Decimal) :
    a.toRat / b.toRat = signed (a.negative ^^ b.negative)
      (a.coefficient / b.coefficient * (10 : ℚ) ^ (a.exponent - b.exponent)) := by
  have hexp : (10 : ℚ) ^ (a.exponent - b.exponent) =
      (10 : ℚ) ^ a.exponent * ((10 : ℚ) ^ b.exponent)⁻¹ := by
    rw [sub_eq_add_neg, ten_zpow_add, zpow_neg]
  rw [toRat, toRat, div_eq_mul_inv, ← signed_inv, ← signed_xor, hexp, mul_inv]
  congr 1
  ring

theorem dvd_mul_pow10 {a b : Decimal} (hb : b.coefficient ≠ 0)
    (h : Terminates (a.toRat / b.toRat)) : ∃ j, b.coefficient ∣ a.coefficient * pow10 j := by
  obtain ⟨k, n, hn⟩ := h
  have hb' : (b.coefficient : ℚ) ≠ 0 := Nat.cast_ne_zero.2 hb
  have hnonneg : (0 : ℚ) ≤ a.coefficient / b.coefficient * (10 : ℚ) ^ (a.exponent - b.exponent) :=
    mul_nonneg (by positivity) (ten_zpow_pos _).le
  have habs : (a.coefficient : ℚ) * (10 : ℚ) ^ (a.exponent - b.exponent + k) =
      (n.natAbs * b.coefficient : Nat) := by
    rw [Nat.cast_mul, Nat.cast_natAbs, Int.cast_abs, ← hn, abs_mul, toRat_div, abs_signed,
      abs_of_nonneg hnonneg, abs_of_nonneg (pow_nonneg (by norm_num) k), ten_zpow_add, zpow_natCast]
    field_simp
  refine ⟨(a.exponent - b.exponent + k).toNat, ?_⟩
  rw [mul_pow10_of_mul_zpow habs, Nat.mul_right_comm]
  exact Nat.dvd_mul_left _ _

theorem div_gcd_dvd_pow10 {m n k : Nat} (hn : n ≠ 0) (h : n ∣ m * pow10 k) :
    n / m.gcd n ∣ pow10 k := by
  have hg : 0 < m.gcd n := Nat.gcd_pos_of_pos_right m (Nat.pos_of_ne_zero hn)
  have hdvd : n / m.gcd n ∣ m / m.gcd n * pow10 k := by
    rw [Nat.div_mul_right_comm (Nat.gcd_dvd_left _ _)]
    exact Nat.div_dvd_div (Nat.gcd_dvd_right _ _) h
  exact (Nat.coprime_div_gcd_div_gcd hg).symm.dvd_of_dvd_mul_left hdvd

theorem exactQuotient?_of_terminates {a b : Decimal} (hb : b.coefficient ≠ 0)
    (h : Terminates (a.toRat / b.toRat)) : ∃ q, exactQuotient? a b = some q := by
  obtain ⟨j, hj⟩ := dvd_mul_pow10 hb h
  obtain ⟨k, hk⟩ := decimalPlaces?_of_dvd (div_gcd_dvd_pow10 hb hj)
  exact ⟨_, by rw [exactQuotient?, hk, Option.map_some]⟩

theorem div_mul_eq_mul_pow10 {m n g k : Nat} (hm : g ∣ m) (hn : g ∣ n) (h : n / g ∣ pow10 k) :
    m / g * pow10 k / (n / g) * n = m * pow10 k := by
  calc m / g * pow10 k / (n / g) * n
      = m / g * pow10 k / (n / g) * (n / g) * g := by rw [Nat.mul_assoc, Nat.div_mul_cancel hn]
    _ = m / g * pow10 k * g := by rw [Nat.div_mul_cancel (h.trans (Nat.dvd_mul_left _ _))]
    _ = m * pow10 k := by rw [Nat.mul_right_comm, Nat.div_mul_cancel hm]

theorem toRat_exactQuotient? {a b q : Decimal} (hb : b.coefficient ≠ 0)
    (h : exactQuotient? a b = some q) : q.toRat = a.toRat / b.toRat := by
  obtain ⟨k, hk, rfl⟩ := Option.map_eq_some_iff.1 h
  have hc := div_mul_eq_mul_pow10 (Nat.gcd_dvd_left a.coefficient b.coefficient)
    (Nat.gcd_dvd_right _ _) (dvd_of_decimalPlaces? hk).1
  rw [toRat_div, toRat]
  generalize a.coefficient.gcd b.coefficient = g at hc ⊢
  have hb' : (b.coefficient : ℚ) ≠ 0 := Nat.cast_ne_zero.2 hb
  have hc' : ((a.coefficient / g * pow10 k / (b.coefficient / g) : Nat) : ℚ) =
      a.coefficient / b.coefficient * (10 : ℚ) ^ k := by
    rw [div_mul_eq_mul_div, eq_div_iff hb', ← cast_pow10]
    exact_mod_cast hc
  have hexp : (10 : ℚ) ^ k * (10 : ℚ) ^ (a.exponent - b.exponent - k) =
      (10 : ℚ) ^ (a.exponent - b.exponent) := by
    rw [← zpow_natCast, ← ten_zpow_add]
    congr 1
    omega
  simp only [hc', ← hexp]
  congr 1
  ring

/-- A quotient that ends is exact at every precision, so long as it is within the limits. -/
theorem yields_quotient {a b : Decimal} (p : Nat) (hb : b.toRat ≠ 0)
    (ht : Terminates (a.toRat / b.toRat)) (hl : InLimits (a.toRat / b.toRat)) :
    Yields (a.quotient p b) (a.toRat / b.toRat) := by
  have hbc := toRat_eq_zero_iff.not.1 hb
  obtain ⟨q, hq⟩ := exactQuotient?_of_terminates hbc ht
  have hv := toRat_exactQuotient? hbc hq
  rw [← hv] at hl ⊢
  by_cases hc : q.coefficient = 0
  · obtain ⟨r, hr, hrc⟩ := fit_zero (sufficientPrecision a b) hc
    refine ⟨r, ?_, (toRat_eq_zero_iff.2 hrc).trans (toRat_eq_zero_iff.2 hc).symm⟩
    simp only [quotient, if_neg hbc, hq, hr]
    simp [bind, Except.bind, coefficientAt, hrc, hc, pure, Except.pure]
  · have hr := fit_of_inRange (sufficientPrecision a b) (inRange_of_inLimits hc hl)
    refine ⟨q, ?_, rfl⟩
    simp only [quotient, if_neg hbc, hq, hr]
    simp [bind, Except.bind, coefficientAt, hc, pure, Except.pure]

end Reckoner.Decimal
