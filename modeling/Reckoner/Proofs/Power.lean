import Reckoner.Proofs.Limits

/-! Powers with a whole exponent. Every number that repeated squaring comes upon is a power of the
base no higher than the result, so none of them leaves the limits unless the result does. -/
namespace Reckoner.Decimal

theorem inLimits_one : InLimits 1 := by simp [InLimits, bottomExponent, topExponent]

/-- A number whose power is whole is whole itself, so a power has no digit below the places of a
higher power of the same number. -/
theorem exists_eq_mul_of_pow {q : ℚ} {j k l : Nat} {n : Int} (hk : 0 < k) (hjk : j ≤ k)
    (h : q ^ k = n * (10 : ℚ) ^ (-(l : Int))) : ∃ m : Int, q ^ j = m * (10 : ℚ) ^ (-(l : Int)) := by
  have hcancel : (10 : ℚ) ^ (-(l : Int)) * (10 : ℚ) ^ l = 1 := by
    rw [← zpow_natCast, ← ten_zpow_add, neg_add_cancel, zpow_zero]
  have hn : q ^ k * (10 : ℚ) ^ l = n := by rw [h]; linear_combination (n : ℚ) * hcancel
  have hpow : (q ^ j * (10 : ℚ) ^ l) ^ k = ((n ^ j * 10 ^ (l * (k - j)) : Int) : ℚ) := by
    have hl : l * k = l * j + l * (k - j) := by rw [← Nat.mul_add, Nat.add_sub_cancel' hjk]
    push_cast
    rw [← hn, mul_pow, mul_pow, ← pow_mul, ← pow_mul, ← pow_mul, ← pow_mul, hl, pow_add,
      Nat.mul_comm j k]
    ring
  have hden : (q ^ j * (10 : ℚ) ^ l).den ^ k = 1 := by rw [← Rat.den_pow, hpow, Rat.den_intCast]
  have hone := (Nat.pow_eq_one.1 hden).resolve_right hk.ne'
  refine ⟨(q ^ j * (10 : ℚ) ^ l).num, ?_⟩
  rw [(Rat.den_eq_one_iff _).1 hone]
  linear_combination -q ^ j * hcancel

theorem Representable.pow_le {q : ℚ} {j k : Nat} (h : Representable (q ^ k)) (hjk : j ≤ k) :
    Representable (q ^ j) := by
  by_cases hj : j = 0
  · rw [hj, pow_zero]
    exact inLimits_one.representable
  by_cases hq : q = 0
  · rw [hq, zero_pow hj]
    exact inLimits_zero.representable
  have hone : Int.log 10 |(1 : ℚ)| = 0 := by simp
  -- from one on powers grow, so the top decides; below it they shrink, and the places do
  by_cases h1 : 1 ≤ |q|
  · have hlow : |(1 : ℚ)| ≤ |q ^ j| := by simpa [abs_pow] using one_le_pow₀ h1
    have hhigh : |q ^ j| ≤ |q ^ k| := by simpa [abs_pow] using pow_le_pow_right₀ h1 hjk
    have hlog := Int.log_mono_right (b := 10) (by norm_num) hlow
    rw [hone] at hlog
    have htop := Int.log_mono_right (b := 10) (abs_pos.2 (pow_ne_zero j hq)) hhigh
    exact ⟨htop.trans h.1, .inl (Int.le_trans (by decide) hlog)⟩
  · have hhigh : |q ^ j| ≤ |(1 : ℚ)| := by
      simpa [abs_pow] using pow_le_one₀ (abs_nonneg q) (not_le.1 h1).le
    have hlow : |q ^ k| ≤ |q ^ j| := by
      simpa [abs_pow] using pow_le_pow_of_le_one (abs_nonneg q) (not_le.1 h1).le hjk
    have hlog := Int.log_mono_right (b := 10) (abs_pos.2 (pow_ne_zero j hq)) hhigh
    rw [hone] at hlog
    refine ⟨Int.le_trans hlog (by decide), ?_⟩
    obtain hbottom | ⟨n, hn⟩ := h.2
    · exact .inl (hbottom.trans (Int.log_mono_right (abs_pos.2 (pow_ne_zero k hq)) hlow))
    · right
      have hplace : lowestPlace fullPrecision = -((-lowestPlace fullPrecision).toNat : Int) := by
        rw [Int.toNat_of_nonneg (by decide), Int.neg_neg]
      rw [hplace] at hn ⊢
      exact exists_eq_mul_of_pow (by omega) hjk hn

theorem yields_product {a b : Decimal} (h : Representable (a.toRat * b.toRat)) :
    Yields (a.product b) (a.toRat * b.toRat) := by
  rw [← toRat_mul] at h ⊢
  exact yields_fit_fullPrecision h

theorem powerFrom_eq (acc base : Decimal) (n : Nat) :
    powerFrom acc base n =
      if n = 0 then .ok acc
      else (if n % 2 = 1 then acc.product base else .ok acc) >>= fun acc =>
        if n / 2 = 0 then .ok acc
        else base.product base >>= fun base => powerFrom acc base (n / 2) := by
  rw [powerFrom]
  by_cases hodd : n % 2 = 1
  · simp only [if_pos hodd]
    rfl
  · simp only [if_neg hodd]
    rfl

/-- The invariant of repeated squaring: what is collected and what is left of the exponent make up
the exponent asked for. -/
theorem yields_powerFrom {q : ℚ} {k : Nat} (hl : Representable (q ^ k)) (n : Nat) :
    ∀ {acc base : Decimal} {i j : Nat}, acc.toRat = q ^ i → base.toRat = q ^ j → i + j * n = k →
      Yields (powerFrom acc base n) (q ^ k) := by
  induction n using Nat.strongRecOn with
  | ind n ih =>
    intro acc base i j hacc hbase hk
    rw [powerFrom_eq]
    by_cases hn : n = 0
    · subst hn
      exact ⟨acc, rfl, by rw [hacc, ← hk, Nat.mul_zero, Nat.add_zero]⟩
    have hparts : i + j * (n % 2) + j * 2 * (n / 2) = k := by
      have hdm : j * n = j * (n % 2) + j * 2 * (n / 2) := by
        rw [Nat.mul_assoc, ← Nat.mul_add, Nat.mod_add_div]
      omega
    have hodd : Yields (if n % 2 = 1 then acc.product base else .ok acc)
        (q ^ (i + j * (n % 2))) := by
      split
      · next h1 =>
        have hpow : q ^ (i + j * (n % 2)) = acc.toRat * base.toRat := by
          rw [hacc, hbase, h1, Nat.mul_one, pow_add]
        have hle := hl.pow_le (show i + j * (n % 2) ≤ k by omega)
        rw [hpow] at hle ⊢
        exact yields_product hle
      · next h1 =>
        have h0 : n % 2 = 0 := by omega
        exact ⟨acc, rfl, by rw [hacc, h0, Nat.mul_zero, Nat.add_zero]⟩
    rw [if_neg hn]
    refine hodd.bind fun acc' hacc' => ?_
    by_cases hhalf : n / 2 = 0
    · rw [if_pos hhalf]
      rw [hhalf, Nat.mul_zero, Nat.add_zero] at hparts
      exact ⟨acc', rfl, by rw [hacc', hparts]⟩
    have hsquare : q ^ (j * 2) = base.toRat * base.toRat := by rw [hbase, ← pow_add, Nat.mul_two]
    have hle : j * 2 ≤ j * 2 * (n / 2) := Nat.le_mul_of_pos_right _ (Nat.pos_of_ne_zero hhalf)
    have hlim := hl.pow_le (show j * 2 ≤ k by omega)
    rw [hsquare] at hlim
    rw [if_neg hhalf]
    refine (yields_product hlim).bind fun base' hbase' => ?_
    exact ih (n / 2) (by omega) hacc' (hbase'.trans hsquare.symm) hparts

theorem yields_power {d : Decimal} {n : Nat} (h : Representable (d.toRat ^ n)) :
    Yields (d.power n) (d.toRat ^ n) :=
  yields_powerFrom h n (i := 0) (j := 1) (by simp) (by simp) (by simp)

theorem abs_of_whole {d : Decimal} {n : Int} (h : d.toRat = n) :
    d.coefficient * (10 : ℚ) ^ d.exponent = n.natAbs := by
  rw [← abs_toRat, h, Nat.cast_natAbs, Int.cast_abs]

theorem coefficient_of_whole {d : Decimal} {n : Int} (h : d.toRat = n) :
    d.coefficient * pow10 d.exponent.toNat = n.natAbs * pow10 (-d.exponent).toNat :=
  mul_pow10_of_mul_zpow (abs_of_whole h)

theorem isWhole_of_toRat {d : Decimal} {n : Int} (h : d.toRat = n) : d.isWhole = true := by
  by_cases hc : d.coefficient = 0
  · simp [isWhole, hc]
  have hmul := coefficient_of_whole h
  by_cases he : (-d.exponent).toNat = 0
  · simp [isWhole, he, Nat.mod_one]
  have h0 : d.exponent.toNat = 0 := by omega
  rw [h0, pow10_zero, Nat.mul_one] at hmul
  have hn : 0 < n.natAbs := Nat.pos_of_ne_zero fun hn => hc (by rw [hmul, hn, Nat.zero_mul])
  have hdigits : ¬ digitCount d.coefficient ≤ (-d.exponent).toNat := fun hle => by
    have hlt := (digitCount_le_iff (Nat.pos_of_ne_zero he)).1 hle
    rw [hmul] at hlt
    exact Nat.not_lt.2 (Nat.le_mul_of_pos_left _ hn) hlt
  have hmod : d.coefficient % pow10 (-d.exponent).toNat = 0 := by rw [hmul, Nat.mul_mod_left]
  simp [isWhole, hmod, Nat.le_of_not_le hdigits]

theorem truncated_of_toRat {d : Decimal} {n : Int} (h : d.toRat = n) : d.truncated = n := by
  by_cases hc : d.coefficient = 0
  · have h0 : (n : ℚ) = 0 := h ▸ toRat_eq_zero_iff.2 hc
    simp only [truncated, if_pos hc]
    exact (Int.cast_eq_zero.1 h0).symm
  have hquot : d.coefficientAt 0 / pow10 (-d.exponent).toNat = n.natAbs := by
    rw [coefficientAt, if_neg hc, Int.sub_zero, coefficient_of_whole h,
      Nat.mul_div_cancel _ (pow10_pos _)]
  have hsign : signed d.negative (n.natAbs : ℚ) = n := by rw [← h, ← abs_of_whole h, toRat]
  simp only [truncated, if_neg hc, hquot]
  cases hneg : d.negative with
  | false =>
    rw [hneg] at hsign
    have hq : ((n.natAbs : Int) : ℚ) = n := by rwa [Int.cast_natCast]
    exact Int.cast_injective hq
  | true =>
    rw [hneg] at hsign
    have hq : ((-(n.natAbs : Int) : Int) : ℚ) = n := by rwa [Int.cast_neg, Int.cast_natCast]
    exact Int.cast_injective hq

theorem not_exceeds_of_toRat {d : Decimal} {n limit : Int} (h : d.toRat = n)
    (hn : (n.natAbs : Int) ≤ limit) : d.exceeds limit = false := by
  have hlimit : 0 ≤ limit := Int.le_trans (Int.natCast_nonneg _) hn
  by_cases hc : d.coefficient = 0
  · simp [exceeds, hc, hlimit]
  have hdigits : d.adjusted < digitCount limit.toNat := by
    have hpos : 0 < |d.toRat| := abs_pos.2 (toRat_eq_zero_iff.not.2 hc)
    rw [← log_abs_toRat hc]
    refine (Int.lt_zpow_iff_log_lt (by norm_num) hpos).1 ?_
    have hlt := lt_pow10_digitCount limit.toNat
    have hlt' : n.natAbs < pow10 (digitCount limit.toNat) := by omega
    rw [abs_toRat, abs_of_whole h, zpow_natCast, Nat.cast_ofNat, ← cast_pow10]
    exact_mod_cast hlt'
  rw [Int.natCast_natAbs] at hn
  simp [exceeds, hc, truncated_of_toRat h, hlimit, hdigits, hn]

end Reckoner.Decimal
