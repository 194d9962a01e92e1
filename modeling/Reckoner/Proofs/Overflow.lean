import Reckoner.Proofs.Exact
import Reckoner.Proofs.LongQuotient

/-! What the operators cannot hold. Main statement: an operator stops at the limits of the format
just where the result stands above them, where a power below the limits is lost before one is
divided by it, or where a remainder is that of a whole quotient with too many digits. -/
namespace Reckoner
open Decimal

namespace Decimal

theorem toRat_of_fit {d r : Decimal} {p : Nat} (h : d.fit p = .ok r)
    (hlow : bottomExponent ≤ Int.log 10 |d.toRat|) : r.toRat = d.toRat := by
  have htop : ¬ Beyond d.toRat := fun hb => by
    rw [fit_eq_error_iff.2 ⟨rfl, hb⟩] at h
    cases h
  obtain ⟨r', hr', hv⟩ := yields_fit p ⟨hlow, Int.not_lt.1 htop⟩
  rw [Except.ok.inj (h.symm.trans hr'), hv]

theorem abs_le_one_of_fit {d r : Decimal} {p : Nat} (h : d.fit p = .ok r) (hd : |d.toRat| ≤ 1) :
    |r.toRat| ≤ 1 := by
  rw [fit_eq] at h
  split_ifs at h with htop hc hlow
  · obtain rfl := Except.ok.inj h
    simp [abs_toRat, hc]
  · obtain rfl := Except.ok.inj h
    have hone : (1 : ℚ) = (pow10 (-lowestPlace p).toNat : Nat) * (10 : ℚ) ^ lowestPlace p := by
      have hplace : 0 ≤ -lowestPlace p := by
        rw [lowestPlace, bottomExponent]
        omega
      rw [cast_pow10, zpow_toNat hplace, ← ten_zpow_add, neg_add_cancel, zpow_zero]
    have hvalue := toRat_roundTo d (lowestPlace p)
    rw [roundTo, if_pos hlow.2] at hvalue
    rw [hvalue, hone]
    exact abs_roundHalfUp_le (hone ▸ hd)
  · obtain rfl := Except.ok.inj h
    exact hd

theorem product_eq_error_iff {a b : Decimal} {s : Signal} :
    a.product b = .error s ↔ s = .overflow ∧ Beyond (a.toRat * b.toRat) := by
  rw [product, fit_eq_error_iff, toRat_mul]

theorem not_beyond_of_abs_le_one {q : ℚ} (h : |q| ≤ 1) : ¬ Beyond q :=
  not_beyond_of_abs_le (e := 0) (by decide) (by rwa [zpow_zero])

theorem exists_product_le_one {a b : Decimal} (ha : |a.toRat| ≤ 1) (hb : |b.toRat| ≤ 1) :
    ∃ r, a.product b = .ok r ∧ |r.toRat| ≤ 1 := by
  have hab : |(a.mul b).toRat| ≤ 1 := by
    rw [toRat_mul, abs_mul]
    exact mul_le_one₀ ha (abs_nonneg _) hb
  obtain ⟨r, hr⟩ := exists_fit_of_not_beyond fullPrecision (not_beyond_of_abs_le_one hab)
  exact ⟨r, hr, abs_le_one_of_fit hr hab⟩

theorem exists_powerFrom_le_one (n : Nat) : ∀ {acc base : Decimal}, |acc.toRat| ≤ 1 →
    |base.toRat| ≤ 1 → ∃ r, powerFrom acc base n = .ok r := by
  induction n using Nat.strongRecOn with
  | ind n ih =>
    intro acc base hacc hbase
    rw [powerFrom_eq]
    by_cases hn : n = 0
    · exact ⟨acc, if_pos hn⟩
    obtain ⟨acc', hacc', hle⟩ : ∃ r : Decimal,
        (if n % 2 = 1 then acc.product base else .ok acc) = .ok r ∧ |r.toRat| ≤ 1 := by
      split
      · exact exists_product_le_one hacc hbase
      · exact ⟨acc, rfl, hacc⟩
    simp only [if_neg hn, hacc', bind, Except.bind]
    split
    · exact ⟨acc', rfl⟩
    obtain ⟨base', hbase', hle'⟩ := exists_product_le_one hbase hbase
    simp only [hbase']
    exact ih (n / 2) (by omega) hle hle'

theorem Beyond.of_pow_le {q : ℚ} {j k : Nat} (h1 : 1 ≤ |q|) (hjk : j ≤ k) (h : Beyond (q ^ j)) :
    Beyond (q ^ k) := by
  have hle : |q ^ j| ≤ |q ^ k| := by simpa [abs_pow] using pow_le_pow_right₀ h1 hjk
  have hpos : 0 < |q ^ j| := by
    rw [abs_pow]
    exact pow_pos (by linarith) j
  exact h.trans_le (Int.log_mono_right hpos hle)

theorem product_of_one_le {q : ℚ} {a b : Decimal} {i j : Nat} (h1 : 1 ≤ |q|) (ha : a.toRat = q ^ i)
    (hb : b.toRat = q ^ j) : (a.product b = .error .overflow ∧ Beyond (q ^ (i + j))) ∨
      ∃ r, a.product b = .ok r ∧ r.toRat = q ^ (i + j) ∧ ¬ Beyond (q ^ (i + j)) := by
  have hab : a.toRat * b.toRat = q ^ (i + j) := by rw [ha, hb, pow_add]
  by_cases h : Beyond (q ^ (i + j))
  · exact .inl ⟨product_eq_error_iff.2 ⟨rfl, hab ▸ h⟩, h⟩
  have hmul : (a.mul b).toRat = q ^ (i + j) := (toRat_mul a b).trans hab
  obtain ⟨r, hr⟩ := exists_fit_of_not_beyond fullPrecision (hmul ▸ h)
  refine .inr ⟨r, hr, ?_, h⟩
  have hone : (1 : ℚ) ≤ |q ^ (i + j)| := by
    rw [abs_pow]
    exact one_le_pow₀ h1
  have hlog := Int.log_mono_right (b := 10) one_pos hone
  rw [Int.log_one_right] at hlog
  rw [toRat_of_fit hr (hmul ▸ Int.le_trans (by decide) hlog), hmul]

/-- The invariant of repeated squaring from a number not below one: nothing is rounded, and what
is above the limits on the way is a lower power than the result. -/
theorem powerFrom_of_one_le {q : ℚ} {k : Nat} (h1 : 1 ≤ |q|) (n : Nat) :
    ∀ {acc base : Decimal} {i j : Nat}, acc.toRat = q ^ i → base.toRat = q ^ j → i + j * n = k →
      n ≠ 0 → (powerFrom acc base n = .error .overflow ∧ Beyond (q ^ k)) ∨
        ∃ r, powerFrom acc base n = .ok r ∧ ¬ Beyond (q ^ k) := by
  induction n using Nat.strongRecOn with
  | ind n ih =>
    intro acc base i j hacc hbase hk hn
    have hparts : i + j * (n % 2) + (j + j) * (n / 2) = k := by
      have hdm : j * n = j * (n % 2) + (j + j) * (n / 2) := by
        rw [← Nat.mul_two, Nat.mul_assoc, ← Nat.mul_add, Nat.mod_add_div]
      omega
    rw [powerFrom_eq, if_neg hn]
    -- the odd factor, if any, is taken in before the base is squared
    have hodd : ((if n % 2 = 1 then acc.product base else .ok acc) = .error .overflow ∧
        Beyond (q ^ k)) ∨ ∃ r : Decimal, (if n % 2 = 1 then acc.product base else .ok acc) = .ok r ∧
          r.toRat = q ^ (i + j * (n % 2)) ∧ (n % 2 = 1 → ¬ Beyond (q ^ (i + j * (n % 2)))) := by
      by_cases hbit : n % 2 = 1
      · simp only [hbit, Nat.mul_one] at hparts ⊢
        obtain ⟨herr, hb⟩ | ⟨r, hr, hv, hb⟩ := product_of_one_le h1 hacc hbase
        · exact .inl ⟨herr, hb.of_pow_le h1 (by omega)⟩
        · exact .inr ⟨r, hr, hv, fun _ => hb⟩
      · have hbit0 : n % 2 = 0 := by omega
        simp [hbit0, hacc]
    obtain ⟨herr, hb⟩ | ⟨acc', hacc', hv, hb⟩ := hodd
    · exact .inl ⟨by rw [herr]; rfl, hb⟩
    simp only [hacc', bind, Except.bind]
    by_cases hhalf : n / 2 = 0
    · rw [hhalf, Nat.mul_zero, Nat.add_zero] at hparts
      exact .inr ⟨acc', if_pos hhalf, hparts ▸ hb (by omega)⟩
    rw [if_neg hhalf]
    -- what overflows here is a lower power than the one asked for
    have hle : j + j ≤ (j + j) * (n / 2) := Nat.le_mul_of_pos_right _ (Nat.pos_of_ne_zero hhalf)
    obtain ⟨herr, hb⟩ | ⟨base', hbase', hv', -⟩ := product_of_one_le h1 hbase hbase
    · exact .inl ⟨by rw [herr], hb.of_pow_le h1 (by omega)⟩
    · simp only [hbase']
      exact ih (n / 2) (by omega) hv hv' hparts hhalf

theorem power_eq_error_iff {d : Decimal} {n : Nat} {s : Signal} :
    d.power n = .error s ↔ s = .overflow ∧ Beyond (d.toRat ^ n) := by
  have hone : ¬ Beyond 1 := not_beyond_of_abs_le_one (by norm_num)
  by_cases hn : n = 0
  · simp [power, powerFrom_eq, hn, hone]
  by_cases h1 : 1 ≤ |d.toRat|
  · have hzero : one.toRat = d.toRat ^ 0 := by simp
    obtain ⟨herr, hb⟩ | ⟨r, hr, hb⟩ :=
      powerFrom_of_one_le h1 n hzero (pow_one _).symm (show 0 + 1 * n = n by omega) hn
    · simp [power, herr, hb, eq_comm]
    · simp [power, hr, hb]
  · have hle := (not_le.1 h1).le
    obtain ⟨r, hr⟩ := exists_powerFrom_le_one n (show |one.toRat| ≤ 1 by simp) hle
    have hb : ¬ Beyond (d.toRat ^ n) := not_beyond_of_abs_le_one <| by
      rw [abs_pow]
      exact pow_le_one₀ (abs_nonneg _) hle
    simp [power, hr, hb]

theorem toRat_of_isWhole {d : Decimal} (h : d.isWhole = true) : d.toRat = d.truncated := by
  by_cases hc : d.coefficient = 0
  · simp [truncated, hc, toRat_eq_zero_iff]
  have hdvd : pow10 (-d.exponent).toNat ∣ d.coefficient * pow10 d.exponent.toNat := by
    have hmod : d.coefficient % pow10 (-d.exponent).toNat = 0 := by
      simp only [isWhole, Bool.or_eq_true, Bool.and_eq_true, beq_iff_eq, hc, false_or] at h
      exact h.2
    exact (Nat.dvd_of_mod_eq_zero hmod).trans (Nat.dvd_mul_right _ _)
  have hquot : ((d.coefficientAt 0 / pow10 (-d.exponent).toNat : Nat) : ℚ) =
      d.coefficient * (10 : ℚ) ^ d.exponent := by
    have hsum : (d.exponent.toNat : Int) = d.exponent + (-d.exponent).toNat := by omega
    have hne : (10 : ℚ) ^ ((-d.exponent).toNat : Int) ≠ 0 := (ten_zpow_pos _).ne'
    have hmul : ((d.coefficientAt 0 / pow10 (-d.exponent).toNat : Nat) : ℚ) *
        (10 : ℚ) ^ ((-d.exponent).toNat : Int) =
          d.coefficient * (10 : ℚ) ^ (d.exponent.toNat : Int) := by
      rw [zpow_natCast, zpow_natCast, ← cast_pow10, ← cast_pow10, coefficientAt, if_neg hc,
        Int.sub_zero]
      exact_mod_cast Nat.div_mul_cancel hdvd
    refine mul_right_cancel₀ hne (hmul.trans ?_)
    rw [hsum, ten_zpow_add]
    ring
  rw [toRat, ← hquot]
  simp only [truncated, if_neg hc]
  generalize d.coefficientAt 0 / pow10 (-d.exponent).toNat = n
  cases d.negative <;> simp [signed]

theorem natAbs_truncated_le {d : Decimal} {limit : Nat} (h : d.exceeds limit = false) :
    d.truncated.natAbs ≤ limit := by
  by_cases hc : d.coefficient = 0
  · simp [truncated, hc]
  · simp only [exceeds, if_neg hc, Bool.or_eq_false_iff, decide_eq_false_iff_not, Int.not_lt] at h
    exact Int.ofNat_le.1 h.2

end Decimal

namespace BinaryOperator

theorem wholeExponent_eq_ok_iff {limit : Nat} {b : Decimal} {n : Int} :
    wholeExponent limit (.finite b) = .ok n ↔ b.toRat = n ∧ n.natAbs ≤ limit := by
  refine ⟨fun h => ?_, fun ⟨hb, hn⟩ => wholeExponent_of_toRat hb hn⟩
  simp only [wholeExponent] at h
  split_ifs at h with hwhole hexceeds
  obtain rfl := Except.ok.inj h
  exact ⟨toRat_of_isWhole (by simpa using hwhole), natAbs_truncated_le (by simpa using hexceeds)⟩

/-- The operands `a` and `b` are too much for the operator `o`, which stops at the signal `s`. -/
inductive Strains (a b : Decimal) : BinaryOperator → Signal → Prop
  | exact {o : BinaryOperator} (ho : o ∈ [.add, .sub, .mul])
      (h : Beyond (o.exact a.toRat b.toRat)) : Strains a b o .overflow
  | quotient {q : ℚ} (hb : b.toRat ≠ 0)
      (hq : FoundQuotient Settings.arithmetic.divisionPrecision (a.toRat / b.toRat) q)
      (h : Beyond q) : Strains a b .div .overflow
  /-- The leading digits of the operands are further apart than any precision reaches. -/
  | apart (hb : b.toRat ≠ 0) (ha : a.toRat ≠ 0)
      (h : fullPrecision < Int.log 10 |a.toRat| - Int.log 10 |b.toRat|) :
      Strains a b .mod .invalidOperation
  | remainder (hb : b.toRat ≠ 0)
      (hnear : a.toRat ≠ 0 → Int.log 10 |a.toRat| - Int.log 10 |b.toRat| ≤ fullPrecision)
      (h : Beyond (remainder a.toRat b.toRat)) : Strains a b .mod .overflow
  | power {n : Int} (hn : b.toRat = n) (hmax : n.natAbs ≤ Settings.arithmetic.maxExponent)
      (h : Beyond (a.toRat ^ n.natAbs)) : Strains a b .pow .overflow
  /-- A power that is to be divided by is below all numbers of the format. -/
  | lost {n : Int} {p : Decimal} (hn : b.toRat = n)
      (hmax : n.natAbs ≤ Settings.arithmetic.maxExponent) (hneg : n < 0) (ha : a.toRat ≠ 0)
      (hp : a.power n.natAbs = .ok p) (h : p.toRat = 0) : Strains a b .pow .divisionByZero
  | inverse {n : Int} {p : Decimal} {q : ℚ} (hn : b.toRat = n)
      (hmax : n.natAbs ≤ Settings.arithmetic.maxExponent) (hneg : n < 0) (ha : a.toRat ≠ 0)
      (hp : a.power n.natAbs = .ok p) (h0 : p.toRat ≠ 0)
      (hq : FoundQuotient Settings.arithmetic.divisionPrecision (1 / p.toRat) q)
      (h : Beyond q) : Strains a b .pow .overflow

theorem mapError_limit_eq_iff {α : Type} {x : Except Signal α} {s : Signal} :
    x.mapError Failure.limit = .error (.limit s) ↔ x = .error s := by
  cases x <;> simp

def Fails (x : Except Failure Decimal) (k : FaultKind) : Prop :=
  ∃ f : Fault, x = .error (.fault f) ∧ f.kind = k

@[simp] theorem fails_unplaced_iff {c : Cause} {k : FaultKind} :
    Fails (.error (.unplaced c)) k ↔ c.kind = k := by
  simp [Fails, Failure.unplaced, Fault.kind]

theorem not_fails_mapError_limit (x : Except Decimal.Signal Decimal) (k : FaultKind) :
    ¬ Fails (x.mapError .limit) k := by
  rintro ⟨f, hf, -⟩
  cases x <;> cases hf

theorem exactly_eq_limit_iff {d : Decimal} {s : Signal} :
    exactly d = .error (.limit s) ↔ s = .overflow ∧ Beyond d.toRat := by
  rw [exactly, mapError_limit_eq_iff, fit_eq_error_iff]

theorem divide_eq_limit_iff {a b : Decimal} {s : Signal} :
    divide a b = .error (.limit s) ↔ b.toRat ≠ 0 ∧ s = .overflow ∧ ∃ q,
      FoundQuotient Settings.arithmetic.divisionPrecision (a.toRat / b.toRat) q ∧ Beyond q := by
  by_cases hb : b.coefficient = 0
  · simp [divide, hb, Failure.unplaced, toRat_eq_zero_iff]
  · rw [divide, if_neg hb, mapError_limit_eq_iff,
      quotient_eq_error_iff_of_ne_zero (by decide) hb]
    simp [toRat_eq_zero_iff, hb]

theorem modulo_eq_limit_iff {a b : Decimal} {s : Signal} :
    modulo a b = .error (.limit s) ↔ Strains a b .mod s := by
  by_cases hb : b.coefficient = 0
  · have hzero := toRat_eq_zero_iff.2 hb
    rw [modulo, if_pos hb]
    refine iff_of_false (by simp [Failure.unplaced]) fun h => ?_
    cases h with
    | exact ho => simp at ho
    | apart hne | remainder hne => exact hne hzero
  have hb' : b.toRat ≠ 0 := toRat_eq_zero_iff.not.2 hb
  -- the distance of the leading digits is what the operation looks at
  have hlog (ha : a.toRat ≠ 0) : Int.log 10 |a.toRat| - Int.log 10 |b.toRat| =
      a.adjusted - b.adjusted := by
    rw [log_abs_toRat (toRat_eq_zero_iff.not.1 ha), log_abs_toRat hb]
  rw [modulo, if_neg hb]
  split_ifs with hfar
  · have ha := toRat_eq_zero_iff.not.2 hfar.1
    constructor
    · intro h
      obtain rfl := Failure.limit.inj (Except.error.inj h)
      exact .apart hb' ha (by rw [hlog ha]; exact hfar.2)
    · intro h
      cases h with
      | exact ho => simp at ho
      | apart => rfl
      | remainder _ hnear =>
        have hle := hnear ha
        rw [hlog ha] at hle
        exact absurd hfar.2 (Int.not_lt.2 hle)
  · have hnear (ha : a.toRat ≠ 0) : a.adjusted - b.adjusted ≤ fullPrecision :=
      Int.not_lt.1 fun hlt => hfar ⟨toRat_eq_zero_iff.not.1 ha, hlt⟩
    rw [exactly_eq_limit_iff, toRat_rem hb]
    constructor
    · rintro ⟨rfl, h⟩
      exact .remainder hb' (fun ha => by rw [hlog ha]; exact hnear ha) h
    · intro h
      cases h with
      | exact ho => simp at ho
      | apart _ ha hlt =>
        rw [hlog ha] at hlt
        exact absurd (hnear ha) (Int.not_le.2 hlt)
      | remainder _ _ h => exact ⟨rfl, h⟩

/-- Below zero there are two chances to fail: at the power, and at the division by it. -/
theorem inverse_eq_limit_iff {a b : Decimal} {n : Int} {s : Signal} (hn : b.toRat = n)
    (hmax : n.natAbs ≤ Settings.arithmetic.maxExponent) (hneg : n < 0) (ha : a.toRat ≠ 0) :
    ((a.power n.natAbs).mapError Failure.limit >>= fun p =>
      (one.quotient Settings.arithmetic.divisionPrecision p).mapError .limit) =
        .error (.limit s) ↔ Strains a b .pow s := by
  have huniq {m : Int} (hm : b.toRat = m) : m = n := Int.cast_injective (hm.symm.trans hn)
  -- the power comes first, and only what it gives is divided by
  cases hp : a.power n.natAbs with
  | error t =>
    obtain ⟨rfl, hb⟩ := power_eq_error_iff.1 hp
    constructor
    · intro h
      obtain rfl := Failure.limit.inj (Except.error.inj h)
      exact .power hn hmax hb
    · intro h
      cases h with
      | exact ho => simp at ho
      | power => rfl
      | lost hm _ _ _ hok | inverse hm _ _ _ hok =>
        obtain rfl := huniq hm
        rw [hp] at hok
        cases hok
  | ok p =>
    simp only [mapError_ok, bind, Except.bind, mapError_limit_eq_iff]
    rw [quotient_eq_error_iff (by decide), toRat_one]
    constructor
    · rintro (⟨h0, rfl⟩ | ⟨h0, rfl, q, hq, h⟩)
      · exact .lost hn hmax hneg ha hp h0
      · exact .inverse hn hmax hneg ha hp h0 hq h
    · intro h
      cases h with
      | exact ho => simp at ho
      | power hm _ hb =>
        obtain rfl := huniq hm
        rw [power_eq_error_iff.2 ⟨rfl, hb⟩] at hp
        cases hp
      | lost hm _ _ _ hok h0 =>
        obtain rfl := huniq hm
        obtain rfl := Except.ok.inj (hp.symm.trans hok)
        exact .inl ⟨h0, rfl⟩
      | inverse hm _ _ _ hok h0 hq h =>
        obtain rfl := huniq hm
        obtain rfl := Except.ok.inj (hp.symm.trans hok)
        exact .inr ⟨h0, rfl, _, hq, h⟩

theorem raise_of_wholeExponent (a : Decimal) {limit n : Int} {e : Extended}
    (h : wholeExponent limit e = .ok n) : raise limit a e =
      if 0 ≤ n then (a.power n.toNat).mapError .limit
      else if a.coefficient = 0 then .error (.unplaced .zeroToNegativePower)
      else (a.power n.natAbs).mapError .limit >>= fun p =>
        (one.quotient Settings.arithmetic.divisionPrecision p).mapError .limit := by
  simp only [raise, h, mapError_ok]
  rfl

theorem raise_eq_limit_iff {a b : Decimal} {s : Signal} :
    raise Settings.arithmetic.maxExponent a (.finite b) = .error (.limit s) ↔
      Strains a b .pow s := by
  cases hw : wholeExponent Settings.arithmetic.maxExponent (.finite b) with
  | error c =>
    simp only [raise, hw]
    refine iff_of_false (by simp [Failure.unplaced, bind, Except.bind]) fun h => ?_
    -- an exponent that is refused is no whole number within the limit, so nothing is strained
    have hno (n : Int) (hn : b.toRat = n) (hmax : n.natAbs ≤ Settings.arithmetic.maxExponent) :
        False := by
      rw [wholeExponent_eq_ok_iff.2 ⟨hn, hmax⟩] at hw
      cases hw
    cases h with
    | exact ho => simp at ho
    | power hn hmax | lost hn hmax | inverse hn hmax => exact hno _ hn hmax
  | ok n =>
    obtain ⟨hn, hmax⟩ := wholeExponent_eq_ok_iff.1 hw
    have huniq {m : Int} (hm : b.toRat = m) : m = n := Int.cast_injective (hm.symm.trans hn)
    rw [raise_of_wholeExponent a hw]
    split_ifs with hpos hzero
    · have habs : n.toNat = n.natAbs := by omega
      rw [mapError_limit_eq_iff, power_eq_error_iff, habs]
      constructor
      · rintro ⟨rfl, h⟩
        exact .power hn hmax h
      intro h
      cases h with
      | exact ho => simp at ho
      | power hm _ h => exact ⟨rfl, huniq hm ▸ h⟩
      | lost hm _ hneg | inverse hm _ hneg => exact absurd (huniq hm ▸ hneg) (Int.not_lt.2 hpos)
    · have ha := toRat_eq_zero_iff.2 hzero
      refine iff_of_false (by simp [Failure.unplaced]) fun h => ?_
      cases h with
      | exact ho => simp at ho
      | power hm _ h =>
        obtain rfl := huniq hm
        rw [ha, zero_pow (by omega)] at h
        exact not_beyond_zero h
      | lost _ _ _ hne | inverse _ _ _ hne => exact hne ha
    · exact inverse_eq_limit_iff hn hmax (Int.not_le.1 hpos) (toRat_eq_zero_iff.not.2 hzero)

theorem apply_eq_limit_iff {o : BinaryOperator} {a b : Decimal} {s : Signal} :
    o.apply a b = .error (.limit s) ↔ o.Strains a b s := by
  have hexact {o : BinaryOperator} {d : Decimal} (ho : o ∈ [add, sub, mul])
      (hd : d.toRat = o.exact a.toRat b.toRat) :
      exactly d = .error (.limit s) ↔ o.Strains a b s := by
    rw [exactly_eq_limit_iff, hd]
    refine ⟨fun ⟨hs, h⟩ => hs ▸ .exact ho h, fun h => ?_⟩
    cases h with
    | exact _ h => exact ⟨rfl, h⟩
    | _ => simp at ho
  cases o with
  | add => exact hexact (by simp) (toRat_add a b)
  | sub => exact hexact (by simp) (toRat_sub a b)
  | mul => exact hexact (by simp) (toRat_mul a b)
  | div =>
    refine divide_eq_limit_iff.trans ⟨?_, fun h => ?_⟩
    · rintro ⟨hb, rfl, q, hq, h⟩
      exact .quotient hb hq h
    · cases h with
      | exact ho => simp at ho
      | quotient hb hq h => exact ⟨hb, rfl, _, hq, h⟩
  | mod => exact modulo_eq_limit_iff
  | pow => exact raise_eq_limit_iff

end BinaryOperator
end Reckoner
