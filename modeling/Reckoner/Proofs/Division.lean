import Reckoner.Proofs.LongQuotient

/-! Division as a whole. Main statement: a quotient that ends is found exactly, within the trial
precision, and keeps the difference of the exponents where that needs no further digit; one that
does not end is found as the nearest number of as many digits as a quotient keeps. -/
namespace Reckoner.Decimal

theorem signed_abs (q : ℚ) : signed (decide (q < 0)) |q| = q := by
  by_cases h : q < 0
  · simp [signed, h, abs_of_neg h]
  · simp [signed, h, abs_of_nonneg (not_lt.1 h)]

theorem signed_sub (b : Bool) (q r : ℚ) : signed b q - signed b r = signed b (q - r) := by
  cases b with
  | false => rfl
  | true =>
    simp only [signed, if_true]
    ring

theorem abs_roundHalfUp_sub_le (q : ℚ) (e : Int) : |roundHalfUp q e - q| ≤ (10 : ℚ) ^ e / 2 := by
  have hpos := ten_zpow_pos e
  have hq : |q| = |q| / (10 : ℚ) ^ e * (10 : ℚ) ^ e := (div_mul_cancel₀ _ hpos.ne').symm
  have hsub : roundHalfUp q e - q = signed (decide (q < 0))
      ((⌊|q| / (10 : ℚ) ^ e + 1 / 2⌋ - |q| / (10 : ℚ) ^ e) * (10 : ℚ) ^ e) := by
    rw [sub_mul, ← hq, ← signed_sub, signed_abs, roundHalfUp]
  generalize |q| / (10 : ℚ) ^ e = x at hsub
  have hlow := Int.floor_le (x + 1 / 2)
  have hhigh := Int.lt_floor_add_one (x + 1 / 2)
  have hfloor : |(⌊x + 1 / 2⌋ : ℚ) - x| ≤ 1 / 2 := abs_le.2 ⟨by linarith, by linarith⟩
  rw [hsub, abs_signed, abs_mul, abs_of_pos hpos]
  calc |(⌊x + 1 / 2⌋ : ℚ) - x| * (10 : ℚ) ^ e
      ≤ 1 / 2 * (10 : ℚ) ^ e := mul_le_mul_of_nonneg_right hfloor hpos.le
    _ = (10 : ℚ) ^ e / 2 := by ring

theorem abs_roundHalfUp_sub_lt {q : ℚ} (h : ¬ Terminates q) (e : Int) :
    |roundHalfUp q e - q| < (10 : ℚ) ^ e / 2 := by
  refine lt_of_le_of_ne (abs_roundHalfUp_sub_le q e) fun heq => h ?_
  obtain ⟨n, hn⟩ := exists_roundHalfUp_eq_mul q e
  have hunit : (10 : ℚ) ^ e = (10 : ℚ) ^ (e - 1) * 10 := by
    rw [← zpow_add_one₀ (by norm_num), Int.sub_add_cancel]
  have hnonneg : (0 : ℚ) ≤ (10 : ℚ) ^ (e - 1) * 10 / 2 := by
    have hpos := ten_zpow_pos (e - 1)
    linarith
  rw [hn, hunit] at heq
  obtain hs | hs := (abs_eq hnonneg).1 heq
  · refine terminates_of_eq_mul (n := 10 * n - 5) (e := e - 1) ?_
    push_cast
    linarith
  · refine terminates_of_eq_mul (n := 10 * n + 5) (e := e - 1) ?_
    push_cast
    linarith

theorem le_abs_roundHalfUp {q : ℚ} {n : Nat} {e : Int} (h : n * (10 : ℚ) ^ e ≤ |q|) :
    n * (10 : ℚ) ^ e ≤ |roundHalfUp q e| := by
  have hpos := ten_zpow_pos e
  have hle : (n : ℚ) ≤ |q| / (10 : ℚ) ^ e := (le_div_iff₀ hpos).2 h
  have hfloor : (n : Int) ≤ ⌊|q| / (10 : ℚ) ^ e + 1 / 2⌋ := by
    have hmono := Int.floor_mono (add_le_add_left hle (1 / 2))
    rwa [floor_add_half] at hmono
  have hcast : (n : ℚ) ≤ (⌊|q| / (10 : ℚ) ^ e + 1 / 2⌋ : Int) := by exact_mod_cast hfloor
  rw [roundHalfUp, abs_signed, abs_mul, abs_of_pos hpos]
  exact mul_le_mul_of_nonneg_right (hcast.trans (le_abs_self _)) hpos.le

theorem ten_zpow_le_abs_sub_add {m n : Int} (q : ℚ) (e : Int) (hne : m ≠ n) :
    (10 : ℚ) ^ e ≤ |m * (10 : ℚ) ^ e - q| + |n * (10 : ℚ) ^ e - q| := by
  have hpos := ten_zpow_pos e
  have hapart : (1 : ℚ) ≤ |(m : ℚ) - n| := by exact_mod_cast Int.one_le_abs (sub_ne_zero.2 hne)
  have hstep : (10 : ℚ) ^ e ≤ |m * (10 : ℚ) ^ e - n * (10 : ℚ) ^ e| := by
    rw [← sub_mul, abs_mul, abs_of_pos hpos]
    exact le_mul_of_one_le_left hpos.le hapart
  have htriangle := abs_sub_le (m * (10 : ℚ) ^ e) q (n * (10 : ℚ) ^ e)
  rw [abs_sub_comm q] at htriangle
  exact hstep.trans htriangle

theorem abs_sub_lt_of_multiple {q : ℚ} {m n e : Int}
    (h : |n * (10 : ℚ) ^ e - q| < (10 : ℚ) ^ e / 2) (hne : m ≠ n) :
    |n * (10 : ℚ) ^ e - q| < |m * (10 : ℚ) ^ e - q| := by
  have hapart := ten_zpow_le_abs_sub_add q e hne
  linarith

theorem roundHalfUp_of_near {q r : ℚ} {n e : Int} (hr : r = n * (10 : ℚ) ^ e)
    (h : |q - r| < (10 : ℚ) ^ e / 2) : roundHalfUp q e = r := by
  obtain ⟨m, hm⟩ := exists_roundHalfUp_eq_mul q e
  by_contra hne
  have hmn : m ≠ n := fun hmn => hne (by rw [hm, hr, hmn])
  have hapart := ten_zpow_le_abs_sub_add q e hmn
  have hround := abs_roundHalfUp_sub_le q e
  rw [hm] at hround
  rw [abs_sub_comm, hr] at h
  linarith

/-- A number of `p` digits with its leading digit at `l` or higher has none below `l - p + 1`. -/
theorem exists_eq_mul_of_digitCount_le {x : Decimal} {p : Nat} {l : Int}
    (hx : digitCount x.coefficient ≤ p) (hl : (10 : ℚ) ^ l ≤ |x.toRat|) :
    ∃ n : Int, x.toRat = n * (10 : ℚ) ^ (l - p + 1) := by
  have hpos : 0 < |x.toRat| := (ten_zpow_pos l).trans_le hl
  have hlog : l ≤ x.adjusted := by
    rw [← log_abs_toRat (toRat_eq_zero_iff.not.1 (abs_pos.1 hpos))]
    exact (Int.zpow_le_iff_le_log (by norm_num) hpos).1 (by rwa [Nat.cast_ofNat])
  obtain ⟨n, hn⟩ := x.exists_toRat_eq_mul
  rw [adjusted] at hlog
  exact exists_eq_mul_of_le hn (by omega)

/-- What is within half a unit of the last of `p` digits is nearer than every other number of `p`
digits. One with a lower leading digit is further off than the power of ten above it. -/
theorem abs_sub_lt_of_digitCount_le {q : ℚ} {p : Nat} {l n : Int} (hp : 0 < p)
    (hq : (10 : ℚ) ^ l ≤ |q|)
    (herr : |n * (10 : ℚ) ^ (l - p + 1) - q| < (10 : ℚ) ^ (l - p + 1) / 2) {x : Decimal}
    (hx : digitCount x.coefficient ≤ p) (hne : x.toRat ≠ n * (10 : ℚ) ^ (l - p + 1)) :
    |n * (10 : ℚ) ^ (l - p + 1) - q| < |x.toRat - q| := by
  have hother {m : Int} (hm : m * (10 : ℚ) ^ (l - p + 1) ≠ n * (10 : ℚ) ^ (l - p + 1)) :
      |n * (10 : ℚ) ^ (l - p + 1) - q| < |m * (10 : ℚ) ^ (l - p + 1) - q| :=
    abs_sub_lt_of_multiple herr fun h => hm (by rw [h])
  by_cases hlow : (10 : ℚ) ^ l ≤ |x.toRat|
  · obtain ⟨m, hm⟩ := exists_eq_mul_of_digitCount_le hx hlow
    rw [hm] at hne ⊢
    exact hother hne
  · obtain ⟨m, hm⟩ : ∃ m : Int,
        signed (decide (q < 0)) ((10 : ℚ) ^ l) = m * (10 : ℚ) ^ (l - p + 1) := by
      have hl : signed (decide (q < 0)) ((10 : ℚ) ^ l) =
          (if q < 0 then -1 else 1 : Int) * (10 : ℚ) ^ l := by
        by_cases h : q < 0 <;> simp [signed, h]
      exact exists_eq_mul_of_le hl (by omega)
    have hpower : |m * (10 : ℚ) ^ (l - p + 1) - q| = |q| - (10 : ℚ) ^ l := by
      have hsub : signed (decide (q < 0)) ((10 : ℚ) ^ l) - q =
          signed (decide (q < 0)) ((10 : ℚ) ^ l - |q|) := by rw [← signed_sub, signed_abs]
      rw [← hm, hsub, abs_signed, abs_sub_comm, abs_of_nonneg (sub_nonneg.2 hq)]
    have hfar : |m * (10 : ℚ) ^ (l - p + 1) - q| < |x.toRat - q| := by
      have htriangle := abs_sub_abs_le_abs_sub q x.toRat
      rw [hpower, abs_sub_comm]
      linarith
    by_cases hmn : m * (10 : ℚ) ^ (l - p + 1) = n * (10 : ℚ) ^ (l - p + 1)
    · rwa [hmn] at hfar
    · exact (hother hmn).trans hfar

/-- The format holds the number as it is: its leading digit is not above the limits, and not below
them either unless no digit stands below the lowest place. -/
def Held (p : Nat) (d : Decimal) : Prop :=
  d.adjusted ≤ topExponent ∧ (bottomExponent ≤ d.adjusted ∨ lowestPlace p ≤ d.exponent)

instance (p : Nat) (d : Decimal) : Decidable (d.Held p) := inferInstanceAs (Decidable (_ ∧ _))

theorem fit_of_held {p : Nat} {d : Decimal} (h : d.Held p) : d.fit p = .ok d := by
  obtain ⟨htop, hlow⟩ := h
  rw [fit_eq, if_neg (by omega), if_neg (by omega)]

theorem held_of_toRat_eq {p : Nat} {d r : Decimal} (h : r.toRat = d.toRat)
    (hc : d.coefficient ≠ 0) (hd : d.InRange) : r.Held p := by
  have hr : r.coefficient ≠ 0 := by rwa [ne_eq, ← toRat_eq_zero_iff, h, toRat_eq_zero_iff]
  have hrange := inRange_of_inLimits hr (h ▸ inLimits_of_inRange hd)
  exact ⟨hrange.2, .inl hrange.1⟩

theorem Held.lowestPlace_le {p : Nat} {d : Decimal} (h : d.Held p)
    (hp : digitCount d.coefficient ≤ p) : lowestPlace p ≤ d.exponent := by
  obtain ⟨-, hbottom | hlow⟩ := h
  · rw [adjusted] at hbottom
    rw [lowestPlace]
    omega
  · exact hlow

theorem roundHalfUp_quotientPlace {p : Nat} {d : Decimal} (h : d.Held p)
    (hp : digitCount d.coefficient ≤ p) :
    roundHalfUp d.toRat (quotientPlace p d.toRat) = d.toRat := by
  by_cases hc : d.coefficient = 0
  · rw [toRat_eq_zero_iff.2 hc, roundHalfUp_zero]
  have hplace : quotientPlace p d.toRat ≤ d.exponent := by
    rw [quotientPlace, log_abs_toRat hc, adjusted]
    exact max_le (by omega) (h.lowestPlace_le hp)
  obtain ⟨n, hn⟩ := d.exists_toRat_eq_mul
  obtain ⟨m, hm⟩ := exists_eq_mul_of_le hn hplace
  exact roundHalfUp_of_eq_mul hm

theorem le_log2_of_decimalPlaces? {d k : Nat} (h : decimalPlaces? d = some k) : k ≤ d.log2 := by
  obtain ⟨hdvd, hleast⟩ := dvd_of_decimalPlaces? h
  exact Nat.le_of_not_lt fun hlt => hleast _ hlt (dvd_pow10_log2 hdvd)

theorem pow10_log2_le {d : Nat} (hd : d ≠ 0) : pow10 d.log2 ≤ d ^ 4 := by
  have hlow : 2 ^ d.log2 ≤ d := (Nat.le_log2 hd).1 (Nat.le_refl _)
  calc pow10 d.log2
      ≤ 16 ^ d.log2 := Nat.pow_le_pow_left (by norm_num) _
    _ = (2 ^ d.log2) ^ 4 := by rw [← pow_mul, Nat.mul_comm, pow_mul]; norm_num
    _ ≤ d ^ 4 := Nat.pow_le_pow_left hlow 4

theorem le_of_exactQuotient? {a b q : Decimal} (h : exactQuotient? a b = some q) :
    q.coefficient ≤ a.coefficient * b.coefficient ^ 4 := by
  obtain ⟨k, hk, rfl⟩ := Option.map_eq_some_iff.1 h
  have hplaces := pow10_le_pow10 (le_log2_of_decimalPlaces? hk)
  have hd0 : b.coefficient / a.coefficient.gcd b.coefficient ≠ 0 := fun h0 => by
    rw [h0] at hk
    cases hk
  have hd := (hplaces.trans (pow10_log2_le hd0)).trans (Nat.pow_le_pow_left (Nat.div_le_self _ _) 4)
  exact (Nat.div_le_self _ _).trans (Nat.mul_le_mul (Nat.div_le_self _ _) hd)

theorem digitCount_exactQuotient?_le {a b q : Decimal} (h : exactQuotient? a b = some q) :
    digitCount q.coefficient ≤ digitCount a.coefficient + 4 * digitCount b.coefficient := by
  have hpos := digitCount_pos a.coefficient
  refine (digitCount_le_iff (by omega)).2 ((le_of_exactQuotient? h).trans_lt ?_)
  have hpow : pow10 (4 * digitCount b.coefficient) = pow10 (digitCount b.coefficient) ^ 4 := by
    rw [Nat.mul_comm]
    exact pow_mul 10 _ 4
  rw [pow10_add, hpow]
  exact Nat.mul_lt_mul_of_lt_of_le (lt_pow10_digitCount _)
    (Nat.pow_le_pow_left (lt_pow10_digitCount _).le 4) (Nat.pow_pos (pow10_pos _))

theorem coefficient_eq_of_places {d : Decimal} {n e : Int} {k : Nat}
    (hd : d.toRat = n * (10 : ℚ) ^ e) (hexp : d.exponent = e - k) :
    d.coefficient = n.natAbs * pow10 k := by
  have hpos := ten_zpow_pos e
  have hplaces : (10 : ℚ) ^ d.exponent = (10 : ℚ) ^ (-(k : Int)) * (10 : ℚ) ^ e := by
    rw [hexp, ← ten_zpow_add, Int.add_comm, ← sub_eq_add_neg]
  have habs : d.coefficient * (10 : ℚ) ^ (-(k : Int)) * (10 : ℚ) ^ e =
      n.natAbs * (10 : ℚ) ^ e := by
    rw [Rat.mul_assoc, ← hplaces, ← abs_toRat, hd, abs_mul, abs_of_pos hpos, Nat.cast_natAbs,
      Int.cast_abs]
  have hmul := mul_pow10_of_mul_zpow (mul_right_cancel₀ hpos.ne' habs)
  rwa [Int.neg_neg, Int.toNat_natCast, Int.toNat_neg_natCast, pow10_zero, Nat.mul_one] at hmul

theorem exists_places_exactQuotient? {a b q : Decimal} (hb : b.coefficient ≠ 0)
    (h : exactQuotient? a b = some q) :
    ∃ k : Nat, q.exponent = a.exponent - b.exponent - k ∧ (k ≠ 0 → ¬ 10 ∣ q.coefficient) := by
  obtain ⟨k, hk, rfl⟩ := Option.map_eq_some_iff.1 h
  refine ⟨k, rfl, fun hk0 hten => ?_⟩
  obtain ⟨hdvd, hleast⟩ := dvd_of_decimalPlaces? hk
  have hg : 0 < a.coefficient.gcd b.coefficient :=
    Nat.gcd_pos_of_pos_right _ (Nat.pos_of_ne_zero hb)
  have hcoprime := Nat.coprime_div_gcd_div_gcd hg
  generalize a.coefficient / a.coefficient.gcd b.coefficient = m at hten hcoprime
  generalize b.coefficient / a.coefficient.gcd b.coefficient = n at hten hcoprime hdvd hleast
  obtain ⟨c, hc⟩ := hten
  obtain ⟨j, rfl⟩ := Nat.exists_eq_succ_of_ne_zero hk0
  have hcancel : m * pow10 (j + 1) = 10 * c * n := by
    rw [← hc]
    exact (Nat.div_mul_cancel (hdvd.trans (Nat.dvd_mul_left _ _))).symm
  have hj : m * pow10 j = n * c := by
    rw [pow10_succ] at hcancel
    linarith
  exact hleast j (Nat.lt_succ_self j) (hcoprime.symm.dvd_of_dvd_mul_left ⟨c, hj⟩)

/-- The exact quotient with the sign of its operands. It has the difference of their exponents where
it is a multiple of that power of ten, and no zero at its end where it is not. -/
structure ExactQuotient (a b r : Decimal) : Prop where
  negative : r.negative = (a.negative ^^ b.negative)
  value : r.toRat = a.toRat / b.toRat
  ideal : (∃ n : Int, a.toRat / b.toRat = n * (10 : ℚ) ^ (a.exponent - b.exponent)) →
    r.exponent = a.exponent - b.exponent
  shortest : (¬ ∃ n : Int, a.toRat / b.toRat = n * (10 : ℚ) ^ (a.exponent - b.exponent)) →
    ¬ 10 ∣ r.coefficient

theorem exactQuotient_of_exactQuotient? {a b q : Decimal} (hb : b.coefficient ≠ 0)
    (h : exactQuotient? a b = some q) : ExactQuotient a b q := by
  have hvalue := toRat_exactQuotient? hb h
  obtain ⟨k, hexp, hlast⟩ := exists_places_exactQuotient? hb h
  refine ⟨?_, hvalue, fun ⟨n, hn⟩ => ?_, fun hno => hlast fun hk => hno ?_⟩
  · obtain ⟨_, _, rfl⟩ := Option.map_eq_some_iff.1 h
    rfl
  · suffices hk : k = 0 by rw [hexp, hk, Nat.cast_zero, Int.sub_zero]
    by_contra hk
    obtain ⟨j, rfl⟩ := Nat.exists_eq_succ_of_ne_zero hk
    refine hlast hk ?_
    rw [coefficient_eq_of_places (hvalue.trans hn) hexp, pow10_succ]
    exact (Nat.dvd_mul_left 10 _).mul_left _
  · obtain ⟨n, hn⟩ := q.exists_toRat_eq_mul
    rw [hexp, hk, Nat.cast_zero, Int.sub_zero] at hn
    exact ⟨n, hvalue ▸ hn⟩

theorem quotient_of_held {p : Nat} {a b q : Decimal} (hb : b.coefficient ≠ 0)
    (hq : exactQuotient? a b = some q) (h : q.Held (sufficientPrecision a b)) :
    a.quotient p b = .ok q := by
  have hsame : q.coefficientAt q.exponent = q.coefficient := by simp [coefficientAt, eq_comm]
  simp only [quotient, if_neg hb, hq, fit_of_held h, bind, Except.bind, if_pos hsame]
  rfl

/-- A quotient rounded to `p` digits with the sign of its operands. What is lost is less than half a
unit of the last digit, and no other number of so many digits is as near. -/
structure NearestQuotient (p : Nat) (a b r : Decimal) : Prop where
  negative : r.negative = (a.negative ^^ b.negative)
  digits : digitCount r.coefficient = p
  error : |r.toRat - a.toRat / b.toRat| <
    (10 : ℚ) ^ (Int.log 10 |a.toRat / b.toRat| - p + 1) / 2
  nearest : ∀ x : Decimal, digitCount x.coefficient ≤ p → x.toRat ≠ r.toRat →
    |r.toRat - a.toRat / b.toRat| < |x.toRat - a.toRat / b.toRat|

theorem roundedQuotient_cases {p : Nat} {a b : Decimal} (ha : a.coefficient ≠ 0)
    (hb : b.coefficient ≠ 0) : ∃ c,
      (digitCount c ≤ p ∧ roundedQuotient p a b =
        ⟨a.negative ^^ b.negative, c, quotientPlace p (a.toRat / b.toRat)⟩) ∨
      (p < digitCount c ∧ roundedQuotient p a b =
        ⟨a.negative ^^ b.negative, c / 10, quotientPlace p (a.toRat / b.toRat) + 1⟩) := by
  have hplace : quotientPlace p (a.toRat / b.toRat) = a.exponent - b.exponent +
      (if leadingPlace a.coefficient b.coefficient - p + 1 <
          lowestPlace p - (a.exponent - b.exponent)
        then lowestPlace p - (a.exponent - b.exponent)
        else leadingPlace a.coefficient b.coefficient - p + 1) := by
    rw [quotientPlace, log_abs_div ha hb]
    split <;> omega
  simp only [roundedQuotient, hplace]
  generalize (if leadingPlace a.coefficient b.coefficient - p + 1 <
      lowestPlace p - (a.exponent - b.exponent) then lowestPlace p - (a.exponent - b.exponent)
    else leadingPlace a.coefficient b.coefficient - p + 1) = unit
  generalize (if leadingPlace a.coefficient b.coefficient + 1 < unit then 0 else _ : Nat) = c
  split
  · next hlong => exact ⟨_, .inr ⟨hlong, rfl⟩⟩
  · next hshort => exact ⟨_, .inl ⟨Nat.le_of_not_lt hshort, rfl⟩⟩

theorem quotientPlace_of_le {p : Nat} {q : ℚ} (h : bottomExponent ≤ Int.log 10 |q|) :
    quotientPlace p q = Int.log 10 |q| - p + 1 := by
  rw [quotientPlace, lowestPlace]
  omega

theorem digitCount_le_succ (n : Nat) : digitCount n ≤ digitCount (n / 10) + 1 := by
  have hlt := lt_pow10_digitCount (n / 10)
  refine (digitCount_le_iff (Nat.succ_pos _)).2 ?_
  rw [pow10_succ]
  omega

theorem abs_toRat_div_pos {a b : Decimal} (ha : a.coefficient ≠ 0) (hb : b.coefficient ≠ 0) :
    0 < |a.toRat / b.toRat| :=
  abs_pos.2 (div_ne_zero (toRat_eq_zero_iff.not.2 ha) (toRat_eq_zero_iff.not.2 hb))

section Rounded
variable {p : Nat} {a b : Decimal} (hp : 0 < p) (hb : b.coefficient ≠ 0)
include hp hb

theorem adjusted_roundedQuotient (ha : a.coefficient ≠ 0)
    (h : bottomExponent ≤ Int.log 10 |a.toRat / b.toRat|) :
    Int.log 10 |a.toRat / b.toRat| ≤ (roundedQuotient p a b).adjusted ∧
      (roundedQuotient p a b).adjusted ≤ Int.log 10 |a.toRat / b.toRat| + 1 := by
  have hvalue := toRat_roundedQuotient hp ha hb
  have hq := abs_toRat_div_pos ha hb
  rw [quotientPlace_of_le h] at hvalue
  generalize a.toRat / b.toRat = q at hvalue hq
  have hleast := Int.zpow_log_le_self (b := 10) (by norm_num) hq
  have hmost := Int.lt_zpow_succ_log_self (b := 10) (by norm_num) |q|
  rw [Nat.cast_ofNat] at hleast hmost
  generalize Int.log 10 |q| = l at hvalue hleast hmost ⊢
  have hunits (k : Nat) : ((pow10 k : Nat) : ℚ) * (10 : ℚ) ^ (l - p + 1) =
      (10 : ℚ) ^ (k + (l - p + 1)) := by
    rw [cast_pow10, ten_zpow_add _ (l - p + 1), zpow_natCast]
  have hlow : (10 : ℚ) ^ l ≤ |(roundedQuotient p a b).toRat| := by
    have hl : ((p - 1 : Nat) : Int) + (l - p + 1) = l := by omega
    have hround := le_abs_roundHalfUp (n := pow10 (p - 1)) (e := l - p + 1)
      (by rwa [hunits, hl])
    rwa [hunits, hl, ← hvalue] at hround
  have hhigh : |(roundedQuotient p a b).toRat| ≤ (10 : ℚ) ^ (l + 1) := by
    have hl : (p : Int) + (l - p + 1) = l + 1 := by omega
    have hround := abs_roundHalfUp_le (n := pow10 p) (e := l - p + 1)
      (by rw [hunits, hl]; exact hmost.le)
    rwa [hunits, hl, ← hvalue] at hround
  have hpos := (ten_zpow_pos l).trans_le hlow
  have hc : (roundedQuotient p a b).coefficient ≠ 0 := toRat_eq_zero_iff.not.1 (abs_pos.1 hpos)
  have hlog := Int.log_mono_right (b := 10) (ten_zpow_pos l) hlow
  have hlog' := Int.log_mono_right (b := 10) hpos hhigh
  rw [log_ten_zpow, log_abs_toRat hc] at hlog hlog'
  exact ⟨hlog, hlog'⟩

/-- A carry into one digit more is taken back, so the coefficient always has `p` digits. -/
theorem digitCount_roundedQuotient (ha : a.coefficient ≠ 0)
    (h : bottomExponent ≤ Int.log 10 |a.toRat / b.toRat|) :
    digitCount (roundedQuotient p a b).coefficient = p := by
  obtain ⟨hlow, hhigh⟩ := adjusted_roundedQuotient hp hb ha h
  have hplace := quotientPlace_of_le (p := p) h
  obtain ⟨c, ⟨hshort, hr⟩ | ⟨hcarry, hr⟩⟩ := roundedQuotient_cases (p := p) ha hb
  · rw [hr, adjusted] at hlow
    rw [hr]
    dsimp only at hlow ⊢
    omega
  · have hdigit := digitCount_le_succ c
    rw [hr, adjusted] at hhigh
    rw [hr]
    dsimp only at hhigh ⊢
    omega

theorem nearestQuotient_roundedQuotient (ht : ¬ Terminates (a.toRat / b.toRat))
    (h : bottomExponent ≤ Int.log 10 |a.toRat / b.toRat|) :
    NearestQuotient p a b (roundedQuotient p a b) := by
  have ha := coefficient_ne_zero_of_not_terminates ht
  have hq := abs_toRat_div_pos ha hb
  have hvalue := toRat_roundedQuotient hp ha hb
  have hleast := Int.zpow_log_le_self (b := 10) (by norm_num) hq
  rw [quotientPlace_of_le h] at hvalue
  rw [Nat.cast_ofNat] at hleast
  have herr := abs_roundHalfUp_sub_lt ht (Int.log 10 |a.toRat / b.toRat| - p + 1)
  obtain ⟨n, hn⟩ := exists_roundHalfUp_eq_mul (a.toRat / b.toRat)
    (Int.log 10 |a.toRat / b.toRat| - p + 1)
  refine ⟨?_, digitCount_roundedQuotient hp hb ha h, by rwa [hvalue], fun x hx hne => ?_⟩
  · obtain ⟨c, ⟨-, hr⟩ | ⟨-, hr⟩⟩ := roundedQuotient_cases (p := p) ha hb <;> rw [hr]
  · rw [hvalue, hn] at hne ⊢
    rw [hn] at herr
    exact abs_sub_lt_of_digitCount_le hp hleast herr hx hne

end Rounded

/-- A quotient that ends is found exactly: it has no more digits than the trial precision, so the
trial leaves it as it is if the format holds it there. -/
theorem exists_exactQuotient {a b : Decimal} (hb : b.coefficient ≠ 0)
    (ht : Terminates (a.toRat / b.toRat)) : ∃ r, ExactQuotient a b r ∧
      digitCount r.coefficient ≤ sufficientPrecision a b ∧
      (r.Held (sufficientPrecision a b) → ∀ p, a.quotient p b = .ok r) := by
  obtain ⟨r, hr⟩ := exactQuotient?_of_terminates hb ht
  exact ⟨r, exactQuotient_of_exactQuotient? hb hr,
    (digitCount_exactQuotient?_le hr).trans (Nat.le_succ _),
    fun hheld _ => quotient_of_held hb hr hheld⟩

theorem exists_nearestQuotient {p : Nat} {a b : Decimal} (hp : 0 < p) (hb : b.coefficient ≠ 0)
    (ht : ¬ Terminates (a.toRat / b.toRat)) (h : bottomExponent ≤ Int.log 10 |a.toRat / b.toRat|) :
    ∃ r, NearestQuotient p a b r ∧ (r.adjusted ≤ topExponent → a.quotient p b = .ok r) := by
  refine ⟨_, nearestQuotient_roundedQuotient hp hb ht h, fun htop => ?_⟩
  have hlow := (adjusted_roundedQuotient hp hb (coefficient_ne_zero_of_not_terminates ht) h).1
  rw [quotient_of_not_terminates _ hb ht, fit_of_inRange _ ⟨h.trans hlow, htop⟩]

end Reckoner.Decimal

namespace Reckoner.BinaryOperator
open Decimal

theorem exactly_of_held {d : Decimal} (h : d.Held fullPrecision) : exactly d = .ok d := by
  rw [exactly, fit_of_held h, mapError_ok]

theorem divide_of_quotient {a b r : Decimal} (hb : b.coefficient ≠ 0)
    (h : a.quotient Settings.arithmetic.divisionPrecision b = .ok r) : divide a b = .ok r := by
  rw [divide, if_neg hb, h, mapError_ok]

/-- What division finds. A quotient that ends is found exactly: it has no more digits than the trial
precision, so the trial leaves it as it is. One that does not end is changed by every trial, and is
found as the nearest number of as many digits as are kept of a quotient. The format has to hold what
is found. -/
theorem divide_outcome {a b : Decimal} (hb : b.coefficient ≠ 0) :
    (Terminates (a.toRat / b.toRat) → ∃ r, ExactQuotient a b r ∧
      digitCount r.coefficient ≤ sufficientPrecision a b ∧
      (r.Held (sufficientPrecision a b) →
        roundHalfUp (a.toRat / b.toRat)
          (quotientPlace (sufficientPrecision a b) (a.toRat / b.toRat)) = a.toRat / b.toRat ∧
        divide a b = .ok r)) ∧
    (¬ Terminates (a.toRat / b.toRat) →
      (∀ e, roundHalfUp (a.toRat / b.toRat) e ≠ a.toRat / b.toRat) ∧
      (bottomExponent ≤ Int.log 10 |a.toRat / b.toRat| → ∃ r,
        NearestQuotient Settings.arithmetic.divisionPrecision a b r ∧
        (r.adjusted ≤ topExponent → divide a b = .ok r))) := by
  refine ⟨fun ht => ?_, fun ht => ⟨fun e he => ht ?_, fun hbottom => ?_⟩⟩
  · obtain ⟨r, hexact, hdigits, hfound⟩ := exists_exactQuotient hb ht
    refine ⟨r, hexact, hdigits, fun hheld => ⟨?_, divide_of_quotient hb (hfound hheld _)⟩⟩
    exact hexact.value ▸ roundHalfUp_quotientPlace hheld hdigits
  · obtain ⟨n, hn⟩ := exists_roundHalfUp_eq_mul (a.toRat / b.toRat) e
    exact terminates_of_eq_mul (he.symm.trans hn)
  · have hp : 0 < Settings.arithmetic.divisionPrecision := by decide
    obtain ⟨r, hnearest, hfound⟩ := exists_nearestQuotient hp hb ht hbottom
    exact ⟨r, hnearest, fun htop => divide_of_quotient hb (hfound htop)⟩

/-- An eighth is found exactly and keeps its sign; two thirds keep as many digits as they can. -/
theorem divide_eighth_two_thirds :
    (∃ r, divide ⟨false, 1, 0⟩ ⟨true, 8, 0⟩ = .ok r ∧ r.negative = true ∧
      r.toRat = -1 / 8 ∧ digitCount r.coefficient ≤ 6 ∧ ¬ 10 ∣ r.coefficient) ∧
    (∃ r, divide ⟨false, 2, 0⟩ ⟨false, 3, 0⟩ = .ok r ∧ r.negative = false ∧
      digitCount r.coefficient = 34 ∧ |r.toRat - 2 / 3| < (10 : ℚ) ^ (-34 : Int) / 2) := by
  constructor
  · have hb : (Decimal.mk true 8 0).coefficient ≠ 0 := by decide
    have hq : (Decimal.mk false 1 0).toRat / (Decimal.mk true 8 0).toRat =
        (Decimal.mk true 125 (-3)).toRat := by norm_num [toRat, signed]
    have hvalue : (Decimal.mk true 125 (-3)).toRat = -1 / 8 := by norm_num [toRat, signed]
    obtain ⟨r, hr, hdigits, hdivide⟩ := (divide_outcome (a := ⟨false, 1, 0⟩) hb).1
      (hq ▸ terminates_toRat _)
    have heighth := hr.value.trans hq
    obtain ⟨-, hfound⟩ := hdivide (held_of_toRat_eq heighth (by decide) (by decide))
    refine ⟨r, hfound, hr.negative, heighth.trans hvalue, hdigits, hr.shortest ?_⟩
    rintro ⟨n, hn⟩
    rw [hq, hvalue, sub_self, zpow_zero, mul_one] at hn
    have hcast : (-1 : Int) = n * 8 := by
      have hmul : (-1 : ℚ) = n * 8 := by linarith
      exact_mod_cast hmul
    omega
  · have hb : (Decimal.mk false 3 0).coefficient ≠ 0 := by decide
    have hq : (Decimal.mk false 2 0).toRat / (Decimal.mk false 3 0).toRat = 2 / 3 := by
      norm_num [toRat, signed]
    have hlog : Int.log 10 |(2 / 3 : ℚ)| = -1 := by
      rw [← hq, log_abs_div (by decide) hb]
      decide
    have ht := (exactQuotient?_eq_none_iff (a := ⟨false, 2, 0⟩) hb).1 (by decide)
    obtain ⟨r, hr, hdivide⟩ := ((divide_outcome hb).2 ht).2 (by rw [hq, hlog]; decide)
    have herr := hr.error
    rw [hq, hlog] at herr
    have hc : r.coefficient ≠ 0 := fun hc => by
      have hdigits := hr.digits
      rw [hc] at hdigits
      exact absurd hdigits (by decide)
    have hone : |r.toRat| ≤ (10 : ℚ) ^ (0 : Int) := by
      have htriangle := abs_sub_abs_le_abs_sub r.toRat (2 / 3)
      norm_num [Settings.arithmetic] at herr htriangle ⊢
      linarith
    have htop := Int.log_mono_right (b := 10) (abs_pos.2 (toRat_eq_zero_iff.not.2 hc)) hone
    rw [log_ten_zpow, log_abs_toRat hc] at htop
    exact ⟨r, hdivide (htop.trans (by decide)), hr.negative, hr.digits, herr⟩

end Reckoner.BinaryOperator
