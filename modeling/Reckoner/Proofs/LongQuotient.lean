import Reckoner.Proofs.Quotient

/-! Quotients that do not end. Main statements: such a quotient is found as the rational number
rounded half up to the precision, or at the lowest place where that is higher; and a quotient is an
overflow just where what is found stands above the limits. -/
namespace Reckoner.Decimal

theorem log_mul_ten_zpow {q : ℚ} (hq : 0 < q) (e : Int) :
    Int.log 10 (q * (10 : ℚ) ^ e) = Int.log 10 q + e := by
  have hpos : 0 < q * (10 : ℚ) ^ e := mul_pos hq (ten_zpow_pos e)
  have hlow : Int.log 10 q + e ≤ Int.log 10 (q * (10 : ℚ) ^ e) := by
    refine (Int.zpow_le_iff_le_log (by norm_num) hpos).1 ?_
    rw [Nat.cast_ofNat, ten_zpow_add]
    have hle := Int.zpow_log_le_self (b := 10) (by norm_num) hq
    rw [Nat.cast_ofNat] at hle
    exact mul_le_mul_of_nonneg_right hle (ten_zpow_pos e).le
  have hhigh : Int.log 10 (q * (10 : ℚ) ^ e) < Int.log 10 q + e + 1 := by
    refine (Int.lt_zpow_iff_log_lt (by norm_num) hpos).1 ?_
    rw [Nat.cast_ofNat, add_right_comm, ten_zpow_add]
    have hlt := Int.lt_zpow_succ_log_self (b := 10) (by norm_num) q
    rw [Nat.cast_ofNat] at hlt
    exact mul_lt_mul_of_pos_right hlt (ten_zpow_pos e)
  omega

theorem lt_mul_ten_zpow_iff (m n : Nat) (t : Int) :
    (m : ℚ) < n * (10 : ℚ) ^ t ↔ m * pow10 (-t).toNat < n * pow10 t.toNat := by
  have hexp : n * (10 : ℚ) ^ t * (10 : ℚ) ^ (-t).toNat = n * (10 : ℚ) ^ t.toNat := by
    have hsum : t + (-t).toNat = t.toNat := by omega
    rw [← zpow_natCast, ← zpow_natCast, ← hsum, ten_zpow_add]
    ring
  have hpos : (0 : ℚ) < (10 : ℚ) ^ (-t).toNat := by positivity
  rw [← mul_lt_mul_iff_of_pos_right hpos, hexp, ← cast_pow10, ← cast_pow10]
  exact_mod_cast Iff.rfl

theorem le_log_div {n d : Nat} (hn : n ≠ 0) (hd : d ≠ 0) :
    (digitCount n : Int) - digitCount d - 1 ≤ Int.log 10 ((n : ℚ) / d) := by
  have hn' : (0 : ℚ) < n := Nat.cast_pos.2 (Nat.pos_of_ne_zero hn)
  have hd' : (0 : ℚ) < d := Nat.cast_pos.2 (Nat.pos_of_ne_zero hd)
  refine (Int.zpow_le_iff_le_log (by norm_num) (div_pos hn' hd')).1 ?_
  have hsplit : (digitCount n : Int) - digitCount d - 1 + digitCount d =
      (digitCount n - 1 : Nat) := by
    have := digitCount_pos n
    omega
  have hle : (10 : ℚ) ^ ((digitCount n : Int) - digitCount d - 1) * (10 : ℚ) ^ digitCount d ≤
      n := by
    rw [← zpow_natCast, ← ten_zpow_add, hsplit, zpow_natCast, ← cast_pow10]
    exact_mod_cast pow10_le_of_ne_zero hn
  have hd10 : (d : ℚ) ≤ (10 : ℚ) ^ digitCount d := by
    rw [← cast_pow10]
    exact_mod_cast (lt_pow10_digitCount d).le
  rw [Nat.cast_ofNat, le_div_iff₀ hd']
  exact (mul_le_mul_of_nonneg_left hd10 (ten_zpow_pos _).le).trans hle

theorem log_div_lt {n d : Nat} (hn : n ≠ 0) (hd : d ≠ 0) :
    Int.log 10 ((n : ℚ) / d) < (digitCount n : Int) - digitCount d + 1 := by
  have hn' : (0 : ℚ) < n := Nat.cast_pos.2 (Nat.pos_of_ne_zero hn)
  have hd' : (0 : ℚ) < d := Nat.cast_pos.2 (Nat.pos_of_ne_zero hd)
  refine (Int.lt_zpow_iff_log_lt (by norm_num) (div_pos hn' hd')).1 ?_
  have hsplit : (digitCount n : Int) - digitCount d + 1 + (digitCount d - 1 : Nat) =
      digitCount n := by
    have := digitCount_pos d
    omega
  have hlt : (n : ℚ) < (10 : ℚ) ^ ((digitCount n : Int) - digitCount d + 1) *
      (10 : ℚ) ^ (digitCount d - 1) := by
    rw [← zpow_natCast, ← ten_zpow_add, hsplit, zpow_natCast, ← cast_pow10]
    exact_mod_cast lt_pow10_digitCount n
  have hd10 : (10 : ℚ) ^ (digitCount d - 1) ≤ d := by
    rw [← cast_pow10]
    exact_mod_cast pow10_le_of_ne_zero hd
  rw [Nat.cast_ofNat, div_lt_iff₀ hd']
  exact hlt.trans_le (mul_le_mul_of_nonneg_left hd10 (ten_zpow_pos _).le)

theorem leadingPlace_eq {n d : Nat} (hn : n ≠ 0) (hd : d ≠ 0) :
    leadingPlace n d = Int.log 10 ((n : ℚ) / d) := by
  have hn' : (0 : ℚ) < n := Nat.cast_pos.2 (Nat.pos_of_ne_zero hn)
  have hd' : (0 : ℚ) < d := Nat.cast_pos.2 (Nat.pos_of_ne_zero hd)
  have hlow := le_log_div hn hd
  have hhigh := log_div_lt hn hd
  -- the lengths leave two places, and the comparison tells which
  have hcompare : n * pow10 (-((digitCount n : Int) - digitCount d)).toNat <
      d * pow10 ((digitCount n : Int) - digitCount d).toNat ↔
        Int.log 10 ((n : ℚ) / d) < (digitCount n : Int) - digitCount d := by
    rw [← lt_mul_ten_zpow_iff, ← Int.lt_zpow_iff_log_lt (by norm_num) (div_pos hn' hd'),
      Nat.cast_ofNat, div_lt_iff₀' hd']
  simp only [leadingPlace, hcompare]
  split <;> omega

def quotientPlace (p : Nat) (q : ℚ) : Int := max (Int.log 10 |q| - p + 1) (lowestPlace p)

theorem log_abs_div {a b : Decimal} (ha : a.coefficient ≠ 0) (hb : b.coefficient ≠ 0) :
    Int.log 10 |a.toRat / b.toRat| =
      leadingPlace a.coefficient b.coefficient + (a.exponent - b.exponent) := by
  have hpos : (0 : ℚ) < a.coefficient / b.coefficient :=
    div_pos (Nat.cast_pos.2 (Nat.pos_of_ne_zero ha)) (Nat.cast_pos.2 (Nat.pos_of_ne_zero hb))
  rw [leadingPlace_eq ha hb, ← log_mul_ten_zpow hpos, toRat_div, abs_signed,
    abs_of_pos (mul_pos hpos (ten_zpow_pos _))]

theorem floor_of_log_lt {q : ℚ} {e : Int} (hq : 0 < q) (h : Int.log 10 q + 1 < e) :
    ⌊q / (10 : ℚ) ^ e + 1 / 2⌋ = 0 := by
  have hlt : q < (10 : ℚ) ^ (e - 1) := by
    have hlog := (Int.lt_zpow_iff_log_lt (b := 10) (by norm_num) hq).2 (show _ < e - 1 by omega)
    rwa [Nat.cast_ofNat] at hlog
  have hunit : (10 : ℚ) ^ e = (10 : ℚ) ^ (e - 1) * 10 := by
    rw [← zpow_add_one₀ (by norm_num), Int.sub_add_cancel]
  have hpos := ten_zpow_pos e
  have hdiv : q / (10 : ℚ) ^ e < 1 / 2 := by
    rw [div_lt_iff₀ hpos, hunit]
    linarith
  refine Int.floor_eq_zero_iff.2 ⟨?_, ?_⟩
  · positivity
  · linarith

theorem halfUp_shifted (m : Nat) {n : Nat} (hn : n ≠ 0) (e : Int) :
    (halfUp (m * pow10 (-e).toNat) (n * pow10 e.toNat) : Int) =
      ⌊(m : ℚ) / n / (10 : ℚ) ^ e + 1 / 2⌋ := by
  have hn' : (n : ℚ) ≠ 0 := Nat.cast_ne_zero.2 hn
  have hpos : 0 < n * pow10 e.toNat := Nat.mul_pos (Nat.pos_of_ne_zero hn) (pow10_pos _)
  have hexp : (10 : ℚ) ^ e.toNat = (10 : ℚ) ^ e * (10 : ℚ) ^ (-e).toNat := by
    have hsum : (e.toNat : Int) = e + (-e).toNat := by omega
    rw [← zpow_natCast, ← zpow_natCast, hsum, ten_zpow_add]
  have hquot : ((m * pow10 (-e).toNat : Nat) : ℚ) / (n * pow10 e.toNat : Nat) =
      (m : ℚ) / n / (10 : ℚ) ^ e := by
    have h0 := (ten_zpow_pos e).ne'
    push_cast
    rw [cast_pow10, cast_pow10, hexp]
    field_simp
  rw [← hquot, floor_div_add_half _ hpos]

theorem dvd_of_digitCount_gt {p c : Nat} (hp : 0 < p) (hle : c ≤ pow10 p) (h : p < digitCount c) :
    10 ∣ c := by
  have hge : pow10 p ≤ c := Nat.not_lt.1 fun hlt => Nat.not_le.2 h ((digitCount_le_iff hp).2 hlt)
  obtain ⟨k, rfl⟩ := Nat.exists_eq_succ_of_ne_zero hp.ne'
  rw [Nat.le_antisymm hle hge, pow10_succ]
  exact Nat.dvd_mul_left 10 _

theorem roundHalfUp_signed (b : Bool) {q : ℚ} (hq : 0 < q) (e : Int) :
    roundHalfUp (signed b q) e = signed b (⌊q / (10 : ℚ) ^ e + 1 / 2⌋ * (10 : ℚ) ^ e) := by
  have hsign : decide (signed b q < 0) = b := by
    cases b <;> simp [signed, hq, hq.le]
  rw [roundHalfUp, hsign, abs_signed, abs_of_pos hq]

theorem le_pow10_of_floor {p c : Nat} {q : ℚ} {unit : Int} (hunit : Int.log 10 q - p + 1 ≤ unit)
    (hc : (c : Int) = ⌊q / (10 : ℚ) ^ unit + 1 / 2⌋) : c ≤ pow10 p := by
  have hlt := Int.lt_zpow_succ_log_self (b := 10) (by norm_num) q
  rw [Nat.cast_ofNat] at hlt
  have hle : q / (10 : ℚ) ^ unit ≤ (pow10 p : ℚ) := by
    rw [div_le_iff₀ (ten_zpow_pos unit), cast_pow10, ← zpow_natCast, ← ten_zpow_add]
    exact hlt.le.trans (zpow_le_zpow_right₀ (by norm_num) (by omega))
  have hmono := Int.floor_mono (add_le_add_left hle (1 / 2))
  rw [floor_add_half, ← hc] at hmono
  exact_mod_cast hmono

theorem toRat_roundedQuotient {p : Nat} {a b : Decimal} (hp : 0 < p) (ha : a.coefficient ≠ 0)
    (hb : b.coefficient ≠ 0) : (roundedQuotient p a b).toRat =
      roundHalfUp (a.toRat / b.toRat) (quotientPlace p (a.toRat / b.toRat)) := by
  have hx : (0 : ℚ) < a.coefficient / b.coefficient :=
    div_pos (Nat.cast_pos.2 (Nat.pos_of_ne_zero ha)) (Nat.cast_pos.2 (Nat.pos_of_ne_zero hb))
  have hlead := leadingPlace_eq ha hb
  have hplace : quotientPlace p (a.toRat / b.toRat) = a.exponent - b.exponent +
      max (leadingPlace a.coefficient b.coefficient - p + 1)
        (lowestPlace p - (a.exponent - b.exponent)) := by
    rw [quotientPlace, log_abs_div ha hb]
    omega
  rw [hplace]
  simp only [roundedQuotient]
  generalize leadingPlace a.coefficient b.coefficient = leading at hlead ⊢
  generalize hideal : a.exponent - b.exponent = ideal
  have hunit : (if leading - p + 1 < lowestPlace p - ideal then lowestPlace p - ideal
      else leading - p + 1) = max (leading - p + 1) (lowestPlace p - ideal) := by
    split <;> omega
  rw [hunit]
  have hfull : leading - p + 1 ≤ max (leading - p + 1) (lowestPlace p - ideal) := le_max_left _ _
  generalize max (leading - p + 1) (lowestPlace p - ideal) = unit at hfull ⊢
  -- the coefficient is the quotient of the coefficients, rounded half up at the unit
  generalize hc : (if leading + 1 < unit then 0
    else halfUp (a.coefficient * pow10 (-unit).toNat) (b.coefficient * pow10 unit.toNat)) = c
  have hfloor : (c : Int) = ⌊(a.coefficient : ℚ) / b.coefficient / (10 : ℚ) ^ unit + 1 / 2⌋ := by
    rw [← hc]
    split
    · next hlow => rw [floor_of_log_lt hx (by omega), Nat.cast_zero]
    · exact halfUp_shifted _ hb unit
  have hvalue : roundHalfUp (a.toRat / b.toRat) (ideal + unit) =
      signed (a.negative ^^ b.negative) (c * (10 : ℚ) ^ (ideal + unit)) := by
    have hcancel (x : ℚ) : x * (10 : ℚ) ^ ideal / (10 : ℚ) ^ (ideal + unit) =
        x / (10 : ℚ) ^ unit := by
      rw [Int.add_comm, ten_zpow_add, mul_div_mul_right _ _ (ten_zpow_pos ideal).ne']
    rw [toRat_div, hideal, roundHalfUp_signed _ (mul_pos hx (ten_zpow_pos _)), hcancel, ← hfloor,
      Int.cast_natCast]
  have hcle : c ≤ pow10 p := le_pow10_of_floor (hlead ▸ hfull) hfloor
  rw [hvalue, toRat]
  split
  · next hcarry =>
    obtain ⟨k, rfl⟩ := dvd_of_digitCount_gt hp hcle hcarry
    rw [Nat.mul_div_cancel_left _ (by norm_num), zpow_add_one₀ (by norm_num)]
    congr 1
    push_cast
    ring
  · rfl

def Beyond (q : ℚ) : Prop := topExponent < Int.log 10 |q|

theorem not_beyond_zero : ¬ Beyond 0 := by simp [Beyond, topExponent]

theorem not_beyond_of_abs_le {q : ℚ} {e : Int} (he : e ≤ topExponent) (h : |q| ≤ (10 : ℚ) ^ e) :
    ¬ Beyond q := by
  by_cases hq : q = 0
  · exact hq ▸ not_beyond_zero
  have hlog := Int.log_mono_right (b := 10) (abs_pos.2 hq) h
  rw [log_ten_zpow] at hlog
  rw [Beyond]
  omega

theorem beyond_toRat_iff {d : Decimal} :
    Beyond d.toRat ↔ d.coefficient ≠ 0 ∧ topExponent < d.adjusted := by
  by_cases hc : d.coefficient = 0
  · rw [toRat_eq_zero_iff.2 hc]
    exact iff_of_false not_beyond_zero fun h => h.1 hc
  · rw [Beyond, log_abs_toRat hc]
    exact (and_iff_right hc).symm

theorem fit_eq_error_iff {p : Nat} {d : Decimal} {s : Signal} :
    d.fit p = .error s ↔ s = .overflow ∧ Beyond d.toRat := by
  rw [beyond_toRat_iff, fit_eq]
  split_ifs with htop hc hlow
  · simp [hc]
  · simp [hc, htop, eq_comm]
  · simp [htop]
  · simp [htop]

theorem exists_fit_of_not_beyond {d : Decimal} (p : Nat) (h : ¬ Beyond d.toRat) :
    ∃ r, d.fit p = .ok r := by
  cases hd : d.fit p with
  | ok r => exact ⟨r, rfl⟩
  | error s => exact absurd (fit_eq_error_iff.1 hd).2 h

/-- The quotient as it is found: itself where it ends, else rounded half up. -/
inductive FoundQuotient (p : Nat) (q : ℚ) : ℚ → Prop
  | exact (h : Terminates q) : FoundQuotient p q q
  | rounded (h : ¬ Terminates q) : FoundQuotient p q (roundHalfUp q (quotientPlace p q))

theorem terminates_of_eq_mul {q : ℚ} {n e : Int} (h : q = n * (10 : ℚ) ^ e) : Terminates q := by
  have hsum : (e.toNat : Int) = e + (-e).toNat := by omega
  refine ⟨(-e).toNat, n * 10 ^ e.toNat, ?_⟩
  push_cast
  rw [h, ← zpow_natCast, ← zpow_natCast, hsum, ten_zpow_add]
  ring

theorem terminates_toRat (d : Decimal) : Terminates d.toRat := by
  obtain ⟨n, hn⟩ := d.exists_toRat_eq_mul
  exact terminates_of_eq_mul hn

theorem terminates_of_exactQuotient? {a b q : Decimal} (hb : b.coefficient ≠ 0)
    (hq : exactQuotient? a b = some q) : Terminates (a.toRat / b.toRat) :=
  toRat_exactQuotient? hb hq ▸ terminates_toRat q

theorem exactQuotient?_eq_none_iff {a b : Decimal} (hb : b.coefficient ≠ 0) :
    exactQuotient? a b = none ↔ ¬ Terminates (a.toRat / b.toRat) := by
  refine ⟨fun hq h => ?_, fun h => ?_⟩
  · obtain ⟨q, hsome⟩ := exactQuotient?_of_terminates hb h
    rw [hq] at hsome
    cases hsome
  · exact Option.eq_none_iff_forall_ne_some.2 fun q hq => h (terminates_of_exactQuotient? hb hq)

theorem coefficient_ne_zero_of_not_terminates {a b : Decimal}
    (h : ¬ Terminates (a.toRat / b.toRat)) : a.coefficient ≠ 0 := fun ha => h <| by
  rw [toRat_eq_zero_iff.2 ha, zero_div]
  exact ⟨0, 0, by simp⟩

theorem quotient_of_not_terminates {a b : Decimal} (p : Nat) (hb : b.coefficient ≠ 0)
    (h : ¬ Terminates (a.toRat / b.toRat)) : a.quotient p b = (roundedQuotient p a b).fit p := by
  rw [quotient, if_neg hb, (exactQuotient?_eq_none_iff hb).2 h]

theorem exists_foundQuotient (p : Nat) (q : ℚ) : ∃ r, FoundQuotient p q r := by
  by_cases h : Terminates q
  · exact ⟨_, .exact h⟩
  · exact ⟨_, .rounded h⟩

theorem yields_found {p : Nat} {a b : Decimal} {r : ℚ} (hp : 0 < p) (hb : b.toRat ≠ 0)
    (h : FoundQuotient p (a.toRat / b.toRat) r) (hl : InLimits r) : Yields (a.quotient p b) r := by
  cases h with
  | exact ht => exact yields_quotient p hb ht hl
  | rounded ht =>
    have hbc := toRat_eq_zero_iff.not.1 hb
    rw [← toRat_roundedQuotient hp (coefficient_ne_zero_of_not_terminates ht) hbc] at hl ⊢
    rw [quotient_of_not_terminates p hbc ht]
    exact yields_fit p hl

theorem foundQuotient_exact_iff {p : Nat} {q r : ℚ} (h : Terminates q) :
    FoundQuotient p q r ↔ r = q := by
  refine ⟨fun hr => ?_, fun hr => by rw [hr]; exact .exact h⟩
  cases hr with
  | exact => rfl
  | rounded hno => exact absurd h hno

theorem foundQuotient_rounded_iff {p : Nat} {q r : ℚ} (h : ¬ Terminates q) :
    FoundQuotient p q r ↔ r = roundHalfUp q (quotientPlace p q) := by
  refine ⟨fun hr => ?_, fun hr => hr ▸ .rounded h⟩
  cases hr with
  | exact hend => exact absurd hend h
  | rounded => rfl

theorem not_beyond_roundedQuotient {p : Nat} {a b : Decimal} (hp : 0 < p) (ha : a.coefficient ≠ 0)
    (hb : b.coefficient ≠ 0) (h : Int.log 10 |a.toRat / b.toRat| < bottomExponent) :
    ¬ Beyond (roundedQuotient p a b).toRat := by
  rw [toRat_roundedQuotient hp ha hb]
  generalize a.toRat / b.toRat = q at h ⊢
  have hplace : quotientPlace p q ≤ bottomExponent := by
    rw [quotientPlace, lowestPlace]
    omega
  generalize quotientPlace p q = e at hplace ⊢
  have hsplit : (10 : ℚ) ^ bottomExponent =
      (pow10 (bottomExponent - e).toNat : Nat) * (10 : ℚ) ^ e := by
    rw [cast_pow10, zpow_toNat (by omega), ← ten_zpow_add, Int.sub_add_cancel]
  have hlt := Int.lt_zpow_succ_log_self (b := 10) (by norm_num) |q|
  have hle : |q| ≤ (10 : ℚ) ^ bottomExponent := by
    rw [Nat.cast_ofNat] at hlt
    exact hlt.le.trans (zpow_le_zpow_right₀ (by norm_num) (by omega))
  have hround := abs_roundHalfUp_le (hsplit ▸ hle)
  rw [← hsplit] at hround
  exact not_beyond_of_abs_le (by decide) hround

section Quotient
variable {p : Nat} {a b : Decimal} (hp : 0 < p) (hb : b.coefficient ≠ 0)
include hb

theorem quotient_of_beyond {q : Decimal} (hq : exactQuotient? a b = some q)
    (h : Beyond q.toRat) : a.quotient p b = .error .overflow := by
  have hfit := (fit_eq_error_iff (p := sufficientPrecision a b)).2 ⟨rfl, h⟩
  simp only [quotient, if_neg hb, hq, hfit, bind, Except.bind]

include hp

theorem exists_quotient_of_exact {q : Decimal} (hq : exactQuotient? a b = some q)
    (h : ¬ Beyond q.toRat) : ∃ r, a.quotient p b = .ok r := by
  obtain ⟨r, hr⟩ := exists_fit_of_not_beyond (sufficientPrecision a b) h
  simp only [quotient, if_neg hb, hq, hr, bind, Except.bind]
  split_ifs with hsame hshort
  · exact ⟨r, rfl⟩
  · exact exists_fit_of_not_beyond p h
  refine exists_fit_of_not_beyond p ?_
  have hv := toRat_exactQuotient? hb hq
  have hqc : q.coefficient ≠ 0 := fun hqc => by
    obtain ⟨r', hr', hrc⟩ := fit_zero (sufficientPrecision a b) hqc
    obtain rfl := Except.ok.inj (hr.symm.trans hr')
    exact hsame (by rw [coefficientAt, if_pos hrc, hqc])
  have ha : a.coefficient ≠ 0 := fun ha => by
    rw [toRat_eq_zero_iff.2 ha, zero_div, toRat_eq_zero_iff] at hv
    exact hqc hv
  have hlow : q.adjusted < bottomExponent := by
    by_contra hge
    have hrange : q.InRange := by
      refine ⟨Int.not_lt.1 hge, Int.not_lt.1 fun htop => h ?_⟩
      exact beyond_toRat_iff.2 ⟨hqc, htop⟩
    rw [fit_of_inRange _ hrange] at hr
    obtain rfl := Except.ok.inj hr
    exact hsame (by simp [coefficientAt, hqc])
  rw [← log_abs_toRat hqc, hv] at hlow
  exact not_beyond_roundedQuotient hp ha hb hlow

theorem quotient_eq_error_iff_of_ne_zero {s : Signal} : a.quotient p b = .error s ↔
    s = .overflow ∧ ∃ r, FoundQuotient p (a.toRat / b.toRat) r ∧ Beyond r := by
  cases hq : exactQuotient? a b with
  | some q =>
    simp only [foundQuotient_exact_iff (terminates_of_exactQuotient? hb hq), exists_eq_left]
    rw [← toRat_exactQuotient? hb hq]
    by_cases h : Beyond q.toRat
    · rw [quotient_of_beyond hb hq h]
      simp [h, eq_comm]
    · obtain ⟨r, hr⟩ := exists_quotient_of_exact hp hb hq h
      simp [hr, h]
  | none =>
    have hno := (exactQuotient?_eq_none_iff hb).1 hq
    have ha := coefficient_ne_zero_of_not_terminates hno
    simp only [foundQuotient_rounded_iff hno, exists_eq_left, ← toRat_roundedQuotient hp ha hb,
      quotient_of_not_terminates p hb hno, fit_eq_error_iff]

end Quotient

/-- A quotient is no overflow unless what is found of it stands above the limits. -/
theorem quotient_eq_error_iff {p : Nat} {a b : Decimal} {s : Signal} (hp : 0 < p) :
    a.quotient p b = .error s ↔ (b.toRat = 0 ∧ s = .divisionByZero) ∨
      (b.toRat ≠ 0 ∧ s = .overflow ∧ ∃ r, FoundQuotient p (a.toRat / b.toRat) r ∧ Beyond r) := by
  by_cases hb : b.coefficient = 0
  · rw [quotient, if_pos hb, toRat_eq_zero_iff.2 hb]
    simp [eq_comm]
  · simp only [quotient_eq_error_iff_of_ne_zero hp hb, toRat_eq_zero_iff, hb, false_and, false_or,
      ne_eq, not_false_eq_true, true_and]

end Reckoner.Decimal
