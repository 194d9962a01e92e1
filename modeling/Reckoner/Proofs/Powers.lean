import Reckoner.Proofs.Division
import Reckoner.Proofs.Overflow

/-! Powers to the last digit. Main statement: raising to a power fails in three ways, told by the
exponent, by the limit on it and by the base; otherwise a power from zero on has sign, coefficient
and exponent multiplied out, and one below zero is what division of one by such a power comes to. -/
namespace Reckoner
open Decimal

namespace Decimal

def wholePower (d : Decimal) (n : Nat) : Decimal :=
  ⟨d.negative && n % 2 == 1, d.coefficient ^ n, n * d.exponent⟩

@[simp] theorem exponent_wholePower (d : Decimal) (n : Nat) :
    (d.wholePower n).exponent = n * d.exponent := rfl

theorem wholePower_zero (d : Decimal) : d.wholePower 0 = one := by
  simp [wholePower, one, ofNat]

theorem wholePower_one (d : Decimal) : d.wholePower 1 = d := by
  simp [wholePower]

theorem wholePower_mul (d : Decimal) (i j : Nat) :
    (d.wholePower i).mul (d.wholePower j) = d.wholePower (i + j) := by
  have hsign : ((i % 2 == 1) ^^ (j % 2 == 1)) = ((i + j) % 2 == 1) := by
    obtain hi | hi := Nat.mod_two_eq_zero_or_one i <;>
      obtain hj | hj := Nat.mod_two_eq_zero_or_one j <;> simp [Nat.add_mod, hi, hj]
  simp only [wholePower, mul, ← pow_add, ← add_mul, ← Bool.and_xor_distrib_left, hsign,
    Nat.cast_add]

theorem toRat_wholePower (d : Decimal) (n : Nat) : (d.wholePower n).toRat = d.toRat ^ n := by
  induction n with
  | zero => rw [wholePower_zero, toRat_one, pow_zero]
  | succ n ih => rw [← wholePower_mul, toRat_mul, ih, wholePower_one, pow_succ]

theorem mul_between (e : Int) {j k : Nat} (h : j ≤ k) :
    (0 ≤ j * e ∧ j * e ≤ k * e) ∨ (k * e ≤ j * e ∧ j * e ≤ 0) := by
  have hjk : (j : Int) ≤ k := Int.ofNat_le.2 h
  obtain he | he := Int.le_total 0 e
  · exact .inl ⟨Int.mul_nonneg (Int.natCast_nonneg j) he, Int.mul_le_mul_of_nonneg_right hjk he⟩
  · exact .inr ⟨Int.mul_le_mul_of_nonpos_right hjk he,
      Int.mul_nonpos_of_nonneg_of_nonpos (Int.natCast_nonneg j) he⟩

theorem adjusted_wholePower_between (d : Decimal) {j k : Nat} (h : j ≤ k) :
    (0 ≤ (d.wholePower j).adjusted ∧ (d.wholePower j).adjusted ≤ (d.wholePower k).adjusted) ∨
      ((d.wholePower k).adjusted ≤ (d.wholePower j).adjusted ∧ (d.wholePower j).adjusted ≤ 0) := by
  have hone : one.adjusted = 0 := by decide
  by_cases hj : j = 0
  · rw [hj, wholePower_zero, hone]
    omega
  have hk : k ≠ 0 := by omega
  by_cases hc : d.coefficient = 0
  · have hzero : digitCount 0 = 1 := by decide
    simp only [adjusted, wholePower, hc, zero_pow hj, zero_pow hk, hzero]
    have hbetween := mul_between d.exponent h
    omega
  have hadjusted (n : Nat) : (d.wholePower n).adjusted = Int.log 10 (|d.toRat| ^ n) := by
    rw [← log_abs_toRat (pow_ne_zero n hc), toRat_wholePower, abs_pow]
  have hpos : 0 < |d.toRat| := abs_pos.2 (toRat_eq_zero_iff.not.2 hc)
  have hlog : Int.log 10 (1 : ℚ) = 0 := Int.log_one_right 10
  rw [hadjusted, hadjusted, ← hlog]
  -- from one on the leading digits rise, below it they fall
  obtain h1 | h1 := le_total 1 |d.toRat|
  · exact .inl ⟨Int.log_mono_right one_pos (one_le_pow₀ h1),
      Int.log_mono_right (pow_pos hpos j) (pow_le_pow_right₀ h1 h)⟩
  · exact .inr ⟨Int.log_mono_right (pow_pos hpos k) (pow_le_pow_of_le_one hpos.le h1 h),
      Int.log_mono_right (pow_pos hpos j) (pow_le_one₀ hpos.le h1)⟩

theorem Held.wholePower_le {p : Nat} {d : Decimal} {j k : Nat} (h : (d.wholePower k).Held p)
    (hjk : j ≤ k) : (d.wholePower j).Held p := by
  obtain ⟨htop, hlow⟩ := h
  have hleading := adjusted_wholePower_between d hjk
  have hlast := mul_between d.exponent hjk
  have hplace : lowestPlace p = bottomExponent - p + 1 := rfl
  have hlimits : bottomExponent < 0 ∧ 0 ≤ topExponent := by decide
  simp only [Held, hplace, exponent_wholePower] at htop hlow ⊢
  omega

theorem powerFrom_of_held {d : Decimal} {k : Nat} (h : (d.wholePower k).Held fullPrecision)
    (n : Nat) : ∀ {i j : Nat}, i + j * n = k →
      powerFrom (d.wholePower i) (d.wholePower j) n = .ok (d.wholePower k) := by
  have hproduct {i j : Nat} (hij : i + j ≤ k) :
      (d.wholePower i).product (d.wholePower j) = .ok (d.wholePower (i + j)) := by
    rw [product, wholePower_mul, fit_of_held (h.wholePower_le hij)]
  induction n using Nat.strongRecOn with
  | ind n ih =>
    intro i j hk
    rw [powerFrom_eq]
    by_cases hn : n = 0
    · rw [if_pos hn, ← hk, hn, Nat.mul_zero, Nat.add_zero]
    have hparts : i + j * (n % 2) + (j + j) * (n / 2) = k := by
      have hdm : j * n = j * (n % 2) + (j + j) * (n / 2) := by
        rw [← Nat.mul_two, Nat.mul_assoc, ← Nat.mul_add, Nat.mod_add_div]
      omega
    have hodd : (if n % 2 = 1 then (d.wholePower i).product (d.wholePower j)
        else .ok (d.wholePower i)) = .ok (d.wholePower (i + j * (n % 2))) := by
      split
      · next h1 =>
        rw [h1, Nat.mul_one] at hparts ⊢
        exact hproduct (by omega)
      · next h1 => rw [show n % 2 = 0 by omega, Nat.mul_zero, Nat.add_zero]
    simp only [if_neg hn, hodd, bind, Except.bind]
    by_cases hhalf : n / 2 = 0
    · rw [hhalf, Nat.mul_zero, Nat.add_zero] at hparts
      rw [if_pos hhalf, hparts]
    · have hle : j + j ≤ (j + j) * (n / 2) :=
        Nat.le_mul_of_pos_right _ (Nat.pos_of_ne_zero hhalf)
      simp only [if_neg hhalf, hproduct (show j + j ≤ k by omega)]
      exact ih (n / 2) (by omega) hparts

theorem power_of_held {d : Decimal} {n : Nat} (h : (d.wholePower n).Held fullPrecision) :
    d.power n = .ok (d.wholePower n) := by
  have hpower := powerFrom_of_held h n (i := 0) (j := 1) (by omega)
  rwa [wholePower_zero, wholePower_one] at hpower

/-- The exponent stands for the number. The infinities and what is not a number stand for none. -/
def Extended.Denotes (e : Extended) (q : ℚ) : Prop := ∃ d, e = .finite d ∧ d.toRat = q

theorem Extended.Denotes.unique {e : Extended} {m n : Int} (hm : e.Denotes m) (hn : e.Denotes n) :
    m = n := by
  obtain ⟨c, rfl, hc⟩ := hm
  obtain ⟨d, hd, hn⟩ := hn
  obtain rfl := Extended.finite.inj hd
  exact Int.cast_injective (hc.symm.trans hn)

end Decimal

namespace BinaryOperator

theorem wholeExponent_cases (limit : Nat) (e : Extended) :
    ((∀ n : Int, ¬ e.Denotes n) ∧ wholeExponent limit e = .error (.nonIntegerExponent e)) ∨
      ∃ n : Int, e.Denotes n ∧
        ((limit < n.natAbs ∧ ∃ d, wholeExponent limit e = .error (.exponentOutOfRange d)) ∨
          (n.natAbs ≤ limit ∧ wholeExponent limit e = .ok n)) := by
  cases e with
  | infinite negative =>
    refine .inl ⟨?_, rfl⟩
    rintro n ⟨d, hd, -⟩
    cases hd
  | notANumber =>
    refine .inl ⟨?_, rfl⟩
    rintro n ⟨d, hd, -⟩
    cases hd
  | finite d =>
    by_cases hwhole : d.isWhole = true
    · have hd := toRat_of_isWhole hwhole
      refine .inr ⟨d.truncated, ⟨d, rfl, hd⟩, ?_⟩
      obtain hlt | hle := Nat.lt_or_ge limit d.truncated.natAbs
      · refine .inl ⟨hlt, d, ?_⟩
        have hexceeds : d.exceeds limit = true := by
          by_contra h
          exact Nat.not_le.2 hlt (natAbs_truncated_le (Bool.eq_false_iff.2 h))
        simp [wholeExponent, hwhole, hexceeds]
      · exact .inr ⟨hle, wholeExponent_of_toRat hd hle⟩
    · refine .inl ⟨?_, by simp [wholeExponent, hwhole]⟩
      rintro n ⟨c, hc, hn⟩
      obtain rfl := Extended.finite.inj hc
      exact hwhole (isWhole_of_toRat hn)

theorem raise_of_wholeExponent_error (a : Decimal) {limit : Int} {e : Extended} {c : Cause}
    (h : wholeExponent limit e = .error c) : raise limit a e = .error (.unplaced c) := by
  simp only [raise, h, mapError_error]
  rfl

theorem raise_cases (M : Nat) (a : Decimal) (e : Extended) :
    ((∀ n : Int, ¬ e.Denotes n) ∧ raise M a e = .error (.unplaced (.nonIntegerExponent e))) ∨
      ∃ n : Int, e.Denotes n ∧
        ((M < n.natAbs ∧ ∃ d, raise M a e = .error (.unplaced (.exponentOutOfRange d))) ∨
          (n.natAbs ≤ M ∧ n < 0 ∧ a.toRat = 0 ∧
            raise M a e = .error (.unplaced .zeroToNegativePower)) ∨
          (n.natAbs ≤ M ∧ ¬ (n < 0 ∧ a.toRat = 0) ∧
            ∃ x : Except Signal Decimal, raise M a e = x.mapError .limit)) := by
  obtain ⟨hno, herr⟩ | ⟨n, hn, ⟨hlt, d, herr⟩ | ⟨hle, hok⟩⟩ := wholeExponent_cases M e
  · exact .inl ⟨hno, raise_of_wholeExponent_error a herr⟩
  · exact .inr ⟨n, hn, .inl ⟨hlt, d, raise_of_wholeExponent_error a herr⟩⟩
  refine .inr ⟨n, hn, .inr ?_⟩
  rw [raise_of_wholeExponent a hok, toRat_eq_zero_iff]
  split_ifs with hpos hzero
  · exact .inr ⟨hle, fun h => Int.not_lt.2 hpos h.1, _, rfl⟩
  · exact .inl ⟨hle, Int.not_le.1 hpos, hzero, rfl⟩
  · refine .inr ⟨hle, fun h => hzero h.2, (a.power n.natAbs >>= fun p =>
      one.quotient Settings.arithmetic.divisionPrecision p), ?_⟩
    cases a.power n.natAbs <;> rfl

section Raise
variable {M : Nat} {a : Decimal} {e : Extended}

theorem fails_nonIntegerExponent_iff :
    Fails (raise M a e) .nonIntegerExponent ↔ ∀ n : Int, ¬ e.Denotes n := by
  obtain ⟨hno, hr⟩ | ⟨n, hn, ⟨-, d, hr⟩ | ⟨-, -, -, hr⟩ | ⟨-, -, x, hr⟩⟩ := raise_cases M a e
  · exact iff_of_true (by rw [hr, fails_unplaced_iff]; rfl) hno
  all_goals refine iff_of_false ?_ fun hno => hno n hn
  · simp [hr, Cause.kind]
  · simp [hr, Cause.kind]
  · exact hr ▸ not_fails_mapError_limit x _

theorem fails_exponentOutOfRange_iff :
    Fails (raise M a e) .exponentOutOfRange ↔ ∃ n : Int, e.Denotes n ∧ M < n.natAbs := by
  obtain ⟨hno, hr⟩ | ⟨n, hn, h⟩ := raise_cases M a e
  · exact iff_of_false (by simp [hr, Cause.kind]) fun ⟨n, hn, _⟩ => hno n hn
  have hiff : (∃ m : Int, e.Denotes m ∧ M < m.natAbs) ↔ M < n.natAbs :=
    ⟨fun ⟨m, hm, hlt⟩ => hm.unique hn ▸ hlt, fun hlt => ⟨n, hn, hlt⟩⟩
  rw [hiff]
  obtain ⟨hlt, d, hr⟩ | ⟨hle, -, -, hr⟩ | ⟨hle, -, x, hr⟩ := h
  · exact iff_of_true (by rw [hr, fails_unplaced_iff]; rfl) hlt
  · exact iff_of_false (by simp [hr, Cause.kind]) (Nat.not_lt.2 hle)
  · exact iff_of_false (hr ▸ not_fails_mapError_limit x _) (Nat.not_lt.2 hle)

theorem fails_zeroToNegativePower_iff : Fails (raise M a e) .zeroToNegativePower ↔
    ∃ n : Int, e.Denotes n ∧ n.natAbs ≤ M ∧ n < 0 ∧ a.toRat = 0 := by
  obtain ⟨hno, hr⟩ | ⟨n, hn, h⟩ := raise_cases M a e
  · exact iff_of_false (by simp [hr, Cause.kind]) fun ⟨n, hn, _⟩ => hno n hn
  have hiff : (∃ m : Int, e.Denotes m ∧ m.natAbs ≤ M ∧ m < 0 ∧ a.toRat = 0) ↔
      n.natAbs ≤ M ∧ n < 0 ∧ a.toRat = 0 :=
    ⟨fun ⟨m, hm, h⟩ => hm.unique hn ▸ h, fun h => ⟨n, hn, h⟩⟩
  rw [hiff]
  obtain ⟨hlt, d, hr⟩ | ⟨hle, hneg, ha, hr⟩ | ⟨-, hnot, x, hr⟩ := h
  · exact iff_of_false (by simp [hr, Cause.kind]) fun h => Nat.not_le.2 hlt h.1
  · exact iff_of_true (by rw [hr, fails_unplaced_iff]; rfl) ⟨hle, hneg, ha⟩
  · exact iff_of_false (hr ▸ not_fails_mapError_limit x _) fun h => hnot h.2

theorem mem_of_fails_raise {k : FaultKind} (h : Fails (raise M a e) k) :
    k ∈ [.nonIntegerExponent, .exponentOutOfRange, .zeroToNegativePower] := by
  obtain ⟨-, hr⟩ | ⟨n, -, ⟨-, d, hr⟩ | ⟨-, -, -, hr⟩ | ⟨-, -, x, hr⟩⟩ := raise_cases M a e
  · rw [hr, fails_unplaced_iff] at h
    simp [← h, Cause.kind]
  · rw [hr, fails_unplaced_iff] at h
    simp [← h, Cause.kind]
  · rw [hr, fails_unplaced_iff] at h
    simp [← h, Cause.kind]
  · exact absurd (hr ▸ h) (not_fails_mapError_limit x k)

variable {n : Nat} (hle : n ≤ M) (hheld : (a.wholePower n).Held fullPrecision)
include hle hheld

theorem raise_of_denotes (he : e.Denotes n) : raise M a e = .ok (a.wholePower n) := by
  obtain ⟨d, rfl, hd⟩ := he
  have hok : wholeExponent M (.finite d) = .ok (n : Int) :=
    wholeExponent_of_toRat (by rw [hd, Int.cast_natCast]) (by omega)
  rw [raise_of_wholeExponent a hok, if_pos (Int.natCast_nonneg n), Int.toNat_natCast,
    power_of_held hheld, mapError_ok]

theorem raise_of_denotes_neg (he : e.Denotes (-n)) (hn : 0 < n) (ha : a.toRat ≠ 0) :
    raise M a e = divide one (a.wholePower n) := by
  obtain ⟨d, rfl, hd⟩ := he
  have hok : wholeExponent M (.finite d) = .ok (-n : Int) :=
    wholeExponent_of_toRat (by rw [hd, Int.cast_neg, Int.cast_natCast]) (by omega)
  have hc := toRat_eq_zero_iff.not.1 ha
  have hpower : (a.wholePower n).coefficient ≠ 0 := pow_ne_zero n hc
  rw [raise_of_wholeExponent a hok, if_neg (by omega), if_neg hc, Int.natAbs_neg,
    Int.natAbs_natCast, power_of_held hheld, divide, if_neg hpower]
  rfl

end Raise

theorem exists_raise {M : Nat} {a : Decimal} {e : Extended} {n : Int} (he : e.Denotes n)
    (hle : n.natAbs ≤ M) (ha : n < 0 → a.toRat ≠ 0)
    (hheld : (a.wholePower n.natAbs).Held fullPrecision)
    (hq : n < 0 → ∀ q, FoundQuotient Settings.arithmetic.divisionPrecision
      (1 / a.toRat ^ n.natAbs) q → ¬ Beyond q) : ∃ r, raise M a e = .ok r := by
  obtain hneg | hpos := lt_or_ge n 0
  · obtain ⟨k, rfl⟩ : ∃ k : Nat, n = -k := ⟨n.natAbs, by omega⟩
    have ha0 := ha hneg
    have hq0 := hq hneg
    simp only [Int.natAbs_neg, Int.natAbs_natCast, Int.cast_neg, Int.cast_natCast] at *
    have hb : (a.wholePower k).coefficient ≠ 0 := pow_ne_zero _ (toRat_eq_zero_iff.not.1 ha0)
    rw [raise_of_denotes_neg hle hheld he (by omega) ha0]
    cases hquotient : one.quotient Settings.arithmetic.divisionPrecision (a.wholePower k) with
    | ok r => exact ⟨r, divide_of_quotient hb hquotient⟩
    | error s =>
      obtain ⟨-, q, hfound, hbeyond⟩ :=
        (quotient_eq_error_iff_of_ne_zero (by decide) hb).1 hquotient
      rw [toRat_one, toRat_wholePower] at hfound
      exact absurd hbeyond (hq0 q hfound)
  · obtain ⟨k, rfl⟩ := Int.eq_ofNat_of_zero_le hpos
    rw [Int.natAbs_natCast] at hle hheld
    rw [Int.cast_natCast] at he
    exact ⟨_, raise_of_denotes hle hheld he⟩

end BinaryOperator
end Reckoner
