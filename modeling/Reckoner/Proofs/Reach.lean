import Reckoner.Proofs.Reports

/-! How far a calculation can reach. Main statement: a bound on the digits of all values, found from
the tokens without calculating, and a report for every text that it and the scale leave below the
limits of the format. -/
namespace Reckoner
open Decimal

namespace Decimal

theorem abs_sub_towardZero_le (q : ℚ) : |q - towardZero q| ≤ |q| := by
  rw [towardZero]
  split_ifs with hq
  · have hle := Int.le_ceil q
    have hceil : ((⌈q⌉ : Int) : ℚ) ≤ 0 := by exact_mod_cast Int.ceil_nonpos.2 hq.le
    rw [abs_of_nonpos (by linarith), abs_of_neg hq]
    linarith
  · have hle := Int.floor_le q
    have hfloor : (0 : ℚ) ≤ (⌊q⌋ : Int) := by exact_mod_cast Int.floor_nonneg.2 (not_lt.1 hq)
    rw [abs_of_nonneg (by linarith), abs_of_nonneg (not_lt.1 hq)]
    linarith

theorem log_lt_of_abs_lt {q : ℚ} {n : Nat} (hq : q ≠ 0) (h : |q| < 10 ^ n) :
    Int.log 10 |q| < n := by
  refine (Int.lt_zpow_iff_log_lt (by norm_num) (abs_pos.2 hq)).1 ?_
  rw [zpow_natCast]
  exact_mod_cast h

theorem le_log_of_le_abs {q : ℚ} {e : Int} (hq : q ≠ 0) (h : (10 : ℚ) ^ e ≤ |q|) :
    e ≤ Int.log 10 |q| :=
  (Int.zpow_le_iff_le_log (by norm_num) (abs_pos.2 hq)).1 (by exact_mod_cast h)

theorem dvd_mul_pow10_log2 {m n k : Nat} (hn : n ≠ 0) (h : n ∣ m * pow10 k) :
    n ∣ m * pow10 n.log2 := by
  have hle : (n / m.gcd n).log2 ≤ n.log2 := by
    by_cases h0 : n / m.gcd n = 0
    · rw [h0]
      exact Nat.zero_le _
    · exact (Nat.le_log2 hn).2 ((Nat.log2_self_le h0).trans (Nat.div_le_self _ _))
  have hpow := (dvd_pow10_log2 (div_gcd_dvd_pow10 hn h)).trans (pow10_dvd_pow10 hle)
  calc n = m.gcd n * (n / m.gcd n) := (Nat.mul_div_cancel' (Nat.gcd_dvd_right m n)).symm
    _ ∣ m * pow10 n.log2 := Nat.mul_dvd_mul (Nat.gcd_dvd_left m n) hpow

theorem eq_mul_zpow_neg_iff {q r : ℚ} {n : Nat} :
    q = r * (10 : ℚ) ^ (-(n : Int)) ↔ q * 10 ^ n = r := by
  rw [zpow_neg, zpow_natCast, ← div_eq_mul_inv, eq_div_iff (by positivity)]

end Decimal

/-- The number has no digits but the `n` on either side of the point. -/
structure Within (n : Nat) (q : ℚ) : Prop where
  places : ∃ k : Int, q = k * (10 : ℚ) ^ (-(n : Int))
  bound : |q| < (10 : ℚ) ^ n

namespace Within
variable {m n : Nat} {a b q r : ℚ}

theorem mono (h : Within n q) (hnm : n ≤ m) : Within m q := by
  obtain ⟨k, hk⟩ := h.places
  refine ⟨exists_eq_mul_of_le hk (by omega), h.bound.trans_le ?_⟩
  exact pow_le_pow_right₀ (by norm_num) hnm

theorem neg (h : Within n q) : Within n (-q) := by
  obtain ⟨k, hk⟩ := h.places
  exact ⟨⟨-k, by rw [hk, Int.cast_neg, neg_mul]⟩, by rw [abs_neg]; exact h.bound⟩

theorem add (ha : Within n a) (hb : Within n b) : Within (n + 1) (a + b) := by
  obtain ⟨k, hk⟩ := ha.places
  obtain ⟨l, hl⟩ := hb.places
  refine ⟨exists_eq_mul_of_le (n := k + l) (a := -(n : Int)) ?_ (by omega), ?_⟩
  · rw [hk, hl, Int.cast_add, add_mul]
  · have hpos : (0 : ℚ) < 10 ^ n := pow_pos (by norm_num) n
    have hle := abs_add_le a b
    rw [pow_succ]
    linarith [ha.bound, hb.bound]

theorem mul (ha : Within n a) (hb : Within m b) : Within (n + m) (a * b) := by
  obtain ⟨k, hk⟩ := ha.places
  obtain ⟨l, hl⟩ := hb.places
  refine ⟨⟨k * l, ?_⟩, ?_⟩
  · have hplaces : (-((n + m : Nat) : Int)) = -(n : Int) + -(m : Int) := by omega
    rw [hk, hl, hplaces, ten_zpow_add, Int.cast_mul]
    ring
  · rw [abs_mul, pow_add]
    exact mul_lt_mul'' ha.bound hb.bound (abs_nonneg a) (abs_nonneg b)

theorem pow (h : Within n q) (j : Nat) : Within (j * n + 1) (q ^ j) := by
  obtain ⟨k, hk⟩ := h.places
  refine ⟨exists_eq_mul_of_le (n := k ^ j) (a := -((j * n : Nat) : Int)) ?_ (by omega), ?_⟩
  · have hplaces : (-((j * n : Nat) : Int)) = -(n : Int) * j := by push_cast; ring
    rw [hk, mul_pow, hplaces, zpow_mul, zpow_natCast, Int.cast_pow]
  · have hle : |q| ^ j ≤ ((10 : ℚ) ^ n) ^ j := pow_le_pow_left₀ (abs_nonneg q) h.bound.le j
    have hlt : (10 : ℚ) ^ (j * n) < 10 ^ (j * n + 1) :=
      pow_lt_pow_right₀ (by norm_num) (Nat.lt_succ_self _)
    rw [abs_pow]
    refine hle.trans_lt ?_
    rwa [← pow_mul, Nat.mul_comm]

theorem le_abs (h : Within n q) (hq : q ≠ 0) : (10 : ℚ) ^ (-(n : Int)) ≤ |q| := by
  obtain ⟨k, hk⟩ := h.places
  have hk0 : k ≠ 0 := fun h0 => hq (by rw [hk, h0, Int.cast_zero, zero_mul])
  have hone : (1 : ℚ) ≤ |(k : ℚ)| := by exact_mod_cast Int.one_le_abs hk0
  rw [hk, abs_mul, abs_of_pos (ten_zpow_pos _)]
  exact le_mul_of_one_le_left (ten_zpow_pos _).le hone

theorem log_lt (h : Within n q) (hq : q ≠ 0) : Int.log 10 |q| < n :=
  log_lt_of_abs_lt hq h.bound

theorem le_log (h : Within n q) (hq : q ≠ 0) : -(n : Int) ≤ Int.log 10 |q| :=
  le_log_of_le_abs hq (h.le_abs hq)

theorem inLimits (h : Within n q) (hn : n ≤ fullPrecision) : InLimits q := by
  by_cases hq : q = 0
  · exact hq ▸ inLimits_zero
  · have hlow := h.le_log hq
    have htop := h.log_lt hq
    rw [fullPrecision] at hn
    rw [InLimits, bottomExponent, topExponent]
    omega

theorem abs_div_lt (ha : Within n a) (hb : Within m b) (h0 : b ≠ 0) :
    |a / b| < (10 : ℚ) ^ (n + m) := by
  have hunit := hb.le_abs h0
  have hone : (10 : ℚ) ^ (-(m : Int)) * 10 ^ m = 1 := by
    rw [← zpow_natCast, ← ten_zpow_add, neg_add_cancel, zpow_zero]
  have hle : 1 ≤ |b| * 10 ^ m := by
    rw [← hone]
    exact mul_le_mul_of_nonneg_right hunit (by positivity)
  rw [abs_div, div_lt_iff₀ (abs_pos.2 h0), pow_add]
  calc |a| < 10 ^ n := ha.bound
    _ ≤ 10 ^ n * (|b| * 10 ^ m) := le_mul_of_one_le_right (by positivity) hle
    _ = 10 ^ n * 10 ^ m * |b| := by ring

theorem remainder (ha : Within n a) (hb : Within m b) (h0 : b ≠ 0) :
    Within (n + m) (Decimal.remainder a b) := by
  obtain ⟨k, hk⟩ := (ha.mono (Nat.le_add_right n m)).places
  obtain ⟨l, hl⟩ := (hb.mono (Nat.le_add_left m n)).places
  refine ⟨⟨k - l * towardZero (a / b), ?_⟩, ?_⟩
  · rw [Decimal.remainder, Int.cast_sub, Int.cast_mul, sub_mul, ← hk, mul_right_comm, ← hl]
  · have hdiv : b * (a / b) = a := mul_div_cancel₀ a h0
    have hle : |Decimal.remainder a b| ≤ |a| := by
      calc |Decimal.remainder a b| = |b| * |a / b - towardZero (a / b)| := by
            rw [Decimal.remainder, ← abs_mul, mul_sub, hdiv]
        _ ≤ |b| * |a / b| := mul_le_mul_of_nonneg_left (abs_sub_towardZero_le _) (abs_nonneg b)
        _ = |a| := by rw [← abs_mul, hdiv]
    exact hle.trans_lt (ha.mono (Nat.le_add_right n m)).bound

theorem div (ha : Within n a) (hb : Within m b) (h0 : b ≠ 0) (h : Terminates (a / b)) :
    Within (n + 7 * m) (a / b) := by
  refine ⟨?_, (ha.abs_div_lt hb h0).trans_le (pow_le_pow_right₀ (by norm_num) (by omega))⟩
  obtain ⟨k, hk⟩ := ha.places
  obtain ⟨l, hl⟩ := hb.places
  obtain ⟨j, c, hc⟩ := h
  rw [eq_mul_zpow_neg_iff] at hk hl
  have hl0 : l ≠ 0 := fun hl0 => by
    rw [hl0, Int.cast_zero] at hl
    exact mul_ne_zero h0 (by positivity) hl
  -- the quotient ends, so the divisor divides the dividend with zeros enough behind it
  have hdvd : l.natAbs ∣ k.natAbs * pow10 (m + j) := by
    have hmul : k * 10 ^ (m + j) = l * (c * 10 ^ n) := by
      have hmul : (k : ℚ) * 10 ^ (m + j) = l * (c * 10 ^ n) := by
        rw [← hk, ← hl, ← hc, pow_add]
        field_simp
      exact_mod_cast hmul
    have habs := Int.natAbs_dvd_natAbs.2 (Dvd.intro _ hmul.symm)
    rwa [Int.natAbs_mul, Int.natAbs_pow] at habs
  -- a divisor of `2 * m` digits has at most `7 * m` binary ones
  have hlog : l.natAbs.log2 ≤ 7 * m := by
    have hlt : (l.natAbs : ℚ) < 10 ^ m * 10 ^ m := by
      have hpos : (0 : ℚ) < 10 ^ m := by positivity
      rw [Nat.cast_natAbs, Int.cast_abs, ← hl, abs_mul, abs_of_pos hpos]
      exact mul_lt_mul_of_pos_right hb.bound hpos
    have hle : 10 ^ m * 10 ^ m ≤ 2 ^ (7 * m) := by
      rw [← Nat.mul_pow, Nat.pow_mul]
      exact Nat.pow_le_pow_left (by norm_num) m
    exact ((Nat.log2_lt (Int.natAbs_ne_zero.2 hl0)).2
      ((by exact_mod_cast hlt : l.natAbs < 10 ^ m * 10 ^ m).trans_le hle)).le
  obtain ⟨d, hd⟩ : l ∣ k * 10 ^ (7 * m) := by
    rw [← Int.natAbs_dvd_natAbs, Int.natAbs_mul, Int.natAbs_pow]
    exact (dvd_mul_pow10_log2 (Int.natAbs_ne_zero.2 hl0) hdvd).trans
      (Nat.mul_dvd_mul_left _ (pow10_dvd_pow10 hlog))
  refine ⟨d * 10 ^ m, eq_mul_zpow_neg_iff.2 ?_⟩
  have hd' : (k : ℚ) * 10 ^ (7 * m) = l * d := by exact_mod_cast hd
  rw [← hk, ← hl] at hd'
  rw [pow_add, div_mul_eq_mul_div, div_eq_iff h0]
  push_cast
  linear_combination hd'

theorem le_abs_div (ha : Within n a) (hb : Within m b) (h0 : a / b ≠ 0) :
    (10 : ℚ) ^ (-((n + m : Nat) : Int)) ≤ |a / b| := by
  obtain ⟨ha0, hb0⟩ := div_ne_zero_iff.1 h0
  have hsplit : (-((n + m : Nat) : Int)) = -(n : Int) + -(m : Int) := by omega
  have hone : (10 : ℚ) ^ (-(m : Int)) * 10 ^ m = 1 := eq_mul_zpow_neg_iff.1 (one_mul _).symm
  rw [abs_div, le_div_iff₀ (abs_pos.2 hb0), hsplit, ten_zpow_add]
  calc (10 : ℚ) ^ (-(n : Int)) * (10 : ℚ) ^ (-(m : Int)) * |b|
      ≤ (10 : ℚ) ^ (-(n : Int)) * (10 : ℚ) ^ (-(m : Int)) * 10 ^ m :=
        mul_le_mul_of_nonneg_left hb.bound.le (mul_pos (ten_zpow_pos _) (ten_zpow_pos _)).le
    _ = (10 : ℚ) ^ (-(n : Int)) := by linear_combination (10 : ℚ) ^ (-(n : Int)) * hone
    _ ≤ |a| := ha.le_abs ha0

theorem found {p : Nat} (ha : Within n a) (hb : Within m b) (h0 : b ≠ 0) (hp : 0 < p)
    (h : FoundQuotient p (a / b) r) : Within (n + 7 * m + p) r := by
  cases h with
  | exact h => exact (ha.div hb h0 h).mono (Nat.le_add_right _ _)
  | rounded h =>
    have hq : a / b ≠ 0 := fun hq => h ⟨0, 0, by simp [hq]⟩
    have hlow := le_log_of_le_abs hq (ha.le_abs_div hb hq)
    have htop := log_lt_of_abs_lt hq (ha.abs_div_lt hb h0)
    have hplace : -((n + 7 * m + p : Nat) : Int) ≤ quotientPlace p (a / b) ∧
        quotientPlace p (a / b) ≤ (n + m : Nat) := by
      rw [quotientPlace, lowestPlace, bottomExponent]
      omega
    generalize quotientPlace p (a / b) = e at hplace ⊢
    obtain ⟨k, hk⟩ := exists_roundHalfUp_eq_mul (a / b) e
    refine ⟨exists_eq_mul_of_le hk hplace.1, ?_⟩
    have hunits : (pow10 ((n + m : Nat) - e).toNat : ℚ) * 10 ^ e = 10 ^ (n + m) := by
      rw [cast_pow10, zpow_toNat (by omega), ← ten_zpow_add, Int.sub_add_cancel, zpow_natCast]
    have hround := abs_roundHalfUp_le ((ha.abs_div_lt hb h0).le.trans_eq hunits.symm)
    rw [hunits] at hround
    exact hround.trans_lt (pow_lt_pow_right₀ (by norm_num) (by omega))

theorem numeral (n : Numeral) : Within n.digits.length n.value.toRat := by
  have hdigits : ∀ c ∈ n.digits, c.isDigit = true := by
    have hall := n.allDigits
    rw [areDigits, Bool.and_eq_true] at hall
    exact List.all_eq_true.1 hall.2
  obtain ⟨k, hk⟩ := n.value.exists_toRat_eq_mul
  have hplaces : n.places ≤ n.digits.length := by
    rw [Numeral.digits, List.length_append]
    exact Nat.le_add_left _ _
  refine ⟨exists_eq_mul_of_le hk (by simp only [Numeral.value]; omega), ?_⟩
  have hcoefficient : (n.value.coefficient : ℚ) < 10 ^ n.digits.length := by
    rw [← cast_pow10]
    exact_mod_cast ofDigitChars_lt hdigits
  have hunit : (10 : ℚ) ^ (-(n.places : Int)) ≤ 1 :=
    zpow_le_one_of_nonpos₀ (by norm_num) (by omega)
  rw [abs_toRat]
  exact (mul_le_of_le_one_right (Nat.cast_nonneg _) hunit).trans_lt hcoefficient

end Within

inductive FaultOr {α : Type} (p : α → Prop) : Except Failure α → Prop
  | fault (f : Fault) : FaultOr p (.error (.fault f))
  | ok {x : α} (h : p x) : FaultOr p (.ok x)

namespace FaultOr
variable {α β : Type} {p q : α → Prop} {r : β → Prop}

theorem imp {x : Except Failure α} (h : FaultOr p x) (hpq : ∀ a, p a → q a) : FaultOr q x := by
  cases h with
  | fault f => exact .fault f
  | ok h => exact .ok (hpq _ h)

theorem bind {x : Except Failure α} {f : α → Except Failure β} (h : FaultOr p x)
    (hf : ∀ a, p a → FaultOr r (f a)) : FaultOr r (x >>= f) := by
  cases h with
  | fault f => exact .fault f
  | ok h => exact hf _ h

theorem map {x : Except Failure α} {f : α → β} (h : FaultOr p x) (hf : ∀ a, p a → r (f a)) :
    FaultOr r (x.map f) := by
  cases h with
  | fault f => exact .fault f
  | ok h => exact .ok (hf _ h)

theorem of_yields {x : Except Failure Decimal} {n : Nat} {q : ℚ} (h : Yields x q)
    (hq : Within n q) : FaultOr (fun d => Within n d.toRat) x := by
  obtain ⟨d, rfl, rfl⟩ := h
  exact .ok hq

end FaultOr

namespace BinaryOperator

/-- How far results reach whose operands reach as far as `n` and `m`. -/
def reach : BinaryOperator → Nat → Nat → Nat
  | .add, n, m | .sub, n, m => max n m + 1
  | .mul, n, m | .mod, n, m => n + m
  | .div, n, m => n + 7 * m + Settings.arithmetic.divisionPrecision
  | .pow, n, m => max m
    (1 + 7 * (Settings.arithmetic.maxExponent * n + 1) + Settings.arithmetic.divisionPrecision)

theorem le_reach (o : BinaryOperator) (n m : Nat) : n ≤ o.reach n m ∧ m ≤ o.reach n m := by
  cases o <;> simp only [reach, Settings.arithmetic] <;> omega

variable {a b : Decimal} {n m : Nat} (ha : Within n a.toRat)
include ha

theorem raise_within (h : reach .pow n m ≤ fullPrecision) :
    FaultOr (fun d => Within (reach .pow n m) d.toRat)
      (raise Settings.arithmetic.maxExponent a (.finite b)) := by
  cases hw : wholeExponent Settings.arithmetic.maxExponent (.finite b) with
  | error c =>
    simp only [raise, hw]
    exact .fault _
  | ok j =>
    obtain ⟨-, hmax⟩ := wholeExponent_eq_ok_iff.1 hw
    have hpower (i : Nat) (hi : i ≤ j.natAbs) :
        Within (Settings.arithmetic.maxExponent * n + 1) (a.toRat ^ i) :=
      (ha.pow i).mono (Nat.succ_le_succ (Nat.mul_le_mul_right n (hi.trans hmax)))
    have hle : Settings.arithmetic.maxExponent * n + 1 ≤ reach .pow n m := by
      simp only [reach]
      omega
    have hyields (i : Nat) (hi : i ≤ j.natAbs) :
        Yields ((a.power i).mapError Failure.limit) (a.toRat ^ i) :=
      (yields_power ((hpower i hi).inLimits (hle.trans h)).representable).mapError _
    rw [raise_of_wholeExponent a hw]
    split_ifs with hpos hzero
    · exact .of_yields (hyields _ (by omega)) ((hpower _ (by omega)).mono hle)
    · exact .fault _
    · obtain ⟨p, hp, hvalue⟩ := hyields _ le_rfl
      have hpw := hvalue ▸ hpower _ le_rfl
      have hne : p.toRat ≠ 0 := hvalue ▸ pow_ne_zero _ (toRat_eq_zero_iff.not.2 hzero)
      obtain ⟨r, hr⟩ := exists_foundQuotient Settings.arithmetic.divisionPrecision
        (one.toRat / p.toRat)
      have hone : Within 1 one.toRat := ⟨⟨10, by norm_num⟩, by norm_num⟩
      have hfound := (hone.found hpw hne (by decide) hr).mono (le_max_right m _)
      rw [hp]
      exact .of_yields ((yields_found (by decide) hne hr (hfound.inLimits h)).mapError _) hfound

theorem apply_within {o : BinaryOperator} (hb : Within m b.toRat)
    (h : o.reach n m ≤ fullPrecision) :
    FaultOr (fun d => Within (o.reach n m) d.toRat) (o.apply a b) := by
  have hexact {d : Decimal} (hd : Within (o.reach n m) d.toRat) :
      FaultOr (fun d => Within (o.reach n m) d.toRat) (exactly d) :=
    .of_yields (yields_exactly (hd.inLimits h).representable) hd
  have hleft := ha.mono (le_max_left n m)
  have hright := hb.mono (le_max_right n m)
  cases o with
  | add => exact hexact (toRat_add a b ▸ hleft.add hright)
  | sub => exact hexact (toRat_sub a b ▸ sub_eq_add_neg a.toRat _ ▸ hleft.add hright.neg)
  | mul => exact hexact (toRat_mul a b ▸ ha.mul hb)
  | div =>
    by_cases h0 : b.toRat = 0
    · simp only [apply, divide, if_pos (toRat_eq_zero_iff.1 h0)]
      exact .fault _
    · obtain ⟨r, hr⟩ := exists_foundQuotient Settings.arithmetic.divisionPrecision
        (a.toRat / b.toRat)
      have hfound := ha.found hb h0 (by decide) hr
      simp only [apply, divide, if_neg (toRat_eq_zero_iff.not.1 h0)]
      exact .of_yields ((yields_found (by decide) h0 hr (hfound.inLimits h)).mapError _) hfound
  | mod =>
    by_cases h0 : b.toRat = 0
    · simp only [apply, modulo, if_pos (toRat_eq_zero_iff.1 h0)]
      exact .fault _
    · have hremainder := ha.remainder hb h0
      have hlog : Int.log 10 |a.toRat / b.toRat| < fullPrecision := by
        by_cases hq : a.toRat / b.toRat = 0
        · rw [hq]
          decide +kernel
        · exact (log_lt_of_abs_lt hq (ha.abs_div_lt hb h0)).trans_le (Int.ofNat_le.2 h)
      exact .of_yields (yields_modulo h0 hlog (hremainder.inLimits h).representable) hremainder
  | pow => exact raise_within ha h

end BinaryOperator

namespace Postfix

/-- How far the values on the stack reach, found from the tokens alone. Tokens that jam do not
count. -/
def reachPush (ns : List Nat) (t : Token) : List Nat :=
  match t.symbol, ns with
  | .number n, ns => n.digits.length :: ns
  | .operator (.binary o), m :: n :: ns => o.reach n m :: ns
  | _, ns => ns

def StackWithin (ns : List Nat) (values : List Decimal) : Prop :=
  List.Forall₂ (fun n d => Within n d.toRat) ns values

theorem le_of_reachPush {ns : List Nat} {t : Token} {limit : Nat}
    (h : ∀ n ∈ reachPush ns t, n ≤ limit) : ∀ n ∈ ns, n ≤ limit := by
  unfold reachPush at h
  split at h
  · exact fun n hn => h n (List.mem_cons_of_mem _ hn)
  · next o m n ns _ =>
    obtain ⟨hreach, hrest⟩ := List.forall_mem_cons.1 h
    obtain ⟨hn, hm⟩ := o.le_reach n m
    exact List.forall_mem_cons.2 ⟨hm.trans hreach,
      List.forall_mem_cons.2 ⟨hn.trans hreach, hrest⟩⟩
  · exact h

theorem le_of_foldl_reachPush {ts : List Token} {ns : List Nat} {limit : Nat}
    (h : ∀ n ∈ ts.foldl reachPush ns, n ≤ limit) : ∀ n ∈ ns, n ≤ limit := by
  induction ts generalizing ns with
  | nil => exact h
  | cons t ts ih => exact le_of_reachPush (ih h)

theorem push_within {t : Token} {ns : List Nat} {values : List Decimal} (h : StackWithin ns values)
    (hlimit : ∀ n ∈ reachPush ns t, n ≤ fullPrecision) :
    FaultOr (StackWithin (reachPush ns t)) (push t values) := by
  unfold push
  split
  next n ht =>
    simp only [reachPush, ht]
    exact .ok (.cons (.numeral n) h)
  next o ht =>
    cases o with
    | unary u =>
      simp only [reachPush, ht]
      cases h with
      | nil => exact .fault _
      | cons ha h =>
        refine .ok (.cons ?_ h)
        cases u with
        | pos => exact ha
        | neg => exact Decimal.toRat_neg _ ▸ ha.neg
    | binary o =>
      cases h with
      | nil => exact .fault _
      | cons hb h =>
        cases h with
        | nil => exact .fault _
        | cons ha h =>
          simp only [reachPush, ht] at hlimit ⊢
          obtain ⟨hreach, -⟩ := List.forall_mem_cons.1 hlimit
          exact (BinaryOperator.apply_within ha hb hreach).map fun d hd => .cons hd h
  next => exact .fault _

theorem pushAll_within {ts : List Token} {ns : List Nat} {values : List Decimal}
    (h : StackWithin ns values) (hlimit : ∀ n ∈ ts.foldl reachPush ns, n ≤ fullPrecision) :
    FaultOr (StackWithin (ts.foldl reachPush ns)) (pushAll ts values) := by
  induction ts generalizing ns values with
  | nil => exact .ok h
  | cons t ts ih =>
    rw [pushAll]
    exact (push_within h (le_of_foldl_reachPush hlimit)).bind fun values' h' => ih h' hlimit

theorem evaluate_within {ts : List Token}
    (hlimit : ∀ n ∈ ts.foldl reachPush [], n ≤ fullPrecision) :
    FaultOr (fun d => ∃ n ∈ ts.foldl reachPush [], Within n d.toRat) (evaluate ts) := by
  refine (pushAll_within .nil hlimit).bind fun values h => ?_
  generalize ts.foldl reachPush [] = ns at h
  cases h with
  | nil => exact .fault _
  | cons hv h =>
    cases h with
    | nil => exact .ok ⟨_, List.mem_singleton_self _, hv⟩
    | cons => exact .fault _

end Postfix

/-- How far the values in the calculation of a text reach, found without calculating. -/
def reach (text : Option String) : Nat :=
  match Token.scan (text.getD "") with
  | .error _ => 0
  | .ok ts =>
    match Postfix.ofInfix ts with
    | .error _ => 0
    | .ok out => (out.foldl Postfix.reachPush []).sum

theorem evaluate_within {text : Option String} (h : reach text ≤ fullPrecision) :
    FaultOr (fun d => Within (reach text) d.toRat) (evaluate text) := by
  obtain ⟨ts, out, hscan, hout, heval⟩ | ⟨f, -, hf⟩ := evaluate_cases text
  · have hreach : reach text = (out.foldl Postfix.reachPush []).sum := by
      simp only [reach, hscan, hout]
    have hlimit (n : Nat) (hn : n ∈ out.foldl Postfix.reachPush []) : n ≤ reach text :=
      hreach ▸ List.le_sum_of_mem hn
    rw [heval]
    refine (Postfix.evaluate_within fun n hn => (hlimit n hn).trans h).imp fun d hd => ?_
    obtain ⟨n, hn, hd⟩ := hd
    exact hd.mono (hlimit n hn)
  · exact hf ▸ .fault f

/-- A text is reported on at every scale that its values leave below the limits of the format. -/
theorem Calculator.exists_report_of_reach {k : Calculator} {text : Option String}
    (h : reach text + k.scale ≤ fullPrecision) : ∃ r, k.report text = .ok r := by
  have hwithin := evaluate_within ((Nat.le_add_right _ k.scale).trans h)
  cases hr : k.report text with
  | ok r => exact ⟨r, rfl⟩
  | error e =>
    obtain ⟨s, rfl, hs⟩ := report_eq_error_iff.1 hr
    have hc := calculate_eq_limit_iff.2 hs
    cases hv : evaluate text with
    | error e =>
      rw [calculate_of_evaluate_error hv] at hc
      rw [hv] at hwithin
      cases hwithin
      cases hc
    | ok d =>
      rw [hv] at hwithin
      have hwide : k.scale ≤ widestShift := (Nat.le_of_add_left_le h).trans (by decide)
      cases hwithin with
      | ok hd =>
        obtain ⟨r, hformat⟩ := exists_format hwide fun h0 => by
          have hlog := hd.log_lt h0
          omega
        rw [calculate_of_evaluate hv, hformat] at hc
        cases hc

/-- Three powers on top of one another stay below the limits. -/
example : reach (some "(((1/3)^9999)^-9999)^3") < 10 ^ 17 := by decide +kernel

end Reckoner
