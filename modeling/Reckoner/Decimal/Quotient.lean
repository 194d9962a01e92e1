import Reckoner.Decimal.Range

/-! Division. A quotient that ends is exact, with the difference of the exponents where that needs
no further digit and with as few digits as possible otherwise. One that does not end keeps a fixed
number of digits. -/
namespace Reckoner.Decimal

/-- The least `k` from `lo` to `hi` such that `d` divides `pow10 k`, found by halving: where it
divides one power of ten it divides the higher ones. -/
def leastPlaces (d lo hi : Nat) : Nat :=
  if lo < hi then
    let middle := (lo + hi) / 2
    if pow10 middle % d = 0 then leastPlaces d lo middle else leastPlaces d (middle + 1) hi
  else hi
termination_by hi - lo

/-- A divisor of a power of ten is a power of two times a power of five. The exponent of the one is
read off the lowest binary digit that is set, that of the other off the length of the rest. -/
def likelyPlaces (d : Nat) : Nat :=
  let twos := (d ^^^ (d - 1)).log2
  let fives := ((d >>> twos).log2 + 1) * 43067655807339306 / 100000000000000000
  if twos < fives then fives else twos

def areLeastPlaces (d k : Nat) : Bool :=
  pow10 k % d == 0 && (k == 0 || pow10 (k - 1) % d != 0)

/-- The least `k` such that `d` divides `pow10 k`. A divisor of a power of ten has no more factors
than binary digits, which bounds the search. -/
def decimalPlaces? (d : Nat) : Option Nat :=
  if d = 0 then none
  else if areLeastPlaces d (likelyPlaces d) then some (likelyPlaces d)
  else if pow10 d.log2 % d = 0 then some (leastPlaces d 0 d.log2)
  else none

theorem dvd_leastPlaces {d lo hi : Nat} (h : d ∣ pow10 hi) : d ∣ pow10 (leastPlaces d lo hi) := by
  fun_induction leastPlaces d lo hi with
  | case1 _ _ _ _ hm ih => exact ih (Nat.dvd_of_mod_eq_zero hm)
  | case2 _ _ _ _ _ ih => exact ih h
  | case3 => exact h

theorem not_dvd_of_lt_leastPlaces {d lo hi k : Nat} (hlo : ∀ j < lo, ¬ d ∣ pow10 j)
    (h : lo ≤ hi) (hk : k < leastPlaces d lo hi) (hhi : ∀ j, hi ≤ j → d ∣ pow10 j) :
    ¬ d ∣ pow10 k := by
  fun_induction leastPlaces d lo hi with
  | case1 lo hi _ middle hm ih =>
    exact ih hlo (by omega) hk fun j hj =>
      Nat.dvd_trans (Nat.dvd_of_mod_eq_zero hm) (pow10_dvd_pow10 hj)
  | case2 lo hi _ middle hm ih =>
    refine ih (fun j hj hd => ?_) (by omega) hk hhi
    exact hm (Nat.mod_eq_zero_of_dvd (Nat.dvd_trans hd (pow10_dvd_pow10 (by omega))))
  | case3 lo hi _ =>
    exact hlo k (by omega)

theorem dvd_of_areLeastPlaces {d k : Nat} (h : areLeastPlaces d k = true) :
    d ∣ pow10 k ∧ ∀ j < k, ¬ d ∣ pow10 j := by
  simp only [areLeastPlaces, Bool.and_eq_true, beq_iff_eq, Bool.or_eq_true, bne_iff_ne] at h
  refine ⟨Nat.dvd_of_mod_eq_zero h.1, fun j hj hd => ?_⟩
  rcases h.2 with hk | hk
  · omega
  · exact hk (Nat.mod_eq_zero_of_dvd (Nat.dvd_trans hd (pow10_dvd_pow10 (by omega))))

theorem dvd_of_decimalPlaces? {d k : Nat} (h : decimalPlaces? d = some k) :
    d ∣ pow10 k ∧ ∀ j < k, ¬ d ∣ pow10 j := by
  unfold decimalPlaces? at h
  split at h
  · simp at h
  split at h
  · next hk => exact Option.some.inj h ▸ dvd_of_areLeastPlaces hk
  split at h
  · next hd =>
    obtain rfl := Option.some.inj h
    have hd := Nat.dvd_of_mod_eq_zero hd
    exact ⟨dvd_leastPlaces hd, fun j hj => not_dvd_of_lt_leastPlaces (by simp) (Nat.zero_le _) hj
      fun i hi => Nat.dvd_trans hd (pow10_dvd_pow10 hi)⟩
  · simp at h

def exactQuotient? (a b : Decimal) : Option Decimal :=
  let g := a.coefficient.gcd b.coefficient
  let d := b.coefficient / g
  (decimalPlaces? d).map fun (k : Nat) =>
    ⟨a.negative ^^ b.negative, a.coefficient / g * pow10 k / d, a.exponent - b.exponent - k⟩

def leadingPlace (n d : Nat) : Int :=
  let t : Int := digitCount n - digitCount d
  if n * pow10 (-t).toNat < d * pow10 t.toNat then t - 1 else t

/-- The quotient to `p` digits, a half going up, and to fewer where the lowest place is reached. -/
def roundedQuotient (p : Nat) (a b : Decimal) : Decimal :=
  let ideal := a.exponent - b.exponent
  let leading := leadingPlace a.coefficient b.coefficient
  let full := leading - p + 1
  let unit := if full < lowestPlace p - ideal then lowestPlace p - ideal else full
  let c :=
    if leading + 1 < unit then 0
    else halfUp (a.coefficient * pow10 (-unit).toNat) (b.coefficient * pow10 unit.toNat)
  let negative := a.negative ^^ b.negative
  if p < digitCount c then ⟨negative, c / 10, ideal + unit + 1⟩ else ⟨negative, c, ideal + unit⟩

/-- A precision that holds every quotient of these operands that ends. -/
def sufficientPrecision (a b : Decimal) : Nat :=
  digitCount a.coefficient + 4 * digitCount b.coefficient + 1

/-- The exact quotient where it ends and its digits fit above the lowest place, else `p` digits. -/
def quotient (p : Nat) (a b : Decimal) : Except Signal Decimal :=
  if b.coefficient = 0 then .error .divisionByZero
  else match exactQuotient? a b with
    | none => (roundedQuotient p a b).fit p
    | some q => do
      let r ← q.fit (sufficientPrecision a b)
      if r.coefficientAt q.exponent = q.coefficient then return r
      else if digitCount q.coefficient ≤ p then q.fit p
      else (roundedQuotient p a b).fit p

end Reckoner.Decimal
