/-! The decimal digits of a natural number, and how many they are. Long numbers are halved until
single digits are left, so that their digits cost no more than a few long divisions. -/
namespace Reckoner

def pow10 (k : Nat) : Nat := Nat.pow 10 k

@[simp] theorem pow10_zero : pow10 0 = 1 := rfl

theorem pow10_succ (k : Nat) : pow10 (k + 1) = pow10 k * 10 := rfl

theorem pow10_add (j k : Nat) : pow10 (j + k) = pow10 j * pow10 k := Nat.pow_add 10 j k

theorem pow10_pos (k : Nat) : 0 < pow10 k := Nat.pow_pos (by decide)

theorem pow10_le_pow10 {j k : Nat} (h : j ≤ k) : pow10 j ≤ pow10 k :=
  Nat.pow_le_pow_right (by decide) h

theorem pow10_dvd_pow10 {j k : Nat} (h : j ≤ k) : pow10 j ∣ pow10 k := Nat.pow_dvd_pow 10 h

/-- The number of decimal digits of `n`, one for zero. The guess from the binary length, by the
common logarithm of two to twenty places, is used only where a power of ten confirms it. -/
def digitCount (n : Nat) : Nat :=
  let guess := n.log2 * 30102999566398119521 / 100000000000000000000
  let unit := pow10 guess
  if unit ≤ n ∧ n < unit * 10 then guess + 1
  else if unit * 10 ≤ n ∧ n < unit * 10 * 10 then guess + 2
  else (Nat.toDigits 10 n).length

theorem length_toDigits_of_bounds {n k : Nat} (h : pow10 k ≤ n ∧ n < pow10 (k + 1)) :
    (Nat.toDigits 10 n).length = k + 1 := by
  have hle := (Nat.length_toDigits_le_iff (by decide) (Nat.succ_pos k)).2 h.2
  have hpos : 0 < (Nat.toDigits 10 n).length := Nat.length_toDigits_pos
  rcases k with _ | k
  · omega
  · have hgt : ¬ (Nat.toDigits 10 n).length ≤ k + 1 := fun h' =>
      Nat.not_lt.2 h.1 ((Nat.length_toDigits_le_iff (by decide) (Nat.succ_pos k)).1 h')
    omega

theorem digitCount_eq_length (n : Nat) : digitCount n = (Nat.toDigits 10 n).length := by
  unfold digitCount
  generalize n.log2 * _ / _ = guess
  dsimp only
  rw [← pow10_succ, ← pow10_succ]
  split
  case isTrue h => exact (length_toDigits_of_bounds h).symm
  case isFalse =>
    split
    case isTrue h => exact (length_toDigits_of_bounds h).symm
    case isFalse => rfl

theorem digitCount_pos (n : Nat) : 0 < digitCount n :=
  digitCount_eq_length n ▸ Nat.length_toDigits_pos

theorem digitCount_le_iff {n k : Nat} (hk : 0 < k) : digitCount n ≤ k ↔ n < pow10 k :=
  digitCount_eq_length n ▸ Nat.length_toDigits_le_iff (by decide) hk

theorem lt_pow10_digitCount (n : Nat) : n < pow10 (digitCount n) :=
  (digitCount_le_iff (digitCount_pos n)).1 (Nat.le_refl _)

theorem lt_pow10_log2 (n : Nat) : n < pow10 (n.log2 + 1) :=
  Nat.lt_of_lt_of_le Nat.lt_log2_self (Nat.pow_le_pow_left (by decide) _)

theorem digitCount_le_log2 (n : Nat) : digitCount n ≤ n.log2 + 1 :=
  (digitCount_le_iff (Nat.succ_pos _)).2 (lt_pow10_log2 n)

def fixedDigits : Nat → Nat → List Char
  | 0, _ => []
  | k + 1, n => fixedDigits k (n / 10) ++ [Nat.digitChar (n % 10)]

def blockDigits : Nat → Nat → List Char
  | 0, n => [Nat.digitChar (n % 10)]
  | k + 1, n =>
    let unit := pow10 (Nat.pow 2 k)
    blockDigits k (n / unit) ++ blockDigits k (n % unit)

def digits (n : Nat) : List Char :=
  if n < 10 then [Nat.digitChar n]
  else (blockDigits ((digitCount n).log2 + 1) n).dropWhile (· == '0')

theorem fixedDigits_add (a b n : Nat) :
    fixedDigits (a + b) n = fixedDigits a (n / pow10 b) ++ fixedDigits b n := by
  induction b generalizing n with
  | zero => simp [fixedDigits]
  | succ b ih =>
    rw [← Nat.add_assoc]
    simp only [fixedDigits, ih, List.append_assoc, Nat.div_div_eq_div_mul, pow10_succ,
      Nat.mul_comm 10]

theorem fixedDigits_mod (b n : Nat) : fixedDigits b (n % pow10 b) = fixedDigits b n := by
  induction b generalizing n with
  | zero => rfl
  | succ b ih =>
    simp only [fixedDigits]
    rw [pow10_succ, Nat.mod_mul_left_div_self, ih, Nat.mod_mul_left_mod]

theorem blockDigits_eq (k n : Nat) : blockDigits k n = fixedDigits (Nat.pow 2 k) n := by
  induction k generalizing n with
  | zero => rfl
  | succ k ih =>
    have h : Nat.pow 2 (k + 1) = Nat.pow 2 k + Nat.pow 2 k := Nat.mul_two (Nat.pow 2 k)
    rw [h, fixedDigits_add, blockDigits, ih, ih, fixedDigits_mod]

theorem fixedDigits_zero (k : Nat) : fixedDigits k 0 = List.replicate k '0' := by
  induction k with
  | zero => rfl
  | succ k ih => rw [fixedDigits, Nat.zero_div, ih, List.replicate_succ']; rfl

theorem fixedDigits_of_lt {k n : Nat} (h0 : 0 < n) (h : n < pow10 k) :
    ∃ z, fixedDigits k n = List.replicate z '0' ++ Nat.toDigits 10 n := by
  induction k generalizing n with
  | zero => simp at h; omega
  | succ k ih =>
    rw [fixedDigits, Nat.toDigits_eq_if (by decide)]
    split
    case isTrue h' =>
      refine ⟨k, ?_⟩
      rw [Nat.div_eq_of_lt h', fixedDigits_zero, Nat.mod_eq_of_lt h']
    case isFalse h' =>
      obtain ⟨z, hz⟩ := ih (n := n / 10) (by omega) (by rw [pow10_succ] at h; omega)
      exact ⟨z, by rw [hz, List.append_assoc]⟩

theorem dropWhile_toDigits {n : Nat} (h : 0 < n) :
    (Nat.toDigits 10 n).dropWhile (· == '0') = Nat.toDigits 10 n := by
  induction n using Nat.strongRecOn with
  | ind n ih =>
    rw [Nat.toDigits_eq_if (by decide)]
    split
    case isTrue h' => simp [Nat.ne_of_gt h]
    case isFalse h' =>
      rw [List.dropWhile_append, ih (n / 10) (by omega) (by omega)]
      simp

theorem digits_eq (n : Nat) : digits n = Nat.toDigits 10 n := by
  unfold digits
  split
  case isTrue h => exact (Nat.toDigits_of_lt_base h).symm
  case isFalse h =>
    have h0 : 0 < n := Nat.lt_of_lt_of_le (by decide) (Nat.le_of_not_lt h)
    have hlt : n < pow10 (Nat.pow 2 ((digitCount n).log2 + 1)) :=
      Nat.lt_of_lt_of_le (lt_pow10_digitCount n) (pow10_le_pow10 (Nat.le_of_lt Nat.lt_log2_self))
    obtain ⟨z, hz⟩ := fixedDigits_of_lt h0 hlt
    rw [blockDigits_eq, hz, List.dropWhile_append_of_pos (by simp)]
    exact dropWhile_toDigits h0

end Reckoner
