/-! Remainders of powers. The power itself, which may be far too long to write out, is never
computed: each square is reduced at once. -/
namespace Reckoner

def powMod (b k m : Nat) : Nat :=
  if k = 0 then 1 % m
  else
    let half := powMod (b * b % m) (k / 2) m
    if k % 2 = 1 then b * half % m else half
termination_by k

theorem pow_halve (b k : Nat) : Nat.pow b k = Nat.pow b (k % 2) * Nat.pow (b * b) (k / 2) := by
  have h : Nat.pow (b * b) (k / 2) = Nat.pow b (2 * (k / 2)) :=
    (congrArg (Nat.pow · (k / 2)) (Nat.pow_two b).symm).trans (Nat.pow_mul ..).symm
  rw [h]
  exact (congrArg (Nat.pow b) (Nat.mod_add_div k 2).symm).trans (Nat.pow_add ..)

theorem powMod_eq (b k m : Nat) : powMod b k m = Nat.pow b k % m := by
  fun_induction powMod b k m with
  | case1 => rfl
  | case2 b k hk half hodd ih =>
    have h : half = Nat.pow (b * b) (k / 2) % m := ih.trans (Nat.pow_mod ..).symm
    rw [h, pow_halve b k, hodd, Nat.mul_mod_mod]
    exact congrArg (· * _ % m) (Nat.pow_one b).symm
  | case3 b k hk half heven ih =>
    have h : half = Nat.pow (b * b) (k / 2) % m := ih.trans (Nat.pow_mod ..).symm
    rw [h, pow_halve b k, show k % 2 = 0 by omega]
    exact congrArg (· % m) (Nat.one_mul _).symm

end Reckoner
