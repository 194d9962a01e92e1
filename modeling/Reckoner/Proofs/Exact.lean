import Reckoner.Proofs.Grammar
import Reckoner.Proofs.Power
import Reckoner.Proofs.Printed
import Reckoner.Proofs.Quotient

/-! The value of an expression over the rational numbers. Where every quotient in it ends, nothing
is undefined and the format holds every value, the computed value is that number. -/
namespace Reckoner
open Decimal

namespace UnaryOperator

def exact : UnaryOperator → ℚ → ℚ
  | .pos, q => q
  | .neg, q => -q

theorem toRat_apply (o : UnaryOperator) (d : Decimal) : (o.apply d).toRat = o.exact d.toRat := by
  cases o with
  | pos => rfl
  | neg => exact toRat_neg d

end UnaryOperator

namespace BinaryOperator

/-- The exponent of a power counts where it is a whole number. -/
def exact : BinaryOperator → ℚ → ℚ → ℚ
  | .add, a, b => a + b
  | .sub, a, b => a - b
  | .mul, a, b => a * b
  | .div, a, b => a / b
  | .mod, a, b => remainder a b
  | .pow, a, b => a ^ b.num

/-- The operation has a result on these numbers, and it is a finite decimal number. A quotient is
within the limits, the whole quotient that a remainder leaves out has no more digits than any
precision holds, and a power below zero is one over a power that the format holds. -/
def Defined : BinaryOperator → ℚ → ℚ → Prop
  | .add, _, _ | .sub, _, _ | .mul, _, _ => True
  | .div, a, b => b ≠ 0 ∧ Terminates (a / b) ∧ InLimits (a / b)
  | .mod, a, b => b ≠ 0 ∧ Int.log 10 |a / b| < fullPrecision
  | .pow, a, b => b.den = 1 ∧ b.num.natAbs ≤ Settings.arithmetic.maxExponent ∧
      (b < 0 → a ≠ 0 ∧ Terminates (a ^ b.num) ∧ InLimits (a ^ b.num) ∧
        Representable (a ^ b.num.natAbs))

theorem yields_exactly {d : Decimal} (h : Representable d.toRat) : Yields (exactly d) d.toRat :=
  (yields_fit_fullPrecision h).mapError _

theorem yields_divide {a b : Decimal} (hb : b.toRat ≠ 0) (ht : Terminates (a.toRat / b.toRat))
    (hl : InLimits (a.toRat / b.toRat)) : Yields (divide a b) (a.toRat / b.toRat) := by
  rw [divide, if_neg (toRat_eq_zero_iff.not.1 hb)]
  exact (yields_quotient _ hb ht hl).mapError _

theorem log_sub_log_le {q r : ℚ} (hq : q ≠ 0) (hr : r ≠ 0) :
    Int.log 10 |q| - Int.log 10 |r| ≤ Int.log 10 |q / r| + 1 := by
  have hlt : |q| < ((10 : Nat) : ℚ) ^ (Int.log 10 |q / r| + 1 + (Int.log 10 |r| + 1)) := by
    have hmul : |q| = |q / r| * |r| := by rw [← abs_mul, div_mul_cancel₀ q hr]
    rw [hmul, zpow_add₀ (by norm_num)]
    exact mul_lt_mul'' (Int.lt_zpow_succ_log_self (by norm_num) _)
      (Int.lt_zpow_succ_log_self (by norm_num) _) (abs_nonneg _) (abs_nonneg _)
  have hlog := (Int.lt_zpow_iff_log_lt (by norm_num) (abs_pos.2 hq)).1 hlt
  omega

theorem yields_modulo {a b : Decimal} (hb : b.toRat ≠ 0)
    (hq : Int.log 10 |a.toRat / b.toRat| < fullPrecision)
    (hl : Representable (remainder a.toRat b.toRat)) :
    Yields (modulo a b) (remainder a.toRat b.toRat) := by
  have hbc := toRat_eq_zero_iff.not.1 hb
  have hsmall : ¬ (a.coefficient ≠ 0 ∧ (fullPrecision : Int) < a.adjusted - b.adjusted) := by
    intro ⟨hac, hlt⟩
    have hle := log_sub_log_le (toRat_eq_zero_iff.not.2 hac) hb
    rw [log_abs_toRat hac, log_abs_toRat hbc] at hle
    omega
  rw [modulo, if_neg hbc, if_neg hsmall, ← toRat_rem hbc]
  rw [← toRat_rem hbc] at hl
  exact yields_exactly hl

theorem wholeExponent_of_toRat {b : Decimal} {n : Int} {limit : Nat} (h : b.toRat = n)
    (hn : n.natAbs ≤ limit) : wholeExponent limit (.finite b) = .ok n := by
  have hexc := not_exceeds_of_toRat h (Int.ofNat_le.2 hn)
  simp [wholeExponent, isWhole_of_toRat h, hexc, truncated_of_toRat h]

theorem yields_raise {a b : Decimal} {n : Int} {limit : Nat} (h : b.toRat = n)
    (hn : n.natAbs ≤ limit) (hrep : Representable (a.toRat ^ n))
    (hneg : n < 0 → a.toRat ≠ 0 ∧ Terminates (a.toRat ^ n) ∧ InLimits (a.toRat ^ n) ∧
      Representable (a.toRat ^ n.natAbs)) :
    Yields (raise limit a (.finite b)) (a.toRat ^ n) := by
  have hwhole : (wholeExponent limit (.finite b)).mapError Failure.unplaced = .ok n := by
    rw [wholeExponent_of_toRat h hn, mapError_ok]
  simp only [raise, hwhole, bind, Except.bind]
  split
  · next h0 =>
    have hpow : a.toRat ^ n = a.toRat ^ n.toNat := by
      rw [← zpow_natCast, Int.toNat_of_nonneg h0]
    rw [hpow] at hrep ⊢
    exact (yields_power hrep).mapError _
  · next h0 =>
    obtain ⟨ha, ht, hl, hbase⟩ := hneg (by omega)
    have hinv : a.toRat ^ n = 1 / a.toRat ^ n.natAbs := by
      have habs : n = -(n.natAbs : Int) := by omega
      rw [one_div, ← zpow_natCast, ← zpow_neg, ← habs]
    rw [if_neg (toRat_eq_zero_iff.not.1 ha)]
    refine ((yields_power hbase).mapError Failure.limit).bind fun p hp => ?_
    rw [hinv, ← hp, ← toRat_one] at ht hl ⊢
    have hp0 : p.toRat ≠ 0 := hp ▸ pow_ne_zero _ ha
    exact (yields_quotient _ hp0 ht hl).mapError _

theorem yields_apply {o : BinaryOperator} {a b : Decimal} (h : o.Defined a.toRat b.toRat)
    (hl : Representable (o.exact a.toRat b.toRat)) :
    Yields (o.apply a b) (o.exact a.toRat b.toRat) := by
  cases o with
  | add =>
    simp only [exact, ← toRat_add] at hl ⊢
    exact yields_exactly hl
  | sub =>
    simp only [exact, ← toRat_sub] at hl ⊢
    exact yields_exactly hl
  | mul =>
    simp only [exact, ← toRat_mul] at hl ⊢
    exact yields_exactly hl
  | div => exact yields_divide h.1 h.2.1 h.2.2
  | mod => exact yields_modulo h.1 h.2 hl
  | pow =>
    obtain ⟨hden, hn, hneg⟩ := h
    have hb : b.toRat = b.toRat.num := (Rat.den_eq_one_iff _).1 hden |>.symm
    exact yields_raise hb hn hl fun h0 => hneg (Rat.num_neg.1 h0)

end BinaryOperator

namespace Expression

/-- The value over the rational numbers. -/
def exact : Expression → ℚ
  | .number n _ => n.value.toRat
  | .unary o _ e => o.exact e.exact
  | .binary o _ l r => o.exact l.exact r.exact

/-- Each operation has a result on the exact values of its operands, and the format holds every
value. -/
def Regular : Expression → Prop
  | .number n _ => Representable n.value.toRat
  | .unary _ _ e => e.Regular
  | .binary o _ l r =>
    l.Regular ∧ r.Regular ∧ o.Defined l.exact r.exact ∧ Representable (o.exact l.exact r.exact)

def parts : Expression → List Expression
  | .number n p => [.number n p]
  | .unary o p e => .unary o p e :: e.parts
  | .binary o p l r => .binary o p l r :: (l.parts ++ r.parts)

theorem Regular.of_mem_parts {e f : Expression} (h : e.Regular) (hf : f ∈ e.parts) : f.Regular := by
  induction e with
  | number n p =>
    obtain rfl := List.mem_singleton.1 hf
    exact h
  | unary o p e ih =>
    obtain rfl | hf := List.mem_cons.1 hf
    · exact h
    · exact ih h hf
  | binary o p l r ihl ihr =>
    obtain rfl | hf := List.mem_cons.1 hf
    · exact h
    obtain hf | hf := List.mem_append.1 hf
    · exact ihl h.1 hf
    · exact ihr h.2.1 hf

theorem Regular.representable {e : Expression} (h : e.Regular) : Representable e.exact := by
  induction e with
  | number n p => exact h
  | unary o p e ih =>
    cases o with
    | pos => exact ih h
    | neg => exact representable_neg.2 (ih h)
  | binary o p l r => exact h.2.2.2

theorem Regular.yields_value {e : Expression} (h : e.Regular) : Yields e.value e.exact := by
  induction e with
  | number n p => exact ⟨n.value, rfl, rfl⟩
  | unary o p e ih =>
    obtain ⟨d, hd, hq⟩ := ih h
    refine ⟨o.apply d, by rw [value, hd, Except.map], ?_⟩
    rw [o.toRat_apply, hq, exact]
  | binary o p l r ihl ihr =>
    obtain ⟨hl, hr, hdef, hrep⟩ := h
    refine (ihl hl).bind fun a ha => (ihr hr).bind fun b hb => ?_
    rw [← ha, ← hb] at hdef hrep
    rw [exact, ← ha, ← hb]
    exact BinaryOperator.yields_apply hdef hrep

end Expression

theorem toRat_of_places {n : Numeral} (h : n.places = 0) :
    n.value.toRat = Nat.ofDigitChars 10 n.digits 0 := by
  simp [Numeral.value, h, toRat, signed]

theorem exact_signedExponent : Derives.signedExponentTree.exact = 1 / 2 := by
  have h2 : (Numeral.value ⟨['2'], none, rfl⟩).toRat = 2 := toRat_of_places rfl
  have h3 : (Numeral.value ⟨['3'], none, rfl⟩).toRat = 3 := toRat_of_places rfl
  have h4 : (Numeral.value ⟨['4'], none, rfl⟩).toRat = 4 := toRat_of_places rfl
  norm_num [Derives.signedExponentTree, Expression.exact, BinaryOperator.exact,
    UnaryOperator.exact, h2, h3, h4]

theorem regular_signedExponent : Derives.signedExponentTree.Regular := by
  have h2 : (Numeral.value ⟨['2'], none, rfl⟩).toRat = 2 := toRat_of_places rfl
  have h3 : (Numeral.value ⟨['3'], none, rfl⟩).toRat = 3 := toRat_of_places rfl
  have hnum : (-3 : ℚ).num = -3 := rfl
  have h8 : (2 : ℚ) ^ (3 : Nat) = (Decimal.mk false 8 0).toRat := by norm_num [toRat, signed]
  have heighth : (2 : ℚ) ^ (-3 : Int) = (Decimal.mk false 125 (-3)).toRat := by
    norm_num [toRat, signed]
  have hhalf : (1 / 2 : ℚ) = (Decimal.mk false 5 (-1)).toRat := by norm_num [toRat, signed]
  have hpow : BinaryOperator.pow.Defined 2 (-3) := by
    refine ⟨rfl, by decide, fun _ => ⟨two_ne_zero, ⟨3, 125, ?_⟩, ?_, ?_⟩⟩
    · norm_num [hnum]
    · rw [hnum, heighth]
      exact inLimits_of_inRange (by decide)
    · rw [hnum, show (-3 : Int).natAbs = 3 from rfl, h8]
      exact representable_of_inRange (by decide)
  refine ⟨⟨?_, ?_, ?_, ?_⟩, ?_, trivial, ?_⟩
  · exact representable_of_inRange (by decide)
  · exact representable_of_inRange (by decide)
  · simp only [Expression.exact, UnaryOperator.exact, h2, h3]
    exact hpow
  · simp only [Expression.exact, UnaryOperator.exact, BinaryOperator.exact, h2, h3, hnum, heighth]
    exact representable_of_inRange (by decide)
  · exact representable_of_inRange (by decide)
  · have h : Representable Derives.signedExponentTree.exact := by
      rw [exact_signedExponent, hhalf]
      exact representable_of_inRange (by decide)
    exact h

/-- A remainder of zero, but of a whole quotient with ten to the eighteenth zeros. -/
def longRemainder : String :=
  "(1/((((0.1^10000)^10000)^10000)^10000)^50)%((((0.1^10000)^10000)^10000)^10000)^50"

/-- A quotient that is a power of ten, but one below the limits. -/
def smallQuotient : String :=
  "((((0.1^10000)^10000)^10000)^10000)^50/(1/((((0.1^10000)^10000)^10000)^10000)^60)"

end Reckoner
