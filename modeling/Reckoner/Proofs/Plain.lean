import Mathlib.Data.List.Induction
import Reckoner.Decimal.Scientific
import Reckoner.Proofs.Value

/-! Plain numbers: digits with a point among them at most, without zeros that could be left out and
without a minus before zero. Main statement: a number has one plain form. -/
namespace Reckoner
open Decimal (signChars joinPoint signed toRat)

theorem digitChar_of_isDigit {c : Char} (h : c.isDigit = true) : ∃ n < 10, c = Nat.digitChar n := by
  have hb : 48 ≤ c.toNat ∧ c.toNat ≤ 57 := Char.isDigit_iff_toNat.1 h
  have hn : c.toNat - 48 < 10 := by omega
  refine ⟨c.toNat - 48, hn, Char.toNat_inj.1 ?_⟩
  rw [Nat.toNat_digitChar_of_lt_ten hn]
  omega

theorem ofDigitChars_concat (cs : List Char) {n : Nat} (hn : n < 10) :
    Nat.ofDigitChars 10 (cs ++ [Nat.digitChar n]) 0 = 10 * Nat.ofDigitChars 10 cs 0 + n := by
  rw [Nat.ofDigitChars_append, Nat.ofDigitChars_cons_digitChar_of_lt_ten hn, Nat.ofDigitChars_nil]

theorem fixedDigits_ofDigitChars {cs : List Char} (h : ∀ c ∈ cs, c.isDigit = true) :
    fixedDigits cs.length (Nat.ofDigitChars 10 cs 0) = cs := by
  induction cs using List.reverseRecOn with
  | nil => rfl
  | append_singleton cs c ih =>
    obtain ⟨n, hn, rfl⟩ := digitChar_of_isDigit (h c (by simp))
    rw [ofDigitChars_concat cs hn, List.length_append, List.length_singleton, fixedDigits]
    have hdiv : (10 * Nat.ofDigitChars 10 cs 0 + n) / 10 = Nat.ofDigitChars 10 cs 0 := by omega
    have hmod : (10 * Nat.ofDigitChars 10 cs 0 + n) % 10 = n := by omega
    rw [hdiv, hmod, ih fun c hc => h c (by simp [hc])]

theorem eq_replicate_of_ofDigitChars_eq_zero {cs : List Char} (h : ∀ c ∈ cs, c.isDigit = true)
    (h0 : Nat.ofDigitChars 10 cs 0 = 0) : cs = List.replicate cs.length '0' := by
  rw [← fixedDigits_zero, ← h0, fixedDigits_ofDigitChars h]

theorem eq_of_ofDigitChars_eq {cs ds : List Char} (hc : ∀ c ∈ cs, c.isDigit = true)
    (hd : ∀ c ∈ ds, c.isDigit = true) (hl : cs.length = ds.length)
    (h : Nat.ofDigitChars 10 cs 0 = Nat.ofDigitChars 10 ds 0) : cs = ds := by
  rw [← fixedDigits_ofDigitChars hc, hl, h, fixedDigits_ofDigitChars hd]

theorem ofDigitChars_lt {cs : List Char} (h : ∀ c ∈ cs, c.isDigit = true) :
    Nat.ofDigitChars 10 cs 0 < pow10 cs.length := by
  induction cs using List.reverseRecOn with
  | nil => decide
  | append_singleton cs c ih =>
    obtain ⟨n, hn, rfl⟩ := digitChar_of_isDigit (h c (by simp))
    have hlt := ih fun c hc => h c (by simp [hc])
    rw [ofDigitChars_concat cs hn, List.length_append, List.length_singleton, pow10_succ]
    omega

theorem ofDigitChars_append (cs ds : List Char) :
    Nat.ofDigitChars 10 (cs ++ ds) 0 =
      Nat.ofDigitChars 10 cs 0 * pow10 ds.length + Nat.ofDigitChars 10 ds 0 := by
  rw [Nat.ofDigitChars_append, Nat.ofDigitChars_eq_ofDigitChars_zero, Nat.mul_comm]
  rfl

theorem toDigits_ofDigitChars {cs : List Char} (h : ∀ c ∈ cs, c.isDigit = true) (hne : cs ≠ [])
    (hlead : cs.head? ≠ some '0') : Nat.toDigits 10 (Nat.ofDigitChars 10 cs 0) = cs := by
  have h0 : Nat.ofDigitChars 10 cs 0 ≠ 0 := fun h0 => by
    rw [eq_replicate_of_ofDigitChars_eq_zero h h0] at hlead
    obtain ⟨n, hn⟩ := Nat.exists_eq_succ_of_ne_zero (List.length_pos_iff.2 hne).ne'
    exact hlead (by rw [hn, List.replicate_succ, List.head?_cons])
  obtain ⟨z, hz⟩ := fixedDigits_of_lt (Nat.pos_of_ne_zero h0) (ofDigitChars_lt h)
  rw [fixedDigits_ofDigitChars h] at hz
  cases z with
  | zero => simpa using hz.symm
  | succ z => exact absurd (by rw [hz, List.replicate_succ]; rfl) hlead

/-- A sign, digits, and digits behind a point where there are any. A zero leads only where it stands
alone before the point, none ends the fraction, and zero has no minus. -/
structure Plain where
  negative : Bool
  whole : List Char
  fraction : List Char
  digits : ∀ c ∈ whole ++ fraction, c.isDigit = true
  whole_ne_nil : whole ≠ []
  leading : whole.head? = some '0' → whole = ['0']
  trailing : fraction.getLast? ≠ some '0'
  nonzero : negative = true → whole = ['0'] → fraction ≠ []

namespace Plain

def chars (p : Plain) : List Char := signChars p.negative ++ joinPoint (p.whole, p.fraction)

def text (p : Plain) : String := String.ofList p.chars

def decimal (p : Plain) : Decimal :=
  ⟨p.negative, Nat.ofDigitChars 10 (p.whole ++ p.fraction) 0, -(p.fraction.length : Int)⟩

def value (p : Plain) : ℚ := p.decimal.toRat

theorem isDigit_whole (p : Plain) : ∀ c ∈ p.whole, c.isDigit = true :=
  fun c hc => p.digits c (List.mem_append_left _ hc)

theorem isDigit_fraction (p : Plain) : ∀ c ∈ p.fraction, c.isDigit = true :=
  fun c hc => p.digits c (List.mem_append_right _ hc)

theorem abs_value (p : Plain) :
    |p.value| = p.decimal.coefficient * (10 : ℚ) ^ (-(p.fraction.length : Int)) :=
  Decimal.abs_toRat p.decimal

theorem toDigits_whole (p : Plain) :
    Nat.toDigits 10 (Nat.ofDigitChars 10 p.whole 0) = p.whole := by
  by_cases h : p.whole.head? = some '0'
  · rw [p.leading h]
    rfl
  · exact toDigits_ofDigitChars p.isDigit_whole p.whole_ne_nil h

theorem not_dvd_coefficient {p : Plain} (h : p.fraction ≠ []) : ¬ 10 ∣ p.decimal.coefficient := by
  intro hdvd
  obtain ⟨cs, c, hcs⟩ := List.eq_nil_or_concat p.fraction |>.resolve_left h
  obtain ⟨n, hn, rfl⟩ := digitChar_of_isDigit (p.isDigit_fraction c (by simp [hcs]))
  have hsum : p.decimal.coefficient = 10 * Nat.ofDigitChars 10 (p.whole ++ cs) 0 + n := by
    rw [decimal, hcs, List.concat_eq_append, ← List.append_assoc, ofDigitChars_concat _ hn]
  have h0 : n = 0 := by omega
  exact p.trailing (by simp [hcs, h0])

theorem coefficient_eq_zero {p : Plain} (h : p.decimal.coefficient = 0) :
    p.negative = false ∧ p.fraction = [] := by
  have hf : p.fraction = [] := by
    by_contra hne
    exact not_dvd_coefficient hne (h ▸ Nat.dvd_zero 10)
  have hw : p.whole = ['0'] := by
    have h0 : Nat.ofDigitChars 10 (p.whole ++ p.fraction) 0 = 0 := h
    rw [hf, List.append_nil] at h0
    rw [← p.toDigits_whole, h0, Nat.toDigits_zero]
  refine ⟨Bool.eq_false_iff.2 fun hneg => ?_, hf⟩
  exact p.nonzero hneg hw hf

theorem negative_iff {p : Plain} : p.negative = true ↔ p.value < 0 := by
  rw [value, Decimal.toRat_lt_zero_iff]
  refine ⟨fun h => ⟨h, fun hc => ?_⟩, fun h => h.1⟩
  rw [(coefficient_eq_zero hc).1] at h
  exact Bool.false_ne_true h

theorem length_fraction_le {p : Plain} {k : Nat} {n : Int}
    (h : p.value = n * (10 : ℚ) ^ (-(k : Int))) : p.fraction.length ≤ k := by
  by_contra hlt
  have hne : p.fraction ≠ [] := fun hnil => by simp [hnil] at hlt
  refine not_dvd_coefficient hne ?_
  have hshift : (p.decimal.coefficient : ℚ) * (10 : ℚ) ^ ((k : Int) - p.fraction.length) =
      n.natAbs := by
    have habs := p.abs_value
    rw [h, abs_mul, abs_of_pos (Decimal.ten_zpow_pos _)] at habs
    rw [Int.sub_eq_add_neg, Int.add_comm, Decimal.ten_zpow_add, ← mul_assoc, ← habs, mul_assoc,
      ← Decimal.ten_zpow_add, neg_add_cancel, zpow_zero, mul_one, Nat.cast_natAbs, Int.cast_abs]
  have hmul := Decimal.mul_pow10_of_mul_zpow hshift
  obtain ⟨m, hm⟩ := Nat.exists_eq_add_of_lt (not_le.1 hlt)
  have hup : ((k : Int) - p.fraction.length).toNat = 0 := by omega
  have hdown : (-((k : Int) - p.fraction.length)).toNat = m + 1 := by omega
  rw [hup, hdown, pow10_zero, Nat.mul_one, pow10_succ] at hmul
  exact ⟨n.natAbs * pow10 m, by rw [hmul]; ring⟩

theorem parts_eq {p r : Plain} (hlen : p.fraction.length = r.fraction.length)
    (h : p.decimal.coefficient = r.decimal.coefficient) :
    p.whole = r.whole ∧ p.fraction = r.fraction := by
  simp only [decimal, ofDigitChars_append, hlen] at h
  have hp := ofDigitChars_lt p.isDigit_fraction
  have hr := ofDigitChars_lt r.isDigit_fraction
  rw [hlen] at hp
  have hdiv (w f : Nat) (hf : f < pow10 r.fraction.length) :
      (w * pow10 r.fraction.length + f) / pow10 r.fraction.length = w := by
    rw [Nat.add_comm, Nat.add_mul_div_right _ _ (pow10_pos _), Nat.div_eq_of_lt hf, Nat.zero_add]
  have hwhole : Nat.ofDigitChars 10 p.whole 0 = Nat.ofDigitChars 10 r.whole 0 := by
    rw [← hdiv (Nat.ofDigitChars 10 p.whole 0) _ hp, h, hdiv _ _ hr]
  refine ⟨by rw [← p.toDigits_whole, hwhole, r.toDigits_whole], ?_⟩
  refine eq_of_ofDigitChars_eq p.isDigit_fraction r.isDigit_fraction hlen ?_
  rw [hwhole] at h
  omega

theorem eq_of_value_eq {p r : Plain} (h : p.value = r.value) : p = r := by
  obtain ⟨m, hm⟩ := p.decimal.exists_toRat_eq_mul
  obtain ⟨n, hn⟩ := r.decimal.exists_toRat_eq_mul
  have hlen : p.fraction.length = r.fraction.length :=
    Nat.le_antisymm (length_fraction_le (h.trans hn)) (length_fraction_le (h.symm.trans hm))
  have hcoeff : p.decimal.coefficient = r.decimal.coefficient :=
    Decimal.coefficient_eq_of_toRat_eq h (by simp only [decimal, hlen])
  have hneg : p.negative = r.negative := by
    rw [Bool.eq_iff_iff, negative_iff, negative_iff, h]
  obtain ⟨hwhole, hfraction⟩ := parts_eq hlen hcoeff
  cases p
  cases r
  simp_all

end Plain
end Reckoner
