import Reckoner.Proofs.Rounding

/-! The limits of the format on the values of numbers. A value within them is kept as it is at every
precision. At full precision a value below them is kept too, so long as it has no digit below the
lowest place. -/
namespace Reckoner.Decimal

/-- The leading digit stands within the limits of the format. A zero is always within them. -/
def InLimits (q : ℚ) : Prop :=
  bottomExponent ≤ Int.log 10 |q| ∧ Int.log 10 |q| ≤ topExponent

theorem inLimits_zero : InLimits 0 := by simp [InLimits, bottomExponent, topExponent]

theorem inLimits_of_inRange {d : Decimal} (h : d.InRange) : InLimits d.toRat := by
  by_cases hc : d.coefficient = 0
  · exact toRat_eq_zero_iff.2 hc ▸ inLimits_zero
  · rwa [InLimits, log_abs_toRat hc]

theorem inRange_of_inLimits {d : Decimal} (hc : d.coefficient ≠ 0) (h : InLimits d.toRat) :
    d.InRange := by
  rwa [InLimits, log_abs_toRat hc] at h

/-- The result of an operation is there and stands for the number `q`. -/
def Yields {ε : Type} (x : Except ε Decimal) (q : ℚ) : Prop := ∃ d, x = .ok d ∧ d.toRat = q

theorem Yields.mapError {ε δ : Type} {x : Except ε Decimal} {q : ℚ} (h : Yields x q) (f : ε → δ) :
    Yields (x.mapError f) q := by
  obtain ⟨d, rfl, hq⟩ := h
  exact ⟨d, rfl, hq⟩

theorem Yields.bind {ε : Type} {x : Except ε Decimal} {f : Decimal → Except ε Decimal} {q r : ℚ}
    (h : Yields x q) (hf : ∀ d, d.toRat = q → Yields (f d) r) : Yields (x >>= f) r := by
  obtain ⟨d, rfl, hq⟩ := h
  exact hf d hq

theorem coefficient_roundAt_zero {d : Decimal} (hc : d.coefficient = 0) (e : Int) :
    (d.roundAt e).coefficient = 0 := by
  have hpos := pow10_pos (e - d.exponent).toNat
  rw [coefficient_roundAt, hc]
  exact Nat.div_eq_of_lt (by omega)

theorem fit_zero {d : Decimal} (p : Nat) (hc : d.coefficient = 0) :
    ∃ r, d.fit p = .ok r ∧ r.coefficient = 0 := by
  rw [fit_eq, if_pos hc]
  split
  · exact ⟨_, rfl, hc⟩
  split
  · exact ⟨_, rfl, coefficient_roundAt_zero hc _⟩
  · exact ⟨_, rfl, hc⟩

theorem yields_fit {d : Decimal} (p : Nat) (h : InLimits d.toRat) : Yields (d.fit p) d.toRat := by
  by_cases hc : d.coefficient = 0
  · obtain ⟨r, hr, hrc⟩ := fit_zero p hc
    exact ⟨r, hr, (toRat_eq_zero_iff.2 hrc).trans (toRat_eq_zero_iff.2 hc).symm⟩
  · exact ⟨d, fit_of_inRange p (inRange_of_inLimits hc h), rfl⟩

/-- The format holds the value at full precision. -/
def Representable (q : ℚ) : Prop :=
  Int.log 10 |q| ≤ topExponent ∧ (bottomExponent ≤ Int.log 10 |q| ∨
    ∃ n : Int, q = n * (10 : ℚ) ^ lowestPlace fullPrecision)

theorem InLimits.representable {q : ℚ} (h : InLimits q) : Representable q := ⟨h.2, .inl h.1⟩

theorem representable_of_inRange {d : Decimal} (h : d.InRange) : Representable d.toRat :=
  (inLimits_of_inRange h).representable

@[simp] theorem representable_neg {q : ℚ} : Representable (-q) ↔ Representable q := by
  have hneg {q : ℚ} (h : ∃ n : Int, q = n * (10 : ℚ) ^ lowestPlace fullPrecision) :
      ∃ n : Int, -q = n * (10 : ℚ) ^ lowestPlace fullPrecision := by
    obtain ⟨n, hn⟩ := h
    exact ⟨-n, by rw [Int.cast_neg, neg_mul, ← hn]⟩
  rw [Representable, Representable, abs_neg]
  exact and_congr_right' (or_congr_right ⟨fun h => by simpa using hneg h, hneg⟩)

theorem yields_fit_fullPrecision {d : Decimal} (h : Representable d.toRat) :
    Yields (d.fit fullPrecision) d.toRat := by
  obtain ⟨htop, hbottom | ⟨n, hn⟩⟩ := h
  · exact yields_fit fullPrecision ⟨hbottom, htop⟩
  by_cases hc : d.coefficient = 0
  · exact yields_fit fullPrecision (toRat_eq_zero_iff.2 hc ▸ inLimits_zero)
  rw [log_abs_toRat hc] at htop
  rw [fit_eq, if_neg (Int.not_lt.2 htop)]
  split
  · next hlow =>
    have hvalue := toRat_roundTo d (lowestPlace fullPrecision)
    rw [roundTo, if_pos hlow.2, roundHalfUp_of_eq_mul hn] at hvalue
    exact ⟨_, rfl, hvalue⟩
  · exact ⟨d, rfl, rfl⟩

end Reckoner.Decimal
