import Mathlib.Data.List.DropRight
import Reckoner.Calculator
import Reckoner.Proofs.Limits
import Reckoner.Proofs.Plain

/-! Printed results. Main statement: what is printed at a scale is the plain form of the value
rounded half up there. -/
namespace Reckoner
open Decimal (signChars joinPoint splitPoint dropTrailingZeros signed toRat)

theorem dropTrailingZeros_append (cs : List Char) :
    ∃ z, dropTrailingZeros cs ++ List.replicate z '0' = cs := by
  refine ⟨(cs.rtakeWhile (· == '0')).length, ?_⟩
  have hz : cs.rtakeWhile (· == '0') = List.replicate (cs.rtakeWhile (· == '0')).length '0' :=
    List.eq_replicate_iff.2 ⟨rfl, fun c hc => by simpa using List.mem_rtakeWhile_imp hc⟩
  rw [← hz]
  exact List.rdropWhile_append_rtakeWhile

theorem getLast?_dropTrailingZeros (cs : List Char) :
    (dropTrailingZeros cs).getLast? ≠ some '0' := by
  intro h
  have hne : dropTrailingZeros cs ≠ [] := fun h0 => by simp [h0] at h
  have hlast : ¬ ((dropTrailingZeros cs).getLast hne == '0') = true :=
    List.rdropWhile_last_not (· == '0') cs hne
  rw [List.getLast?_eq_some_getLast hne] at h
  exact hlast (by simpa using h)

theorem head?_toDigits {n : Nat} (h : 0 < n) : (Nat.toDigits 10 n).head? ≠ some '0' := by
  have hd := List.head?_dropWhile_not (· == '0') (Nat.toDigits 10 n)
  rw [dropWhile_toDigits h] at hd
  intro h0
  simp [h0] at hd

theorem splitPoint_append (ds : List Char) (k : Nat) :
    (splitPoint ds k).1 ++ (splitPoint ds k).2 = List.replicate (k + 1 - ds.length) '0' ++ ds := by
  simp [splitPoint, List.splitAt_eq]

theorem length_splitPoint (ds : List Char) (k : Nat) : (splitPoint ds k).2.length = k := by
  simp only [splitPoint, List.splitAt_eq, List.length_drop, List.length_append,
    List.length_replicate]
  omega

theorem splitPoint_whole (ds : List Char) (k : Nat) :
    (splitPoint ds k).1 = ['0'] ∨
      (splitPoint ds k).1 ≠ [] ∧ (splitPoint ds k).1.head? = ds.head? := by
  by_cases h : ds.length ≤ k
  · left
    have hpad : k + 1 - ds.length = (k - ds.length) + 1 := by omega
    have hone : k - ds.length + ds.length + 1 - k = 1 := by omega
    simp [splitPoint, List.splitAt_eq, hpad, hone, List.replicate_succ]
  · right
    have hpad : k + 1 - ds.length = 0 := by omega
    have hpos : ds.length - k ≠ 0 := by omega
    have hne : ds ≠ [] := fun hnil => by simp [hnil] at h
    simp [splitPoint, List.splitAt_eq, hpad, List.head?_take, hpos, hne]

theorem isDigit_of_mem_splitPoint {c k : Nat} {d : Char}
    (hd : d ∈ (splitPoint (Nat.toDigits 10 c) k).1 ++ (splitPoint (Nat.toDigits 10 c) k).2) :
    d.isDigit = true := by
  rw [splitPoint_append] at hd
  obtain hd | hd := List.mem_append.1 hd
  · rw [List.eq_of_mem_replicate hd]
    rfl
  · exact Nat.isDigit_of_mem_toDigits (by decide) (by decide) hd

theorem ofDigitChars_splitPoint (c k : Nat) : Nat.ofDigitChars 10
    ((splitPoint (Nat.toDigits 10 c) k).1 ++ (splitPoint (Nat.toDigits 10 c) k).2) 0 = c := by
  rw [splitPoint_append, Nat.ofDigitChars_append, Nat.ofDigitChars_replicate_zero, Nat.mul_zero,
    Nat.ofDigitChars_ten_toDigits]

theorem exists_plain_of_splitPoint (negative : Bool) {c : Nat} (hc : 0 < c) (k : Nat) :
    ∃ p : Plain, p.chars = signChars negative ++ joinPoint ((splitPoint (Nat.toDigits 10 c) k).1,
        dropTrailingZeros (splitPoint (Nat.toDigits 10 c) k).2) ∧
      p.value = signed negative (c * (10 : ℚ) ^ (-(k : Int))) := by
  have hdigit (d : Char) := @isDigit_of_mem_splitPoint c k d
  have hsum := ofDigitChars_splitPoint c k
  have hlen := length_splitPoint (Nat.toDigits 10 c) k
  have hwhole := splitPoint_whole (Nat.toDigits 10 c) k
  generalize splitPoint (Nat.toDigits 10 c) k = parts at hdigit hsum hlen hwhole ⊢
  obtain ⟨z, hz⟩ := dropTrailingZeros_append parts.2
  have hlast := getLast?_dropTrailingZeros parts.2
  generalize dropTrailingZeros parts.2 = fraction at hz hlast ⊢
  rw [← hz, ← List.append_assoc] at hdigit hsum
  have hvalue : pow10 z * Nat.ofDigitChars 10 (parts.1 ++ fraction) 0 = c := by
    rwa [Nat.ofDigitChars_append, Nat.ofDigitChars_replicate_zero] at hsum
  -- the zeros at the end may go, as the exponent makes up for them
  have hv : (Nat.ofDigitChars 10 (parts.1 ++ fraction) 0 : ℚ) *
      (10 : ℚ) ^ (-(fraction.length : Int)) = c * (10 : ℚ) ^ (-(k : Int)) := by
    have hk : k = fraction.length + z := by
      rw [← hlen, ← hz, List.length_append, List.length_replicate]
    have hexp : (10 : ℚ) ^ z * (10 : ℚ) ^ (-(k : Int)) = (10 : ℚ) ^ (-(fraction.length : Int)) := by
      rw [← zpow_natCast, ← Decimal.ten_zpow_add, hk]
      congr 1
      push_cast
      ring
    rw [← hvalue, Nat.cast_mul, Decimal.cast_pow10, ← hexp]
    ring
  refine ⟨⟨negative, parts.1, fraction, fun d hd => hdigit d (List.mem_append_left _ hd), ?_, ?_,
    hlast, ?_⟩, rfl, congrArg (signed negative) hv⟩
  · obtain h | h := hwhole
    · simp [h]
    · exact h.1
  · intro h0
    obtain h | h := hwhole
    · exact h
    · exact absurd (h.2 ▸ h0) (head?_toDigits hc)
  · intro _ hw hf
    have hzero : Nat.ofDigitChars 10 (['0'] ++ []) 0 = 0 := by decide
    rw [hw, hf, hzero, Nat.mul_zero] at hvalue
    exact hc.ne hvalue

theorem exists_plain_of_zeros (negative : Bool) {c : Nat} (hc : 0 < c) (k : Nat) :
    ∃ p : Plain, p.chars = signChars negative ++
        joinPoint (Nat.toDigits 10 c ++ List.replicate k '0', []) ∧
      p.value = signed negative (c * (10 : ℚ) ^ (k : Int)) := by
  have hne : Nat.toDigits 10 c ≠ [] := Nat.toDigits_ne_nil
  have hhead : (Nat.toDigits 10 c ++ List.replicate k '0').head? ≠ some '0' := by
    rw [List.head?_append_of_ne_nil _ hne]
    exact head?_toDigits hc
  have hv : (Nat.ofDigitChars 10 (Nat.toDigits 10 c ++ List.replicate k '0' ++ []) 0 : ℚ) *
      (10 : ℚ) ^ (-((0 : Nat) : Int)) = c * (10 : ℚ) ^ (k : Int) := by
    rw [List.append_nil, Nat.ofDigitChars_append, Nat.ofDigitChars_ten_toDigits,
      Nat.ofDigitChars_replicate_zero]
    simp [mul_comm]
  refine ⟨⟨negative, Nat.toDigits 10 c ++ List.replicate k '0', [], ?_, ?_, ?_, by simp, ?_⟩,
    rfl, congrArg (signed negative) hv⟩
  · intro d hd
    rw [List.append_nil] at hd
    obtain hd | hd := List.mem_append.1 hd
    · exact Nat.isDigit_of_mem_toDigits (by decide) (by decide) hd
    · rw [List.eq_of_mem_replicate hd]
      rfl
  · simp [hne]
  · exact fun h0 => absurd h0 hhead
  · intro _ hw
    exact absurd (by rw [hw, List.head?_cons]) hhead

/-- The printed form of a decimal number is the plain form of its value. -/
theorem exists_plain (d : Decimal) : ∃ p : Plain, p.chars = d.plainChars ∧ p.value = d.toRat := by
  by_cases hc : d.coefficient = 0
  · refine ⟨⟨false, ['0'], [], by simp, by simp, fun _ => rfl, by simp, by simp⟩, ?_, ?_⟩
    · rw [Decimal.plainChars, if_pos hc]
      rfl
    · rw [Decimal.toRat_eq_zero_iff.2 hc]
      exact Decimal.toRat_eq_zero_iff.2 rfl
  have hpos := Nat.pos_of_ne_zero hc
  rw [Decimal.plainChars, if_neg hc, Decimal.positional, digits_eq]
  split
  · next he =>
    obtain ⟨p, hchars, hvalue⟩ := exists_plain_of_zeros d.negative hpos d.exponent.toNat
    refine ⟨p, hchars, hvalue.trans ?_⟩
    rw [toRat, Int.toNat_of_nonneg he]
  · next he =>
    obtain ⟨p, hchars, hvalue⟩ := exists_plain_of_splitPoint d.negative hpos (-d.exponent).toNat
    refine ⟨p, hchars, hvalue.trans ?_⟩
    rw [toRat, Int.toNat_of_nonneg (by omega), Int.neg_neg]

theorem format_eq_ok_iff {d : Decimal} {s : Nat} {r : String} :
    d.format s = .ok r ↔ s ≤ Decimal.widestShift ∧
      ¬ d.exceedsPrecision (Decimal.displayPlace s) ∧
        r = String.ofList (d.roundTo (Decimal.displayPlace s)).plainChars := by
  simp only [Decimal.format]
  split
  · next h =>
    refine ⟨fun hr => by simp at hr, fun ⟨hs, he, _⟩ => ?_⟩
    exact absurd h (not_or.2 ⟨Nat.not_lt.2 hs, he⟩)
  · next h =>
    rw [not_or, Nat.not_lt] at h
    refine ⟨fun hr => ⟨h.1, h.2, (Except.ok.inj hr).symm⟩, fun hr => by rw [hr.2.2]⟩

theorem plain_of_format {d : Decimal} {s : Nat} {r : String} (h : d.format s = .ok r) :
    ∃ p : Plain, r = p.text ∧
      p.value = Decimal.roundHalfUp d.toRat (Decimal.displayPlace s) := by
  obtain ⟨p, hchars, hvalue⟩ := exists_plain (d.roundTo (Decimal.displayPlace s))
  refine ⟨p, ?_, hvalue.trans (Decimal.toRat_roundTo d _)⟩
  rw [(format_eq_ok_iff.1 h).2.2, Plain.text, hchars]

theorem neg_le_displayPlace (s : Nat) : -(s : Int) ≤ Decimal.displayPlace s := by
  rw [Decimal.displayPlace]
  split <;> omega

theorem exists_format {d : Decimal} {s : Nat} (hs : s ≤ Decimal.widestShift)
    (h : d.toRat ≠ 0 → Int.log 10 |d.toRat| + s < Decimal.fullPrecision) :
    ∃ r, d.format s = .ok r := by
  have hexc : ¬ d.exceedsPrecision (Decimal.displayPlace s) = true := by
    rw [Decimal.exceedsPrecision_iff]
    intro ⟨hc, hlt⟩
    have hlog := h (Decimal.toRat_eq_zero_iff.not.2 hc)
    rw [Decimal.log_abs_toRat hc, Decimal.adjusted] at hlog
    have hplace := neg_le_displayPlace s
    omega
  exact ⟨_, format_eq_ok_iff.2 ⟨hs, hexc, rfl⟩⟩

theorem roundHalfUp_displayPlace {q : ℚ} {s : Nat} (hr : Decimal.Representable q)
    (h : q ≠ 0 → Int.log 10 |q| + s < Decimal.fullPrecision) :
    Decimal.roundHalfUp q (Decimal.displayPlace s) = Decimal.roundHalfUp q (-(s : Int)) := by
  by_cases hq : q = 0
  · rw [hq, Decimal.roundHalfUp_zero, Decimal.roundHalfUp_zero]
  rw [Decimal.displayPlace]
  split
  · next hs =>
    have hlog := h hq
    obtain hbottom | ⟨n, hn⟩ := hr.2
    · simp only [Decimal.lowestPlace, Decimal.fullPrecision, Decimal.bottomExponent] at *
      omega
    obtain ⟨m, hm⟩ := Decimal.exists_eq_mul_of_le hn hs.le
    rw [Decimal.roundHalfUp_of_eq_mul hn, Decimal.roundHalfUp_of_eq_mul hm]
  · rfl

theorem exists_format_of_ne_error {d : Decimal} {s : Nat}
    (h : d.format s ≠ .error .invalidOperation) : ∃ r, d.format s = .ok r := by
  simp only [Decimal.format] at h ⊢
  split at h
  · exact absurd rfl h
  · next hs => exact ⟨_, if_neg hs⟩

theorem calculate_of_evaluate {text : Option String} {d : Decimal} (h : evaluate text = .ok d)
    (k : Calculator) : k.calculate text = (d.format k.scale).mapError .limit := by
  simp only [Calculator.calculate, h, bind, Except.bind]

theorem calculate_of_evaluate_error {k : Calculator} {text : Option String} {e : Failure}
    (h : evaluate text = .error e) : k.calculate text = .error e := by
  simp only [Calculator.calculate, h, bind, Except.bind]

theorem evaluate_of_calculate_fault {k : Calculator} {text : Option String} {f : Fault}
    (h : k.calculate text = .error (.fault f)) : evaluate text = .error (.fault f) := by
  cases he : evaluate text with
  | error e =>
    rw [calculate_of_evaluate_error he] at h
    rw [Except.error.inj h]
  | ok d =>
    rw [calculate_of_evaluate he] at h
    cases hd : d.format k.scale with
    | ok s => rw [hd] at h; cases h
    | error s => rw [hd] at h; cases h

theorem evaluate_of_report_fault {k : Calculator} {text : Option String} {r : Report} {f : Fault}
    (h : k.report text = .ok r) (hf : f ∈ r.fault?) : evaluate text = .error (.fault f) := by
  unfold Calculator.report at h
  split at h
  · obtain rfl := Except.ok.inj h
    cases hf
  next g hg =>
    obtain rfl := Except.ok.inj h
    obtain rfl := Option.some.inj hf
    exact evaluate_of_calculate_fault hg
  · cases h

theorem format_of_calculate {k : Calculator} {text : Option String} {r : String}
    (h : k.calculate text = .ok r) : ∃ d : Decimal, d.format k.scale = .ok r := by
  cases he : evaluate text with
  | error f => simp [Calculator.calculate, he, bind, Except.bind] at h
  | ok d =>
    rw [calculate_of_evaluate he] at h
    cases hd : d.format k.scale with
    | error f => simp [hd] at h
    | ok r' => exact ⟨d, by simpa [hd] using h⟩

end Reckoner
