import Reckoner.Proofs.Reading
import Reckoner.Proofs.Segments

/-! The spelling of numerals. Main statements: a run of digits and points is a numeral just if it
has a digit and at most one point, and the value of a numeral is the number that its spelling
denotes, place by place. -/
namespace Reckoner

/-- The digits behind the point, each a tenth of what it would be one place further to the left. -/
def fractionValue : List Char → ℚ
  | [] => 0
  | c :: cs => (Nat.ofDigitChars 10 [c] 0 + fractionValue cs) / 10

theorem ten_pow_mul_zpow_neg (n : Nat) : (10 : ℚ) ^ n * (10 : ℚ) ^ (-(n : Int)) = 1 := by
  rw [← zpow_natCast, ← Decimal.ten_zpow_add, add_neg_cancel, zpow_zero]

theorem fractionValue_eq (cs : List Char) :
    fractionValue cs = Nat.ofDigitChars 10 cs 0 * (10 : ℚ) ^ (-(cs.length : Int)) := by
  induction cs with
  | nil => simp [fractionValue]
  | cons c cs ih =>
    have hexp : (10 : ℚ) ^ (-((cs.length + 1 : Nat) : Int)) =
        (10 : ℚ) ^ (-(cs.length : Int)) / 10 := by
      push_cast
      rw [neg_add, Decimal.ten_zpow_add, zpow_neg_one, div_eq_mul_inv]
    have hone := ten_pow_mul_zpow_neg cs.length
    have hcons : Nat.ofDigitChars 10 (c :: cs) 0 =
        Nat.ofDigitChars 10 [c] 0 * pow10 cs.length + Nat.ofDigitChars 10 cs 0 :=
      ofDigitChars_append [c] cs
    rw [fractionValue, ih, hcons, List.length_cons, hexp]
    push_cast
    rw [Decimal.cast_pow10]
    linear_combination (-(Nat.ofDigitChars 10 [c] 0 : ℚ) / 10) * hone

namespace Numeral

def wholePart (cs : List Char) : List Char := cs.takeWhile (· != '.')

def fractionPart (cs : List Char) : List Char := (cs.dropWhile (· != '.')).drop 1

/-- The number that a spelling denotes. -/
def denoted (cs : List Char) : ℚ :=
  Nat.ofDigitChars 10 (wholePart cs) 0 + fractionValue (fractionPart cs)

theorem split_eq (cs : List Char) :
    (split cs).1 = wholePart cs ∧ (split cs).2.getD [] = fractionPart cs := by
  refine ⟨rfl, ?_⟩
  rw [split, fractionPart]
  cases cs.dropWhile (· != '.') <;> rfl

theorem parts_chars (n : Numeral) :
    wholePart n.chars = n.whole ∧ fractionPart n.chars = n.fraction.getD [] := by
  obtain ⟨hw, hf⟩ := split_eq n.chars
  rw [split_chars] at hw hf
  exact ⟨hw.symm, hf.symm⟩

/-- The value of a numeral is that of its spelling, with a place for each fraction digit. -/
theorem value_eq_denoted (n : Numeral) : n.value.negative = false ∧
    n.value.exponent = -((fractionPart n.chars).length : Int) ∧
      n.value.toRat = denoted n.chars := by
  obtain ⟨hw, hf⟩ := n.parts_chars
  refine ⟨rfl, by rw [hf]; rfl, ?_⟩
  have hone := ten_pow_mul_zpow_neg (n.fraction.getD []).length
  rw [denoted, hw, hf, fractionValue_eq, value, Decimal.toRat, digits, places, ofDigitChars_append]
  simp only [Decimal.signed, Bool.false_eq_true, if_false]
  push_cast
  rw [Decimal.cast_pow10]
  linear_combination (Nat.ofDigitChars 10 n.whole 0 : ℚ) * hone

section Run
variable {run : List Char} (hrun : ∀ c ∈ run, Lexeme.isNumberChar c = true)
include hrun

theorem isDigitSign_of_mem {c : Char} (hc : c ∈ run) : Text.isDigitSign c = c.isDigit := by
  obtain h | rfl := Lexeme.isNumberChar_iff.1 (hrun c hc)
  · obtain ⟨n, hn, rfl⟩ := digitChar_of_isDigit h
    rw [isDigitSign_digitChar n hn, h]
  · decide

theorem noDigit_iff : run.all (!Text.isDigitSign ·) = true ↔ ∀ c ∈ run, c.isDigit = false := by
  rw [List.all_eq_true]
  refine forall₂_congr fun c hc => ?_
  rw [isDigitSign_of_mem hrun hc, Bool.not_eq_true']

theorem read_noDigit (hd : ∀ c ∈ run, c.isDigit = false) : read run = .error .noDigit := by
  rw [read, if_pos ((noDigit_iff hrun).2 hd)]

theorem read_manyPoints (hd : ∃ c ∈ run, c.isDigit = true) (hp : 1 < run.count '.') :
    read run = .error .manyPoints := by
  obtain ⟨c, hc, hdigit⟩ := hd
  have hsome : ¬ run.all (!Text.isDigitSign ·) = true := fun h => by
    rw [(noDigit_iff hrun).1 h c hc] at hdigit
    cases hdigit
  rw [read, if_neg hsome, if_pos hp]

theorem areDigits_parts (hd : ∃ c ∈ run, c.isDigit = true) (hp : run.count '.' ≤ 1) :
    areDigits (wholePart run ++ fractionPart run) = true := by
  have hparts : run = wholePart run ++ run.dropWhile (· != '.') :=
    List.takeWhile_append_dropWhile.symm
  have hwhole : ∀ c ∈ wholePart run, c ≠ '.' := fun c hc => by
    simpa using List.mem_takeWhile_imp hc
  have hdigit : ∀ c ∈ run, c ≠ '.' → c.isDigit = true := fun c hc hne =>
    (Lexeme.isNumberChar_iff.1 (hrun c hc)).resolve_right hne
  have hpoint := List.head?_dropWhile_not (· != '.') run
  simp only [areDigits, Bool.and_eq_true, Bool.not_eq_true', List.isEmpty_eq_false_iff,
    List.all_eq_true]
  rw [fractionPart]
  -- without a point the whole part is all of the run
  cases hdrop : run.dropWhile (· != '.') with
  | nil =>
    rw [hdrop, List.append_nil] at hparts
    rw [List.drop_nil, List.append_nil, ← hparts]
    refine ⟨List.ne_nil_of_mem hd.choose_spec.1, fun c hc => hdigit c hc ?_⟩
    exact hwhole c (hparts ▸ hc)
  | cons d ds =>
    rw [hdrop] at hparts hpoint
    obtain rfl : d = '.' := by simpa using hpoint
    -- the one point parts the run, so none is left behind it
    have hds : '.' ∉ ds := fun hmem => by
      have hpos := List.count_pos_iff.2 hmem
      rw [hparts, List.count_append, List.count_cons_self] at hp
      omega
    have hall : ∀ c ∈ wholePart run ++ ds, c.isDigit = true := by
      intro c hc
      have hmem : c ∈ run := by
        rw [hparts]
        exact List.mem_append.2 ((List.mem_append.1 hc).imp id (List.mem_cons_of_mem _))
      refine hdigit c hmem ?_
      obtain hc | hc := List.mem_append.1 hc
      · exact hwhole c hc
      · exact fun h => hds (h ▸ hc)
    refine ⟨fun hnil => ?_, hall⟩
    obtain ⟨c, hc, hcd⟩ := hd
    obtain ⟨hw, hf⟩ := List.append_eq_nil_iff.1 hnil
    obtain rfl : ds = [] := hf
    rw [hparts, hw, List.nil_append, List.mem_singleton] at hc
    rw [hc] at hcd
    cases hcd

theorem exists_read (hd : ∃ c ∈ run, c.isDigit = true) (hp : run.count '.' ≤ 1) :
    ∃ n, read run = .ok n := by
  have hparts := areDigits_parts hrun hd hp
  rw [← (split_eq run).1, ← (split_eq run).2] at hparts
  obtain ⟨c, hc, hdigit⟩ := hd
  have hsome : ¬ run.all (!Text.isDigitSign ·) = true := fun h => by
    rw [(noDigit_iff hrun).1 h c hc] at hdigit
    cases hdigit
  rw [read, if_neg hsome, if_neg (Nat.not_lt.2 hp), ofChars?, dif_pos hparts]
  exact ⟨_, rfl⟩

end Run
end Numeral
end Reckoner
