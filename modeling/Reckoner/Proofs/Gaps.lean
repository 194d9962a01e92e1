import Reckoner.Proofs.Culprits
import Reckoner.Proofs.Printed
import Reckoner.Proofs.Relocation

/-! Gaps. Main statement: blanks put in where no run of digits and points is broken leave the report
of a text as it is, but for the place of an unexpected character behind them. -/
namespace Reckoner

def displaced (i n p : Nat) : Nat := if p < i then p else p + n

namespace Lexeme

def relocate (g : Nat → Nat) : Lexeme → Lexeme
  | .number p cs => .number (g p) cs
  | .mark p c => .mark (g p) c

theorem Apart.gap {us gap vs : List Char} (h : Apart us vs)
    (hgap : ∀ c ∈ gap, Text.isBlank c = true) : Apart us (gap ++ vs) := by
  cases gap with
  | nil => exact h
  | cons b gap =>
    intro _ _ _ d hd
    obtain rfl := Option.some.inj hd
    exact isNumberChar_of_isBlank (hgap _ (by simp))

theorem split_add (n p : Nat) (cs : List Char) :
    split (p + n) cs = (split p cs).map (relocate (· + n)) := by
  induction p, cs using split.induct with
  | case1 p => rw [split, split]; rfl
  | case2 p c cs hc ih =>
    rw [split_blank hc, split_blank hc, ← ih, Nat.add_right_comm]
  | case3 p c cs hb hc more ih =>
    rw [split, if_neg hb, if_pos hc, split, if_neg hb, if_pos hc, List.map_cons, ← ih]
    simp only [relocate]
    rw [Nat.add_right_comm p n, Nat.add_right_comm (p + 1) n]
  | case4 p c cs hb hc ih =>
    rw [split, if_neg hb, if_neg hc, split, if_neg hb, if_neg hc, List.map_cons, ← ih,
      Nat.add_right_comm]
    rfl

theorem relocate_of_lt {l : Lexeme} {i n : Nat} (h : l.position < i) :
    l.relocate (displaced i n) = l := by
  have hp : displaced i n l.position = l.position := if_pos h
  cases l with
  | number p cs => exact congrArg (number · cs) hp
  | mark p c => exact congrArg (mark · c) hp

theorem relocate_displaced (l : Lexeme) (i n : Nat) :
    (l.relocate (· + i)).relocate (displaced i n) = l.relocate (· + (i + n)) := by
  cases l <;> simp [relocate, displaced, Nat.add_assoc]

theorem split_gap_between {us gap vs : List Char} (h : Apart us vs)
    (hgap : ∀ c ∈ gap, Text.isBlank c = true) :
    split 0 (us ++ gap ++ vs) =
      (split 0 (us ++ vs)).map (·.relocate (displaced us.length gap.length)) := by
  have hbefore : (split 0 us).map (·.relocate (displaced us.length gap.length)) = split 0 us :=
    (List.map_congr_left fun l hl => relocate_of_lt (position_lt_of_mem_split hl)).trans
      (List.map_id _)
  have hfrom (n : Nat) : split n vs = (split 0 vs).map (·.relocate (· + n)) := by
    rw [← split_add, Nat.zero_add]
  -- behind the gap all places move by its length
  have hafter : (split us.length vs).map (·.relocate (displaced us.length gap.length)) =
      split (us.length + gap.length) vs := by
    rw [hfrom us.length, hfrom (us.length + gap.length), List.map_map]
    exact List.map_congr_left fun l _ => l.relocate_displaced us.length gap.length
  rw [List.append_assoc, split_append (h.gap hgap), split_append h, split_gap hgap, List.map_append,
    Nat.zero_add, hbefore, hafter]

end Lexeme

namespace Token
variable (g : Nat → Nat)

theorem ofMark_relocate (signed : Bool) (p : Nat) (c : Char) :
    ofMark signed (g p) c =
      ((ofMark signed p c).map (·.relocate g)).mapError (·.relocate g) := by
  unfold ofMark
  split
  · rfl
  split
  · rfl
  split
  · rfl
  split <;> rfl

theorem ofLexeme_relocate (signed : Bool) (l : Lexeme) :
    ofLexeme signed (l.relocate g) =
      ((ofLexeme signed l).map (·.relocate g)).mapError (·.relocate g) := by
  cases l with
  | mark p c => exact ofMark_relocate g signed p c
  | number p cs =>
    simp only [ofLexeme, Lexeme.relocate, Symbol.ofNumeral]
    cases Numeral.read (String.ofList cs).toList <;> rfl

theorem ofLexemes_relocate (signed : Bool) (ls : List Lexeme) :
    ofLexemes signed (ls.map (·.relocate g)) =
      ((ofLexemes signed ls).map (·.map (·.relocate g))).mapError (·.relocate g) := by
  induction ls generalizing signed with
  | nil => rfl
  | cons l ls ih =>
    simp only [List.map_cons, ofLexemes, ofLexeme_relocate]
    cases ofLexeme signed l with
    | error f => rfl
    | ok t =>
      have hopens : (t.relocate g).symbol.opensOperand = t.symbol.opensOperand := rfl
      simp only [Except.map, mapError_ok, bind, Except.bind, hopens, ih]
      cases ofLexemes t.symbol.opensOperand ls <;> rfl

end Token

section Relocated
variable {g : Nat → Nat} {s t : String}
  (h : Lexeme.split 0 t.toList = (Lexeme.split 0 s.toList).map (·.relocate g))
include h

theorem evaluate_relocate : evaluate (some t) = relocated g (evaluate (some s)) := by
  have hscan : Token.scan t =
      ((Token.scan s).map (·.map (·.relocate g))).mapError (·.relocate g) := by
    rw [Token.scan, h, Token.ofLexemes_relocate, Token.scan]
  simp only [evaluate, Option.getD_some, hscan]
  cases Token.scan s with
  | error f => rfl
  | ok ts =>
    simp only [Except.map, mapError_ok, bind, Except.bind, Postfix.ofInfix_relocate]
    cases Postfix.ofInfix ts with
    | error e => rfl
    | ok out => exact Postfix.evaluate_relocate g out

theorem Calculator.calculate_relocate (k : Calculator) :
    k.calculate (some t) = relocated g (k.calculate (some s)) := by
  simp only [calculate, evaluate_relocate h]
  refine relocated_bind g (evaluate (some s)) fun v => ?_
  cases v.format k.scale <;> rfl

theorem Calculator.report_relocate (k : Calculator) :
    k.report (some t) = relocated g ((k.report (some s)).map fun r =>
      ⟨some t, r.outcome.mapError (·.relocate g)⟩) := by
  simp only [report, calculate_relocate h]
  cases k.calculate (some s) with
  | ok v => rfl
  | error e => cases e <;> rfl

end Relocated

/-- The fault of the text `cs`, and that of the text with `n` characters put in at `i`: the same,
but for the place of an unexpected character. -/
inductive Fault.Displaced (cs : List Char) (i n : Nat) (f f' : Fault) : Prop
  | same (hf : f.kind ≠ .unexpectedCharacter) (hf' : f'.cause = f.cause)
  | character {c : Char} {p : Nat} (hf : f.cause = .unexpectedCharacter c p)
      (hc : cs[p]? = some c) (hf' : f'.cause = .unexpectedCharacter c (displaced i n p))

theorem Fault.kind_relocate (g : Nat → Nat) (f : Fault) : (f.relocate g).kind = f.kind := by
  obtain ⟨cause, position⟩ := f
  cases cause <;> rfl

theorem Faulted.displaced_relocate {text : String} {f : Fault} (h : Faulted text f) (i n : Nat) :
    f.Displaced text.toList i n (f.relocate (displaced i n)) := by
  obtain ⟨cause, position⟩ := f
  cases cause with
  | unexpectedCharacter c p => exact .character rfl (h.getElem?_of_character rfl) rfl
  | _ => exact .same nofun rfl

/-- Blanks between the lexemes of a text do not matter, whether it has a value or a fault. -/
theorem Calculator.report_gap {k : Calculator} {us gap vs : List Char}
    (hgap : ∀ c ∈ gap, Text.isBlank c = true) (hapart : Lexeme.Apart us vs) {r : Report}
    (h : k.report (some (String.ofList (us ++ vs))) = .ok r) :
    ∃ r', k.report (some (String.ofList (us ++ gap ++ vs))) = .ok r' ∧ r'.value? = r.value? ∧
      r'.fault?.map Fault.kind = r.fault?.map Fault.kind ∧
      ∀ f ∈ r.fault?, ∃ f' ∈ r'.fault?, f.Displaced (us ++ vs) us.length gap.length f' := by
  have hsplit : Lexeme.split 0 (String.ofList (us ++ gap ++ vs)).toList =
      (Lexeme.split 0 (String.ofList (us ++ vs)).toList).map
        (·.relocate (displaced us.length gap.length)) := by
    rw [String.toList_ofList, String.toList_ofList]
    exact Lexeme.split_gap_between hapart hgap
  have hreport := report_relocate hsplit k
  rw [h] at hreport
  refine ⟨_, hreport, ?_⟩
  obtain ⟨text, f | v⟩ := r
  · have hfault := (faulted_of_evaluate (evaluate_of_report_fault h rfl)).displaced_relocate
      us.length gap.length
    rw [Option.getD_some, String.toList_ofList] at hfault
    refine ⟨rfl, congrArg some (f.kind_relocate _), fun g hg => ?_⟩
    obtain rfl := Option.some.inj hg
    exact ⟨_, rfl, hfault⟩
  · exact ⟨rfl, rfl, nofun⟩

/-- A tab before the operand moves the character behind it. -/
theorem Calculator.report_gap_before_operand :
    (∀ c ∈ ['\t'], Text.isBlank c = true) ∧ Lexeme.Apart "2+".toList "3 $".toList ∧
      (Calculator.mk 2).report (some "2+3 $") =
        .ok ⟨some "2+3 $", .error ⟨.unexpectedCharacter '$' 4, some 4⟩⟩ ∧
      ∃ r', (Calculator.mk 2).report (some "2+\t3 $") = .ok r' ∧ r'.value? = none ∧
        r'.fault?.map Fault.kind = some .unexpectedCharacter ∧
        ∃ f' ∈ r'.fault?, f'.cause = .unexpectedCharacter '$' 5 := by
  have hgap : ∀ c ∈ ['\t'], Text.isBlank c = true := List.forall_mem_singleton.2 (by decide)
  have hapart : Lexeme.Apart "2+".toList "3 $".toList := by
    intro c hc hn
    obtain rfl := Option.some.inj hc
    cases hn
  have hcalculate : (Calculator.mk 2).calculate (some "2+3 $") =
      .error (.fault ⟨.unexpectedCharacter '$' 4, some 4⟩) := by decide +kernel
  have hreport : (Calculator.mk 2).report (some "2+3 $") =
      .ok ⟨some "2+3 $", .error ⟨.unexpectedCharacter '$' 4, some 4⟩⟩ := by
    rw [report, hcalculate]
  obtain ⟨r', hr', hvalue, hkind, hfault⟩ := report_gap hgap hapart hreport
  obtain ⟨f', hf', hdisplaced⟩ := hfault _ rfl
  refine ⟨hgap, hapart, hreport, r', hr', hvalue, hkind, f', hf', ?_⟩
  cases hdisplaced with
  | same hne => exact absurd rfl hne
  | character hf _ hf' =>
    obtain ⟨rfl, rfl⟩ := Cause.unexpectedCharacter.inj hf
    exact hf'

end Reckoner
