import Reckoner.Proofs.Spelling
import Reckoner.Token.Scan

/-! Scanning. Main statement: a text is scanned just if all its characters are allowed and all its
runs of digits and points are numerals; its tokens are then its segments, with signs where operands
have yet to come; else the fault reported is the leftmost one. -/
namespace Reckoner

namespace Token

def isSign (t : Token) : Bool :=
  match t.symbol with
  | .operator (.unary _) => true
  | _ => false

/-- The token is of a kind that expressions have, and spelt as that kind is. -/
def Canonical (t : Token) : Prop :=
  match t.symbol with
  | .number _ | .operator _ => True
  | .paren .left a => a = "("
  | .paren .right a => a = ")"
  | .other .. => False

def IsPlusOrMinus (t : Token) : Prop := t.lexeme = "+" ∨ t.lexeme = "-"

/-- A plus or minus is a sign just if it comes first or after an operator or a left parenthesis. -/
def SignsFit (ts : List Token) : Prop :=
  ∀ us t vs, ts = us ++ t :: vs → t.IsPlusOrMinus →
    (t.isSign = true ↔ ∀ u ∈ us.getLast?, u.symbol.opensOperand = true)

/-- The same of tokens before which a sign may or may not stand. -/
def SignsFitFrom (signed : Bool) (ts : List Token) : Prop :=
  ∀ us t vs, ts = us ++ t :: vs → t.IsPlusOrMinus →
    (t.isSign = true ↔ us.getLast?.elim signed (·.symbol.opensOperand) = true)

theorem signsFit_iff {ts : List Token} : SignsFit ts ↔ SignsFitFrom true ts := by
  have hlast (us : List Token) : us.getLast?.elim true (·.symbol.opensOperand) = true ↔
      ∀ u ∈ us.getLast?, u.symbol.opensOperand = true := by
    cases us.getLast? <;> simp
  simp only [SignsFit, SignsFitFrom, hlast]

theorem signsFitFrom_nil (signed : Bool) : SignsFitFrom signed [] := by
  intro us t vs h
  simp at h

theorem signsFitFrom_cons {signed : Bool} {t : Token} {ts : List Token} :
    SignsFitFrom signed (t :: ts) ↔
      (t.IsPlusOrMinus → (t.isSign = true ↔ signed = true)) ∧
        SignsFitFrom t.symbol.opensOperand ts := by
  have hlast (us : List Token) : (t :: us).getLast?.elim signed (·.symbol.opensOperand) =
      us.getLast?.elim t.symbol.opensOperand (·.symbol.opensOperand) := by
    rw [List.getLast?_cons]
    cases us.getLast? <;> rfl
  constructor
  · intro h
    refine ⟨h [] t ts rfl, fun us u vs hts hu => ?_⟩
    rw [h (t :: us) u vs (by rw [hts, List.cons_append]) hu, hlast]
  · rintro ⟨ht, h⟩ us u vs hts hu
    cases us with
    | nil => obtain ⟨rfl, rfl⟩ := List.cons.inj hts; exact ht hu
    | cons w us =>
      obtain ⟨rfl, hrest⟩ := List.cons.inj hts
      rw [h us u vs hrest hu, hlast]

end Token

def marks : List Char := ['(', ')', '+', '-', '*', '/', '%', '^']

def Allowed (c : Char) : Prop :=
  Text.isBlank c = true ∨ c.isDigit = true ∨ c = '.' ∨ c ∈ marks

/-- A run of digits and points with a digit in it and one point at most. -/
def IsNumeralRun (run : List Char) : Prop := (∃ c ∈ run, c.isDigit = true) ∧ run.count '.' ≤ 1

/-- What is wrong in a text, and the index of the character or run that is wrong. -/
inductive Offence (cs : List Char) : Nat → Fault → Prop
  | character {us vs : List Char} {c : Char} (hcs : cs = us ++ c :: vs) (hc : ¬ Allowed c) :
      Offence cs us.length ⟨.unexpectedCharacter c us.length, some us.length⟩
  | noDigit {us run vs : List Char} (hcs : cs = us ++ run ++ vs) (hr : Lexeme.IsRun us run vs)
      (hd : ∀ c ∈ run, c.isDigit = false) :
      Offence cs us.length ⟨.malformedNumber (String.ofList run) .noDigit, some us.length⟩
  | manyPoints {us run vs : List Char} (hcs : cs = us ++ run ++ vs) (hr : Lexeme.IsRun us run vs)
      (hd : ∃ c ∈ run, c.isDigit = true) (hp : 1 < run.count '.') :
      Offence cs us.length ⟨.malformedNumber (String.ofList run) .manyPoints, some us.length⟩

/-- The tokens `ts` are the segments of the text `cs`. -/
structure Segmented (cs : List Char) (ts : List Token) : Prop where
  canonical : ∀ t ∈ ts, t.Canonical
  /-- Each token is a slice of the text at its position. -/
  slices : ∀ t ∈ ts, ∃ i : Nat, t.position = some (i : Int) ∧
    (cs.drop i).take t.lexeme.length = t.lexeme.toList
  /-- The positions increase, and each token ends before the next one begins. -/
  ordered : ts.Pairwise fun t u => ∃ i j : Nat, t.position = some (i : Int) ∧
    u.position = some (j : Int) ∧ i < j ∧ i + t.lexeme.length ≤ j
  /-- The characters in the tokens are those that are not blank. -/
  covers : ∀ k c, cs[k]? = some c → (Text.isBlank c = false ↔
    ∃ t ∈ ts, ∃ i : Nat, t.position = some (i : Int) ∧ i ≤ k ∧ k < i + t.lexeme.length)
  /-- The numbers are the maximal runs of digits and points. -/
  numbers : ∀ us run vs, cs = us ++ run ++ vs → (Lexeme.IsRun us run vs ↔
    ∃ n : Numeral, ⟨.number n, some (us.length : Int)⟩ ∈ ts ∧ n.chars = run)
  /-- The value of a number is the one that its run denotes, with a place for each fraction
  digit. -/
  values : ∀ n p, ⟨.number n, p⟩ ∈ ts → n.value.negative = false ∧
    n.value.exponent = -((Numeral.fractionPart n.chars).length : Int) ∧
      n.value.toRat = Numeral.denoted n.chars
  signs : Token.SignsFit ts

namespace Token

theorem ofChar?_eq_none {c : Char} (h : c ∉ marks) :
    UnaryOperator.ofChar? c = none ∧ BinaryOperator.ofChar? c = none := by
  refine ⟨Option.eq_none_iff_forall_not_mem.2 fun o ho => h ?_,
    Option.eq_none_iff_forall_not_mem.2 fun o ho => h ?_⟩
  · rw [← UnaryOperator.symbol_of_ofChar? ho]
    cases o <;> decide
  · rw [← BinaryOperator.symbol_of_ofChar? ho]
    cases o <;> decide

theorem ofMark_of_not_mem {c : Char} (h : c ∉ marks) (signed : Bool) (p : Nat) :
    ofMark signed p c = .error ⟨.unexpectedCharacter c p, some p⟩ := by
  obtain ⟨hu, hb⟩ := ofChar?_eq_none h
  have hleft : c ≠ '(' := fun hc => h (by simp [hc, marks])
  have hright : c ≠ ')' := fun hc => h (by simp [hc, marks])
  rw [ofMark, if_neg hleft, if_neg hright]
  cases signed <;> simp [hu, hb]

theorem exists_ofMark {c : Char} (h : c ∈ marks) (signed : Bool) (p : Nat) :
    ∃ t, ofMark signed p c = .ok t := by
  simp only [marks, List.mem_cons, List.not_mem_nil, or_false] at h
  rcases h with rfl | rfl | rfl | rfl | rfl | rfl | rfl | rfl <;> cases signed <;> exact ⟨_, rfl⟩

structure Reads (l : Lexeme) (t : Token) : Prop where
  position : t.position = some (l.position : Int)
  lexeme : t.lexeme = String.ofList l.chars
  canonical : t.Canonical
  number : (∃ n, t.symbol = .number n) ↔ ∃ p cs, l = .number p cs

theorem lexeme_operator {o : Operator} {c : Char} (h : o.symbol = c) :
    o.lexeme = String.ofList [c] := by
  rw [Operator.lexeme, h, String.singleton_eq_ofList]

theorem reads_of_ofMark {signed : Bool} {p : Nat} {c : Char} {t : Token}
    (h : ofMark signed p c = .ok t) : Reads (.mark p c) t := by
  unfold ofMark at h
  split at h
  next hc => obtain rfl := Except.ok.inj h; exact ⟨rfl, hc ▸ rfl, rfl, by simp⟩
  split at h
  next hc => obtain rfl := Except.ok.inj h; exact ⟨rfl, hc ▸ rfl, rfl, by simp⟩
  split at h
  next o ho =>
    obtain rfl := Except.ok.inj h
    have hsymbol : (Operator.unary o).symbol = c := by
      cases signed
      · simp at ho
      · exact UnaryOperator.symbol_of_ofChar? ho
    exact ⟨rfl, lexeme_operator hsymbol, trivial, by simp⟩
  split at h
  next o ho =>
    obtain rfl := Except.ok.inj h
    have hsymbol : (Operator.binary o).symbol = c := BinaryOperator.symbol_of_ofChar? ho
    exact ⟨rfl, lexeme_operator hsymbol, trivial, by simp⟩
  next => cases h

theorem reads_of_ofLexeme {signed : Bool} {l : Lexeme} {t : Token}
    (h : ofLexeme signed l = .ok t) : Reads l t := by
  cases l with
  | mark p c => exact reads_of_ofMark h
  | number p cs =>
    simp only [ofLexeme, Symbol.ofNumeral, String.toList_ofList] at h
    cases hn : Numeral.read cs with
    | error flaw => rw [hn] at h; cases h
    | ok n =>
      rw [hn] at h
      obtain rfl := Except.ok.inj h
      have hchars : n.chars = cs := Numeral.chars_of_read hn
      exact ⟨rfl, hchars ▸ rfl, trivial, by simp⟩

theorem not_isPlusOrMinus_number {t : Token} {n : Numeral} (h : t.symbol = .number n) :
    ¬ t.IsPlusOrMinus := by
  have hlexeme : t.lexeme = n.lexeme := by rw [lexeme, h]; rfl
  have hplus (c : Char) (hc : Lexeme.isNumberChar c = false) :
      n.lexeme ≠ String.ofList [c] := fun hn => by
    have hmem : c ∈ n.chars := by rw [String.ofList_injective hn]; simp
    rw [(Numeral.in_number_of_mem hmem).2.1] at hc
    cases hc
  rw [IsPlusOrMinus, hlexeme]
  exact not_or.2 ⟨hplus '+' rfl, hplus '-' rfl⟩

theorem sign_of_ofLexeme {signed : Bool} {l : Lexeme} {t : Token} (h : ofLexeme signed l = .ok t)
    (ht : t.IsPlusOrMinus) : t.isSign = true ↔ signed = true := by
  cases l with
  | number p cs =>
    obtain ⟨n, hn⟩ := (reads_of_ofLexeme h).number.2 ⟨p, cs, rfl⟩
    exact absurd ht (not_isPlusOrMinus_number hn)
  | mark p c =>
    have hc : c = '+' ∨ c = '-' := by
      rw [IsPlusOrMinus, (reads_of_ofLexeme h).lexeme] at ht
      refine ht.imp (fun h => ?_) (fun h => ?_) <;>
        exact (List.cons.inj (String.ofList_injective h)).1
    obtain rfl | rfl := hc <;> cases signed <;> obtain rfl := Except.ok.inj h <;> simp [isSign]

theorem ofLexemes_cons_eq_ok {signed : Bool} {l : Lexeme} {ls : List Lexeme} {ts : List Token}
    (h : ofLexemes signed (l :: ls) = .ok ts) : ∃ t us, ts = t :: us ∧
      ofLexeme signed l = .ok t ∧ ofLexemes t.symbol.opensOperand ls = .ok us := by
  simp only [ofLexemes] at h
  cases ht : ofLexeme signed l with
  | error f => rw [ht] at h; cases h
  | ok t =>
    rw [ht] at h
    cases hus : ofLexemes t.symbol.opensOperand ls with
    | error f => simp [bind, Except.bind, hus] at h
    | ok us =>
      refine ⟨t, us, ?_, rfl, hus⟩
      simpa [bind, Except.bind, hus, pure, Except.pure, eq_comm] using h

theorem ofLexemes_cons {signed : Bool} {l : Lexeme} {ls : List Lexeme} {t : Token} {ts : List Token}
    (ht : ofLexeme signed l = .ok t) (hts : ofLexemes t.symbol.opensOperand ls = .ok ts) :
    ofLexemes signed (l :: ls) = .ok (t :: ts) := by
  simp only [ofLexemes, ht, bind, Except.bind, hts]
  rfl

theorem reads_of_ofLexemes {signed : Bool} {ls : List Lexeme} {ts : List Token}
    (h : ofLexemes signed ls = .ok ts) : List.Forall₂ Reads ls ts := by
  induction ls generalizing signed ts with
  | nil => obtain rfl := Except.ok.inj h; exact .nil
  | cons l ls ih =>
    obtain ⟨t, us, rfl, ht, hus⟩ := ofLexemes_cons_eq_ok h
    exact .cons (reads_of_ofLexeme ht) (ih hus)

theorem signsFitFrom_of_ofLexemes {signed : Bool} {ls : List Lexeme} {ts : List Token}
    (h : ofLexemes signed ls = .ok ts) : SignsFitFrom signed ts := by
  induction ls generalizing signed ts with
  | nil => obtain rfl := Except.ok.inj h; exact signsFitFrom_nil signed
  | cons l ls ih =>
    obtain ⟨t, us, rfl, ht, hus⟩ := ofLexemes_cons_eq_ok h
    exact signsFitFrom_cons.2 ⟨sign_of_ofLexeme ht, ih hus⟩

end Token

section Reads
variable {ls : List Lexeme} {ts : List Token} (h : List.Forall₂ Token.Reads ls ts)
include h

theorem exists_lexeme {t : Token} (ht : t ∈ ts) : ∃ l ∈ ls, Token.Reads l t := by
  induction h with
  | nil => cases ht
  | cons hr h ih =>
    obtain rfl | ht := List.mem_cons.1 ht
    · exact ⟨_, by simp, hr⟩
    · obtain ⟨l, hl, hr⟩ := ih ht
      exact ⟨l, List.mem_cons_of_mem _ hl, hr⟩

theorem exists_token {l : Lexeme} (hl : l ∈ ls) : ∃ t ∈ ts, Token.Reads l t := by
  induction h with
  | nil => cases hl
  | cons hr h ih =>
    obtain rfl | hl := List.mem_cons.1 hl
    · exact ⟨_, by simp, hr⟩
    · obtain ⟨t, ht, hr⟩ := ih hl
      exact ⟨t, List.mem_cons_of_mem _ ht, hr⟩

theorem pairwise_reads {R : Lexeme → Lexeme → Prop} {S : Token → Token → Prop}
    (hls : ls.Pairwise R) (hrs : ∀ l m t u, l ∈ ls → Token.Reads l t → Token.Reads m u →
      R l m → S t u) : ts.Pairwise S := by
  induction h with
  | nil => exact .nil
  | @cons l t ls ts hr h ih =>
    obtain ⟨hl, hls⟩ := List.pairwise_cons.1 hls
    refine List.pairwise_cons.2 ⟨fun u hu => ?_,
      ih hls fun l m t u hl => hrs l m t u (by simp [hl])⟩
    obtain ⟨m, hm, hru⟩ := exists_lexeme h hu
    exact hrs l m t u (by simp) hr hru (hl m hm)

end Reads

namespace Token.Reads
variable {l : Lexeme} {t : Token}

theorem length_eq (h : Reads l t) : t.lexeme.length = l.chars.length := by
  rw [h.lexeme, String.length_ofList]

theorem toList_eq (h : Reads l t) : t.lexeme.toList = l.chars := by
  rw [h.lexeme, String.toList_ofList]

theorem chars_eq (h : Reads l t) {n : Numeral} (hn : t.symbol = .number n) : n.chars = l.chars := by
  rw [← h.toList_eq, Token.lexeme, hn]
  exact String.toList_ofList.symm

end Token.Reads

section Slices
variable {cs : List Char} {ts : List Token}
  (hreads : List.Forall₂ Token.Reads (Lexeme.split 0 cs) ts)
include hreads

theorem slice_of_reads {t : Token} (ht : t ∈ ts) : ∃ i : Nat, t.position = some (i : Int) ∧
    (cs.drop i).take t.lexeme.length = t.lexeme.toList := by
  obtain ⟨l, hl, hr⟩ := exists_lexeme hreads ht
  obtain ⟨us, vs, hcs, hs⟩ := (Lexeme.cut_text cs).stands hl
  refine ⟨us.length, by rw [hr.position, hs.position_eq]; simp, ?_⟩
  rw [hcs, hr.length_eq, hr.toList_eq, List.append_assoc, List.drop_left, List.take_left]

theorem isBlank_eq_false_iff {k : Nat} {c : Char} (hk : cs[k]? = some c) :
    Text.isBlank c = false ↔
      ∃ t ∈ ts, ∃ i : Nat, t.position = some (i : Int) ∧ i ≤ k ∧ k < i + t.lexeme.length := by
  rw [(Lexeme.cut_text cs).covers hk]
  simp only [List.length_nil, Nat.zero_add]
  constructor
  · rintro ⟨l, hl, hle, hlt⟩
    obtain ⟨t, ht, hr⟩ := exists_token hreads hl
    exact ⟨t, ht, l.position, hr.position, hle, hr.length_eq ▸ hlt⟩
  · rintro ⟨t, ht, i, hi, hle, hlt⟩
    obtain ⟨l, hl, hr⟩ := exists_lexeme hreads ht
    obtain rfl : l.position = i := by
      rw [hr.position] at hi
      simpa using hi
    exact ⟨l, hl, hle, hr.length_eq ▸ hlt⟩

theorem exists_number_of_isRun {us run vs : List Char} (hcs : cs = us ++ run ++ vs)
    (hrun : Lexeme.IsRun us run vs) :
    ∃ n : Numeral, ⟨.number n, some (us.length : Int)⟩ ∈ ts ∧ n.chars = run := by
  have hl : Lexeme.number us.length run ∈ Lexeme.split 0 cs :=
    Lexeme.mem_split.2 ⟨us, vs, hcs, .number hrun⟩
  obtain ⟨t, ht, hr⟩ := exists_token hreads hl
  obtain ⟨n, hn⟩ := hr.number.2 ⟨_, _, rfl⟩
  refine ⟨n, ?_, hr.chars_eq hn⟩
  have hmk : t = ⟨.number n, some (us.length : Int)⟩ := by
    rw [Postfix.eq_mk hn, hr.position]
    rfl
  rwa [← hmk]

theorem isRun_of_number {us vs : List Char} {n : Numeral} (hcs : cs = us ++ n.chars ++ vs)
    (hn : ⟨.number n, some (us.length : Int)⟩ ∈ ts) : Lexeme.IsRun us n.chars vs := by
  obtain ⟨l, hl, hr⟩ := exists_lexeme hreads hn
  obtain ⟨p, run, rfl⟩ := hr.number.1 ⟨n, rfl⟩
  obtain ⟨us', vs', hcs', hs⟩ := Lexeme.mem_split.1 hl
  have hlen : us.length = us'.length := by
    have := hr.position
    rw [hs.position_eq] at this
    simpa using this
  have hchars : n.chars = run := hr.chars_eq rfl
  -- the same text begins at the same place, so what stands around the lexeme is `us` and `vs`
  rw [hcs, hchars, List.append_assoc, Lexeme.chars, List.append_assoc] at hcs'
  obtain ⟨rfl, hrest⟩ := List.append_inj hcs' hlen
  obtain rfl := List.append_cancel_left hrest
  cases hs with
  | number hrun => rwa [hchars]

end Slices

theorem segmented_of_scan {text : String} {ts : List Token} (h : Token.scan text = .ok ts) :
    Segmented text.toList ts := by
  have hreads := Token.reads_of_ofLexemes h
  have hcut := Lexeme.cut_text text.toList
  constructor
  case canonical =>
    intro t ht
    obtain ⟨l, -, hr⟩ := exists_lexeme hreads ht
    exact hr.canonical
  case slices => exact fun t ht => slice_of_reads hreads ht
  case ordered =>
    refine pairwise_reads hreads hcut.pairwise fun l m t u hl ht hu hle => ?_
    obtain ⟨us, vs, -, hs⟩ := hcut.stands hl
    have hpos := List.length_pos_iff.2 hs.chars_ne_nil
    exact ⟨l.position, m.position, ht.position, hu.position, by omega, ht.length_eq.symm ▸ hle⟩
  case covers => exact fun k c hk => isBlank_eq_false_iff hreads hk
  case numbers =>
    refine fun us run vs hcs => ⟨exists_number_of_isRun hreads hcs, ?_⟩
    rintro ⟨n, hn, rfl⟩
    exact isRun_of_number hreads hcs hn
  case values => exact fun n p _ => n.value_eq_denoted
  case signs => exact Token.signsFit_iff.2 (Token.signsFitFrom_of_ofLexemes h)

namespace Token

theorem ofLexeme_number_error {run : List Char} {flaw : Numeral.Flaw}
    (h : Numeral.read run = .error flaw) (signed : Bool) (p : Nat) :
    ofLexeme signed (.number p run) =
      .error ⟨.malformedNumber (String.ofList run) flaw, some p⟩ := by
  simp only [ofLexeme, Symbol.ofNumeral, String.toList_ofList, h]

theorem ofLexeme_number_ok {run : List Char} {n : Numeral} (h : Numeral.read run = .ok n)
    (signed : Bool) (p : Nat) : ofLexeme signed (.number p run) = .ok ⟨.number n, some p⟩ := by
  simp only [ofLexeme, Symbol.ofNumeral, String.toList_ofList, h]

theorem ofLexeme_error_of_signed {l : Lexeme} {f : Fault} {signed : Bool}
    (h : ofLexeme signed l = .error f) (signed' : Bool) : ofLexeme signed' l = .error f := by
  cases l with
  | number p cs => exact h
  | mark p c =>
    by_cases hc : c ∈ marks
    · obtain ⟨t, ht⟩ := exists_ofMark hc signed p
      rw [ofLexeme, ht] at h
      cases h
    · rw [ofLexeme, ofMark_of_not_mem hc] at h ⊢
      exact h

/-- Lexemes are read up to the first that cannot be: induction on the lexemes. -/
theorem ofLexemes_outcome (signed : Bool) (ls : List Lexeme) :
    (∃ ts, ofLexemes signed ls = .ok ts ∧ ∀ l ∈ ls, ∀ g, ofLexeme true l ≠ .error g) ∨
      ∃ ls₁ l ls₂ f, ls = ls₁ ++ l :: ls₂ ∧ ofLexemes signed ls = .error f ∧
        ofLexeme true l = .error f ∧ ∀ m ∈ ls₁, ∀ g, ofLexeme true m ≠ .error g := by
  induction ls generalizing signed with
  | nil => exact .inl ⟨[], rfl, by simp⟩
  | cons l ls ih =>
    cases ht : ofLexeme signed l with
    | error f =>
      refine .inr ⟨[], l, ls, f, rfl, ?_, ofLexeme_error_of_signed ht true, by simp⟩
      simp only [ofLexemes, ht]
      rfl
    | ok t =>
      have hl : ∀ g, ofLexeme true l ≠ .error g := fun g hg => by
        rw [ofLexeme_error_of_signed hg signed] at ht
        cases ht
      obtain ⟨ts, hts, hls⟩ | ⟨ls₁, m, ls₂, f, rfl, hf, hm, hls⟩ := ih t.symbol.opensOperand
      · exact .inl ⟨t :: ts, ofLexemes_cons ht hts, List.forall_mem_cons.2 ⟨hl, hls⟩⟩
      · refine .inr ⟨l :: ls₁, m, ls₂, f, rfl, ?_, hm, List.forall_mem_cons.2 ⟨hl, hls⟩⟩
        simp only [ofLexemes, ht, bind, Except.bind, hf]

end Token

theorem allowed_iff {c : Char} (hb : Text.isBlank c = false)
    (hn : Lexeme.isNumberChar c = false) : Allowed c ↔ c ∈ marks := by
  have hdigit : ¬ c.isDigit = true := fun h => by
    rw [Lexeme.isNumberChar_iff.2 (.inl h)] at hn
    cases hn
  have hpoint : c ≠ '.' := fun h => by
    rw [Lexeme.isNumberChar_iff.2 (.inr h)] at hn
    cases hn
  simp [Allowed, hb, hdigit, hpoint]

theorem not_allowed {c : Char} (h : ¬ Allowed c) :
    Text.isBlank c = false ∧ Lexeme.isNumberChar c = false ∧ c ∉ marks := by
  simp only [Allowed, not_or, Bool.not_eq_true] at h
  refine ⟨h.1, ?_, h.2.2.2⟩
  simp [Lexeme.isNumberChar, h.2.1, h.2.2.1]

theorem offence_iff {cs : List Char} {i : Nat} {f : Fault} : Offence cs i f ↔
    ∃ l ∈ Lexeme.split 0 cs, l.position = i ∧ Token.ofLexeme true l = .error f := by
  constructor
  · intro h
    cases h with
    | @character us vs c hcs hc =>
      obtain ⟨hb, hn, hm⟩ := not_allowed hc
      refine ⟨.mark us.length c, ?_, rfl, Token.ofMark_of_not_mem hm true _⟩
      exact Lexeme.mem_split.2 ⟨us, vs, by simpa [Lexeme.chars] using hcs, .mark hb hn⟩
    | @noDigit us run vs hcs hr hd =>
      refine ⟨.number us.length run, Lexeme.mem_split.2 ⟨us, vs, hcs, .number hr⟩, rfl, ?_⟩
      exact Token.ofLexeme_number_error (Numeral.read_noDigit hr.inside hd) true _
    | @manyPoints us run vs hcs hr hd hp =>
      refine ⟨.number us.length run, Lexeme.mem_split.2 ⟨us, vs, hcs, .number hr⟩, rfl, ?_⟩
      exact Token.ofLexeme_number_error (Numeral.read_manyPoints hr.inside hd hp) true _
  · rintro ⟨l, hl, rfl, hf⟩
    obtain ⟨us, vs, hcs, hs⟩ := Lexeme.mem_split.1 hl
    cases hs with
    | @number run _ hr =>
      by_cases hd : ∃ c ∈ run, c.isDigit = true
      · by_cases hp : 1 < run.count '.'
        · rw [Token.ofLexeme_number_error (Numeral.read_manyPoints hr.inside hd hp)] at hf
          obtain rfl := Except.error.inj hf
          exact .manyPoints hcs hr hd hp
        · obtain ⟨n, hn⟩ := Numeral.exists_read hr.inside hd (Nat.not_lt.1 hp)
          rw [Token.ofLexeme_number_ok hn] at hf
          cases hf
      · have hd : ∀ c ∈ run, c.isDigit = false := fun c hc =>
          Bool.eq_false_iff.2 fun h => hd ⟨c, hc, h⟩
        rw [Token.ofLexeme_number_error (Numeral.read_noDigit hr.inside hd)] at hf
        obtain rfl := Except.error.inj hf
        exact .noDigit hcs hr hd
    | @mark c _ hb hn =>
      by_cases hc : c ∈ marks
      · obtain ⟨t, ht⟩ := Token.exists_ofMark hc true us.length
        rw [Token.ofLexeme, ht] at hf
        cases hf
      · rw [Token.ofLexeme, Token.ofMark_of_not_mem hc] at hf
        obtain rfl := Except.error.inj hf
        exact .character (by simpa [Lexeme.chars] using hcs) fun h => hc ((allowed_iff hb hn).1 h)

theorem Offence.unique {cs : List Char} {i : Nat} {f g : Fault} (hf : Offence cs i f)
    (hg : Offence cs i g) : f = g := by
  obtain ⟨l, hl, hli, hlf⟩ := offence_iff.1 hf
  obtain ⟨m, hm, hmi, hmg⟩ := offence_iff.1 hg
  obtain ⟨us, vs, hcs, hs⟩ := Lexeme.mem_split.1 hl
  obtain ⟨us', vs', hcs', hs'⟩ := Lexeme.mem_split.1 hm
  have hlen : us.length = us'.length := by
    rw [← hs.position_eq, ← hs'.position_eq, hli, hmi]
  rw [hcs, List.append_assoc, List.append_assoc] at hcs'
  obtain ⟨rfl, hrest⟩ := List.append_inj hcs' hlen
  obtain rfl := hs.unique hs' hrest
  rw [hlf] at hmg
  exact Except.error.inj hmg

theorem scan_outcome (text : String) :
    (∃ ts, Token.scan text = .ok ts ∧ ∀ i f, ¬ Offence text.toList i f) ∨
      ∃ i f, Token.scan text = .error f ∧ Offence text.toList i f ∧
        ∀ j < i, ∀ g, ¬ Offence text.toList j g := by
  obtain ⟨ts, hts, hls⟩ | ⟨ls₁, l, ls₂, f, hls, hf, hl, hbefore⟩ :=
    Token.ofLexemes_outcome true (Lexeme.split 0 text.toList)
  · refine .inl ⟨ts, hts, fun i f hi => ?_⟩
    obtain ⟨l, hl, -, hf⟩ := offence_iff.1 hi
    exact hls l hl f hf
  · refine .inr ⟨l.position, f, hf, offence_iff.2 ⟨l, by simp [hls], rfl, hl⟩, fun j hj g hg => ?_⟩
    obtain ⟨m, hm, rfl, hmg⟩ := offence_iff.1 hg
    have hpairs := (Lexeme.cut_text text.toList).pairwise
    rw [hls] at hm hpairs
    obtain hm | hm := List.mem_append.1 hm
    · exact hbefore m hm g hmg
    obtain rfl | hm := List.mem_cons.1 hm
    · exact Nat.lt_irrefl _ hj
    · have hafter := (List.pairwise_cons.1 (List.pairwise_append.1 hpairs).2.1).1 m hm
      omega

theorem no_offence_iff {cs : List Char} : (∀ i f, ¬ Offence cs i f) ↔
    (∀ c ∈ cs, Allowed c) ∧
      ∀ us run vs, cs = us ++ run ++ vs → Lexeme.IsRun us run vs → IsNumeralRun run := by
  constructor
  · intro h
    constructor
    · intro c hc
      obtain ⟨us, vs, hcs⟩ := List.append_of_mem hc
      by_contra hno
      exact h _ _ (.character hcs hno)
    · intro us run vs hcs hr
      have hd : ∃ c ∈ run, c.isDigit = true := by
        by_contra hno
        refine h _ _ (.noDigit hcs hr fun c hc => Bool.eq_false_iff.2 fun hd => hno ⟨c, hc, hd⟩)
      exact ⟨hd, Nat.not_lt.1 fun hp => h _ _ (.manyPoints hcs hr hd hp)⟩
  · rintro ⟨hallowed, hruns⟩ i f h
    cases h with
    | character hcs hc => exact hc (hallowed _ (by simp [hcs]))
    | noDigit hcs hr hd =>
      obtain ⟨c, hc, hdigit⟩ := (hruns _ _ _ hcs hr).1
      rw [hd c hc] at hdigit
      cases hdigit
    | manyPoints hcs hr hd hp => exact absurd (hruns _ _ _ hcs hr).2 (Nat.not_le.2 hp)

/-- Scanning is an exact segmentation: it succeeds just where all characters are allowed and all
maximal runs are numerals, its tokens are the segments of the text, and its fault is the leftmost
offence. -/
theorem scan_segmentation (text : String) :
    ((∃ ts, Token.scan text = .ok ts) ↔ (∀ c ∈ text.toList, Allowed c) ∧
      ∀ us run vs, text.toList = us ++ run ++ vs → Lexeme.IsRun us run vs → IsNumeralRun run) ∧
    (∀ ts, Token.scan text = .ok ts → Segmented text.toList ts) ∧
    ∀ f, Token.scan text = .error f ↔ ∃ i, Offence text.toList i f ∧
      ∀ j < i, ∀ g, ¬ Offence text.toList j g := by
  rw [← no_offence_iff]
  refine ⟨⟨fun ⟨ts, hts⟩ => ?_, fun hno => ?_⟩, fun ts => segmented_of_scan,
    fun f => ⟨fun hf => ?_, ?_⟩⟩
  · obtain ⟨-, -, hno⟩ | ⟨i, f, hf, -⟩ := scan_outcome text
    · exact hno
    · rw [hts] at hf
      cases hf
  · obtain ⟨ts, hts, -⟩ | ⟨i, f, -, hi, -⟩ := scan_outcome text
    · exact ⟨ts, hts⟩
    · exact absurd hi (hno i f)
  · obtain ⟨ts, hts, -⟩ | ⟨i, g, hg, hi, hleft⟩ := scan_outcome text
    · rw [hts] at hf
      cases hf
    · rw [hf] at hg
      obtain rfl := Except.error.inj hg
      exact ⟨i, hi, hleft⟩
  · rintro ⟨i, hi, hleft⟩
    obtain ⟨ts, -, hno⟩ | ⟨j, g, hg, hj, hleft'⟩ := scan_outcome text
    · exact absurd hi (hno i f)
    · obtain hlt | rfl | hlt := Nat.lt_trichotomy i j
      · exact absurd hi (hleft' i hlt f)
      · rw [hg, hj.unique hi]
      · exact absurd hj (hleft j hlt g)

end Reckoner
