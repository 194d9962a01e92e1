import Reckoner.Proofs.Adjacency
import Reckoner.Proofs.Scanning

/-! Writing tokens down. Main statement: tokens written in order, with any blanks between them and
one at least between two numbers, are scanned as the same tokens, if signs stand where operands have
yet to come; and every text is its tokens written down. -/
namespace Reckoner
open Postfix (isNumber)

/-- `Written ts cs`: the text `cs` has the tokens `ts` in order, and blanks around them. Two numbers
do not touch. -/
inductive Written : List Token → List Char → Prop
  | nil {gap : List Char} (hgap : ∀ c ∈ gap, Text.isBlank c = true) : Written [] gap
  | cons {gap cs : List Char} {t : Token} {ts : List Token}
      (hgap : ∀ c ∈ gap, Text.isBlank c = true)
      (hsep : isNumber t = true → ∀ u ∈ ts.head?, isNumber u = true →
        ∃ c ∈ cs.head?, Text.isBlank c = true)
      (h : Written ts cs) : Written (t :: ts) (gap ++ t.lexeme.toList ++ cs)

theorem mark_stands {c : Char} (h : c ∈ marks) :
    Text.isBlank c = false ∧ Lexeme.isNumberChar c = false := by
  simp only [marks, List.mem_cons, List.not_mem_nil, or_false] at h
  rcases h with rfl | rfl | rfl | rfl | rfl | rfl | rfl | rfl <;> decide

theorem Lexeme.split_gap {gap : List Char} (hgap : ∀ c ∈ gap, Text.isBlank c = true) (p : Nat)
    (cs : List Char) : split p (gap ++ cs) = split (p + gap.length) cs := by
  induction gap generalizing p with
  | nil => rfl
  | cons c gap ih =>
    obtain ⟨hc, hgap⟩ := List.forall_mem_cons.1 hgap
    rw [List.cons_append, split_blank hc, ih hgap, List.length_cons, Nat.add_assoc, Nat.add_comm 1]

namespace Token
variable {t : Token}

theorem Canonical.known (h : t.Canonical) : t.Known := by
  intro kind lexeme ht
  rw [Canonical, ht] at h
  exact h

theorem exists_number (h : isNumber t = true) : ∃ n, t.symbol = .number n := by
  cases hs : t.symbol with
  | number n => exact ⟨n, rfl⟩
  | _ => simp [isNumber, hs] at h

theorem toList_lexeme {n : Numeral} (h : t.symbol = .number n) : t.lexeme.toList = n.chars := by
  rw [lexeme, h]
  exact String.toList_ofList

theorem toList_operator {o : Operator} (h : t.symbol = .operator o) :
    t.lexeme.toList = [o.symbol] := by
  rw [lexeme, h, Symbol.lexeme, lexeme_operator rfl, String.toList_ofList]

theorem ofMark_unary (o : UnaryOperator) (p : Nat) :
    ofMark true p o.symbol = .ok ⟨.operator (.unary o), some p⟩ := by cases o <;> rfl

theorem ofMark_binary {o : BinaryOperator} {signed : Bool} (p : Nat)
    (h : (UnaryOperator.ofChar? o.symbol).isSome = true → signed = false) :
    ofMark signed p o.symbol = .ok ⟨.operator (.binary o), some p⟩ := by
  cases signed with
  | false => cases o <;> rfl
  | true =>
    cases o with
    | add | sub => exact absurd (h rfl) (by decide)
    | mul | div | mod | pow => rfl

theorem isPlusOrMinus_operator {o : Operator} (h : t.symbol = .operator o)
    (ho : (UnaryOperator.ofChar? o.symbol).isSome = true) : t.IsPlusOrMinus := by
  obtain ⟨u, hu⟩ := Option.isSome_iff_exists.1 ho
  have htext : t.lexeme = String.ofList [u.symbol] := by
    rw [lexeme, h, Symbol.lexeme, lexeme_operator (UnaryOperator.symbol_of_ofChar? hu).symm]
  cases u
  · exact .inl htext
  · exact .inr htext

theorem Canonical.exists_ofMark {signed : Bool} (h : t.Canonical) (hn : isNumber t = false)
    (hs : t.IsPlusOrMinus → (t.isSign = true ↔ signed = true)) (p : Nat) : ∃ c ∈ marks,
      t.lexeme.toList = [c] ∧ ofMark signed p c = .ok ⟨t.symbol, some p⟩ := by
  cases ht : t.symbol with
  | number n => simp [isNumber, ht] at hn
  | operator o =>
    refine ⟨o.symbol, ?_, toList_operator ht, ?_⟩
    · rcases o with o | o <;> cases o <;> decide
    cases o with
    | unary o =>
      have hsign := hs (isPlusOrMinus_operator ht (by simp [Operator.symbol]))
      obtain rfl : signed = true := hsign.1 (by simp [isSign, ht])
      exact ofMark_unary o p
    | binary o =>
      refine ofMark_binary p fun ho => ?_
      have hsign := hs (isPlusOrMinus_operator ht ho)
      simpa [isSign, ht] using hsign
  | paren side a =>
    rw [Canonical, ht] at h
    cases side with
    | left =>
      obtain rfl : a = "(" := h
      exact ⟨'(', by decide, by rw [lexeme, ht, Symbol.lexeme]; decide, rfl⟩
    | right =>
      obtain rfl : a = ")" := h
      exact ⟨')', by decide, by rw [lexeme, ht, Symbol.lexeme]; decide, rfl⟩
  | other kind a =>
    rw [Canonical, ht] at h
    exact h.elim

theorem Canonical.exists_mark (h : t.Canonical) (hn : isNumber t = false) :
    ∃ c ∈ marks, t.lexeme.toList = [c] := by
  obtain ⟨c, hc, htext, -⟩ := @exists_ofMark t t.isSign h hn (fun _ => Iff.rfl) 0
  exact ⟨c, hc, htext⟩

end Token

namespace Written
variable {ts : List Token} {cs : List Char}

theorem stops (h : Written ts cs) (hc : ∀ t ∈ ts, t.Canonical)
    (hsep : ∀ u ∈ ts.head?, isNumber u = true → ∃ c ∈ cs.head?, Text.isBlank c = true) :
    ∀ c ∈ cs.head?, Lexeme.isNumberChar c = false := by
  intro c hhead
  cases h with
  | nil hgap => exact Lexeme.isNumberChar_of_isBlank (hgap c (List.mem_of_mem_head? hhead))
  | @cons gap cs t ts hgap _ h =>
    cases hn : isNumber t with
    | true =>
      obtain ⟨d, hd, hblank⟩ := hsep t rfl hn
      obtain rfl : d = c := Option.some.inj (hd.symm.trans hhead)
      exact Lexeme.isNumberChar_of_isBlank hblank
    | false =>
      obtain ⟨d, hd, htext⟩ := (hc t (by simp)).exists_mark hn
      rw [htext] at hhead
      cases gap with
      | nil => obtain rfl := Option.some.inj hhead; exact (mark_stands hd).2
      | cons b gap =>
        obtain rfl := Option.some.inj hhead
        exact Lexeme.isNumberChar_of_isBlank (hgap _ (by simp))

/-- What is written is read back: induction on the tokens, with the place reached and whether signs
may stand there. -/
theorem ofLexemes_eq (h : Written ts cs) (hc : ∀ t ∈ ts, t.Canonical) {signed : Bool}
    (hs : Token.SignsFitFrom signed ts) (p : Nat) :
    ∃ us, Token.ofLexemes signed (Lexeme.split p cs) = .ok us ∧
      List.Forall₂ (fun u t => u.same t = true) us ts := by
  induction h generalizing signed p with
  | @nil gap hgap =>
    rw [← List.append_nil gap, Lexeme.split_gap hgap, Lexeme.split]
    exact ⟨[], rfl, .nil⟩
  | @cons gap cs t ts hgap hsep h ih =>
    obtain ⟨hct, hcts⟩ := List.forall_mem_cons.1 hc
    obtain ⟨hst, hsts⟩ := Token.signsFitFrom_cons.1 hs
    rw [List.append_assoc, Lexeme.split_gap hgap]
    generalize p + gap.length = q
    have hread {l : Lexeme} {r : Nat}
        (hsplit : Lexeme.split q (t.lexeme.toList ++ cs) = l :: Lexeme.split r cs)
        (ht : Token.ofLexeme signed l = .ok ⟨t.symbol, some q⟩) :
        ∃ us, Token.ofLexemes signed (Lexeme.split q (t.lexeme.toList ++ cs)) = .ok us ∧
          List.Forall₂ (fun u t => u.same t = true) us (t :: ts) := by
      obtain ⟨us, hus, hsame⟩ := ih hcts hsts r
      refine ⟨⟨t.symbol, some q⟩ :: us, ?_, .cons (Token.same_iff.2 rfl) hsame⟩
      rw [hsplit]
      exact Token.ofLexemes_cons ht hus
    cases hn : isNumber t with
    | true =>
      obtain ⟨n, hn'⟩ := Token.exists_number hn
      have hin : ∀ c ∈ n.chars, Lexeme.isNumberChar c = true :=
        fun c hc => (Numeral.in_number_of_mem hc).2.1
      have hsplit := Lexeme.split_run n.chars_ne_nil hin (h.stops hcts (hsep hn)) q
      rw [← Token.toList_lexeme hn'] at hsplit
      refine hread hsplit ?_
      rw [Token.toList_lexeme hn', Token.ofLexeme_number_ok n.read_chars, hn']
    | false =>
      obtain ⟨c, hmem, htext, hmark⟩ := hct.exists_ofMark hn hst q
      obtain ⟨hblank, hnumber⟩ := mark_stands hmem
      have hsplit := Lexeme.split_mark hblank hnumber q cs
      rw [← List.singleton_append, ← htext] at hsplit
      exact hread hsplit hmark

theorem exists_scan (h : Written ts cs) (hc : ∀ t ∈ ts, t.Canonical) (hs : Token.SignsFit ts) :
    ∃ us, Token.scan (String.ofList cs) = .ok us ∧
      List.Forall₂ (fun u t => u.same t = true) us ts := by
  rw [Token.scan, String.toList_ofList]
  exact h.ofLexemes_eq hc (Token.signsFit_iff.1 hs) 0

theorem blank (h : Written ts cs) {c : Char} (hc : Text.isBlank c = true) :
    Written ts (c :: cs) := by
  cases h with
  | nil hgap => exact .nil (List.forall_mem_cons.2 ⟨hc, hgap⟩)
  | cons hgap hsep h =>
    rw [List.append_assoc, ← List.cons_append, ← List.append_assoc]
    exact .cons (List.forall_mem_cons.2 ⟨hc, hgap⟩) hsep h

theorem separated (h : Written ts cs) (hstop : ∀ c ∈ cs.head?, Lexeme.isNumberChar c = false) :
    ∀ u ∈ ts.head?, isNumber u = true → ∃ c ∈ cs.head?, Text.isBlank c = true := by
  intro u hu hn
  cases h with
  | nil => cases hu
  | @cons gap cs t ts hgap _ h =>
    obtain rfl := Option.some.inj hu
    cases gap with
    | cons b gap => exact ⟨b, rfl, hgap b (by simp)⟩
    | nil =>
      obtain ⟨n, hn⟩ := Token.exists_number hn
      obtain ⟨d, ds, hd⟩ := List.exists_cons_of_ne_nil n.chars_ne_nil
      rw [Token.toList_lexeme hn, hd] at hstop
      have hin := (Numeral.in_number_of_mem (n := n) (hd ▸ List.mem_cons_self)).2.1
      rw [hstop d rfl] at hin
      cases hin

theorem of_cut {before : List Char} {ls : List Lexeme} (h : Lexeme.Cut before cs ls)
    (hr : List.Forall₂ Token.Reads ls ts) : Written ts cs := by
  induction h generalizing ts with
  | nil => cases hr; exact .nil (by simp)
  | blank hc _ ih => exact (ih hr).blank hc
  | @cons before cs ls l hl _ ih =>
    cases hr with
    | @cons _ t _ ts hlt hr =>
      have hw := ih hr
      rw [← hlt.toList_eq, ← List.nil_append t.lexeme.toList]
      refine .cons (by simp) (fun hn => hw.separated ?_) hw
      obtain ⟨p, run, rfl⟩ := hlt.number.1 (Token.exists_number hn)
      cases hl with
      | number hrun => exact hrun.right

end Written

namespace Postfix

theorem Move.isSign_iff {t : Token} {s s' : State} (h : Move t s s') (hc : t.Canonical)
    (ht : t.IsPlusOrMinus) : t.isSign = true ↔ s.expectsOperand = true := by
  cases h with
  | number n hn => exact absurd ht (Token.not_isPlusOrMinus_number hn)
  | left a ha =>
    obtain rfl : a = "(" := by simpa [Token.Canonical, ha] using hc
    simp [Token.IsPlusOrMinus, Token.lexeme, ha, Symbol.lexeme] at ht
  | right a _ _ _ ha =>
    obtain rfl : a = ")" := by simpa [Token.Canonical, ha] using hc
    simp [Token.IsPlusOrMinus, Token.lexeme, ha, Symbol.lexeme] at ht
  | sign o ho hs => simp [Token.isSign, ho, hs]
  | operator o _ _ ho hs => simp [Token.isSign, ho, hs]

theorem signsFit_of_ofInfix {ts out : List Token} (hc : ∀ t ∈ ts, t.Canonical)
    (h : ofInfix ts = .ok out) : Token.SignsFit ts := by
  rintro us t vs rfl ht
  obtain ⟨s, hr, -⟩ := exists_run_of_ofInfix h
  obtain ⟨s₁, hus, hrest⟩ := run_append_eq_ok hr
  obtain ⟨s₂, hm, -⟩ := run_cons_eq_ok hrest
  rw [hm.isSign_iff (hc t (by simp)) ht, expectsOperand_iff hus]

end Postfix

/-- Every text that can be scanned is its tokens written down. -/
theorem written_of_scan {text : String} {ts : List Token} (h : Token.scan text = .ok ts) :
    Written ts text.toList :=
  .of_cut (Lexeme.cut_text text.toList) (Token.reads_of_ofLexemes h)

/-- Scanning undoes writing. The tokens have to be spelt as they are scanned, and their signs have
to stand where operands have yet to come; both hold of all tokens that were scanned, and the latter
of all that can be put into postfix order. -/
theorem scan_written (ts : List Token) :
    ((∀ t ∈ ts, t.Canonical) → Token.SignsFit ts → ∀ cs, Written ts cs →
      ∃ us, Token.scan (String.ofList cs) = .ok us ∧
        List.Forall₂ (fun u t => u.same t = true) us ts) ∧
    (∀ out, (∀ t ∈ ts, t.Canonical) → Postfix.ofInfix ts = .ok out → Token.SignsFit ts) ∧
    ∀ text, Token.scan text = .ok ts → (∀ t ∈ ts, t.Canonical) ∧ Token.SignsFit ts := by
  refine ⟨fun hc hs cs h => h.exists_scan hc hs, fun out hc h => Postfix.signsFit_of_ofInfix hc h,
    fun text h => ?_⟩
  have hsegments := segmented_of_scan h
  exact ⟨hsegments.canonical, hsegments.signs⟩

/-- The tokens of `2^-3*4`, with blanks before, between and after them. -/
theorem scan_written_signedExponent :
    (∀ t ∈ Derives.signedExponent, t.Canonical) ∧ Token.SignsFit Derives.signedExponent ∧
      ∃ us, Token.scan " 2^ -3*4\n" = .ok us ∧
        List.Forall₂ (fun u t => u.same t = true) us Derives.signedExponent := by
  obtain ⟨hscan, hfit, -⟩ := scan_written Derives.signedExponent
  have hc : ∀ t ∈ Derives.signedExponent, t.Canonical := by
    simp [Derives.signedExponent, Token.Canonical]
  have hs := hfit _ hc rfl
  refine ⟨hc, hs, ?_⟩
  have htext : " 2^ -3*4\n".toList = [' '] ++ Derives.signedExponent[0].lexeme.toList ++
    ([] ++ Derives.signedExponent[1].lexeme.toList ++
    ([' '] ++ Derives.signedExponent[2].lexeme.toList ++
    ([] ++ Derives.signedExponent[3].lexeme.toList ++
    ([] ++ Derives.signedExponent[4].lexeme.toList ++
    ([] ++ Derives.signedExponent[5].lexeme.toList ++ ['\n']))))) := by decide
  have hspace : ∀ c ∈ [' '], Text.isBlank c = true := List.forall_mem_singleton.2 rfl
  have hnone : ∀ c ∈ ([] : List Char), Text.isBlank c = true := List.forall_mem_nil _
  have hwritten : Written Derives.signedExponent " 2^ -3*4\n".toList := by
    rw [htext]
    refine .cons hspace ?_ (.cons hnone ?_ (.cons hspace ?_ (.cons hnone ?_ (.cons hnone ?_
      (.cons hnone ?_ (.nil (List.forall_mem_singleton.2 rfl)))))))
    all_goals simp [Derives.signedExponent, isNumber]
  simpa using hscan hc hs _ hwritten

end Reckoner
