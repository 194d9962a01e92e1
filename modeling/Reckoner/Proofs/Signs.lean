import Reckoner.Proofs.Rendering

/-! Signs. Scanning keeps account of where a plus or minus is a sign, and the first stage keeps
account of where an operand is expected. Main statement: on the tokens of a text the two accounts
are the same, so no sign is ever refused, nor any sum or difference for want of a left operand. -/
namespace Reckoner

/-- For each lexeme that is read, whether a plus or minus is a sign there. -/
def Token.signPlaces (signed : Bool) : List Lexeme → List Bool
  | [] => []
  | l :: ls => signed :: match ofLexeme signed l with
    | .ok t => signPlaces t.symbol.opensOperand ls
    | .error _ => []

/-- The fault blames neither a sign nor a sum or difference that has no left operand. -/
def Fault.SparesSigns (f : Fault) : Prop :=
  (∀ a, f.cause ≠ .signAfterOperand a) ∧
    ∀ a, f.cause = .operatorWithoutOperand a → a ∈ ["*", "/", "%", "^"]

namespace Postfix

theorem Move.expectsOperand_eq {t : Token} {s s' : State} (h : Move t s s') :
    s'.expectsOperand = t.symbol.opensOperand := by
  cases h with
  | number n ht => simp [ht, Symbol.opensOperand]
  | left a ht => simp [ht, Symbol.opensOperand]
  | right b _ _ _ ht => simp [ht, Symbol.opensOperand]
  | sign o ht => simp [ht, Symbol.opensOperand]
  | operator o _ _ ht => simp [ht, Symbol.opensOperand]

/-- The account of signs goes along with the states of a run, and each token is read by it:
induction on the tokens. -/
theorem signPlaces_of_run {us vs : List Token} {t : Token} {ls : List Lexeme} {s s' : State}
    (h : Token.ofLexemes s.expectsOperand ls = .ok (us ++ t :: vs)) (hr : run us s = .ok s') :
    (Token.signPlaces s.expectsOperand ls)[us.length]? = some s'.expectsOperand ∧
      ∃ l, ls[us.length]? = some l ∧ Token.ofLexeme s'.expectsOperand l = .ok t := by
  induction us generalizing ls s with
  | nil =>
    obtain rfl := Except.ok.inj hr
    cases ls with
    | nil => cases h
    | cons l ls =>
      obtain ⟨u, us, heq, hu, -⟩ := Token.ofLexemes_cons_eq_ok h
      obtain ⟨rfl, -⟩ := List.cons.inj heq
      exact ⟨rfl, l, rfl, hu⟩
  | cons u us ih =>
    obtain ⟨s₁, hm, hr₁⟩ := run_cons_eq_ok hr
    cases ls with
    | nil => cases h
    | cons l ls =>
      obtain ⟨u', us', heq, hu, hus⟩ := Token.ofLexemes_cons_eq_ok h
      obtain ⟨rfl, rfl⟩ := List.cons.inj heq
      rw [← hm.expectsOperand_eq] at hus
      simp only [Token.signPlaces, hu, List.length_cons, List.getElem?_cons_succ,
        ← hm.expectsOperand_eq]
      exact ih hus hr₁

theorem not_endsOperand {t : Token} (h : t.symbol.opensOperand = true) : endsOperand t = false := by
  unfold Symbol.opensOperand at h
  split at h
  next o ho => simp [endsOperand, ho]
  next a ha => simp [endsOperand, ha]
  next => cases h

theorem Offends.sparesSigns {us vs : List Token} {t : Token} {k : FaultKind} {f : Fault}
    (hs : Token.SignsFit (us ++ t :: vs)) (h : Offends us t k f) : f.SparesSigns := by
  cases h with
  | @sign u o ht hu he =>
    have hsign : t.isSign = true := by simp [Token.isSign, ht]
    have hopens := (hs us t vs rfl (Token.isPlusOrMinus_operator ht (by cases o <;> rfl))).1 hsign
    rw [not_endsOperand (hopens u hu)] at he
    cases he
  | @operator o ht hu =>
    refine ⟨by simp, fun a ha => ?_⟩
    obtain rfl := Cause.operatorWithoutOperand.inj ha
    have hno : ¬ t.IsPlusOrMinus := fun hpm => by
      have hsign := (hs us t vs rfl hpm).2 hu
      simp [Token.isSign, ht] at hsign
    rw [Token.lexeme, ht]
    cases o with
    | add | sub => exact absurd (Token.isPlusOrMinus_operator ht rfl) hno
    | mul | div | mod | pow => decide
  | missing => exact ⟨by simp, by simp⟩
  | surplus => exact ⟨by simp, by simp⟩

theorem FirstFault.sparesSigns {ts : List Token} {k : FaultKind} {f : Fault}
    (hs : Token.SignsFit ts) (h : FirstFault ts k f) : f.SparesSigns := by
  cases h with
  | token hts _ ho =>
    subst hts
    exact ho.sparesSigns hs
  | ending => exact ⟨by simp, by simp⟩
  | unclosed => exact ⟨by simp, by simp⟩

end Postfix

/-- At every token of a text that is come to, an operand is expected just where a plus or minus was
taken for a sign when the token was read. So no sign is refused, and of the operators only products,
quotients, remainders and powers are refused for want of a left operand. -/
theorem signs_agree {text : String} {ts : List Token} (h : Token.scan text = .ok ts) :
    (∀ us t vs s, ts = us ++ t :: vs → Postfix.run us .start = .ok s →
      (Token.signPlaces true (Lexeme.split 0 text.toList))[us.length]? = some s.expectsOperand ∧
      ∃ l, (Lexeme.split 0 text.toList)[us.length]? = some l ∧
        Token.ofLexeme s.expectsOperand l = .ok t) ∧
    ∀ f, Postfix.ofInfix ts = .error (.fault f) → f.SparesSigns := by
  have hsegments := segmented_of_scan h
  refine ⟨fun us t vs s hts hr => ?_, fun f hf => ?_⟩
  · subst hts
    exact Postfix.signPlaces_of_run (s := .start) h hr
  · have hknown (t : Token) (ht : t ∈ ts) : t.Known := (hsegments.canonical t ht).known
    obtain ⟨out, hout, -⟩ | ⟨g, hg, hfirst⟩ := Postfix.ofInfix_cases hknown
    · rw [hout] at hf
      cases hf
    · rw [hg] at hf
      obtain rfl := Failure.fault.inj (Except.error.inj hf)
      exact hfirst.sparesSigns hsegments.signs

def signBeforeQuotient : List Token :=
  [⟨.operator (.unary .neg), some 0⟩, ⟨.number Postfix.two, some 1⟩,
    ⟨.operator (.binary .mul), some 2⟩, ⟨.operator (.unary .pos), some 3⟩,
    ⟨.operator (.binary .div), some 4⟩, ⟨.number Postfix.three, some 5⟩]

/-- In `-2*+/3` the quotient is refused where a sign could stand. -/
theorem signs_agree_sign_before_quotient :
    Token.scan "-2*+/3" = .ok signBeforeQuotient ∧
      (Token.signPlaces true (Lexeme.split 0 "-2*+/3".toList))[4]? = some true ∧
      Postfix.ofInfix signBeforeQuotient =
        .error (.fault ⟨.operatorWithoutOperand "/", some 4⟩) ∧
      Fault.SparesSigns ⟨.operatorWithoutOperand "/", some 4⟩ := by
  have hscan : Token.scan "-2*+/3" = .ok signBeforeQuotient := by decide +kernel
  have hfault : Postfix.ofInfix signBeforeQuotient =
    .error (.fault ⟨.operatorWithoutOperand "/", some 4⟩) := rfl
  obtain ⟨hplaces, hspares⟩ := signs_agree hscan
  obtain ⟨hplace, -⟩ := hplaces (signBeforeQuotient.take 4) _ _ _ rfl rfl
  exact ⟨hscan, hplace, hfault, hspares _ hfault⟩

end Reckoner
