import Reckoner.Proofs.Groups

/-! Operands. Main statement: in accepted tokens every operator leads, with signs between or not, to
a number or a group, and that is one operand to every state. -/
namespace Reckoner.Postfix

/-- A number or a group, empty or not. -/
inductive Operand : List Token → Prop
  | number {t : Token} (ht : isNumber t = true) : Operand [t]
  | group {ts : List Token} {l r : Token} (hl : isLeft l = true) (hr : isRight r = true)
      (hb : Balanced ts) : Operand (l :: ts ++ [r])

/-- `Leads signs operand ts`: the tokens `ts` begin with the signs and the operand. -/
structure Leads (signs operand ts : List Token) : Prop where
  unary : ∀ t ∈ signs, ∃ o, t.symbol = .operator (.unary o)
  single : Operand operand
  next : signs ++ operand <+: ts

theorem Leads.cons {signs operand ts : List Token} {t : Token} {o : UnaryOperator}
    (h : Leads signs operand ts) (ht : t.symbol = .operator (.unary o)) :
    Leads (t :: signs) operand (t :: ts) where
  unary := List.forall_mem_cons.2 ⟨⟨o, ht⟩, h.unary⟩
  single := h.single
  next := List.cons_prefix_cons.2 ⟨rfl, h.next⟩

/-- What is not covered closes the group around it: the first token that closes too much is a right
parenthesis after balanced tokens. Induction from the right. -/
theorem exists_closing {ts : List Token} (h : ¬ Covered ts) :
    ∃ body r rest, ts = body ++ r :: rest ∧ Balanced body ∧ isRight r = true := by
  induction ts using List.reverseRecOn with
  | nil => exact absurd balanced_nil.covered h
  | append_singleton ts t ih =>
    -- if the shorter list is covered, the last token is the one that closes too much
    by_cases hts : Covered ts
    · have hle := hts ts (List.prefix_refl ts)
      have hlt : opens (ts ++ [t]) < closes (ts ++ [t]) := by
        by_contra hle
        exact h (hts.concat (Nat.le_of_not_lt hle))
      have hright : isRight t = true := by
        by_contra hr
        have hnone : closes [t] = 0 := by simp [closes, hr]
        rw [opens_append, closes_append, hnone] at hlt
        omega
      refine ⟨ts, t, [], rfl, ⟨hts, ?_⟩, hright⟩
      rw [opens_append, closes_append, (opens_right hright).1, (opens_right hright).2] at hlt
      omega
    · obtain ⟨body, r, rest, rfl, hb, hr⟩ := ih hts
      exact ⟨body, r, rest ++ [t], by simp, hb, hr⟩

theorem Balanced.exists_group {us vs : List Token} {l : Token} (h : Balanced (us ++ l :: vs))
    (hl : isLeft l = true) : ∃ operand, Operand operand ∧ operand <+: l :: vs := by
  obtain ⟨body, r, rest, rfl, hb, hr⟩ := exists_closing (h.not_covered hl)
  exact ⟨l :: body ++ [r], .group hl hr hb, ⟨rest, by simp⟩⟩

/-- No operator is without an operand. Induction on the tokens after it, one case for each kind of
token that may come next. -/
theorem WellPlaced.exists_leads {us vs : List Token} {t : Token} {o : Operator}
    (h : WellPlaced (us ++ t :: vs)) (hk : ∀ v ∈ vs, v.Known) (ht : t.symbol = .operator o) :
    ∃ signs operand, Leads signs operand vs := by
  induction vs generalizing us t o with
  | nil =>
    have hno := h.ending t (by simp)
    simp [Token.operator?, ht, Symbol.operator?] at hno
  | cons v vs ih =>
    have hnext : [t, v] <:+: us ++ t :: v :: vs := ⟨us, vs, by simp⟩
    -- one case for each kind of token that may come next
    cases hv : v.symbol with
    | number n =>
      have hnum : isNumber v = true := by simp [isNumber, hv]
      exact ⟨[], [v], by simp, .number hnum, ⟨vs, rfl⟩⟩
    | operator w =>
      cases w with
      | unary w =>
        have hmoved : WellPlaced ((us ++ [t]) ++ v :: vs) := by simpa using h
        obtain ⟨signs, operand, hl⟩ := ih hmoved (fun w hw => hk w (by simp [hw])) hv
        exact ⟨v :: signs, operand, hl.cons hv⟩
      | binary w =>
        have hno := h.operator t v w hnext hv
        simp [ht, Symbol.opensOperand] at hno
    | paren side a =>
      cases side with
      | left =>
        have hb : Balanced ((us ++ [t]) ++ v :: vs) := by simpa using h.nesting
        obtain ⟨operand, ho, hprefix⟩ := hb.exists_group (isLeft_iff.2 ⟨a, hv⟩)
        exact ⟨[], operand, by simp, ho, hprefix⟩
      | right =>
        have hno := h.closing t v hnext (isRight_iff.2 ⟨a, hv⟩)
        simp [Token.operator?, ht, Symbol.operator?] at hno
    | other kind a => exact absurd hv (hk v (by simp) kind a)

theorem WellPlaced.inside {us body vs : List Token} {l r : Token}
    (h : WellPlaced (us ++ (l :: body ++ [r]) ++ vs)) (hl : isLeft l = true)
    (hr : isRight r = true) (hb : Balanced body) : WellPlaced body where
  nesting := hb
  sign u t o hut := h.sign u t o (hut.trans ⟨us ++ [l], r :: vs, by simp⟩)
  first := by
    intro t ht o ho
    obtain ⟨rest, rfl⟩ := List.head?_eq_some_iff.1 ht
    have hno := h.operator l t o ⟨us, rest ++ r :: vs, by simp⟩ ho
    obtain ⟨a, ha⟩ := isLeft_iff.1 hl
    simp [ha, Symbol.opensOperand] at hno
  operator u t o hut := h.operator u t o (hut.trans ⟨us ++ [l], r :: vs, by simp⟩)
  closing u t hut := h.closing u t (hut.trans ⟨us ++ [l], r :: vs, by simp⟩)
  ending := by
    intro u hu
    obtain ⟨rest, rfl⟩ := List.getLast?_eq_some_iff.1 hu
    exact h.closing u r ⟨us ++ l :: rest, vs, by simp⟩ hr

theorem WellPlaced.not_firstFault {ts : List Token} {k : FaultKind} {f : Fault}
    (h : WellPlaced ts) : ¬ FirstFault ts k f := by
  intro hf
  cases hf with
  | token hts hc ho => exact h.clear _ _ _ _ _ hts ho
  | ending hc hu ho => exact ho (h.ending _ hu)
  | unclosed hc he hts hl hopen hlast => exact (hts ▸ h.nesting).not_covered hl hopen

theorem WellPlaced.exists_ofInfix {ts : List Token} (h : WellPlaced ts)
    (hk : ∀ t ∈ ts, t.Known) : ∃ out, ofInfix ts = .ok out := by
  obtain ⟨out, hout, -⟩ | ⟨f, -, hf⟩ := ofInfix_cases hk
  · exact ⟨out, hout⟩
  · exact absurd hf h.not_firstFault

theorem Move.known {t : Token} {s s' : State} (h : Move t s s') : t.Known := by
  intro kind lexeme ht
  cases h <;> simp_all

theorem known_of_run {ts : List Token} {s s' : State} (h : run ts s = .ok s') :
    ∀ t ∈ ts, t.Known := by
  induction ts generalizing s with
  | nil => simp
  | cons t ts ih =>
    obtain ⟨s₁, hm, hr⟩ := run_cons_eq_ok h
    exact List.forall_mem_cons.2 ⟨hm.known, ih hr⟩

section Accepted
variable {ts out : List Token} (h : ofInfix ts = .ok out)
include h

theorem known_of_ofInfix : ∀ t ∈ ts, t.Known := by
  obtain ⟨s, hr, -⟩ := exists_run_of_ofInfix h
  exact known_of_run hr

theorem wellPlaced_of_ofInfix : WellPlaced ts := by
  obtain ⟨-, -, hw⟩ | ⟨f, hf, -⟩ := ofInfix_cases (known_of_ofInfix h)
  · exact hw
  · rw [h] at hf
    cases hf

theorem exists_leads {us vs : List Token} {t : Token} {o : Operator} (hts : ts = us ++ t :: vs)
    (ht : t.symbol = .operator o) : ∃ signs operand, Leads signs operand vs := by
  subst hts
  exact (wellPlaced_of_ofInfix h).exists_leads (fun v hv => known_of_ofInfix h v (by simp [hv])) ht

theorem Operand.exists_acts {us operand vs : List Token} (ho : Operand operand)
    (hts : ts = us ++ operand ++ vs) : ∃ out', ActsAsOperand operand out' := by
  subst hts
  cases ho with
  | number ht => exact ⟨_, actsAsOperand_number ht⟩
  | group hl hr hb =>
    have hw := (wellPlaced_of_ofInfix h).inside hl hr hb
    obtain ⟨out', hout⟩ := hw.exists_ofInfix fun t ht => known_of_ofInfix h t (by simp [ht])
    exact ⟨out', actsAsOperand_group hout hl hr⟩

end Accepted
end Reckoner.Postfix
