import Reckoner.Calculator
import Reckoner.Proofs.Rendering
import Reckoner.Proofs.Trees

/-! Culprits. Main statement: a fault with a position lies in the text, and the lexeme that it names
stands there; without a position are just the faults of operations and those of no value or too many
at the end. -/
namespace Reckoner

/-- `c.Names a`: the cause is told of a token, run or character that is spelt `a`. -/
inductive Cause.Names : Cause → String → Prop
  | number (a : String) (flaw : Numeral.Flaw) : Names (.malformedNumber a flaw) a
  | character (c : Char) (k : Nat) : Names (.unexpectedCharacter c k) (String.singleton c)
  | right : Names .unmatchedRight ")"
  | left : Names .unclosedLeft "("
  | operand (o : Operator) : Names (.missingOperand o.lexeme) o.lexeme
  | sign (o : UnaryOperator) :
      Names (.signAfterOperand (Operator.unary o).lexeme) (Operator.unary o).lexeme
  | operator (o : BinaryOperator) :
      Names (.operatorWithoutOperand (Operator.binary o).lexeme) (Operator.binary o).lexeme
  | values (o : Operator) : Names (.missingValues (Symbol.operator o).shown) o.lexeme

theorem isInfix_between (before a after : String) :
    a.toList <:+: (before ++ a ++ after).toList :=
  ⟨before.toList, after.toList, by simp⟩

theorem Cause.Names.isInfix_message {c : Cause} {a : String} (h : c.Names a) :
    a.toList <:+: c.message.toList := by
  cases h with
  | number a flaw =>
    cases flaw with
    | noDigit => exact isInfix_between "Invalid number '" a "': no digits"
    | manyPoints => exact isInfix_between "Invalid number '" a "': multiple decimal points"
    | foreign => exact isInfix_between "Invalid number '" a "'"
  | character c k =>
    have hmessage : (unexpectedCharacter c k).message =
        "Unexpected character '" ++ .singleton c ++ s!"' at position {k}" :=
      String.append_assoc
    exact hmessage ▸ isInfix_between ..
  | right | left => decide +kernel
  | operand o | values o => obtain o | o := o <;> cases o <;> decide +kernel
  | sign o | operator o => cases o <;> decide +kernel

namespace Fault

/-- The fault lies in the text at `i`: what it names begins there, and if it was found in scanning
the text before it can be scanned. -/
structure LiesAt (f : Fault) (text : String) (i : Nat) : Prop where
  position : f.position = some (i : Int)
  inside : i < text.length
  begins : ∃ a, f.cause.Names a ∧ a.toList <:+: f.message.toList ∧
    a.toList <+: text.toList.drop i
  index : ∀ c k, f.cause = .unexpectedCharacter c k → k = i
  scanned : f.kind.stage = .tokens →
    ∃ ts, Token.scan (String.ofList (text.toList.take i)) = .ok ts

/-- The fault names the token and lies where it stands. -/
structure Blames (f : Fault) (t : Token) : Prop where
  position : f.position = t.position
  names : f.cause.Names t.lexeme
  stage : f.kind.stage ≠ .tokens

end Fault

/-- The faults that are told of no place: that nothing or too much is left at the end, and those of
an operation on its operands. -/
inductive Fault.Unplaced (text : String) : Fault → Prop
  | noValue {f : Fault} (h : f.cause = .noValue) : Unplaced text f
  | surplus {f : Fault} {n : Nat} {shown : String} (h : f.cause = .surplusValues n shown) :
      Unplaced text f
  | operation {ts out : List Token} {f : Fault} (hts : Token.scan text = .ok ts)
      (hout : Postfix.ofInfix ts = .ok out) (h : Postfix.OperationFails out (.fault f)) :
      Unplaced text f

inductive Faulted (text : String) : Fault → Prop
  | scanning {i : Nat} {f : Fault} (h : Offence text.toList i f)
      (hfirst : ∀ j < i, ∀ g, ¬ Offence text.toList j g) : Faulted text f
  | placing {ts : List Token} {f : Fault} (hts : Token.scan text = .ok ts)
      (h : Postfix.FirstFault ts f.kind f) : Faulted text f
  | evaluating {ts out : List Token} {f : Fault} (hts : Token.scan text = .ok ts)
      (hout : Postfix.ofInfix ts = .ok out) (h : Postfix.evaluate out = .error (.fault f)) :
      Faulted text f

theorem evaluate_cases (text : Option String) :
    (∃ ts out, Token.scan (text.getD "") = .ok ts ∧ Postfix.ofInfix ts = .ok out ∧
      evaluate text = Postfix.evaluate out) ∨
      ∃ f, Faulted (text.getD "") f ∧ evaluate text = .error (.fault f) := by
  obtain ⟨ts, hts, -⟩ | ⟨i, f, hf, ho, hfirst⟩ := scan_outcome (text.getD "")
  · have hknown (t : Token) (ht : t ∈ ts) : t.Known :=
      ((segmented_of_scan hts).canonical t ht).known
    obtain ⟨out, hout, -⟩ | ⟨f, hf, hfirst⟩ := Postfix.ofInfix_cases hknown
    · refine .inl ⟨ts, out, hts, hout, ?_⟩
      simp only [evaluate, hts, mapError_ok, hout, bind, Except.bind]
    · refine .inr ⟨f, .placing hts hfirst, ?_⟩
      simp only [evaluate, hts, mapError_ok, hf, bind, Except.bind]
  · refine .inr ⟨f, .scanning ho hfirst, ?_⟩
    simp only [evaluate, hf, mapError_error, bind, Except.bind]

theorem faulted_of_evaluate {text : Option String} {f : Fault}
    (h : evaluate text = .error (.fault f)) : Faulted (text.getD "") f := by
  obtain ⟨ts, out, hts, hout, heval⟩ | ⟨g, hg, heval⟩ := evaluate_cases text
  · exact .evaluating hts hout (heval ▸ h)
  · obtain rfl := Failure.fault.inj (Except.error.inj (heval.symm.trans h))
    exact hg

namespace Token.Canonical
variable {t : Token}

theorem lexeme_ne_nil (h : t.Canonical) : t.lexeme.toList ≠ [] := by
  cases hn : Postfix.isNumber t with
  | true =>
    obtain ⟨n, hn⟩ := Token.exists_number hn
    rw [Token.toList_lexeme hn]
    exact n.chars_ne_nil
  | false =>
    obtain ⟨c, -, hc⟩ := h.exists_mark hn
    simp [hc]

theorem lexeme_left (h : t.Canonical) (hl : Postfix.isLeft t = true) : t.lexeme = "(" := by
  obtain ⟨a, ha⟩ := Postfix.isLeft_iff.1 hl
  rw [Canonical, ha] at h
  rw [Token.lexeme, ha, Symbol.lexeme, h]

theorem lexeme_right (h : t.Canonical) (hr : Postfix.isRight t = true) : t.lexeme = ")" := by
  obtain ⟨b, hb⟩ := Postfix.isRight_iff.1 hr
  rw [Canonical, hb] at h
  rw [Token.lexeme, hb, Symbol.lexeme, h]

end Token.Canonical

theorem Token.lexeme_of_operator {t : Token} {o : Operator} (h : t.symbol = .operator o) :
    t.lexeme = o.lexeme := by rw [lexeme, h, Symbol.lexeme]

theorem Fault.blames_missingOperand {t : Token} (h : t.operator? ≠ none) :
    (⟨.missingOperand t.lexeme, t.position⟩ : Fault).Blames t := by
  obtain ⟨o, ho⟩ := Token.exists_operator h
  refine ⟨rfl, ?_, nofun⟩
  rw [Token.lexeme_of_operator ho]
  exact .operand o

namespace Postfix

theorem Offends.exists_blames {ts : List Token} {t : Token} {k : FaultKind} {f : Fault}
    (ht : t.Canonical) (h : Offends ts t k f) : ∃ u ∈ ts ++ [t], f.Blames u := by
  cases h with
  | sign hs =>
    refine ⟨t, by simp, rfl, ?_, nofun⟩
    rw [Token.lexeme_of_operator hs]
    exact .sign _
  | operator hs =>
    refine ⟨t, by simp, rfl, ?_, nofun⟩
    rw [Token.lexeme_of_operator hs]
    exact .operator _
  | @missing u hr hu ho =>
    exact ⟨u, by simp [List.mem_of_getLast? hu], Fault.blames_missingOperand ho⟩
  | surplus hr =>
    refine ⟨t, by simp, rfl, ?_, nofun⟩
    rw [ht.lexeme_right hr]
    exact .right

theorem FirstFault.exists_blames {ts : List Token} {k : FaultKind} {f : Fault}
    (hc : ∀ t ∈ ts, t.Canonical) (h : FirstFault ts k f) : ∃ t ∈ ts, f.Blames t := by
  cases h with
  | @token us vs t _ _ hts _ ho =>
    obtain ⟨u, hu, hblames⟩ := ho.exists_blames (hc t (by simp [hts]))
    refine ⟨u, ?_, hblames⟩
    rw [hts, List.append_cons]
    exact List.mem_append_left vs hu
  | @ending u _ hu ho =>
    exact ⟨u, List.mem_of_getLast? hu, Fault.blames_missingOperand ho⟩
  | @unclosed us vs l _ _ hts hl _ _ =>
    have hmem : l ∈ ts := by simp [hts]
    refine ⟨l, hmem, rfl, ?_, nofun⟩
    rw [(hc l hmem).lexeme_left hl]
    exact .left

theorem number_or_operator {ts out : List Token} (hc : ∀ t ∈ ts, t.Canonical)
    (h : ofInfix ts = .ok out) {t : Token} (ht : t ∈ out) :
    t ∈ ts ∧ ((∃ n, t.symbol = .number n) ∨ ∃ o, t.symbol = .operator o) := by
  obtain ⟨hmem, hparen⟩ := List.mem_filter.1 ((perm_of_ofInfix h).mem_iff.1 ht)
  refine ⟨hmem, ?_⟩
  cases hs : t.symbol with
  | number n => exact .inl ⟨n, rfl⟩
  | operator o => exact .inr ⟨o, rfl⟩
  | paren side a => cases side <;> simp [isParen, isLeft, isRight, hs] at hparen
  | other kind a => exact absurd hs ((hc t hmem).known kind a)

theorem blames_of_evaluate {ts out : List Token} {f : Fault} (hc : ∀ t ∈ ts, t.Canonical)
    (hout : ofInfix ts = .ok out) (h : evaluate out = .error (.fault f)) :
    (∃ t ∈ ts, f.Blames t) ∨ f.position = none ∧ (f.cause = .noValue ∨
      (∃ n shown, f.cause = .surplusValues n shown) ∨ OperationFails out (.fault f)) := by
  obtain hrun | ⟨values, -, ⟨-, he⟩ | ⟨-, he⟩⟩ := evaluate_eq_error_iff.1 h
  · obtain ⟨before, t, after, values, hsplit, hbefore, hjams⟩ := pushAll_eq_error_iff.1 hrun
    obtain ⟨hmem, hsymbol⟩ := number_or_operator hc hout (t := t) (by simp [hsplit])
    -- the token at which the run stops is blamed only if it lacks values
    cases hjams with
    | operation ht hab =>
      exact .inr ⟨(BinaryOperator.isArithmetic_of_apply hab).1,
        .inr (.inr ⟨before, t, after, _, _, _, _, hsplit, ht, hbefore, hab⟩)⟩
    | @missing o _ ht _ =>
      refine .inl ⟨t, hmem, rfl, ?_, nofun⟩
      rw [Token.lexeme_of_operator ht, Token.shown, ht]
      exact .values o
    | stray hn ho =>
      obtain ⟨n, h⟩ | ⟨o, h⟩ := hsymbol
      · exact absurd h (hn n)
      · exact absurd h (ho o)
  · obtain rfl := Failure.fault.inj he
    exact .inr ⟨rfl, .inl rfl⟩
  · obtain rfl := Failure.fault.inj he
    exact .inr ⟨rfl, .inr (.inl ⟨_, _, rfl⟩)⟩

end Postfix

theorem Fault.Blames.exists_liesAt {text : String} {ts : List Token} {t : Token} {f : Fault}
    (hts : Token.scan text = .ok ts) (ht : t ∈ ts) (h : f.Blames t) : ∃ i, f.LiesAt text i := by
  have hsegments := segmented_of_scan hts
  obtain ⟨i, hi, hslice⟩ := hsegments.slices t ht
  have hprefix : t.lexeme.toList <+: text.toList.drop i := hslice ▸ List.take_prefix _ _
  refine ⟨i, h.position.trans hi, ?_, ⟨t.lexeme, h.names, h.names.isInfix_message, hprefix⟩,
    fun c k hk => ?_, fun hs => absurd hs h.stage⟩
  · have hpos := List.length_pos_of_ne_nil (hsegments.canonical t ht).lexeme_ne_nil
    have hle := hprefix.length_le
    rw [List.length_drop] at hle
    rw [← String.length_toList]
    omega
  · have hstage := h.stage
    rw [Fault.kind, hk] at hstage
    exact absurd rfl hstage

theorem scan_take {cs : List Char} {i : Nat} {f : Fault} (h : Offence cs i f)
    (hfirst : ∀ j < i, ∀ g, ¬ Offence cs j g) :
    ∃ ts, Token.scan (String.ofList (cs.take i)) = .ok ts := by
  obtain ⟨ts, hts, -⟩ | ⟨j, g, -, hg, -⟩ := scan_outcome (String.ofList (cs.take i))
  · exact ⟨ts, hts⟩
  obtain ⟨l, hl, rfl, -⟩ := offence_iff.1 h
  obtain ⟨us, vs, rfl, hs⟩ := Lexeme.mem_split.1 hl
  rw [hs.position_eq, List.append_assoc] at *
  rw [String.toList_ofList, List.take_left] at hg
  obtain ⟨m, hm, rfl, hread⟩ := offence_iff.1 hg
  have hmem : m ∈ Lexeme.split 0 (us ++ (l.chars ++ vs)) := by
    rw [Lexeme.split_append hs.apart]
    exact List.mem_append_left _ hm
  exact absurd (offence_iff.2 ⟨m, hmem, rfl, hread⟩)
    (hfirst m.position (Lexeme.position_lt_of_mem_split hm) g)

theorem Offence.liesAt {text : String} {i : Nat} {f : Fault} (h : Offence text.toList i f)
    (hfirst : ∀ j < i, ∀ g, ¬ Offence text.toList j g) : f.LiesAt text i := by
  have inside : i < text.length := by
    obtain ⟨l, hl, rfl, -⟩ := offence_iff.1 h
    exact String.length_toList ▸ Lexeme.position_lt_of_mem_split hl
  have scanned := scan_take h hfirst
  cases h with
  | @character us vs c hcs hc =>
    have hnames := Cause.Names.character c us.length
    refine ⟨rfl, inside, ⟨_, hnames, hnames.isInfix_message, ?_⟩, fun _ _ h => ?_,
      fun _ => scanned⟩
    · rw [hcs, List.drop_left, String.toList_singleton]
      exact List.prefix_append [c] vs
    · injection h with _ h
      exact h.symm
  | noDigit hcs | manyPoints hcs =>
    refine ⟨rfl, inside, ⟨_, .number _ _, (Cause.Names.number _ _).isInfix_message, ?_⟩, nofun,
      fun _ => scanned⟩
    rw [hcs, List.append_assoc, List.drop_left, String.toList_ofList]
    exact List.prefix_append _ _

theorem Fault.LiesAt.not_unplaced {text : String} {f : Fault} {i : Nat} (hi : f.LiesAt text i) :
    ¬ f.Unplaced text := by
  obtain ⟨a, ha, -⟩ := hi.begins
  intro h
  cases h with
  | noValue h => rw [h] at ha; cases ha
  | surplus h => rw [h] at ha; cases ha
  | operation _ _ h =>
    have hnone : f.position = none := h.isArithmetic.1
    cases hi.position.symm.trans hnone

theorem Faulted.liesAt_or_unplaced {text : String} {f : Fault} (h : Faulted text f) :
    (∃ i, f.LiesAt text i) ∨ f.position = none ∧ f.Unplaced text := by
  cases h with
  | scanning h hfirst => exact .inl ⟨_, h.liesAt hfirst⟩
  | placing hts h =>
    obtain ⟨t, ht, hblames⟩ := h.exists_blames (segmented_of_scan hts).canonical
    exact .inl (hblames.exists_liesAt hts ht)
  | evaluating hts hout h =>
    have hc := (segmented_of_scan hts).canonical
    obtain ⟨t, ht, hblames⟩ | ⟨hnone, hf | ⟨n, shown, hf⟩ | hf⟩ :=
      Postfix.blames_of_evaluate hc hout h
    · exact .inl (hblames.exists_liesAt hts ht)
    · exact .inr ⟨hnone, .noValue hf⟩
    · exact .inr ⟨hnone, .surplus hf⟩
    · exact .inr ⟨hnone, .operation hts hout hf⟩

theorem Faulted.getElem?_of_character {text : String} {f : Fault} {c : Char} {p : Nat}
    (h : Faulted text f) (hf : f.cause = .unexpectedCharacter c p) : text.toList[p]? = some c := by
  obtain ⟨i, hi⟩ | ⟨-, hu⟩ := h.liesAt_or_unplaced
  · obtain ⟨a, ha, -, hprefix⟩ := hi.begins
    obtain rfl := hi.index c p hf
    rw [hf] at ha
    cases ha
    obtain ⟨rest, hrest⟩ := hprefix
    rw [← Nat.add_zero p, ← List.getElem?_drop, ← hrest, String.toList_singleton]
    rfl
  · cases hu with
    | noValue h | surplus h => cases hf.symm.trans h
    | operation _ _ h =>
      have harithmetic : f.kind.isArithmetic = true := h.isArithmetic.2
      rw [Fault.kind, hf] at harithmetic
      cases harithmetic

/-- The place of a fault is that of the lexeme that it names, and only a fault that names none has
no place. -/
theorem fault_liesAt {text : Option String} {f : Fault}
    (h : evaluate text = .error (.fault f)) :
    (∀ p, f.position = some p → ∃ i : Nat, p = i ∧ f.LiesAt (text.getD "") i) ∧
      (f.position = none ↔ f.Unplaced (text.getD "")) := by
  obtain ⟨i, hi⟩ | ⟨hnone, hf⟩ := (faulted_of_evaluate h).liesAt_or_unplaced
  · refine ⟨fun p hp => ⟨i, Option.some.inj (hp.symm.trans hi.position), hi⟩, fun hnone => ?_,
      fun hf => absurd hf hi.not_unplaced⟩
    cases hi.position.symm.trans hnone
  · exact ⟨fun p hp => absurd (hnone.symm.trans hp) nofun, fun _ => hf, fun _ => hnone⟩

/-- The sign is blamed, and not the parenthesis behind it. -/
theorem fault_liesAt_sign_before_parenthesis :
    evaluate (some "2 * (3 -+)") = .error (.fault ⟨.missingOperand "+", some 8⟩) ∧
      (⟨.missingOperand "+", some 8⟩ : Fault).LiesAt "2 * (3 -+)" 8 := by
  have h : evaluate (some "2 * (3 -+)") = .error (.fault ⟨.missingOperand "+", some 8⟩) := by
    decide +kernel
  obtain ⟨i, hi, hlies⟩ := (fault_liesAt h).1 8 rfl
  obtain rfl : i = 8 := by omega
  exact ⟨h, hlies⟩

end Reckoner
