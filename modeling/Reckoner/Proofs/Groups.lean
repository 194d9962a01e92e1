import Reckoner.Proofs.Adjacency

/-! Groups. Tokens in parentheses see nothing of what went before them, and what comes after them
sees nothing of how they were made. Main statement: wherever a number may stand, so may any accepted
tokens in parentheses, and in postfix order they take the place of the number. -/
namespace Reckoner.Postfix

/-- `Enclosed ts us`: the tokens `us` are `ts` in one or more pairs of parentheses. -/
inductive Enclosed (ts : List Token) : List Token → Prop
  | once {l r : Token} (hl : isLeft l = true) (hr : isRight r = true) : Enclosed ts (l :: ts ++ [r])
  | again {us : List Token} {l r : Token} (h : Enclosed ts us) (hl : isLeft l = true)
      (hr : isRight r = true) : Enclosed ts (l :: us ++ [r])

namespace State

def atop (s f : State) : State :=
  ⟨s.output ++ f.output, s.waiting ++ f.waiting, s.expectsOperand, s.last.or f.last⟩

/-- Nothing can be taken down from the state, except by a right parenthesis. -/
structure Shut (f : State) : Prop where
  waiting : ∀ w ∈ f.waiting.head?, isLeft w = true
  last : ∀ u ∈ f.last, u.operator? = none

theorem Shut.missingOperand?_atop {f : State} (hf : f.Shut) (s : State) :
    (s.atop f).missingOperand? = s.missingOperand? := by
  cases hs : s.last with
  | some u => simp [missingOperand?, atop, hs]
  | none =>
    cases hl : f.last with
    | none => simp [missingOperand?, atop, hs, hl]
    | some u => simp [missingOperand?, atop, hs, hl, hf.last u hl]

end State

theorem leavesFor_of_isLeft {o : Operator} {w : Token} (h : isLeft w = true) :
    leavesFor o w = false :=
  Bool.eq_false_iff.2 fun hw => by
    rw [not_isLeft_of_leavesFor hw] at h
    cases h

theorem Move.atop {t : Token} {s s' f : State} (h : Move t s s') (hf : f.Shut) :
    Move t (s.atop f) (s'.atop f) := by
  have hlast := hf.missingOperand?_atop s
  cases h with
  | number n ht => exact .number n ht
  | left a ht => exact .left a ht
  | right b above rest l ht hm hw ha hl =>
    have hmove := Move.right (s := s.atop f) b above (rest ++ f.waiting) l ht (hlast.trans hm)
      (by simp [State.atop, hw]) ha hl
    simpa [State.atop] using hmove
  | sign o ht hs => exact .sign o ht hs
  | operator o above rest ht hs hw ha hr =>
    have hrest : ∀ w ∈ (rest ++ f.waiting).head?, leavesFor (.binary o) w = false := by
      intro w hmem
      cases rest with
      | nil => exact leavesFor_of_isLeft (hf.waiting w hmem)
      | cons v rest => exact hr w hmem
    have hmove := Move.operator (s := s.atop f) o above (rest ++ f.waiting) ht hs
      (by simp [State.atop, hw]) ha hrest
    simpa [State.atop] using hmove

theorem run_atop {ts : List Token} {s s' f : State} (h : run ts s = .ok s') (hf : f.Shut) :
    run ts (s.atop f) = .ok (s'.atop f) := by
  induction ts generalizing s with
  | nil => obtain rfl := Except.ok.inj h; rfl
  | cons t ts ih =>
    obtain ⟨s₁, hm, hr⟩ := run_cons_eq_ok h
    simp only [run, (hm.atop hf).step_eq]
    exact ih hr

/-- The tokens `us` are one operand to every state: the tokens `out` are put out, and all that waits
stays. -/
def ActsAsOperand (us out : List Token) : Prop :=
  ∀ s : State, ∃ r, r.operator? = none ∧
    run us s = .ok ⟨out.reverse ++ s.output, s.waiting, false, some r⟩

theorem actsAsOperand_number {n : Token} (hn : isNumber n = true) : ActsAsOperand [n] [n] := by
  intro s
  cases hs : n.symbol with
  | number m =>
    exact ⟨n, by simp [Token.operator?, hs, Symbol.operator?],
      by simp [run, step, hs, bind, Except.bind]⟩
  | _ => simp [isNumber, hs] at hn

/-- The tokens of a group are run as from the start, on top of the state in which its left
parenthesis waits; the right one puts out what is left of them. -/
theorem actsAsOperand_group {ts out : List Token} {l r : Token} (h : ofInfix ts = .ok out)
    (hl : isLeft l = true) (hr : isRight r = true) : ActsAsOperand (l :: ts ++ [r]) out := by
  intro s
  obtain ⟨s₁, hts, hf⟩ := exists_run_of_ofInfix h
  obtain ⟨hm, hleft, rfl⟩ := finish_eq_ok hf
  obtain ⟨a, ha⟩ := isLeft_iff.1 hl
  obtain ⟨b, hb⟩ := isRight_iff.1 hr
  have hshut : (State.mk s.output (l :: s.waiting) true (some l)).Shut :=
    ⟨by simp [hl], by simp [Token.operator?, ha, Symbol.operator?]⟩
  have hopen : step l s = .ok (State.start.atop ⟨s.output, l :: s.waiting, true, some l⟩) :=
    (Move.left (s := s) a ha).step_eq
  -- the group is run on top of its own left parenthesis, which nothing takes down
  have hrun := run_atop hts hshut
  have hclose := Move.right b s₁.waiting s.waiting l hb ((hshut.missingOperand?_atop s₁).trans hm)
    rfl hleft hl
  refine ⟨r, by simp [Token.operator?, hb, Symbol.operator?], ?_⟩
  rw [List.cons_append, run, hopen]
  change run (ts ++ [r]) _ = _
  rw [run_append, hrun]
  change step r _ >>= run [] = _
  rw [hclose.step_eq]
  simp [State.atop, run, bind, Except.bind]

theorem ActsAsOperand.ofInfix_eq {us out : List Token} (h : ActsAsOperand us out) :
    ofInfix us = .ok out := by
  obtain ⟨r, hr, hrun⟩ := h .start
  rw [ofInfix_of_run hrun]
  simp [finish, State.missingOperand?, State.start, hr]

theorem Enclosed.actsAsOperand {ts us out : List Token} (he : Enclosed ts us)
    (h : ofInfix ts = .ok out) : ActsAsOperand us out := by
  induction he with
  | once hl hr => exact actsAsOperand_group h hl hr
  | again _ hl hr ih => exact actsAsOperand_group ih.ofInfix_eq hl hr

/-! What has gone out is not looked at again. -/

section Beneath
variable {f : State} (hw : f.waiting = []) (hl : ∀ u ∈ f.last, u.operator? = none)
include hw

theorem close_atop (t : Token) (s : State) : close t (s.atop f) = (close t s).map (·.atop f) := by
  simp only [close, State.atop, hw, List.append_nil]
  cases s.waiting.dropWhile (!isLeft ·) with
  | nil => rfl
  | cons w rest => simp [Except.map]

include hl

theorem missingOperand?_atop (s : State) : (s.atop f).missingOperand? = s.missingOperand? :=
  State.Shut.missingOperand?_atop ⟨by simp [hw], hl⟩ s

theorem step_atop (t : Token) (s : State) : step t (s.atop f) = (step t s).map (·.atop f) := by
  have hm := missingOperand?_atop hw hl s
  cases ht : t.symbol with
  | number n => simp [step, ht, Except.map, State.atop]
  | operator o =>
    cases he : s.expectsOperand <;> cases o <;> simp [step, ht, he, Except.map, State.atop, hw]
  | paren side a =>
    cases side with
    | left => simp [step, ht, Except.map, State.atop]
    | right =>
      simp only [step, ht, hm]
      cases s.missingOperand? with
      | none => exact close_atop hw t s
      | some g => rfl
  | other kind a => simp [step, ht, Except.map]

theorem run_atop_eq (ts : List Token) (s : State) :
    run ts (s.atop f) = (run ts s).map (·.atop f) := by
  induction ts generalizing s with
  | nil => rfl
  | cons t ts ih =>
    simp only [run, step_atop hw hl t s]
    cases step t s with
    | error e => rfl
    | ok s' => exact ih s'

theorem finish_atop (s : State) :
    finish (s.atop f) = (finish s).map (f.output.reverse ++ ·) := by
  simp only [finish, missingOperand?_atop hw hl s]
  cases s.missingOperand? with
  | some g => rfl
  | none =>
    simp only [State.atop, hw, List.append_nil]
    cases s.waiting.find? isLeft <;> simp [Except.map]

theorem run_finish_atop (ts : List Token) (s : State) :
    run ts (s.atop f) >>= finish = (run ts s >>= finish).map (f.output.reverse ++ ·) := by
  rw [run_atop_eq hw hl]
  cases run ts s with
  | error e => rfl
  | ok s' => exact finish_atop hw hl s'

end Beneath

theorem finish_after_operand (ys output waiting : List Token) {u : Token}
    (hu : u.operator? = none) :
    run ys ⟨output, waiting, false, some u⟩ >>= finish =
      (run ys ⟨[], waiting, false, none⟩ >>= finish).map (output.reverse ++ ·) := by
  have hatop := run_finish_atop (f := ⟨output, [], false, some u⟩) rfl (by simpa using hu) ys
    ⟨[], waiting, false, none⟩
  simpa [State.atop] using hatop

theorem numbers_output {ts : List Token} {s : State} (h : run ts .start = .ok s) :
    numbers s.output = numbers ts := by
  rw [numbers, numbers, List.countP_eq_length_filter, List.countP_eq_length_filter,
    filter_output h, List.length_reverse]

theorem split_unique {n : Token} (hn : isNumber n = true) {as bs as' bs' : List Token}
    (h : as ++ n :: bs = as' ++ n :: bs') (hcount : numbers as = numbers as') :
    as = as' ∧ bs = bs' := by
  obtain ⟨ws, rfl, hws⟩ | ⟨ws, rfl, hws⟩ := List.append_eq_append_iff.1 h
  all_goals
    cases ws with
    | nil => simpa [eq_comm] using hws
    | cons w ws =>
      obtain ⟨rfl, -⟩ := List.cons.inj hws
      simp [numbers, hn] at hcount

theorem ActsAsOperand.ofInfix_between {us out : List Token} (h : ActsAsOperand us out)
    {xs : List Token} {s : State} (hxs : run xs .start = .ok s) (ys : List Token) :
    ofInfix (xs ++ us ++ ys) = (run ys ⟨[], s.waiting, false, none⟩ >>= finish).map
      ((s.output.reverse ++ out) ++ ·) := by
  obtain ⟨r, hr, hus⟩ := h s
  have hrun : run (xs ++ us ++ ys) .start =
      run ys ⟨out.reverse ++ s.output, s.waiting, false, some r⟩ := by
    rw [List.append_assoc, run_append, hxs]
    change run (us ++ ys) s = _
    rw [run_append, hus]
    rfl
  rw [ofInfix, hrun, finish_after_operand ys _ _ hr]
  simp

/-- Between any tokens that are accepted with a number between them every operand is put out in the
same place. -/
theorem exists_place {xs ys all : List Token} {n : Token} (hn : isNumber n = true)
    (h : ofInfix (xs ++ n :: ys) = .ok all) : ∃ before after,
      numbers before = numbers xs ∧ ∀ us out, ActsAsOperand us out →
        ofInfix (xs ++ us ++ ys) = .ok (before ++ out ++ after) := by
  obtain ⟨s', hall, -⟩ := exists_run_of_ofInfix h
  obtain ⟨s, hxs, -⟩ := run_append_eq_ok hall
  have hnumber := (actsAsOperand_number hn).ofInfix_between hxs ys
  rw [List.append_assoc, List.singleton_append, h] at hnumber
  cases hafter : run ys ⟨[], s.waiting, false, none⟩ >>= finish with
  | error e => rw [hafter] at hnumber; cases hnumber
  | ok after =>
    refine ⟨s.output.reverse, after, ?_, fun us out hus => ?_⟩
    · rw [← numbers_output hxs]
      exact s.output.reverse_perm.countP_eq isNumber
    · rw [hus.ofInfix_between hxs, hafter]
      rfl

/-- Accepted tokens in parentheses are accepted, in the same postfix order. Between any tokens that
are accepted with a number between them they are accepted too, and they are put out in the place of
the number: the only one with as many numbers before it, and the one that any other number would
have. -/
theorem ofInfix_enclosed {ts us out : List Token} (h : ofInfix ts = .ok out)
    (he : Enclosed ts us) : ofInfix us = .ok out ∧
      ∀ (xs ys all : List Token) (n : Token), isNumber n = true →
        ofInfix (xs ++ n :: ys) = .ok all → ∃ before after,
          (∀ b a, all = b ++ n :: a ∧ numbers b = numbers xs ↔ b = before ∧ a = after) ∧
          (∀ m, isNumber m = true → ofInfix (xs ++ m :: ys) = .ok (before ++ m :: after)) ∧
          ofInfix (xs ++ us ++ ys) = .ok (before ++ out ++ after) := by
  have hus := he.actsAsOperand h
  refine ⟨hus.ofInfix_eq, fun xs ys all n hn hall => ?_⟩
  obtain ⟨before, after, hcount, hplace⟩ := exists_place hn hall
  have hnumber (m : Token) (hm : isNumber m = true) :
      ofInfix (xs ++ m :: ys) = .ok (before ++ m :: after) := by
    simpa using hplace [m] [m] (actsAsOperand_number hm)
  obtain rfl : all = before ++ n :: after := Except.ok.inj (hall.symm.trans (hnumber n hn))
  refine ⟨before, after, fun b a => ⟨fun ⟨heq, hb⟩ => ?_, ?_⟩, hnumber, hplace us out hus⟩
  · exact split_unique hn heq.symm (hb.trans hcount.symm)
  · rintro ⟨rfl, rfl⟩
    exact ⟨rfl, hcount⟩

def doublyEnclosed : List Token :=
  ⟨.paren .left "(", some 3⟩ :: (⟨.paren .left "(", some 4⟩ :: twoThree ++
    [⟨.paren .right ")", some 8⟩]) ++ [⟨.paren .right ")", some 9⟩]

/-- In `2^-((2 3))*4` the adjacent operands in parentheses take the place of the `3` in
`2^-3*4`. -/
theorem ofInfix_enclosed_signedExponent :
    ofInfix twoThree = .ok twoThree ∧ Enclosed twoThree doublyEnclosed ∧
      ofInfix doublyEnclosed = .ok twoThree ∧
      ofInfix (Derives.signedExponent.take 3 ++ doublyEnclosed ++ Derives.signedExponent.drop 4) =
        .ok (Derives.signedExponentTree.postorder.take 1 ++ twoThree ++
          Derives.signedExponentTree.postorder.drop 2) := by
  have he : Enclosed twoThree doublyEnclosed := .again (.once rfl rfl) rfl rfl
  obtain ⟨halone, hbetween⟩ := ofInfix_enclosed rfl he
  obtain ⟨before, after, hplace, -, hout⟩ := hbetween (Derives.signedExponent.take 3)
    (Derives.signedExponent.drop 4) Derives.signedExponentTree.postorder Derives.signedExponent[3]
    rfl Derives.derives_signedExponent.ofInfix
  obtain ⟨rfl, rfl⟩ := (hplace (Derives.signedExponentTree.postorder.take 1)
    (Derives.signedExponentTree.postorder.drop 2)).1 ⟨rfl, rfl⟩
  exact ⟨rfl, he, halone, hout⟩

end Reckoner.Postfix
