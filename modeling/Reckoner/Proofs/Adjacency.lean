import Reckoner.Proofs.Placement

/-! Adjacent operands. Tokens are neither lost nor made on the way to a value, so the numbers must
outweigh the operators of two operands by one. A seam is one number too many and an empty group is
one too few. Main statement: where operands are adjacent there is no value, unless the empty groups
are as many as the seams. -/
namespace Reckoner.Postfix

def isNumber (t : Token) : Bool :=
  match t.symbol with
  | .number _ => true
  | _ => false

def isParen (t : Token) : Bool := isLeft t || isRight t

def numbers (ts : List Token) : Nat := ts.countP isNumber

/-- A number, or a group with a number in it. -/
inductive ValuedOperand : List Token → Prop
  | number {t : Token} (ht : isNumber t = true) : ValuedOperand [t]
  | group {ts : List Token} {l r : Token} (hl : isLeft l = true) (hr : isRight r = true)
      (hb : Balanced ts) (hn : ∃ t ∈ ts, isNumber t = true) : ValuedOperand (l :: ts ++ [r])

/-- One operand with a number in it directly follows another. -/
def AdjacentOperands (ts : List Token) : Prop :=
  ∃ us a b vs, ts = us ++ a ++ b ++ vs ∧ ValuedOperand a ∧ ValuedOperand b

theorem numbers_append (ts us : List Token) : numbers (ts ++ us) = numbers ts + numbers us :=
  List.countP_append

theorem isParen_of_operator {t : Token} {o : Operator} (h : t.symbol = .operator o) :
    isParen t = false := by simp [isParen, isLeft, isRight, h]

theorem Move.perm {t : Token} {s s' : State} (h : Move t s s') (hs : s.Sound) :
    (s'.output ++ s'.waiting.filter (!isParen ·)).Perm
      (s.output ++ s.waiting.filter (!isParen ·) ++ [t].filter (!isParen ·)) := by
  rw [List.perm_iff_count]
  intro a
  cases h with
  | number n ht =>
    have hp : isParen t = false := by simp [isParen, isLeft, isRight, ht]
    simp [hp, List.count_cons]
    omega
  | left b ht =>
    have hp : isParen t = true := by simp [isParen, isLeft, ht]
    simp [hp]
  | right b above rest l ht hm hw ha hl =>
    have hp : isParen t = true := by simp [isParen, isRight, ht]
    have hpl : isParen l = true := by simp [isParen, hl]
    have habove : above.filter (!isParen ·) = above := List.filter_eq_self.2 fun w hmem => by
      obtain ⟨o, ho⟩ := hs.waits w (by simp [hw, hmem]) (ha w hmem)
      simp [isParen_of_operator ho]
    simp [hw, habove, hp, hpl]
    omega
  | sign o ht ho => simp [isParen_of_operator ht, List.count_cons]
  | operator o above rest ht ho hw ha hr =>
    have habove : above.filter (!isParen ·) = above := List.filter_eq_self.2 fun w hmem => by
      obtain ⟨v, hv⟩ := hs.waits w (by simp [hw, hmem]) (not_isLeft_of_leavesFor (ha w hmem))
      simp [isParen_of_operator hv]
    simp [hw, habove, isParen_of_operator ht, List.count_cons]
    omega

theorem perm_run {ts : List Token} {s : State} (h : run ts .start = .ok s) :
    (s.output ++ s.waiting.filter (!isParen ·)).Perm (ts.filter (!isParen ·)) := by
  induction ts using List.reverseRecOn generalizing s with
  | nil => obtain rfl := Except.ok.inj h; rfl
  | append_singleton ts t ih =>
    obtain ⟨s', hr, hm⟩ := run_concat_eq_ok h
    rw [List.filter_append]
    exact (hm.perm (State.sound_start.run hr)).trans ((ih hr).append_right _)

theorem Move.filter_output {t : Token} {s s' : State} (h : Move t s s') (hs : s.Sound) :
    s'.output.filter isNumber = [t].filter isNumber ++ s.output.filter isNumber := by
  have habove (above : List Token) (hw : ∀ w ∈ above, w ∈ s.waiting ∧ isLeft w = false) :
      above.reverse.filter isNumber = [] := filter_eq_nil fun w hmem => by
    obtain ⟨hwait, hleft⟩ := hw w (List.mem_reverse.1 hmem)
    obtain ⟨o, ho⟩ := hs.waits w hwait hleft
    simp [isNumber, ho]
  cases h with
  | number n ht => simp [isNumber, ht]
  | left b ht => simp [isNumber, ht]
  | right b above rest l ht hm hw ha hl =>
    rw [List.filter_append, habove above fun w h => ⟨by simp [hw, h], ha w h⟩]
    simp [isNumber, ht]
  | sign o ht ho => simp [isNumber, ht]
  | operator o above rest ht ho hw ha hr =>
    rw [List.filter_append,
      habove above fun w h => ⟨by simp [hw, h], not_isLeft_of_leavesFor (ha w h)⟩]
    simp [isNumber, ht]

theorem filter_output {ts : List Token} {s : State} (h : run ts .start = .ok s) :
    s.output.filter isNumber = (ts.filter isNumber).reverse := by
  induction ts using List.reverseRecOn generalizing s with
  | nil => obtain rfl := Except.ok.inj h; rfl
  | append_singleton ts t ih =>
    obtain ⟨s', hr, hm⟩ := run_concat_eq_ok h
    rw [hm.filter_output (State.sound_start.run hr), ih hr, List.filter_append, List.reverse_append]
    cases ht : isNumber t <;> simp [ht]

theorem perm_of_ofInfix {ts out : List Token} (h : ofInfix ts = .ok out) :
    out.Perm (ts.filter (!isParen ·)) := by
  obtain ⟨s, hr, hf⟩ := exists_run_of_ofInfix h
  obtain ⟨-, hleft, rfl⟩ := finish_eq_ok hf
  have hwait : s.waiting.filter (!isParen ·) = s.waiting := List.filter_eq_self.2 fun w hw => by
    obtain ⟨o, ho⟩ := (State.sound_start.run hr).waits w hw (hleft w hw)
    simp [isParen_of_operator ho]
  have hperm := perm_run hr
  rw [hwait] at hperm
  exact (s.output.reverse_perm.append_right _).trans hperm

theorem numbers_filter (ts : List Token) : numbers (ts.filter (!isParen ·)) = numbers ts := by
  rw [numbers, List.countP_filter]
  refine List.countP_congr fun t _ => ?_
  cases h : t.symbol <;> simp [isNumber, isParen, isLeft, isRight, h]

theorem binaries_filter (ts : List Token) : binaries (ts.filter (!isParen ·)) = binaries ts := by
  rw [binaries, List.countP_filter]
  refine List.countP_congr fun t _ => ?_
  cases h : t.symbol <;> simp [isParen, isLeft, isRight, h]

theorem length_of_push {t : Token} {values values' : List Decimal}
    (h : push t values = .ok values') :
    values'.length + binaries [t] = values.length + numbers [t] := by
  unfold push at h
  split at h
  next n ht =>
    obtain rfl := Except.ok.inj h
    simp [binaries, numbers, isNumber, ht]
  next o ht =>
    unfold applyTop at h
    split at h
    · obtain rfl := Except.ok.inj h
      simp [binaries, numbers, isNumber, ht]
    · next v b a rest =>
      cases hab : v.apply a b with
      | error e => rw [hab] at h; cases h
      | ok r =>
        rw [hab] at h
        obtain rfl := Except.ok.inj h
        simp [binaries, numbers, isNumber, ht]
    · cases h
  next => cases h

theorem length_of_pushAll {ts : List Token} {values values' : List Decimal}
    (h : pushAll ts values = .ok values') :
    values'.length + binaries ts = values.length + numbers ts := by
  induction ts generalizing values with
  | nil =>
    obtain rfl := Except.ok.inj h
    rfl
  | cons t ts ih =>
    simp only [pushAll] at h
    cases hp : push t values with
    | error e => rw [hp] at h; cases h
    | ok values₁ =>
      rw [hp] at h
      have hstep := length_of_push hp
      have hrest := ih h
      rw [← List.singleton_append, binaries_append, numbers_append]
      omega

theorem pushAll_of_evaluate {ts : List Token} {v : Decimal} (h : evaluate ts = .ok v) :
    pushAll ts [] = .ok [v] := by
  unfold evaluate at h
  cases hp : pushAll ts [] with
  | error e => rw [hp] at h; cases h
  | ok values =>
    rw [hp] at h
    match values, h with
    | [w], h => rw [Except.ok.inj h]

theorem numbers_of_value {ts out : List Token} {v : Decimal} (h : ofInfix ts = .ok out)
    (hv : evaluate out = .ok v) : numbers ts = binaries ts + 1 := by
  have hcount := length_of_pushAll (pushAll_of_evaluate hv)
  have hperm := perm_of_ofInfix h
  have hn : numbers out = numbers ts := (hperm.countP_eq isNumber).trans (numbers_filter ts)
  have hb : binaries out = binaries ts := (hperm.countP_eq _).trans (binaries_filter ts)
  simp only [List.length_singleton, List.length_nil] at hcount
  omega

theorem emptyGroup_of_right {s : State} {t : Token} (hs : s.Sound) (ht : isRight t = true)
    (hm : s.missingOperand? = none) (hl : s.last ≠ none) :
    (s.last.elim 0 fun u => if isEmptyGroup u t then 1 else 0) =
      if s.expectsOperand then 1 else 0 := by
  obtain ⟨u, hu⟩ := Option.ne_none_iff_exists'.1 hl
  cases hleft : isLeft u with
  | true =>
    have hopens : u.symbol.opensOperand = true := by
      cases hsym : u.symbol with
      | paren side a => cases side <;> simp_all [isLeft, Symbol.opensOperand]
      | _ => simp [isLeft, hsym] at hleft
    simp [hs.expects, hu, isEmptyGroup, hleft, ht, hopens]
  | false =>
    have he : s.expectsOperand = false := expects_false hs hl hm fun v hv => by
      rw [hu] at hv
      rwa [← Option.some.inj hv]
    simp [hu, isEmptyGroup, hleft, he]

theorem no_emptyGroup {t : Token} (ht : isRight t = false) (last : Option Token) :
    (last.elim 0 fun u => if isEmptyGroup u t then 1 else 0) = 0 := by
  cases last <;> simp [isEmptyGroup, ht]

theorem Move.accounts {t : Token} {s s' : State} (h : Move t s s') (hs : s.Sound) :
    numbers [t] + (s.last.elim 0 fun u => if isEmptyGroup u t then 1 else 0) +
        (if s'.expectsOperand then 1 else 0) =
      binaries [t] + (s.last.elim 0 fun u => if isSeam u t then 1 else 0) +
        if s.expectsOperand then 1 else 0 := by
  have hstart := seam_of_startsOperand hs (t := t)
  have hseam := no_seam (t := t)
  have hgroup := no_emptyGroup (t := t)
  cases h with
  | number n ht =>
    rw [← hstart (by simp [startsOperand, ht]), hgroup (by simp [isRight, ht])]
    cases s.expectsOperand <;> simp [numbers, isNumber, binaries, ht]
  | left a ht =>
    rw [← hstart (by simp [startsOperand, ht]), hgroup (by simp [isRight, ht])]
    cases s.expectsOperand <;> simp [numbers, isNumber, binaries, ht]
  | right b above rest l ht hm hw ha hl =>
    have hlast : s.last ≠ none := fun h => by simp [hs.fresh h] at hw
    have hright : isRight t = true := by simp [isRight, ht]
    rw [hseam (by simp [startsOperand, ht]), emptyGroup_of_right hs hright hm hlast]
    simp [numbers, isNumber, binaries, ht]
  | sign o ht ho =>
    rw [hseam (by simp [startsOperand, ht]), hgroup (by simp [isRight, ht])]
    simp [numbers, isNumber, binaries, ht, ho]
  | operator o above rest ht ho hw ha hr =>
    rw [hseam (by simp [startsOperand, ht]), hgroup (by simp [isRight, ht])]
    simp [numbers, isNumber, binaries, ht, ho]

theorem neighbours_concat (p : Token → Token → Bool) (ts : List Token) (t : Token) :
    neighbours p (ts ++ [t]) =
      neighbours p ts + ts.getLast?.elim 0 fun u => if p u t then 1 else 0 := by
  obtain rfl | ⟨us, u, rfl⟩ := List.eq_nil_or_concat ts
  · rfl
  · rw [List.concat_eq_append, List.append_assoc, List.singleton_append, neighbours_append_cons]
    simp [neighbours]

/-- The account of a whole run: induction from the right. -/
theorem accounts_run {ts : List Token} {s : State} (h : run ts .start = .ok s) :
    numbers ts + emptyGroups ts + (if s.expectsOperand then 1 else 0) =
      binaries ts + seams ts + 1 := by
  induction ts using List.reverseRecOn generalizing s with
  | nil => obtain rfl := Except.ok.inj h; rfl
  | append_singleton ts t ih =>
    obtain ⟨s', hr, hm⟩ := run_concat_eq_ok h
    have hstep := hm.accounts (State.sound_start.run hr)
    have hrest := ih hr
    rw [last_eq hr] at hstep
    rw [emptyGroups, seams, neighbours_concat, neighbours_concat, numbers_append, binaries_append]
    rw [emptyGroups, seams] at hrest
    omega

theorem emptyGroups_of_value {ts out : List Token} {v : Decimal} (h : ofInfix ts = .ok out)
    (hv : evaluate out = .ok v) : emptyGroups ts = seams ts := by
  have hcount := numbers_of_value h hv
  obtain ⟨s, hr, hf⟩ := exists_run_of_ofInfix h
  have haccounts := accounts_run hr
  -- a list with a value has a number in it, so some token came last
  have hlast : s.last ≠ none := by
    rw [last_eq hr]
    intro hnil
    rw [List.getLast?_eq_none_iff.1 hnil] at hcount
    cases hcount
  rw [expects_false_of_finish (State.sound_start.run hr) hlast hf] at haccounts
  simp only [Bool.false_eq_true, if_false] at haccounts
  omega

theorem ValuedOperand.starts {ts : List Token} (h : ValuedOperand ts) :
    ∃ t us, ts = t :: us ∧ startsOperand t = true := by
  cases h with
  | @number t ht =>
    refine ⟨t, [], rfl, ?_⟩
    cases hs : t.symbol <;> simp_all [isNumber, startsOperand]
  | @group ts l r hl =>
    refine ⟨l, ts ++ [r], rfl, ?_⟩
    unfold isLeft at hl
    split at hl
    · next hs => simp [startsOperand, hs]
    · cases hl

theorem ValuedOperand.ends {ts : List Token} (h : ValuedOperand ts) :
    ∃ us t, ts = us ++ [t] ∧ endsOperand t = true := by
  cases h with
  | @number t ht =>
    refine ⟨[], t, rfl, ?_⟩
    cases hs : t.symbol <;> simp_all [isNumber, endsOperand]
  | @group ts l r hl hr =>
    obtain ⟨b, hb⟩ := isRight_iff.1 hr
    exact ⟨l :: ts, r, rfl, by simp [endsOperand, hb]⟩

theorem AdjacentOperands.seams_pos {ts : List Token} (h : AdjacentOperands ts) : 0 < seams ts := by
  obtain ⟨us, a, b, vs, rfl, ha, hb⟩ := h
  obtain ⟨as, t, rfl, ht⟩ := ha.ends
  obtain ⟨u, bs, rfl, hu⟩ := hb.starts
  have hshape : us ++ (as ++ [t]) ++ u :: bs ++ vs = (us ++ as) ++ t :: u :: (bs ++ vs) := by simp
  rw [hshape, seams, neighbours_append_cons]
  simp only [isSeam, ht, hu, Bool.and_self, if_true]
  omega

/-- Adjacent operands never evaluate, unless as many empty groups make up for the values that are
too many. -/
theorem adjacent_operands {ts : List Token} (h : AdjacentOperands ts) :
    (∃ e, ofInfix ts >>= evaluate = .error e) ∨
      0 < emptyGroups ts ∧ emptyGroups ts = seams ts := by
  cases ho : ofInfix ts with
  | error e => exact .inl ⟨e, rfl⟩
  | ok out =>
    cases hv : evaluate out with
    | error e => exact .inl ⟨e, hv⟩
    | ok v =>
      have hequal := emptyGroups_of_value ho hv
      exact .inr ⟨hequal ▸ h.seams_pos, hequal⟩

theorem adjacent_operands_two_three :
    AdjacentOperands twoThree ∧ ∃ e, ofInfix twoThree >>= evaluate = .error e := by
  have hadj : AdjacentOperands twoThree :=
    ⟨[], [twoThree[0]], [twoThree[1]], [], rfl, .number rfl, .number rfl⟩
  refine ⟨hadj, (adjacent_operands hadj).resolve_right fun ⟨hpos, _⟩ => ?_⟩
  exact absurd hpos (by decide)

/-- In `2 3+()` the empty group stands for the second operand of the sum, and the sum takes the
surplus value in its place. -/
theorem adjacent_operands_with_value :
    ∃ ts, Token.scan "2 3+()" = .ok ts ∧ AdjacentOperands ts ∧
      ofInfix ts >>= evaluate = .ok ⟨false, 5, 0⟩ := by
  refine ⟨twoThree ++ [⟨.operator (.binary .add), some 3⟩, ⟨.paren .left "(", some 4⟩,
    ⟨.paren .right ")", some 5⟩], by decide +kernel, ?_, by decide +kernel⟩
  exact ⟨[], [twoThree[0]], [twoThree[1]], _, rfl, .number rfl, .number rfl⟩

end Reckoner.Postfix
