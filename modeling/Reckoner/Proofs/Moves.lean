import Mathlib.Data.List.TakeWhile
import Reckoner.Postfix
import Reckoner.Proofs.Basic

/-! The moves towards postfix order as a relation, one rule for each kind of token, and what every
state keeps that is reached by moves. -/
namespace Reckoner.Postfix

def isRight (t : Token) : Bool :=
  match t.symbol with
  | .paren .right _ => true
  | _ => false

theorem isRight_iff {t : Token} : isRight t = true ↔ ∃ b, t.symbol = .paren .right b := by
  unfold isRight
  split <;> simp_all

theorem isLeft_iff {t : Token} : isLeft t = true ↔ ∃ a, t.symbol = .paren .left a := by
  unfold isLeft
  split <;> simp_all

theorem eq_mk {t : Token} {x : Symbol} (h : t.symbol = x) : t = ⟨x, t.position⟩ := by rw [← h]

def endsOperand (t : Token) : Bool :=
  match t.symbol with
  | .number _ | .paren .right _ => true
  | _ => false

/-- `Move t s s'`: the token `t` is allowed in `s` and leads to `s'`. -/
inductive Move (t : Token) (s : State) : State → Prop
  | number (n : Numeral) (ht : t.symbol = .number n) :
      Move t s ⟨t :: s.output, s.waiting, false, some t⟩
  | left (a : String) (ht : t.symbol = .paren .left a) :
      Move t s ⟨s.output, t :: s.waiting, true, some t⟩
  | right (b : String) (above rest : List Token) (l : Token) (ht : t.symbol = .paren .right b)
      (hm : s.missingOperand? = none) (hw : s.waiting = above ++ l :: rest)
      (ha : ∀ w ∈ above, isLeft w = false) (hl : isLeft l = true) :
      Move t s ⟨above.reverse ++ s.output, rest, false, some t⟩
  | sign (o : UnaryOperator) (ht : t.symbol = .operator (.unary o))
      (hs : s.expectsOperand = true) :
      Move t s ⟨s.output, t :: s.waiting, true, some t⟩
  | operator (o : BinaryOperator) (above rest : List Token)
      (ht : t.symbol = .operator (.binary o)) (hs : s.expectsOperand = false)
      (hw : s.waiting = above ++ rest) (ha : ∀ w ∈ above, leavesFor (.binary o) w = true)
      (hr : ∀ w ∈ rest.head?, leavesFor (.binary o) w = false) :
      Move t s ⟨above.reverse ++ s.output, t :: rest, true, some t⟩

theorem Move.step_eq {t : Token} {s s' : State} (h : Move t s s') : step t s = .ok s' := by
  cases h with
  | number n ht => simp [step, ht]
  | left a ht => simp [step, ht]
  | right b above rest l ht hm hw ha hl =>
    have hall : ∀ w ∈ above, (!isLeft w) = true := fun w h => by simp [ha w h]
    have hhead : ∀ w ∈ (l :: rest).head?, (!isLeft w) = false := by simp [hl]
    obtain ⟨htake, hdrop⟩ := takeWhile_append_of_head (!isLeft ·) hall hhead
    simp only [step, ht, hm, close, hw, htake, hdrop]
  | sign o ht hs => simp [step, ht, hs]
  | operator o above rest ht hs hw ha hr =>
    obtain ⟨htake, hdrop⟩ := takeWhile_append_of_head _ ha hr
    simp [step, ht, hs, hw, htake, hdrop]

theorem Move.of_step {t : Token} {s s' : State} (h : step t s = .ok s') : Move t s s' := by
  unfold step at h
  split at h
  next n ht => obtain rfl := Except.ok.inj h; exact .number n ht
  next a ht => obtain rfl := Except.ok.inj h; exact .left a ht
  next b ht =>
    split at h
    · cases h
    next hm =>
      have hw := (List.takeWhile_append_dropWhile (p := (!isLeft ·)) (l := s.waiting)).symm
      have hhead := head_dropWhile (!isLeft ·) s.waiting
      unfold close at h
      split at h
      · cases h
      next l rest hd =>
        obtain rfl := Except.ok.inj h
        rw [hd] at hw hhead
        exact .right b _ rest l ht hm hw (fun w hw => by simpa using List.mem_takeWhile_imp hw)
          (by simpa using hhead l rfl)
  next o ht =>
    split at h
    next hs =>
      obtain rfl := Except.ok.inj h
      have hmove := Move.sign (t := t) (s := s) o ht hs
      rwa [← hs] at hmove
    · cases h
  next o ht =>
    split at h
    · cases h
    next hs =>
      obtain rfl := Except.ok.inj h
      exact .operator o _ _ ht (by simpa using hs)
        (List.takeWhile_append_dropWhile (p := leavesFor (.binary o)) (l := s.waiting)).symm
        (fun _ => List.mem_takeWhile_imp) (head_dropWhile _ _)
  next => cases h

theorem run_cons_eq_ok {t : Token} {ts : List Token} {s s'' : State}
    (h : run (t :: ts) s = .ok s'') : ∃ s', Move t s s' ∧ run ts s' = .ok s'' := by
  simp only [run] at h
  cases hs : step t s with
  | error f => rw [hs] at h; cases h
  | ok s' => rw [hs] at h; exact ⟨s', .of_step hs, h⟩

/-- What every state keeps: operators and left parentheses wait, an operand is expected at the start
and after what opens one, and a left parenthesis just read is still waiting. -/
structure State.Sound (s : State) : Prop where
  waits : ∀ w ∈ s.waiting, isLeft w = false → ∃ o, w.symbol = .operator o
  expects : s.expectsOperand = s.last.elim true (·.symbol.opensOperand)
  ends : ∀ t ∈ s.last, endsOperand t = !t.symbol.opensOperand
  fresh : s.last = none → s.waiting = []
  opened : ∀ t ∈ s.last, isLeft t = true → t ∈ s.waiting

theorem State.sound_start : State.start.Sound :=
  ⟨by simp [start], rfl, by simp [start], fun _ => rfl, by simp [start]⟩

theorem Move.sound {t : Token} {s s' : State} (h : Move t s s') (hs : s.Sound) : s'.Sound := by
  cases h with
  | number n ht =>
    exact ⟨hs.waits, by simp [ht, Symbol.opensOperand], by simp [ht, endsOperand,
      Symbol.opensOperand], by simp, by simp [ht, isLeft]⟩
  | left a ht =>
    refine ⟨?_, by simp [ht, Symbol.opensOperand], by simp [ht, endsOperand,
      Symbol.opensOperand], by simp, by simp⟩
    intro w hw hl
    rcases List.mem_cons.1 hw with rfl | hw
    · simp [isLeft, ht] at hl
    · exact hs.waits w hw hl
  | right b above rest l ht hm hw ha hl =>
    refine ⟨fun w h => hs.waits w (by simp [hw, h]), by simp [ht, Symbol.opensOperand],
      by simp [ht, endsOperand, Symbol.opensOperand], by simp, by simp [ht, isLeft]⟩
  | sign o ht ho =>
    refine ⟨?_, by simp [ht, Symbol.opensOperand], by simp [ht, endsOperand,
      Symbol.opensOperand], by simp, by simp⟩
    intro w hw hl
    rcases List.mem_cons.1 hw with rfl | hw
    · exact ⟨_, ht⟩
    · exact hs.waits w hw hl
  | operator o above rest ht ho hw ha hr =>
    refine ⟨?_, by simp [ht, Symbol.opensOperand], by simp [ht, endsOperand,
      Symbol.opensOperand], by simp, by simp⟩
    intro w hmem hl
    rcases List.mem_cons.1 hmem with rfl | hmem
    · exact ⟨_, ht⟩
    · exact hs.waits w (by simp [hw, hmem]) hl

theorem State.Sound.run {ts : List Token} {s s' : State} (h : run ts s = .ok s')
    (hs : s.Sound) : s'.Sound := by
  induction ts generalizing s with
  | nil => obtain rfl := Except.ok.inj h; exact hs
  | cons t ts ih =>
    obtain ⟨s₁, hm, hr⟩ := run_cons_eq_ok h
    exact ih hr (hm.sound hs)

end Reckoner.Postfix
