import Mathlib.Data.List.Induction
import Reckoner.Proofs.Moves

/-! Nesting of parentheses. Main statement: the left parentheses that wait are those that are still
open, the innermost first. -/
namespace Reckoner.Postfix

def opens (ts : List Token) : Nat := ts.countP isLeft

def closes (ts : List Token) : Nat := ts.countP isRight

@[simp] theorem opens_append (ts us : List Token) : opens (ts ++ us) = opens ts + opens us :=
  List.countP_append

@[simp] theorem closes_append (ts us : List Token) : closes (ts ++ us) = closes ts + closes us :=
  List.countP_append

theorem isRight_of_isLeft {t : Token} (h : isLeft t = true) : isRight t = false := by
  unfold isLeft at h
  split at h
  · next ht => simp [isRight, ht]
  · cases h

theorem opens_cons_left {l : Token} (h : isLeft l = true) (ts : List Token) :
    opens (l :: ts) = opens ts + 1 ∧ closes (l :: ts) = closes ts := by
  simp [opens, closes, h, isRight_of_isLeft h]

theorem opens_right {r : Token} (h : isRight r = true) : opens [r] = 0 ∧ closes [r] = 1 := by
  obtain ⟨b, hb⟩ := isRight_iff.1 h
  simp [opens, closes, h, isLeft, hb]

/-- No prefix closes more parentheses than it opens. -/
def Covered (ts : List Token) : Prop := ∀ us, us <+: ts → closes us ≤ opens us

structure Balanced (ts : List Token) : Prop where
  covered : Covered ts
  settled : closes ts = opens ts

theorem Covered.append {ts us : List Token} (h : Covered ts)
    (hu : ∀ vs, vs <+: us → closes ts + closes vs ≤ opens ts + opens vs) : Covered (ts ++ us) := by
  rintro vs ⟨rest, hrest⟩
  obtain ⟨as, rfl, -⟩ | ⟨ws, rfl, rfl⟩ := List.append_eq_append_iff.1 hrest
  · exact h vs (List.prefix_append vs as)
  · simpa using hu ws (List.prefix_append ws rest)

theorem Covered.concat {ts : List Token} {t : Token} (h : Covered ts)
    (ht : closes (ts ++ [t]) ≤ opens (ts ++ [t])) : Covered (ts ++ [t]) := by
  intro us hu
  obtain rfl | hu := List.prefix_concat_iff.1 hu
  · exact ht
  · exact h us hu

theorem balanced_nil : Balanced [] :=
  ⟨fun us h => by rw [List.prefix_nil.1 h]; exact Nat.le_refl _, rfl⟩

theorem Balanced.append {ts us : List Token} (h : Balanced ts) (hu : Balanced us) :
    Balanced (ts ++ us) := by
  refine ⟨h.covered.append fun vs hv => ?_, by simp [h.settled, hu.settled]⟩
  exact Nat.add_le_add (Nat.le_of_eq h.settled) (hu.covered vs hv)

theorem balanced_singleton {t : Token} (hl : isLeft t = false) (hr : isRight t = false) :
    Balanced [t] := by
  have hcount : closes [t] = opens [t] := by simp [closes, opens, hl, hr]
  exact ⟨balanced_nil.covered.concat (Nat.le_of_eq hcount), hcount⟩

theorem Balanced.group {ts : List Token} {l r : Token} (h : Balanced ts) (hl : isLeft l = true)
    (hr : isRight r = true) : Balanced (l :: ts ++ [r]) := by
  obtain ⟨hro, hrc⟩ := opens_right hr
  have hcount : closes (l :: ts ++ [r]) = opens (l :: ts ++ [r]) := by
    rw [opens_append, closes_append, (opens_cons_left hl ts).1, (opens_cons_left hl ts).2, hro, hrc,
      h.settled]
  have hcovered : Covered (l :: ts) := by
    intro us hu
    obtain rfl | ⟨vs, rfl, hv⟩ := List.prefix_cons_iff.1 hu
    · exact Nat.le_refl _
    · rw [(opens_cons_left hl vs).1, (opens_cons_left hl vs).2]
      exact Nat.le_succ_of_le (h.covered vs hv)
  exact ⟨hcovered.concat (Nat.le_of_eq hcount), hcount⟩

theorem Balanced.not_covered {us vs : List Token} {l : Token} (h : Balanced (us ++ l :: vs))
    (hl : isLeft l = true) : ¬ Covered vs := by
  intro hv
  have hus : closes us ≤ opens us := h.covered us (List.prefix_append us (l :: vs))
  have hvs := hv vs (List.prefix_refl vs)
  have hcount := h.settled
  rw [opens_append, closes_append, (opens_cons_left hl vs).1, (opens_cons_left hl vs).2] at hcount
  omega

/-- `Nested ts ls`: the left parentheses `ls` are open after the tokens `ts`, the innermost
first. -/
inductive Nested : List Token → List Token → Prop
  | balanced {ts : List Token} (h : Balanced ts) : Nested ts []
  | opened {ts us ls : List Token} {l : Token} (h : Nested ts ls) (hl : isLeft l = true)
      (hu : Balanced us) : Nested (ts ++ l :: us) (l :: ls)

namespace Nested
variable {ts us ls : List Token} {t l : Token}

theorem append (h : Nested ts ls) (hu : Balanced us) : Nested (ts ++ us) ls := by
  cases h with
  | balanced h => exact .balanced (h.append hu)
  | opened h hl hv =>
    rw [List.append_assoc, List.cons_append]
    exact .opened h hl (hv.append hu)

theorem plain (h : Nested ts ls) (hl : isLeft t = false) (hr : isRight t = false) :
    Nested (ts ++ [t]) ls := h.append (balanced_singleton hl hr)

theorem left (h : Nested ts ls) (hl : isLeft t = true) : Nested (ts ++ [t]) (t :: ls) :=
  .opened h hl balanced_nil

theorem right (h : Nested ts (l :: ls)) (hr : isRight t = true) : Nested (ts ++ [t]) ls := by
  cases h with
  | opened h hl hv =>
    rw [List.append_assoc]
    exact h.append (hv.group hl hr)

theorem opens_eq (h : Nested ts ls) : opens ts = closes ts + ls.length := by
  induction h with
  | balanced h => simp [h.settled]
  | opened h hl hu ih =>
    rw [opens_append, closes_append, (opens_cons_left hl _).1, (opens_cons_left hl _).2, ih,
      hu.settled, List.length_cons]
    omega

theorem covered (h : Nested ts ls) : Covered ts := by
  induction h with
  | balanced h => exact h.covered
  | opened h hl hu ih =>
    refine ih.append fun vs hv => ?_
    have hle := h.opens_eq
    obtain rfl | ⟨ws, rfl, hw⟩ := List.prefix_cons_iff.1 hv
    · simp only [closes, opens, List.countP_nil] at hle ⊢
      omega
    · have hws := hu.covered ws hw
      rw [(opens_cons_left hl ws).1, (opens_cons_left hl ws).2]
      omega

theorem balanced_iff (h : Nested ts ls) : Balanced ts ↔ ls = [] := by
  have hcount := h.opens_eq
  refine ⟨fun hb => List.length_eq_zero_iff.1 ?_, fun hnil => ⟨h.covered, ?_⟩⟩
  · have := hb.settled
    omega
  · simp [hcount, hnil]

end Nested

theorem not_isLeft_of_leavesFor {o : Operator} {t : Token} (h : leavesFor o t = true) :
    isLeft t = false := by
  cases hs : t.symbol <;> simp_all [leavesFor, isLeft, Token.operator?, Symbol.operator?]

theorem filter_eq_nil {p : Token → Bool} {ws : List Token} (h : ∀ w ∈ ws, p w = false) :
    ws.filter p = [] := List.filter_eq_nil_iff.2 fun w hw => by simp [h w hw]

theorem Move.nested {t : Token} {s s' : State} {ts : List Token} (h : Move t s s')
    (hn : Nested ts (s.waiting.filter isLeft)) :
    Nested (ts ++ [t]) (s'.waiting.filter isLeft) := by
  cases h with
  | number n ht => exact hn.plain (by simp [isLeft, ht]) (by simp [isRight, ht])
  | left a ht =>
    have hl : isLeft t = true := by simp [isLeft, ht]
    rw [List.filter_cons_of_pos hl]
    exact hn.left hl
  | right b above rest l ht hm hw ha hl =>
    rw [hw, List.filter_append, filter_eq_nil ha, List.nil_append, List.filter_cons_of_pos hl] at hn
    exact hn.right (by simp [isRight, ht])
  | sign o ht hs =>
    have hl : isLeft t = false := by simp [isLeft, ht]
    rw [List.filter_cons_of_neg (by simp [hl])]
    exact hn.plain hl (by simp [isRight, ht])
  | operator o above rest ht hs hw ha hr =>
    have hl : isLeft t = false := by simp [isLeft, ht]
    rw [hw, List.filter_append, filter_eq_nil fun w h => not_isLeft_of_leavesFor (ha w h),
      List.nil_append] at hn
    rw [List.filter_cons_of_neg (by simp [hl])]
    exact hn.plain hl (by simp [isRight, ht])

theorem run_append_eq_ok {ts us : List Token} {s s'' : State} (h : run (ts ++ us) s = .ok s'') :
    ∃ s', run ts s = .ok s' ∧ run us s' = .ok s'' := by
  rw [run_append] at h
  cases hr : run ts s with
  | error e => rw [hr] at h; cases h
  | ok s' => exact ⟨s', rfl, by rwa [hr] at h⟩

theorem run_concat_eq_ok {ts : List Token} {t : Token} {s s'' : State}
    (h : run (ts ++ [t]) s = .ok s'') : ∃ s', run ts s = .ok s' ∧ Move t s' s'' := by
  obtain ⟨s', hr, h'⟩ := run_append_eq_ok h
  obtain ⟨s₁, hm, he⟩ := run_cons_eq_ok h'
  obtain rfl := Except.ok.inj he
  exact ⟨s', hr, hm⟩

/-- The left parentheses that wait after a run are those that are open: induction from the
right. -/
theorem nested_run {ts : List Token} {s : State} (h : run ts .start = .ok s) :
    Nested ts (s.waiting.filter isLeft) := by
  induction ts using List.reverseRecOn generalizing s with
  | nil =>
    obtain rfl := Except.ok.inj h
    exact .balanced balanced_nil
  | append_singleton ts t ih =>
    obtain ⟨s', hr, hm⟩ := run_concat_eq_ok h
    exact hm.nested (ih hr)

end Reckoner.Postfix
