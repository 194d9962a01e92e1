import Reckoner.Proofs.Grammar
import Reckoner.Proofs.Height
import Reckoner.Token.Scan

/-! Seams: the places where one operand directly follows another. They pass the first stage, and
each leaves one value too many in the second. Main statement: where no parentheses stand empty, the
values left are one more than the seams, and without seams the tokens are an expression. -/
namespace Reckoner.Postfix

def startsOperand (t : Token) : Bool :=
  match t.symbol with
  | .number _ | .paren .left _ => true
  | _ => false

def neighbours (p : Token → Token → Bool) : List Token → Nat
  | t :: u :: ts => (if p t u then 1 else 0) + neighbours p (u :: ts)
  | _ => 0

def isSeam (t u : Token) : Bool := endsOperand t && startsOperand u

def isEmptyGroup (t u : Token) : Bool := isLeft t && isRight u

def seams (ts : List Token) : Nat := neighbours isSeam ts

/-- The left parentheses that a right one directly follows. -/
def emptyGroups (ts : List Token) : Nat := neighbours isEmptyGroup ts

theorem neighbours_append_cons (p : Token → Token → Bool) (ts us : List Token) (t u : Token) :
    neighbours p (ts ++ t :: u :: us) =
      neighbours p (ts ++ [t]) + (if p t u then 1 else 0) + neighbours p (u :: us) := by
  induction ts with
  | nil => simp [neighbours]
  | cons v ts ih =>
    cases ts with
    | nil => simp [neighbours]; omega
    | cons w ts =>
      simp only [List.cons_append, neighbours] at ih ⊢
      omega

theorem neighbours_eq_zero_of_append {p : Token → Token → Bool} (ts : List Token)
    {us : List Token} (h : neighbours p (ts ++ us) = 0) : neighbours p us = 0 := by
  induction ts with
  | nil => exact h
  | cons t ts ih =>
    apply ih
    cases hv : ts ++ us with
    | nil => rfl
    | cons u vs =>
      rw [List.cons_append, hv, neighbours] at h
      omega

def binaries (ts : List Token) : Nat :=
  ts.countP fun t => match t.symbol with
    | .operator (.binary _) => true
    | _ => false

theorem binaries_append (ts us : List Token) : binaries (ts ++ us) = binaries ts + binaries us :=
  List.countP_append

theorem height_operators {ws : List Token} (hw : ∀ w ∈ ws, ∃ o, w.symbol = .operator o) (n : Nat) :
    height ws (n + 1 + binaries ws) = some (n + 1) := by
  induction ws with
  | nil => rfl
  | cons w ws ih =>
    have ih := ih fun v hv => hw v (List.mem_cons_of_mem w hv)
    obtain ⟨o, ho⟩ := hw w (by simp)
    rcases o with u | o
    · have hb : binaries (w :: ws) = binaries ws := by simp [binaries, ho]
      have hs : heightStep w (n + binaries ws + 1) = some (n + binaries ws + 1) :=
        heightStep_operator ho _
      rw [hb, height, Nat.add_right_comm, hs, Nat.add_right_comm]
      exact ih
    · have hb : binaries (w :: ws) = binaries ws + 1 := by simp [binaries, ho]
      have hs : heightStep w (n + binaries ws + 2) = some (n + binaries ws + 1) :=
        heightStep_operator ho _
      rw [hb, height, show n + 1 + (binaries ws + 1) = n + binaries ws + 2 by omega, hs,
        Nat.add_right_comm]
      exact ih

/-- The values that the output so far leaves: one for each seam, one for the operand that is
complete, and one for each binary operator that waits. -/
def Counts (s : State) (k : Nat) : Prop :=
  height s.output.reverse 0 = some (k + (if s.expectsOperand then 0 else 1) + binaries s.waiting)

theorem counts_after_output {s : State} {k : Nat} {above rest : List Token} (h : Counts s k)
    (hs : s.expectsOperand = false) (hw : s.waiting = above ++ rest)
    (ha : ∀ w ∈ above, ∃ o, w.symbol = .operator o) :
    height (above.reverse ++ s.output).reverse 0 = some (k + 1 + binaries rest) := by
  have h : height s.output.reverse 0 = some (k + binaries rest + 1 + binaries above) := by
    rw [h, hs, hw, binaries_append]
    exact congrArg some (by simp; omega)
  rw [List.reverse_append, List.reverse_reverse, height_append, h]
  change height above _ = _
  rw [height_operators ha]
  exact congrArg some (by omega)

theorem seam_of_startsOperand {s : State} {t : Token} (hs : s.Sound) (ht : startsOperand t = true) :
    (if s.expectsOperand then 0 else 1) = s.last.elim 0 fun u => if isSeam u t then 1 else 0 := by
  rw [hs.expects]
  cases hl : s.last with
  | none => rfl
  | some u =>
    have hu := hs.ends u hl
    cases ho : u.symbol.opensOperand <;> simp [isSeam, hu, ho, ht]

theorem no_seam {t : Token} (ht : startsOperand t = false) (last : Option Token) :
    (last.elim 0 fun u => if isSeam u t then 1 else 0) = 0 := by
  cases last <;> simp [isSeam, ht]

theorem expects_false {s : State} (hs : s.Sound) (hl : s.last ≠ none)
    (hm : s.missingOperand? = none) (hg : ∀ u ∈ s.last, isLeft u = false) :
    s.expectsOperand = false := by
  rw [hs.expects]
  cases hu : s.last with
  | none => exact absurd hu hl
  | some u =>
    have hleft := hg u hu
    simp only [State.missingOperand?, hu] at hm
    cases hsym : u.symbol with
    | number n => simp [hsym, Symbol.opensOperand]
    | operator o => simp [Token.operator?, hsym, Symbol.operator?] at hm
    | paren side a =>
      cases side with
      | left => simp [isLeft, hsym] at hleft
      | right => simp [hsym, Symbol.opensOperand]
    | other kind a => simp [hsym, Symbol.opensOperand]

theorem Move.counts {t : Token} {s s' : State} {k : Nat} (h : Move t s s') (hs : s.Sound)
    (hc : Counts s k) (hg : ∀ u ∈ s.last, isEmptyGroup u t = false) :
    Counts s' (k + s.last.elim 0 fun u => if isSeam u t then 1 else 0) := by
  have hstart := seam_of_startsOperand hs (t := t)
  have hnone := no_seam (t := t)
  cases h with
  | number n ht =>
    have hout : height (t :: s.output).reverse 0 =
        some (k + (if s.expectsOperand then 0 else 1) + binaries s.waiting + 1) := by
      rw [List.reverse_cons, height_append, hc]
      simp [height, heightStep, ht, bind]
    rw [← hstart (by simp [startsOperand, ht])]
    exact hout.trans (congrArg some (by simp; omega))
  | left a ht =>
    have hb : binaries (t :: s.waiting) = binaries s.waiting := by simp [binaries, ht]
    rw [← hstart (by simp [startsOperand, ht])]
    exact hc.trans (congrArg some (by simp [hb]))
  | right b above rest l ht hm hw ha hl =>
    have hlast : s.last ≠ none := fun h => by simp [hs.fresh h] at hw
    have he : s.expectsOperand = false := expects_false hs hlast hm fun u hu => by
      simpa [isEmptyGroup, isRight, ht] using hg u hu
    have hops : ∀ w ∈ above, ∃ o, w.symbol = .operator o :=
      fun w h => hs.waits w (by simp [hw, h]) (ha w h)
    have hb : binaries (l :: rest) = binaries rest := by
      cases hsym : l.symbol <;> simp_all [isLeft, binaries]
    rw [hnone (by simp [startsOperand, ht])]
    exact (counts_after_output hc he hw hops).trans (congrArg some (by simp [hb]))
  | sign o ht ho =>
    have hb : binaries (t :: s.waiting) = binaries s.waiting := by simp [binaries, ht]
    rw [hnone (by simp [startsOperand, ht])]
    exact hc.trans (congrArg some (by simp [hb, ho]))
  | operator o above rest ht ho hw ha hr =>
    have hops : ∀ w ∈ above, ∃ v, w.symbol = .operator v := by
      intro w h
      have hleaves := ha w h
      cases hsym : w.symbol <;>
        simp_all [leavesFor, Token.operator?, Symbol.operator?]
    have hb : binaries (t :: rest) = binaries rest + 1 := by simp [binaries, ht]
    rw [hnone (by simp [startsOperand, ht])]
    exact (counts_after_output hc ho hw hops).trans (congrArg some (by simp [hb]; omega))

theorem neighbours_toList (p : Token → Token → Bool) (last : Option Token) (t : Token)
    (ts : List Token) :
    neighbours p (last.toList ++ t :: ts) =
      (last.elim 0 fun u => if p u t then 1 else 0) + neighbours p (t :: ts) := by
  cases last with
  | none => simp
  | some u => rfl

/-- The count over a whole run: induction on the tokens. -/
theorem counts_run {ts : List Token} {s s' : State} {k : Nat} (h : run ts s = .ok s')
    (hs : s.Sound) (hc : Counts s k) (hg : emptyGroups (s.last.toList ++ ts) = 0) :
    Counts s' (k + seams (s.last.toList ++ ts)) := by
  induction ts generalizing s k with
  | nil =>
    obtain rfl := Except.ok.inj h
    have hz : seams (s.last.toList ++ []) = 0 := by cases s.last <;> rfl
    rw [hz]
    exact hc
  | cons t ts ih =>
    obtain ⟨s₁, hm, hr⟩ := run_cons_eq_ok h
    have hlast : s₁.last = some t := by cases hm <;> rfl
    rw [emptyGroups, neighbours_toList] at hg
    have hg₁ : ∀ u ∈ s.last, isEmptyGroup u t = false := by
      intro u hu
      cases hp : isEmptyGroup u t with
      | false => rfl
      | true =>
        rw [Option.mem_def.1 hu] at hg
        simp [hp] at hg
    have hc₁ := hm.counts hs hc hg₁
    have hrest := ih hr (hm.sound hs) hc₁ (by rw [hlast]; exact (Nat.add_eq_zero_iff.1 hg).2)
    rw [hlast, Nat.add_assoc] at hrest
    rw [seams, neighbours_toList]
    exact hrest

theorem finish_eq_ok {s : State} {out : List Token} (h : finish s = .ok out) :
    s.missingOperand? = none ∧ (∀ w ∈ s.waiting, isLeft w = false) ∧
      out = s.output.reverse ++ s.waiting := by
  unfold finish at h
  split at h
  · cases h
  next hm =>
    split at h
    · cases h
    next hf =>
      obtain rfl := Except.ok.inj h
      exact ⟨hm, fun w hw => by simpa using List.find?_eq_none.1 hf w hw, rfl⟩

theorem expects_false_of_finish {s : State} {out : List Token} (hs : s.Sound) (hl : s.last ≠ none)
    (h : finish s = .ok out) : s.expectsOperand = false := by
  obtain ⟨hm, hleft, -⟩ := finish_eq_ok h
  refine expects_false hs hl hm fun u hu => ?_
  cases hu' : isLeft u with
  | false => rfl
  | true => exact absurd (hleft u (hs.opened u hu hu')) (by simp [hu'])

theorem run_last {ts : List Token} {s s' : State} (h : run ts s = .ok s') :
    s'.last = ts.getLast?.or s.last := by
  induction ts generalizing s with
  | nil => obtain rfl := Except.ok.inj h; rfl
  | cons t ts ih =>
    obtain ⟨s₁, hm, hr⟩ := run_cons_eq_ok h
    have hlast : s₁.last = some t := by cases hm <;> rfl
    rw [ih hr, hlast]
    cases ts with
    | nil => rfl
    | cons u ts => simp [List.getLast?_cons]

theorem exists_run_of_ofInfix {ts out : List Token} (h : ofInfix ts = .ok out) :
    ∃ s, run ts .start = .ok s ∧ finish s = .ok out := by
  unfold ofInfix at h
  cases hr : run ts .start with
  | error f => rw [hr] at h; cases h
  | ok s => exact ⟨s, rfl, by rwa [hr] at h⟩

theorem height_ofInfix {ts out : List Token} (h : ofInfix ts = .ok out) (hne : ts ≠ [])
    (hg : emptyGroups ts = 0) : height out 0 = some (1 + seams ts) := by
  obtain ⟨s, hr, hf⟩ := exists_run_of_ofInfix h
  have hs := State.sound_start.run hr
  have hc : Counts s (0 + seams ts) := counts_run hr State.sound_start rfl hg
  have hlast : s.last ≠ none := by
    rw [run_last hr]
    simpa [State.start] using hne
  have he := expects_false_of_finish hs hlast hf
  obtain ⟨-, hleft, rfl⟩ := finish_eq_ok hf
  have hops : ∀ w ∈ s.waiting, ∃ o, w.symbol = .operator o :=
    fun w hw => hs.waits w hw (hleft w hw)
  have hcount := counts_after_output hc he (List.append_nil _).symm hops
  rw [List.reverse_append, List.reverse_reverse] at hcount
  rw [hcount]
  exact congrArg some (by simp [binaries]; omega)

/-- An expression stands first, and after it comes a right parenthesis or nothing. -/
def Begins (ts : List Token) : Prop :=
  ∃ us rest e, ts = us ++ rest ∧ Derives .expression us e ∧ ∀ t ∈ rest.head?, isRight t = true

theorem accept_cons {t : Token} {ts : List Token} {s : State} {out : List Token}
    (h : run (t :: ts) s >>= finish = .ok out) :
    ∃ s', Move t s s' ∧ run ts s' >>= finish = .ok out := by
  cases hr : run (t :: ts) s with
  | error f => rw [hr] at h; cases h
  | ok s'' =>
    obtain ⟨s', hm, hr'⟩ := run_cons_eq_ok hr
    exact ⟨s', hm, by rwa [hr', ← hr]⟩

/-- An operand with what follows it: induction hypothesis for the tokens after an operator. -/
theorem begins_atom {us ts out : List Token} {a : Expression} {s : State}
    (ha : Derives .atom us a) (hs : s.expectsOperand = false)
    (h : run ts s >>= finish = .ok out) (hseam : seams (us ++ ts) = 0)
    (ih : ∀ t vs s', ts = t :: vs → Move t s s' → s'.expectsOperand = true →
      run vs s' >>= finish = .ok out → Begins vs) : Begins (us ++ ts) := by
  have hau : Derives .expression us a := .ofTerm (.ofUnary (.ofPower (.ofAtom ha)))
  cases ts with
  | nil => exact ⟨us, [], a, rfl, hau, by simp⟩
  | cons t ts =>
    obtain ⟨s', hm, hr⟩ := accept_cons h
    have hno : startsOperand t = false := by
      obtain ⟨vs, v, rfl, hv⟩ := ha.ends
      rw [List.append_assoc, List.singleton_append, seams, neighbours_append_cons] at hseam
      cases ht : startsOperand t with
      | false => rfl
      | true => simp [isSeam, hv, ht] at hseam
    have ih := ih t ts s' rfl hm
    cases hm with
    | number n ht => simp [startsOperand, ht] at hno
    | left a ht => simp [startsOperand, ht] at hno
    | right b above rest l ht =>
      exact ⟨us, t :: ts, a, rfl, hau, by simp [isRight, ht]⟩
    | sign o ht ho => rw [hs] at ho; cases ho
    | operator o above rest ht =>
      obtain ⟨vs, rest, e, rfl, he, hrest⟩ := ih rfl hr
      obtain ⟨e', he'⟩ := Derives.operator_expression o t.position ha he
      rw [← eq_mk ht] at he'
      exact ⟨us ++ t :: vs, rest, e', by simp, he', hrest⟩

theorem closes_group {us rest out : List Token} {e : Expression} {a : String} {p : Option Int}
    {s : State} (hd : Derives .expression us e) (hrest : ∀ t ∈ rest.head?, isRight t = true)
    (hs : (State.mk s.output (⟨.paren .left a, p⟩ :: s.waiting) true
      (some ⟨.paren .left a, p⟩)).Sound)
    (h : run (us ++ rest) ⟨s.output, ⟨.paren .left a, p⟩ :: s.waiting, true,
      some ⟨.paren .left a, p⟩⟩ >>= finish = .ok out) :
    ∃ b q vs s', rest = ⟨.paren .right b, q⟩ :: vs ∧ s'.Sound ∧ s'.expectsOperand = false ∧
      run vs s' >>= finish = .ok out := by
  obtain ⟨s₁, hr₁, h₁⟩ := run_derives hd ⟨s.output, ⟨.paren .left a, p⟩ :: s.waiting, true,
    some ⟨.paren .left a, p⟩⟩ rfl (Level.stops_paren _ a p s.waiting)
  rw [run_append, hr₁] at h
  have hs₁ := hs.run hr₁
  cases rest with
  | nil =>
    obtain ⟨-, hleft, -⟩ := finish_eq_ok h
    obtain ⟨out', pend, last, rfl, -⟩ := h₁
    exact absurd (hleft ⟨.paren .left a, p⟩ (by simp)) (by simp [isLeft])
  | cons r rest =>
    obtain ⟨s₂, hm₂, hr₂⟩ := accept_cons h
    obtain ⟨b, hb⟩ := isRight_iff.1 (hrest r rfl)
    refine ⟨b, r.position, rest, s₂, by rw [← eq_mk hb], hm₂.sound hs₁, ?_, hr₂⟩
    cases hm₂ <;> simp_all

theorem not_isRight_of_expects {t : Token} {ts : List Token} {s s' : State} (hs : s.Sound)
    (he : s.expectsOperand = true) (hm : Move t s s')
    (hg : emptyGroups (s.last.toList ++ t :: ts) = 0) : isRight t = false := by
  cases hm with
  | right b above rest l ht hmiss hw ha hl =>
    have hlast : s.last ≠ none := fun h => by simp [hs.fresh h] at hw
    have hf := expects_false hs hlast hmiss fun u hu => by
      cases hu' : isLeft u with
      | false => rfl
      | true =>
        rw [Option.mem_def.1 hu] at hg
        simp [emptyGroups, neighbours, isEmptyGroup, isRight, ht, hu'] at hg
    rw [he] at hf
    cases hf
  | number n ht => simp [isRight, ht]
  | left a ht => simp [isRight, ht]
  | sign o ht ho => simp [isRight, ht]
  | operator o above rest ht ho => simp [isRight, ht]

theorem begins_cons {t : Token} {ts out : List Token} {s : State} (hs : s.Sound)
    (he : s.expectsOperand = true) (h : run (t :: ts) s >>= finish = .ok out)
    (hg : emptyGroups (s.last.toList ++ t :: ts) = 0) (hseam : seams (t :: ts) = 0)
    (next : ∀ (pre : List Token) (u : Token) (vs : List Token) (s₂ : State),
      t :: ts = pre ++ u :: vs → s₂.Sound → s₂.last = some u → s₂.expectsOperand = true →
      run vs s₂ >>= finish = .ok out → Begins vs) : Begins (t :: ts) := by
  obtain ⟨s', hm, hr⟩ := accept_cons h
  have hs' := hm.sound hs
  have hright := not_isRight_of_expects hs he hm hg
  cases hm with
  | number n ht =>
    have hd : Derives .atom [t] (.number n t.position) := by
      rw [eq_mk ht]
      exact .number n _
    refine begins_atom hd rfl hr hseam fun u vs s₂ hvs hm₂ he₂ hr₂ => ?_
    subst hvs
    exact next [t] u vs s₂ rfl (hm₂.sound hs') (by cases hm₂ <;> rfl) he₂ hr₂
  | left a ht =>
    -- the tokens after the parenthesis begin an expression, and the group that it closes an operand
    obtain ⟨us, rest, e, rfl, hd, hrest⟩ := next [] t ts _ rfl hs' rfl rfl hr
    rw [eq_mk ht] at hs' hr
    obtain ⟨b, q, vs, s₁, rfl, hs₁, he₁, hr₁⟩ := closes_group hd hrest hs' hr
    have hgroup : Derives .atom (t :: (us ++ [⟨.paren .right b, q⟩])) e := by
      rw [eq_mk ht]
      exact .group a b _ q hd
    have hshape : t :: (us ++ ⟨.paren .right b, q⟩ :: vs) =
        (t :: (us ++ [⟨.paren .right b, q⟩])) ++ vs := by simp
    rw [hshape] at hseam ⊢
    refine begins_atom hgroup he₁ hr₁ hseam fun u vs' s₂ hvs hm₂ he₂ hr₂ => ?_
    subst hvs
    exact next _ u vs' s₂ hshape (hm₂.sound hs₁) (by cases hm₂ <;> rfl) he₂ hr₂
  | right b above rest l ht => simp [isRight, ht] at hright
  | sign o ht ho =>
    obtain ⟨us, rest, e, rfl, hd, hrest⟩ := next [] t ts _ rfl hs' rfl rfl hr
    obtain ⟨e', he'⟩ := Derives.sign_expression o t.position hd
    rw [← eq_mk ht] at he'
    exact ⟨t :: us, rest, e', rfl, he', hrest⟩
  | operator o above rest ht ho => rw [he] at ho; cases ho

/-- Where an operand is expected an expression stands: strong induction on the number of tokens. -/
theorem begins_of_accepted {ts out : List Token} {s : State} (hs : s.Sound)
    (he : s.expectsOperand = true) (h : run ts s >>= finish = .ok out)
    (hg : emptyGroups (s.last.toList ++ ts) = 0) (hseam : seams ts = 0)
    (hne : s.last ≠ none ∨ ts ≠ []) : Begins ts := by
  induction hn : ts.length using Nat.strongRecOn generalizing ts s with
  | ind n ih =>
    subst hn
    cases ts with
    | nil =>
      have hf := expects_false_of_finish hs (hne.resolve_right (by simp)) h
      rw [he] at hf
      cases hf
    | cons t ts =>
      refine begins_cons hs he h hg hseam fun pre u vs s₂ hvs hs₂ hlast he₂ hr₂ => ?_
      rw [hvs] at hg hseam
      have hg₂ := neighbours_eq_zero_of_append pre (neighbours_eq_zero_of_append _ hg)
      have hseam₂ := neighbours_eq_zero_of_append [u] (neighbours_eq_zero_of_append pre hseam)
      have hlen := congrArg List.length hvs
      simp only [List.length_append, List.length_cons] at hlen
      exact ih vs.length (by simp only [List.length_cons]; omega) hs₂ he₂ hr₂
        (by rw [hlast]; exact hg₂) hseam₂ (.inl (by simp [hlast])) rfl

/-- Without seams and empty groups, what the first stage accepts is an expression. -/
theorem derives_of_ofInfix {ts out : List Token} (h : ofInfix ts = .ok out) (hne : ts ≠ [])
    (hg : emptyGroups ts = 0) (hseam : seams ts = 0) : ∃ e, Derives .expression ts e := by
  obtain ⟨us, rest, e, rfl, hd, hrest⟩ :=
    begins_of_accepted State.sound_start rfl h hg hseam (.inr hne)
  obtain ⟨s, hr, h'⟩ := run_derives hd .start rfl (by simp [Level.Stops, State.start])
  cases rest with
  | nil => exact ⟨e, by simpa using hd⟩
  | cons r rest =>
    rw [ofInfix, run_append, hr] at h
    obtain ⟨s', hm, -⟩ := accept_cons h
    obtain ⟨b, hb⟩ := isRight_iff.1 (hrest r rfl)
    obtain ⟨out', pend, last, rfl, -, hp, -⟩ := h'
    cases hm with
    | right b above below l ht hmiss hw ha hl =>
      have hmem : l ∈ pend := by
        have hpend : pend = above ++ l :: below := by simpa [State.start] using hw
        simp [hpend]
      rw [(hp l hmem).not_isLeft] at hl
      cases hl
    | _ => simp_all

theorem seams_of_derives {ts : List Token} {e : Expression} (hd : Derives .expression ts e)
    (hne : ts ≠ []) (hg : emptyGroups ts = 0) : seams ts = 0 := by
  have hheight := height_ofInfix hd.ofInfix hne hg
  rw [height_postorder] at hheight
  have := Option.some.inj hheight
  omega

/-- Accepted tokens without empty groups are an expression just where they have no seam. Their
evaluation stops at an operation that fails, or leaves one value more than there are seams; only
without seams it has a result. -/
theorem values_left {ts out : List Token} (h : ofInfix ts = .ok out) (hne : ts ≠ [])
    (hg : emptyGroups ts = 0) :
    (seams ts = 0 ↔ ∃ e, Derives .expression ts e) ∧
      ((∃ f, f.IsArithmetic ∧ pushAll out [] = .error f ∧ evaluate out = .error f) ∨
        ∃ values, pushAll out [] = .ok values ∧ values.length = 1 + seams ts ∧
          (seams ts = 0 → ∃ v, values = [v] ∧ evaluate out = .ok v) ∧
          (0 < seams ts → evaluate out =
            .error (.unplaced (.surplusValues (1 + seams ts) (Token.showAll out))))) := by
  refine ⟨⟨derives_of_ofInfix h hne hg, fun ⟨e, hd⟩ => seams_of_derives hd hne hg⟩, ?_⟩
  have hcount : (∃ f, pushAll out [] = .error f ∧ f.IsArithmetic) ∨ ∃ values, _ :=
    pushAll_of_height (height_ofInfix h hne hg)
  obtain ⟨f, hf, ha⟩ | ⟨values, hv, hlen⟩ := hcount
  · exact .inl ⟨f, ha, hf, by rw [evaluate, hf]; rfl⟩
  · refine .inr ⟨values, hv, hlen, fun hz => ?_, fun hpos => ?_⟩
    · obtain ⟨v, rfl⟩ := List.length_eq_one_iff.1 (by rw [hlen, hz])
      exact ⟨v, rfl, by rw [evaluate, hv]; rfl⟩
    · obtain ⟨v, w, rest, rfl⟩ := exists_cons_cons_of_length (by omega : 2 ≤ values.length)
      rw [evaluate, hv, ← hlen]
      rfl

def digit (c : Char) (h : c.isDigit = true) : Numeral := ⟨[c], none, by simp [areDigits, h]⟩

def two : Numeral := digit '2' rfl

def three : Numeral := digit '3' rfl

def twoThree : List Token := [⟨.number two, some 0⟩, ⟨.number three, some 2⟩]

theorem values_left_two_three :
    ofInfix twoThree = .ok twoThree ∧ twoThree ≠ [] ∧ emptyGroups twoThree = 0 ∧
      (seams twoThree = 0 ↔ ∃ e, Derives .expression twoThree e) ∧
      ((∃ f, f.IsArithmetic ∧ pushAll twoThree [] = .error f ∧ evaluate twoThree = .error f) ∨
        ∃ values, pushAll twoThree [] = .ok values ∧ values.length = 1 + seams twoThree ∧
          (seams twoThree = 0 → ∃ v, values = [v] ∧ evaluate twoThree = .ok v) ∧
          (0 < seams twoThree → evaluate twoThree =
            .error (.unplaced (.surplusValues (1 + seams twoThree) (Token.showAll twoThree))))) :=
  ⟨rfl, by decide, rfl, values_left rfl (by decide) rfl⟩

/-- The text is accepted with one seam and without empty groups, and its evaluation overflows. -/
def overflowsAtSeam (text : String) : Bool :=
  match Token.scan text with
  | .error _ => false
  | .ok ts => match ofInfix ts with
    | .error _ => false
    | .ok out => ts != [] && emptyGroups ts == 0 && seams ts == 1 &&
      match pushAll out [] with
      | .error (.limit .overflow) => true
      | _ => false

theorem exists_of_overflowsAtSeam {text : String} (h : overflowsAtSeam text = true) :
    ∃ ts out, Token.scan text = .ok ts ∧ ofInfix ts = .ok out ∧ ts ≠ [] ∧ emptyGroups ts = 0 ∧
      seams ts = 1 ∧ pushAll out [] = .error (.limit .overflow) := by
  unfold overflowsAtSeam at h
  split at h
  · cases h
  next ts hts =>
    split at h
    · cases h
    next out hout =>
      simp only [Bool.and_eq_true, bne_iff_ne, beq_iff_eq] at h
      obtain ⟨⟨⟨hne, hg⟩, hs⟩, hp⟩ := h
      split at hp
      case h_2 => cases hp
      next hpush => exact ⟨ts, out, hts, hout, hne, hg, hs, hpush⟩

/-- Besides the faults of the operations a number beyond the limits of the format stops the
evaluation: here one seam is left unreported by an overflow. -/
theorem overflow_before_values_left :
    ∃ ts out, Token.scan "2 (1/(((0.1^10000)^10000)^10000)^10000)^10000" = .ok ts ∧
      ofInfix ts = .ok out ∧ ts ≠ [] ∧ emptyGroups ts = 0 ∧ seams ts = 1 ∧
      evaluate out = .error (.limit .overflow) ∧
      ¬ ((∃ f, f.kind.isArithmetic = true ∧ evaluate out = .error (.fault f)) ∨
        ∃ values, pushAll out [] = .ok values ∧ values.length = 1 + seams ts) := by
  obtain ⟨ts, out, hts, hout, hne, hg, hs, hpush⟩ := exists_of_overflowsAtSeam
    (show overflowsAtSeam "2 (1/(((0.1^10000)^10000)^10000)^10000)^10000" = true by decide +kernel)
  have he : evaluate out = .error (.limit .overflow) := by rw [evaluate, hpush]; rfl
  refine ⟨ts, out, hts, hout, hne, hg, hs, he, ?_⟩
  rintro (⟨f, -, hf⟩ | ⟨values, hv, -⟩)
  · rw [he] at hf
    cases hf
  · rw [hpush] at hv
    cases hv

end Reckoner.Postfix
