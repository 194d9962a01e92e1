import Reckoner.Proofs.Indexed
import Reckoner.Proofs.Operands

/-! The arrangement of tokens in postfix order. Main statement: the numbers and operators of accepted
tokens come out once each, the numbers in the order they went in, and every operator after the
numbers before it and those of the operand it leads to. -/
namespace Reckoner.Postfix

def isKept (t : Token) : Bool := isNumber t || t.operator?.isSome

/-- `Arranged ts order`: the order, given by indices of the tokens `ts`, has each number and each
operator once, the numbers as they stand, and an operator after all numbers up to the end of the
operand it leads to. -/
structure Arranged (ts : List Token) (order : List Nat) : Prop where
  perm : order.Perm ((List.range ts.length).filter (holdsAt ts isKept))
  numbers : order.filter (holdsAt ts isNumber) =
    (List.range ts.length).filter (holdsAt ts isNumber)
  leads : ∀ us t vs, ts = us ++ t :: vs → t.operator? ≠ none →
    ∃ signs operand, Leads signs operand vs
  operators : ∀ us t vs signs operand, ts = us ++ t :: vs → t.operator? ≠ none →
    Leads signs operand vs → ∀ i < us.length + 1 + signs.length + operand.length,
      holdsAt ts isNumber i = true → [i, us.length].Sublist order

theorem isKept_eq {t : Token} (ht : t.Known) : isKept t = !isParen t := by
  cases hs : t.symbol with
  | other kind a => exact absurd hs (ht kind a)
  | paren side a =>
    cases side <;> simp [isKept, isNumber, isParen, isLeft, isRight, Token.operator?,
      Symbol.operator?, hs]
  | _ => simp [isKept, isNumber, isParen, isLeft, isRight, Token.operator?, Symbol.operator?, hs]

theorem Move.output_suffix {t : Token} {s s' : State} (h : Move t s s') :
    s.output <:+ s'.output := by
  cases h with
  | number n ht => exact List.suffix_cons t s.output
  | left a ht => exact List.suffix_rfl
  | right b above rest l ht hm hw ha hl => exact List.suffix_append above.reverse s.output
  | sign o ht hs => exact List.suffix_rfl
  | operator o above rest ht hs hw ha hr => exact List.suffix_append above.reverse s.output

theorem run_output_suffix {ts : List Token} {s s' : State} (h : run ts s = .ok s') :
    s.output <:+ s'.output := by
  induction ts generalizing s with
  | nil =>
    obtain rfl := Except.ok.inj h
    exact List.suffix_rfl
  | cons t ts ih =>
    obtain ⟨s₁, hm, hr⟩ := run_cons_eq_ok h
    exact hm.output_suffix.trans (ih hr)

theorem Move.mem_waiting {t : Token} {s s' : State} {o : Operator} (h : Move t s s')
    (ht : t.symbol = .operator o) : t ∈ s'.waiting := by
  cases h <;> simp_all

theorem waiting_of_run_signs {signs : List Token} {s s' : State} (h : run signs s = .ok s')
    (hs : ∀ t ∈ signs, ∃ o, t.symbol = .operator (.unary o)) : s.waiting ⊆ s'.waiting := by
  induction signs generalizing s with
  | nil =>
    obtain rfl := Except.ok.inj h
    exact List.Subset.refl _
  | cons t signs ih =>
    obtain ⟨s₁, hm, hr⟩ := run_cons_eq_ok h
    obtain ⟨⟨o, ho⟩, hs⟩ := List.forall_mem_cons.1 hs
    have hfirst : s.waiting ⊆ s₁.waiting := by
      cases hm <;> simp_all
    exact List.Subset.trans hfirst (ih hr hs)

theorem waits_of_leads {us signs operand out : List Token} {t : Token} {o : Operator} {s : State}
    (h : run (us ++ t :: (signs ++ operand)) .start = .ok s) (ht : t.symbol = .operator o)
    (hs : ∀ t ∈ signs, ∃ o, t.symbol = .operator (.unary o)) (ho : ActsAsOperand operand out) :
    t ∈ s.waiting := by
  obtain ⟨s₁, -, h₁⟩ := run_append_eq_ok h
  obtain ⟨s₂, hm, h₂⟩ := run_cons_eq_ok h₁
  obtain ⟨s₃, h₃, h₄⟩ := run_append_eq_ok h₂
  obtain ⟨r, -, hrun⟩ := ho s₃
  obtain rfl := Except.ok.inj (h₄.symm.trans hrun)
  exact waiting_of_run_signs h₃ hs (hm.mem_waiting ht)

theorem disjoint_of_run {ts : List Token} {s : State} (h : run ts .start = .ok s)
    (hd : ts.Nodup) {t : Token} (hp : isParen t = false) (hw : t ∈ s.waiting) :
    t ∉ s.output := by
  have hnodup := (perm_run h).nodup_iff.2 (hd.filter _)
  intro ht
  exact (List.nodup_append.1 hnodup).2.2 t ht t (List.mem_filter.2 ⟨hw, by simp [hp]⟩) rfl

section Accepted
variable {ts out : List Token} (h : ofInfix ts = .ok out)
include h

theorem filter_ofInfix : out.filter isNumber = ts.filter isNumber := by
  obtain ⟨s, hr, hf⟩ := exists_run_of_ofInfix h
  obtain ⟨-, hleft, rfl⟩ := finish_eq_ok hf
  have hwait : s.waiting.filter isNumber = [] := filter_eq_nil fun w hw => by
    obtain ⟨o, ho⟩ := (State.sound_start.run hr).waits w hw (hleft w hw)
    simp [isNumber, ho]
  rw [List.filter_append, hwait, List.append_nil, List.filter_reverse, filter_output hr,
    List.reverse_reverse]

theorem perm_kept : out.Perm (ts.filter isKept) := by
  have heq : ts.filter isKept = ts.filter (!isParen ·) :=
    List.filter_congr fun t ht => isKept_eq (known_of_ofInfix h t ht)
  rw [heq]
  exact perm_of_ofInfix h

/-- Of different tokens an operator is put out after every number up to the end of the operand it
leads to: by then the number has gone out, and the operator waits. -/
theorem before_operator (hd : ts.Nodup) {us signs operand vs : List Token} {t n : Token}
    {o : Operator} (hts : ts = us ++ t :: vs) (ht : t.symbol = .operator o)
    (hl : Leads signs operand vs) (hn : n ∈ us ++ t :: (signs ++ operand))
    (hnum : isNumber n = true) : [n, t].Sublist out := by
  obtain ⟨rest, rfl⟩ := hl.next
  have hsplit : ts = (us ++ t :: signs) ++ operand ++ rest := by simp [hts]
  have hts : ts = (us ++ t :: (signs ++ operand)) ++ rest := by simp [hts]
  obtain ⟨out', ho⟩ := hl.single.exists_acts h hsplit
  obtain ⟨s, hr, hf⟩ := exists_run_of_ofInfix h
  rw [hts] at hr hd
  obtain ⟨s₁, h₁, h₂⟩ := run_append_eq_ok hr
  -- after the operand the number has gone out, and the operator has not
  have hwait := waits_of_leads h₁ ht hl.unary ho
  have hleft : t ∉ s₁.output :=
    disjoint_of_run h₁ (List.nodup_append.1 hd).1 (isParen_of_operator ht) hwait
  have hgone : n ∈ s₁.output := by
    have hmem : n ∈ s₁.output.filter isNumber := by
      rw [filter_output h₁, List.mem_reverse]
      exact List.mem_filter.2 ⟨hn, hnum⟩
    exact (List.mem_filter.1 hmem).1
  obtain ⟨more, hmore⟩ := run_output_suffix h₂
  obtain ⟨-, -, rfl⟩ := finish_eq_ok hf
  have hmem : t ∈ s.output.reverse ++ s.waiting := by
    rw [(perm_of_ofInfix h).mem_iff, hts]
    simp [isParen_of_operator ht]
  rw [← hmore, List.reverse_append, List.append_assoc] at hmem ⊢
  have hlater : t ∈ more.reverse ++ s.waiting :=
    (List.mem_append.1 hmem).resolve_left (by simpa using hleft)
  exact (List.singleton_sublist.2 (List.mem_reverse.2 hgone)).append
    (List.singleton_sublist.2 hlater)

end Accepted

theorem Operand.of_map {f : Token → Token} (hf : ∀ t, (f t).symbol = t.symbol) {ts : List Token}
    (h : Operand (ts.map f)) : Operand ts := by
  generalize hus : ts.map f = us at h
  cases h with
  | number ht =>
    obtain ⟨t, rest, rfl, rfl, hrest⟩ := List.map_eq_cons_iff.1 hus
    obtain rfl := List.map_eq_nil_iff.1 hrest
    refine .number ?_
    simpa [isNumber, hf] using ht
  | group hl hr hb =>
    rw [List.map_eq_append_iff] at hus
    obtain ⟨front, last, rfl, hfront, hlast⟩ := hus
    obtain ⟨l, body, rfl, rfl, rfl⟩ := List.map_eq_cons_iff.1 hfront
    obtain ⟨r, rest, rfl, rfl, hrest⟩ := List.map_eq_cons_iff.1 hlast
    obtain rfl := List.map_eq_nil_iff.1 hrest
    exact .group (isLeft_map hf l ▸ hl) (isRight_map hf r ▸ hr) (hb.of_map hf)

theorem Leads.of_map {f : Token → Token} (hf : ∀ t, (f t).symbol = t.symbol)
    {signs operand ts : List Token} (h : Leads signs operand (ts.map f)) :
    ∃ signs' operand', Leads signs' operand' ts ∧ signs'.map f = signs ∧
      operand'.map f = operand := by
  obtain ⟨rest, hrest⟩ := h.next
  obtain ⟨front, rest, rfl, hfront, rfl⟩ := List.map_eq_append_iff.1 hrest.symm
  obtain ⟨signs, operand, rfl, rfl, rfl⟩ := List.map_eq_append_iff.1 hfront
  refine ⟨signs, operand, ⟨fun t ht => ?_, h.single.of_map hf, List.prefix_append _ rest⟩, rfl, rfl⟩
  obtain ⟨o, ho⟩ := h.unary (f t) (List.mem_map_of_mem ht)
  exact ⟨o, (hf t).symm.trans ho⟩

theorem isNumber_congr (t u : Token) (h : t.symbol = u.symbol) : isNumber t = isNumber u := by
  simp only [isNumber, h]

theorem isKept_congr (t u : Token) (h : t.symbol = u.symbol) : isKept t = isKept u := by
  simp only [isKept, isNumber, Token.operator?, h]

theorem arranged_of_indexed {ts out out' : List Token} (h : ofInfix ts = .ok out)
    (h' : ofInfix (indexed ts) = .ok out') : Arranged ts (out'.map index) where
  perm := by
    have hperm := (perm_kept h').map index
    rwa [← filter_map_index isKept_congr (List.Subset.refl _), map_index_indexed] at hperm
  numbers := by
    have hsub : out' ⊆ indexed ts := fun t ht =>
      (List.mem_filter.1 ((perm_kept h').subset ht)).1
    rw [filter_map_index isNumber_congr hsub, filter_ofInfix h',
      ← filter_map_index isNumber_congr (List.Subset.refl _), map_index_indexed]
  leads := by
    intro us t vs hts ht
    obtain ⟨o, ho⟩ := Token.exists_operator ht
    exact exists_leads h hts ho
  operators := by
    intro us t vs signs operand hts ht hl i hi hnum
    have hmap := (map_restored_indexed ts).trans hts
    obtain ⟨us, rest, hsplit, rfl, hrest⟩ := List.map_eq_append_iff.1 hmap
    obtain ⟨t, vs, rfl, rfl, rfl⟩ := List.map_eq_cons_iff.1 hrest
    obtain ⟨signs, operand, hleads, rfl, rfl⟩ := hl.of_map (f := restored ts) fun _ => rfl
    obtain ⟨o, ho⟩ := Token.exists_operator ht
    have hread : us ++ t :: (signs ++ operand) <+: indexed ts := by
      obtain ⟨after, rfl⟩ := hleads.next
      exact ⟨after, by simp [hsplit]⟩
    -- the tokens up to the end of the operand are those with the lower indices
    have hi : i ∈ (us ++ t :: (signs ++ operand)).map index := by
      rw [map_index_front hread, List.mem_range]
      simp only [List.length_append, List.length_cons, List.length_map] at hi ⊢
      omega
    obtain ⟨n, hn, rfl⟩ := List.mem_map.1 hi
    rw [holdsAt_index isNumber_congr (hread.subset hn)] at hnum
    have hpair := (before_operator h' (nodup_indexed ts) hsplit ho hleads hn hnum).map index
    rw [List.length_map, ← index_of_split hsplit]
    exact hpair

/-- Accepted tokens are neither lost nor made more nor brought into disorder, whether or not operands
are adjacent or groups empty: the parentheses go, the numbers keep their order, and every operator
comes after the numbers before it and those of the operand it leads to. Equal tokens are told apart
by their indices. -/
theorem ofInfix_arranged {ts out : List Token} (h : ofInfix ts = .ok out) :
    (∀ t ∈ out, isParen t = false) ∧ out.Perm (ts.filter isKept) ∧
      out.filter isNumber = ts.filter isNumber ∧
      ∃ order, order.map (ts[·]?) = out.map some ∧ Arranged ts order := by
  have hperm := perm_of_ofInfix h
  obtain ⟨out', h', rfl⟩ := exists_ofInfix_indexed h
  refine ⟨fun t ht => ?_, perm_kept h, filter_ofInfix h, out'.map index, ?_,
    arranged_of_indexed h h'⟩
  · simpa using (List.mem_filter.1 (hperm.subset ht)).2
  · rw [List.map_map, List.map_map]
    refine List.map_congr_left fun t ht => ?_
    exact getElem?_index (List.mem_filter.1 ((perm_kept h').subset ht)).1

def unplaced : List Token :=
  [⟨.number two, none⟩, ⟨.operator (.binary .add), none⟩, ⟨.paren .left "(", none⟩,
    ⟨.number three, none⟩, ⟨.number two, none⟩, ⟨.paren .right ")", none⟩,
    ⟨.operator (.binary .add), none⟩, ⟨.operator (.unary .neg), none⟩, ⟨.number two, none⟩,
    ⟨.paren .left "(", none⟩, ⟨.paren .right ")", none⟩]

/-- The first sum comes after both numbers of the group, and the second after the last `2`, before
which a sign stands. -/
theorem ofInfix_arranged_unplaced : ∃ out, ofInfix unplaced = .ok out ∧
    out = [unplaced[0], unplaced[3], unplaced[4], unplaced[1], unplaced[8], unplaced[7],
      unplaced[6]] ∧
    ∃ order, order.map (unplaced[·]?) = out.map some ∧ [3, 1].Sublist order ∧
      [4, 1].Sublist order ∧ [8, 6].Sublist order := by
  have hrun : ofInfix unplaced = .ok [unplaced[0], unplaced[3], unplaced[4], unplaced[1],
      unplaced[8], unplaced[7], unplaced[6]] := rfl
  obtain ⟨-, -, -, order, hreads, harranged⟩ := ofInfix_arranged hrun
  have hinside : Balanced [unplaced[3], unplaced[4]] :=
    (balanced_singleton rfl rfl).append (balanced_singleton rfl rfl)
  have hgroup : Leads [] (unplaced[2] :: [unplaced[3], unplaced[4]] ++ [unplaced[5]])
      (unplaced.drop 2) := ⟨by simp, .group rfl rfl hinside, ⟨unplaced.drop 6, rfl⟩⟩
  have hsigned : Leads [unplaced[7]] [unplaced[8]] (unplaced.drop 7) :=
    ⟨by simp [unplaced], .number rfl, ⟨unplaced.drop 9, rfl⟩⟩
  have hfirst := harranged.operators (unplaced.take 1) unplaced[1] (unplaced.drop 2) _ _ rfl
    (by decide) hgroup
  have hsecond := harranged.operators (unplaced.take 6) unplaced[6] (unplaced.drop 7) _ _ rfl
    (by decide) hsigned
  exact ⟨_, hrun, rfl, order, hreads, hfirst 3 (by decide) rfl, hfirst 4 (by decide) rfl,
    hsecond 8 (by decide) rfl⟩

end Reckoner.Postfix
