import Mathlib.Algebra.BigOperators.Group.List.Lemmas
import Mathlib.Algebra.GroupWithZero.Nat
import Mathlib.Data.List.Count
import Mathlib.Data.List.Induction
import Reckoner.Proofs.Agreement

/-! The log of a batch run. Main statement: a run makes one record for each expression, in order, and
logs either that all have a value or how many have not, and then each kind of fault once, with the
number of times it occurs, the most frequent first. -/
namespace Reckoner.Batch

section Ranking
variable {α β : Type} [DecidableEq α] [DecidableEq β]

/-- `Ranking xs ranking`: the distinct elements of a list, each once, with the number of times it
occurs. The more frequent come first, and among equals the one that occurs first. -/
structure Ranking (xs : List α) (ranking : List (α × Nat)) : Prop where
  nodup : (ranking.map Prod.fst).Nodup
  covers : ∀ x ∈ xs, x ∈ ranking.map Prod.fst
  count : ∀ p ∈ ranking, p.1 ∈ xs ∧ p.2 = xs.count p.1
  ordered : ranking.Pairwise fun p q => q.2 < p.2 ∨ q.2 = p.2 ∧ xs.idxOf p.1 < xs.idxOf q.1
  total : (ranking.map Prod.snd).sum = xs.length

instance (xs : List α) (ranking : List (α × Nat)) :
    Decidable (Ranking xs ranking) :=
  decidable_of_iff ((ranking.map Prod.fst).Nodup ∧ (∀ x ∈ xs, x ∈ ranking.map Prod.fst) ∧
    (∀ p ∈ ranking, p.1 ∈ xs ∧ p.2 = xs.count p.1) ∧
    (ranking.Pairwise fun p q => q.2 < p.2 ∨ q.2 = p.2 ∧ xs.idxOf p.1 < xs.idxOf q.1) ∧
    (ranking.map Prod.snd).sum = xs.length)
    ⟨fun ⟨hn, hc, hp, ho, ht⟩ => ⟨hn, hc, hp, ho, ht⟩,
      fun h => ⟨h.nodup, h.covers, h.count, h.ordered, h.total⟩⟩

theorem map_fst_tallies (xs : List α) : (tallies xs).map Prod.fst = xs.eraseDups := by
  rw [tallies, List.map_map]
  exact List.map_id _

theorem sum_tallies (xs : List α) : ((tallies xs).map Prod.snd).sum = xs.length := by
  have hperm : xs.eraseDups.Perm xs.dedup :=
    (List.perm_ext_iff_of_nodup (nodup_eraseDups xs) xs.nodup_dedup).2 fun x => by
      rw [List.mem_eraseDups, List.mem_dedup]
  rw [tallies, List.map_map, ← List.sum_map_count_dedup_eq_length xs]
  exact (hperm.map _).sum_nat

theorem ordered_ranked (xs : List α) : (ranked xs).Pairwise fun p q =>
    q.2 < p.2 ∨ q.2 = p.2 ∧ xs.idxOf p.1 < xs.idxOf q.1 := by
  have htrans : ∀ a b c : α × Nat, decide (b.2 ≤ a.2) = true → decide (c.2 ≤ b.2) = true →
      decide (c.2 ≤ a.2) = true := by
    simp only [decide_eq_true_eq]
    omega
  have htotal : ∀ a b : α × Nat, (decide (b.2 ≤ a.2) || decide (a.2 ≤ b.2)) = true := by
    simp only [Bool.or_eq_true, decide_eq_true_eq]
    omega
  have hfirst : (tallies xs).Pairwise fun p q => xs.idxOf p.1 < xs.idxOf q.1 := by
    rw [← List.pairwise_map (f := Prod.fst) (R := fun a b => xs.idxOf a < xs.idxOf b),
      map_fst_tallies]
    exact pairwise_eraseDups xs
  rw [List.pairwise_iff_forall_sublist]
  intro p q hpq
  have hle : q.2 ≤ p.2 := by
    have hsorted := List.pairwise_iff_forall_sublist.1
      (List.pairwise_mergeSort htrans htotal (tallies xs)) hpq
    simpa using hsorted
  obtain hlt | heq := Nat.lt_or_eq_of_le hle
  · exact .inl hlt
  -- sorting leaves equally frequent elements in the order of the tallies
  · have hkept := filter_mergeSort htrans htotal (p := fun r => r.2 == p.2)
      (fun a b ha hb => by simp_all) (tallies xs)
    have hties : [p, q].filter (·.2 == p.2) = [p, q] := by simp [heq]
    have hsub := hpq.filter (·.2 == p.2)
    rw [hties, ranked, hkept] at hsub
    have hfirst := List.pairwise_iff_forall_sublist.1 hfirst (hsub.trans List.filter_sublist)
    exact .inr ⟨heq, hfirst⟩

theorem ranking_ranked (xs : List α) : Ranking xs (ranked xs) := by
  have hperm : (ranked xs).Perm (tallies xs) := List.mergeSort_perm _ _
  have hkeys : ((ranked xs).map Prod.fst).Perm xs.eraseDups := by
    rw [← map_fst_tallies]
    exact hperm.map _
  refine ⟨hkeys.nodup_iff.2 (nodup_eraseDups xs), fun x hx => ?_, fun p hp => ?_,
    ordered_ranked xs, ?_⟩
  · exact hkeys.mem_iff.2 (List.mem_eraseDups.2 hx)
  · obtain ⟨x, hx, rfl⟩ := List.mem_map.1 (hperm.mem_iff.1 hp)
    exact ⟨List.mem_eraseDups.1 hx, rfl⟩
  · rw [(hperm.map _).sum_nat, sum_tallies]

theorem Ranking.mem_iff {xs : List α} {ranking : List (α × Nat)} (h : Ranking xs ranking)
    (p : α × Nat) : p ∈ ranking ↔ p.1 ∈ xs ∧ p.2 = xs.count p.1 := by
  refine ⟨h.count p, fun ⟨hmem, hcount⟩ => ?_⟩
  obtain ⟨q, hq, hfst⟩ := List.mem_map.1 (h.covers _ hmem)
  have hsnd : q.2 = p.2 := by rw [hcount, ← hfst, (h.count q hq).2]
  rwa [← Prod.ext hfst hsnd]

theorem Ranking.unique {xs : List α} {ranking ranking' : List (α × Nat)} (h : Ranking xs ranking)
    (h' : Ranking xs ranking') : ranking = ranking' := by
  have hnodup {r : List (α × Nat)} (hr : Ranking xs r) : r.Nodup := .of_map _ hr.nodup
  have hperm : ranking.Perm ranking' := (List.perm_ext_iff_of_nodup (hnodup h) (hnodup h')).2
    fun p => by rw [h.mem_iff, h'.mem_iff]
  refine hperm.eq_of_pairwise (fun p q _ _ hpq hqp => ?_) h.ordered h'.ordered
  omega

theorem Ranking.map {f : α → β} (hf : f.Injective) {xs : List α} {ranking : List (α × Nat)}
    (h : Ranking xs ranking) : Ranking (xs.map f) (ranking.map (Prod.map f id)) := by
  have hkeys : (ranking.map (Prod.map f id)).map Prod.fst = (ranking.map Prod.fst).map f := by
    simp only [List.map_map, Function.comp_def, Prod.map_fst]
  refine ⟨?_, fun y hy => ?_, fun p hp => ?_, ?_, ?_⟩
  · rw [hkeys]
    exact h.nodup.map hf
  · obtain ⟨x, hx, rfl⟩ := List.mem_map.1 hy
    rw [hkeys]
    exact List.mem_map_of_mem (h.covers x hx)
  · obtain ⟨q, hq, rfl⟩ := List.mem_map.1 hp
    obtain ⟨hmem, hcount⟩ := h.count q hq
    rw [Prod.map_snd, Prod.map_fst, List.count_map_of_injective xs f hf]
    exact ⟨List.mem_map_of_mem hmem, hcount⟩
  · rw [List.pairwise_map]
    refine h.ordered.imp fun {p q} hpq => ?_
    rwa [Prod.map_snd, Prod.map_snd, Prod.map_fst, Prod.map_fst, idxOf_map hf, idxOf_map hf]
  · rw [List.length_map, ← h.total, List.map_map]
    rfl

end Ranking

/-- The record of an expression: its value, or the kind and the message of its fault. -/
inductive Entered (k : Calculator) (e : Option String) : List (Option String) → Prop
  | value {v : String} (h : k.report e = .ok ⟨e, .ok v⟩) : Entered k e [e, some v, none, none]
  | fault {f : Fault} (h : k.report e = .ok ⟨e, .error f⟩) :
      Entered k e [e, none, some f.kind.name, some f.message]

theorem entered_of_report {k : Calculator} {e : Option String} {r : Report}
    (h : k.report e = .ok r) : Entered k e (row r) := by
  obtain ⟨expression, outcome⟩ := r
  obtain rfl := Calculator.expression_of_report h
  cases outcome with
  | ok v => exact .value h
  | error f => exact .fault h

theorem name_injective : FaultKind.name.Injective := fun a b h => by
  cases a <;> cases b <;> first | rfl | exact absurd h (by decide)

theorem column_kind_eq (rs : List Report) :
    column "error_kind" rs = (faultKinds rs).map FaultKind.name := by
  rw [column_kind, faultKinds, List.map_filterMap]
  exact congrArg (List.filterMap · rs) (funext fun r => by cases r.fault? <;> rfl)

theorem summary_of_kinds {rs : List Report} (h : column "error_kind" rs = []) :
    summary rs = [⟨.info, s!"All {rs.length} expressions evaluated successfully"⟩] := by
  rw [column_kind_eq, List.map_eq_nil_iff] at h
  simp [summary, h]

theorem exists_ranking {rs : List Report} {kinds : List String}
    (hkinds : column "error_kind" rs = kinds) (h : kinds ≠ []) :
    ∃ ranking, Ranking kinds ranking ∧ summary rs =
      ⟨.warning, s!"{kinds.length} of {rs.length} expressions failed:"⟩ ::
        ranking.map fun p => ⟨.warning, s!"  - {p.1}: {p.2}"⟩ := by
  rw [column_kind_eq] at hkinds
  subst hkinds
  refine ⟨_, (ranking_ranked (faultKinds rs)).map name_injective, ?_⟩
  have hne : (faultKinds rs).isEmpty = false := by simpa using h
  rw [summary, hne, List.map_map, List.length_map]
  rfl

/-- Where every expression is reported on, each is entered once and in order. It is logged that all
have a value just if none has a fault; else how many have one, and how often each kind of fault
occurs. -/
theorem evaluate_summarized {k : Calculator} {es : List (Option String)}
    (h : ∀ e ∈ es, ∃ r, k.report e = .ok r) : ∃ rs kinds, evaluate k es = .ok rs ∧
      List.Forall₂ (Entered k) es (rs.map row) ∧ kinds = column "error_kind" rs ∧
      (summary rs = [⟨.info, s!"All {es.length} expressions evaluated successfully"⟩] ↔
        kinds = []) ∧
      (kinds ≠ [] → ∃ ranking, Ranking kinds ranking ∧ summary rs =
        ⟨.warning, s!"{kinds.length} of {es.length} expressions failed:"⟩ ::
          ranking.map fun p => ⟨.warning, s!"  - {p.1}: {p.2}"⟩) := by
  obtain ⟨rs, hrs⟩ := exists_forall₂ h
  refine ⟨rs, column "error_kind" rs, evaluate_eq_ok_iff.2 hrs, ?_, rfl, ⟨fun hall => ?_, fun hnil => ?_⟩,
    fun hne => ?_⟩
  · exact List.forall₂_map_right_iff.2 (hrs.imp fun _ _ => entered_of_report)
  · by_contra hne
    obtain ⟨ranking, -, hsummary⟩ := exists_ranking rfl hne
    rw [hall] at hsummary
    cases hsummary
  · rw [hrs.length_eq]
    exact summary_of_kinds hnil
  · rw [hrs.length_eq]
    exact exists_ranking rfl hne

def tied : List (Option String) :=
  [some "(", some "1/0", some "1+", some "2*3", some "5%0", some ")"]

def tiedKinds : List String :=
  ["MismatchedParentheses", "DivisionByZero", "InvalidOperatorSequence", "DivisionByZero",
    "MismatchedParentheses"]

theorem evaluate_summarized_tied :
    (∀ e ∈ tied, ∃ r, Calculator.standard.report e = .ok r) ∧
      ∃ rs, evaluate .standard tied = .ok rs ∧
        List.Forall₂ (Entered .standard) tied (rs.map row) ∧
        summary rs = [⟨.warning, "5 of 6 expressions failed:"⟩,
          ⟨.warning, "  - MismatchedParentheses: 2"⟩, ⟨.warning, "  - DivisionByZero: 2"⟩,
          ⟨.warning, "  - InvalidOperatorSequence: 1"⟩] := by
  have hreported : ∀ e ∈ tied, ∃ r, Calculator.standard.report e = .ok r := by
    have hok : ∀ e ∈ tied, (Calculator.standard.report e).isOk = true := by decide +kernel
    exact fun e he => isOk_iff.1 (hok e he)
  obtain ⟨rs, kinds, hrs, hrows, hkinds, -, hlog⟩ := evaluate_summarized hreported
  have hcolumn : (evaluate .standard tied).toOption.map (column "error_kind") =
      some tiedKinds := by decide +kernel
  rw [hrs] at hcolumn
  rw [hkinds.trans (Option.some.inj hcolumn)] at hlog
  obtain ⟨ranking, hranking, hsummary⟩ := hlog (List.cons_ne_nil _ _)
  have htie : Ranking tiedKinds [("MismatchedParentheses", 2), ("DivisionByZero", 2),
    ("InvalidOperatorSequence", 1)] := by decide +kernel
  rw [hranking.unique htie] at hsummary
  exact ⟨hreported, rs, hrs, hrows, hsummary⟩

end Reckoner.Batch
