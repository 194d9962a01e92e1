import Mathlib.Data.List.Basic
import Mathlib.Data.List.Forall2
import Mathlib.Data.List.Induction

/-! General facts about results that may be errors, and about lists. -/
namespace Reckoner

section Except
variable {ε α β : Type}

theorem isOk_iff {x : Except ε α} : x.isOk = true ↔ ∃ a, x = .ok a := by
  cases x <;> simp [Except.isOk, Except.toBool]

theorem bind_eq_ok_iff {x : Except ε α} {f : α → Except ε β} {b : β} :
    x >>= f = .ok b ↔ ∃ a, x = .ok a ∧ f a = .ok b := by
  cases x <;> simp [bind, Except.bind]

theorem map_eq_error_iff {f : α → β} {x : Except ε α} {e : ε} :
    x.map f = .error e ↔ x = .error e := by
  cases x <;> simp [Except.map]

theorem mapM_eq_ok_iff {f : α → Except ε β} {xs : List α} {ys : List β} :
    xs.mapM f = .ok ys ↔ List.Forall₂ (fun x y => f x = .ok y) xs ys := by
  constructor
  · intro h
    induction xs generalizing ys with
    | nil =>
      obtain rfl := Except.ok.inj h
      exact .nil
    | cons x xs ih =>
      rw [List.mapM_cons] at h
      obtain ⟨y, hy, h⟩ := bind_eq_ok_iff.1 h
      obtain ⟨ys, hys, h⟩ := bind_eq_ok_iff.1 h
      obtain rfl := Except.ok.inj h
      exact .cons hy (ih hys)
  · intro h
    induction h with
    | nil => rfl
    | cons hy _ ih =>
      rw [List.mapM_cons, hy, ih]
      rfl

theorem exists_of_mapM_eq_error {f : α → Except ε β} {xs : List α} {e : ε}
    (h : xs.mapM f = .error e) : ∃ x ∈ xs, f x = .error e := by
  induction xs with
  | nil => cases h
  | cons x xs ih =>
    rw [List.mapM_cons] at h
    rw [List.exists_mem_cons_iff]
    cases hx : f x with
    | error e' =>
      rw [hx] at h
      exact .inl (congrArg _ (Except.error.inj h))
    | ok y =>
      cases hxs : xs.mapM f with
      | error e' =>
        rw [hx, hxs] at h
        exact .inr (ih (hxs.trans (congrArg _ (Except.error.inj h))))
      | ok ys =>
        rw [hx, hxs] at h
        cases h

end Except

section List
variable {α β : Type}

theorem exists_cons_cons_of_length {l : List α} (h : 2 ≤ l.length) :
    ∃ a b rest, l = a :: b :: rest := by
  obtain _ | ⟨a, _ | ⟨b, rest⟩⟩ := l
  · cases h
  · exact absurd h (by simp)
  · exact ⟨a, b, rest, rfl⟩

theorem takeWhile_append_of_head (p : α → Bool) {above rest : List α}
    (ha : ∀ w ∈ above, p w = true) (hr : ∀ w ∈ rest.head?, p w = false) :
    (above ++ rest).takeWhile p = above ∧ (above ++ rest).dropWhile p = rest := by
  rw [List.takeWhile_append_of_pos ha, List.dropWhile_append_of_pos ha]
  cases rest with
  | nil => simp
  | cons w rest => simp [hr w rfl]

theorem head_dropWhile (p : α → Bool) (ws : List α) :
    ∀ w ∈ (ws.dropWhile p).head?, p w = false := by
  intro w hw
  have := List.head?_dropWhile_not p ws
  rw [Option.mem_def.1 hw] at this
  simpa using this

theorem exists_forall₂ {R : α → β → Prop} {as : List α} (h : ∀ a ∈ as, ∃ b, R a b) :
    ∃ bs, List.Forall₂ R as bs := by
  induction as with
  | nil => exact ⟨[], .nil⟩
  | cons a as ih =>
    obtain ⟨hb, hbs⟩ := List.forall_mem_cons.1 h
    obtain ⟨b, hb⟩ := hb
    obtain ⟨bs, hbs⟩ := ih hbs
    exact ⟨b :: bs, .cons hb hbs⟩

theorem forall_of_forall₂ {R : α → β → Prop} {p : β → Prop} {as : List α} {bs : List β}
    (hp : ∀ a b, R a b → p b) (h : List.Forall₂ R as bs) : ∀ b ∈ bs, p b := by
  induction h with
  | nil => simp
  | cons hab _ ih => exact List.forall_mem_cons.2 ⟨hp _ _ hab, ih⟩

theorem filter_mergeSort {le : α → α → Bool} (htrans : ∀ a b c, le a b → le b c → le a c)
    (htotal : ∀ a b, le a b || le b a) {p : α → Bool} (hp : ∀ a b, p a → p b → le a b)
    (xs : List α) : (xs.mergeSort le).filter p = xs.filter p := by
  have hsorted : (xs.filter p).Pairwise (le · ·) :=
    List.pairwise_of_forall_mem_list fun a ha b hb =>
      hp a b (List.of_mem_filter ha) (List.of_mem_filter hb)
  have hsub := (List.sublist_mergeSort htrans htotal hsorted List.filter_sublist).filter p
  simp only [List.filter_filter, Bool.and_self] at hsub
  exact (hsub.eq_of_length ((List.mergeSort_perm xs le).filter p).length_eq.symm).symm

variable [DecidableEq α] [DecidableEq β]

/-- The distinct elements stand in the order in which they first occur: induction from the right, as
a new one comes last. -/
theorem pairwise_eraseDups (xs : List α) :
    xs.eraseDups.Pairwise fun a b => xs.idxOf a < xs.idxOf b := by
  induction xs using List.reverseRecOn with
  | nil => exact .nil
  | append_singleton xs x ih =>
    have hold {a : α} (ha : a ∈ xs.eraseDups) : (xs ++ [x]).idxOf a = xs.idxOf a :=
      List.idxOf_append_of_mem (List.mem_eraseDups.1 ha)
    have hnew : ([x].removeAll xs).eraseDups = if x ∈ xs then [] else [x] := by
      by_cases hx : x ∈ xs <;> simp [List.removeAll, hx, List.eraseDups_cons]
    rw [List.eraseDups_append, hnew, List.pairwise_append]
    refine ⟨ih.imp_of_mem fun ha hb hab => ?_, by split <;> simp, fun a ha b hb => ?_⟩
    · rwa [hold ha, hold hb]
    · split at hb
      · cases hb
      next hx =>
        obtain rfl := List.mem_singleton.1 hb
        have hlt : xs.idxOf a < xs.length := List.idxOf_lt_length_of_mem (List.mem_eraseDups.1 ha)
        rw [hold ha, List.idxOf_append_of_notMem hx]
        omega

theorem nodup_eraseDups (xs : List α) : xs.eraseDups.Nodup :=
  (pairwise_eraseDups xs).imp fun hlt heq => by rw [heq] at hlt; exact Nat.lt_irrefl _ hlt

theorem idxOf_map {f : α → β} (hf : f.Injective) (xs : List α) (a : α) :
    (xs.map f).idxOf (f a) = xs.idxOf a := by
  have hbeq : (· == f a) ∘ f = (· == a) := funext fun b => by simp [hf.eq_iff]
  rw [List.idxOf, List.findIdx_map, hbeq, List.idxOf]

end List
end Reckoner
