import Reckoner.Lexeme
import Reckoner.Proofs.Moves
import Reckoner.Proofs.Plain

/-! The segments of a text. Main statements: the lexemes are the maximal runs of digits and points
and the other characters that are not blank, each at its place; they do not overlap, and together
they hold every character that is not blank. -/
namespace Reckoner

theorem isBlank_digitChar : ∀ n < 10, Text.isBlank (Nat.digitChar n) = false := by decide

namespace Lexeme

theorem isNumberChar_iff {c : Char} : isNumberChar c = true ↔ c.isDigit = true ∨ c = '.' := by
  simp [isNumberChar]

theorem isBlank_of_isNumberChar {c : Char} (h : isNumberChar c = true) :
    Text.isBlank c = false := by
  obtain h | rfl := isNumberChar_iff.1 h
  · obtain ⟨n, hn, rfl⟩ := digitChar_of_isDigit h
    exact isBlank_digitChar n hn
  · decide

theorem isNumberChar_of_isBlank {c : Char} (h : Text.isBlank c = true) :
    isNumberChar c = false := by
  cases hc : isNumberChar c with
  | false => rfl
  | true => rw [isBlank_of_isNumberChar hc] at h; cases h

/-- A run of digits and points between what comes before and after, extended as far as it goes on
both sides. -/
structure IsRun (before run after : List Char) : Prop where
  ne_nil : run ≠ []
  inside : ∀ c ∈ run, isNumberChar c = true
  left : ∀ c ∈ before.getLast?, isNumberChar c = false
  right : ∀ c ∈ after.head?, isNumberChar c = false

/-- The lexeme stands directly between what comes before and after. -/
inductive Stands (before : List Char) : Lexeme → List Char → Prop
  | number {run after : List Char} (h : IsRun before run after) :
      Stands before (.number before.length run) after
  | mark {c : Char} {after : List Char} (hb : Text.isBlank c = false)
      (hn : isNumberChar c = false) : Stands before (.mark before.length c) after

/-- `Cut before cs ls`: behind `before` the text `cs` is cut into the lexemes `ls`. -/
inductive Cut : List Char → List Char → List Lexeme → Prop
  | nil {before : List Char} : Cut before [] []
  | blank {before cs : List Char} {ls : List Lexeme} {c : Char} (hc : Text.isBlank c = true)
      (h : Cut (before ++ [c]) cs ls) : Cut before (c :: cs) ls
  | cons {before cs : List Char} {ls : List Lexeme} {l : Lexeme} (hl : Stands before l cs)
      (h : Cut (before ++ l.chars) cs ls) : Cut before (l.chars ++ cs) (l :: ls)

theorem split_blank {c : Char} (hc : Text.isBlank c = true) (p : Nat) (cs : List Char) :
    split p (c :: cs) = split (p + 1) cs := by
  rw [split, if_pos hc]

theorem split_mark {c : Char} (hb : Text.isBlank c = false) (hn : isNumberChar c = false) (p : Nat)
    (cs : List Char) : split p (c :: cs) = .mark p c :: split (p + 1) cs := by
  rw [split, if_neg (by simp [hb]), if_neg (by simp [hn])]

theorem split_run {run after : List Char} (hne : run ≠ [])
    (hin : ∀ c ∈ run, isNumberChar c = true) (hright : ∀ c ∈ after.head?, isNumberChar c = false)
    (p : Nat) : split p (run ++ after) = .number p run :: split (p + run.length) after := by
  obtain ⟨c, more, rfl⟩ := List.exists_cons_of_ne_nil hne
  have hc : isNumberChar c = true := hin c (by simp)
  obtain ⟨htake, hdrop⟩ := takeWhile_append_of_head isNumberChar
    (fun d hd => hin d (List.mem_cons_of_mem c hd)) hright
  rw [List.cons_append, split, if_neg (by simp [isBlank_of_isNumberChar hc]), if_pos hc]
  simp only [htake, hdrop, List.length_cons]
  rw [Nat.add_assoc, Nat.add_comm 1]

theorem split_stands {before cs : List Char} {l : Lexeme} (h : Stands before l cs) :
    split before.length (l.chars ++ cs) = l :: split (before ++ l.chars).length cs := by
  rw [List.length_append]
  cases h with
  | number h => exact split_run h.ne_nil h.inside h.right before.length
  | mark hb hn => exact split_mark hb hn before.length cs

/-- No run of digits and points goes over from one text to the next. -/
def Apart (us vs : List Char) : Prop :=
  ∀ c ∈ us.getLast?, isNumberChar c = true → ∀ d ∈ vs.head?, isNumberChar d = false

theorem Apart.of_last {c : Char} (hc : isNumberChar c = false) (us vs : List Char) :
    Apart (us ++ [c]) vs := by simp [Apart, hc]

theorem isNumberChar_of_mem_run {c : Char} (hc : isNumberChar c = true) (cs : List Char) :
    ∀ d ∈ c :: cs.takeWhile isNumberChar, isNumberChar d = true :=
  List.forall_mem_cons.2 ⟨hc, fun _ => List.mem_takeWhile_imp⟩

theorem cut_split (before cs : List Char) (h : Apart before cs) :
    Cut before cs (split before.length cs) := by
  generalize hp : before.length = p
  induction p, cs using split.induct generalizing before with
  | case1 p => rw [split]; exact .nil
  | case2 p c cs hc ih =>
    rw [split_blank hc]
    exact .blank hc (ih (before ++ [c]) (.of_last (isNumberChar_of_isBlank hc) before cs)
      (by simp [hp]))
  | case3 p c cs hb hc more ih =>
    -- `before` ends no run, so the run that is read extends as far as it goes on both sides
    have hrun : IsRun before (c :: more) (cs.dropWhile isNumberChar) := by
      refine ⟨by simp, isNumberChar_of_mem_run hc cs, fun d hd => ?_,
        head_dropWhile isNumberChar cs⟩
      refine Bool.eq_false_iff.2 fun hd' => ?_
      rw [h d hd hd' c rfl] at hc
      cases hc
    have hcs : c :: cs = (c :: more) ++ cs.dropWhile isNumberChar := by
      rw [List.cons_append, List.takeWhile_append_dropWhile]
    have hcut : Cut (before ++ (c :: more)) (cs.dropWhile isNumberChar)
        (split (p + 1 + more.length) (cs.dropWhile isNumberChar)) := by
      refine ih (before ++ (c :: more)) (fun _ _ _ => hrun.right) ?_
      simp [hp]
      omega
    have hsplit : split p (c :: cs) =
        .number p (c :: more) :: split (p + 1 + more.length) (cs.dropWhile isNumberChar) := by
      rw [split, if_neg hb, if_pos hc]
    rw [hsplit, hcs, ← hp]
    exact .cons (.number hrun) (hp ▸ hcut)
  | case4 p c cs hb hc ih =>
    have hcut : Cut (before ++ [c]) cs (split (p + 1) cs) :=
      ih (before ++ [c]) (.of_last (by simpa using hc) before cs) (by simp [hp])
    rw [split_mark (by simpa using hb) (by simpa using hc), ← hp]
    exact .cons (l := .mark before.length c) (.mark (by simpa using hb) (by simpa using hc))
      (hp ▸ hcut)

namespace Stands
variable {before after : List Char} {l : Lexeme}

theorem position_eq (h : Stands before l after) : l.position = before.length := by cases h <;> rfl

theorem chars_ne_nil (h : Stands before l after) : l.chars ≠ [] := by
  cases h with
  | number h => exact h.ne_nil
  | mark => exact List.cons_ne_nil _ _

theorem isBlank_of_mem (h : Stands before l after) {c : Char} (hc : c ∈ l.chars) :
    Text.isBlank c = false := by
  cases h with
  | number h => exact isBlank_of_isNumberChar (h.inside c hc)
  | mark hb => obtain rfl := List.mem_singleton.1 hc; exact hb

theorem unique {after' : List Char} {l' : Lexeme} (h : Stands before l after)
    (h' : Stands before l' after') (heq : l.chars ++ after = l'.chars ++ after') : l = l' := by
  have hsplit := split_stands h
  rw [heq, split_stands h'] at hsplit
  exact (List.cons.inj hsplit).1.symm

theorem not_inside {us us' vs : List Char} (hne : us ≠ []) (hne' : us' ≠ [])
    (hin : ∀ c ∈ us ++ us', isNumberChar c = true) (h : Stands (before ++ us) l vs) :
    ¬ ∃ after, l.chars ++ vs = us' ++ after := by
  rintro ⟨after, heq⟩
  obtain ⟨d, ds, rfl⟩ := List.exists_cons_of_ne_nil hne'
  have hd : isNumberChar d = true := hin d (by simp)
  obtain ⟨ws, c, rfl⟩ := (List.eq_nil_or_concat us).resolve_left hne
  have hc : isNumberChar c = true := hin c (by simp)
  cases h with
  | number h => rw [h.left c (by simp)] at hc; cases hc
  | mark hb hn =>
    have hhead := (List.cons.inj heq).1
    rw [← hhead, hn] at hd
    cases hd

end Stands

namespace Cut
variable {before cs : List Char} {ls : List Lexeme}

theorem stands (h : Cut before cs ls) {l : Lexeme} (hl : l ∈ ls) :
    ∃ us vs, cs = us ++ l.chars ++ vs ∧ Stands (before ++ us) l vs := by
  induction h with
  | nil => cases hl
  | @blank before cs ls c hc h ih =>
    obtain ⟨us, vs, rfl, hs⟩ := ih hl
    exact ⟨c :: us, vs, rfl, by simpa using hs⟩
  | @cons before cs ls m hm h ih =>
    obtain rfl | hl := List.mem_cons.1 hl
    · exact ⟨[], cs, by simp, by simpa using hm⟩
    · obtain ⟨us, vs, rfl, hs⟩ := ih hl
      exact ⟨m.chars ++ us, vs, by simp, by simpa using hs⟩

theorem mem (h : Cut before cs ls) {us vs : List Char} {l : Lexeme} (hcs : cs = us ++ l.chars ++ vs)
    (hl : Stands (before ++ us) l vs) : l ∈ ls := by
  induction h generalizing us with
  | nil => exact absurd hcs (by simp [hl.chars_ne_nil])
  | @blank before cs ls c hc h ih =>
    cases us with
    | nil =>
      obtain ⟨d, ds, hd⟩ := List.exists_cons_of_ne_nil hl.chars_ne_nil
      rw [hd] at hcs
      have hblank := hl.isBlank_of_mem (hd ▸ List.mem_cons_self)
      rw [← (List.cons.inj hcs).1, hc] at hblank
      cases hblank
    | cons d us =>
      obtain ⟨rfl, rfl⟩ := List.cons.inj hcs
      exact ih rfl (by simpa using hl)
  | @cons before cs ls m hm h ih =>
    have hafter {ws : List Char} (hus : us = m.chars ++ ws) : l ∈ ls := by
      rw [hus, List.append_assoc, List.append_assoc] at hcs
      refine @ih ws ?_ (by simpa [hus] using hl)
      rw [List.append_cancel_left hcs, List.append_assoc]
    rw [List.append_assoc] at hcs
    -- the lexeme begins behind `m`, or inside it
    obtain ⟨ws, hus, -⟩ | ⟨ws, hchars, hrest⟩ := List.append_eq_append_iff.1 hcs
    · exact List.mem_cons_of_mem m (hafter hus)
    by_cases hnil : us = []
    · rw [hnil, List.append_nil] at hl
      rw [hnil, List.nil_append] at hcs
      exact List.mem_cons.2 (.inl (hl.unique hm hcs.symm))
    by_cases hnil' : ws = []
    · rw [hnil', List.append_nil] at hchars
      exact List.mem_cons_of_mem m (@hafter [] (by rw [hchars, List.append_nil]))
    refine absurd ⟨cs, hrest⟩ (hl.not_inside hnil hnil' ?_)
    cases hm with
    | number hr => exact hchars ▸ hr.inside
    | mark => cases us <;> cases ws <;> simp [chars] at hchars hnil hnil'

theorem position_le (h : Cut before cs ls) {l : Lexeme} (hl : l ∈ ls) :
    before.length ≤ l.position := by
  obtain ⟨us, vs, -, hs⟩ := h.stands hl
  rw [hs.position_eq, List.length_append]
  exact Nat.le_add_right _ _

theorem pairwise (h : Cut before cs ls) :
    ls.Pairwise fun l m => l.position + l.chars.length ≤ m.position := by
  induction h with
  | nil => exact .nil
  | blank hc h ih => exact ih
  | cons hl h ih =>
    refine List.pairwise_cons.2 ⟨fun m hm => ?_, ih⟩
    rw [hl.position_eq, ← List.length_append]
    exact h.position_le hm

theorem covers (h : Cut before cs ls) {i : Nat} {c : Char} (hc : cs[i]? = some c) :
    Text.isBlank c = false ↔ ∃ l ∈ ls, l.position ≤ before.length + i ∧
      before.length + i < l.position + l.chars.length := by
  induction h generalizing i with
  | nil => cases hc
  | @blank before cs ls d hd h ih =>
    cases i with
    | zero =>
      obtain rfl := Option.some.inj hc
      refine ⟨fun hb => (by rw [hd] at hb; cases hb), fun ⟨l, hl, hle, _⟩ => ?_⟩
      have := h.position_le hl
      simp only [List.length_append, List.length_singleton] at this
      omega
    | succ i =>
      rw [ih (by simpa using hc), List.length_append, List.length_singleton, Nat.add_assoc,
        Nat.add_comm 1 i]
  | @cons before cs ls m hm h ih =>
    have hpos := hm.position_eq
    by_cases hi : i < m.chars.length
    · rw [List.getElem?_append_left hi] at hc
      have hblank := hm.isBlank_of_mem (List.mem_of_getElem? hc)
      simp only [hblank, true_iff]
      exact ⟨m, by simp, by omega, by omega⟩
    · rw [List.getElem?_append_right (by omega)] at hc
      have hsum : (before ++ m.chars).length + (i - m.chars.length) = before.length + i := by
        rw [List.length_append]
        omega
      rw [ih hc, hsum]
      refine ⟨fun ⟨l, hl, hin⟩ => ⟨l, List.mem_cons_of_mem m hl, hin⟩, fun ⟨l, hl, hle, hlt⟩ => ?_⟩
      obtain rfl | hl := List.mem_cons.1 hl
      · omega
      · exact ⟨l, hl, hle, hlt⟩

end Cut

theorem cut_text (cs : List Char) : Cut [] cs (split 0 cs) := cut_split [] cs nofun

theorem mem_split {cs : List Char} {l : Lexeme} :
    l ∈ split 0 cs ↔ ∃ us vs, cs = us ++ l.chars ++ vs ∧ Stands us l vs :=
  ⟨(cut_text cs).stands, fun ⟨_, _, hcs, hl⟩ => (cut_text cs).mem hcs hl⟩

theorem position_lt_of_mem_split {l : Lexeme} {cs : List Char} (h : l ∈ split 0 cs) :
    l.position < cs.length := by
  obtain ⟨us, vs, rfl, hs⟩ := mem_split.1 h
  have hpos := List.length_pos_of_ne_nil hs.chars_ne_nil
  rw [hs.position_eq, List.length_append, List.length_append]
  omega

theorem Apart.of_append {u us vs : List Char} (h : Apart (u ++ us) vs) : Apart us vs :=
  fun c hc => h c (by simp [List.getLast?_append, Option.mem_def.1 hc])

theorem Stands.apart {before after : List Char} {l : Lexeme} (h : Stands before l after) :
    Apart before (l.chars ++ after) := by
  intro c hc hn
  cases h with
  | number h =>
    rw [h.left c hc] at hn
    cases hn
  | mark hb hmark =>
    intro d hd
    obtain rfl := Option.some.inj hd
    exact hmark

/-- Where no run goes over the text can be cut in two: induction along the first part. -/
theorem split_append {us vs : List Char} (h : Apart us vs) (p : Nat) :
    split p (us ++ vs) = split p us ++ split (p + us.length) vs := by
  induction p, us using split.induct with
  | case1 p => rw [split]; rfl
  | case2 p c cs hc ih =>
    rw [List.cons_append, split_blank hc, split_blank hc, ih (h.of_append (u := [c])),
      List.length_cons, Nat.add_assoc, Nat.add_comm 1]
  | case3 p c cs hb hc more ih =>
    have hcs : c :: cs = (c :: more) ++ cs.dropWhile isNumberChar := by
      rw [List.cons_append, List.takeWhile_append_dropWhile]
    have hin := isNumberChar_of_mem_run hc cs
    have hstop := head_dropWhile isNumberChar cs
    rw [hcs] at h ⊢
    generalize cs.dropWhile isNumberChar = rest at h hstop ih ⊢
    -- the run ends in the first part, or where the second part begins
    have hstop' : ∀ d ∈ (rest ++ vs).head?, isNumberChar d = false := by
      cases rest with
      | nil =>
        obtain ⟨d, hd⟩ := Option.isSome_iff_exists.1
          (List.getLast?_isSome.2 (List.cons_ne_nil c more))
        exact h d (by simpa using hd) (hin d (List.mem_of_getLast? hd))
      | cons d rest => exact hstop
    have hlength : p + 1 + more.length = p + (c :: more).length := by
      rw [List.length_cons, Nat.add_assoc, Nat.add_comm 1]
    rw [hlength] at ih
    rw [List.append_assoc, split_run (by simp) hin hstop', split_run (by simp) hin hstop,
      ih h.of_append, List.length_append, ← Nat.add_assoc, List.cons_append]
  | case4 p c cs hb hc ih =>
    have hb : Text.isBlank c = false := by simpa using hb
    have hc : isNumberChar c = false := by simpa using hc
    rw [List.cons_append, split_mark hb hc, split_mark hb hc, ih (h.of_append (u := [c])),
      List.length_cons, Nat.add_assoc, Nat.add_comm 1, List.cons_append]

end Lexeme
end Reckoner
