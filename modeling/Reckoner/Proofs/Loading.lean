import Mathlib.Data.List.DropRight
import Reckoner.Proofs.Document

/-! What is loaded from documents. Main statement: two documents with a line feed between them hold
the expressions of the one and then those of the other, and the expressions of a document, written
one a line, are loaded again. -/
namespace Reckoner.Text

structure Trimmed (s : String) : Prop where
  head : ∀ c ∈ s.toList.head?, isBlank c = false
  last : ∀ c ∈ s.toList.getLast?, isBlank c = false

theorem trimmed_trim (s : String) : Trimmed (trim s) := by
  rw [trim, trimBy]
  refine ⟨fun c hc => ?_, fun c hc => ?_⟩
  · rw [String.toList_ofList] at hc
    obtain ⟨cut, hcut⟩ := List.rdropWhile_prefix isBlank (s.toList.dropWhile isBlank)
    have hhead : c ∈ (s.toList.dropWhile isBlank).head? := by
      rw [← hcut, List.head?_append, List.rdropWhile, hc]
      rfl
    exact head_dropWhile isBlank s.toList c hhead
  · rw [String.toList_ofList, List.getLast?_reverse] at hc
    exact head_dropWhile isBlank _ c hc

theorem trim_of_trimmed {s : String} (h : Trimmed s) : trim s = s := by
  have hhead := (takeWhile_append_of_head isBlank (List.forall_mem_nil _) h.head).2
  have hlast : ∀ c ∈ s.toList.reverse.head?, isBlank c = false := by
    rw [List.head?_reverse]
    exact h.last
  have hlast := (takeWhile_append_of_head isBlank (List.forall_mem_nil _) hlast).2
  rw [List.nil_append] at hhead hlast
  rw [trim, trimBy, hhead, hlast, List.reverse_reverse, String.ofList_toList]

theorem afterBreak_feed (c : Char) (cs ds : List Char) :
    afterBreak (c :: cs ++ '\n' :: ds) = afterBreak (c :: cs) ++ '\n' :: ds ∨
      afterBreak (c :: cs) = [] ∧ afterBreak (c :: cs ++ '\n' :: ds) = ds := by
  by_cases hc : c = '\r'
  · subst hc
    cases cs with
    | nil => exact .inr ⟨rfl, rfl⟩
    | cons d cs =>
      refine .inl ?_
      by_cases hd : d = '\n'
      · subst hd
        rfl
      · simp [afterBreak, hd]
  · exact .inl (by simp [afterBreak, hc])

theorem lines_feed (cs ds : List Char) : ∃ gap, (∀ line ∈ gap, line = []) ∧
    lines (cs ++ '\n' :: ds) = lines cs ++ gap ++ lines ds := by
  induction cs using lines.induct with
  | case1 =>
    have hempty := lines_line ('\n' :: ds) (List.forall_mem_nil _)
      (by simp [isLineBreak, lineBreaks]) (List.cons_ne_nil _ _)
    exact ⟨[[]], by simp, by rw [hempty, lines]; rfl⟩
  | case2 c cs ih =>
    obtain ⟨gap, hgap, ih⟩ := ih
    have hin : ∀ d ∈ (c :: cs).takeWhile (!isLineBreak ·), isLineBreak d = false := fun d hd => by
      simpa using List.mem_takeWhile_imp hd
    have hend : ∀ d ∈ ((c :: cs).dropWhile (!isLineBreak ·)).head?, isLineBreak d = true :=
      fun d hd => by simpa using head_dropWhile _ _ d hd
    have hcut := List.takeWhile_append_dropWhile (p := (!isLineBreak ·)) (l := c :: cs)
    generalize (c :: cs).takeWhile (!isLineBreak ·) = line at *
    generalize (c :: cs).dropWhile (!isLineBreak ·) = rest at *
    rw [← hcut, lines_line rest hin hend (by simp [hcut]), List.append_assoc,
      lines_line (rest ++ '\n' :: ds) hin ?_ (by simp)]
    · cases rest with
      | nil => exact ⟨[], by simp, by rw [afterBreak, lines]; rfl⟩
      | cons d rest =>
        -- the line feed may be the second half of a line end that `cs` began
        obtain h | ⟨hnil, h⟩ := afterBreak_feed d rest ds
        · exact ⟨gap, hgap, by rw [h, ih]; rfl⟩
        · exact ⟨[], by simp, by rw [h, hnil, lines]; rfl⟩
    · cases rest with
      | nil => simp [isLineBreak, lineBreaks]
      | cons d rest => simpa using hend

end Reckoner.Text

namespace Reckoner.Batch
open Session (Lined)

def load (bytes : ByteArray) : Except Failure (List String) := (decode bytes).map expressions

/-- One line with nothing on it but an expression: not empty, without line ends and outer blanks, and
no comment. -/
structure Bare (e : String) : Prop extends Text.OneLine e, Text.Trimmed e where
  no_comment : ¬ Settings.batch.commentMark.toList <+: e.toList

theorem holdsExpression_iff {e : String} : holdsExpression e = true ↔
    e ≠ "" ∧ ¬ Settings.batch.commentMark.toList <+: e.toList := by
  rw [holdsExpression, Bool.and_eq_true, bne_iff_ne, Bool.not_eq_true', ← Bool.not_eq_true,
    List.isPrefixOf_iff_prefix]

theorem load_toUTF8 (text : String) : load text.toUTF8 = .ok (expressions text) := by
  rw [load, decode_toUTF8]
  rfl

theorem expressions_feed (a b : String) :
    expressions (a ++ "\n" ++ b) = expressions a ++ expressions b := by
  obtain ⟨gap, hgap, hlines⟩ := Text.lines_feed a.toList b.toList
  have htext : (a ++ "\n" ++ b).toList = a.toList ++ '\n' :: b.toList := by simp
  have hnone : ((gap.map String.ofList).map Text.trim).filter holdsExpression = [] := by
    rw [List.map_map, List.filter_eq_nil_iff]
    intro e he
    obtain ⟨line, hl, rfl⟩ := List.mem_map.1 he
    rw [hgap line hl]
    decide
  simp only [expressions, documentLines_eq, htext, hlines, List.map_append, List.filter_append, hnone,
    List.append_nil]

theorem bare_of_mem_expressions {document e : String} (h : e ∈ expressions document) : Bare e := by
  have hone := oneLine_of_mem_expressions h
  obtain ⟨hmem, hholds⟩ := List.mem_filter.1 h
  obtain ⟨line, -, rfl⟩ := List.mem_map.1 hmem
  exact { hone, Text.trimmed_trim line with no_comment := (holdsExpression_iff.1 hholds).2 }

theorem Bare.expressions_eq {e : String} (h : Bare e) : expressions e = [e] := by
  have hnil : e.toList ≠ [] := fun hl => h.ne_empty (String.toList_eq_nil_iff.1 hl)
  have hcut := Text.lines_line [] h.unbroken (by simp) (by simpa using hnil)
  rw [List.append_nil, Text.afterBreak, Text.lines] at hcut
  rw [expressions, documentLines_eq, hcut, List.map_singleton, String.ofList_toList,
    List.map_singleton, Text.trim_of_trimmed h.toTrimmed,
    List.filter_singleton, holdsExpression_iff.2 ⟨h.ne_empty, h.no_comment⟩]
  rfl

/-- Bare lines, however they are written one below the other, are the expressions of their text:
induction on the lines, each parted from the others by its line feed. -/
theorem expressions_of_lined {text : String} {es : List String} (h : Lined text es)
    (hes : ∀ e ∈ es, Bare e) : expressions text = es := by
  induction h with
  | empty => rw [expressions, documentLines_eq, String.toList_empty, Text.lines]; rfl
  | last => exact (hes _ (by simp)).expressions_eq
  | line _ _ ih =>
    obtain ⟨he, hes⟩ := List.forall_mem_cons.1 hes
    rw [expressions_feed, he.expressions_eq, ih hes]
    rfl

theorem lined_join {es : List String} (h : ∀ e ∈ es, Bare e) :
    Lined (String.join (es.map (· ++ "\n"))) es := by
  induction es with
  | nil => exact .empty
  | cons e es ih =>
    obtain ⟨he, hes⟩ := List.forall_mem_cons.1 h
    rw [List.map_cons, String.join_cons]
    refine .line (fun hfeed => ?_) (ih hes)
    have hbreak := he.unbroken _ hfeed
    simp [Text.isLineBreak, Text.lineBreaks] at hbreak

/-- Any texts can be loaded. With a line feed between them they are loaded as one and then the other.
What is loaded are bare lines, each of which is loaded as itself; so it is loaded again when it is
written one a line. -/
theorem load_feed (a b : String) : ∃ as bs, load a.toUTF8 = .ok as ∧ load b.toUTF8 = .ok bs ∧
    load (a ++ "\n" ++ b).toUTF8 = .ok (as ++ bs) ∧
    (∀ e ∈ as, Bare e ∧ load e.toUTF8 = .ok [e]) ∧
    Lined (String.join (as.map (· ++ "\n"))) as ∧
    ∀ text, Lined text as → load text.toUTF8 = .ok as := by
  have hbare : ∀ e ∈ expressions a, Bare e := fun e => bare_of_mem_expressions
  refine ⟨expressions a, expressions b, load_toUTF8 a, load_toUTF8 b, ?_, fun e he => ?_,
    lined_join hbare, fun text htext => ?_⟩
  · rw [load_toUTF8, expressions_feed]
  · exact ⟨hbare e he, by rw [load_toUTF8, (hbare e he).expressions_eq]⟩
  · rw [load_toUTF8, expressions_of_lined htext hbare]

/-- At the seam a carriage return and a line feed are one line end. -/
example : expressions ("1\r" ++ "\n" ++ "\x1c 2\u2028#3\x0b\t4") = ["1", "2", "4"] := by
  decide +kernel

end Reckoner.Batch
