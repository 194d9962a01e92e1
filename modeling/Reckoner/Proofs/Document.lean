import Reckoner.CommandLine
import Reckoner.Proofs.Dialogue

/-! Documents as lines and expressions. Main statements: no line end gets into a line or an
expression, and a document is examined expression by expression. -/
namespace Reckoner.Text

def Unbroken (s : String) : Prop := ∀ c ∈ s.toList, isLineBreak c = false

instance (s : String) : Decidable (Unbroken s) := List.decidableBAll _ s.toList

/-- The text is one line, and not an empty one. -/
structure OneLine (s : String) : Prop where
  ne_empty : s ≠ ""
  unbroken : Unbroken s

instance (s : String) : Decidable (OneLine s) :=
  decidable_of_iff (s ≠ "" ∧ Unbroken s) ⟨fun h => ⟨h.1, h.2⟩, fun h => ⟨h.1, h.2⟩⟩

theorem isBlank_of_isLineBreak {c : Char} (h : isLineBreak c = true) : isBlank c = true := by
  have hall : lineBreaks.all isBlank = true := by decide
  exact List.all_eq_true.1 hall c (List.contains_iff_mem.1 h)

theorem lines_line {line : List Char} (rest : List Char)
    (h : ∀ c ∈ line, isLineBreak c = false) (hrest : ∀ c ∈ rest.head?, isLineBreak c = true)
    (hne : line ++ rest ≠ []) :
    lines (line ++ rest) = line :: lines (afterBreak rest) := by
  have hin : ∀ c ∈ line, (!isLineBreak c) = true := fun c hc => by rw [h c hc, Bool.not_false]
  have hend : ∀ c ∈ rest.head?, (!isLineBreak c) = false := fun c hc => by
    rw [hrest c hc, Bool.not_true]
  obtain ⟨htake, hdrop⟩ := takeWhile_append_of_head (!isLineBreak ·) hin hend
  obtain ⟨c, cs, hcs⟩ := List.exists_cons_of_ne_nil hne
  rw [hcs] at htake hdrop ⊢
  rw [lines, htake, hdrop]

theorem afterBreak_cons {c : Char} {cs : List Char} (h : c = '\r' → ∀ r, cs ≠ '\n' :: r) :
    afterBreak (c :: cs) = cs := by
  unfold afterBreak
  split
  next heq =>
    obtain ⟨hc, hcs⟩ := List.cons.inj heq
    exact absurd hcs (h hc _)
  next heq => exact (List.cons.inj heq).2.symm
  next heq => cases heq

theorem afterBreak_withFeeds (cs : List Char) :
    afterBreak (withFeeds cs) = withFeeds (afterBreak cs) := by
  fun_cases withFeeds cs with
  | case1 cs => rw [afterBreak_cons (by simp), afterBreak]
  | case2 cs hfeed => rw [afterBreak_cons (by simp), afterBreak_cons fun _ => hfeed]
  | case3 c cs hfeed hc =>
    rw [afterBreak_cons fun h => (hc h).elim, afterBreak_cons fun h => (hc h).elim]
  | case4 => rfl

theorem withFeeds_append {line : List Char} (rest : List Char) (h : '\r' ∉ line) :
    withFeeds (line ++ rest) = line ++ withFeeds rest := by
  induction line with
  | nil => rfl
  | cons c line ih =>
    obtain ⟨hc, hline⟩ := not_or.1 (List.mem_cons.not.1 h)
    simp [withFeeds, Ne.symm hc, ih hline]

theorem head_withFeeds {cs : List Char} (h : ∀ c ∈ cs.head?, isLineBreak c = true) :
    ∀ c ∈ (withFeeds cs).head?, isLineBreak c = true := by
  fun_cases withFeeds cs with
  | case1 | case2 => simp [isLineBreak, lineBreaks]
  | case3 => simpa using h
  | case4 => simp

theorem withFeeds_cons_ne_nil (c : Char) (cs : List Char) : withFeeds (c :: cs) ≠ [] := by
  unfold withFeeds
  split <;> simp_all

/-- A document has the same lines before and after its carriage returns are read as line feeds. -/
theorem lines_withFeeds (cs : List Char) : lines (withFeeds cs) = lines cs := by
  fun_induction lines cs with
  | case1 => rw [withFeeds, lines]
  | case2 c cs ih =>
    have hparts := List.takeWhile_append_dropWhile (p := (!isLineBreak ·)) (l := c :: cs)
    have hline : ∀ d ∈ (c :: cs).takeWhile (!isLineBreak ·), isLineBreak d = false :=
      fun d hd => by simpa using List.all_eq_true.1 List.all_takeWhile d hd
    have hrest : ∀ d ∈ ((c :: cs).dropWhile (!isLineBreak ·)).head?, isLineBreak d = true :=
      fun d hd => by simpa using head_dropWhile _ _ d hd
    generalize (c :: cs).takeWhile (!isLineBreak ·) = line at *
    generalize (c :: cs).dropWhile (!isLineBreak ·) = rest at *
    have hreturn : '\r' ∉ line := fun h => absurd (hline _ h) (by decide)
    rw [← hparts, withFeeds_append rest hreturn, lines_line _ hline (head_withFeeds hrest),
      afterBreak_withFeeds, ih]
    rw [← withFeeds_append rest hreturn, hparts]
    exact withFeeds_cons_ne_nil c cs

theorem not_isLineBreak_of_mem_lines {cs line : List Char} (h : line ∈ lines cs) {c : Char}
    (hc : c ∈ line) : isLineBreak c = false := by
  fun_induction lines cs with
  | case1 => cases h
  | case2 d ds ih =>
    obtain rfl | h := List.mem_cons.1 h
    · simpa using List.all_eq_true.1 List.all_takeWhile c hc
    · exact ih h

theorem mem_of_mem_trim {s : String} {c : Char} (h : c ∈ (trim s).toList) : c ∈ s.toList := by
  rw [trim, String.toList_ofList, trimBy, List.mem_reverse] at h
  have h := List.mem_reverse.1 ((List.dropWhile_sublist _).mem h)
  exact (List.dropWhile_sublist _).mem h

end Reckoner.Text

namespace Reckoner.Batch

theorem documentLines_eq (document : String) :
    documentLines document = (Text.lines document.toList).map String.ofList := by
  rw [documentLines, Text.lines_withFeeds]

theorem documentLines_of_lined {text : String} {lines : List String} (h : Session.Lined text lines)
    (hlines : ∀ line ∈ lines, Text.Unbroken line) :
    documentLines text = lines := by
  induction h with
  | empty => rw [documentLines_eq, String.toList_empty, Text.lines, List.map_nil]
  | @last line hne _ =>
    have hnil : line.toList ≠ [] := fun hl => hne (String.toList_eq_nil_iff.1 hl)
    have hcut := Text.lines_line [] (hlines line (by simp)) (by simp) (by simpa using hnil)
    rw [List.append_nil, Text.afterBreak, Text.lines] at hcut
    rw [documentLines_eq, hcut, List.map_singleton, String.ofList_toList]
  | @line line rest lines _ _ ih =>
    have htext : (line ++ "\n" ++ rest).toList = line.toList ++ '\n' :: rest.toList := by simp
    have hcut := Text.lines_line ('\n' :: rest.toList) (hlines line (by simp))
      (by simp [Text.isLineBreak, Text.lineBreaks]) (by simp)
    rw [documentLines_eq, htext, hcut, List.map_cons, String.ofList_toList]
    rw [documentLines_eq] at ih
    exact congrArg (line :: ·) (ih fun l hl => hlines l (List.mem_cons_of_mem _ hl))

theorem oneLine_of_mem_expressions {document e : String} (h : e ∈ expressions document) :
    Text.OneLine e := by
  obtain ⟨hmem, hholds⟩ := List.mem_filter.1 h
  obtain ⟨line, hline, rfl⟩ := List.mem_map.1 hmem
  rw [documentLines_eq] at hline
  obtain ⟨cs, hcs, rfl⟩ := List.mem_map.1 hline
  simp only [holdsExpression, Bool.and_eq_true, bne_iff_ne] at hholds
  refine ⟨hholds.1, fun c hc => ?_⟩
  have hc := Text.mem_of_mem_trim hc
  rw [String.toList_ofList] at hc
  exact Text.not_isLineBreak_of_mem_lines hcs hc

theorem decode_toUTF8 (text : String) : decode text.toUTF8 = .ok text := by
  have h : String.fromUTF8? text.toUTF8 = some text := dif_pos text.isValidUTF8
  rw [decode, h]

theorem evaluate_eq_ok_iff {k : Calculator} {es : List (Option String)} {rs : List Report} :
    evaluate k es = .ok rs ↔ List.Forall₂ (fun e r => k.report e = .ok r) es rs := mapM_eq_ok_iff

theorem examine_eq_ok {k : Calculator} {bytes : ByteArray} {document : String} {rs : List Report}
    (hdoc : decode bytes = .ok document)
    (h : List.Forall₂ (fun e r => k.report (some e) = .ok r) (expressions document) rs) :
    examine k bytes = .ok (loadedLog document ++ summary rs, rs) := by
  have hrs : evaluate k ((expressions document).map some) = .ok rs :=
    evaluate_eq_ok_iff.2 (List.forall₂_map_left_iff.2 h)
  simp only [examine, hdoc, hrs, bind, Except.bind, pure, Except.pure]

end Reckoner.Batch

namespace Reckoner.CommandLine

section Examined
variable {σ : Type} {files : Storage (StateM σ)} {u u' : σ} {k : Calculator} {input : String}
  {bytes : ByteArray} {log : List Log.Entry} {rs : List Report}
  (hload : files.load input u = (.ok bytes, u')) (hrs : Batch.examine k bytes = .ok (log, rs))
include hload hrs

theorem runBatch_state (output : String) : (runBatch files k input output u).2 =
    (files.save output (Batch.csv rs).toUTF8 u').2 := by
  simp only [runBatch, bind, StateT.bind, hload, hrs]
  obtain ⟨x, u''⟩ := files.save output (Batch.csv rs).toUTF8 u'
  cases x <;> rfl

theorem runBatch_of_save {output : String} {u'' : σ}
    (hsave : files.save output (Batch.csv rs).toUTF8 u' = (.ok (), u'')) :
    runBatch files k input output u = (.ok ⟨if Batch.anyFailed rs then 1 else 0,
      logged (Batch.loadingLog input ++ log ++ Batch.savingLog output)⟩, u'') := by
  simp only [runBatch, bind, StateT.bind, hload, hrs, hsave]
  rfl

end Examined
end Reckoner.CommandLine
