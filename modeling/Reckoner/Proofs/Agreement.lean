import Reckoner.CommandLine
import Reckoner.Proofs.Document
import Reckoner.Proofs.Reach

/-! The ways to put expressions to a calculator. Main statement: a table, a dialogue and single
answers on the same lines hold the same values and messages, and agree on what has failed. -/
namespace Reckoner
open Session

/-- A line that holds an expression for a document as well as for a dialogue, and that comes to a
report. -/
structure Shared (k : Calculator) (line : String) : Prop where
  not_blank : Text.trim line ≠ ""
  unbroken : Text.Unbroken line
  no_comment : ¬ Settings.batch.commentMark.toList <+: (Text.trim line).toList
  stays : asksToLeave line = false
  reported : ∃ r, k.report (some (Text.trim line)) = .ok r

def Batch.column (heading : String) (rs : List Report) : List String :=
  (rs.map row).filterMap fun fields => ((Settings.batch.columns.zip fields).lookup heading).join

namespace Batch

theorem column_result (rs : List Report) : column "result" rs = rs.filterMap Report.value? := by
  rw [column, List.filterMap_map]
  rfl

theorem column_kind (rs : List Report) :
    column "error_kind" rs = rs.filterMap fun r => r.fault?.map (·.kind.name) := by
  rw [column, List.filterMap_map]
  rfl

theorem column_message (rs : List Report) :
    column "message" rs = rs.filterMap fun r => r.fault?.map Fault.message := by
  rw [column, List.filterMap_map]
  rfl

theorem expressions_of_shared {k : Calculator} {text : String} {lines : List String}
    (htext : Lined text lines) (h : ∀ line ∈ lines, Shared k line) :
    expressions text = lines.map Text.trim := by
  rw [expressions, documentLines_of_lined htext fun line hl => (h line hl).unbroken,
    List.filter_eq_self]
  intro e he
  obtain ⟨line, hl, rfl⟩ := List.mem_map.1 he
  have hmark := (h line hl).no_comment
  rw [← List.isPrefixOf_iff_prefix, Bool.not_eq_true] at hmark
  simp [holdsExpression, (h line hl).not_blank, hmark]

end Batch

namespace Session

theorem heard_of_stays {lines : List String} (h : ∀ line ∈ lines, asksToLeave line = false) :
    heard lines = lines ∧ lastFeed lines = "\n" := by
  have hall : ∀ line ∈ lines, (!asksToLeave line) = true := fun line hl => by rw [h line hl]; rfl
  have htake : (lines ++ []).takeWhile (!asksToLeave ·) = lines ++ [].takeWhile _ :=
    List.takeWhile_append_of_pos hall
  rw [List.append_nil, List.takeWhile_nil, List.append_nil] at htake
  have hany : lines.any asksToLeave = false := by simpa using h
  exact ⟨htake, by rw [lastFeed, hany]; rfl⟩

theorem map_outcome? {k : Calculator} {lines : List String} {rs : List Report}
    (h : ∀ line ∈ lines, Shared k line)
    (hrs : List.Forall₂ (fun line r => k.report (some (Text.trim line)) = .ok r) lines rs) :
    lines.map (outcome? k.scale) = rs.map some := by
  induction hrs with
  | nil => rfl
  | cons hr _ ih =>
    rw [List.map_cons, List.map_cons, outcome?_of_report (h _ (by simp)).not_blank hr,
      ih fun line hl => h line (List.mem_cons_of_mem _ hl)]

theorem map_of_outcome? {lines : List String} {rs : List Report} {scale : Nat} {α : Type}
    (h : lines.map (outcome? scale) = rs.map some) (f : Option Report → α) :
    lines.map (fun line => f (outcome? scale line)) = rs.map fun r => f (some r) := by
  have hmap := congrArg (List.map f) h
  rwa [List.map_map, List.map_map] at hmap

theorem join_valueLine (rs : List Report) : String.join (rs.map (valueLine <| some ·)) =
    String.join ((Batch.column "result" rs).map (· ++ "\n")) := by
  rw [Batch.column_result]
  induction rs with
  | nil => rfl
  | cons r rs ih =>
    rw [List.map_cons, String.join_cons, ih, valueLine, Option.bind_some, List.filterMap_cons]
    cases r.value? with
    | none => rw [Option.elim_none, String.empty_append]
    | some v => rw [Option.elim_some, List.map_cons, String.join_cons]

theorem join_faultLine (rs : List Report) : String.join (rs.map (faultLine <| some ·)) =
    String.join ((Batch.column "message" rs).map
      fun m => Settings.dialogue.errorLead ++ m ++ "\n") := by
  rw [Batch.column_message]
  induction rs with
  | nil => rfl
  | cons r rs ih =>
    rw [List.map_cons, String.join_cons, ih, faultLine, Option.bind_some, List.filterMap_cons]
    cases r.fault? with
    | none => rw [Option.elim_none, String.empty_append, Option.map_none]
    | some f => rw [Option.elim_some, Option.map_some, List.map_cons, String.join_cons]

theorem countP_outcome? {lines : List String} {rs : List Report} {scale : Nat}
    (h : lines.map (outcome? scale) = rs.map some) (p : Report → Bool) :
    countReports p scale lines = rs.countP p := by
  have hcount := congrArg (List.countP (Option.any p)) h
  rwa [List.countP_map, List.countP_map] at hcount

theorem answerOnce_of_report {k : Calculator} {line : String} {r : Report}
    (h : Text.trim line ≠ "") (hr : k.report (some (Text.trim line)) = .ok r) :
    answerOnce k (some line) = .ok (if r.fault?.isSome then 1 else 0,
      ⟨valueLine (some r), faultLine (some r), [record r]⟩) := by
  simp only [answerOnce, Option.getD_some, if_neg h, answer, hr, bind, Except.bind, pure,
    Except.pure, describe_eq, Report.succeeded]
  cases r.fault? <;> rfl

theorem forall₂_answerOnce {k : Calculator} {lines : List String} {rs : List Report}
    (h : ∀ line ∈ lines, Shared k line)
    (hrs : List.Forall₂ (fun line r => k.report (some (Text.trim line)) = .ok r) lines rs) :
    List.Forall₂ (fun line r => answerOnce k (some line) = .ok (if r.fault?.isSome then 1 else 0,
      ⟨valueLine (some r), faultLine (some r), [record r]⟩)) lines rs := by
  induction hrs with
  | nil => exact .nil
  | cons hr _ ih =>
    exact .cons (answerOnce_of_report (h _ (by simp)).not_blank hr)
      (ih fun line hl => h line (List.mem_cons_of_mem _ hl))

end Session

theorem Batch.countP_failed (rs : List Report) :
    rs.countP (!Report.succeeded ·) = (column "error_kind" rs).length := by
  rw [column_kind]
  induction rs with
  | nil => rfl
  | cons r rs ih =>
    rw [List.countP_cons, ih, List.filterMap_cons, Report.succeeded]
    cases r.fault? <;> rfl

/-- A dialogue is told by the reports on its lines, whatever its prompt and banner. -/
theorem Session.exists_run_of_shared {k : Calculator} {text : String} {lines : List String}
    {rs : List Report} (hscale : k.scale < pow10 Text.mostDigits) (htext : Lined text lines)
    (h : ∀ line ∈ lines, Shared k line)
    (hrs : List.Forall₂ (fun line r => k.report (some (Text.trim line)) = .ok r) lines rs)
    (prompt : String) (banner : Bool) :
    ∃ r, (Session.mk k prompt banner).run (input text) = .ok r ∧
      r.said.out = (if banner then Settings.dialogue.banner ++ "\n" else "") ++
        String.join (rs.map fun r => prompt ++ valueLine (some r)) ++ prompt ++ "\n" ∧
      r.said.err = String.join (rs.map (faultLine <| some ·)) ∧
      r.tally.failed = (Batch.column "error_kind" rs).length := by
  have hinput : input text = lines := htext.input_eq
  obtain ⟨hheard, hfeed⟩ := heard_of_stays fun line hl => (h line hl).stays
  have houtcome := map_outcome? h hrs
  have hreported : Reported k (input text) := fun line hl _ => by
    rw [hinput, hheard] at hl
    exact (h line hl).reported
  obtain ⟨r, hrun, hc⟩ := (Session.mk k prompt banner).exists_conversed text hscale hreported
  refine ⟨r, hrun, ?_, ?_, ?_⟩
  · rw [hc.out, hinput, hheard, hfeed, map_of_outcome? houtcome fun o => prompt ++ valueLine o]
  · rw [hc.err, hinput, hheard, map_of_outcome? houtcome faultLine]
  · rw [hc.failed, hinput, hheard, countP_outcome? houtcome, Batch.countP_failed]

theorem CommandLine.run_batch {σ : Type} {files : Storage (StateM σ)} {u u' u'' : σ}
    {texts : List String} (stdin : List String) {k : Calculator} {input output : String}
    {level : Log.Level} {bytes : ByteArray} {log : List Log.Entry} {rs : List Report}
    (hplan : prepare texts = .ok (.start ⟨k, .batch input output⟩ level))
    (hload : files.load input u = (.ok bytes, u')) (hrs : Batch.examine k bytes = .ok (log, rs))
    (hsave : files.save output (Batch.csv rs).toUTF8 u' = (.ok (), u'')) :
    ∃ o, CommandLine.run files texts stdin u = (.ok o, u'') ∧
      o.status = if Batch.anyFailed rs then 1 else 0 := by
  have hplanned : CommandLine.run files texts stdin u = runBatch files k input output u := by
    simp only [CommandLine.run, hplan, Task.run]
  exact ⟨_, hplanned.trans (runBatch_of_save hload hrs hsave), rfl⟩

theorem Batch.anyFailed_iff (rs : List Report) :
    anyFailed rs = true ↔ 0 < (column "error_kind" rs).length := by
  rw [← countP_failed, List.countP_pos_iff, anyFailed, List.any_eq_true]

/-- The ways to put the lines `lines`, which are the text `text`, to a calculator agree. -/
structure Agreed (k : Calculator) (text : String) (lines : List String) (rs : List Report) :
    Prop where
  reports : List.Forall₂ (fun line r => k.report (some (Text.trim line)) = .ok r) lines rs
  table : ∃ log, Batch.examine k text.toUTF8 = .ok (log, rs)
  /-- A dialogue says the values of the table, each behind a prompt, and complains of its
  messages. -/
  dialogue : ∀ prompt banner, ∃ r, (Session.mk k prompt banner).run (input text) = .ok r ∧
    r.said.out = (if banner then Settings.dialogue.banner ++ "\n" else "") ++
      String.join (rs.map fun r => prompt ++ valueLine (some r)) ++ prompt ++ "\n" ∧
    String.join (rs.map (valueLine <| some ·)) =
      String.join ((Batch.column "result" rs).map (· ++ "\n")) ∧
    r.said.err = String.join ((Batch.column "message" rs).map
      fun m => Settings.dialogue.errorLead ++ m ++ "\n") ∧
    r.tally.failed = (Batch.column "error_kind" rs).length
  single : List.Forall₂ (fun line r => answerOnce k (some line) =
    .ok (if r.fault?.isSome then 1 else 0,
      ⟨valueLine (some r), faultLine (some r), [record r]⟩)) lines rs
  /-- The status of a batch run is one just if a dialogue counts some line as failed. -/
  status : ∀ {σ : Type} (files : Storage (StateM σ)) (u u' u'' : σ) (texts stdin : List String)
    (path output : String) (level : Log.Level),
    CommandLine.prepare texts = .ok (.start ⟨k, .batch path output⟩ level) →
    files.load path u = (.ok text.toUTF8, u') →
    files.save output (Batch.csv rs).toUTF8 u' = (.ok (), u'') →
    ∃ o, CommandLine.run files texts stdin u = (.ok o, u'') ∧
      ∀ prompt banner r, (Session.mk k prompt banner).run (input text) = .ok r →
        o.status = if 0 < r.tally.failed then 1 else 0

/-- A line that is put to a calculator as part of a document, in a dialogue or by itself has the
same report each time. -/
theorem exists_agreed {k : Calculator} {text : String} {lines : List String}
    (hscale : k.scale < pow10 Text.mostDigits) (htext : Lined text lines)
    (h : ∀ line ∈ lines, Shared k line) : ∃ rs, Agreed k text lines rs := by
  obtain ⟨rs, hreports⟩ := exists_forall₂ fun line hl => (h line hl).reported
  have hexamined : List.Forall₂ (fun e r => k.report (some e) = .ok r)
      (Batch.expressions text) rs := by
    rw [Batch.expressions_of_shared htext h]
    exact List.forall₂_map_left_iff.2 hreports
  have htable := Batch.examine_eq_ok (Batch.decode_toUTF8 text) hexamined
  have hdialogue := exists_run_of_shared hscale htext h hreports
  refine ⟨rs, hreports, ⟨_, htable⟩, fun prompt banner => ?_, ?_, ?_⟩
  · obtain ⟨r, hrun, hout, herr, hfailed⟩ := hdialogue prompt banner
    exact ⟨r, hrun, hout, join_valueLine rs, herr.trans (join_faultLine rs), hfailed⟩
  · exact forall₂_answerOnce h hreports
  · intro σ files u u' u'' texts stdin path output level hplan hload hsave
    obtain ⟨o, hrun, hstatus⟩ := CommandLine.run_batch stdin hplan hload htable hsave
    refine ⟨o, hrun, fun prompt banner r hr => ?_⟩
    obtain ⟨r', hr', -, -, hfailed⟩ := hdialogue prompt banner
    obtain rfl := Except.ok.inj (hr.symm.trans hr')
    simp only [hstatus, hfailed, Batch.anyFailed_iff]

/-- A value and, behind a tab, a fault. -/
theorem exists_agreed_value_and_fault :
    2 < pow10 Text.mostDigits ∧ Lined "1/4\n\t2 $ 3" ["1/4", "\t2 $ 3"] ∧
      (∀ line ∈ ["1/4", "\t2 $ 3"], Shared ⟨2⟩ line) ∧
      ∃ rs, Agreed ⟨2⟩ "1/4\n\t2 $ 3" ["1/4", "\t2 $ 3"] rs ∧
        Batch.column "result" rs = ["0.25"] ∧
        Batch.column "message" rs = ["Unexpected character '$' at position 2"] := by
  have hinput : input "1/4\n\t2 $ 3" = ["1/4", "\t2 $ 3"] := by decide +kernel
  have htext : Lined "1/4\n\t2 $ 3" ["1/4", "\t2 $ 3"] := hinput ▸ lined_input _
  have hshared : ∀ line ∈ ["1/4", "\t2 $ 3"], Shared ⟨2⟩ line := by
    intro line hl
    have hreach : ∀ line ∈ ["1/4", "\t2 $ 3"],
        reach (some (Text.trim line)) + 2 ≤ Decimal.fullPrecision := by decide +kernel
    have hrest : ∀ line ∈ ["1/4", "\t2 $ 3"], Text.trim line ≠ "" ∧
        Text.Unbroken line ∧
        ¬ Settings.batch.commentMark.toList <+: (Text.trim line).toList ∧
        asksToLeave line = false := by decide +kernel
    obtain ⟨hblank, hunbroken, hmark, hstays⟩ := hrest line hl
    exact ⟨hblank, hunbroken, hmark, hstays, Calculator.exists_report_of_reach (hreach line hl)⟩
  have hscale : 2 < pow10 Text.mostDigits := by decide +kernel
  obtain ⟨rs, h⟩ := exists_agreed (k := ⟨2⟩) hscale htext hshared
  obtain ⟨log, htable⟩ := h.table
  have hcolumns : (Batch.examine ⟨2⟩ "1/4\n\t2 $ 3".toUTF8).toOption.map
      (fun p => (Batch.column "result" p.2, Batch.column "message" p.2)) =
      some (["0.25"], ["Unexpected character '$' at position 2"]) := by decide +kernel
  rw [htable] at hcolumns
  obtain ⟨hvalues, hmessages⟩ := Prod.mk.inj (Option.some.inj hcolumns)
  exact ⟨hscale, htext, hshared, rs, h, hvalues, hmessages⟩

def withoutRoom (document : String) : Storage (StateM Unit) where
  read _ := return .ok document.toUTF8
  save path _ := return .error (.access (.refused path 21 "Is a directory"))

/-- At a scale that is too long to be written a document has its table and a dialogue does not
start. And where a table cannot be saved, the status tells of that and not of the lines. -/
theorem not_agreed :
    (∃ k, Calculator.ofLiteral (.whole (pow10 Text.mostDigits)) = .ok k ∧ Shared k "1/0" ∧
      (∃ log rs, Batch.examine k "1/0".toUTF8 = .ok (log, rs)) ∧
      (Session.mk k "> " false).run (input "1/0") = .error .tooManyDigits) ∧
    (Shared ⟨2⟩ "1/0" ∧
      ((Session.mk ⟨2⟩ "> " false).run (input "1/0")).toOption.map (·.tally.failed) = some 1 ∧
      (CommandLine.run (withoutRoom "1/0") ["--input_file", "in.txt"] [] ()).1.toOption.map
        (·.status) = some 2) := by
  have heval : evaluate (some "1/0") = .error (.fault ⟨.divisionByZero, none⟩) := by
    decide +kernel
  have hreport (k : Calculator) :
      k.report (some "1/0") = .ok ⟨some "1/0", .error ⟨.divisionByZero, none⟩⟩ := by
    rw [Calculator.report, calculate_of_evaluate_error heval]
  have hshared (k : Calculator) : Shared k "1/0" := by
    have htrim : Text.trim "1/0" = "1/0" := by decide +kernel
    exact ⟨by rw [htrim]; decide, by decide, by decide +kernel, by decide +kernel,
      htrim ▸ ⟨_, hreport k⟩⟩
  refine ⟨⟨_, ofLiteral_whole _, hshared _, ?_, ?_⟩, hshared _, by decide +kernel,
    by decide +kernel⟩
  · have hexpressions : Batch.expressions "1/0" = ["1/0"] := by decide +kernel
    have hreported : ∀ e ∈ Batch.expressions "1/0",
        ∃ r, (Calculator.mk (pow10 Text.mostDigits)).report (some e) = .ok r := by
      rw [hexpressions]
      exact fun e he => ⟨_, List.mem_singleton.1 he ▸ hreport _⟩
    obtain ⟨rs, hrs⟩ := exists_forall₂ hreported
    exact ⟨_, rs, Batch.examine_eq_ok (Batch.decode_toUTF8 "1/0") hrs⟩
  · generalize hscale : pow10 Text.mostDigits = scale
    exact run_of_long_scale (Nat.le_of_eq hscale) _

end Reckoner
