import Reckoner.Proofs.Table

/-! Batch runs on files, in any storage that leaves them alone where it only reads or cannot begin to
write. Main statement: a batch run either saves the table of all expressions or leaves every file as
it was, unless writing breaks off in the middle. -/
namespace Reckoner

/-- The access had begun when it broke off: a reason is told, and no path is blamed for it. -/
def AccessError.Interrupted (e : AccessError) : Prop := e.path = none ∧ e.reason ≠ none

/-- What is relied on of a storage: reading changes nothing, and where a table cannot be saved
everything is left as it was, unless the failure comes in the middle of writing. -/
structure Storage.Careful {σ : Type} (files : Storage (StateM σ)) : Prop where
  read_state (path : String) (u : σ) : (files.read path u).2 = u
  save_state {path : String} {table : ByteArray} {u u' : σ} {e : Failure}
    (h : files.save path table u = (.error e, u')) : u' = u ∨ ∃ a, e = .access a ∧ a.Interrupted

theorem Storage.Careful.load_eq {σ : Type} {files : Storage (StateM σ)} (h : files.Careful)
    (path : String) (u : σ) : files.load path u =
      (if Path.holdsNull path then .error .nullInPath
        else (files.read path u).1.mapError .access, u) := by
  obtain ⟨x, hread⟩ : ∃ x, files.read path u = (x, u) := ⟨_, Prod.ext rfl (h.read_state path u)⟩
  rw [Storage.load]
  split
  · rfl
  · simp only [bind, StateT.bind, hread]
    rfl

namespace Batch

theorem examine_cases (k : Calculator) (bytes : ByteArray) :
    (examine k bytes = .error .undecodable ∧ ∀ document, decode bytes ≠ .ok document) ∨
    ∃ document, decode bytes = .ok document ∧
      ((∃ e ∈ expressions document, ∃ s, examine k bytes = .error (.limit s) ∧
        k.Stopped (some e) s) ∨
      ∃ log rs, examine k bytes = .ok (log, rs) ∧
        List.Forall₂ (fun e r => k.report (some e) = .ok r) (expressions document) rs) := by
  cases hdoc : decode bytes with
  | error e =>
    refine .inl ⟨?_, fun document h => by cases h⟩
    have he : e = .undecodable := by
      unfold decode at hdoc
      split at hdoc
      · cases hdoc
      · exact (Except.error.inj hdoc).symm
    simp only [examine, hdoc, bind, Except.bind, he]
  | ok document =>
    refine .inr ⟨document, rfl, ?_⟩
    cases hrs : evaluate k ((expressions document).map some) with
    | error e =>
      obtain ⟨x, hx, herr⟩ := exists_of_mapM_eq_error hrs
      obtain ⟨x, hmem, rfl⟩ := List.mem_map.1 hx
      obtain ⟨s, rfl, hs⟩ := Calculator.report_eq_error_iff.1 herr
      exact .inl ⟨x, hmem, s, by simp only [examine, hdoc, hrs, bind, Except.bind], hs⟩
    | ok rs =>
      have hreports := List.forall₂_map_left_iff.1 (evaluate_eq_ok_iff.1 hrs)
      exact .inr ⟨_, rs, examine_eq_ok hdoc hreports, hreports⟩

def Faulty (k : Calculator) (e : String) : Prop := ∃ f, k.report (some e) = .ok ⟨some e, .error f⟩

theorem faulty_iff {k : Calculator} {e : String} {r : Report} (h : k.report (some e) = .ok r) :
    Faulty k e ↔ r.succeeded = false := by
  obtain ⟨expression, outcome⟩ := r
  obtain rfl : expression = some e := Calculator.expression_of_report h
  rw [Faulty, h]
  cases outcome with
  | ok v => simp [Report.succeeded, Report.fault?]
  | error f => simp [Report.succeeded, Report.fault?]

theorem anyFailed_iff_faulty {k : Calculator} {es : List String} {rs : List Report}
    (h : List.Forall₂ (fun e r => k.report (some e) = .ok r) es rs) :
    anyFailed rs = true ↔ ∃ e ∈ es, Faulty k e := by
  induction h with
  | nil => simp [anyFailed]
  | cons hr _ ih =>
    rw [List.exists_mem_cons_iff, ← ih, faulty_iff hr, anyFailed, List.any_cons, Bool.or_eq_true,
      Bool.not_eq_true']
    rfl

end Batch

namespace CommandLine

def cannotAccess (path reason : String) : String :=
  "Error: " ++ s!"Cannot access {path}: {reason}" ++ "\n"

/-- The end of a run that cannot use a file. The input is named where no path is blamed. -/
structure Refused (input : String) (e : AccessError) (o : Outcome) : Prop where
  status : o.status = 2
  out : o.said.out = ""
  err : o.said.err = cannotAccess ((e.path.filter (· != "")).getD input) (e.reason.getD "None")

theorem exists_refused (input : String) (log : List Log.Entry) (e : AccessError) :
    ∃ o, refuse input log (.access e) = .ok o ∧ Refused input e o := by
  refine ⟨⟨2, logged log ++ inaccessible input e⟩, rfl, rfl, ?_, ?_⟩
  · rw [Transcript.out_append, logged, String.empty_append]
    rfl
  · have herr : (inaccessible input e).err = "" ++ (Session.printError (e.complaint input)).err :=
      rfl
    rw [Transcript.err_append, herr, logged, String.empty_append, String.empty_append]
    rfl

/-- How a batch run ends that starts with the files in the state `u`. The table of all expressions
is saved, or nothing is changed, unless writing breaks off in the middle. Where a file cannot be used
the run ends with a complaint. Where the input is not in UTF-8 or its path has a null character in
it, no level of logging is named, the calculator is stopped at its limits or saving fails in a way
that is no matter of access, it is broken off. -/
inductive BatchEnd {σ : Type} (files : Storage (StateM σ)) (a : Arguments) (k : Calculator)
    (input : String) (u : σ) : Except Failure Outcome × σ → Prop
  | saved {bytes table : ByteArray} {document : String} {u' : σ} {o : Outcome}
      (hread : (files.read input u).1 = .ok bytes) (hdoc : Batch.decode bytes = .ok document)
      (htable : Batch.Keeps k document table)
      (hsave : files.save (Batch.outputPath a.outputPath) table u = (.ok (), u'))
      (hstatus : o.status = 1 ∧ (∃ e ∈ Batch.expressions document, Batch.Faulty k e) ∨
        o.status = 0 ∧ ∀ e ∈ Batch.expressions document, ¬ Batch.Faulty k e)
      (hout : o.said.out = "") (herr : o.said.err = "") : BatchEnd files a k input u (.ok o, u')
  | unreadable {e : AccessError} {o : Outcome} (hread : (files.read input u).1 = .error e)
      (ho : Refused input e o) : BatchEnd files a k input u (.ok o, u)
  | unsaved {bytes table : ByteArray} {document : String} {e : AccessError} {o : Outcome}
      (hread : (files.read input u).1 = .ok bytes) (hdoc : Batch.decode bytes = .ok document)
      (htable : Batch.Keeps k document table)
      (hsave : files.save (Batch.outputPath a.outputPath) table u = (.error (.access e), u))
      (ho : Refused input e o) : BatchEnd files a k input u (.ok o, u)
  | interrupted {bytes table : ByteArray} {document : String} {e : AccessError} {u' : σ}
      {o : Outcome} (hread : (files.read input u).1 = .ok bytes)
      (hdoc : Batch.decode bytes = .ok document) (htable : Batch.Keeps k document table)
      (hsave : files.save (Batch.outputPath a.outputPath) table u = (.error (.access e), u'))
      (he : e.Interrupted) (ho : Refused input e o) : BatchEnd files a k input u (.ok o, u')
  | unsavable {bytes table : ByteArray} {document : String} {e : Failure}
      (hread : (files.read input u).1 = .ok bytes) (hdoc : Batch.decode bytes = .ok document)
      (htable : Batch.Keeps k document table)
      (hsave : files.save (Batch.outputPath a.outputPath) table u = (.error e, u))
      (he : ∀ a, e ≠ .access a) : BatchEnd files a k input u (.error e, u)
  | undecodable {bytes : ByteArray} (hread : (files.read input u).1 = .ok bytes)
      (hdoc : ∀ document, Batch.decode bytes ≠ .ok document) :
      BatchEnd files a k input u (.error .undecodable, u)
  | nullInPath (h : Path.holdsNull input = true) :
      BatchEnd files a k input u (.error .nullInPath, u)
  | unnamedLevel (h : a.logLevel = none) : BatchEnd files a k input u (.error .unnamedLevel, u)
  | stopped {bytes : ByteArray} {document e : String} {s : Decimal.Signal}
      (hread : (files.read input u).1 = .ok bytes) (hdoc : Batch.decode bytes = .ok document)
      (he : e ∈ Batch.expressions document) (h : k.Stopped (some e) s) :
      BatchEnd files a k input u (.error (.limit s), u)

section Broken
variable {σ : Type} {files : Storage (StateM σ)} {u u' u'' : σ} {k : Calculator}
  {input : String} {bytes : ByteArray} {e : Failure} (output : String)

theorem runBatch_of_load_error (hload : files.load input u = (.error e, u')) :
    runBatch files k input output u = (refuse input (Batch.loadingLog input) e, u') := by
  simp only [runBatch, bind, StateT.bind, hload]
  rfl

theorem runBatch_of_examine_error (hload : files.load input u = (.ok bytes, u'))
    (h : Batch.examine k bytes = .error e) :
    runBatch files k input output u = (.error e, u') := by
  simp only [runBatch, bind, StateT.bind, hload, h]
  rfl

theorem runBatch_of_save_error {log : List Log.Entry} {rs : List Report}
    (hload : files.load input u = (.ok bytes, u')) (h : Batch.examine k bytes = .ok (log, rs))
    (hsave : files.save output (Batch.csv rs).toUTF8 u' = (.error e, u'')) :
    runBatch files k input output u =
      (refuse input (Batch.loadingLog input ++ log ++ Batch.savingLog output) e, u'') := by
  simp only [runBatch, bind, StateT.bind, hload, h, hsave]
  rfl

theorem refuse_of_not_access (h : ∀ a, e ≠ .access a) (log : List Log.Entry) :
    refuse input log e = .error e := by
  cases e with
  | access a => exact absurd rfl (h a)
  | _ => rfl

end Broken

section Ends
variable {σ : Type} {files : Storage (StateM σ)} {a : Arguments} {k : Calculator} {input : String}
  {u : σ} {bytes : ByteArray}

theorem batchEnd_of_reports (hfiles : files.Careful) {document : String} {log : List Log.Entry}
    {rs : List Report} (hload : files.load input u = (.ok bytes, u))
    (hread : (files.read input u).1 = .ok bytes) (hdoc : Batch.decode bytes = .ok document)
    (hexamine : Batch.examine k bytes = .ok (log, rs))
    (hreports : List.Forall₂ (fun e r => k.report (some e) = .ok r)
      (Batch.expressions document) rs) :
    BatchEnd files a k input u (runBatch files k input (Batch.outputPath a.outputPath) u) := by
  have htable := Batch.keeps_csv hreports
  obtain ⟨x, u', hsave⟩ : ∃ x u', files.save (Batch.outputPath a.outputPath)
      (Batch.csv rs).toUTF8 u = (x, u') := ⟨_, _, rfl⟩
  cases x with
  | ok =>
    rw [runBatch_of_save hload hexamine hsave]
    refine .saved hread hdoc htable hsave ?_ rfl rfl
    have hfaulty := Batch.anyFailed_iff_faulty hreports
    cases hfailed : Batch.anyFailed rs with
    | true => exact .inl ⟨rfl, hfaulty.1 hfailed⟩
    | false =>
      refine .inr ⟨rfl, fun e he hf => ?_⟩
      rw [hfaulty.2 ⟨e, he, hf⟩] at hfailed
      cases hfailed
  | error e =>
    rw [runBatch_of_save_error _ hload hexamine hsave]
    have hstate := hfiles.save_state hsave
    -- only what is a matter of access is reported
    by_cases haccess : ∃ e', e = .access e'
    · obtain ⟨e, rfl⟩ := haccess
      obtain ⟨o, ho, hrefused⟩ := exists_refused input
        (Batch.loadingLog input ++ log ++ Batch.savingLog (Batch.outputPath a.outputPath)) e
      rw [ho]
      obtain rfl | ⟨e', he, hbroken⟩ := hstate
      · exact .unsaved hread hdoc htable hsave hrefused
      · obtain rfl := Failure.access.inj he
        exact .interrupted hread hdoc htable hsave hbroken hrefused
    · have hother (e' : AccessError) : e ≠ .access e' := fun he => haccess ⟨e', he⟩
      rw [refuse_of_not_access hother]
      obtain rfl | ⟨e', he, -⟩ := hstate
      · exact .unsavable hread hdoc htable hsave hother
      · exact absurd he (hother e')

theorem batchEnd_of_read (hfiles : files.Careful) (hload : files.load input u = (.ok bytes, u))
    (hread : (files.read input u).1 = .ok bytes) :
    BatchEnd files a k input u (runBatch files k input (Batch.outputPath a.outputPath) u) := by
  obtain ⟨herr, hdoc⟩ | ⟨document, hdoc, ⟨e, he, s, herr, hs⟩ | ⟨log, rs, hexamine, hreports⟩⟩ :=
    Batch.examine_cases k bytes
  · rw [runBatch_of_examine_error _ hload herr]
    exact .undecodable hread hdoc
  · rw [runBatch_of_examine_error _ hload herr]
    exact .stopped hread hdoc he hs
  · exact batchEnd_of_reports hfiles hload hread hdoc hexamine hreports

theorem batchEnd_runBatch (hfiles : files.Careful) :
    BatchEnd files a k input u (runBatch files k input (Batch.outputPath a.outputPath) u) := by
  have hload := hfiles.load_eq input u
  by_cases hnull : Path.holdsNull input = true
  · rw [if_pos hnull] at hload
    rw [runBatch_of_load_error _ hload]
    exact .nullInPath hnull
  rw [if_neg hnull] at hload
  cases hread : (files.read input u).1 with
  | error e =>
    rw [hread, mapError_error] at hload
    rw [runBatch_of_load_error _ hload]
    obtain ⟨o, ho, hrefused⟩ := exists_refused input (Batch.loadingLog input) e
    exact ho ▸ .unreadable hread hrefused
  | ok bytes =>
    rw [hread, mapError_ok] at hload
    exact batchEnd_of_read hfiles hload hread

end Ends

/-- A batch run ends in one of these ways, whatever is in the files. -/
theorem run_batchEnd {σ : Type} {files : Storage (StateM σ)} (hfiles : files.Careful)
    {texts : List String} {a : Arguments} {k : Calculator} {input : String}
    (hparse : parse texts = .ok a) (hinput : inputFile? a = some input)
    (hscale : Calculator.ofLiteral (scaleLiteral a) = .ok k) (stdin : List String) (u : σ) :
    BatchEnd files a k input u (run files texts stdin u) := by
  have hplan : planOf a = .ok ⟨k, .batch input (Batch.outputPath a.outputPath)⟩ := by
    simp only [planOf, hscale, hinput, bind, Except.bind]
    rfl
  cases hlevel : a.logLevel with
  | none =>
    have hprepare : prepare texts = .error .unnamedLevel := by
      simp only [prepare, hparse, hlevel]
    have hrun : run files texts stdin u = (.error .unnamedLevel, u) := by
      simp only [run, hprepare]
      rfl
    rw [hrun]
    exact .unnamedLevel hlevel
  | some level =>
    have hprepare : prepare texts =
        .ok (.start ⟨k, .batch input (Batch.outputPath a.outputPath)⟩ level) := by
      simp only [prepare, hparse, hlevel, hplan]
    have hrun : run files texts stdin u =
        runBatch files k input (Batch.outputPath a.outputPath) u := by
      simp only [run, hprepare, Task.run]
    rw [hrun]
    exact batchEnd_runBatch hfiles

/-- Files under their names, of which every one can be written. -/
def cabinet : Storage (StateM (List (String × ByteArray))) where
  read path := fun files =>
    ((files.lookup path).elim (.error (.refused path 2 "No such file or directory")) .ok, files)
  save path table := fun files => (.ok (), (path, table) :: files.filter (·.1 != path))

theorem careful_cabinet : cabinet.Careful :=
  ⟨fun _ _ => rfl, fun h => by cases h⟩

/-- The table stands beside the document, which is as it was. -/
theorem run_saves_value_and_fault :
    cabinet.Careful ∧ ∃ o table, run cabinet ["--input_file", "in.txt"] []
        [("in.txt", "1/4\n1/0".toUTF8)] =
        (.ok o, [("results.csv", table), ("in.txt", "1/4\n1/0".toUTF8)]) ∧ o.status = 1 ∧
      Batch.Keeps ⟨2⟩ "1/4\n1/0" table := by
  have hparse : parse ["--input_file", "in.txt"] =
      .ok { Arguments.standard with inputFile := some "in.txt" } := by rfl
  have hdoc := Batch.decode_toUTF8 "1/4\n1/0"
  have hexpressions : Batch.expressions "1/4\n1/0" = ["1/4", "1/0"] := by decide +kernel
  have hreported : ∀ e ∈ ["1/4", "1/0"], ∃ r, (Calculator.mk 2).report (some e) = .ok r := by
    have hreach : ∀ e ∈ ["1/4", "1/0"], reach (some e) + 2 ≤ Decimal.fullPrecision := by
      decide +kernel
    exact fun e he => Calculator.exists_report_of_reach (hreach e he)
  have hend := run_batchEnd careful_cabinet hparse (by rfl : inputFile? _ = some "in.txt")
    (by rfl : Calculator.ofLiteral _ = .ok ⟨2⟩) [] [("in.txt", "1/4\n1/0".toUTF8)]
  generalize hrun : run cabinet _ _ _ = r at hend
  refine ⟨careful_cabinet, ?_⟩
  cases hend with
  | saved hread hdoc' htable hsave hstatus =>
    obtain rfl := Except.ok.inj hread
    obtain rfl := Except.ok.inj (hdoc.symm.trans hdoc')
    obtain rfl := (Prod.mk.inj hsave).2
    refine ⟨_, _, rfl, ?_, htable⟩
    obtain ⟨hone, -⟩ | ⟨-, hnone⟩ := hstatus
    · exact hone
    · obtain ⟨r, hr⟩ := hreported "1/0" (by decide)
      have hfault : ((Calculator.mk 2).report (some "1/0")).toOption.map (·.succeeded) =
          some false := by decide +kernel
      rw [hr] at hfault
      have hfaulty := (Batch.faulty_iff hr).2 (Option.some.inj hfault)
      exact absurd hfaulty (hnone _ (by simp [hexpressions]))
  | unreadable hread => cases hread
  | unsaved _ _ _ hsave => cases hsave
  | interrupted _ _ _ hsave => cases hsave
  | unsavable _ _ _ hsave => cases hsave
  | undecodable hread hno =>
    obtain rfl := Except.ok.inj hread
    exact absurd hdoc (hno _)
  | nullInPath h => exact absurd h (by decide +kernel)
  | unnamedLevel h => cases h
  | stopped hread hdoc' he hs =>
    obtain rfl := Except.ok.inj hread
    obtain rfl := Except.ok.inj (hdoc.symm.trans hdoc')
    obtain ⟨r, hr⟩ := hreported _ (hexpressions ▸ he)
    rw [Calculator.report_eq_error_iff.2 ⟨_, rfl, hs⟩] at hr
    cases hr

/-- A document that is not in UTF-8 breaks the run off, and nothing is said of it. -/
theorem run_undecodable :
    ∃ a, parse ["--input_file", "in.txt"] = .ok a ∧ inputFile? a = some "in.txt" ∧
      Calculator.ofLiteral (scaleLiteral a) = .ok ⟨2⟩ ∧
      (match (run cabinet ["--input_file", "in.txt"] [] [("in.txt", ⟨#[0xff]⟩)]).1 with
        | .error .undecodable => true
        | _ => false) = true :=
  ⟨{ Arguments.standard with inputFile := some "in.txt" }, rfl, rfl, rfl, by decide +kernel⟩

end CommandLine
end Reckoner
