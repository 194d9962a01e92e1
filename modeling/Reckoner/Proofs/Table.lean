import Reckoner.CommandLine
import Reckoner.Proofs.Reach

/-! Tables that are read back. Main statements: a table without carriage returns is read back as it
was written, and the table of a batch run holds the expressions of the document, each with its value
or with the kind and the message of its fault. -/
namespace Reckoner.Text.Csv

inductive Place where
  /-- Before a record. -/
  | start
  /-- Before a record, behind the carriage return that ended the one before. -/
  | returned
  /-- Before a field, behind a comma. -/
  | opening
  | bare
  | quoted
  /-- Behind a quotation mark in a quoted field, which ends the field or is the first of two. -/
  | closing
deriving DecidableEq

/-- What a reader has found: the records that have ended, the fields of the current record that have
ended, and the characters of the current field. -/
structure Reader where
  records : List (List String)
  fields : List String
  chars : List Char
  place : Place

namespace Reader

def start : Reader := ⟨[], [], [], .start⟩

def move (p : Place) (r : Reader) : Reader := { r with place := p }

def take (c : Char) (p : Place) (r : Reader) : Reader :=
  { r with chars := r.chars ++ [c], place := p }

def endField (r : Reader) : Reader :=
  ⟨r.records, r.fields ++ [String.ofList r.chars], [], .opening⟩

def endRecord (p : Place) (r : Reader) : Reader :=
  ⟨r.records ++ [r.fields ++ [String.ofList r.chars]], [], [], p⟩

/-- A comma ends a field; a carriage return and a line feed end a record. -/
def separate? (c : Char) (r : Reader) : Option Reader :=
  if c = ',' then some r.endField
  else if c = '\r' then some (r.endRecord .returned)
  else if c = '\n' then some (r.endRecord .start)
  else none

def takeBare (c : Char) (r : Reader) : Reader := (r.separate? c).getD (r.take c .bare)

def enter (c : Char) (r : Reader) : Reader :=
  if c = '"' then r.move .quoted else r.takeBare c

/-- Nothing but a separator may follow a field that was quoted. -/
def step (c : Char) (r : Reader) : Option Reader :=
  match r.place with
  | .start | .opening => some (r.enter c)
  | .returned => some (if c = '\n' then r.move .start else r.enter c)
  | .bare => some (r.takeBare c)
  | .quoted => some (if c = '"' then r.move .closing else r.take c .quoted)
  | .closing => if c = '"' then some (r.take c .quoted) else r.separate? c

def run : List Char → Reader → Option Reader
  | [], r => some r
  | c :: cs, r => r.step c >>= run cs

def records? (r : Reader) : Option (List (List String)) :=
  match r.place with
  | .start | .returned => some r.records
  | .opening | .bare | .closing => some (r.endRecord .start).records
  | .quoted => none

end Reader

/-- The records of a table: fields with commas between them, in quotation marks or bare, and records
ended by a carriage return, a line feed or both. -/
def read (text : String) : Option (List (List String)) :=
  Reader.start.run text.toList >>= Reader.records?

def content (f : Option String) : String := f.getD ""

namespace Reader

theorem run_append (cs ds : List Char) (r : Reader) :
    run (cs ++ ds) r = run cs r >>= run ds := by
  induction cs generalizing r with
  | nil => rfl
  | cons c cs ih =>
    rw [List.cons_append, run, run]
    cases r.step c with
    | none => rfl
    | some r' => exact ih r'

theorem run_singleton (c : Char) (r : Reader) : run [c] r = r.step c := by
  rw [run]
  cases r.step c <;> rfl

variable (rs : List (List String)) (fs : List String)

theorem run_bare {cs : List Char} (h : ∀ c ∈ cs, c ≠ ',' ∧ c ≠ '\r' ∧ c ≠ '\n')
    (ds : List Char) : run cs ⟨rs, fs, ds, .bare⟩ = some ⟨rs, fs, ds ++ cs, .bare⟩ := by
  induction cs generalizing ds with
  | nil => rw [run, List.append_nil]
  | cons c cs ih =>
    obtain ⟨⟨hcomma, hreturn, hfeed⟩, hcs⟩ := List.forall_mem_cons.1 h
    have hstep : step c ⟨rs, fs, ds, .bare⟩ = some ⟨rs, fs, ds ++ [c], .bare⟩ := by
      simp [step, takeBare, separate?, take, hcomma, hreturn, hfeed]
    rw [run, hstep]
    exact (ih hcs _).trans (by rw [List.append_assoc, List.singleton_append])

theorem run_doubled (cs ds : List Char) :
    run (doubled cs) ⟨rs, fs, ds, .quoted⟩ = some ⟨rs, fs, ds ++ cs, .quoted⟩ := by
  induction cs generalizing ds with
  | nil => rw [doubled, List.flatMap_nil, run, List.append_nil]
  | cons c cs ih =>
    have hone : run (if c == '"' then ['"', '"'] else [c]) ⟨rs, fs, ds, .quoted⟩ =
        some ⟨rs, fs, ds ++ [c], .quoted⟩ := by
      by_cases hc : c = '"'
      · subst hc
        rfl
      · simp [run, step, take, hc]
    rw [doubled, List.flatMap_cons, run_append, hone]
    exact (ih _).trans (by rw [List.append_assoc, List.singleton_append])

theorem run_field {f : Option String} (h : '\r' ∉ (content f).toList) {p : Place}
    (hp : p = .start ∨ p = .opening) : ∃ q, q ≠ .returned ∧ q ≠ .quoted ∧
      run (field f) ⟨rs, fs, [], p⟩ = some ⟨rs, fs, (content f).toList, q⟩ := by
  have hstep (c : Char) : step c ⟨rs, fs, [], p⟩ = some (enter c ⟨rs, fs, [], p⟩) := by
    obtain rfl | rfl := hp <;> rfl
  simp only [field]
  rw [← content]
  generalize (content f).toList = cs at h ⊢
  split
  · refine ⟨.closing, by decide, by decide, ?_⟩
    rw [List.cons_append, run, hstep]
    -- a reader inside quotation marks is left by the closing one only
    change run (doubled cs ++ ['"']) ⟨rs, fs, [], .quoted⟩ = _
    rw [run_append, run_doubled]
    rfl
  · next hq =>
    rw [needsQuotes, Bool.not_eq_true, List.any_eq_false] at hq
    -- bare fields hold nothing that a reader stops at
    have hcs : ∀ c ∈ cs, c ≠ '"' ∧ c ≠ ',' ∧ c ≠ '\r' ∧ c ≠ '\n' := fun c hc => by
      have hno := hq c hc
      simp only [Bool.or_eq_true, beq_iff_eq, not_or] at hno
      exact ⟨hno.1.2, hno.1.1, fun hr => h (hr ▸ hc), hno.2⟩
    cases cs with
    | nil => exact ⟨p, by rintro rfl; simp at hp, by rintro rfl; simp at hp, rfl⟩
    | cons c cs =>
      obtain ⟨⟨hmark, hcomma, hreturn, hfeed⟩, hcs⟩ := List.forall_mem_cons.1 hcs
      refine ⟨.bare, by decide, by decide, ?_⟩
      have henter : enter c ⟨rs, fs, [], p⟩ = ⟨rs, fs, [c], .bare⟩ := by
        simp [enter, takeBare, separate?, take, hmark, hcomma, hreturn, hfeed]
      rw [run, hstep, henter]
      exact run_bare rs fs (fun d hd => (hcs d hd).2) [c]

theorem step_separator {r : Reader} (hr : r.place ≠ .returned) (hq : r.place ≠ .quoted) {c : Char}
    (hc : c = ',' ∨ c = '\n') : r.step c = r.separate? c := by
  obtain ⟨rs, fs, cs, p⟩ := r
  obtain rfl | rfl := hc <;> cases p <;> first | rfl | contradiction

theorem run_record {f : Option String} {gs : List (Option String)}
    (h : ∀ g ∈ f :: gs, '\r' ∉ (content g).toList) {p : Place} (hp : p = .start ∨ p = .opening) :
    run (record (f :: gs)) ⟨rs, fs, [], p⟩ =
      some ⟨rs ++ [fs ++ (f :: gs).map content], [], [], .start⟩ := by
  induction gs generalizing f fs p with
  | nil =>
    obtain ⟨q, hr, hq, hrun⟩ := run_field rs fs (h f (by simp)) hp
    rw [record, List.map_singleton, List.intercalate_singleton, run_append, hrun]
    change run ['\n'] _ = _
    rw [run_singleton, step_separator hr hq (.inr rfl)]
    simp [separate?, endRecord]
  | cons g gs ih =>
    obtain ⟨hf, hgs⟩ := List.forall_mem_cons.1 h
    obtain ⟨q, hr, hq, hrun⟩ := run_field rs fs hf hp
    have hcut : record (f :: g :: gs) = field f ++ ([','] ++ record (g :: gs)) := by
      simp [record, List.intercalate_cons_cons]
    rw [hcut, run_append, hrun]
    change run ([','] ++ record (g :: gs)) _ = _
    rw [run_append, run_singleton, step_separator hr hq (.inl rfl)]
    have hnext := ih (fs ++ [content f]) hgs (.inr rfl)
    simpa [separate?, endField] using hnext

theorem run_records {rows : List (List (Option String))} (hne : ∀ row ∈ rows, row ≠ [])
    (h : ∀ row ∈ rows, ∀ f ∈ row, '\r' ∉ (content f).toList) :
    run (rows.flatMap record) ⟨rs, [], [], .start⟩ =
      some ⟨rs ++ rows.map (·.map content), [], [], .start⟩ := by
  induction rows generalizing rs with
  | nil => simp [run]
  | cons row rows ih =>
    obtain ⟨hrow, hrows⟩ := List.forall_mem_cons.1 h
    obtain ⟨f, gs, rfl⟩ := List.exists_cons_of_ne_nil (hne row (by simp))
    rw [List.flatMap_cons, run_append, run_record rs [] hrow (.inl rfl)]
    refine (ih _ (fun row hr => hne row (List.mem_cons_of_mem _ hr)) hrows).trans ?_
    simp

end Reader

/-- A table is read back as it was written, save that missing fields are empty ones. -/
theorem read_table {rows : List (List (Option String))} (hne : ∀ row ∈ rows, row ≠ [])
    (h : ∀ row ∈ rows, ∀ f ∈ row, '\r' ∉ (content f).toList) :
    read (table rows) = some (rows.map (·.map content)) := by
  rw [read, table, String.toList_ofList, Reader.start, Reader.run_records [] hne h]
  rfl

end Reckoner.Text.Csv

namespace Reckoner.Batch
open Text (OneLine)

/-- The record of an expression: beside it stands its value, or the kind and the message of its
fault, and what is left empty is what there is none of. -/
inductive Recorded (k : Calculator) (e : String) : List String → Prop
  | value {v : String} (he : OneLine e) (hv : OneLine v)
      (h : k.report (some e) = .ok ⟨some e, .ok v⟩) : Recorded k e [e, v, "", ""]
  | fault {f : Fault} (he : OneLine e) (hk : OneLine f.kind.name) (hm : OneLine f.message)
      (h : k.report (some e) = .ok ⟨some e, .error f⟩) :
      Recorded k e [e, "", f.kind.name, f.message]

theorem recorded_of_report {k : Calculator} {e : String} {r : Report} (he : OneLine e)
    (h : k.report (some e) = .ok r) : Recorded k e ((row r).map Text.Csv.content) := by
  obtain ⟨hvalue, hfault⟩ := Calculator.oneLine_of_report h
  obtain ⟨expression, outcome⟩ := r
  obtain rfl : expression = some e := Calculator.expression_of_report h
  cases outcome with
  | ok v => exact .value he (hvalue v rfl) h
  | error f => exact .fault he (hfault f rfl).1 (hfault f rfl).2 h

theorem Recorded.fields_eq {k : Calculator} {e : String} {fields fields' : List String}
    (h : Recorded k e fields) (hr : (k.report (some e)).toOption.map
      (fun r => (row r).map Text.Csv.content) = some fields') : fields = fields' := by
  cases h with
  | value _ _ h | fault _ _ _ h =>
    rw [h] at hr
    exact Option.some.inj hr

theorem Recorded.unbroken {k : Calculator} {e : String} {fields : List String}
    (h : Recorded k e fields) : ∀ s ∈ fields, Text.Unbroken s := by
  have hempty : Text.Unbroken "" := by decide
  cases h with
  | value he hv => simp [he.unbroken, hv.unbroken, hempty]
  | fault he hk hm => simp [he.unbroken, hk.unbroken, hm.unbroken, hempty]

theorem unbroken_columns : ∀ s ∈ Settings.batch.columns, Text.Unbroken s := by decide

theorem read_csv {rs : List Report}
    (h : ∀ r ∈ rs, ∀ s ∈ (row r).map Text.Csv.content, Text.Unbroken s) :
    Text.Csv.read (csv rs) =
      some (Settings.batch.columns :: rs.map fun r => (row r).map Text.Csv.content) := by
  have hreturn {s : String} (hs : Text.Unbroken s) : '\r' ∉ s.toList := fun hmem => by
    have hno := hs _ hmem
    revert hno
    decide
  rw [csv, Text.Csv.read_table, List.map_cons, List.map_map, List.map_map]
  · congr 2
  · intro fields hfields
    obtain rfl | hfields := List.mem_cons.1 hfields
    · decide
    · obtain ⟨r, -, rfl⟩ := List.mem_map.1 hfields
      exact List.cons_ne_nil _ _
  · intro fields hfields f hf
    obtain rfl | hfields := List.mem_cons.1 hfields
    · obtain ⟨s, hs, rfl⟩ := List.mem_map.1 hf
      exact hreturn (unbroken_columns s hs)
    · obtain ⟨r, hr, rfl⟩ := List.mem_map.1 hfields
      exact hreturn (h r hr _ (List.mem_map_of_mem hf))

theorem forall₂_recorded {k : Calculator} {es : List String} {rs : List Report}
    (hes : ∀ e ∈ es, OneLine e) (h : List.Forall₂ (fun e r => k.report (some e) = .ok r) es rs) :
    List.Forall₂ (Recorded k) es (rs.map fun r => (row r).map Text.Csv.content) := by
  induction h with
  | nil => exact .nil
  | cons hr _ ih =>
    obtain ⟨he, hes⟩ := List.forall_mem_cons.1 hes
    exact .cons (recorded_of_report he hr) (ih hes)

/-- A table as a reader gets it back: the headings, and one record for each expression of the
document. -/
def Keeps (k : Calculator) (document : String) (table : ByteArray) : Prop :=
  ∃ text records, decode table = .ok text ∧
    Text.Csv.read text = some (Settings.batch.columns :: records) ∧
    List.Forall₂ (Recorded k) (expressions document) records

theorem keeps_csv {k : Calculator} {document : String} {rs : List Report}
    (h : List.Forall₂ (fun e r => k.report (some e) = .ok r) (expressions document) rs) :
    Keeps k document (csv rs).toUTF8 := by
  have hrecorded := forall₂_recorded (fun e => oneLine_of_mem_expressions) h
  have hunbroken : ∀ fields ∈ rs.map fun r => (row r).map Text.Csv.content,
      ∀ s ∈ fields, Text.Unbroken s := forall_of_forall₂ (fun _ _ h => h.unbroken) hrecorded
  exact ⟨csv rs, _, decode_toUTF8 _, read_csv fun r hr => hunbroken _ (List.mem_map_of_mem hr),
    hrecorded⟩

end Reckoner.Batch

namespace Reckoner.CommandLine

/-- A batch run keeps what it finds out: where every expression of the document is reported on, the
files are left as by saving one table, and a reader of that table finds every expression with its
value or its fault. -/
theorem runBatch_keeps {σ : Type} {files : Storage (StateM σ)} {u u' : σ} {k : Calculator}
    {input : String} (output : String) {bytes : ByteArray} {document : String}
    (hload : files.load input u = (.ok bytes, u')) (hdocument : Batch.decode bytes = .ok document)
    (h : ∀ e ∈ Batch.expressions document, ∃ r, k.report (some e) = .ok r) :
    ∃ table, Batch.Keeps k document table ∧
      (runBatch files k input output u).2 = (files.save output table u').2 ∧
      ∀ u'', files.save output table u' = (.ok (), u'') →
        ∃ o, runBatch files k input output u = (.ok o, u'') := by
  obtain ⟨rs, hrs⟩ := exists_forall₂ h
  have hexamined := Batch.examine_eq_ok hdocument hrs
  refine ⟨(Batch.csv rs).toUTF8, Batch.keeps_csv hrs, ?_, fun u'' hsave => ?_⟩
  · exact runBatch_state hload hexamined output
  · exact ⟨_, runBatch_of_save hload hexamined hsave⟩

def oneFile : Storage (StateM ByteArray) where
  read _ := fun file => (.ok file, file)
  save _ table := fun _ => (.ok (), table)

/-- A value, a comment, an empty line, and a fault at a comma behind a quotation mark. -/
theorem runBatch_keeps_value_and_fault :
    let document := "1/4\r\n# one\n\n2,\"3"
    oneFile.load "in" document.toUTF8 = (.ok document.toUTF8, document.toUTF8) ∧
      Batch.decode document.toUTF8 = .ok document ∧
      (∀ e ∈ Batch.expressions document, ∃ r, (Calculator.mk 2).report (some e) = .ok r) ∧
      ∃ table text, Batch.decode table = .ok text ∧
        Text.Csv.read text = some [Settings.batch.columns, ["1/4", "0.25", "", ""],
          ["2,\"3", "", "UnexpectedCharacter", "Unexpected character ',' at position 1"]] ∧
        (runBatch oneFile ⟨2⟩ "in" "out" document.toUTF8).2 =
          (oneFile.save "out" table document.toUTF8).2 := by
  intro document
  have hload : oneFile.load "in" document.toUTF8 = (.ok document.toUTF8, document.toUTF8) := rfl
  have hexpressions : Batch.expressions document = ["1/4", "2,\"3"] := by decide +kernel
  have hreported : ∀ e ∈ Batch.expressions document,
      ∃ r, (Calculator.mk 2).report (some e) = .ok r := by
    intro e he
    have hreach : ∀ e ∈ ["1/4", "2,\"3"], reach (some e) + 2 ≤ Decimal.fullPrecision := by
      decide +kernel
    exact Calculator.exists_report_of_reach (hreach e (hexpressions ▸ he))
  have hdocument := Batch.decode_toUTF8 document
  obtain ⟨table, ⟨text, records, htext, hread, hrecords⟩, hstate, -⟩ :=
    runBatch_keeps "out" hload hdocument hreported
  have hrecords : records = [["1/4", "0.25", "", ""],
      ["2,\"3", "", "UnexpectedCharacter", "Unexpected character ',' at position 1"]] := by
    rw [hexpressions] at hrecords
    obtain _ | ⟨hvalue, _ | ⟨hfault, ⟨⟩⟩⟩ := hrecords
    rw [hvalue.fields_eq (show _ = some ["1/4", "0.25", "", ""] by decide +kernel),
      hfault.fields_eq (show _ = some ["2,\"3", "", "UnexpectedCharacter",
        "Unexpected character ',' at position 1"] by decide +kernel)]
  exact ⟨hload, hdocument, hreported, table, text, htext, hrecords ▸ hread, hstate⟩

end Reckoner.CommandLine
