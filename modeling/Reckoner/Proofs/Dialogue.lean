import Reckoner.Proofs.Basic
import Reckoner.Session

/-! Whole dialogues. Main statement: what a session says, counts and leaves unread, told line by
line from what a new calculator reports of each line alone. -/
namespace Reckoner.Text

theorem feedLines_line {line : List Char} (rest : List Char) (h : '\n' ∉ line)
    (hrest : ∀ c ∈ rest.head?, (c != '\n') = false) (hne : line ++ rest ≠ []) :
    feedLines (line ++ rest) = line :: feedLines (rest.drop 1) := by
  have hall : ∀ c ∈ line, (c != '\n') = true := fun c hc =>
    bne_iff_ne.2 fun hn => h (hn ▸ hc)
  obtain ⟨htake, hdrop⟩ := takeWhile_append_of_head (· != '\n') hall hrest
  obtain ⟨c, cs, hcs⟩ := List.exists_cons_of_ne_nil hne
  rw [hcs] at htake hdrop ⊢
  rw [feedLines, htake, hdrop]

end Reckoner.Text

namespace Reckoner.Transcript

@[simp] theorem out_append (a b : Transcript) : (a ++ b).out = a.out ++ b.out := rfl

@[simp] theorem err_append (a b : Transcript) : (a ++ b).err = a.err ++ b.err := rfl

@[simp] theorem log_append (a b : Transcript) : (a ++ b).log = a.log ++ b.log := rfl

end Reckoner.Transcript

namespace Reckoner.Session

/-- `Lined text lines`: the text is these lines, each ended by a line feed. The last one need not be
ended, but then it is not empty. -/
inductive Lined : String → List String → Prop
  | empty : Lined "" []
  | last {line : String} (hne : line ≠ "") (h : '\n' ∉ line.toList) : Lined line [line]
  | line {line rest : String} {lines : List String} (h : '\n' ∉ line.toList)
      (hrest : Lined rest lines) : Lined (line ++ "\n" ++ rest) (line :: lines)

theorem Lined.input_eq {text : String} {lines : List String} (h : Lined text lines) :
    input text = lines := by
  induction h with
  | empty => rw [input, String.toList_empty, Text.feedLines, List.map_nil]
  | @last line hne h =>
    have hnil : line.toList ≠ [] := fun hl => hne (String.toList_eq_nil_iff.1 hl)
    have hlines := Text.feedLines_line [] h (by simp) (by simpa using hnil)
    rw [List.append_nil, List.drop_nil, Text.feedLines] at hlines
    rw [input, hlines, List.map_singleton, String.ofList_toList]
  | @line line rest lines h _ ih =>
    have htext : (line ++ "\n" ++ rest).toList = line.toList ++ '\n' :: rest.toList := by simp
    have hlines := Text.feedLines_line ('\n' :: rest.toList) h (by simp) (by simp)
    rw [input, htext, hlines, List.map_cons, String.ofList_toList, List.drop_one, List.tail_cons]
    exact congrArg (line :: ·) ih

theorem lined_ofList (cs : List Char) : ∃ lines, Lined (String.ofList cs) lines := by
  induction hn : cs.length using Nat.strongRecOn generalizing cs with
  | ind n ih =>
    by_cases hfeed : '\n' ∈ cs
    · obtain ⟨line, rest, rfl, hline⟩ := List.eq_append_cons_of_mem hfeed
      obtain ⟨lines, hlines⟩ := ih rest.length (by simp at hn; omega) rest rfl
      have htext : String.ofList (line ++ '\n' :: rest) =
          String.ofList line ++ "\n" ++ String.ofList rest := by
        apply String.toList_injective
        simp
      rw [htext]
      exact ⟨_, Lined.line (by simpa using hline) hlines⟩
    · by_cases hnil : cs = []
      · exact ⟨[], hnil ▸ Lined.empty⟩
      · exact ⟨_, Lined.last (by simpa using hnil) (by simpa using hfeed)⟩

theorem lined_input (text : String) : Lined text (input text) := by
  obtain ⟨lines, h⟩ := lined_ofList text.toList
  rw [String.ofList_toList] at h
  rwa [h.input_eq]

theorem Lined.split {text : String} {lines : List String} (h : Lined text lines) (k : Nat) :
    ∃ read unread, text = read ++ unread ∧ Lined read (lines.take k) ∧
      Lined unread (lines.drop k) := by
  induction h generalizing k with
  | empty => exact ⟨"", "", rfl, by simpa using .empty, by simpa using .empty⟩
  | @last line hne h =>
    cases k with
    | zero => exact ⟨"", line, by simp, .empty, .last hne h⟩
    | succ k => exact ⟨line, "", by simp, by simpa using .last hne h, by simpa using .empty⟩
  | @line line rest lines h hrest ih =>
    cases k with
    | zero => exact ⟨"", line ++ "\n" ++ rest, by simp, .empty, .line h hrest⟩
    | succ k =>
      obtain ⟨read, unread, rfl, hread, hunread⟩ := ih k
      exact ⟨line ++ "\n" ++ read, unread, by simp [String.append_assoc], .line h hread, hunread⟩

theorem readLine_cons (line : String) (rest : List String) :
    ∃ text n, readLine (line :: rest) = (some text, rest) ∧
      line.toList = text.toList ++ List.replicate n '\r' ∧ text.toList.getLast? ≠ some '\r' := by
  have hparts := List.takeWhile_append_dropWhile (p := (· == '\r')) (l := line.toList.reverse)
  have hreturns : line.toList.reverse.takeWhile (· == '\r') =
      List.replicate (line.toList.reverse.takeWhile (· == '\r')).length '\r' :=
    List.eq_replicate_iff.2 ⟨rfl, fun c hc =>
      eq_of_beq (List.all_eq_true.1 List.all_takeWhile c hc)⟩
  refine ⟨_, (line.toList.reverse.takeWhile (· == '\r')).length, rfl, ?_, ?_⟩
  · rw [String.toList_ofList, ← List.reverse_inj, List.reverse_append, List.reverse_reverse,
      List.reverse_replicate, ← hreturns, hparts]
  · rw [String.toList_ofList, List.getLast?_reverse]
    intro hlast
    have := List.head?_dropWhile_not (· == '\r') line.toList.reverse
    rw [hlast] at this
    simp at this

def heard (lines : List String) : List String := lines.takeWhile (!asksToLeave ·)

/-- What a calculator made for one line alone reports of it. Blank lines are not evaluated. -/
def outcome? (scale : Nat) (line : String) : Option Report :=
  if Text.trim line = "" then none
  else match Calculator.ofLiteral (.whole scale) with
    | .ok k => (k.report (some (Text.trim line))).toOption
    | .error _ => none

def valueLine (r : Option Report) : String := (r.bind Report.value?).elim "" (· ++ "\n")

def faultLine (r : Option Report) : String :=
  (r.bind Report.fault?).elim "" fun f => Settings.dialogue.errorLead ++ f.message ++ "\n"

def Reported (k : Calculator) (lines : List String) : Prop :=
  ∀ line ∈ heard lines, Text.trim line ≠ "" → ∃ r, k.report (some (Text.trim line)) = .ok r

instance (k : Calculator) (lines : List String) : Decidable (Reported k lines) :=
  decidable_of_iff (∀ line ∈ heard lines, Text.trim line ≠ "" →
    (k.report (some (Text.trim line))).isOk = true) (by simp only [isOk_iff, Reported])

theorem ofLiteral_whole (scale : Nat) : Calculator.ofLiteral (.whole scale) = .ok ⟨scale⟩ := by
  have hscale : scaleOf (.whole scale) = .ok scale := by
    rw [scaleOf, if_pos (Int.natCast_nonneg scale), Int.toNat_natCast]
  simp only [Calculator.ofLiteral, hscale, Except.map]

theorem outcome?_blank {line : String} (h : Text.trim line = "") (scale : Nat) :
    outcome? scale line = none := if_pos h

theorem outcome?_of_report {k : Calculator} {line : String} {r : Report} (h : Text.trim line ≠ "")
    (hr : k.report (some (Text.trim line)) = .ok r) : outcome? k.scale line = some r := by
  simp only [outcome?, if_neg h, ofLiteral_whole, hr]
  rfl

theorem describe_eq (r : Report) :
    describe r = ⟨valueLine (some r), faultLine (some r), [record r]⟩ := by
  simp only [describe, valueLine, faultLine, Option.bind_some, Report.value?, Report.fault?]
  cases r.outcome <;> rfl

/-- What there is of a line in a dialogue: the prompt that it followed, what was said of it, and its
record in the log. -/
def answered (prompt : String) (o : Option Report) : Transcript :=
  ⟨prompt ++ valueLine o, faultLine o, o.toList.map record⟩

theorem answered_none (prompt : String) : answered prompt none = .say prompt :=
  congrArg (Transcript.mk · "" []) String.append_empty

theorem answered_some (prompt : String) (r : Report) :
    answered prompt (some r) = .say prompt ++ describe r := by
  rw [describe_eq]
  exact congrArg (Transcript.mk (prompt ++ valueLine (some r)) · [record r])
    String.empty_append.symm

def recount (t : Tally) : Option Report → Tally
  | none => t
  | some r => t.count r.succeeded

section Line
variable (s : Session) (t : Tally) {line : String} (rest : List String)

theorem heard_leave (h : asksToLeave line = true) : heard (line :: rest) = [] := by
  simp [heard, h]

theorem converse_leave (h : asksToLeave line = true) :
    s.converse t (line :: rest) = .ok ⟨t, .say s.prompt, rest⟩ := by
  have hreply : reply s.calculator line = .ok .leave := if_pos h
  simp only [converse, hreply, bind, Except.bind, pure, Except.pure]

variable (hstay : asksToLeave line = false)
include hstay

theorem heard_stay : heard (line :: rest) = line :: heard rest := by
  simp [heard, hstay]

theorem converse_blank (h : Text.trim line = "") :
    s.converse t (line :: rest) = (s.converse t rest).map (Run.before (.say s.prompt)) := by
  have hreply : reply s.calculator line = .ok .ignore := by simp [reply, hstay, h]
  simp only [converse, hreply]
  rfl

theorem converse_text (h : Text.trim line ≠ "") :
    s.converse t (line :: rest) = s.calculator.report (some (Text.trim line)) >>= fun x =>
      (s.converse (t.count x.succeeded) rest).map (Run.before (.say s.prompt ++ describe x)) := by
  have hreply : reply s.calculator line = s.calculator.report (some (Text.trim line)) >>=
      fun x => .ok (.answer x.succeeded (describe x)) := by
    simp only [reply, answer, hstay, if_neg h]
    cases s.calculator.report (some (Text.trim line)) <;> rfl
  rw [converse, hreply]
  cases s.calculator.report (some (Text.trim line)) <;> rfl

end Line

theorem converse_heard (s : Session) (t : Tally) {line : String} {rest : List String} {r : Run}
    (hstay : asksToLeave line = false)
    (hreport : Text.trim line ≠ "" → ∃ x, s.calculator.report (some (Text.trim line)) = .ok x)
    (hrun : s.converse (recount t (outcome? s.calculator.scale line)) rest = .ok r) :
    s.converse t (line :: rest) =
      .ok (r.before (answered s.prompt (outcome? s.calculator.scale line))) := by
  by_cases hblank : Text.trim line = ""
  · rw [outcome?_blank hblank, recount] at hrun
    rw [outcome?_blank hblank, answered_none, converse_blank s t rest hstay hblank, hrun]
    rfl
  · obtain ⟨x, hx⟩ := hreport hblank
    rw [outcome?_of_report hblank hx, recount] at hrun
    rw [outcome?_of_report hblank hx, answered_some, converse_text s t rest hstay hblank, hx]
    simp only [bind, Except.bind, hrun, Except.map]

def lastFeed (lines : List String) : String := if lines.any asksToLeave then "" else "\n"

def countReports (p : Report → Bool) (scale : Nat) (lines : List String) : Nat :=
  lines.countP fun line => (outcome? scale line).any p

theorem ok_recount (t : Tally) (r : Option Report) :
    (recount t r).ok = t.ok + (if r.any Report.succeeded then 1 else 0) ∧
      (recount t r).failed = t.failed + (if r.any (!Report.succeeded ·) then 1 else 0) := by
  cases r with
  | none => exact ⟨rfl, rfl⟩
  | some r => cases h : r.succeeded <;> simp [recount, Tally.count, h]

theorem exists_converse (s : Session) (t : Tally) {lines : List String}
    (h : Reported s.calculator lines) :
    ∃ r, s.converse t lines = .ok r ∧
      r.said.out = String.join ((heard lines).map fun line =>
        s.prompt ++ valueLine (outcome? s.calculator.scale line)) ++ s.prompt ++ lastFeed lines ∧
      r.said.err = String.join ((heard lines).map fun line =>
        faultLine (outcome? s.calculator.scale line)) ∧
      r.said.log = (heard lines).flatMap (fun line =>
        (outcome? s.calculator.scale line).toList.map record) ∧
      r.tally.ok = t.ok + countReports Report.succeeded s.calculator.scale (heard lines) ∧
      r.tally.failed =
        t.failed + countReports (!Report.succeeded ·) s.calculator.scale (heard lines) ∧
      r.rest = lines.drop ((heard lines).length + 1) := by
  induction lines generalizing t with
  | nil => exact ⟨_, rfl, by simp [heard, lastFeed, Transcript.say], rfl, rfl, rfl, rfl, rfl⟩
  | cons line rest ih =>
    cases hleave : asksToLeave line with
    | true =>
      rw [heard_leave rest hleave]
      refine ⟨_, s.converse_leave t rest hleave, ?_, rfl, rfl, rfl, rfl, rfl⟩
      simp [lastFeed, hleave, Transcript.say]
    | false =>
      have hheard := heard_stay rest hleave
      have hrest : Reported s.calculator rest := fun l hl => h l (by simp [hheard, hl])
      have hfeed : lastFeed (line :: rest) = lastFeed rest := by simp [lastFeed, hleave]
      have hcount := ok_recount t (outcome? s.calculator.scale line)
      obtain ⟨r, hrun, hout, herr, hlog, hok, hfailed, hunread⟩ :=
        ih (recount t (outcome? s.calculator.scale line)) hrest
      refine ⟨_, s.converse_heard t hleave (h line (by simp [hheard])) hrun,
        ?_, ?_, ?_, ?_, ?_, ?_⟩
      · rw [hheard, hfeed, List.map_cons, String.join_cons, Run.before, Transcript.out_append, hout]
        simp only [answered, String.append_assoc]
      · rw [hheard, List.map_cons, String.join_cons, Run.before, Transcript.err_append, herr,
          answered]
      · rw [hheard, List.flatMap_cons, Run.before, Transcript.log_append, hlog, answered]
      · rw [hheard, countReports, List.countP_cons, Run.before, hok, hcount.1, Nat.add_assoc]
        exact congrArg _ (Nat.add_comm ..)
      · rw [hheard, countReports, List.countP_cons, Run.before, hfailed, hcount.2, Nat.add_assoc]
        exact congrArg _ (Nat.add_comm ..)
      · rw [hheard, Run.before, hunread, List.length_cons, List.drop_succ_cons]

/-- What there is to tell of a dialogue: all that was said, how the lines were counted, and where
the input stream was left. -/
structure Conversed (s : Session) (text : String) (r : Run) : Prop where
  /-- A prompt before each line that is heard, with the value behind it if it has one, and before
  the line that asks to leave or the end of the input. -/
  out : r.said.out = (if s.banner then Settings.dialogue.banner ++ "\n" else "") ++
    String.join ((heard (input text)).map fun line =>
      s.prompt ++ valueLine (outcome? s.calculator.scale line)) ++ s.prompt ++
    lastFeed (input text)
  err : r.said.err = String.join ((heard (input text)).map fun line =>
    faultLine (outcome? s.calculator.scale line))
  log : r.said.log = ⟨.info, s!"Starting REPL with scale={s.calculator.scale}"⟩ ::
    (heard (input text)).flatMap (fun line =>
      (outcome? s.calculator.scale line).toList.map record) ++
    [⟨.info, s!"REPL finished: {r.tally.ok} evaluated, {r.tally.failed} failed"⟩]
  ok : r.tally.ok = countReports Report.succeeded s.calculator.scale (heard (input text))
  failed : r.tally.failed =
    countReports (!Report.succeeded ·) s.calculator.scale (heard (input text))
  rest : r.rest = (input text).drop ((heard (input text)).length + 1)
  /-- The stream is read up to the line that asks to leave, and no further. -/
  unread : ∃ read unread, text = read ++ unread ∧
    Lined read ((input text).take ((heard (input text)).length + 1)) ∧ Lined unread r.rest
  /-- What is read next is the next line, without the carriage returns at its end. -/
  next : ∀ line ∈ r.rest.head?, ∃ (next : String) (n : Nat),
    readLine r.rest = (some next, r.rest.tail) ∧
      line.toList = next.toList ++ List.replicate n '\r' ∧ next.toList.getLast? ≠ some '\r'

def greeting (s : Session) : Transcript :=
  ⟨if s.banner then Settings.dialogue.banner ++ "\n" else "", "",
    [⟨.info, s!"Starting REPL with scale={s.calculator.scale}"⟩]⟩

theorem opening_eq_ok {s : Session} (h : s.calculator.scale < pow10 Text.mostDigits) :
    s.opening = .ok s.greeting := by
  rw [opening, Text.written?_natCast h, Option.elim_some, greeting]
  cases s.banner <;> rfl

theorem opening_eq_error {s : Session} (h : pow10 Text.mostDigits ≤ s.calculator.scale) :
    s.opening = .error .tooManyDigits := by
  rw [opening, Text.written?_eq_none h, Option.elim_none]

theorem run_of_long_scale {s : Session} (h : pow10 Text.mostDigits ≤ s.calculator.scale)
    (lines : List String) : s.run lines = .error .tooManyDigits := by
  rw [run, opening_eq_error h]
  rfl

theorem run_of_converse {s : Session} {lines : List String} {r : Run}
    (hscale : s.calculator.scale < pow10 Text.mostDigits)
    (h : s.converse ⟨0, 0⟩ lines = .ok r) :
    s.run lines = .ok ⟨r.tally, s.greeting ++ r.said ++ closing r.tally, r.rest⟩ := by
  rw [run, opening_eq_ok hscale]
  simp only [h, bind, Except.bind, pure, Except.pure]

theorem exists_conversed (s : Session) (text : String)
    (hscale : s.calculator.scale < pow10 Text.mostDigits)
    (h : Reported s.calculator (input text)) :
    ∃ r, s.run (input text) = .ok r ∧ Conversed s text r := by
  obtain ⟨r, hrun, hout, herr, hlog, hok, hfailed, hrest⟩ := s.exists_converse ⟨0, 0⟩ h
  obtain ⟨read, unread, htext, hread, hunread⟩ :=
    (lined_input text).split ((heard (input text)).length + 1)
  refine ⟨_, run_of_converse hscale hrun, ?_, ?_, ?_, ?_, ?_, hrest, ?_, ?_⟩
  · simp only [Transcript.out_append, greeting, hout, closing, Transcript.note,
      Transcript.silent, String.append_empty, String.append_assoc]
  · simp only [Transcript.err_append, greeting, herr, closing, Transcript.note,
      Transcript.silent, String.append_empty, String.empty_append]
  · simp only [Transcript.log_append, greeting, hlog, closing, Transcript.note,
      List.singleton_append]
  · simpa using hok
  · simpa using hfailed
  · exact ⟨read, unread, htext, hread, hrest ▸ hunread⟩
  · intro line hline
    obtain ⟨rest, hlines⟩ := List.head?_eq_some_iff.1 hline
    obtain ⟨next, n, hread, hnext⟩ := readLine_cons line rest
    exact ⟨next, n, by rw [hlines, hread, List.tail_cons], hnext⟩

/-- A session at a scale that can be written ends, and its course is settled by the lines of its
input, each taken alone. -/
theorem run_conversed (s : Session) (text : String)
    (hscale : s.calculator.scale < pow10 Text.mostDigits)
    (h : Reported s.calculator (input text)) :
    Lined text (input text) ∧ ∃ r, s.run (input text) = .ok r ∧ Conversed s text r :=
  ⟨lined_input text, s.exists_conversed text hscale h⟩

/-- A value, a blank line, a fault, and a wish to leave with a line behind it. -/
theorem run_conversed_until_quit :
    2 < pow10 Text.mostDigits ∧ Reported ⟨2⟩ (input "10/4\r\n\n1/0\n Quit\n3") ∧
      ∃ r, (Session.mk ⟨2⟩ "> " false).run (input "10/4\r\n\n1/0\n Quit\n3") = .ok r ∧
        r.said.out = "> 2.5\n> > > " ∧ r.said.err = "Error: Division by zero\n" ∧
        r.tally = ⟨1, 1⟩ ∧ r.rest = ["3"] := by
  have hscale : 2 < pow10 Text.mostDigits := by decide +kernel
  have hreported : Reported ⟨2⟩ (input "10/4\r\n\n1/0\n Quit\n3") := by decide +kernel
  obtain ⟨-, r, hrun, h⟩ := run_conversed (Session.mk ⟨2⟩ "> " false) _ hscale hreported
  refine ⟨hscale, hreported, r, hrun, ?_, ?_, ?_, ?_⟩
  · rw [h.out]
    decide +kernel
  · rw [h.err]
    decide +kernel
  · have hok : r.tally.ok = 1 := by
      rw [h.ok]
      decide +kernel
    have hfailed : r.tally.failed = 1 := by
      rw [h.failed]
      decide +kernel
    rw [show r.tally = ⟨r.tally.ok, r.tally.failed⟩ from rfl, hok, hfailed]
  · rw [h.rest]
    decide +kernel

/-- A session does not start at a scale that is too long to be written, whatever its input. Nor does
a line that is read lose only one carriage return at its end. -/
theorem run_unwritable :
    (Calculator.ofLiteral (.whole (pow10 Text.mostDigits)) = .ok ⟨pow10 Text.mostDigits⟩ ∧
      Reported ⟨pow10 Text.mostDigits⟩ (input "") ∧
      (Session.mk ⟨pow10 Text.mostDigits⟩ "> " false).run (input "") = .error .tooManyDigits) ∧
    ∃ r, (Session.mk ⟨2⟩ "> " false).run (input "quit\na\r\r\n") = .ok r ∧ r.rest = ["a\r\r"] ∧
      readLine r.rest = (some "a", []) := by
  have hinput : input "" = [] := by decide +kernel
  -- the scale is a variable from here on, so that nothing computes it
  generalize hscale : pow10 Text.mostDigits = scale
  refine ⟨⟨ofLiteral_whole scale, ?_, run_of_long_scale (Nat.le_of_eq hscale) _⟩, ?_⟩
  · rw [hinput]
    exact fun line h => by cases h
  · obtain ⟨r, hrun, h⟩ := (Session.mk ⟨2⟩ "> " false).exists_conversed "quit\na\r\r\n"
      (by decide +kernel) (by decide +kernel)
    have hrest : r.rest = ["a\r\r"] := by
      rw [h.rest]
      decide +kernel
    exact ⟨r, hrun, hrest, by rw [hrest]; decide +kernel⟩

end Reckoner.Session
