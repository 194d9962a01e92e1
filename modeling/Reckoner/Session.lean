import Reckoner.Calculator
import Reckoner.Log
import Reckoner.Text.Integer
import Reckoner.Text.Line

/-! The dialogue with a user: a prompt, a line, an answer, until the lines end or one asks to leave.
What a session says is a value; input is the list of the lines still to be read. -/
namespace Reckoner

/-- What was said to the user, what was complained of, and what was logged. -/
structure Transcript where
  out : String
  err : String
  log : List Log.Entry

namespace Transcript

def silent : Transcript := ⟨"", "", []⟩

def say (text : String) : Transcript := { silent with out := text }
def complain (text : String) : Transcript := { silent with err := text }
def note (level : Log.Level) (text : String) : Transcript := { silent with log := [⟨level, text⟩] }

def append (a b : Transcript) : Transcript := ⟨a.out ++ b.out, a.err ++ b.err, a.log ++ b.log⟩

instance : Append Transcript := ⟨append⟩

end Transcript

structure Tally where
  ok : Nat
  failed : Nat
deriving DecidableEq

def Tally.count (t : Tally) (succeeded : Bool) : Tally :=
  if succeeded then { t with ok := t.ok + 1 } else { t with failed := t.failed + 1 }

structure Session where
  calculator : Calculator
  prompt : String
  banner : Bool

namespace Session

def input (text : String) : List String := (Text.feedLines text.toList).map String.ofList

/-- The next line, without the carriage returns at its end, and the lines after it. -/
def readLine : List String → Option String × List String
  | [] => (none, [])
  | line :: rest =>
    (some (String.ofList (line.toList.reverse.dropWhile (· == '\r')).reverse), rest)

/-- Case is set aside for the letters of ASCII, and the exit words have no others. -/
def asksToLeave (line : String) : Bool :=
  Settings.dialogue.exitCommands.contains ((Text.trim line).map Char.toLower)

def printResult (text : String) : Transcript := .say (text ++ "\n")

def printError (message : String) : Transcript :=
  .complain (Settings.dialogue.errorLead ++ message ++ "\n")

def record (r : Report) : Log.Entry :=
  let shown := r.expression.elim "None" Text.quoted
  match r.outcome with
  | .ok v => ⟨.debug, s!"{shown} -> {v}"⟩
  | .error f => ⟨.debug, s!"{shown} failed: {f.kind.name}: {f.message}"⟩

def describe (r : Report) : Transcript :=
  let said := match r.outcome with
    | .ok v => printResult v
    | .error f => printError f.message
  { said with log := [record r] }

def answer (k : Calculator) (expression : Option String) : Except Failure (Bool × Transcript) := do
  let r ← k.report expression
  return (r.succeeded, describe r)

/-- The answer to a single expression, and the exit status: zero for a value, one for a fault. -/
def answerOnce (k : Calculator) (expression : Option String) : Except Failure (Nat × Transcript) :=
  let text := Text.trim (expression.getD "")
  if text = "" then .ok (1, printError Cause.noValue.message)
  else do
    let (succeeded, said) ← answer k (some text)
    return (if succeeded then 0 else 1, said)

inductive Reply where
  | leave
  | ignore
  | answer (succeeded : Bool) (said : Transcript)

def reply (k : Calculator) (line : String) : Except Failure Reply :=
  let text := Text.trim line
  if asksToLeave line then .ok .leave
  else if text = "" then .ok .ignore
  else do
    let (succeeded, said) ← answer k (some text)
    return .answer succeeded said

structure Run where
  tally : Tally
  said : Transcript
  rest : List String

def Run.before (said : Transcript) (r : Run) : Run := { r with said := said ++ r.said }

/-- The rest of a session after the lines counted in `t`. At the end of the input the line of the
last prompt is ended. -/
def converse (s : Session) (t : Tally) : List String → Except Failure Run
  | [] => .ok ⟨t, .say (s.prompt ++ "\n"), []⟩
  | line :: rest => do
    match ← reply s.calculator line with
    | .leave => return ⟨t, .say s.prompt, rest⟩
    | .ignore => return (← converse s t rest).before (.say s.prompt)
    | .answer succeeded said =>
      return (← converse s (t.count succeeded) rest).before (.say s.prompt ++ said)

/-- A session starts with its scale in the log, and so not at all with one that cannot be written. -/
def opening (s : Session) : Except Failure Transcript :=
  (Text.written? s.calculator.scale).elim (.error .tooManyDigits) fun shown =>
    .ok (.note .info s!"Starting REPL with scale={shown}" ++
      if s.banner then printResult Settings.dialogue.banner else .silent)

def closing (t : Tally) : Transcript :=
  .note .info s!"REPL finished: {t.ok} evaluated, {t.failed} failed"

def run (s : Session) (lines : List String) : Except Failure Run := do
  let greeting ← s.opening
  let r ← s.converse ⟨0, 0⟩ lines
  return ⟨r.tally, greeting ++ r.said ++ closing r.tally, r.rest⟩

end Session
end Reckoner
