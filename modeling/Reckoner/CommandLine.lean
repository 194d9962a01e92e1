import Reckoner.Batch
import Reckoner.CommandLine.Arguments
import Reckoner.Session
import Reckoner.Storage

/-! The program as a whole: what its arguments ask for, and the exit status. The status is 0 where
all went well, 1 where an expression had a fault, and 2 where the arguments or a file could not be
used. -/
namespace Reckoner.CommandLine

inductive Task where
  | batch (input output : String)
  | once (expression : String)
  | converse (session : Session)

structure Plan where
  calculator : Calculator
  task : Task

/-- An empty name of an input file counts as none. -/
def inputFile? (a : Arguments) : Option String := a.inputFile.filter (· != "")

/-- The scale that is asked for, shown as an empty list where the option came without a number. -/
def scaleLiteral (a : Arguments) : Literal :=
  match a.scale with
  | some n => .whole n
  | none => .list []

def planOf (a : Arguments) : Except Failure Plan := do
  let k ← Calculator.ofLiteral (scaleLiteral a)
  return ⟨k, match inputFile? a, a.expression with
    | some input, _ => .batch input (Batch.outputPath a.outputPath)
    | none, [] => .converse ⟨k, Settings.dialogue.prompt, a.banner⟩
    | none, texts => .once (" ".intercalate texts)⟩

structure Outcome where
  status : Nat
  said : Transcript

def inaccessible (input : String) (e : AccessError) : Transcript :=
  .note .error ("Batch run failed: " ++ e.message) ++ Session.printError (e.complaint input)

def logged (entries : List Log.Entry) : Transcript := ⟨"", "", entries⟩

def refuse (input : String) (log : List Log.Entry) : Failure → Except Failure Outcome
  | .access e => .ok ⟨2, logged log ++ inaccessible input e⟩
  | e => .error e

/-- Loads, evaluates and saves. Nothing is written unless every expression has its record. -/
def runBatch {m : Type → Type} [Monad m] (files : Storage m) (k : Calculator)
    (input output : String) : m (Except Failure Outcome) := do
  let log := Batch.loadingLog input
  match ← files.load input with
  | .error e => return refuse input log e
  | .ok bytes => match Batch.examine k bytes with
    | .error e => return .error e
    | .ok (entries, reports) =>
      let log := log ++ entries ++ Batch.savingLog output
      match ← files.save output (Batch.csv reports).toUTF8 with
      | .error e => return refuse input log e
      | .ok () => return .ok ⟨if Batch.anyFailed reports then 1 else 0, logged log⟩

def usageText : String := "usage error"

def helpText : String := "\n".intercalate
  ["Exact decimal expression calculator",
    "",
    "  expression              expression to evaluate once; without one a dialogue starts",
    "                          (put '--' before an expression that starts with '-')",
    "  -h, --help              show this help",
    "  -s N, --scale N         fraction places of a result",
    "  --input_file FILE       evaluate every line of a file and save a table of results",
    "  --output_path FILE      where to save the table (CSV)",
    "  --banner                greet at the start of a dialogue",
    "  --log_level LEVEL       DEBUG, INFO, WARNING or ERROR",
    ""]

/-- What the arguments lead to: an end at once, or a task and the level to log from. -/
inductive Beginning where
  | stop (o : Outcome)
  | start (p : Plan) (level : Log.Level)

def prepare (texts : List String) : Except Failure Beginning :=
  match parse texts with
  | .error .usage => .ok (.stop ⟨2, .complain usageText⟩)
  | .error .help => .ok (.stop ⟨0, .say helpText⟩)
  | .ok a => match a.logLevel, planOf a with
    | none, _ => .error .unnamedLevel
    | some _, .error (.fault f) => .ok (.stop ⟨2, Session.printError f.message⟩)
    | some _, .error e => .error e
    | some level, .ok p => .ok (.start p level)

def Task.run {m : Type → Type} [Monad m] (files : Storage m) (t : Task) (k : Calculator)
    (stdin : List String) : m (Except Failure Outcome) :=
  match t with
  | .batch input output => runBatch files k input output
  | .once expression => return do
    let (status, said) ← Session.answerOnce k (some expression)
    return ⟨status, said⟩
  | .converse s => return do
    let r ← s.run stdin
    return ⟨0, r.said⟩

def run {m : Type → Type} [Monad m] (files : Storage m) (texts stdin : List String) :
    m (Except Failure Outcome) :=
  match prepare texts with
  | .error e => return .error e
  | .ok (.stop o) => return .ok o
  | .ok (.start p _) => p.task.run files p.calculator stdin

end Reckoner.CommandLine
