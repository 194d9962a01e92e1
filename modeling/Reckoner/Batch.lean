import Reckoner.Calculator
import Reckoner.Log
import Reckoner.Text.Csv
import Reckoner.Text.Line

/-! Batch runs: the expressions of a document, one a line, become a table with one record for each,
and the log counts the faults by kind. -/
namespace Reckoner.Batch
variable {α : Type} [BEq α]

/-- Empty lines and comments hold no expression. -/
def holdsExpression (line : String) : Bool :=
  line != "" && !Settings.batch.commentMark.toList.isPrefixOf line.toList

/-- A document is read with its carriage returns as line feeds before it is cut into lines. -/
def documentLines (document : String) : List String :=
  (Text.lines (Text.withFeeds document.toList)).map String.ofList

def expressions (document : String) : List String :=
  ((documentLines document).map Text.trim).filter holdsExpression

def loadingLog (path : String) : List Log.Entry := [⟨.info, s!"Loading expressions from {path}"⟩]

def loadedLog (document : String) : List Log.Entry :=
  let loaded := (expressions document).length
  let skipped := (documentLines document).length - loaded
  [⟨.info, s!"Loaded {loaded} expressions ({skipped} lines skipped)"⟩]

def decode (bytes : ByteArray) : Except Failure String :=
  match String.fromUTF8? bytes with
  | some s => .ok s
  | none => .error .undecodable

def evaluate (k : Calculator) (expressions : List (Option String)) : Except Failure (List Report) :=
  expressions.mapM k.report

/-- The distinct elements in order of first appearance, each with the number of times it occurs. -/
def tallies (xs : List α) : List (α × Nat) := xs.eraseDups.map fun x => (x, xs.count x)

/-- The more frequent first; among equals the earlier. -/
def ranked (xs : List α) : List (α × Nat) :=
  (tallies xs).mergeSort fun a b => b.2 ≤ a.2

def faultKinds (rs : List Report) : List FaultKind := rs.filterMap fun r => r.fault?.map Fault.kind

def anyFailed (rs : List Report) : Bool := rs.any (!·.succeeded)

def summary (rs : List Report) : List Log.Entry :=
  let kinds := faultKinds rs
  if kinds.isEmpty then [⟨.info, s!"All {rs.length} expressions evaluated successfully"⟩]
  else ⟨.warning, s!"{kinds.length} of {rs.length} expressions failed:"⟩ ::
    (ranked kinds).map fun (kind, count) => ⟨.warning, s!"  - {kind.name}: {count}"⟩

def examine (k : Calculator) (bytes : ByteArray) :
    Except Failure (List Log.Entry × List Report) := do
  let document ← decode bytes
  let reports ← evaluate k ((expressions document).map some)
  return (loadedLog document ++ summary reports, reports)

/-- Expression, value, kind of fault and message; what does not apply is missing. -/
def row (r : Report) : List (Option String) :=
  [r.expression, r.value?, r.fault?.map (·.kind.name), r.fault?.map Fault.message]

def csv (rs : List Report) : String :=
  Text.Csv.table (Settings.batch.columns.map some :: rs.map row)

/-- Where the table goes if the path is missing or empty. -/
def outputPath (given : Option String) : String :=
  match given with
  | none | some "" => Settings.batch.outputPath
  | some path => path

def savingLog (path : String) : List Log.Entry := [⟨.info, s!"Saving results to {path}"⟩]

end Reckoner.Batch
