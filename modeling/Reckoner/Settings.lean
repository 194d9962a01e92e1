/-! The fixed choices of the calculator: its arithmetic, its dialogue and its batch runs. -/
namespace Reckoner.Settings

inductive Rounding where
  | halfUp
deriving DecidableEq

structure Arithmetic where
  /-- Fraction places of a printed result. -/
  scale : Nat
  rounding : Rounding
  /-- Digits kept of a quotient that does not end. -/
  divisionPrecision : Nat
  /-- The largest exponent of a power, in absolute value. -/
  maxExponent : Nat
deriving DecidableEq

structure Dialogue where
  prompt : String
  exitCommands : List String
  errorLead : String
  banner : String
deriving DecidableEq

structure Batch where
  commentMark : String
  outputPath : String
  columns : List String
deriving DecidableEq

def arithmetic : Arithmetic where
  scale := 2
  rounding := .halfUp
  divisionPrecision := 34
  maxExponent := 10000

def dialogue : Dialogue where
  prompt := "bc> "
  exitCommands := ["exit", "quit", "q"]
  errorLead := "Error: "
  banner := "Enter expressions to evaluate or type 'quit' or 'exit' to terminate."

def batch : Batch where
  commentMark := "#"
  outputPath := "results.csv"
  columns := ["expression", "result", "error_kind", "message"]

/-- A usable choice keeps at least one digit, allows some power, can be left, and marks comments. -/
def valid (a : Arithmetic) (d : Dialogue) (b : Batch) : Bool :=
  0 < a.divisionPrecision && 0 < a.maxExponent && !d.exitCommands.isEmpty && b.commentMark != ""

theorem valid_standard : valid arithmetic dialogue batch = true := by decide

end Reckoner.Settings
