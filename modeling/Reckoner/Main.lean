import Reckoner.CommandLine

/-! The program's input and output. -/
namespace Reckoner.Main
open CommandLine

/-- Numbers of reasons may come with either sign. -/
def number (code : UInt32) : Nat := if code < 0x80000000 then code.toNat else (0 - code).toNat

def refusal (path : String) : IO.Error → AccessError
  | .noFileOrDirectory .. => .refused path 2 "No such file or directory"
  | .inappropriateType _ _ details =>
    if details.toLower == "not a directory" then .refused path 20 "Not a directory"
    else .refused path 21 "Is a directory"
  | .invalidArgument _ code details | .permissionDenied _ code details
  | .resourceExhausted _ code details => .refused path (number code) details.capitalize
  | e => ⟨none, none, toString e⟩

def attempt {α : Type} (path : String) (x : IO α) : IO (Except AccessError α) := do
  try return .ok (← x)
  catch e => return .error (refusal path e)

def storage : Storage IO where
  read path := attempt path (IO.FS.readBinFile path)
  save path table := return (← attempt path (IO.FS.writeBinFile path table)).mapError .access

def emit (level : Log.Level) (t : Transcript) : IO Unit := do
  for entry in t.log do
    if level.rank ≤ entry.level.rank then IO.eprintln entry.shown
  IO.print t.out
  IO.eprint t.err
  (← IO.getStdout).flush
  (← IO.getStderr).flush

def failed (e : Failure) : IO UInt32 := do
  let text := e.message?.getD "the numbers or the text are beyond what the calculator can hold"
  IO.eprintln text
  return 1

/-- Answers the lines of the standard input as they come. -/
partial def converse (s : Session) (level : Log.Level) (t : Tally) : IO UInt32 := do
  emit level (.say s.prompt)
  let line ← (← IO.getStdin).getLine
  if line.isEmpty then
    emit level (.say "\n" ++ Session.closing t)
    return 0
  match Session.reply s.calculator line with
  | .error e => failed e
  | .ok .leave =>
    emit level (Session.closing t)
    return 0
  | .ok .ignore => converse s level t
  | .ok (.answer succeeded said) =>
    emit level said
    converse s level (t.count succeeded)

def finish (level : Log.Level) : Except Failure Outcome → IO UInt32
  | .error e => failed e
  | .ok o => do
    emit level o.said
    return o.status.toUInt32

end Reckoner.Main

open Reckoner CommandLine

def main (arguments : List String) : IO UInt32 := do
  match prepare arguments with
  | .error e => Main.failed e
  | .ok (.stop o) => Main.finish .warning (.ok o)
  | .ok (.start p level) => match p.task with
    | .converse s => match s.opening with
      | .error e => Main.failed e
      | .ok greeting =>
        Main.emit level greeting
        Main.converse s level ⟨0, 0⟩
    | task => Main.finish level (← task.run Main.storage p.calculator [])
