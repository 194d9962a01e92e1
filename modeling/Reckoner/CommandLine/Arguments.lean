import Reckoner.Log
import Reckoner.Settings
import Reckoner.Text.Integer

/-! The arguments of the program. Options may stand before or after the expression but not within
it, long ones may be cut short as long as one option remains, and a value may be attached to its
option. Negative numbers and texts with a space are no options. After a double hyphen there are
none. -/
namespace Reckoner.CommandLine

inductive Flag where
  | help | scale | inputFile | outputPath | banner | logLevel
deriving DecidableEq

def Flag.all : List Flag := [.help, .scale, .inputFile, .outputPath, .banner, .logLevel]

def Flag.long : Flag → String
  | .help => "--help"
  | .scale => "--scale"
  | .inputFile => "--input_file"
  | .outputPath => "--output_path"
  | .banner => "--banner"
  | .logLevel => "--log_level"

def Flag.short? : Char → Option Flag
  | 'h' => some .help
  | 's' => some .scale
  | _ => none

def Flag.takesValue : Flag → Bool
  | .help | .banner => false
  | _ => true

inductive Argument where
  | plain (text : String)
  | separator
  | long (flag : Flag) (attached : Option String)
  | short (flag : Flag) (attached : Option String)
  | unknown

/-- What the arguments ask for. A value is missing where its option was last given without one. -/
structure Arguments where
  expression : List String
  scale : Option Int
  inputFile : Option String
  outputPath : Option String
  banner : Bool
  logLevel : Option Log.Level

def Arguments.standard : Arguments where
  expression := []
  scale := some Settings.arithmetic.scale
  inputFile := none
  outputPath := some Settings.batch.outputPath
  banner := false
  logLevel := some .warning

inductive Refusal where
  | usage | help
deriving DecidableEq

/-- A hyphen and a number with digits of any script, at most one point among or before them. A line
feed may follow. -/
def looksNegative (text : String) : Bool :=
  match text.toList with
  | '-' :: cs =>
    let cs := if cs.getLast? = some '\n' then cs.dropLast else cs
    let isDigit := fun c => (Text.digitValue? c).isSome
    match cs.dropWhile isDigit with
    | [] => cs != []
    | '.' :: rest => rest != [] && rest.all isDigit
    | _ => false
  | _ => false

def splitEquals (cs : List Char) : String × Option String :=
  let rest := cs.dropWhile (· != '=')
  (String.ofList (cs.takeWhile (· != '=')), rest.tail?.map String.ofList)

def otherwise (text : String) : Argument :=
  if looksNegative text || text.toList.contains ' ' then .plain text else .unknown

def ofLong (text : String) : Except Refusal Argument :=
  let (name, value) := splitEquals text.toList
  match Flag.all.find? (·.long == text) with
  | some f => .ok (.long f none)
  | none => match Flag.all.find? (·.long == name) with
    | some f => .ok (.long f value)
    | none => match Flag.all.filter (name.toList.isPrefixOf ·.long.toList) with
      | [] => .ok (otherwise text)
      | [f] => .ok (.long f value)
      | _ => .error .usage

def ofShort (c : Char) (cs : List Char) (text : String) : Argument :=
  match Flag.short? c, cs with
  | some f, [] => .short f none
  | some f, '=' :: rest => .short f (some (String.ofList rest))
  | some f, rest => .short f (some (String.ofList rest))
  | none, _ => otherwise text

def ofText (text : String) : Except Refusal Argument :=
  match text.toList with
  | '-' :: '-' :: _ => ofLong text
  | '-' :: c :: cs => .ok (ofShort c cs text)
  | _ => .ok (.plain text)

def classify : List String → Except Refusal (List Argument)
  | [] => .ok []
  | "--" :: rest => .ok (.separator :: rest.map .plain)
  | text :: rest => do
    let a ← ofText text
    return a :: (← classify rest)

def set (a : Arguments) : Flag → Option String → Except Refusal Arguments
  | .help, _ => .error .help
  | .banner, _ => .ok { a with banner := true }
  | .inputFile, path => .ok { a with inputFile := path }
  | .outputPath, path => .ok { a with outputPath := path }
  | .scale, none => .ok { a with scale := none }
  | .scale, some text => match Text.integer? text with
    | some n => .ok { a with scale := some n }
    | none => .error .usage
  | .logLevel, none => .ok { a with logLevel := none }
  | .logLevel, some name => match Log.Level.ofName? name with
    | some l => .ok { a with logLevel := some l }
    | none => .error .usage

/-- A double hyphen is no value where it is attached to an option. -/
def attachedValue (text : String) : Option String := if text = "--" then none else some text

/-- Reads what is attached to a short option without a value as a row of further short options, and
says whether the last of them has yet to take its value from the next argument. -/
def rowOfShorts : List Char → Except Refusal Bool
  | [] => .error .usage
  | c :: cs => match Flag.short? c, cs with
    | none, _ => .error .usage
    | some f, [] => .ok f.takesValue
    | some f, rest => if f.takesValue then .ok false else rowOfShorts rest

/-- Where reading stands with the expression: not met, within it, or beyond it. -/
inductive Phase where
  | before | within | beyond
deriving DecidableEq

structure Reading where
  arguments : Arguments
  phase : Phase
  /-- An option whose value has to be the next argument. -/
  waiting : Option Flag
  /-- Whether some argument has no use. -/
  surplus : Bool

namespace Reading

def start : Reading := ⟨.standard, .before, none, false⟩

def takeTexts (r : Reading) (texts : List String) : Reading :=
  match r.phase with
  | .before | .within => { r with
    arguments := { r.arguments with expression := r.arguments.expression ++ texts }
    phase := .within }
  | .beyond => { r with surplus := true }

def leaveExpression (r : Reading) : Reading :=
  { r with phase := if r.phase = .before then .before else .beyond }

def give (r : Reading) (flag : Flag) (value : Option String) : Except Refusal Reading := do
  return { r with arguments := ← set r.arguments flag value, waiting := none }

def meet (r : Reading) (flag : Flag) : Except Refusal Reading :=
  if flag.takesValue then .ok { r with waiting := some flag } else r.give flag none

def option (r : Reading) : Argument → Except Refusal Reading
  | .long f (some text) => if f.takesValue then r.give f (attachedValue text) else .error .usage
  | .short f (some text) =>
    if f.takesValue then r.give f (attachedValue text)
    else do
      let waits ← rowOfShorts text.toList
      if waits then return { r with waiting := some f } else r.give f none
  | .long f none | .short f none => r.meet f
  | .plain _ | .separator | .unknown => .ok { r with surplus := true }

def step (r : Reading) (a : Argument) : Except Refusal Reading :=
  match r.waiting, a with
  | some f, .plain text => r.give f (some text)
  | some _, _ => .error .usage
  | none, .plain text => .ok (r.takeTexts [text])
  | none, .separator => .ok (r.takeTexts [])
  | none, a => r.leaveExpression.option a

def finish (r : Reading) : Except Refusal Arguments :=
  if r.waiting.isSome || r.surplus then .error .usage else .ok r.arguments

end Reading

def parse (texts : List String) : Except Refusal Arguments := do
  (← (← classify texts).foldlM Reading.step .start).finish

end Reckoner.CommandLine
