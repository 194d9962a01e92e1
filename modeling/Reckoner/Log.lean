/-! Log entries and their levels. -/
namespace Reckoner.Log

inductive Level where
  | debug | info | warning | error
deriving DecidableEq

def Level.all : List Level := [.debug, .info, .warning, .error]

def Level.name : Level → String
  | .debug => "DEBUG"
  | .info => "INFO"
  | .warning => "WARNING"
  | .error => "ERROR"

def Level.rank : Level → Nat
  | .debug => 0
  | .info => 1
  | .warning => 2
  | .error => 3

def Level.ofName? (name : String) : Option Level := Level.all.find? (·.name == name)

structure Entry where
  level : Level
  text : String
deriving DecidableEq

def Entry.shown (e : Entry) : String := e.level.name ++ " " ++ e.text

end Reckoner.Log
