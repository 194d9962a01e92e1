import Reckoner.Error

/-! Where documents are read from and tables are saved to. What paths mean, and in which form a table
is kept under one, is left to the storage. -/
namespace Reckoner

structure Storage (m : Type → Type) where
  /-- The bytes of a file. It is never asked for a path with a null character. -/
  read : String → m (Except AccessError ByteArray)
  /-- Saves the text of a table, in UTF-8, under a path. -/
  save : String → ByteArray → m (Except Failure Unit)

def Path.holdsNull (path : String) : Bool := path.toList.contains '\x00'

def Storage.load {m : Type → Type} [Monad m] (files : Storage m) (path : String) :
    m (Except Failure ByteArray) := do
  if Path.holdsNull path then return .error .nullInPath
  else return (← files.read path).mapError .access

end Reckoner
