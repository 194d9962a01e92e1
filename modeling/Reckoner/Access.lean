import Reckoner.Text.Quoted

/-! What stands in the way of a file, and how it is told. -/
namespace Reckoner

/-- Why a document cannot be read or a table saved: the path that is blamed and the reason, where
they are told, and the message as a whole. -/
structure AccessError where
  path : Option String
  reason : Option String
  message : String
deriving DecidableEq

namespace AccessError

def refused (path : String) (code : Nat) (reason : String) : AccessError :=
  let shown := Text.quoted path
  ⟨some path, some reason, s!"[Errno {code}] {reason}: {shown}"⟩

/-- Where no path is blamed, the input is named, and where no reason is told, that there is none. -/
def complaint (input : String) (e : AccessError) : String :=
  let path := (e.path.filter (· != "")).getD input
  let reason := e.reason.getD "None"
  s!"Cannot access {path}: {reason}"

end AccessError
end Reckoner
