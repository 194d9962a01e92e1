import Reckoner.Decimal.Scientific

/-! Decimal numbers, the two infinities, and the value that is not a number. -/
namespace Reckoner.Decimal

inductive Extended where
  | finite (d : Decimal)
  | infinite (negative : Bool)
  | notANumber
deriving DecidableEq

namespace Extended

protected def toString : Extended → String
  | .finite d => d.toString
  | .infinite false => "Infinity"
  | .infinite true => "-Infinity"
  | .notANumber => "NaN"

instance : ToString Extended := ⟨Extended.toString⟩

def ofString : String → Except Signal Extended
  | "Infinity" => .ok (.infinite false)
  | "-Infinity" => .ok (.infinite true)
  | "NaN" => .ok .notANumber
  | s => (Decimal.ofString s).map .finite

end Extended
end Reckoner.Decimal
