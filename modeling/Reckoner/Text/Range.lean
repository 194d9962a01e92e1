/-! Sets of characters given by ranges of code points. -/
namespace Reckoner.Text

def within (ranges : List (Nat × Nat)) (c : Char) : Bool :=
  ranges.any fun r => decide (r.1 ≤ c.toNat) && decide (c.toNat ≤ r.2)

end Reckoner.Text
