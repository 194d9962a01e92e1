import Reckoner.Decimal.Basic

/-! The shortest decimal number that a binary floating point number of 64 bits can be read back
from: the fewest digits with which some number rounds to it, and of those numbers the nearest. -/
namespace Reckoner.Decimal

/-- A finite binary number, `significand` times two to the power `exponent`. The gap to the number
below is half the gap to the one above where `narrow` holds. -/
structure Binary where
  significand : Nat
  exponent : Int
  narrow : Bool

def Binary.ofBits (bits : Nat) : Binary :=
  let e : Nat := bits / 0x10000000000000 % 0x800
  let f : Nat := bits % 0x10000000000000
  if e = 0 then ⟨f, -1074, false⟩ else ⟨f + 0x10000000000000, (e : Int) - 1075, f == 0 && 1 < e⟩

/-- A number in units of ten to the power `place`, with the ends of the interval that rounds to
it. -/
structure Interval where
  low : Nat
  middle : Nat
  high : Nat
  closed : Bool
  place : Int

/-- In quarters of the binary unit the ends are whole. -/
def Binary.interval (b : Binary) : Interval :=
  let e := b.exponent - 2
  let unit := if 0 ≤ e then Nat.pow 2 e.toNat else Nat.pow 5 (-e).toNat
  let low := 4 * b.significand - if b.narrow then 1 else 2
  ⟨low * unit, 4 * b.significand * unit, (4 * b.significand + 2) * unit, b.significand % 2 == 0,
    if 0 ≤ e then 0 else e⟩

def Interval.holds (i : Interval) (n : Nat) : Bool :=
  if i.closed then i.low ≤ n && n ≤ i.high else i.low < n && n < i.high

/-- The nearest number of `k` digits in the interval, an even last digit being taken of two. -/
def Interval.nearest? (i : Interval) (k : Nat) : Option Decimal :=
  let dropped := digitCount i.middle - k
  let unit := pow10 dropped
  let below := i.middle / unit
  let above := below + 1
  let excess := i.middle - below * unit
  let preferBelow := 2 * excess < unit || 2 * excess == unit && below % 2 == 0
  let candidates := if preferBelow then [below, above] else [above, below]
  (candidates.find? fun n => i.holds (n * unit)).map fun n => ⟨false, n, i.place + dropped⟩

/-- Seventeen digits always suffice. -/
def shortest (b : Binary) : Decimal :=
  ((List.range 17).findSome? fun k => b.interval.nearest? (k + 1)).getD ⟨false, 0, 0⟩

end Reckoner.Decimal
