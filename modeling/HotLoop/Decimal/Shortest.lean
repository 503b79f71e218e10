import HotLoop.Binary64

/-!
# The fewest digits that read back

The reals that round to a finite binary64 number form an interval around it. Among the decimals
with the fewest digits inside that interval, `shortest` takes the one nearest to the number, the
upper one on a tie. The search tries grids of one digit, two digits and so on, and on each grid the
two neighbours of the number; all arithmetic is on naturals.
-/

namespace HotLoop

/-- The decimal `coefficient · 10 ^ exponent`. -/
structure Decimal where
  coefficient : Nat
  exponent : Int
  deriving DecidableEq, Repr, Inhabited

namespace Decimal

def digits (d : Decimal) : List Char := Nat.toDigits 10 d.coefficient

/-- Divides trailing zeros out of a coefficient, at most `fuel` of them. -/
def stripZeros : Nat → Decimal → Decimal
  | 0, d => d
  | fuel + 1, d =>
    if d.coefficient % 10 = 0 ∧ d.coefficient ≠ 0 then
      stripZeros fuel ⟨d.coefficient / 10, d.exponent + 1⟩
    else d

/-- The interval of the reals that round to a number, in units that make all three ends whole. -/
structure Interval where
  low : Nat
  value : Nat
  high : Nat
  closed : Bool

namespace Interval

/--
The interval of `m · 2 ^ q` in quarters of the least positive number. Below a power of two the
next number is half as far away as above it; the ends round to an even significand.
-/
def ofBinary (m q : Nat) : Interval where
  low := (if m = 0x10000000000000 ∧ 0 < q then 4 * m - 1 else 4 * m - 2) <<< q
  value := (4 * m) <<< q
  high := (4 * m + 2) <<< q
  closed := m % 2 = 0

def contains (i : Interval) (x : Nat) : Bool :=
  if i.closed then i.low ≤ x && x ≤ i.high else i.low < x && x < i.high

def scaleBy (i : Interval) (c : Nat) : Interval :=
  { i with low := i.low * c, value := i.value * c, high := i.high * c }

/-- The multiple of `step` inside the interval that is nearest to its value, the upper on a tie. -/
def nearestMultiple? (i : Interval) (step : Nat) : Option Nat :=
  let below := i.value / step
  let above := below + 1
  match i.contains (below * step), i.contains (above * step) with
  | true, true =>
    if i.value - below * step < above * step - i.value then some below else some above
  | true, false => some below
  | false, true => some above
  | false, false => none

end Interval

/-- Decimal places that suffice for every finite number: all steps below are whole in this unit. -/
def places : Nat := 350

/-- The shortest decimal that reads back as `m · 2 ^ q` units of `2 ^ -1074`, for a positive `m`. -/
def shortest (m q : Nat) : Decimal :=
  let interval := (Interval.ofBinary m q).scaleBy (Nat.pow 10 places)
  let unit := 1 <<< 1076
  -- the number lies in [10 ^ (top - 1), 10 ^ top) in units of 10 ^ -places
  let top := (Nat.toDigits 10 (interval.value / unit)).length
  let found := (List.range 17).findSome? fun i =>
    let place := top - (i + 1)
    (interval.nearestMultiple? (Nat.pow 10 place * unit)).map fun c =>
      stripZeros 18 ⟨c, (place : Int) - places⟩
  found.getD ⟨0, 0⟩

end Decimal

end HotLoop
