import HotLoop.Decimal.Shortest

/-!
# Written forms of floats

A `FloatStyle` says where positional notation begins and ends and how the special numbers are
called; `FloatStyle.write` lays the shortest digits of a number out accordingly. A positional
number always shows a point and at least one digit on each side of it.
-/

namespace HotLoop

structure FloatStyle where
  leastPositional : Int
  greatestPositional : Int
  exponentMark : Char
  nan : String
  infinity : String

namespace FloatStyle

/-- The digits with a point after the first `point` of them, padded with zeros. -/
def positional (digits : List Char) (point : Int) : List Char :=
  if point ≤ 0 then
    '0' :: '.' :: (List.replicate (-point).toNat '0' ++ digits)
  else
    let whole := digits.take point.toNat
    let fraction := digits.drop point.toNat
    whole ++ List.replicate (point.toNat - digits.length) '0' ++ '.' ::
      (if fraction.isEmpty then ['0'] else fraction)

/-- The digits with a point after the first one and the exponent of that one behind. -/
def scientific (mark : Char) (digits : List Char) (leading : Int) : List Char :=
  let mantissa := match digits with
    | d :: rest@(_ :: _) => d :: '.' :: rest
    | ds => ds
  mantissa ++ mark :: (toString leading).toList

def magnitude (style : FloatStyle) (bits : UInt64) : List Char :=
  let d := Decimal.shortest (Binary64.significand bits) (Binary64.scale bits)
  let digits := d.digits
  let leading := d.exponent + digits.length - 1
  if style.leastPositional ≤ leading ∧ leading ≤ style.greatestPositional then
    positional digits (leading + 1)
  else
    scientific style.exponentMark digits leading

/-- The text of a number. A zero keeps its sign, a NaN has none. -/
def write (style : FloatStyle) (bits : UInt64) : String :=
  if Binary64.isNaN bits then style.nan
  else
    let sign := if Binary64.isNegative bits then "-" else ""
    sign ++
      if Binary64.isInfinite bits then style.infinity
      else if Binary64.isZero bits then "0.0"
      else String.ofList (style.magnitude bits)

end FloatStyle

end HotLoop
