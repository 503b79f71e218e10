/-!
# Binary64 numbers by their bits

A finite binary64 number is `± m · 2 ^ (q - 1074)` with natural `m < 2 ^ 53` and `q`. This module
reads the two from the 64 bits, compares numbers, and rounds a quotient of naturals to the nearest
number, a tie to the even one. All of it is exact arithmetic on naturals.
-/

namespace HotLoop.Binary64

def exponentField (bits : UInt64) : Nat := (bits.toNat >>> 52) % 0x800

def fractionField (bits : UInt64) : Nat := bits.toNat % 0x10000000000000

def isNegative (bits : UInt64) : Bool := 0x8000000000000000 ≤ bits.toNat

def isNaN (bits : UInt64) : Bool := exponentField bits == 2047 && fractionField bits != 0

def isInfinite (bits : UInt64) : Bool := exponentField bits == 2047 && fractionField bits == 0

def significand (bits : UInt64) : Nat :=
  if exponentField bits = 0 then fractionField bits else 0x10000000000000 + fractionField bits

/-- The exponent `q` of a finite number, in units of the least positive number `2 ^ -1074`. -/
def scale (bits : UInt64) : Nat := exponentField bits - 1

def isZero (bits : UInt64) : Bool := exponentField bits == 0 && fractionField bits == 0

/-- Equality of numbers: a NaN differs from everything, and the two zeros are equal. -/
def eq (a b : UInt64) : Bool :=
  !isNaN a && !isNaN b && (a == b || isZero a && isZero b)

def neg (bits : UInt64) : UInt64 := bits ^^^ 0x8000000000000000

def infinity : UInt64 := 0x7ff0000000000000

/-- The nearest integer to `num / den`, a tie to the even one. -/
def roundQuotient (num den : Nat) : Nat :=
  let q := num / den
  let r := num % den
  if 2 * r < den then q
  else if den < 2 * r then q + 1
  else q + q % 2

/--
The nearest number to `num / den`, infinity if it is beyond the largest finite one. The exponent is
the largest that leaves at most 53 digits, and at least that of the least positive number.
-/
def ofQuotient (num den : Nat) : UInt64 :=
  let units := (num <<< 1074) / den
  let q := Nat.log2 units + 1 - 53
  let m := roundQuotient (num <<< 1074) (den <<< q)
  if units = 0 then UInt64.ofNat (roundQuotient (num <<< 1074) den)
  else if m < 0x10000000000000 then UInt64.ofNat m
  else
    -- a significand of 2 ^ 53 carries into the exponent field by itself
    let word := (q <<< 52) + m
    if 2047 <<< 52 ≤ word then infinity else UInt64.ofNat word

/-- The value of a finite number in units of `2 ^ -1074`, sign apart. -/
def units (bits : UInt64) : Nat := significand bits <<< scale bits

def ofNat (n : Nat) : UInt64 := ofQuotient n 1

/-- The product of two finite numbers that are not negative. -/
def mul (a b : UInt64) : UInt64 := ofQuotient (units a * units b) (1 <<< 2148)

/-- The quotient of two finite numbers that are not negative, the second not zero. -/
def div (a b : UInt64) : UInt64 := ofQuotient (units a) (units b)

end HotLoop.Binary64
