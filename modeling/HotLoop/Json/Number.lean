import HotLoop.Binary64
import HotLoop.Json.Basic
import HotLoop.Text.Digits

/-!
# Numbers in JSON

A number is read into a 64-bit significand and a decimal exponent. Digits beyond the significand
are dropped, those before the point counting for the exponent. A float is the significand, rounded
to the nearest number, times or divided by a rounded power of ten: at most two roundings, so that
the last digit of a long number may differ from the nearest float.
-/

namespace HotLoop.Json

open Text (takeDigits)

def maxSignificand : Nat := UInt64.size - 1

/-- Appends digits to a significand as long as it fits; the digits left over are the second part. -/
def appendDigits (significand : Nat) : List Nat → Nat × List Nat
  | [] => (significand, [])
  | d :: ds =>
    if significand * 10 + d ≤ maxSignificand then appendDigits (significand * 10 + d) ds
    else (significand, d :: ds)

def powerOfTen (k : Nat) : UInt64 := Binary64.ofNat (Nat.pow 10 k)

def maxPower : Nat := 308

def divideByPower (bits : UInt64) (k : Nat) : UInt64 :=
  if k ≤ maxPower then Binary64.div bits (powerOfTen k)
  else if Binary64.isZero bits then bits
  else divideByPower (Binary64.div bits (powerOfTen maxPower)) (k - maxPower)
termination_by k
decreasing_by
  simp only [maxPower] at *
  omega

/-- The float `significand · 10 ^ exponent`, unless it is too large. -/
def floatOf? (significand : Nat) (exponent : Int) : Option UInt64 :=
  let bits := Binary64.ofNat significand
  if exponent < 0 then some (divideByPower bits exponent.natAbs)
  else if significand = 0 then some bits
  else if exponent.toNat ≤ maxPower then
    let product := Binary64.mul bits (powerOfTen exponent.toNat)
    if Binary64.isInfinite product then none else some product
  else none

/-- The greatest exponent that is told apart from larger ones. -/
def maxExponent : Nat := 0x7fffffff

def readExponent? (significand : Nat) (exponent : Int) (cs : List Char) :
    Option (UInt64 × List Char) := do
  let (negative, cs) := match cs with
    | '+' :: cs => (false, cs)
    | '-' :: cs => (true, cs)
    | cs => (false, cs)
  let (digits, rest) := takeDigits cs
  if digits.isEmpty then none
  else
    let n := Text.ofDigits 10 digits
    if maxExponent < n then
      if significand = 0 || negative then some (0, rest) else none
    else
      let bits ← floatOf? significand (if negative then exponent - n else exponent + n)
      some (bits, rest)

def readFloat? (significand : Nat) (exponent : Int) (cs : List Char) :
    Option (UInt64 × List Char) :=
  match cs with
  | '.' :: cs =>
    let (digits, rest) := takeDigits cs
    if digits.isEmpty then none
    else
      let (significand, dropped) := appendDigits significand digits
      let exponent := exponent - (digits.length - dropped.length : Nat)
      match rest with
      | 'e' :: rest | 'E' :: rest => readExponent? significand exponent rest
      | rest => (floatOf? significand exponent).map (·, rest)
  | 'e' :: cs | 'E' :: cs => readExponent? significand exponent cs
  | cs => (floatOf? significand exponent).map (·, cs)

def startsFraction : List Char → Bool
  | '.' :: _ | 'e' :: _ | 'E' :: _ => true
  | _ => false

def signed (negative : Bool) (bits : UInt64) : UInt64 :=
  if negative then Binary64.neg bits else bits

/-- The number of an integer literal. Minus zero, and what no 64-bit integer holds, is a float. -/
def ofLiteral (negative : Bool) (n : Nat) : Json :=
  if !negative then .int n
  else if n = 0 || 0x8000000000000000 < n then .float (signed true (Binary64.ofNat n))
  else .int (-n)

/-- Reads a number, whose first digit is zero only if there is no other before the point. -/
def readNumber? (negative : Bool) (cs : List Char) : Option (Json × List Char) :=
  let (digits, rest) := takeDigits cs
  match digits with
  | [] => none
  | 0 :: _ :: _ => none
  | digits =>
    let (significand, dropped) := appendDigits 0 digits
    if dropped.isEmpty && !startsFraction rest then some (ofLiteral negative significand, rest)
    else
      (readFloat? significand dropped.length rest).map fun (bits, rest) =>
        (.float (signed negative bits), rest)

end HotLoop.Json
