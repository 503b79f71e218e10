import HotLoop.Binary64
import HotLoop.Text.Digits
import HotLoop.Toml.Basic

/-!
# Numbers and dates of TOML

Integers are decimal with a sign or not, or have a base and no sign; single underscores may stand
between digits. Floats are written in decimal. Dates and times are checked and kept as they are
written.
-/

namespace HotLoop.Toml

open Text (digit? hexDigit? ofDigits)

def moreDigits (digit? : Char → Option Nat) : List Char → List Nat × List Char
  | [] => ([], [])
  | '_' :: c :: cs =>
    match digit? c with
    | some d => let (ds, rest) := moreDigits digit? cs; (d :: ds, rest)
    | none => ([], '_' :: c :: cs)
  | c :: cs =>
    match digit? c with
    | some d => let (ds, rest) := moreDigits digit? cs; (d :: ds, rest)
    | none => ([], c :: cs)

def readDigits? (digit? : Char → Option Nat) : List Char → Option (List Nat × List Char)
  | [] => none
  | c :: cs => (digit? c).map fun d => let (ds, rest) := moreDigits digit? cs; (d :: ds, rest)

def digitBelow? (base : Nat) (c : Char) : Option Nat :=
  (hexDigit? c).filter (· < base)

def readSign : List Char → Bool × List Char
  | '+' :: cs => (false, cs)
  | '-' :: cs => (true, cs)
  | cs => (false, cs)

/-- The digits of a decimal integer. The first one is zero only if there is no other. -/
def readWhole? : List Char → Option (List Nat × List Char)
  | '0' :: cs => some ([0], cs)
  | cs => readDigits? digit? cs

def integer? (negative : Bool) (n : Nat) : Option Node :=
  let value : Int := if negative then -n else n
  if -0x8000000000000000 ≤ value ∧ value < 0x8000000000000000 then some (.integer value) else none

/-- An integer of a base, behind the mark of the base. -/
def readBased? (base : Nat) (cs : List Char) : Option (Node × List Char) := do
  let (digits, rest) ← readDigits? (digitBelow? base) cs
  return (← integer? false (ofDigits base digits), rest)

/-- The number nearest to `n · 10 ^ e`. Far beyond the largest and the least number, the exact value
is not worked out. -/
def nearest (n : Nat) (e : Int) : UInt64 :=
  let places : Int := e + (Nat.toDigits 10 n).length
  if n = 0 || places < -400 then 0
  else if 400 < places then Binary64.infinity
  else if 0 ≤ e then Binary64.ofNat (n * Nat.pow 10 e.toNat)
  else Binary64.ofQuotient n (Nat.pow 10 e.natAbs)

def readExponent? : List Char → Option (Option Int × List Char)
  | c :: cs =>
    if c = 'e' ∨ c = 'E' then do
      let (negative, cs) := readSign cs
      let (digits, rest) ← readDigits? digit? cs
      let n : Int := ofDigits 10 digits
      some (some (if negative then -n else n), rest)
    else some (none, c :: cs)
  | [] => some (none, [])

def readFraction? : List Char → Option (Option (List Nat) × List Char)
  | '.' :: cs => (readDigits? digit? cs).map fun (digits, rest) => (some digits, rest)
  | cs => some (none, cs)

def float? (negative : Bool) (bits : UInt64) : Option Node :=
  if negative then some (.float (Binary64.neg bits))
  else if Binary64.isInfinite bits then none
  else some (.float bits)

/-- A decimal number: an integer if it has neither a fraction nor an exponent. -/
def readDecimal? (negative : Bool) (cs : List Char) : Option (Node × List Char) := do
  let (whole, rest) ← readWhole? cs
  let (fraction, rest) ← readFraction? rest
  let (exponent, rest) ← readExponent? rest
  if fraction.isNone && exponent.isNone then
    return (← integer? negative (ofDigits 10 whole), rest)
  else
    let digits := fraction.getD []
    let bits := nearest (ofDigits 10 (whole ++ digits)) (exponent.getD 0 - digits.length)
    return (← float? negative bits, rest)

def quietNaN : UInt64 := 0x7ff8000000000000

def readNamed? (negative : Bool) : List Char → Option (Node × List Char)
  | 'i' :: 'n' :: 'f' :: cs =>
    some (.float (if negative then Binary64.neg Binary64.infinity else Binary64.infinity), cs)
  | 'n' :: 'a' :: 'n' :: cs =>
    some (.float (if negative then Binary64.neg quietNaN else quietNaN), cs)
  | _ => none

def readNumber? : List Char → Option (Node × List Char)
  | '0' :: 'x' :: cs => readBased? 16 cs
  | '0' :: 'o' :: cs => readBased? 8 cs
  | '0' :: 'b' :: cs => readBased? 2 cs
  | cs =>
    let (negative, cs) := readSign cs
    match readNamed? negative cs with
    | some r => some r
    | none => readDecimal? negative cs

/-- A number with a fixed count of digits, within bounds. -/
def readField? (count low high : Nat) (cs : List Char) : Option (Nat × List Char) := do
  let digits ← (cs.take count).mapM digit?
  let n := ofDigits 10 digits
  if digits.length = count ∧ low ≤ n ∧ n ≤ high then some (n, cs.drop count) else none

def expect? (c : Char) : List Char → Option (List Char)
  | d :: cs => if c = d then some cs else none
  | [] => none

def daysIn (year month : Nat) : Nat :=
  let leap := year % 4 = 0 ∧ (year % 100 ≠ 0 ∨ year % 400 = 0)
  if month = 2 then if leap then 29 else 28
  else if month = 4 ∨ month = 6 ∨ month = 9 ∨ month = 11 then 30
  else 31

def skipDate? (cs : List Char) : Option (List Char) := do
  let (year, cs) ← readField? 4 0 9999 cs
  let (month, cs) ← readField? 2 1 12 (← expect? '-' cs)
  let (day, cs) ← readField? 2 1 31 (← expect? '-' cs)
  if day ≤ daysIn year month then some cs else none

def skipSecondFraction : List Char → List Char
  | '.' :: cs =>
    let (digits, rest) := Text.takeDigits cs
    if digits.isEmpty then '.' :: cs else rest
  | cs => cs

def skipMinutes? (cs : List Char) : Option (List Char) := do
  let (_, cs) ← readField? 2 0 23 cs
  let (_, cs) ← readField? 2 0 59 (← expect? ':' cs)
  some cs

/-- What follows a time of day. A minute may have a leap second. -/
def skipTime? (cs : List Char) : Option (List Char) := do
  let cs ← skipMinutes? cs
  let (_, cs) ← readField? 2 0 60 (← expect? ':' cs)
  some (skipSecondFraction cs)

def skipOffset : List Char → List Char
  | 'Z' :: cs => cs
  | 'z' :: cs => cs
  | c :: cs => if c = '+' ∨ c = '-' then (skipMinutes? cs).getD (c :: cs) else c :: cs
  | [] => []

def skipDateTime? (cs : List Char) : Option (List Char) :=
  match skipDate? cs with
  | none => skipTime? cs
  | some [] => some []
  | some (c :: rest) =>
    if c = 'T' ∨ c = 't' ∨ c = ' ' then
      match skipTime? rest with
      | some rest => some (skipOffset rest)
      | none => some (c :: rest)
    else some (c :: rest)

def readNumberOrDate? (cs : List Char) : Option (Node × List Char) :=
  match skipDateTime? cs with
  | some rest => some (.dateTime (String.ofList (cs.take (cs.length - rest.length))), rest)
  | none => readNumber? cs

end HotLoop.Toml
