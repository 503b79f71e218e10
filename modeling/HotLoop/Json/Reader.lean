import HotLoop.Json.Number

/-!
# Reading JSON

A reader for JSON texts. Arrays and objects may nest to a depth of 127. Strings hold any character
but raw control characters; an escaped surrogate has to come with its partner. Behind the value
there may be white space and nothing else.
-/

namespace HotLoop.Json

open Text (hexDigit?)

def isSpace (c : Char) : Bool := c == ' ' || c == '\n' || c == '\t' || c == '\r'

def skipSpace (cs : List Char) : List Char := cs.dropWhile isSpace

def readHex4? : List Char → Option (Nat × List Char)
  | a :: b :: c :: d :: rest => do
    let a ← hexDigit? a
    let b ← hexDigit? b
    let c ← hexDigit? c
    let d ← hexDigit? d
    some (((a * 16 + b) * 16 + c) * 16 + d, rest)
  | _ => none

/-- The character of an escape with four hexadecimal digits, or of two that are surrogates. -/
def readUnicode? (cs : List Char) : Option (Char × List Char) := do
  let (high, rest) ← readHex4? cs
  if 0xdc00 ≤ high ∧ high < 0xe000 then none
  else if 0xd800 ≤ high ∧ high < 0xdc00 then
    match rest with
    | '\\' :: 'u' :: rest =>
      let (low, rest) ← readHex4? rest
      if 0xdc00 ≤ low ∧ low < 0xe000 then
        some (Char.ofNat (0x10000 + (high - 0xd800) * 0x400 + (low - 0xdc00)), rest)
      else none
    | _ => none
  else some (Char.ofNat high, rest)

def readEscape? : List Char → Option (Char × List Char)
  | '"' :: cs => some ('"', cs)
  | '\\' :: cs => some ('\\', cs)
  | '/' :: cs => some ('/', cs)
  | 'b' :: cs => some ('\x08', cs)
  | 'f' :: cs => some ('\x0c', cs)
  | 'n' :: cs => some ('\n', cs)
  | 'r' :: cs => some ('\r', cs)
  | 't' :: cs => some ('\t', cs)
  | 'u' :: cs => readUnicode? cs
  | _ => none

/--
The characters of a string up to its closing quote. `fuel` bounds the number of characters, and
`read` has those read so far, the last one first.
-/
def readString? : Nat → List Char → List Char → Option (String × List Char)
  | _, _, [] => none
  | 0, _, _ => none
  | fuel + 1, read, c :: cs =>
    if c = '"' then some (String.ofList read.reverse, cs)
    else if c = '\\' then
      match readEscape? cs with
      | some (c, cs) => readString? fuel (c :: read) cs
      | none => none
    else if c.toNat < 0x20 then none
    else readString? fuel (c :: read) cs

def depthLimit : Nat := 128

mutual

/-- A value; `depth` counts the arrays and objects that may still be opened, and one more. -/
def readValue? : Nat → Nat → List Char → Option (Json × List Char)
  | 0, _, _ => none
  | fuel + 1, depth, cs =>
    match skipSpace cs with
    | 'n' :: 'u' :: 'l' :: 'l' :: cs => some (.null, cs)
    | 't' :: 'r' :: 'u' :: 'e' :: cs => some (.bool true, cs)
    | 'f' :: 'a' :: 'l' :: 's' :: 'e' :: cs => some (.bool false, cs)
    | '"' :: cs => (readString? (cs.length + 1) [] cs).map fun (s, cs) => (.string s, cs)
    | '-' :: cs => readNumber? true cs
    | '[' :: cs =>
      if depth ≤ 1 then none
      else match skipSpace cs with
        | ']' :: cs => some (.array [], cs)
        | cs => (readItems? fuel (depth - 1) cs).map fun (items, cs) => (.array items, cs)
    | '{' :: cs =>
      if depth ≤ 1 then none
      else match skipSpace cs with
        | '}' :: cs => some (.object [], cs)
        | cs => (readMembers? fuel (depth - 1) cs).map fun (ms, cs) => (.object ms, cs)
    | cs => readNumber? false cs

def readItems? : Nat → Nat → List Char → Option (List Json × List Char)
  | 0, _, _ => none
  | fuel + 1, depth, cs => do
    let (item, cs) ← readValue? fuel depth cs
    match skipSpace cs with
    | ']' :: cs => some ([item], cs)
    | ',' :: cs =>
      let (items, cs) ← readItems? fuel depth cs
      some (item :: items, cs)
    | _ => none

def readMembers? : Nat → Nat → List Char → Option (List (String × Json) × List Char)
  | 0, _, _ => none
  | fuel + 1, depth, cs =>
    match skipSpace cs with
    | '"' :: cs => do
      let (name, cs) ← readString? (cs.length + 1) [] cs
      match skipSpace cs with
      | ':' :: cs => do
        let (value, cs) ← readValue? fuel depth cs
        match skipSpace cs with
        | '}' :: cs => some ([(name, value)], cs)
        | ',' :: cs =>
          let (members, cs) ← readMembers? fuel depth cs
          some ((name, value) :: members, cs)
        | _ => none
      | _ => none
    | _ => none

end

/-- Reads a whole text. Every value, item and member takes up at least one character. -/
def parse? (text : String) : Option Json :=
  let cs := text.toList
  match readValue? (2 * cs.length + 2) depthLimit cs with
  | some (value, rest) => if (skipSpace rest).isEmpty then some value else none
  | none => none

end HotLoop.Json
