import HotLoop.Decimal.Layout
import HotLoop.Json.Basic

/-!
# Writing JSON

The compact form of a JSON tree, without white space, and the form with one item or member a line.
-/

namespace HotLoop.Json

def floatStyle : FloatStyle where
  leastPositional := -5
  greatestPositional := 15
  exponentMark := 'e'
  nan := "null"
  infinity := "null"

def hexPair (n : Nat) : String :=
  String.ofList [Nat.digitChar (n / 16), Nat.digitChar (n % 16)]

def escapeChar (c : Char) : String :=
  if c = '"' then "\\\""
  else if c = '\\' then "\\\\"
  else if c = '\n' then "\\n"
  else if c = '\r' then "\\r"
  else if c = '\t' then "\\t"
  else if c = '\x08' then "\\b"
  else if c = '\x0c' then "\\f"
  else if c.toNat < 0x20 then "\\u00" ++ hexPair c.toNat
  else c.toString

def quote (s : String) : String := "\"" ++ String.join (s.toList.map escapeChar) ++ "\""

mutual

def compact : Json → String
  | null => "null"
  | bool b => if b then "true" else "false"
  | int n => toString n
  | float bits => floatStyle.write bits
  | string s => quote s
  | array items => "[" ++ ",".intercalate (compactItems items) ++ "]"
  | object members => "\x7b" ++ ",".intercalate (compactMembers members) ++ "\x7d"

def compactItems : List Json → List String
  | [] => []
  | v :: vs => compact v :: compactItems vs

def compactMembers : List (String × Json) → List String
  | [] => []
  | (name, v) :: ms => (quote name ++ ":" ++ compact v) :: compactMembers ms

end

/-- An object with one member a line, each set in by two spaces. -/
def prettyObject (members : List (String × Json)) : String :=
  let lines := members.map fun (name, v) => "  " ++ quote name ++ ": " ++ compact v
  "\x7b\n" ++ ",\n".intercalate lines ++ "\n\x7d"

end HotLoop.Json
