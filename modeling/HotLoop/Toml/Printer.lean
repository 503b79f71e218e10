/-!
# Writing TOML

The written form of a string: the first of basic, literal, basic between triple quotes and literal
between triple quotes that needs no escapes, and otherwise a basic form with escapes. A tab is
escaped in all basic forms and asks for no other form.
-/

namespace HotLoop.Toml

/-- The length of the longest run of a character; `run` is that of the run just before the text. -/
def longestRun (c : Char) (run : Nat) : List Char → Nat
  | [] => run
  | d :: cs => if d = c then longestRun c (run + 1) cs else max run (longestRun c 0 cs)

def isControl (c : Char) : Bool :=
  c.toNat < 0x20 && c != '\t' && c != '\n' || c == '\x7f'

/-- The number with four hexadecimal digits in upper case. -/
def hex4 (n : Nat) : String :=
  let digits := (Nat.toDigits 16 n).map Char.toUpper
  String.ofList (List.replicate (4 - digits.length) '0' ++ digits)

def escapeChar (multi : Bool) (c : Char) : String :=
  if c = '\x08' then "\\b"
  else if c = '\t' then "\\t"
  else if c = '\n' then if multi then "\n" else "\\n"
  else if c = '\x0c' then "\\f"
  else if c = '\r' then "\\r"
  else if c = '\\' then "\\\\"
  else if isControl c then "\\u" ++ hex4 c.toNat
  else c.toString

/-- The characters of a basic string. Between triple quotes, two quotes in a row need no escape;
`run` counts those just written. -/
def escape (multi : Bool) (run : Nat) : List Char → String
  | [] => ""
  | c :: cs =>
    if c = '"' then
      if (if multi then 2 else 0) ≤ run then "\\\"" ++ escape multi 0 cs
      else "\"" ++ escape multi (run + 1) cs
    else escapeChar multi c ++ escape multi 0 cs

def basicString (cs : List Char) : String := "\"" ++ escape false 0 cs ++ "\""

/-- What stands between triple quotes starts on a line of its own if it has more than one. -/
def firstBreak (cs : List Char) : String := if cs.contains '\n' then "\n" else ""

def basicMultiString (cs : List Char) : String :=
  "\"\"\"" ++ firstBreak cs ++ escape true 0 cs ++ "\"\"\""

def writeString (s : String) : String :=
  let cs := s.toList
  let control := cs.any isControl
  let backslash := cs.contains '\\'
  let lines := cs.contains '\n'
  let double := longestRun '"' 0 cs
  let single := longestRun '\'' 0 cs
  if !control && !backslash && double = 0 && !lines then basicString cs
  else if !control && single = 0 && !lines then "'" ++ s ++ "'"
  else if !control && !backslash && double ≤ 2 then basicMultiString cs
  else if !control && single ≤ 2 then "'''" ++ firstBreak cs ++ s ++ "'''"
  else if lines then basicMultiString cs
  else basicString cs

def assignment (key value : String) : String := key ++ " = " ++ value ++ "\n"

end HotLoop.Toml
