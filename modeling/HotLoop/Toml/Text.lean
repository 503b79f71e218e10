import HotLoop.Text.Digits

/-!
# Blanks, comments and strings of TOML

Strings are basic or literal, on one line or between triple quotes. Raw control characters are
allowed nowhere, apart from tabs and, between triple quotes, line ends. Readers return what they
have read and what follows.
-/

namespace HotLoop.Toml

open Text (hexDigit?)

def isSpace (c : Char) : Bool := c == ' ' || c == '\t'

def skipSpace (cs : List Char) : List Char := cs.dropWhile isSpace

/-- The characters that stand for themselves in comments and literal strings. -/
def isPlain (c : Char) : Bool := c == '\t' || 0x20 ≤ c.toNat && c != '\x7f'

/-- What follows a line end: a line feed, with a carriage return before it or not. -/
def newline? : List Char → Option (List Char)
  | '\n' :: cs => some cs
  | '\r' :: '\n' :: cs => some cs
  | _ => none

/-- What follows the rest of a line, which may hold a comment; the text may end instead. -/
def lineEnd? (cs : List Char) : Option (List Char) :=
  let cs := match skipSpace cs with
    | '#' :: cs => cs.dropWhile isPlain
    | cs => cs
  if cs.isEmpty then some [] else newline? cs

/-- Skips blanks, line ends and comments, each up to the end of its line. -/
def skipLines? (inComment : Bool) : List Char → Option (List Char)
  | [] => some []
  | '\n' :: cs => skipLines? false cs
  | '\r' :: '\n' :: cs => skipLines? false cs
  | c :: cs =>
    if inComment then if isPlain c then skipLines? true cs else none
    else if isSpace c then skipLines? false cs
    else if c = '#' then skipLines? true cs
    else some (c :: cs)

def skipBreaks : List Char → List Char
  | '\n' :: cs => skipBreaks cs
  | '\r' :: '\n' :: cs => skipBreaks cs
  | c :: cs => if isSpace c then skipBreaks cs else c :: cs
  | [] => []

/-- The character that a number of hexadecimal digits stands for. -/
def readCode? (count : Nat) (cs : List Char) : Option (Char × List Char) := do
  let digits ← (cs.take count).mapM hexDigit?
  let n := Text.ofDigits 16 digits
  if digits.length = count ∧ n.isValidChar then some (Char.ofNat n, cs.drop count) else none

def readEscape? : List Char → Option (Char × List Char)
  | 'b' :: cs => some ('\x08', cs)
  | 't' :: cs => some ('\t', cs)
  | 'n' :: cs => some ('\n', cs)
  | 'f' :: cs => some ('\x0c', cs)
  | 'r' :: cs => some ('\r', cs)
  | '"' :: cs => some ('"', cs)
  | '\\' :: cs => some ('\\', cs)
  | 'u' :: cs => readCode? 4 cs
  | 'U' :: cs => readCode? 8 cs
  | _ => none

/-- The characters of a basic string up to its quote; `read` has those so far, the last one
first. -/
def readBasic? : Nat → List Char → List Char → Option (String × List Char)
  | 0, _, _ => none
  | _, _, [] => none
  | fuel + 1, read, c :: cs =>
    if c = '"' then some (String.ofList read.reverse, cs)
    else if c = '\\' then
      match readEscape? cs with
      | some (c, cs) => readBasic? fuel (c :: read) cs
      | none => none
    else if isPlain c then readBasic? fuel (c :: read) cs
    else none

def readLiteral? (cs : List Char) : Option (String × List Char) :=
  let (read, rest) := cs.span fun c => isPlain c && c != '\''
  match rest with
  | '\'' :: rest => some (String.ofList read, rest)
  | _ => none

/--
Splits a run of quotes that ends a string between triple quotes: up to two of them belong to the
string. Shorter runs do not end it, and longer ones leave a quote over, which nothing can follow.
-/
def closingQuotes? (quote : Char) (cs : List Char) : Option (List Char × List Char) :=
  let run := cs.takeWhile (· == quote)
  if 3 ≤ run.length ∧ run.length ≤ 5 then some (run.drop 3, cs.drop run.length) else none

/-- What follows a backslash that joins lines: all blanks and line ends, of which there is one. -/
def joinedLines? (cs : List Char) : Option (List Char) :=
  (newline? (skipSpace cs)).map skipBreaks

/-- The characters between triple quotes; escapes count in basic strings only. -/
def readMulti? (quote : Char) (escapes : Bool) : Nat → List Char → List Char →
    Option (String × List Char)
  | 0, _, _ => none
  | _, _, [] => none
  | fuel + 1, read, c :: cs =>
    if c = quote then
      match closingQuotes? quote (c :: cs) with
      | some (inside, rest) => some (String.ofList (read.reverse ++ inside), rest)
      | none =>
        if cs.take 2 = [quote, quote] then none else readMulti? quote escapes fuel (c :: read) cs
    else if escapes && c = '\\' then
      match joinedLines? cs with
      | some cs => readMulti? quote escapes fuel read cs
      | none =>
        match readEscape? cs with
        | some (c, cs) => readMulti? quote escapes fuel (c :: read) cs
        | none => none
    else
      match newline? (c :: cs) with
      | some cs => readMulti? quote escapes fuel ('\n' :: read) cs
      | none => if isPlain c then readMulti? quote escapes fuel (c :: read) cs else none

/-- A string between triple quotes, behind the first three; a line end there does not count. -/
def readMultiString? (quote : Char) (escapes : Bool) (cs : List Char) :
    Option (String × List Char) :=
  let cs := (newline? cs).getD cs
  readMulti? quote escapes (cs.length + 1) [] cs

def readLineString? : List Char → Option (String × List Char)
  | '"' :: cs => readBasic? (cs.length + 1) [] cs
  | '\'' :: cs => readLiteral? cs
  | _ => none

def readString? : List Char → Option (String × List Char)
  | '"' :: '"' :: '"' :: cs => readMultiString? '"' true cs
  | '\'' :: '\'' :: '\'' :: cs => readMultiString? '\'' false cs
  | cs => readLineString? cs

end HotLoop.Toml
