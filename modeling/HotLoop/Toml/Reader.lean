import HotLoop.Toml.Number
import HotLoop.Toml.Text

/-!
# Reading TOML

A reader for TOML documents. Arrays and inline tables nest to a depth of 79, and a key has at most
79 names. A document that is refused is refused as a whole, without a reason.
-/

namespace HotLoop.Toml

def isBare (c : Char) : Bool := c.isAlphanum || c == '-' || c == '_'

def readName? (cs : List Char) : Option (String × List Char) :=
  match cs with
  | '"' :: _ | '\'' :: _ => readLineString? cs
  | cs =>
    let (read, rest) := cs.span isBare
    if read.isEmpty then none else some (String.ofList read, rest)

/-- The names of a key with points between them, and blanks around them. -/
def readNames? : Nat → List Char → Option (List String × List Char)
  | 0, _ => none
  | fuel + 1, cs => do
    let (name, cs) ← readName? (skipSpace cs)
    match skipSpace cs with
    | '.' :: cs =>
      let (names, cs) ← readNames? fuel cs
      some (name :: names, cs)
    | cs => some ([name], cs)

/-- The bound for nested values and for the names of a key. -/
def depthLimit : Nat := 80

def readKey? (cs : List Char) : Option ((List String × String) × List Char) := do
  let (names, cs) ← readNames? (cs.length + 1) cs
  let last ← names.getLast?
  if names.length < depthLimit then some ((names.dropLast, last), cs) else none

def readPair? (value : List Char → Option (Node × List Char)) (cs : List Char) :
    Option ((List String × String × Node) × List Char) := do
  let ((path, key), cs) ← readKey? cs
  match cs with
  | '=' :: cs =>
    let (node, cs) ← value (skipSpace cs)
    some ((path, key, node), cs)
  | _ => none

/-- The items of an array and the closing bracket; a comma may follow the last item. -/
def readItems? (value : List Char → Option (Node × List Char)) :
    Nat → List Char → Option (List Node × List Char)
  | 0, _ => none
  | fuel + 1, cs => do
    match ← skipLines? false cs with
    | ']' :: cs => some ([], cs)
    | cs =>
      let (item, cs) ← value cs
      match ← skipLines? false cs with
      | ',' :: cs =>
        let (items, cs) ← readItems? value fuel cs
        some (item :: items, cs)
      | ']' :: cs => some ([item], cs)
      | _ => none

/-- The members of an inline table, of which there is at least one, and the closing brace. -/
def readMembers? (value : List Char → Option (Node × List Char)) :
    Nat → Members → List Char → Option (Members × List Char)
  | 0, _, _ => none
  | fuel + 1, ms, cs => do
    let ((path, key, node), cs) ← readPair? value cs
    let ms ← ms.insert? path key node .inline
    match skipSpace cs with
    | ',' :: cs => readMembers? value fuel ms cs
    | '}' :: cs => some (ms, cs)
    | _ => none

def readInline? (value : List Char → Option (Node × List Char)) (cs : List Char) :
    Option (Node × List Char) :=
  match skipSpace cs with
  | '}' :: cs => some (.table .inline [], cs)
  | cs => (readMembers? value (cs.length + 1) [] cs).map fun (ms, cs) => (.table .inline ms, cs)

/-- A value; `depth` counts the arrays and inline tables that may still be opened, and one more. -/
def readValue? : Nat → List Char → Option (Node × List Char)
  | 0, _ => none
  | depth + 1, cs =>
    match cs with
    | '"' :: _ | '\'' :: _ => (readString? cs).map fun (s, cs) => (.string s, cs)
    | '[' :: cs =>
      if depth = 0 then none
      else (readItems? (readValue? depth) (cs.length + 1) cs).map fun (xs, cs) => (.array xs, cs)
    | '{' :: cs => if depth = 0 then none else readInline? (readValue? depth) cs
    | 't' :: 'r' :: 'u' :: 'e' :: cs => some (.boolean true, cs)
    | 'f' :: 'a' :: 'l' :: 's' :: 'e' :: cs => some (.boolean false, cs)
    | cs => readNumberOrDate? cs

/-- A document as far as it has been read: its members and the header that is open. -/
structure Draft where
  members : Members := []
  header : List String := []

namespace Draft

/-- Adds a member to the table of the open header. -/
def insert? (d : Draft) (path : List String) (key : String) (node : Node) : Option Draft := do
  let members ← d.members.descend? false (fun form ms => ms.insert? path key node form) d.header
    .headed
  some { d with members }

def open? (d : Draft) (repeated : Bool) (path : List String) (key : String) : Option Draft := do
  let members ←
    if repeated then d.members.openRepeated? path key else d.members.openTable? path key
  some { members, header := path ++ [key] }

end Draft

def readHeader? (d : Draft) (repeated : Bool) (cs : List Char) : Option (Draft × List Char) := do
  let ((path, key), cs) ← readKey? cs
  let cs ← match repeated, cs with
    | true, ']' :: ']' :: cs => some cs
    | false, ']' :: cs => some cs
    | _, _ => none
  let cs ← lineEnd? cs
  some (← d.open? repeated path key, cs)

def readLine? (d : Draft) (cs : List Char) : Option (Draft × List Char) :=
  match cs with
  | '[' :: '[' :: cs => readHeader? d true cs
  | '[' :: cs => readHeader? d false cs
  | _ =>
    match skipLines? false cs with
    | none => none
    | some rest =>
      if rest.length < cs.length then some (d, rest)
      else do
        let ((path, key, node), cs) ← readPair? (readValue? depthLimit) cs
        let cs ← lineEnd? cs
        some (← d.insert? path key node, cs)

def readLines? : Nat → Draft → List Char → Option Draft
  | 0, _, _ => none
  | _, d, [] => some d
  | fuel + 1, d, cs => do
    let (d, cs) ← readLine? d cs
    readLines? fuel d cs

/-- Reads a whole document. A byte order mark at its start does not count. -/
def parse? (text : String) : Option Members :=
  let cs := match text.toList with
    | '\ufeff' :: cs => cs
    | cs => cs
  (readLines? (cs.length + 1) {} cs).map (·.members)

end HotLoop.Toml
