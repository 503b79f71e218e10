/-!
# TOML documents

A document is a table: members with distinct names, each a value or a table again. How a table came
about decides who may still add to it. Braces close a table for good; a dotted key may go through
tables that no header has opened; a header may open a table once.
-/

namespace HotLoop.Toml

inductive TableForm where
  /-- By its own header; the document itself counts as such. -/
  | headed
  | implied
  | dotted
  | inline
  deriving DecidableEq, Repr, Inhabited

inductive Node where
  | string (s : String)
  | integer (n : Int)
  | float (bits : UInt64)
  | boolean (b : Bool)
  /-- A date, a time or both, as they are written. -/
  | dateTime (text : String)
  | array (items : List Node)
  | table (form : TableForm) (members : List (String × Node))
  | tables (items : List (List (String × Node)))
  deriving Repr, Inhabited

abbrev Members := List (String × Node)

namespace Members

def get? (ms : Members) (key : String) : Option Node := List.lookup key ms

def add? (ms : Members) (key : String) (node : Node) : Option Members :=
  if (ms.get? key).isSome then none else some (ms ++ [(key, node)])

def set (ms : Members) (key : String) (node : Node) : Members :=
  ms.map fun m => if m.1 == key then (key, node) else m

/--
Changes the table at the end of a path, where the path may go on through missing tables. A dotted
key goes through tables without headers only, a header through all but inline ones; both take the
last of repeated tables.
-/
def descend? (dotted : Bool) (change : TableForm → Members → Option Members) :
    List String → TableForm → Members → Option Members
  | [], form, ms => change form ms
  | key :: path, _, ms =>
    match ms.get? key with
    | none => do
      let form := if dotted then .dotted else .implied
      let inner ← descend? dotted change path form []
      some (ms ++ [(key, .table form inner)])
    | some (.table form inner) => do
      if form = .inline || dotted && form = .headed then none
      else
        let inner ← descend? dotted change path form inner
        some (ms.set key (.table form inner))
    | some (.tables items) => do
      let last ← items.getLast?
      let inner ← descend? dotted change path .headed last
      some (ms.set key (.tables (items.dropLast ++ [inner])))
    | some _ => none

/-- Adds what a key stands for, below a path of dotted names. The table that takes it in was made by
dotted keys exactly if there are such names. -/
def insert? (path : List String) (key : String) (node : Node) (form : TableForm) (ms : Members) :
    Option Members :=
  descend? true (fun form ms =>
    if (form == .dotted) == path.isEmpty then none else ms.add? key node) path form ms

def openTable? (path : List String) (key : String) (ms : Members) : Option Members :=
  descend? false (fun _ ms =>
    match ms.get? key with
    | none => some (ms ++ [(key, .table .headed [])])
    | some (.table .implied inner) => some (ms.set key (.table .headed inner))
    | some _ => none) path .headed ms

/-- Opens one more of the tables of a header with double brackets. -/
def openRepeated? (path : List String) (key : String) (ms : Members) : Option Members :=
  descend? false (fun _ ms =>
    match ms.get? key with
    | none => some (ms ++ [(key, .tables [[]])])
    | some (.tables items) => some (ms.set key (.tables (items ++ [[]])))
    | some _ => none) path .headed ms

end Members

end HotLoop.Toml
