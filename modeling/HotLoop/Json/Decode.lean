import HotLoop.Json.Basic
import HotLoop.Binary64

/-!
# Decoding JSON into records

How records, lists, numbers and names are taken from a JSON tree. A record is an object with known
members, each at most once and in any order, or an array of its fields in their order; fields may
be missing where they have a default, at the end of an array only.
-/

namespace HotLoop.Json

/-- The members of an object under given names. Other names and repeated ones are refused. -/
def membersFor? (names : List String) (members : List (String × Json)) :
    Option (List (Option Json)) :=
  let given := members.map (·.1)
  if given.all names.contains && given.eraseDups.length == given.length then
    some (names.map fun name => (members.find? (·.1 == name)).map (·.2))
  else none

def record? (names : List String) : Json → Option (List (Option Json))
  | object members => membersFor? names members
  | array items =>
    if items.length ≤ names.length then
      some (items.map some ++ List.replicate (names.length - items.length) none)
    else none
  | _ => none

def intIn? (low high : Int) : Json → Option Int
  | int n => if low ≤ n ∧ n ≤ high then some n else none
  | _ => none

def int64? (j : Json) : Option Int64 :=
  (intIn? (-0x8000000000000000) 0x7fffffffffffffff j).map Int64.ofInt

def natBelow? (bound : Nat) (j : Json) : Option Nat :=
  (intIn? 0 (bound - 1 : Nat) j).map Int.toNat

def nat32? (j : Json) : Option Nat := natBelow? UInt32.size j

def nat64? (j : Json) : Option Nat := natBelow? UInt64.size j

def float? : Json → Option UInt64
  | float bits => some bits
  | int n =>
    let bits := Binary64.ofNat n.natAbs
    some (if n < 0 then Binary64.neg bits else bits)
  | _ => none

def string? : Json → Option String
  | string s => some s
  | _ => none

def list? {α : Type} (item : Json → Option α) : Json → Option (List α)
  | array items => items.mapM item
  | _ => none

def nullable? {α : Type} (item : Json → Option α) : Json → Option (Option α)
  | null => some none
  | j => (item j).map some

/-- A name out of a fixed set, by itself or as the only member of an object, with null. -/
def choice? {α : Type} (ofName : String → Option α) : Json → Option α
  | string s => ofName s
  | object [(s, null)] => ofName s
  | _ => none

def required? {α : Type} (item : Json → Option α) (field : Option Json) : Option α :=
  field.bind item

def withDefault? {α : Type} (default : α) (item : Json → Option α) : Option Json → Option α
  | some j => item j
  | none => some default

end HotLoop.Json
