import HotLoop.Json.Basic

/-!
# Building JSON

Short constructors for trees of JSON data.
-/

namespace HotLoop.Json

def nat (n : Nat) : Json := .int n

def str (s : String) : Json := .string s

def opt {α : Type} (f : α → Json) : Option α → Json
  | some a => f a
  | none => .null

def list {α : Type} (f : α → Json) (xs : List α) : Json := .array (xs.map f)

def strs (xs : List String) : Json := list str xs

end HotLoop.Json
