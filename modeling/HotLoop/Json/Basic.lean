/-!
# Data in JSON

A JSON text as a tree. Members of an object keep their order, and a name may come up twice: what
that means is decided by whoever reads the object. A number is an integer if it is written as one
and fits 64 bits, signed or not, and otherwise a float, given by its bits.
-/

namespace HotLoop

inductive Json where
  | null
  | bool (b : Bool)
  | int (n : Int)
  | float (bits : UInt64)
  | string (s : String)
  | array (items : List Json)
  | object (members : List (String × Json))
  deriving Repr, Inhabited

end HotLoop
