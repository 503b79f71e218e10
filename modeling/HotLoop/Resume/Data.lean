import HotLoop.Operation.Descr

/-!
# Resume data

What a guard needs to rebuild the state of the interpreter. The numbering has one entry for every
interpreter slot: it points into the values of the dead frame, names a constant, or names a virtual
object that has to be allocated before the interpreter can see it.
-/

namespace HotLoop

/-- Where the value of an interpreter slot comes from. -/
inductive Tagged where
  | box (index : Nat)
  | const (index : Nat)
  | int (n : Int32)
  | virtual (index : Nat)
  | null
  deriving DecidableEq, Repr, Inhabited

inductive VirtualInfo where
  | struct (size : SizeDescr) (fields : List (FieldDescr × Tagged))
  | array (array : ArrayDescr) (items : List Tagged)
  deriving DecidableEq, Repr, Inhabited

/-- A heap write that the optimizer has moved behind the guard. -/
structure PendingWrite where
  target : Tagged
  field : FieldDescr
  /-- The index of an array item; a field of a struct has none. -/
  index? : Option Nat
  value : Tagged
  deriving DecidableEq, Repr, Inhabited

structure ResumeData where
  numbering : List Tagged := []
  consts : List Value := []
  virtuals : List VirtualInfo := []
  pending : List PendingWrite := []
  count : Nat := 0
  /-- The interpreter position to go on from. Every copy of a guard keeps it. -/
  position : Nat := 0
  deriving DecidableEq, Repr, Inhabited

namespace ResumeData

def ofFailArgs (count : Nat) : ResumeData :=
  { numbering := (List.range count).map .box, count }

def atPosition (position : Nat) : ResumeData := { position }

end ResumeData

end HotLoop
