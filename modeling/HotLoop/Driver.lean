import HotLoop.OptSet
import HotLoop.Operation.Descr
import HotLoop.Table

/-!
# Drivers

A driver is the outermost compilation root that a loop belongs to. Its static part says what its
loops look like; its warm state says how eagerly it compiles and which unit the interpreter enters
for the greens of a loop.
-/

namespace HotLoop

/-- The values of the loop-invariant variables that identify a loop. -/
structure GreenKey where
  values : List Int64
  deriving DecidableEq, Repr, Inhabited

def GreenKey.text (k : GreenKey) : String :=
  "<" ++ ",".intercalate (k.values.map fun n => toString n.toInt) ++ ">"

/-- The fields of a frame object that its loops keep in registers. -/
structure Virtualizable where
  staticFields : List FieldDescr
  arrayFields : List FieldDescr
  /-- What the arrays hold, one for each array field. -/
  itemArrays : List ArrayDescr
  arrayLength : UInt64 → Nat → Nat

/-- The same lengths for every object; arrays beyond the list are empty. -/
def fixedLengths (lengths : List Nat) : UInt64 → Nat → Nat := fun _ i => lengths[i]?.getD 0

structure Driver where
  id : Nat
  name : String
  redArgs : Nat
  resultKind : Kind
  virtualizable : Option Virtualizable := none
  /-- Which input is the object with the virtualizable fields. -/
  virtualizableIndex : Nat := 0
  portal : CallDescr := ⟨[], resultKind⟩
  portalAddress : Int64 := 0

def Driver.doneDescr (d : Driver) : FinalDescr := .done d.resultKind

instance : Inhabited Driver := ⟨{ id := 0, name := "", redArgs := 0, resultKind := .int }⟩

structure WarmState where
  opts : OptSet := .all
  eagerness : Nat := 200
  procedures : Table GreenKey UnitHandle := .empty
  deriving Repr, Inhabited

namespace WarmState

/-- Makes `h` the unit that the interpreter enters for a key. -/
def attach (w : WarmState) (key : GreenKey) (h : UnitHandle) : WarmState :=
  { w with procedures := w.procedures.insert key h }

def procedure? (w : WarmState) (key : GreenKey) : Option UnitHandle := w.procedures.get? key

end WarmState

end HotLoop
