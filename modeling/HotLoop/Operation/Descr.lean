import HotLoop.Operation.OpCode
import HotLoop.Value

/-!
# Descriptors

An operation may carry a descriptor: the unit or entry point it goes to, the guard it is, the way
it leaves compiled code, or what it touches on the heap. Units, entry points and guards are named
by handles; what changes about them over time is kept in tables elsewhere.
-/

namespace HotLoop

/--
A reference to a compiled unit: a slot and the generation of the slot it was handed out in. The
unit is gone once the slot has moved on to another generation.
-/
structure UnitHandle where
  index : Nat
  generation : Nat
  deriving DecidableEq, Repr, Inhabited

def UnitHandle.dangling : UnitHandle := ⟨0xffffffff, 0⟩

/-- One entry point of a compiled unit: a label with the kinds of its arguments. -/
structure EntryPoint where
  id : Nat
  owner : UnitHandle
  argKinds : List Kind
  deriving DecidableEq, Repr, Inhabited

/-- How a guard takes part in compilation. -/
inductive GuardKind where
  | plain
  /-- The guard behind a call that may force the frame; it is never compiled. -/
  | forced (driver : Nat)
  | notInvalidated
  /-- Bridges from here enter the loop through its preamble. -/
  | atPosition
  deriving DecidableEq, Repr, Inhabited

/-- The fixed part of a guard; its `id` finds the part that changes. -/
structure Guard where
  id : Nat
  opcode : OpCode
  kind : GuardKind
  deriving DecidableEq, Repr, Inhabited

/-- The ways to leave compiled code for good. -/
inductive FinalDescr where
  | doneVoid
  | doneInt
  | doneRef
  | doneFloat
  | exitFrameWithExceptionRef
  /-- Leaves with the pending exception; the guard of a temporary callback carries it. -/
  | propagateException
  deriving DecidableEq, Repr, Inhabited

namespace FinalDescr

def name : FinalDescr → String
  | doneVoid => "DoneVoid"
  | doneInt => "DoneInt"
  | doneRef => "DoneRef"
  | doneFloat => "DoneFloat"
  | exitFrameWithExceptionRef => "ExitFrameWithExceptionRef"
  | propagateException => "PropagateException"

def all : List FinalDescr :=
  [doneVoid, doneInt, doneRef, doneFloat, exitFrameWithExceptionRef, propagateException]

def ofName? (s : String) : Option FinalDescr := all.find? (·.name == s)

/-- The normal return of a portal with results of kind `k`. -/
def done : Kind → FinalDescr
  | .void => doneVoid
  | .int => doneInt
  | .ref => doneRef
  | .float => doneFloat

end FinalDescr

structure FieldDescr where
  name : String
  kind : Kind
  offset : Nat
  deriving DecidableEq, Repr, Inhabited

structure ArrayDescr where
  itemKind : Kind
  deriving DecidableEq, Repr, Inhabited

structure SizeDescr where
  typeId : Nat
  size : Nat
  deriving DecidableEq, Repr, Inhabited

structure CallDescr where
  args : List Kind
  result : Kind
  deriving DecidableEq, Repr, Inhabited

inductive Descr where
  /-- A whole unit: the header of a loop, a call, or a jump whose entry point is open. -/
  | cell (unit : UnitHandle)
  | target (entry : EntryPoint)
  | guard (guard : Guard)
  | final (exit : FinalDescr)
  | field (field : FieldDescr)
  | array (array : ArrayDescr)
  | size (size : SizeDescr)
  | call (call : CallDescr)
  | quasiImmut (field : Nat)
  deriving DecidableEq, Repr, Inhabited

namespace Descr

def target? : Descr → Option EntryPoint
  | target e => some e
  | _ => none

def guard? : Descr → Option Guard
  | guard g => some g
  | _ => none

end Descr

end HotLoop
