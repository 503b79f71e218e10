import HotLoop.Operation.Text
import HotLoop.Resume.Reader

/-!
# Dead frames

A dead frame is what compiled code leaves behind when it exits: the descriptor it left through and
the values of the fail arguments. A frame that was forced while it was running also carries the
virtual objects built then. The interpreter goes on from a `FrameExit`.
-/

namespace HotLoop

inductive FailDescr where
  | guard (guard : Guard)
  | final (exit : FinalDescr)
  deriving DecidableEq, Repr, Inhabited

/-- The state left behind by compiled code. -/
structure DeadFrame where
  descr : FailDescr
  values : List Value
  exception : Option UInt64 := none
  forceToken : Option UInt64 := none
  saved : Option VirtualCache := none
  deriving Repr, Inhabited

/-- How the interpreter goes on after compiled code has exited. -/
inductive FrameExit where
  | done (value : Value)
  | exception (address : UInt64)
  | continueWith (values : List Value)
  deriving DecidableEq, Repr, Inhabited

namespace DeadFrame

/-- The integer at an index, zero if there is none. -/
def intAt (f : DeadFrame) (i : Nat) : Int64 := ((f.values[i]?).bind Value.int?).getD 0

/-- The reference at an index, null if there is none. -/
def refAt (f : DeadFrame) (i : Nat) : UInt64 := ((f.values[i]?).bind Value.ref?).getD 0

/-- The bits of the float at an index, those of zero if there is none. -/
def floatAt (f : DeadFrame) (i : Nat) : UInt64 := ((f.values[i]?).bind Value.float?).getD 0

def pendingException (f : DeadFrame) : UInt64 := f.exception.getD 0

end DeadFrame

/-- Stands for an exception that could not be built; no object has this address. -/
def memoryError : UInt64 := 0xfffffffffffffff0

/-- How a frame that left through a final descriptor goes on. -/
def FinalDescr.exit (d : FinalDescr) (frame : DeadFrame) : FrameExit :=
  match d with
  | doneVoid => .done .void
  | doneInt => .done (.int (frame.intAt 0))
  | doneRef => .done (.ref (frame.refAt 0))
  | doneFloat => .done (.float (frame.floatAt 0))
  | exitFrameWithExceptionRef => .exception (frame.refAt 0)
  | propagateException =>
    .exception (if frame.pendingException = 0 then memoryError else frame.pendingException)

end HotLoop
