import HotLoop.Consistency

/-!
# Why compiling stops

A *rejection* by the optimizer is no failure: the attempt is dropped and the program keeps being
interpreted. A `JitError` reaches the caller of a compile or of a guard failure. A `Fault` is a
broken assumption about the trace itself, after which the run cannot go on.
-/

namespace HotLoop

inductive Fault where
  | valuesExhausted
  | missingArgument (op : OpCode)
  | notALabel (op : OpCode)
  | notAGuard (op : OpCode)
  | noFailDescr (op : OpCode)
  /-- Only a guard that compares with a value can count per value. -/
  | notComparing (op : OpCode)
  | guardOnVoid
  | unrollingOff
  | lostClosingJump
  | missingLoopHeader
  /-- Submitted code is not consistent; `what` names its kind and the trace. -/
  | inconsistent (what : String) (error : ConsistencyError)
  | neverAttached
  | virtualizableShape
  | callbackShape
  | foreignDriver
  | notStoppedAtForcedGuard
  | tooManySections
  | tooManyBridgeRuns
  | tooManyGenerations
  | interpreterFailed
  deriving DecidableEq, Repr, Inhabited

def Fault.message? : Fault → Option String
  | noFailDescr op => some s!"no fail descriptor for {op.name}"
  | inconsistent what error => some s!"{what} is inconsistent: {error.message}"
  | _ => none

/-- Failures of compiling and of leaving compiled code. -/
inductive JitError where
  | rejected (what reason : String)
  | unknownForceToken (token : UInt64)
  | switchToBlackhole
  | missingHomeUnit
  | noProcedureToken
  | interrupted
  deriving DecidableEq, Repr, Inhabited

def JitError.message : JitError → String
  | rejected what reason => s!"backend rejected {what}: {reason}"
  | unknownForceToken token => s!"no running frame for force token ForceToken({token.toNat})"
  | switchToBlackhole => "switching to the blackhole interpreter"
  | missingHomeUnit => "the unit this trace belongs to has been freed"
  | noProcedureToken => "no compiled procedure for this green key"
  | interrupted => "interrupted"

/-- The reasons for which the optimizer gives a trace up. -/
inductive InvalidLoop where
  | guardAlwaysFails (guard : Operation)
  | notClosingOnUnit
  | headerArity
  | jumpArity
  | noClosingJump
  | noTargetUnit
  deriving DecidableEq, Repr, Inhabited

namespace InvalidLoop

def reason : InvalidLoop → String
  | guardAlwaysFails guard => s!"{guard.text} always fails"
  | notClosingOnUnit => "peeled loop does not close on a unit"
  | headerArity => "loop header arity differs from the preamble"
  | jumpArity => "jump arity differs from the loop header"
  | noClosingJump => "bridge does not end in a jump"
  | noTargetUnit => "bridge jump has no target unit"

def message (e : InvalidLoop) : String := s!"invalid loop: {e.reason}"

end InvalidLoop

/-- The ways in which an optimizer pass ends early. -/
inductive Rejection where
  | invalid (why : InvalidLoop)
  | fault (fault : Fault)
  deriving Inhabited

/-- The ways in which compiling or handling a failure ends early. -/
inductive Stop where
  | error (error : JitError)
  | fault (fault : Fault)
  deriving Inhabited

/--
Computations on a state that may stop early. The state as it was at the stop is kept, because it
can be observed afterwards.
-/
abbrev JitM (σ : Type) := ExceptT Stop (StateM σ)

abbrev PassM (σ : Type) := ExceptT Rejection (StateM σ)

end HotLoop
