import HotLoop.Operation.Basic
import HotLoop.Table

/-!
# What is known from constant arguments

The value of a pure integer operation, the outcome of a guard, and the remembered result of a pure
call, each from the values of the arguments. Arithmetic wraps at 64 bits; a shift has a value only
for counts from 0 to 63.
-/

namespace HotLoop

def truth (b : Bool) : Int64 := if b then 1 else 0

def isShiftCount (n : Int64) : Bool := 0 ≤ n && n < 64

/-- The value of a pure integer operation. -/
def foldInts : OpCode → List Int64 → Option Int64
  | .intAdd, [a, b] => some (a + b)
  | .intSub, [a, b] => some (a - b)
  | .intMul, [a, b] => some (a * b)
  | .intAnd, [a, b] => some (a &&& b)
  | .intOr, [a, b] => some (a ||| b)
  | .intXor, [a, b] => some (a ^^^ b)
  | .intLshift, [a, b] => if isShiftCount b then some (a <<< b) else none
  | .intRshift, [a, b] => if isShiftCount b then some (a >>> b) else none
  | .intNeg, [a] => some (-a)
  | .intIsTrue, [a] => some (truth (a != 0))
  | .intLt, [a, b] => some (truth (a < b))
  | .intLe, [a, b] => some (truth (a ≤ b))
  | .intEq, [a, b] => some (truth (a == b))
  | .intNe, [a, b] => some (truth (a != b))
  | .intGt, [a, b] => some (truth (b < a))
  | .intGe, [a, b] => some (truth (b ≤ a))
  | _, _ => none

/-- Does a guard hold? Only some guards depend on nothing but their arguments. -/
def guardHolds : OpCode → List Value → Option Bool
  | .guardTrue, [.int n] => some (n != 0)
  | .guardFalse, [.int n] => some (n == 0)
  | .guardValue, [a, b] => some (a.sameConstant b)
  | .guardNonnull, [.ref a] => some (a != 0)
  | .guardIsnull, [.ref a] => some (a == 0)
  | _, _ => none

def constArgs? (args : List Arg) : Option (List Value) := args.mapM Arg.const?

/-- The value of an operation on constant integers. -/
def foldArgs? (op : OpCode) (args : List Arg) : Option Int64 := do
  let values ← constArgs? args
  let ints ← values.mapM Value.int?
  foldInts op ints

def guardOutcome? (op : OpCode) (args : List Arg) : Option Bool :=
  (constArgs? args).bind (guardHolds op)

/-- What identifies a remembered pure call: the words of its arguments, the function first. -/
structure PureKey where
  words : List UInt64
  deriving DecidableEq, Repr, Inhabited

def PureKey.ofValues (args : List Value) : PureKey := ⟨args.map Value.word⟩

/-- The results of pure calls seen while tracing. -/
abbrev PureMemo := Table PureKey Value

/-- The remembered result of a call on constants. -/
def PureMemo.lookup? (memo : PureMemo) (args : List Arg) : Option Value :=
  (constArgs? args).bind fun values => memo.get? (.ofValues values)

end HotLoop
