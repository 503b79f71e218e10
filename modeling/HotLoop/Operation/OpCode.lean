/-!
# Operation codes

The operations that a trace is made of, their names, and the classes that the compiler asks for:
guards, operations that end a trace, and pure integer operations that fold on constants.
-/

namespace HotLoop

inductive OpCode where
  | label
  | jump
  | finish
  | sameAs
  | intAdd
  | intSub
  | intMul
  | intAnd
  | intOr
  | intXor
  | intLshift
  | intRshift
  | intNeg
  | intIsTrue
  | intLt
  | intLe
  | intEq
  | intNe
  | intGt
  | intGe
  | intAddOvf
  | intSubOvf
  | intMulOvf
  | floatAdd
  | floatSub
  | floatMul
  | floatTruediv
  | floatLt
  | floatEq
  | ptrEq
  | ptrNe
  | guardTrue
  | guardFalse
  | guardValue
  | guardClass
  | guardNonnull
  | guardIsnull
  | guardNonnullClass
  | guardNoException
  | guardException
  | guardOverflow
  | guardNoOverflow
  | guardNotForced
  | guardNotForced2
  | guardNotInvalidated
  | guardFutureCondition
  | getfieldGc
  | setfieldGc
  | getarrayitemGc
  | setarrayitemGc
  | arraylenGc
  | new
  | newWithVtable
  | newArray
  | call
  | callPure
  | callMayForce
  | callAssembler
  | quasiimmutField
  | forceToken
  deriving DecidableEq, Repr, Inhabited

namespace OpCode

def all : List OpCode := [
  .label, .jump, .finish, .sameAs, .intAdd, .intSub, .intMul, .intAnd, .intOr, .intXor,
  .intLshift, .intRshift, .intNeg, .intIsTrue, .intLt, .intLe, .intEq, .intNe, .intGt,
  .intGe, .intAddOvf, .intSubOvf, .intMulOvf, .floatAdd, .floatSub, .floatMul, .floatTruediv,
  .floatLt, .floatEq, .ptrEq, .ptrNe, .guardTrue, .guardFalse, .guardValue, .guardClass,
  .guardNonnull, .guardIsnull, .guardNonnullClass, .guardNoException, .guardException,
  .guardOverflow, .guardNoOverflow, .guardNotForced, .guardNotForced2, .guardNotInvalidated,
  .guardFutureCondition, .getfieldGc, .setfieldGc, .getarrayitemGc, .setarrayitemGc,
  .arraylenGc, .new, .newWithVtable, .newArray, .call, .callPure, .callMayForce, .callAssembler,
  .quasiimmutField, .forceToken]

/-- The name of an operation in trace files. -/
def keyword : OpCode → String
  | label => "label"
  | jump => "jump"
  | finish => "finish"
  | sameAs => "same_as"
  | intAdd => "int_add"
  | intSub => "int_sub"
  | intMul => "int_mul"
  | intAnd => "int_and"
  | intOr => "int_or"
  | intXor => "int_xor"
  | intLshift => "int_lshift"
  | intRshift => "int_rshift"
  | intNeg => "int_neg"
  | intIsTrue => "int_is_true"
  | intLt => "int_lt"
  | intLe => "int_le"
  | intEq => "int_eq"
  | intNe => "int_ne"
  | intGt => "int_gt"
  | intGe => "int_ge"
  | intAddOvf => "int_add_ovf"
  | intSubOvf => "int_sub_ovf"
  | intMulOvf => "int_mul_ovf"
  | floatAdd => "float_add"
  | floatSub => "float_sub"
  | floatMul => "float_mul"
  | floatTruediv => "float_truediv"
  | floatLt => "float_lt"
  | floatEq => "float_eq"
  | ptrEq => "ptr_eq"
  | ptrNe => "ptr_ne"
  | guardTrue => "guard_true"
  | guardFalse => "guard_false"
  | guardValue => "guard_value"
  | guardClass => "guard_class"
  | guardNonnull => "guard_nonnull"
  | guardIsnull => "guard_isnull"
  | guardNonnullClass => "guard_nonnull_class"
  | guardNoException => "guard_no_exception"
  | guardException => "guard_exception"
  | guardOverflow => "guard_overflow"
  | guardNoOverflow => "guard_no_overflow"
  | guardNotForced => "guard_not_forced"
  | guardNotForced2 => "guard_not_forced2"
  | guardNotInvalidated => "guard_not_invalidated"
  | guardFutureCondition => "guard_future_condition"
  | getfieldGc => "getfield_gc"
  | setfieldGc => "setfield_gc"
  | getarrayitemGc => "getarrayitem_gc"
  | setarrayitemGc => "setarrayitem_gc"
  | arraylenGc => "arraylen_gc"
  | new => "new"
  | newWithVtable => "new_with_vtable"
  | newArray => "new_array"
  | call => "call"
  | callPure => "call_pure"
  | callMayForce => "call_may_force"
  | callAssembler => "call_assembler"
  | quasiimmutField => "quasiimmut_field"
  | forceToken => "force_token"

/-- The printed name: as in trace files, but with the last number set apart. -/
def name : OpCode → String
  | guardNotForced2 => "guard_not_forced_2"
  | op => op.keyword

/-- The operation that trace files call `s`. -/
def ofKeyword? (s : String) : Option OpCode := all.find? (·.keyword == s)

/-- Operations that leave the trace when their condition does not hold. -/
def isGuard : OpCode → Bool
  | guardTrue | guardFalse | guardValue | guardClass | guardNonnull | guardIsnull
  | guardNonnullClass | guardNoException | guardException | guardOverflow | guardNoOverflow
  | guardNotForced | guardNotForced2 | guardNotInvalidated | guardFutureCondition => true
  | _ => false

def isFinal : OpCode → Bool
  | jump | finish => true
  | _ => false

/-- Pure operations on integers whose result is known once their arguments are. -/
def isFoldable : OpCode → Bool
  | intAdd | intSub | intMul | intAnd | intOr | intXor | intLshift | intRshift | intNeg
  | intIsTrue | intLt | intLe | intEq | intNe | intGt | intGe => true
  | _ => false

theorem mem_all (op : OpCode) : op ∈ all := by
  cases op <;> decide

theorem not_isGuard_of_isFinal {op : OpCode} (h : op.isFinal) : op.isGuard = false := by
  revert h; cases op <;> decide

theorem not_isFinal_of_isFoldable {op : OpCode} (h : op.isFoldable) : op.isFinal = false := by
  revert h; cases op <;> decide

end OpCode

end HotLoop
