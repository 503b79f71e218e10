import HotLoop.Context
import HotLoop.Replay.File

/-!
# Recording named operations

A recorder turns operations over names into operations over numbered variables. A name can be bound
again by a later result. Every guard gets a descriptor that knows its resume position.
-/

namespace HotLoop

/-- What can be wrong with the operations of a trace file. -/
inductive RecordError where
  | undefinedValue (index : Nat) (name : String)
  | notInBody (index : Nat) (op : OpCode)
  | unknownKind (index : Nat) (name : String)
  | bridgeEnd (index : Nat) (guard : String)
  | callbackReds (index : Nat) (redArgs : Nat)
  deriving DecidableEq, Repr, Inhabited

def RecordError.message : RecordError → String
  | undefinedValue index name => s!"operation {index} uses undefined value `{name}`"
  | notInBody index op => s!"operation {index}: `{op.name}` cannot appear inside a trace body"
  | unknownKind index name => s!"operation {index}: cannot tell the type of `{name}`"
  | bridgeEnd index guard =>
    s!"operation {index}: bridge from `{guard}` needs exactly one of jump or finish"
  | callbackReds index n => s!"operation {index}: callback needs {n} red arguments"

inductive RecordStop where
  | error (error : RecordError)
  | fault (fault : Fault)
  deriving Inhabited

structure Recorder where
  history : History := {}
  names : Table String Var := .empty
  guards : GuardTable
  deriving Repr, Inhabited

abbrev RecordM := ExceptT RecordStop (StateM Recorder)

namespace Recorder

open Replay

def ofFault {α : Type} : Except Fault α → RecordM α
  | .ok a => return a
  | .error f => throw (.fault f)

def letName (name : String) (v : Var) : RecordM Unit :=
  modify fun r => { r with names := r.names.insert name v }

def input (name : String) (value : Value) : RecordM Unit := do
  let (v, history) ← ofFault ((← get).history.addInput value)
  modify fun r => { r with history }
  letName name v

def inputs (specs : List InputSpec) : RecordM Unit := specs.forM fun i => input i.name i.value

/-- The variable that a name stands for, in the operation at an index. -/
def var (index : Nat) (name : String) : RecordM Var := do
  match (← get).names.get? name with
  | some v => return v
  | none => throw (.error (.undefinedValue index name))

def arg (index : Nat) : ArgSpec → RecordM Arg
  | .const value => return .const value
  | .name name => do return .var (← var index name)

def args (index : Nat) (specs : List ArgSpec) : RecordM (List Arg) := specs.mapM (arg index)

def kindOfName? (name : String) : Option Kind :=
  match name.toList with
  | 'i' :: _ => some .int
  | 'p' :: _ => some .ref
  | 'f' :: _ => some .float
  | _ => none

/-- The operation with a new descriptor and its fail arguments, if it is a guard. -/
def asGuard (driver : Driver) (positions : Table String Nat) (index : Nat) (spec : OpSpec)
    (op : Operation) : RecordM Operation := do
  if !spec.op.isGuard then return op
  let data : ResumeData := match spec.guard with
    | some label => .atPosition ((positions.get? label).getD 0)
    | none => {}
  let (g, guards) ← ofFault ((← get).guards.invent driver.id spec.op data)
  modify fun r => { r with guards }
  let slots ← spec.failArgs.mapM fun name => some <$> var index name
  return { op with descr := some (.guard g), failArgs := some slots }

/-- The operation with a fresh result, to which its name is bound. -/
def withResult (index : Nat) (spec : OpSpec) (op : Operation) : RecordM Operation := do
  let some name := spec.result | return op
  let some kind := kindOfName? name | throw (.error (.unknownKind index name))
  let (v, values) ← ofFault ((← get).history.values.fresh kind)
  modify fun r => { r with history := { r.history with values } }
  letName name v
  return { op with result := some v }

def op (driver : Driver) (positions : Table String Nat) (index : Nat) (spec : OpSpec) :
    RecordM Unit := do
  if spec.op.isFinal || spec.op == .label then
    throw (.error (.notInBody index spec.op))
  let op : Operation := { opcode := spec.op, args := ← args index spec.args }
  let op ← asGuard driver positions index spec op
  let op := match spec.quasi with
    | some field => { op with descr := some (.quasiImmut field) }
    | none => op
  let op ← withResult index spec op
  let history ← ofFault ((← get).history.recordOp op)
  modify fun r => { r with history }

def ops (driver : Driver) (positions : Table String Nat) (specs : List OpSpec) : RecordM Unit :=
  specs.zipIdx.forM fun (spec, index) => op driver positions index spec

/-- Records the operation that closes the history. -/
def close (closing : Operation) : RecordM Unit := do
  let history ← ofFault ((← get).history.recordOp closing)
  modify fun r => { r with history }

end Recorder

end HotLoop
