import HotLoop.Json.Decode
import HotLoop.Json.Reader
import HotLoop.Operation.Basic
import HotLoop.Table

/-!
# Trace files

A trace file holds a recorded loop and the events to be replayed against it: failures of its
guards, the bridges traced then, entries from the interpreter, writes to quasi-immutable fields.
Values are called by names whose first letter gives the kind; constants stand for themselves.
-/

namespace HotLoop

namespace Replay

structure DriverSpec where
  name : String
  redArgs : Nat := 1
  result : Kind := .int
  deriving DecidableEq, Repr, Inhabited

structure InputSpec where
  name : String
  value : Value
  deriving DecidableEq, Repr, Inhabited

inductive ArgSpec where
  | const (value : Value)
  | name (name : String)
  deriving DecidableEq, Repr, Inhabited

structure OpSpec where
  op : OpCode
  result : Option String := none
  args : List ArgSpec := []
  failArgs : List String := []
  /-- The label by which failures and bridges refer to a guard. -/
  guard : Option String := none
  quasi : Option Nat := none
  deriving DecidableEq, Repr, Inhabited

/-- A bridge, to be traced when its guard gets hot. -/
structure BridgeSpec where
  guard : String
  inputs : List String
  ops : List OpSpec := []
  jump : Option (List ArgSpec) := none
  finish : Option (List ArgSpec) := none
  deriving DecidableEq, Repr, Inhabited

/-- A trace that enters the loop from the interpreter at another key. -/
structure EntrySpec where
  greens : List Int64
  inputs : List InputSpec
  ops : List OpSpec := []
  jump : List ArgSpec
  deriving DecidableEq, Repr, Inhabited

/-- A guard that fails a number of times. -/
structure FailureSpec where
  guard : String
  values : List Value
  times : Nat := 1
  deriving DecidableEq, Repr, Inhabited

structure CallbackSpec where
  greens : List Int64
  reds : List Kind
  deriving DecidableEq, Repr, Inhabited

end Replay

open Replay in
/-- A recorded loop and what is replayed against it. -/
structure TraceFile where
  driver : DriverSpec
  greens : List Int64 := []
  inputs : List InputSpec
  body : List OpSpec
  jump : List ArgSpec
  bridges : List BridgeSpec := []
  entryBridges : List EntrySpec := []
  failures : List FailureSpec := []
  /-- The quasi-immutable fields written after the failures. -/
  invalidate : List Nat := []
  callbacks : List CallbackSpec := []
  generations : Nat := 0
  deriving DecidableEq, Repr, Inhabited

namespace Replay

open Json

/-- A reference, as an object with other members ignored. -/
def decodeRef? : Json → Option Value
  | .object members =>
    match members.filter (·.1 == "ref") with
    | [(_, a)] => (nat64? a).map fun a => .ref (UInt64.ofNat a)
    | _ => none
  | _ => none

/-- A value: an integer if it is one of 64 bits, else a float, else a reference. -/
def decodeValue? (j : Json) : Option Value :=
  match int64? j, float? j with
  | some n, _ => some (.int n)
  | none, some bits => some (.float bits)
  | none, none => decodeRef? j

def decodeArg? : Json → Option ArgSpec
  | .string s => some (.name s)
  | j => (decodeValue? j).map .const

def decodeKind? : Json → Option Kind := choice? Kind.ofName?

def decodeDriver? (j : Json) : Option DriverSpec := do
  match ← record? ["name", "red_args", "result"] j with
  | [name, redArgs, result] =>
    some {
      name := ← required? string? name
      redArgs := ← withDefault? 1 nat64? redArgs
      result := ← withDefault? .int decodeKind? result }
  | _ => none

def decodeInput? (j : Json) : Option InputSpec := do
  match ← record? ["name", "value"] j with
  | [name, value] =>
    some { name := ← required? string? name, value := ← required? decodeValue? value }
  | _ => none

def decodeOp? (j : Json) : Option OpSpec := do
  match ← record? ["result", "op", "args", "fail_args", "guard", "quasi"] j with
  | [result, op, args, failArgs, guard, quasi] =>
    some {
      result := ← withDefault? none (nullable? string?) result
      op := ← required? (choice? OpCode.ofKeyword?) op
      args := ← withDefault? [] (list? decodeArg?) args
      failArgs := ← withDefault? [] (list? string?) failArgs
      guard := ← withDefault? none (nullable? string?) guard
      quasi := ← withDefault? none (nullable? nat32?) quasi }
  | _ => none

def decodeBridge? (j : Json) : Option BridgeSpec := do
  match ← record? ["guard", "inputs", "ops", "jump", "finish"] j with
  | [guard, inputs, ops, jump, finish] =>
    some {
      guard := ← required? string? guard
      inputs := ← required? (list? string?) inputs
      ops := ← withDefault? [] (list? decodeOp?) ops
      jump := ← withDefault? none (nullable? (list? decodeArg?)) jump
      finish := ← withDefault? none (nullable? (list? decodeArg?)) finish }
  | _ => none

def decodeEntry? (j : Json) : Option EntrySpec := do
  match ← record? ["greenkey", "inputs", "ops", "jump"] j with
  | [greens, inputs, ops, jump] =>
    some {
      greens := ← required? (list? int64?) greens
      inputs := ← required? (list? decodeInput?) inputs
      ops := ← withDefault? [] (list? decodeOp?) ops
      jump := ← required? (list? decodeArg?) jump }
  | _ => none

def decodeFailure? (j : Json) : Option FailureSpec := do
  match ← record? ["guard", "values", "times"] j with
  | [guard, values, times] =>
    some {
      guard := ← required? string? guard
      values := ← required? (list? decodeValue?) values
      times := ← withDefault? 1 nat32? times }
  | _ => none

def decodeCallback? (j : Json) : Option CallbackSpec := do
  match ← record? ["greens", "reds"] j with
  | [greens, reds] =>
    some {
      greens := ← required? (list? int64?) greens
      reds := ← required? (list? decodeKind?) reds }
  | _ => none

end Replay

namespace TraceFile

open Json Replay

def fieldNames : List String :=
  ["driver", "greenkey", "inputs", "loop", "jump", "bridges", "entry_bridges", "failures",
    "invalidate", "tmp_callbacks", "generations"]

def decode? (j : Json) : Option TraceFile := do
  match ← record? fieldNames j with
  | [driver, greens, inputs, body, jump, bridges, entryBridges, failures, invalidate, callbacks,
      generations] =>
    some {
      driver := ← required? decodeDriver? driver
      greens := ← withDefault? [] (list? int64?) greens
      inputs := ← required? (list? decodeInput?) inputs
      body := ← required? (list? decodeOp?) body
      jump := ← required? (list? decodeArg?) jump
      bridges := ← withDefault? [] (list? decodeBridge?) bridges
      entryBridges := ← withDefault? [] (list? decodeEntry?) entryBridges
      failures := ← withDefault? [] (list? decodeFailure?) failures
      invalidate := ← withDefault? [] (list? nat32?) invalidate
      callbacks := ← withDefault? [] (list? decodeCallback?) callbacks
      generations := ← withDefault? 0 nat64? generations }
  | _ => none

def parse? (text : String) : Option TraceFile := (Json.parse? text).bind decode?

/-- The resume position of every labelled guard: those of the loop come first, then the bridges'. -/
def guardPositions (file : TraceFile) : Table String Nat :=
  let ops := file.body ++ file.bridges.flatMap (·.ops)
  .ofList (ops.zipIdx.filterMap fun (op, position) => op.guard.map (·, position))

end TraceFile

end HotLoop
