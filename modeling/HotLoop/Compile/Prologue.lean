import HotLoop.Driver
import HotLoop.Trace

/-!
# Loading virtualizable fields

The tracer passes the fields of a frame object to a loop as further inputs behind the red
arguments: one for every static field, then one for every item of every array. A submitted loop
takes the red arguments alone and starts by loading the rest from the object.
-/

namespace HotLoop

/-- A prologue in the making: the loads so far and the inputs that still have to be loaded. -/
structure Prologue where
  values : ValueIds
  forwarding : Forwarding
  operations : List Operation := []
  pending : List Var
  deriving Repr, Inhabited

namespace Prologue

def load (p : Prologue) (opcode : OpCode) (args : List Arg) (kind : Kind) (descr : Descr) :
    Except Fault (Var × Prologue) := do
  let (v, values) ← p.values.fresh kind
  let op : Operation := { opcode, args, result := some v, descr := some descr }
  return (v, { p with values, operations := emit p.operations p.forwarding op })

def loadNext (p : Prologue) (opcode : OpCode) (args : List Arg) (descr : Descr) :
    Except Fault Prologue :=
  match p.pending with
  | [] => .error .virtualizableShape
  | v :: pending => do
    let (loaded, p) ← p.load opcode args v.kind descr
    return { p with pending, forwarding := p.forwarding.forward v (.var loaded) }

def loadArray (object : Var) (arrayLength : Nat → Nat) (itemArrays : List ArrayDescr)
    (p : Prologue) (field : FieldDescr × Nat) : Except Fault Prologue := do
  let (array, p) ← p.load .getfieldGc [.var object] .ref (.field field.1)
  let some items := itemArrays[field.2]? | throw .virtualizableShape
  if p.pending.length < arrayLength field.2 then throw .virtualizableShape
  (List.range (arrayLength field.2)).foldlM
    (fun p i => p.loadNext .getarrayitemGc [.var array, .int (Int64.ofNat i)] (.array items)) p

end Prologue

/--
The trace with a prologue that loads the virtualizable fields, where `address` is the object that
was met when the trace was recorded. The inputs have to match the fields of the driver.
-/
def Trace.loadVirtualizable (t : Trace) (driver : Driver) (address : UInt64) :
    Except Fault Trace := do
  let some fields := driver.virtualizable | return t
  let some object := t.inputs[driver.virtualizableIndex]? | throw .virtualizableShape
  if t.inputs.length < driver.redArgs then throw .virtualizableShape
  let p : Prologue :=
    { values := t.values, forwarding := t.forwarding, pending := t.inputs.drop driver.redArgs }
  let p ← fields.staticFields.foldlM
    (fun p field => p.loadNext .getfieldGc [.var object] (.field field)) p
  let p ← fields.arrayFields.zipIdx.foldlM
    (Prologue.loadArray object (fields.arrayLength address) fields.itemArrays) p
  if p.pending ≠ [] then throw .virtualizableShape
  let patched := { t with
    inputs := t.inputs.take driver.redArgs
    operations := t.operations.foldl (emit · p.forwarding ·) p.operations
    values := p.values
    forwarding := p.forwarding }
  return patched.forgetForwarding

end HotLoop
