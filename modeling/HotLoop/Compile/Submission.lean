import HotLoop.Compile.Prologue
import HotLoop.Context

/-!
# Submitting code

A finished trace is submitted to the backend as a loop or as a bridge, and then recorded: its
guards learn which unit they are in, jumps to other units are noted, and so is what the unit relies
on. Both the context and the trace change on the way, also where the submission fails.
-/

namespace HotLoop

/-- A part of a state that a computation works on. -/
def JitM.zoom {σ τ α : Type} (view : σ → τ) (put : τ → σ → σ) (x : JitM τ α) : JitM σ α :=
  fun s => let (result, t) := x (view s); (result, put t s)

/-- Changes the state if the computation ends in an error. A fault leaves it alone. -/
def JitM.onError {σ α : Type} (x : JitM σ α) (change : σ → σ) : JitM σ α :=
  tryCatch x fun
    | .error e => do modify change; throw (.error e)
    | .fault f => throw (.fault f)

/-- Changes the state however the computation ends. -/
def JitM.finally {σ α : Type} (x : JitM σ α) (change : σ → σ) : JitM σ α :=
  fun s => let (result, s) := x s; (result, change s)

/-- A computation that cannot stop for an error but by a fault. -/
def JitM.ofFault {σ α : Type} : Except Fault α → JitM σ α
  | .ok a => return a
  | .error f => throw (.fault f)

def JitM.ofError {σ α : Type} : Except JitError α → JitM σ α
  | .ok a => return a
  | .error e => throw (.error e)

structure Submission where
  context : Context
  trace : Trace
  deriving Inhabited

namespace Submission

def modifyContext (f : Context → Context) : JitM Submission Unit :=
  modify fun s => { s with context := f s.context }

def modifyTrace (f : Trace → Trace) : JitM Submission Unit :=
  modify fun s => { s with trace := f s.trace }

/-- Points the entry point of every label at the unit of the trace. -/
def propagate (s : Submission) : Submission :=
  let entries := s.trace.operations.foldl (fun t op =>
    match op.opcode, op.descr with
    | .label, some (.target e) => t.setHome e s.trace.home
    | _, _ => t) s.context.entries
  { s with context := { s.context with entries } }

/-- The result of a backend call, whose state change is kept in any case. -/
def callBackend {α : Type} (call : Backend → Except JitError α × Backend) :
    JitM Submission α := do
  let s ← get
  let (result, backend) := call s.context.backend
  set { s with context := { s.context with backend } }
  JitM.ofError result

/-- The object with the virtualizable fields among the recorded inputs. -/
def virtualizableAddress (driver : Driver) (inputs : List InputArg) : UInt64 :=
  ((inputs[driver.virtualizableIndex]?).bind fun a => a.value.ref?).getD 0

def loopName (driver : Driver) : Option GreenKey → String
  | some key => s!"{driver.name} {key.text}"
  | none => driver.name

/--
Submits the trace as a loop of the unit it is attached to: makes pending replacements, loads
virtualizable fields, numbers the unit, checks the code, and keeps the unit alive.
-/
def sendLoop (key : Option GreenKey) (driver : Driver) (kind : String)
    (inputs : List InputArg) : JitM Submission Unit := do
  modifyTrace (·.forgetForwarding)
  let trace ← JitM.ofFault
    ((← get).trace.loadVirtualizable driver (virtualizableAddress driver inputs))
  modifyTrace fun _ => trace
  let some unit := trace.home.filter (← get).context.registry.isAlive
    | throw (.error .missingHomeUnit)
  let (number, context) := (← get).context.takeNumber
  let context := context.modifyUnit unit fun u => { u with number := some number }
  let trace := { trace with number := some number }
  set { context, trace : Submission }
  if let .error e := trace.check then
    throw (.fault (.inconsistent s!"{kind} {trace.name}" e))
  let code ← callBackend fun b =>
    b.compileLoop driver.id unit (loopName driver key) trace.inputs trace.operations
  modifyContext fun c =>
    ((c.modifyUnit unit fun u => { u with code := some code }).modifyStats
      (·.addLoop trace.name)).keepAlive unit

/-- Submits the trace as a bridge that leaves `guard` in the code of `home`. -/
def sendBridge (guard : Guard) (home : UnitHandle) : JitM Submission Unit := do
  modifyTrace (·.forgetForwarding)
  let trace := (← get).trace
  if let .error e := trace.checkAsBranch then
    throw (.fault (.inconsistent s!"bridge {trace.name}" e))
  let _ ← callBackend fun b => b.compileBridge guard home trace.inputs trace.operations
  modifyContext (·.modifyStats fun s => { s with bridgesCompiled := s.bridgesCompiled + 1 })

/-- What an operation in the code of `home` leaves behind in the context. -/
def recordOperation (home : UnitHandle) (c : Context) (op : Operation) : Context :=
  match op.descr with
  | some (.guard g) =>
    { c with guards := c.guards.modify g fun r => { r with loop := some home } }
  | some (.cell target) =>
    if target = home then c
    else { c with registry := c.registry.recordJump home target }
  | some (.target e) =>
    match c.entries.home? e with
    | some owner =>
      if owner = home then c
      else { c with registry := c.registry.recordJump home owner }
    | none => c
  | _ => c

/-- The operation without a descriptor of a jump, which has been recorded. -/
def detachOperation (op : Operation) : Operation :=
  match op.descr with
  | some (.cell _) | some (.target _) => { op with descr := none }
  | _ => op

/-- Records submitted code with its unit and detaches the trace from the unit. -/
def record : JitM Submission Unit := do
  let s ← get
  let some home := s.trace.home | throw (.fault .neverAttached)
  let context := s.trace.operations.foldl (recordOperation home) s.context
  let quasiImmut := s.trace.deps.foldl (·.depend · home) context.quasiImmut
  let trace := { s.trace with
    home := none
    operations := s.trace.operations.map detachOperation
    number := (context.registry.get? home).bind (·.number) }
  set { context := { context with quasiImmut }, trace : Submission }

end Submission

end HotLoop
