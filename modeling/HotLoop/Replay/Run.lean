import HotLoop.Compile.Callback
import HotLoop.Compile.Loop
import HotLoop.Replay.Interpreter

/-!
# Replaying a trace file

Compiles the loop of a file, and again without unrolling if that gives nothing; then come the
entries from the interpreter, the failures, the writes to quasi-immutable fields, the temporary
callbacks and the generations, in this order. The report says how the failures went on and what
has been compiled.
-/

namespace HotLoop

/-- Why a replay gives no report. -/
inductive RunError where
  | record (error : RecordError)
  | unknownOptimization (name : String)
  | jit (error : JitError)
  | loopNotCompiled
  | unknownGuard (label : String)
  deriving DecidableEq, Repr, Inhabited

def RunError.message : RunError → String
  | record e => e.message
  | unknownOptimization name => s!"unknown optimization `{name}`"
  | jit e => e.message
  | loopNotCompiled => "the loop could not be compiled"
  | unknownGuard label => s!"no compiled guard labelled `{label}`"

/-- The ways in which a replay ends early. -/
inductive RunStop where
  | error (error : RunError)
  | fault (fault : Fault)
  deriving Inhabited

structure Report where
  stats : Stats
  exits : List FrameExit
  bridgeRuns : Nat
  invalidated : Nat
  liveUnits : Nat
  dump : List String
  deriving Repr, Inhabited

structure Run where
  context : Context
  interpreter : Replayer := {}
  /-- How the failures went on, the last one first. -/
  exits : List FrameExit := []
  bridgeRuns : Nat := 0
  invalidated : Nat := 0
  deriving Inhabited

abbrev RunM := ExceptT RunStop (StateM Run)

namespace Run

open Replay

def failing {α : Type} (e : RunError) : RunM α := throw (.error e)

/-- Runs a part of the replay on the context and the interpreter. -/
def replaying {α : Type} (x : ReplayM α) : RunM α := do
  let run ← get
  let (result, context, interpreter) := x (run.context, run.interpreter)
  set { run with context, interpreter }
  match result with
  | .ok a => return a
  | .error (.error e) => failing (.jit e)
  | .error (.fault f) => throw (.fault f)

def ofRecord {α : Type} : Except RecordError α → RunM α
  | .ok a => return a
  | .error e => failing (.record e)

/-- Records the loop of the file. The answer is its history with the arguments of its jump. -/
def recordLoop (file : TraceFile) (driver : Driver) : RecordM (List Arg) := do
  Recorder.inputs file.inputs
  Recorder.ops driver file.guardPositions file.body
  Recorder.args file.body.length file.jump

/-- Compiles the loop, without unrolling if it cannot be unrolled. -/
def compileLoop (key : GreenKey) (jumpArgs : List Arg) : CompileM (Option EntryPoint) := do
  let inputs := (← get).session.history.inputs
  match ← Workbench.compileLoop key 0 inputs jumpArgs false with
  | some entry => return some entry
  | none => Workbench.compileLoop key 0 inputs jumpArgs true

/-- Records and compiles the loop of the file. The answer is its unit. -/
def loop (file : TraceFile) (driver : Driver) : RunM UnitHandle := do
  let (result, r) ← replaying <| Replayer.recording (·.1) (fun c s => (c, s.2))
    { guards := {} } (recordLoop file driver)
  let jumpArgs ← ofRecord result
  let entry ← replaying <| Replayer.inSession { driver, history := r.history }
    (compileLoop (Replayer.key file) jumpArgs)
  match entry with
  | some entry => return entry.owner
  | none => failing .loopNotCompiled

/--
The guard at a resume position: the last in the latest code of the loop's unit, or else the first
of the latest bridge that has one.
-/
def findGuard? (c : Context) (unit : UnitHandle) (position : Nat) : Option Guard :=
  let here (g : Guard) := (c.guards.get g).data.position == position
  ((c.backend.guardsOf unit).reverse.find? here).or
    ((c.backend.bridges.reverse.flatMap fun b => guardsIn b.operations).find? here)

/-- One failure of a guard. Where a bridge is attached it runs, and nothing fails. -/
def failOnce (file : TraceFile) (driver : Driver) (unit : UnitHandle) (failure : FailureSpec)
    (position : Nat) : RunM Unit := do
  let run ← get
  let some g := findGuard? run.context unit position | failing (.unknownGuard failure.guard)
  if 0 < (run.context.guards.get g).bridges then
    if run.bridgeRuns + 1 < UInt64.size then set { run with bridgeRuns := run.bridgeRuns + 1 }
    else throw (.fault .tooManyBridgeRuns)
  else
    let exit ← replaying <| (Replayer.hooks file).handleFail driver
      { descr := .guard g, values := failure.values }
    modify fun run => { run with exits := exit :: run.exits }

/-- A part of the replay a number of times. -/
def repeatedly (x : RunM Unit) : Nat → RunM Unit
  | 0 => return ()
  | n + 1 => do
    x
    repeatedly x n

def failures (file : TraceFile) (driver : Driver) (unit : UnitHandle) (failure : FailureSpec) :
    RunM Unit := do
  let some position := file.guardPositions.get? failure.guard
    | failing (.unknownGuard failure.guard)
  repeatedly (failOnce file driver unit failure position) failure.times

/-- A write to a quasi-immutable field. -/
def invalidate (field : Nat) : RunM Unit :=
  modify fun run =>
    let (count, context) := run.context.invalidate field
    { run with context, invalidated := run.invalidated + count }

def callback (driver : Driver) (index : Nat) (spec : CallbackSpec) : RunM Unit := do
  if spec.reds.length ≠ driver.redArgs then
    failing (.record (.callbackReds index driver.redArgs))
  let _ ← replaying <| JitM.zoom (·.1) (fun c s => (c, s.2))
    (Context.compileCallback driver (spec.greens.map .int) spec.reds)

def nextGeneration : RunM Unit := do
  let run ← get
  if run.context.collector.hasNext then set { run with context := run.context.nextGeneration.2 }
  else throw (.fault .tooManyGenerations)

def dump (b : Backend) : List String :=
  (b.loops.flatMap fun l =>
    s!"# {l.name} (Loop{l.unit.index})" :: codeLines l.inputs l.operations) ++
  b.bridges.flatMap fun l =>
    s!"# bridge from {l.guard.opcode.name} of Loop{l.home.index}" ::
      codeLines l.inputs l.operations

def file (file : TraceFile) (driver : Driver) : RunM Unit := do
  let unit ← loop file driver
  file.entryBridges.forM fun spec => do
    let _ ← ofRecord (← replaying (Replayer.entryBridge file driver spec))
  file.failures.forM (failures file driver unit)
  file.invalidate.forM invalidate
  file.callbacks.zipIdx.forM fun (spec, index) => callback driver index spec
  repeatedly nextGeneration file.generations

def report (run : Run) : Report where
  stats := run.context.stats
  exits := run.exits.reverse
  bridgeRuns := run.bridgeRuns
  invalidated := run.invalidated
  liveUnits := run.context.registry.size
  dump := dump run.context.backend

end Run

namespace TraceFile

def jitDriver (file : TraceFile) : Driver :=
  { id := 0, name := file.driver.name, redArgs := file.driver.redArgs,
    resultKind := file.driver.result }

/-- Replays a file in a fresh context. -/
def run (file : TraceFile) (config : Config) (addresses : Nat → UInt64 := Guard.inOrder) :
    Except RunStop Report :=
  match config.opts with
  | .error name => .error (.error (.unknownOptimization name))
  | .ok opts =>
    let driver := file.jitDriver
    let context := (Context.ofConfig config addresses).setWarm driver
      { opts, eagerness := config.traceEagerness }
    match Run.file file driver { context } with
    | (.ok (), run) => .ok run.report
    | (.error e, _) => .error e

end TraceFile

end HotLoop
