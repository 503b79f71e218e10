import HotLoop.Compile.Bridge
import HotLoop.Failure
import HotLoop.Replay.Recorder

/-!
# The scripted interpreter

Stands in for the interpreter when a trace file is replayed. Where tracing from a guard is asked
for it records the bridge that the file gives for the guard, and one more iteration of the loop if
the bridge finds no entry point. Blackholing reads the frame from the resume data.
-/

namespace HotLoop

/-- The changing part of the scripted interpreter. -/
structure Replayer where
  heap : Arena := {}
  traced : Nat := 0
  blackholed : Nat := 0
  deriving Repr, Inhabited

abbrev ReplayM := JitM (Context × Replayer)

namespace Replayer

open Replay

/-- Runs a recorder on the guards of a context. What it has recorded is kept in any case. -/
def recording {σ α : Type} (view : σ → Context) (put : Context → σ → σ) (start : Recorder)
    (x : RecordM α) : JitM σ (Except RecordError α × Recorder) := do
  let c := view (← get)
  let (result, r) := x { start with guards := c.guards }
  modify (put { c with guards := r.guards })
  match result with
  | .ok a => return (.ok a, r)
  | .error (.error e) => return (.error e, r)
  | .error (.fault f) => throw (.fault f)

/-- The bridge that the file gives for a resume position. -/
def bridgeAt? (file : TraceFile) (position : Nat) : Option BridgeSpec :=
  let positions := file.guardPositions
  file.bridges.find? fun b => positions.get? b.guard == some position

def key (file : TraceFile) : GreenKey := ⟨file.greens⟩

/-- The operation that closes a bridge; there is none if it leads to a loop that does not exist. -/
def bridgeEnd (driver : Driver) (unit : Option UnitHandle) (bridge : BridgeSpec) :
    RecordM (Option Operation) := do
  let index := bridge.ops.length
  match bridge.jump, bridge.finish with
  | some jump, none =>
    match unit with
    | some unit => return some (.jump (← Recorder.args index jump) (.cell unit))
    | none => return none
  | none, some finish =>
    let op : Operation := {
      opcode := .finish
      args := ← Recorder.args index finish
      descr := some (.final driver.doneDescr) }
    return some op
  | _, _ => throw (.error (.bridgeEnd index bridge.guard))

def recordBridge (file : TraceFile) (driver : Driver) (unit : Option UnitHandle)
    (bridge : BridgeSpec) (frame : DeadFrame) : RecordM (Option History) := do
  (bridge.inputs.zip frame.values).forM fun (name, value) => Recorder.input name value
  Recorder.ops driver file.guardPositions bridge.ops
  match ← bridgeEnd driver unit bridge with
  | some closing =>
    Recorder.close closing
    return some (← get).history
  | none => return none

/-- Records the loop once more, its inputs being the arguments of the bridge's jump. -/
def recordAgain (file : TraceFile) (driver : Driver) (inputs : List Var) : RecordM (List Arg) := do
  (file.inputs.zip inputs).forM fun (input, v) => Recorder.letName input.name v
  Recorder.ops driver file.guardPositions file.body
  Recorder.args file.body.length file.jump

/--
Traces one more iteration of the loop behind a bridge that found no entry point, and compiles the
two together. A bridge that jumps with constants, or a loop that cannot be recorded again, is given
up.
-/
def retrace (file : TraceFile) (resumeKey : ResumeKey) : CompileM Unit := do
  let session := (← get).session
  let some jump := session.history.operations.getLast? | return ()
  match jump.args.mapM Arg.var? with
  | none =>
    let _ ← Workbench.takeWaiting
  | some inputs =>
    let start := session.history.operations.length
    let (result, r) ← recording (·.context) (fun c w => { w with context := c })
      { history := session.history, guards := {} } (recordAgain file session.driver inputs)
    Workbench.modifySession fun s => { s with history := r.history }
    match result with
    | .ok jumpArgs =>
      let _ ← Workbench.compileRetrace (key file) start inputs jumpArgs resumeKey
    | .error _ =>
      let _ ← Workbench.takeWaiting

def compileBridge (file : TraceFile) (resumeKey : ResumeKey) : CompileM Unit := do
  let compiled ← Workbench.compileTrace resumeKey
  if compiled.isNone && (← get).session.waiting.isSome then
    retrace file resumeKey

/-- Runs a session in a context and drops it afterwards. -/
def inSession {ω α : Type} (session : Session) (x : CompileM α) : JitM (Context × ω) α :=
  JitM.zoom (fun s => ⟨s.1, session⟩) (fun w s => (w.context, s.2)) x

/-- Goes on from the resume data of a guard. -/
def blackhole (g : Guard) (frame : DeadFrame) (cache : Option VirtualCache) :
    ReplayM FrameExit := do
  let (c, r) ← get
  let data := (c.guards.get g).data
  let reader := Reader.start data r.heap
  let reader := match cache with
    | some cache => reader.withCache cache
    | none => reader
  let (values, reader) := reader.readFrame data frame.values
  let reader := reader.applyPending data frame.values
  set (c, { r with heap := reader.heap, blackholed := r.blackholed + 1 })
  return .continueWith values

/--
Goes on from a guard while recording the bridge that the file gives for it. If there is none, or it
cannot be recorded, the frame is blackholed.
-/
def trace (file : TraceFile) (driver : Driver) (g : Guard) (frame : DeadFrame) :
    ReplayM FrameExit := do
  let (c, _) ← get
  let record := c.guards.get g
  let some bridge := bridgeAt? file record.data.position | blackhole g frame none
  let (result, _) ← recording (·.1) (fun c s => (c, s.2)) { guards := {} }
    (recordBridge file driver (c.procedure? driver (key file)) bridge frame)
  match result with
  | .ok (some history) =>
    modify fun (c, r) => (c, { r with traced := r.traced + 1 })
    inSession { driver, history, home := record.loop } (compileBridge file (.guard g))
    return .continueWith frame.values
  | _ => blackhole g frame none

/-- The scripted interpreter as the one behind failing guards. -/
def hooks (file : TraceFile) : Hooks Replayer where
  trace := trace file
  blackhole _ := blackhole

/-- Records a trace that enters the loop from the interpreter. -/
def recordEntry (file : TraceFile) (driver : Driver) (unit : UnitHandle) (spec : EntrySpec) :
    RecordM History := do
  Recorder.inputs spec.inputs
  Recorder.ops driver file.guardPositions spec.ops
  Recorder.close (.jump (← Recorder.args spec.ops.length spec.jump) (.cell unit))
  return (← get).history

/--
Compiles a trace that enters the loop from the interpreter. The answer is the procedure of its key
afterwards, if there is one.
-/
def entryBridge (file : TraceFile) (driver : Driver) (spec : EntrySpec) :
    ReplayM (Except RecordError (Option UnitHandle)) := do
  let (c, _) ← get
  let some unit := c.procedure? driver (key file) | return .ok none
  let (result, _) ← recording (·.1) (fun c s => (c, s.2)) { guards := {} }
    (recordEntry file driver unit spec)
  match result with
  | .error e => return .error e
  | .ok history =>
    let _ ← inSession { driver, history } (Workbench.compileTrace (.interpreter ⟨spec.greens⟩))
    return .ok ((← get).1.procedure? driver ⟨spec.greens⟩)

end Replayer

end HotLoop
