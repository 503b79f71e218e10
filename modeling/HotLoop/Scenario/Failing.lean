import HotLoop.Failure
import HotLoop.Force
import HotLoop.Scenario.Compiling

/-!
# Steps that fail

Failing frames, with hooks that follow a script and keep a log, or with the interpreter of a trace
file; and frames that are forced.
-/

namespace HotLoop.Scenario

open Json (nat str opt list strs)

/-- The world without its context, and the log of the hooks. -/
structure Logged where
  world : World
  calls : Array Json := #[]

def logCall (t : Json) : JitM (Context × Logged) Unit :=
  modify fun (c, l) => (c, { l with calls := l.calls.push t })

def inWorld {α : Type} (x : Step α) : JitM (Context × Logged) (Except Refusal α) := fun (c, l) =>
  let (r, w) := x { l.world with context := c }
  (.ok r, (w.context, { l with world := w }))

def hookBridge (script : Json) (driver : Driver) (g : Guard) :
    JitM (Context × Logged) Unit := do
  let work : Step (Option Descr × Bool) := do
    let b ← field script "bridge"
    let history ← recorded (← readInputs b "inputs") (← readOperations b "ops")
    let session : Session := {
      driver, history, home := ((← context).guards.get g).loop }
    let number := (← get).sessions.length
    let descr ← compiling session push (Workbench.compileTrace (.guard g))
    return (descr, ((← get).sessions[number]?.bind (·.waiting)).isSome)
  match ← inWorld work with
  | .ok (descr, waiting) =>
    logCall (.object [("compiled", opt (fun d => str d.text) descr), ("partial", .bool waiting)])
  | .error (.stop (.error e)) =>
    logCall (str "compile error")
    throw (.error e)
  | .error (.stop e) => throw e
  | .error (.input _) => throw (.fault .interpreterFailed)

/-- Finishes a frame by reading it back from its resume data. -/
def blackholeHook (g : Guard) (frame : DeadFrame) (cache : Option VirtualCache) :
    JitM (Context × Logged) FrameExit := do
  let (c, l) ← get
  let r := c.guards.get g
  logCall (.object [("hook", str "blackhole"), ("busy", .bool r.busy),
    ("virtuals", opt (list (opt fun a => nat a.toNat)) cache)])
  let reader := Reader.start r.data l.world.heap
  let reader := match cache with
    | some cache => reader.withCache cache
    | none => reader
  let (values, reader) := reader.readFrame r.data frame.values
  modify fun (c, l) => (c, { l with world := { l.world with heap := reader.heap } })
  return .continueWith values

/-- Hooks by a script; `again` is what happens when tracing enters its guard once more. -/
def scriptHooksWith (script : Json) (hook : String)
    (again : Driver → Guard → DeadFrame → JitM (Context × Logged) FrameExit) : Hooks Logged where
  trace driver g frame := do
    let r := (← get).1.guards.get g
    logCall (.object [("hook", str "trace"), ("busy", .bool r.busy), ("attempts", nat r.attempts)])
    match hook with
    | "error" => throw (.error .switchToBlackhole)
    | "panic" => throw (.fault .interpreterFailed)
    | "reenter" => again driver g frame
    | "bridge" =>
      hookBridge script driver g
      return .continueWith frame.values
    | _ => return .continueWith frame.values
  blackhole _ g frame cache := blackholeHook g frame cache

/-- Hooks by a script. A guard is busy while it is traced, so one that is entered again is not
traced a second time. -/
def scriptHooks (script : Json) (hook : String) : Hooks Logged :=
  let inner := scriptHooksWith script hook fun _ _ _ => throw (.fault .interpreterFailed)
  scriptHooksWith script hook inner.handleGuard

def failTimes (j : Json) (frame : DeadFrame) : Step Json := do
  let driver ← driverOf j
  let hook ← stringOr j "hook" "none"
  let mut frame := frame
  let mut out := #[]
  for _ in List.range (← natOr j "times" 1) do
    let w ← get
    let hooks := scriptHooks j hook
    let (result, c, l) := hooks.handleFail driver frame (w.context, { world := w })
    set { l.world with context := c }
    frame := frame.afterExit
    let exitJson := match result with
      | .ok e => exit e
      | .error (.fault _) => str "tracer panicked"
      | .error e => stopJson e
    let record ← match frame.descr with
      | .guard g => pure (some (c.guards.get g))
      | .final _ => pure none
    out := out.push (.object [
      ("exit", exitJson), ("calls", .array l.calls.toList),
      ("busy", opt (fun r => .bool r.busy) record),
      ("attempts", opt (fun r => nat r.attempts) record),
      ("saved", .bool frame.saved.isSome)])
  return .array out.toList

def failStep (j : Json) : Step Json := do
  let exception ← match present? j "exception" with
    | some v => do pure (some (UInt64.ofNat (← readNat v)))
    | none => pure none
  failTimes j { descr := ← readFailDescr j, values := ← readValues j "values", exception }

def takeForced (token : UInt64) : Step (Option DeadFrame) := do
  let c ← context
  let frame := c.backend.forced.get? token
  setContext { c with backend := { c.backend with forced := c.backend.forced.erase token } }
  return frame

def failForced (j : Json) : Step Json := do
  match ← takeForced (UInt64.ofNat (← natAt j "token")) with
  | some frame => failTimes j frame
  | none => return str "no forced frame"

def forceStep (j : Json) : Step Json := do
  let token : UInt64 := UInt64.ofNat (← natAt j "token")
  let force : Step Unit := within (fun w => (w.context, w.heap))
    (fun (c, h) w => { w with context := c, heap := h }) (Context.forceNow token)
  let result ← match ← attempt force with
    | .ok () => pure (str "ok")
    | .error (.stop (.error e)) => pure (stopJson (.error e))
    | .error e => throw e
  let c ← context
  let frame := c.backend.forced.get? token
  return .object [
    ("result", result),
    ("virtuals", opt (list (opt fun a => nat a.toNat)) (frame.bind (·.saved))),
    ("token", opt (fun t => nat t.toNat) (frame.bind (·.forceToken))),
    ("running", nat c.backend.running.size), ("forced", nat c.backend.forced.size),
    ("critical", .bool c.preemption.inCriticalSection), ("pending", .bool c.preemption.pending)]

def scriptedJson (j : Json) (r : Replayer) (results : Array Json) : Step Json := do
  let fields ← (← items j "fields").mapM fun q => do
    let (address, name) ← readPair q
    let v := r.heap.field? (UInt64.ofNat (← readNat address)) (← readString name)
    return opt (fun v => str v.text) v
  return .object [
    ("results", .array results.toList), ("traced", nat r.traced),
    ("blackholed", nat r.blackholed), ("allocations", nat r.heap.objects.length),
    ("fields", .array fields)]

/-- Lets a frame fail with the interpreter of a trace file. -/
def scripted (j : Json) : Step Json := do
  let file ← fileAt j
  let driver ← driverOf j
  let forced ← match present? j "token" with
    | some t => takeForced (UInt64.ofNat (← readNat t))
    | none => pure none
  let mut frame ← match forced with
    | some f => pure f
    | none => do
      pure { descr := .guard (← guardAt j "guard"), values := ← readValues j "values" : DeadFrame }
  let mut r : Replayer := {}
  let mut out := #[]
  for _ in List.range (← natOr j "times" 1) do
    let (result, c, r') := (Replayer.hooks file).handleFail driver frame (← context, r)
    setContext c
    r := r'
    frame := frame.afterExit
    match result with
    | .ok e => out := out.push (exit e)
    | .error (.error e) => out := out.push (stopJson (.error e))
    | .error e => throw (.stop e)
  scriptedJson j r out

def scriptedEntry (j : Json) : Step Json := do
  let file ← fileAt j
  let driver ← driverOf j
  let mut r : Replayer := {}
  let mut out := #[]
  for spec in file.entryBridges do
    let (result, c, r') := Replayer.entryBridge file driver spec (← context, r)
    setContext c
    r := r'
    discover
    match result with
    | .ok (.ok unit) => out := out.push (← optUnit unit)
    | .ok (.error e) => out := out.push (runStopJson (.error (.record e)))
    | .error (.error e) => out := out.push (stopJson (.error e))
    | .error e => throw (.stop e)
  scriptedJson j r out

end HotLoop.Scenario
