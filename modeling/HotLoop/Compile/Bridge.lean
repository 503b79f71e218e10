import HotLoop.Compile.Session

/-!
# Compiling bridges

A bridge leaves a guard, or the interpreter, and enters existing code. One from a guard becomes
part of the guard's unit, one from the interpreter a unit of its own. A bridge that finds no entry
point waits until one more iteration of the loop has been traced; the two are then compiled
together, and the loop gets another entry point.
-/

namespace HotLoop

inductive ResumeKey where
  | guard (guard : Guard)
  | interpreter (key : GreenKey)
  deriving DecidableEq, Repr, Inhabited

/-- May the bridge enter a loop anywhere, and not through its preamble only? -/
def ResumeKey.anyEntry : ResumeKey → Bool
  | guard g => g.opcode != .guardFutureCondition
  | interpreter _ => true

namespace Submission

def attachToGuard (session : Session) (guard : Guard) : JitM Submission Unit := do
  let some home := session.home.filter (← get).context.registry.isAlive
    | throw (.error .missingHomeUnit)
  modifyTrace fun t => { t with home := some home }
  modify propagate
  sendBridge guard home
  modifyContext fun c =>
    { c with guards := c.guards.modify guard fun r => { r with bridges := r.bridges + 1 } }

/-- Submits the trace as a unit of its own, which becomes the procedure of a key. -/
def attachToInterpreter (session : Session) (key : GreenKey) : JitM Submission Unit := do
  let (unit, context) := (← get).context.makeUnit session.driver
  modify fun s => { context, trace := { s.trace with home := some unit } }
  modify propagate
  (sendLoop (some key) session.driver "entry bridge" session.history.inputs).onError fun s =>
    { s with context := s.context.releaseUnit unit }
  modifyContext fun c => (c.attach session.driver key unit).modifyStats fun s =>
    { s with entryBridges := s.entryBridges + 1 }

def attach (session : Session) : ResumeKey → JitM Submission Unit
  | .guard guard => attachToGuard session guard
  | .interpreter key => attachToInterpreter session key

end Submission

namespace Workbench

def takeWaiting : CompileM (Option (Trace × ExportedState)) := do
  let w ← get
  set { w with session := { w.session with waiting := none } }
  return w.session.waiting

/--
Compiles the history of the session as a bridge. The answer is the descriptor of its last
operation: the entry point it jumps to, or the way it leaves. There is none if nothing has been
compiled, because the optimizer gave up or because the bridge waits for its loop. Without unrolling
no bridge waits.
-/
def compileTrace (resumeKey : ResumeKey) : CompileM (Option Descr) := do
  let session := (← get).session
  let opts ← opts
  let vars := session.history.inputVars
  let ops := session.history.operations
  let result ←
    if session.history.endsWithJump then do
      let registry := (← get).context.registry
      optimize opts fun s => Pass.bridge s registry vars ops resumeKey.anyEntry
    else optimize opts fun s => Pass.simple s vars ops
  let some result := result | return none
  let trace ← newTrace
  let trace := { trace with
    inputs := result.inputs, operations := result.operations, deps := result.deps }
  match result.state with
  | none =>
    let session := (← get).session
    submitting trace do
      Submission.attach session resumeKey
      Submission.record
    return result.operations.getLast?.bind (·.descr)
  | some state =>
    if opts.contains .unroll then
      modifyContext (·.modifyStats fun s =>
        { s with retracesRequested := s.retracesRequested + 1 })
      modifySession fun s => { s with waiting := some (trace, state) }
    return none

/--
Compiles the bridge that waits in the session together with the loop it leads to: the history from
the operation at `start` on, which goes round with `jumpArgs` to the procedure of `key`. The answer
is the new entry point of that procedure.
-/
def compileRetrace (key : GreenKey) (start : Nat) (inputs : List Var) (jumpArgs : List Arg)
    (resumeKey : ResumeKey) : CompileM (Option EntryPoint) := do
  let w ← get
  let some unit :=
      (w.context.procedure? w.session.driver key).filter w.context.registry.isAlive
    | throw (.error .noProcedureToken)
  let some (bridge, state) ← takeWaiting | return none
  let opts ← opts
  if !opts.contains .unroll then
    return none
  let ops := (← get).session.history.operations.drop start
  let closing := Operation.jump jumpArgs (.cell unit)
  let some result ← optimize opts fun s => Pass.peeled s inputs closing ops state | return none
  let some header := result.header | throw (.fault .missingLoopHeader)
  let session := (← get).session
  submitting { bridge with
    home := some unit
    operations := bridge.operations ++ header.copies ++ [header.label] ++ result.operations
    deps := (bridge.deps.union result.deps).union state.deps
    values := session.history.values } do
      Submission.attach session resumeKey
      Submission.modifyContext (·.modifyUnit unit fun u =>
        { u with entries := u.entries ++ [header.entry] })
      Submission.record
  return some header.entry

end Workbench

end HotLoop
