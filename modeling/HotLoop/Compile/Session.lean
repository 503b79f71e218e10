import HotLoop.Compile.Submission

/-!
# Tracing sessions

One tracing run: the driver, the recorded history, the pure calls seen, and the unit of the guard
that the run started from. A bridge that found no entry point waits in its session until the loop
it leads to has been traced as well.
-/

namespace HotLoop

structure Session where
  driver : Driver
  history : History := {}
  memo : PureMemo := .empty
  home : Option UnitHandle := none
  /-- The bridge that waits for its loop, with what it hands on. -/
  waiting : Option (Trace × ExportedState) := none
  deriving Inhabited

structure Workbench where
  context : Context
  session : Session
  deriving Inhabited

abbrev CompileM := JitM Workbench

namespace Workbench

def modifyContext (f : Context → Context) : CompileM Unit :=
  modify fun w => { w with context := f w.context }

def modifySession (f : Session → Session) : CompileM Unit :=
  modify fun w => { w with session := f w.session }

/-- The optimizations of the session's driver. -/
def opts : CompileM OptSet := do
  let w ← get
  return (w.context.warmState w.session.driver).opts

def makeEntry (owner : UnitHandle) (argKinds : List Kind) (home : Option UnitHandle) :
    CompileM EntryPoint := do
  let w ← get
  let (entry, entries) := w.context.entries.make owner argKinds home
  modifyContext fun c => { c with entries }
  return entry

/--
Runs an optimizer pass with the pure calls of the session. A trace that the optimizer gives up is
counted, and there is no result then.
-/
def optimize {α : Type} (opts : OptSet) (pass : PassSettings → PassM Pass α) :
    CompileM (Option α) := do
  let w ← get
  let settings : PassSettings := { driver := w.session.driver.id, opts, memo := w.session.memo }
  let (result, p) := pass settings (.ofShared (w.context.optState w.session.history.values))
  set {
    context := w.context.withOptState p.shared
    session := { w.session with
      history := { w.session.history with values := p.shared.values } } : Workbench }
  match result with
  | .ok a => return some a
  | .error (.invalid _) =>
    modifyContext (·.modifyStats fun s => { s with invalidLoops := s.invalidLoops + 1 })
    return none
  | .error (.fault f) => throw (.fault f)

def newTrace : CompileM Trace := do
  let w ← get
  let (name, stats) := w.context.stats.nameLoop
  set { w with context := { w.context with stats } }
  return { name, values := w.session.history.values }

def submitting {α : Type} (trace : Trace) (x : JitM Submission α) : CompileM α :=
  JitM.zoom (fun w => ⟨w.context, trace⟩) (fun s w => { w with context := s.context }) x

end Workbench

end HotLoop
