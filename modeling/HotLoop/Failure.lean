import HotLoop.Compile.Submission

/-!
# Failing guards

What happens when compiled code exits. Through a final descriptor the frame simply returns or
raises. Through a guard the interpreter goes on, and now and then it traces a bridge on the way:
when the guard has failed often enough, and while no bridge is being traced from it already. A
guard behind a call that may force the frame is never traced from.
-/

namespace HotLoop

/-- What the interpreter does for a failing guard, on a context and a state of its own. -/
structure Hooks (ω : Type) where
  /-- Goes on from the guard while recording, and has a bridge compiled from the record. -/
  trace : Driver → Guard → DeadFrame → JitM (Context × ω) FrameExit
  /-- Goes on from the resume data, given the virtual objects if forcing has built some. -/
  blackhole : Driver → Guard → DeadFrame → Option VirtualCache → JitM (Context × ω) FrameExit

/-- Counts a failure and decides whether to trace from the guard; a busy guard does not count. -/
def Context.mustCompile (c : Context) (driver : Driver) (g : Guard) (frame : DeadFrame) :
    Bool × Context :=
  let r := c.guards.get g
  if r.busy then (false, c)
  else
    let hash := r.counting.hash c.addresses g frame
    let (fired, counter) := c.counter.tick hash (c.warmState driver).eagerness
    (fired, { c with counter })

/-- The frame once its failure has been handled: a forced one has given its objects away. -/
def DeadFrame.afterExit (frame : DeadFrame) : DeadFrame :=
  match frame.descr with
  | .guard ⟨_, _, .forced _⟩ => { frame with saved := none }
  | _ => frame

namespace Hooks

variable {ω : Type}

def modifyContext (f : Context → Context) : JitM (Context × ω) Unit :=
  modify fun s => (f s.1, s.2)

def countBlackhole : JitM (Context × ω) Unit :=
  modifyContext (·.modifyStats fun s => { s with blackholes := s.blackholes + 1 })

/-- A frame left compiled code through a guard. -/
def handleGuard (hooks : Hooks ω) (driver : Driver) (g : Guard) (frame : DeadFrame) :
    JitM (Context × ω) FrameExit := do
  if let .forced owner := g.kind then
    if owner ≠ driver.id then throw (.fault .foreignDriver)
    countBlackhole
    hooks.blackhole driver g frame.afterExit (some (frame.saved.getD []))
  else if ((← get).1.guards.get g).busy then
    hooks.blackhole driver g frame none
  else do
    modifyContext (·.modifyStats fun s => { s with guardFailures := s.guardFailures + 1 })
    let (fired, context) := (← get).1.mustCompile driver g frame
    modifyContext fun _ => context
    if fired then do
      modifyContext fun c => { c with guards := c.guards.startTracing g }
      modifyContext (·.modifyStats fun s => { s with bridgeTraces := s.bridgeTraces + 1 })
      (hooks.trace driver g frame).finally fun s =>
        ({ s.1 with guards := s.1.guards.doneTracing g }, s.2)
    else do
      countBlackhole
      hooks.blackhole driver g frame none

/-- A frame left compiled code. -/
def handleFail (hooks : Hooks ω) (driver : Driver) (frame : DeadFrame) :
    JitM (Context × ω) FrameExit :=
  match frame.descr with
  | .guard g => hooks.handleGuard driver g frame
  | .final d => return d.exit frame

end Hooks

end HotLoop
