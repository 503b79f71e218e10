import HotLoop.Compile.Submission

/-!
# Temporary callbacks

While no compiled version of a callee exists, a unit stands for it that calls the portal of the
interpreter, leaves if there is an exception, and returns what the portal returns.
-/

namespace HotLoop

def freshVars (ids : ValueIds) : List Kind → Except Fault (List Var × ValueIds)
  | [] => .ok ([], ids)
  | k :: ks => do
    let (v, ids) ← ids.fresh k
    let (vs, ids) ← freshVars ids ks
    return (v :: vs, ids)

def callbackCode (driver : Driver) (greens : List Arg) (reds : List Kind) :
    Except Fault (List Var × List Operation) := do
  let (inputs, ids) ← freshVars {} reds
  let kind := driver.portal.result
  let result ←
    if kind = .void then pure none
    else do
      let (v, _) ← ids.fresh kind
      pure (some v)
  let call : Operation := {
    opcode := .call
    args := .int driver.portalAddress :: greens ++ inputs.map .var
    result
    descr := some (.call driver.portal) }
  let guard : Operation := {
    opcode := .guardNoException
    args := []
    descr := some (.final .propagateException)
    failArgs := some [] }
  let finish : Operation := {
    opcode := .finish
    args := result.toList.map .var
    descr := some (.final driver.doneDescr) }
  return (inputs, [call, guard, finish])

/-- Compiles a temporary callback. No red argument is void, and there are as many as usual. -/
def Context.compileCallback (driver : Driver) (greens : List Arg) (reds : List Kind) :
    JitM Context UnitHandle := do
  if reds.length ≠ driver.redArgs || reds.contains .void then
    throw (.fault .callbackShape)
  let (unit, context) := (← get).makeUnit driver
  set context
  let (inputs, ops) ← JitM.ofFault (callbackCode driver greens reds)
  let (result, backend) :=
    context.backend.compileLoop driver.id unit "tmp callback" inputs ops
  match result with
  | .error e =>
    set ({ context with backend }.releaseUnit unit)
    throw (.error e)
  | .ok code =>
    set (({ context with backend }.modifyUnit unit fun u =>
      { u with code := some code }).keepAlive unit)
    return unit

end HotLoop
