import HotLoop.Compile.Session

/-!
# Compiling loops

A recorded loop becomes a unit of its own. Without unrolling it is a label, the optimized body and
a jump back. With unrolling the first iteration is peeled off: a preamble runs it and falls into
the loop proper, which has been optimized knowing what the preamble ends with. When the optimizer
gives up or the backend refuses, the unit made for the attempt is released again.
-/

namespace HotLoop

namespace Submission

/-- Submits the code of a new unit and makes the unit the procedure of its key. -/
def sendNewLoop (key : GreenKey) (driver : Driver) (inputs : List InputArg) (unit : UnitHandle) :
    JitM Submission Unit := do
  modify propagate
  (sendLoop (some key) driver "loop" inputs).onError fun s =>
    { s with context := s.context.releaseUnit unit }
  modifyContext (·.attach driver key unit)
  record

end Submission

def redirectJump? (ops : List Operation) (entry : EntryPoint) : Option (List Operation) :=
  match ops.getLast? with
  | some last =>
    if last.opcode = .jump then
      some (ops.dropLast ++ [{ last with descr := some (.target entry) }])
    else none
  | none => none

namespace Workbench

/-- A new unit of the session's driver. -/
def makeUnit : CompileM UnitHandle := do
  let w ← get
  let (unit, context) := w.context.makeUnit w.session.driver
  set { w with context }
  return unit

/-- The result of a pass. The unit is released if there is none. -/
def optimizeFor {α : Type} (unit : UnitHandle) (opts : OptSet)
    (pass : PassSettings → PassM Pass α) : CompileM (Option α) := do
  let result ← optimize opts pass
  if result.isNone then
    modifyContext (·.releaseUnit unit)
  return result

def compileSimpleLoop (key : GreenKey) (inputs : List InputArg) (ops : List Operation)
    (jumpArgs : List Arg) (opts : OptSet) : CompileM (Option EntryPoint) := do
  let driver := (← get).session.driver
  let unit ← makeUnit
  let vars := inputs.map (·.var)
  let body := ops ++ [.jump jumpArgs (.cell unit)]
  let some result ← optimizeFor unit opts fun s => Pass.simple s vars body | return none
  let entry ← makeEntry unit (vars.map (·.kind)) (some unit)
  let some code := redirectJump? result.operations entry | throw (.fault .lostClosingJump)
  let trace ← newTrace
  modifyContext (·.modifyUnit unit fun u => { u with entries := [entry] })
  submitting { trace with
    home := some unit
    inputs := vars
    operations := .label vars (.target entry) :: code
    deps := result.deps } (Submission.sendNewLoop key driver inputs unit)
  return some entry

/-- Compiles a loop with its first iteration peeled off. -/
def compileUnrolledLoop (key : GreenKey) (inputs : List InputArg) (ops : List Operation)
    (jumpArgs : List Arg) (opts : OptSet) : CompileM (Option EntryPoint) := do
  let driver := (← get).session.driver
  let unit ← makeUnit
  let vars := inputs.map (·.var)
  let some (state, preamble) ← optimizeFor unit opts fun s => Pass.preamble s vars jumpArgs ops
    | return none
  let closing := Operation.jump jumpArgs (.cell unit)
  let some result ← optimizeFor unit opts fun s => Pass.peeled s vars closing ops state
    | return none
  let some header := result.header | throw (.fault .missingLoopHeader)
  let entry ← makeEntry unit (vars.map (·.kind)) (some unit)
  let trace ← newTrace
  modifyContext (·.modifyUnit unit fun u =>
    { u with entries := entry :: u.entries ++ [header.entry] })
  submitting { trace with
    home := some unit
    inputs := vars
    operations := .label vars (.target entry) ::
      (preamble ++ header.copies ++ [header.label] ++ result.operations)
    deps := state.deps.union result.deps } (Submission.sendNewLoop key driver inputs unit)
  return some entry

/--
Compiles the history from the operation at `start` on as a loop that goes round with `jumpArgs`.
The answer is the entry point of the new unit; there is none if the optimizer gave up. With
`avoidUnroll` the loop is compiled without unrolling, and not at all if that is how the driver
compiles anyway.
-/
def compileLoop (key : GreenKey) (start : Nat) (inputs : List InputArg) (jumpArgs : List Arg)
    (avoidUnroll : Bool) : CompileM (Option EntryPoint) := do
  let opts ← opts
  let ops := (← get).session.history.operations.drop start
  if avoidUnroll then
    if opts.contains .unroll then
      compileSimpleLoop key inputs ops jumpArgs (opts.without .unroll)
    else return none
  else if opts.contains .unroll then compileUnrolledLoop key inputs ops jumpArgs opts
  else compileSimpleLoop key inputs ops jumpArgs opts

end Workbench

end HotLoop
