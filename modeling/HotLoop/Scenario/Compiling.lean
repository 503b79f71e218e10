import HotLoop.Compile.Bridge
import HotLoop.Compile.Loop
import HotLoop.Scenario.Reading
import HotLoop.Scenario.Showing

/-!
# Steps that compile

Loops, traces and their second parts. A session is kept even if its compilation fails.
-/

namespace HotLoop.Scenario

open Json (nat str opt list strs)

/-- Keeps a session under a new number. -/
def push (s : Session) (l : List Session) : List Session := l ++ [s]

def recorded (inputs : List InputArg) (l : List Operation) : Step History := do
  let h ← inputs.foldlM (fun h i => ofFault (History.addInputVar h i.var i.value)) {}
  ofFault (h.recordOps l)

def addMemo (old new : PureMemo) : PureMemo :=
  new.entries.reverse.foldl (fun t e => t.insert e.1 e.2) old

def loopStep (j : Json) : Step Json := do
  let inputs ← readInputs j "inputs"
  let l ← readOperations j "ops"
  let memo ← memoAt j
  let session ← match present? j "session" with
    | some n => do
      let n ← readNat n
      let s ← need "session" (← get).sessions[n]?
      modify fun w => { w with sessions := w.sessions.set n { driver := s.driver } }
      pure s
    | none => do pure { driver := ← driverOf j, history := ← recorded inputs l : Session }
  let session := { session with memo := addMemo session.memo memo }
  let number := (← get).sessions.length
  let key ← keyOr j "key"
  let entry ← compiling session push
    (Workbench.compileLoop key (← natOr j "start" 0) inputs (← readArgs j "jump")
      (← boolOr j "no_unroll" false))
  discover
  return .object [("session", nat number), ("target", ← optTarget entry)]

def traceStep (j : Json) : Step Json := do
  let resumeKey ← readResumeKey (← field j "from")
  let home ← match resumeKey with
    | .guard g => do pure ((← context).guards.get g).loop
    | .interpreter _ => pure none
  let history ← recorded (← readInputs j "inputs") (← readOperations j "ops")
  let session : Session := {
    driver := ← driverOf j, history, memo := ← memoAt j, home }
  let number := (← get).sessions.length
  let descr ← compiling session push (Workbench.compileTrace resumeKey)
  discover
  let waiting := ((← get).sessions[number]?.bind (·.waiting)).isSome
  return .object [
    ("session", nat number), ("partial", .bool waiting), ("home", ← optUnit home),
    ("short", .bool resumeKey.anyEntry), ("descr", opt (fun d => str d.text) descr),
    ("target", ← optTarget (descr.bind Descr.target?))]

def retraceStep (j : Json) : Step Json := do
  let n ← natAt j "session"
  let session ← need "session" (← get).sessions[n]?
  let start ← natOr j "start" session.history.operations.length
  let history ← ofFault (session.history.recordOps (← readOperations j "ops"))
  let resumeKey ← readResumeKey (← field j "from")
  let key ← readKey (← field j "key")
  let entry ← compiling { session with history } (fun s l => l.set n s)
    (Workbench.compileRetrace key start (← readVars j "inputs") (← readArgs j "jump") resumeKey)
  discover
  let waiting := ((← get).sessions[n]?.bind (·.waiting)).isSome
  return .object [("partial", .bool waiting), ("target", ← optTarget entry)]

/-- Takes the waiting first part out of a session. -/
def dropPartial (j : Json) : Step Json := do
  let n ← natAt j "session"
  let session ← need "session" (← get).sessions[n]?
  modify fun w => { w with sessions := w.sessions.set n { driver := session.driver } }
  match session.waiting with
  | none => return .null
  | some (t, state) =>
    return .object [("name", str t.name), ("text", code t.inputs t.operations),
      ("end", strs (state.endArgs.map Arg.text))]

end HotLoop.Scenario
