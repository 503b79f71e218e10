import HotLoop.Json.Build
import HotLoop.Replay.Run
import HotLoop.Scenario.World

/-!
# Showing results

The results of steps as JSON. Values and operations are shown by their texts, units and guards by
their numbers.
-/

namespace HotLoop.Scenario

open Json (nat str opt list strs)

def vars (vs : List Var) : Json := list (fun v => str v.text) vs

def kinds (ks : List Kind) : Json := list (fun k => str k.name) ks

def linesOf (text : String) : List String :=
  let pieces := text.splitOn "\n"
  if pieces.getLast? == some "" then pieces.dropLast else pieces

def code (inputs : List Var) (ops : List Operation) : Json :=
  strs (linesOf (unlines (codeLines inputs ops)))

def tagged : Tagged → Json
  | .box i => .array [str "box", nat i]
  | .const i => .array [str "const", nat i]
  | .int n => .array [str "int", .int n.toInt]
  | .virtual i => .array [str "virtual", nat i]
  | .null => .null

def guardKind : GuardKind → String
  | .plain => "plain"
  | .forced driver => s!"forced:{driver}"
  | .notInvalidated => "not_invalidated"
  | .atPosition => "at_position"

def unitIndex (u : UnitHandle) : Step Json := do
  match (← get).units.findIdx? (· == u) with
  | some i => return nat i
  | none => return .int (-1)

def optUnit : Option UnitHandle → Step Json
  | some u => unitIndex u
  | none => return .null

def unitList (us : List UnitHandle) : Step Json := do return .array (← us.mapM unitIndex)

def guardInfo (g : Guard) : Step Json := do
  let r := (← context).guards.get g
  return .object [
    ("op", str g.opcode.name), ("kind", str (guardKind g.kind)), ("status", nat r.status),
    ("value_index", opt nat r.valueIndex?), ("numb", list tagged r.data.numbering),
    ("consts", strs (r.data.consts.map Value.text)), ("count", nat r.data.count),
    ("position", nat r.data.position), ("virtuals", nat r.data.virtuals.length),
    ("loop", ← optUnit r.loop), ("bridges", nat r.bridges), ("attempts", nat r.attempts)]

def exit : FrameExit → Json
  | .done v => .object [("done", str v.text)]
  | .exception a => .object [("exception", str (hexText a))]
  | .continueWith vs => .object [("continue", strs (vs.map Value.text))]

def errorJson (kind : String) (message : Option String := none) : Json :=
  .object (("error", str kind) :: (message.map fun m => ("message", str m)).toList)

def JitError.kindName : JitError → String
  | .rejected _ _ => "BackendRejected"
  | .unknownForceToken _ => "UnknownForceToken"
  | .switchToBlackhole => "SwitchToBlackhole"
  | .missingHomeUnit => "MissingOriginalToken"
  | .noProcedureToken => "NoProcedureToken"
  | .interrupted => "Interrupted"

def stopJson : Stop → Json
  | .error e => errorJson (JitError.kindName e) (some e.message)
  | .fault f => errorJson "panic" f.message?

def refusalJson : Refusal → Json
  | .input what => errorJson "BadInput" (some what)
  | .stop s => stopJson s

def consistencyJson : Except ConsistencyError Unit → Json
  | .ok () => str "ok"
  | .error e =>
    let kind := match e with
      | .undefinedValue _ _ => "UndefinedValue"
      | .redefined _ => "Redefined"
      | .duplicateInput _ => "DuplicateInput"
      | .missingFinalOp => "MissingFinalOp"
      | .earlyFinalOp _ => "EarlyFinalOp"
    errorJson kind (some e.message)

def statsJson (s : Stats) : Json :=
  .object (s.counts.map (fun (k, n) => (k, nat n)) ++ [("loop_names", strs s.loopNames)])

def runStopJson : RunStop → Json
  | .fault f => stopJson (.fault f)
  | .error (.jit e) => stopJson (.error e)
  | .error e =>
    let kind := match e with
      | .record (.undefinedValue _ _) => "UndefinedValue"
      | .record _ => "Malformed"
      | .unknownOptimization _ => "UnknownOptimization"
      | .loopNotCompiled => "LoopNotCompiled"
      | .unknownGuard _ => "UnknownGuard"
      | .jit e => JitError.kindName e
    errorJson kind (some e.message)

def targetJson (e : EntryPoint) : Step Json := do
  return .object [("unit", ← unitIndex e.owner), ("types", kinds e.argKinds),
    ("home", ← optUnit ((← context).entries.home? e))]

def optTarget : Option EntryPoint → Step Json
  | some e => targetJson e
  | none => return .null

end HotLoop.Scenario
