import HotLoop.Scenario.Showing

/-!
# What a step changed

The submissions, frees and counts since the last step, and the whole world as it is now.
-/

namespace HotLoop.Scenario

open Json (nat str opt list strs)

def guardNumber (g : Guard) : Step Json := do
  return opt nat ((← get).guards.findIdx? (· == g))

def numberedGuards (l : List Operation) : Step Json := do
  return .array (← (guardsIn l).mapM fun g => do
    return .array [← guardNumber g, ← guardInfo g])

def loopJson (l : CompiledLoop) : Step Json := do
  return .object [
    ("loop", str l.name), ("unit", ← unitIndex l.unit), ("driver", nat l.driver),
    ("addr", nat l.code.address), ("size", nat l.code.size),
    ("last_offset", opt nat (Backend.offsets l.operations).getLast?),
    ("text", code l.inputs l.operations), ("guards", ← numberedGuards l.operations)]

def bridgeJson (l : CompiledBridge) : Step Json := do
  return .object [
    ("bridge", ← guardNumber l.guard), ("unit", ← unitIndex l.home),
    ("addr", nat l.code.address), ("size", nat l.code.size),
    ("text", code l.inputs l.operations), ("guards", ← numberedGuards l.operations)]

/-- The submissions and frees since the last step. -/
def news : Step (List Json) := do
  discover
  let w ← get
  let b := w.context.backend
  let loops := b.loops.drop w.loopsSeen
  let bridges := b.bridges.filter fun l => w.bridgesSeen ≤ l.code.address
  let freed := b.freed.drop w.freedSeen
  for l in loops do
    (guardsIn l.operations).forM learnGuard
  for l in bridges do
    (guardsIn l.operations).forM learnGuard
    learnGuard l.guard
  let loopsJson ← loops.mapM loopJson
  let bridgesJson ← bridges.mapM bridgeJson
  let freedJson ← freed.mapM fun u => do return .object [("freed", ← unitIndex u)]
  modify fun w => { w with
    loopsSeen := b.loops.length, bridgesSeen := b.nextAddress, freedSeen := b.freed.length }
  return loopsJson ++ bridgesJson ++ freedJson

/-- The statistics that have changed since the last step. -/
def statsNews : Step (List (String × Json)) := do
  let w ← get
  let now := w.context.stats
  let before := w.statsSeen
  modify fun w => { w with statsSeen := now }
  let counts := (now.counts.zip before.counts).filter fun (a, b) => a != b
  let names := if now.loopNames == before.loopNames then [] else
    [("loop_names", strs now.loopNames)]
  return counts.map (fun (a, _) => (a.1, nat a.2)) ++ names

def unitJson (u : UnitHandle) : Step Json := do
  let c ← context
  match c.registry.get? u with
  | none => return str "dead"
  | some unit =>
    return .object [
      ("index", nat u.index), ("number", opt nat unit.number),
      ("generation", nat unit.generation), ("driver", nat unit.driver),
      ("targets", .array (← unit.entries.mapM targetJson)), ("jumps", ← unitList unit.jumpsTo),
      ("invalidated", .bool unit.invalidated),
      ("compiled", opt (fun r => .array [nat r.address, nat r.size]) unit.code),
      ("kept", .bool (c.collector.isKept u)),
      ("code_guards", nat (c.backend.guardsOf u).length)]

def stageJson : Step Json := do
  let w ← get
  let c := w.context
  return .object [
    ("units", .array (← w.units.mapM unitJson)), ("numbering", nat c.nextNumber),
    ("submissions", nat c.backend.submissions), ("heap", strs w.heap.calls),
    ("guards", .array (← w.guards.mapM guardInfo))]

end HotLoop.Scenario
