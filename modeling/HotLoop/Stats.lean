/-!
# Statistics

Counts of what has been compiled and how guard failures have gone. The two times are part of the
written forms; a run that does not measure them leaves them at zero.
-/

namespace HotLoop

structure Stats where
  loopsCompiled : Nat := 0
  bridgesCompiled : Nat := 0
  entryBridges : Nat := 0
  invalidLoops : Nat := 0
  retracesRequested : Nat := 0
  guardFailures : Nat := 0
  bridgeTraces : Nat := 0
  blackholes : Nat := 0
  forcings : Nat := 0
  freedLoops : Nat := 0
  optimizeMicros : Nat := 0
  backendMicros : Nat := 0
  loopNames : List String := []
  nextLoop : Nat := 0
  deriving DecidableEq, Repr, Inhabited

namespace Stats

def nameLoop (s : Stats) : String × Stats :=
  (s!"Loop-{s.nextLoop}", { s with nextLoop := s.nextLoop + 1 })

def addLoop (s : Stats) (name : String) : Stats :=
  { s with loopsCompiled := s.loopsCompiled + 1, loopNames := s.loopNames ++ [name] }

def counts (s : Stats) : List (String × Nat) :=
  [("loops_compiled", s.loopsCompiled), ("bridges_compiled", s.bridgesCompiled),
    ("entry_bridges", s.entryBridges), ("invalid_loops", s.invalidLoops),
    ("retraces_requested", s.retracesRequested), ("guard_failures", s.guardFailures),
    ("bridge_traces", s.bridgeTraces), ("blackholes", s.blackholes), ("forcings", s.forcings),
    ("freed_loops", s.freedLoops)]

def times (s : Stats) : List (String × Nat) :=
  [("optimize_us", s.optimizeMicros), ("backend_us", s.backendMicros)]

def labelled (label : String) (text : String) : String :=
  label ++ String.ofList (List.replicate (20 - label.length) ' ') ++ text

def countLines (s : Stats) : List String :=
  s.counts.map fun (key, n) =>
    labelled (key.map (fun c => if c = '_' then ' ' else c) ++ ":") s!"{n}"

def timeLines (s : Stats) : List String :=
  [labelled "optimize time:" s!"{s.optimizeMicros}us",
    labelled "backend time:" s!"{s.backendMicros}us"]

end Stats

end HotLoop
