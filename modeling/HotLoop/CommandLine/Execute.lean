import HotLoop.CommandLine.Help
import HotLoop.ConfigFile
import HotLoop.Json.Build
import HotLoop.Json.Printer
import HotLoop.Json.Reader
import HotLoop.Replay.Run

/-!
# Carrying out commands

What a command line prints and the code with which it ends. The configuration is settled before the
trace is read: the settings on the line come after those of the file, and the optimizations are
checked whenever they are used. A command sees the files through a function.
-/

namespace HotLoop

structure Outcome where
  code : Nat := 0
  output : String := ""
  errors : String := ""
  deriving DecidableEq, Repr, Inhabited

namespace Outcome

def wrongUsage : Outcome := { code := 2 }

def failure (message : String) : Outcome := { code := 1, errors := "error: " ++ message ++ "\n" }

def broken (fault : Fault) : Outcome :=
  { code := 101, errors := unlines fault.message?.toList }

end Outcome

abbrev Files := String → Option String

namespace RunOptions

def loadConfig (o : RunOptions) (files : Files) : Except String Config :=
  match o.config with
  | none => .ok {}
  | some name =>
    let result := match files name with
      | none => Except.error ConfigError.unreadable
      | some text => Config.ofToml text
    result.mapError fun e => name ++ ": " ++ e.message

/-- The configuration of the file with the settings of the command line. -/
def settle (o : RunOptions) (files : Files) : Except String Config := do
  let c ← o.loadConfig files
  let c := { c with enableOpts := o.enableOpts.getD c.enableOpts }
  let opts ← c.checkedOpts.mapError (·.message)
  return { c with
    enableOpts := if o.noUnroll then (opts.without .unroll).text else c.enableOpts
    traceEagerness := o.traceEagerness.getD c.traceEagerness
    traceJit := c.traceJit || o.traceJit }

def loadTrace (o : RunOptions) (files : Files) : Except String TraceFile :=
  match files o.file with
  | none => .error ("failed to read " ++ o.file)
  | some text =>
    match TraceFile.parse? text with
    | none => .error "failed to parse trace file"
    | some file => .ok file

def exitLine : FrameExit → String
  | .done v => "done: " ++ v.text
  | .exception a => "exception: " ++ hexText a
  | .continueWith vs => "continue: [" ++ ", ".intercalate (vs.map Value.text) ++ "]"

def statsJson (s : Stats) : String :=
  Json.prettyObject ((s.counts ++ s.times).map fun (key, n) => (key, Json.nat n))

/-- What a replay prints. Statistics for a reader are no part of its output proper. -/
def outcome (o : RunOptions) (r : Report) : Outcome :=
  let lines := (if o.dump then r.dump else []) ++ r.exits.map exitLine
  match o.stats with
  | none => { output := unlines lines }
  | some .json => { output := unlines (lines ++ [statsJson r.stats]) }
  | some .human => {
      output := unlines lines
      errors := unlines (r.stats.countLines ++ r.stats.timeLines) }

def execute (o : RunOptions) (files : Files) : Outcome :=
  match o.settle files with
  | .error message => .failure message
  | .ok config =>
    match o.loadTrace files with
    | .error message => .failure message
    | .ok file =>
      match file.run config with
      | .error (.error e) => .failure e.message
      | .error (.fault f) => .broken f
      | .ok report => o.outcome report

end RunOptions

namespace Command

def execute (files : Files) : Command → Outcome
  | .run options => options.execute files
  | .config =>
    match Config.toToml {} with
    | .ok text => { output := text }
    | .error e => .failure e.message
  | .help topic => { output := unlines topic.lines }

def executeLine (files : Files) (args : List String) : Outcome :=
  match parse? args with
  | some command => command.execute files
  | none => .wrongUsage

end Command

end HotLoop
