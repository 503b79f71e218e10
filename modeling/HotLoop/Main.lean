import HotLoop.CommandLine.Execute

/-!
# The program

Reads the files that the command line names, carries the command out and prints what it leaves.
-/

namespace HotLoop

def readFile? (name : String) : IO (Option String) := do
  try
    return some (← IO.FS.readFile ⟨name⟩)
  catch _ =>
    return none

def Command.fileNames : Command → List String
  | .run options => options.config.toList ++ [options.file]
  | _ => []

end HotLoop

open HotLoop

def main (args : List String) : IO UInt32 := do
  let names := match Command.parse? args with
    | some command => command.fileNames
    | none => []
  let contents ← names.mapM fun name => do return (name, ← readFile? name)
  let outcome := Command.executeLine (fun name => (contents.lookup name).join) args
  (← IO.getStdout).putStr outcome.output
  (← IO.getStderr).putStr outcome.errors
  return UInt32.ofNat outcome.code
