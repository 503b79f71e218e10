import HotLoop.CommandLine.Arguments

/-!
# Help

The texts that explain the commands. Where one entry of a list is too long for its line, the whole
list has its explanations on lines of their own.
-/

namespace HotLoop.HelpTopic

def optionLines (flag explanation : String) : List String :=
  [flag, "          " ++ explanation]

def runOptionLines : List String :=
  optionLines "      --config <FILE>" "Load settings from a TOML config file" ++
  optionLines "      --no-unroll" "Compile loops without peeling" ++
  optionLines "      --trace-eagerness <TRACE_EAGERNESS>"
    "Guard failures before a bridge is traced" ++
  optionLines "      --enable-opts <ENABLE_OPTS>"
    "Colon-separated list of optimizations, or \"all\"" ++
  optionLines "      --dump" "Print every compiled loop and bridge" ++
  optionLines "      --stats[=<STATS>]"
    "Print compilation statistics (human or json format) [possible values: human, json]" ++
  optionLines "      --trace-jit" "Trace JIT compilation events" ++
  optionLines "  -h, --help" "Print help"

def lines : HelpTopic → List String
  | program =>
    ["Replay recorded traces through the JIT compilation pipeline", "",
      "Usage: tracejit <COMMAND>", "",
      "Commands:",
      "  run     Compile the loop of a trace file and replay its guard failures",
      "  config  Print the default configuration as TOML",
      "  help    Print this message or the help of the given subcommand(s)", "",
      "Options:",
      "  -h, --help  Print help"]
  | run =>
    ["Compile the loop of a trace file and replay its guard failures", "",
      "Usage: tracejit run [OPTIONS] <FILE>", "",
      "Arguments:",
      "  <FILE>  The JSON trace file", "",
      "Options:"] ++ runOptionLines
  | config =>
    ["Print the default configuration as TOML", "",
      "Usage: tracejit config", "",
      "Options:",
      "  -h, --help  Print help"]
  | help =>
    ["Print this message or the help of the given subcommand(s)", "",
      "Usage: tracejit help [COMMAND]...", "",
      "Arguments:",
      "  [COMMAND]...  Print help for the subcommand(s)"]

end HotLoop.HelpTopic
