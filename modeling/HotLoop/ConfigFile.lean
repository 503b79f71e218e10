import HotLoop.Config
import HotLoop.Toml.Printer
import HotLoop.Toml.Reader

/-!
# Configuration files

A configuration is written as a TOML document with one member for each knob. A file may leave knobs
out, which then keep their defaults, and may hold other members, which do not count.
-/

namespace HotLoop

inductive ConfigError where
  | unreadable
  | malformed
  | tooLarge
  | unknownOptimization (name : String)
  deriving DecidableEq, Repr

def ConfigError.message : ConfigError → String
  | unreadable => "failed to read config file"
  | malformed => "failed to parse config file"
  | tooLarge => "failed to serialize config"
  | unknownOptimization name => "unknown optimization `" ++ name ++ "`"

namespace Toml

def Node.natBelow? (bound : Nat) : Node → Option Nat
  | .integer n => if 0 ≤ n ∧ n < bound then some n.toNat else none
  | _ => none

def Node.string? : Node → Option String
  | .string s => some s
  | _ => none

def Node.bool? : Node → Option Bool
  | .boolean b => some b
  | _ => none

def Members.getD? {α : Type} (ms : Members) (key : String) (decode : Node → Option α)
    (default : α) : Option α :=
  match ms.get? key with
  | some node => decode node
  | none => some default

end Toml

namespace Config

def ofMembers? (ms : Toml.Members) : Option Config := do
  let d : Config := {}
  some {
    traceEagerness := ← ms.getD? "trace_eagerness" (·.natBelow? UInt32.size) d.traceEagerness
    enableOpts := ← ms.getD? "enable_opts" (·.string?) d.enableOpts
    loopLongevity := ← ms.getD? "loop_longevity" (·.natBelow? UInt64.size) d.loopLongevity
    counterBits := ← ms.getD? "counter_bits" (·.natBelow? UInt32.size) d.counterBits
    traceJit := ← ms.getD? "trace_jit" (·.bool?) d.traceJit }

def checkedOpts (c : Config) : Except ConfigError OptSet :=
  c.opts.mapError .unknownOptimization

def ofToml (text : String) : Except ConfigError Config :=
  match (Toml.parse? text).bind ofMembers? with
  | none => .error .malformed
  | some c => (c.checkedOpts).map fun _ => c

/-- The document of a configuration. Numbers in documents have 64 bits with a sign. -/
def toToml (c : Config) : Except ConfigError String :=
  if 0x8000000000000000 ≤ c.loopLongevity then .error .tooLarge
  else .ok (String.join [
    Toml.assignment "trace_eagerness" (toString c.traceEagerness),
    Toml.assignment "enable_opts" (Toml.writeString c.enableOpts),
    Toml.assignment "loop_longevity" (toString c.loopLongevity),
    Toml.assignment "counter_bits" (toString c.counterBits),
    Toml.assignment "trace_jit" (if c.traceJit then "true" else "false")])

end Config

end HotLoop
