import HotLoop.OptSet

/-!
# Configuration

The knobs of a context. Every one has a default.
-/

namespace HotLoop

structure Config where
  /-- The failures of a guard before a bridge is traced. -/
  traceEagerness : Nat := 200
  enableOpts : String := "all"
  /-- The generations that a loop survives without being entered. -/
  loopLongevity : Nat := 1000
  /-- The size of the counter table, as a power of two. -/
  counterBits : Nat := 12
  traceJit : Bool := false
  deriving DecidableEq, Repr, Inhabited

/-- The set of optimizations; the error is the first unknown name. -/
def Config.opts (c : Config) : Except String OptSet := OptSet.parse c.enableOpts

end HotLoop
