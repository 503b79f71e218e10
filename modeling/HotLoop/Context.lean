import HotLoop.Backend
import HotLoop.Collector
import HotLoop.Config
import HotLoop.Counter
import HotLoop.Driver
import HotLoop.Optimize.Request
import HotLoop.Preemption
import HotLoop.Stats

/-!
# Contexts

All that the drivers of one context share: units, guards, entry points, counters, the collector,
the backend, and the statistics. The warm state of every driver is kept here as well.
-/

namespace HotLoop

/-- The state of a context. -/
structure Context where
  registry : Registry := {}
  collector : Collector
  counter : Counter
  backend : Backend := {}
  stats : Stats := {}
  quasiImmut : QuasiImmut := {}
  preemption : Preemption := {}
  nextNumber : Nat := 0
  guards : GuardTable := {}
  entries : EntryTable := {}
  /-- The changing parts of the drivers, by their numbers. -/
  warm : Table Nat WarmState := .empty
  /-- Where the allocator puts the guards. -/
  addresses : Nat → UInt64 := Guard.inOrder
  deriving Inhabited

namespace Context

def ofConfig (c : Config) (addresses : Nat → UInt64 := Guard.inOrder) : Context where
  collector := .ofMaxAge c.loopLongevity
  counter := .ofBits c.counterBits
  addresses

def warmState (c : Context) (driver : Driver) : WarmState := (c.warm.get? driver.id).getD {}

def setWarm (c : Context) (driver : Driver) (w : WarmState) : Context :=
  { c with warm := c.warm.insert driver.id w }

/-- Makes a unit the procedure of a key. -/
def attach (c : Context) (driver : Driver) (key : GreenKey) (unit : UnitHandle) : Context :=
  c.setWarm driver ((c.warmState driver).attach key unit)

def procedure? (c : Context) (driver : Driver) (key : GreenKey) : Option UnitHandle :=
  (c.warmState driver).procedure? key

def makeUnit (c : Context) (driver : Driver) : UnitHandle × Context :=
  let (unit, registry) := c.registry.make driver.id
  (unit, { c with registry })

def releaseUnit (c : Context) (unit : UnitHandle) : Context :=
  { c with registry := c.registry.drop unit }

def modifyUnit (c : Context) (unit : UnitHandle) (f : CompiledUnit → CompiledUnit) : Context :=
  { c with registry := c.registry.modify unit f }

/-- Stamps a unit with the generation that runs. -/
def keepAlive (c : Context) (unit : UnitHandle) : Context :=
  let (collector, registry) := c.collector.keep c.registry unit
  { c with collector, registry }

def modifyStats (c : Context) (f : Stats → Stats) : Context := { c with stats := f c.stats }

/-- The number of the next loop, a 64-bit word. -/
def takeNumber (c : Context) : Nat × Context :=
  (c.nextNumber, { c with nextNumber := (c.nextNumber + 1) % UInt64.size })

/-- A write to a quasi-immutable field. The answer counts the units that are invalidated. -/
def invalidate (c : Context) (field : Nat) : Nat × Context :=
  let (count, quasiImmut, registry) := c.quasiImmut.invalidate c.registry field
  (count, { c with quasiImmut, registry })

/-- Goes on to the next generation and frees the code of what nothing keeps. -/
def nextGeneration (c : Context) : Nat × Context :=
  let (freed, collector, registry) := c.collector.nextGeneration c.registry
  let stats := { c.stats with freedLoops := c.stats.freedLoops + freed.length }
  (freed.length,
    { c with collector, registry, stats, backend := freed.foldl Backend.free c.backend })

/-- The part that optimizing works on, with the value numbers of a session. -/
def optState (c : Context) (values : ValueIds) : OptState :=
  { values, counter := c.counter, guards := c.guards, entries := c.entries }

/-- Takes back the part that optimizing has worked on. -/
def withOptState (c : Context) (s : OptState) : Context :=
  { c with counter := s.counter, guards := s.guards, entries := s.entries }

end Context

end HotLoop
