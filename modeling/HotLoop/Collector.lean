import HotLoop.Registry
import HotLoop.Table

/-!
# Keeping and freeing units

A unit stays for a number of generations after its last use, and as long as the code of a younger
unit can jump to it. Units also rely on quasi-immutable fields; a write to such a field invalidates
them, and an invalidated unit is no longer young.
-/

namespace HotLoop

/-- The generation that runs and the units used in it or not long before. -/
structure Collector where
  maxAge : Nat
  current : Nat := 1
  alive : List UnitHandle := []
  deriving Repr, Inhabited

namespace Collector

/-- A collector for an age limit of at least one generation. -/
def ofMaxAge (maxAge : Nat) : Collector := { maxAge := max maxAge 1 }

def isKept (c : Collector) (h : UnitHandle) : Bool := c.alive.contains h

/--
Is there another generation? Generations are numbered in 64 bits, and the age limit is counted back
from the number behind the one that runs.
-/
def hasNext (c : Collector) : Bool := c.current + 2 < UInt64.size

/-- Stamps a unit with the generation that runs. -/
def keep (c : Collector) (r : Registry) (h : UnitHandle) : Collector × Registry :=
  match r.get? h with
  | none => (c, r)
  | some unit =>
    if unit.generation = c.current then (c, r)
    else
      ({ c with alive := if c.alive.contains h then c.alive else h :: c.alive },
        r.modify h fun u => { u with generation := c.current })

/-- The oldest generation whose units stay by themselves. -/
def oldestKept (c : Collector) : Nat := c.current + 1 - c.maxAge

/-- Is the unit alive, young enough, and valid? -/
def isYoung (c : Collector) (r : Registry) (h : UnitHandle) : Bool :=
  match r.get? h with
  | some unit => c.oldestKept ≤ unit.generation && !unit.invalidated
  | none => false

/-- The units that the live ones among `hs` jump to. -/
def successors (r : Registry) (hs : List UnitHandle) : List UnitHandle :=
  hs.flatMap fun h => ((r.get? h).map (·.jumpsTo)).getD []

/-- `hs` and what is reached from it by at most `n` jumps. -/
def reach (r : Registry) : Nat → List UnitHandle → List UnitHandle
  | 0, hs => hs
  | n + 1, hs =>
    let new := (successors r hs).filter (!hs.contains ·)
    if new.isEmpty then hs else reach r n (hs ++ new)

/-- The units that nothing keeps: registered once, and not reached from a young one. -/
def garbage (c : Collector) (r : Registry) : List UnitHandle :=
  let reached := reach r (r.size + 1) c.alive
  r.liveHandles.filter fun h =>
    ((r.get? h).map fun unit => decide (0 < unit.generation)).getD false && !reached.contains h

/-- Goes on to the next generation. The units listed have been freed. -/
def nextGeneration (c : Collector) (r : Registry) : List UnitHandle × Collector × Registry :=
  let c := { c with current := c.current + 1 }
  let c := { c with alive := c.alive.filter (c.isYoung r) }
  let freed := c.garbage r
  (freed, c, freed.foldl Registry.drop r)

end Collector

structure QuasiImmut where
  dependents : Table Nat (List UnitHandle) := .empty
  deriving Repr, Inhabited

namespace QuasiImmut

/-- The units that rely on a field, in the order of their registration. -/
def of (q : QuasiImmut) (field : Nat) : List UnitHandle := (q.dependents.get? field).getD []

/-- Registers that a unit relies on a field, once. -/
def depend (q : QuasiImmut) (field : Nat) (h : UnitHandle) : QuasiImmut :=
  if (q.of field).contains h then q else ⟨q.dependents.insert field (q.of field ++ [h])⟩

theorem mem_of_depend {q : QuasiImmut} {f f' : Nat} {h h' : UnitHandle} :
    h' ∈ (q.depend f h).of f' ↔ h' ∈ q.of f' ∨ f' = f ∧ h' = h := by
  unfold depend
  split
  · grind
  · grind [of, Table.get?_insert]

/-- A write to a field: the units that rely on it are invalidated, and the answer counts them. -/
def invalidate (q : QuasiImmut) (r : Registry) (field : Nat) : Nat × QuasiImmut × Registry :=
  let units := (q.of field).filter r.isAlive
  (units.length, ⟨q.dependents.erase field⟩,
    units.foldl (fun r h => r.modify h fun u => { u with invalidated := true }) r)

end QuasiImmut

end HotLoop
