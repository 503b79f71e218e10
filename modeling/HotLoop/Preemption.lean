import HotLoop.Stop

/-!
# Critical sections

Interrupts are delivered at checkpoints, and not inside a critical section. One that is requested
meanwhile stays pending until a checkpoint outside all sections. The open sections are counted in 32
bits; when no more can be counted, opening another one is a fault.
-/

namespace HotLoop

/-- How many critical sections are open, and whether an interrupt waits. -/
@[ext]
structure Preemption where
  depth : UInt32 := 0
  pending : Bool := false
  deriving DecidableEq, Repr, Inhabited

namespace Preemption

/-- As many sections are open as can be counted. -/
def isFull (p : Preemption) : Bool := p.depth.toNat + 1 == UInt32.size

/-- Opens another section, for which there has to be a number. -/
def enter (p : Preemption) : Preemption := { p with depth := p.depth + 1 }

def inCriticalSection (p : Preemption) : Bool := 0 < p.depth

def leave (p : Preemption) : Preemption :=
  if p.inCriticalSection then { p with depth := p.depth - 1 } else p

def request (p : Preemption) : Preemption := { p with pending := true }

/-- Delivers a pending interrupt, unless a critical section is open. -/
def checkpoint (p : Preemption) : Except JitError Unit × Preemption :=
  if p.pending && !p.inCriticalSection then (.error .interrupted, { p with pending := false })
  else (.ok (), p)

theorem inCriticalSection_enter {p : Preemption} (h : p.isFull = false) :
    p.enter.inCriticalSection = true := by
  have hlt : p.depth.toNat < 2 ^ 32 := p.depth.toNat_lt
  have hne : p.depth.toNat + 1 ≠ 2 ^ 32 := by simpa [isFull, UInt32.size] using h
  have hnext : (p.depth + 1).toNat = p.depth.toNat + 1 := by
    rw [UInt32.toNat_add]
    exact Nat.mod_eq_of_lt (by simp; omega)
  have hpos : 0 < p.depth + 1 := UInt32.lt_iff_toNat_lt.mpr (by simp [hnext])
  exact decide_eq_true hpos

theorem leave_enter {p : Preemption} (h : p.isFull = false) : p.enter.leave = p := by
  rw [leave, if_pos (inCriticalSection_enter h)]
  simp [enter]

end Preemption

end HotLoop
