import HotLoop.Compile.Submission

/-!
# Forcing

A call made by compiled code may need to see objects that the code keeps virtual. The frame is then
stopped, the objects are built from the resume data of its guard, and the frame is handed back with
them; the later failure of the guard picks them up. All that is one critical section, if one can be
opened. An interrupt that has been requested is delivered behind it.
-/

namespace HotLoop

namespace Context

def modifyPreemption (c : Context) (f : Preemption → Preemption) : Context :=
  { c with preemption := f c.preemption }

/-- Stops the frame of a token, builds its virtual objects on the heap, and hands it back. -/
def forceFrame {η : Type} [VirtualHeap η] (token : UInt64) : JitM (Context × η) Unit := do
  let (c, heap) ← get
  let (result, backend) := c.backend.force token
  let c := { c with backend }
  set (c, heap)
  let frame ← JitM.ofError result
  let .guard ⟨id, opcode, .forced driver⟩ := frame.descr
    | throw (.fault .notStoppedAtForcedGuard)
  let data := (c.guards.get ⟨id, opcode, .forced driver⟩).data
  let built := Reader.force data frame.values heap
  let backend := backend.install token { frame with saved := some built.cache }
  let stats := { c.stats with forcings := c.stats.forcings + 1 }
  set ({ c with backend, stats }, built.heap)

/-- Forces the frame of a token, and lets a pending interrupt through afterwards. -/
def forceNow {η : Type} [VirtualHeap η] (token : UInt64) : JitM (Context × η) Unit := do
  if (← get).1.preemption.isFull then throw (.fault .tooManySections)
  modify fun s => (s.1.modifyPreemption (·.enter), s.2)
  (forceFrame token).finally fun s => (s.1.modifyPreemption (·.leave), s.2)
  let (c, heap) ← get
  let (result, preemption) := c.preemption.checkpoint
  set ({ c with preemption }, heap)
  JitM.ofError result

end Context

end HotLoop
