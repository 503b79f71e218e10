import HotLoop.Failure
import HotLoop.Proofs.Computation

/-!
# The failure of a guard, case by case

A guard that is never traced from, one that is being traced from, and one that is neither: what the
failure does by itself, and which hook goes on from there.
-/

namespace HotLoop

/-- However the computation ends, the change is made. -/
theorem runFrom_finally {σ α : Type} (x : JitM σ α) (change : σ → σ) (s : σ) :
    runFrom (x.finally change) s = ((runFrom x s).1, change (runFrom x s).2) := rfl

/-- The guard is never traced from. -/
def Guard.IsForced (g : Guard) : Prop := ∃ owner, g.kind = .forced owner

/-- Counting a failure decides whether it is traced. -/
def Context.countFailure (c : Context) (driver : Driver) (g : Guard) (frame : DeadFrame) :
    Bool × Context :=
  (c.modifyStats fun s => { s with guardFailures := s.guardFailures + 1 }).mustCompile driver g frame

def Context.countBlackhole (c : Context) : Context :=
  c.modifyStats fun s => { s with blackholes := s.blackholes + 1 }

/-- A bridge is being traced from the guard from now on. -/
def Context.startTracing (c : Context) (g : Guard) : Context :=
  { c with guards := c.guards.startTracing g }.modifyStats fun s =>
    { s with bridgeTraces := s.bridgeTraces + 1 }

def Context.doneTracing (c : Context) (g : Guard) : Context :=
  { c with guards := c.guards.doneTracing g }

namespace Hooks

variable {ω : Type} (hooks : Hooks ω) {driver : Driver} {g : Guard} (frame : DeadFrame)
  (s : Context × ω)

theorem handleGuard_foreign {owner : Nat} (hkind : g.kind = .forced owner)
    (howner : owner ≠ driver.id) :
    runFrom (hooks.handleGuard driver g frame) s = (.error (.fault .foreignDriver), s) := by
  unfold handleGuard
  rw [hkind]
  dsimp only
  rw [if_pos howner]
  rfl

/-- A guard behind a call hands over the objects that forcing has built, if it has. -/
theorem handleGuard_forced (hkind : g.kind = .forced driver.id) :
    runFrom (hooks.handleGuard driver g frame) s =
      runFrom (hooks.blackhole driver g frame.afterExit (some (frame.saved.getD [])))
        (s.1.countBlackhole, s.2) := by
  unfold handleGuard
  rw [hkind]
  dsimp only
  rw [if_neg (not_not_intro rfl)]
  rfl

theorem handleGuard_busy (hkind : ¬ g.IsForced) (hbusy : (s.1.guards.get g).busy = true) :
    runFrom (hooks.handleGuard driver g frame) s =
      runFrom (hooks.blackhole driver g frame none) s := by
  unfold handleGuard
  split
  · rename_i owner hforced
    exact absurd ⟨owner, hforced⟩ hkind
  · rw [runFrom_bind, runFrom_get]
    dsimp only
    rw [if_pos hbusy]

/-- Any other failure is counted, and is traced if it was one too many. -/
theorem handleGuard_idle (hkind : ¬ g.IsForced) (hbusy : (s.1.guards.get g).busy = false) :
    runFrom (hooks.handleGuard driver g frame) s =
      let counted := s.1.countFailure driver g frame
      if counted.1 then
        let r := runFrom (hooks.trace driver g frame) (counted.2.startTracing g, s.2)
        (r.1, r.2.1.doneTracing g, r.2.2)
      else runFrom (hooks.blackhole driver g frame none) (counted.2.countBlackhole, s.2) := by
  unfold handleGuard
  split
  · rename_i owner hforced
    exact absurd ⟨owner, hforced⟩ hkind
  · rw [runFrom_bind, runFrom_get]
    dsimp only
    rw [if_neg (by simp [hbusy])]
    unfold modifyContext countBlackhole
    simp only [runFrom_bind, runFrom_modify, runFrom_get, modifyContext]
    unfold Context.countFailure
    generalize Context.mustCompile _ driver g frame = counted
    obtain ⟨fired, c⟩ := counted
    cases fired <;> rfl

theorem handleFail_final {exit : FinalDescr} (hframe : frame.descr = .final exit) :
    runFrom (hooks.handleFail driver frame) s = (.ok (exit.exit frame), s) := by
  unfold handleFail
  rw [hframe]
  rfl

theorem handleFail_guard (hframe : frame.descr = .guard g) :
    runFrom (hooks.handleFail driver frame) s = runFrom (hooks.handleGuard driver g frame) s := by
  unfold handleFail
  rw [hframe]

end Hooks

end HotLoop
