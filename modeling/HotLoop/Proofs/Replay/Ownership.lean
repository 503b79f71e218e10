import HotLoop.Proofs.Compile.Continuing
import HotLoop.Proofs.Compile.Ownership
import HotLoop.Proofs.Replay.Positions
import HotLoop.Proofs.Replay.Sending

/-!
# The guards of a replay belong to its driver

A replay records, compiles and handles failures with one driver. All guards that it submits are made
for that driver, whatever the file holds, so none that fails is foreign.
-/

namespace HotLoop

open Replay Recorder

section Calls

variable {file : TraceFile} {driver : Driver} {guards : GuardTable} {r : Recorder}

private theorem loop_owns (hdriver : driver.virtualizable = none) {args : List Arg} (c : Context)
    (hrun : runFrom (Run.recordLoop file driver) { guards } = (.ok args, r)) :
    Workbench.Sends (ownCode driver.id) (Run.compileLoop (Replayer.key file) args)
      ⟨c, { driver, history := r.history }⟩ := by
  obtain ⟨ops, hoperations, -, hline⟩ := recordLoop_registers hrun
  refine Run.compileLoop_goes fun w avoidUnroll hw _ => ?_
  have hserves : Workbench.Serves w.session driver.id :=
    ⟨by rw [hw.driver], by rw [hw.driver]; exact hdriver⟩
  refine (Workbench.compileLoop_owns hserves ?_).sends
  rw [List.drop_zero, hw.operations, hoperations]
  exact hline

private theorem entry_owns (hdriver : driver.virtualizable = none) {unit : UnitHandle}
    {entry : EntrySpec} {history : History} (c : Context)
    (hrun : runFrom (Replayer.recordEntry file driver unit entry) { guards } = (.ok history, r)) :
    Workbench.Sends (ownCode driver.id) (Workbench.compileTrace (.interpreter ⟨entry.greens⟩))
      ⟨c, { driver, history }⟩ := by
  obtain ⟨ops, closing, hoperations, hcloses, -, hline⟩ := recordEntry_registers hrun
  have hbridge : Workbench.OwnedBridge driver.id { driver, history } ops closing :=
    ⟨⟨rfl, hdriver⟩, hoperations, hline, hcloses.1, hcloses.2⟩
  exact (Workbench.compileTrace_owns (w := ⟨c, { driver, history }⟩) hbridge).sends

private theorem bridge_owns (hdriver : driver.virtualizable = none) {unit : Option UnitHandle}
    {bridge : BridgeSpec} {frame : DeadFrame} {history : History} (c : Context)
    (home : Option UnitHandle) (g : Guard)
    (hrun : runFrom (Replayer.recordBridge file driver unit bridge frame) { guards } =
      (.ok (some history), r)) :
    Workbench.Sends (ownCode driver.id) (Replayer.compileBridge file (.guard g))
      ⟨c, { driver, history, home }⟩ := by
  obtain ⟨ops, closing, hoperations, hcloses, -, hline⟩ := recordBridge_registers hrun
  have hbridge : Workbench.OwnedBridge driver.id { driver, history, home } ops closing :=
    ⟨⟨rfl, hdriver⟩, hoperations, hline, hcloses.1, hcloses.2⟩
  refine Replayer.compileBridge_sends
    (Workbench.compileTrace_owns (w := ⟨c, { driver, history, home }⟩) hbridge).sends ?_
  intro w closing' inputs args r' hw _ _ hagain
  have hcontinues := Workbench.compileTrace_continues (.guard g) ⟨c, { driver, history, home }⟩
  rw [← hw] at hcontinues
  obtain ⟨ops', hoperations', -, hline'⟩ := recordAgain_registers hagain
  obtain ⟨ops'', hops'', -⟩ := recordAgain_eq_ok hagain
  have hretrace : Workbench.OwnedRetrace driver.id { w.session with history := r'.history }
      w.session.history.operations.length := by
    refine ⟨⟨congrArg (·.id) hcontinues.driver, ?_⟩, ⟨_, .guard g, ops, closing, hbridge, rfl,
      by rw [hw], ?_⟩, ?_⟩
    · dsimp only
      rw [hcontinues.driver]
      exact hdriver
    · rw [← hw]
      exact hops''.next_le
    · dsimp only
      rw [hoperations', List.drop_left]
      rwa [hcontinues.driver] at hline'
  exact (Workbench.compileRetrace_owns (w :=
    ⟨{ w.context with guards := r'.guards }, { w.session with history := r'.history }⟩)
    hretrace).sends

end Calls

/-- All guards that a replay submits belong to its driver. -/
theorem TraceFile.sends_own (file : TraceFile) :
    file.Sends (ownCode file.jitDriver.id) file.jitDriver where
  loop c hrun := loop_owns rfl c hrun
  entry c hrun := entry_owns rfl c hrun
  bridge c home g _ _ _ hrun := bridge_owns rfl c home g hrun
  callback hcode := ownedBy_callbackCode hcode _

end HotLoop
