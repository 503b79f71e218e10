import HotLoop.Proofs.Compile.Sending
import HotLoop.Proofs.Consistency.Prologue

/-!
# Compile calls submit consistent code

Whatever a compile call submits has been checked. What is shown here is that the check never fails
for well recorded code: a call may give up, and the backend may refuse, but no call ends in a fault
that blames the code.
-/

namespace HotLoop

/-- Submitted code is wanted to be consistent, and not to be blamed for the opposite. -/
def consistentCode : CodeSpec where
  loop inputs ops := checkCode inputs ops = .ok ()
  bridge inputs ops := checkBranch (inputs.map (·.id)) ops = .ok ()
  blameless := True

/-- The object with the virtualizable fields, if there are any, is one of the red arguments. -/
def Driver.LoadsFromReds (driver : Driver) : Prop :=
  driver.virtualizable = none ∨ driver.virtualizableIndex < driver.redArgs

theorem Ready.sendable {inputs : List Var} {ops : List Operation} {values : ValueIds}
    {driver : Driver} (h : Ready inputs ops values.next) (hdriver : driver.LoadsFromReds) :
    Sendable consistentCode driver inputs ops values where
  asLoop t t' ht address hload := by
    have hready : HotLoop.Ready t.inputs t.operations t.values.next := by
      rw [ht.inputs, ht.operations, ht.values]
      exact h
    have hcheck := hready.check_of_loadVirtualizable ht.settled hdriver hload
    exact ⟨hcheck, fun _ => hcheck⟩
  asBridge := ⟨h.asBranch, fun _ => h.asBranch⟩

namespace Workbench

variable {w : Workbench} {opts : OptSet} {ops : List Operation} {jumpArgs : List Arg}

section Loops

variable {key : GreenKey} {inputs : List InputArg}

theorem wellClosed_jump {vars : List Var} {next : Nat} (args : List Arg) (descr : Descr) :
    WellClosed vars ops (.jump args descr) next where
  isFinal := rfl
  failVars := rfl
  result_lt _ hr := by cases hr
  result_new _ hr := by cases hr

theorem compileSimpleLoop_consistent (hdriver : w.session.driver.LoadsFromReds)
    (h : WellRecorded (inputs.map (·.var)) ops jumpArgs w.session.history.values.next) :
    Sound consistentCode (compileSimpleLoop key inputs ops jumpArgs opts) w := by
  refine compileSimpleLoop_sound fun unit entry result p code _ hwalk hredirect => ?_
  obtain ⟨hrun, rfl⟩ := simple_append_eq_ok h.straight rfl hwalk
  rw [redirectJump?_append rfl] at hredirect
  cases hredirect
  exact ((h.ready rfl (wellClosed_jump _ (.cell unit)) hrun (some (.target entry))).label
    (.target entry)).sendable hdriver

theorem compileUnrolledLoop_consistent (hdriver : w.session.driver.LoadsFromReds)
    (h : WellRecorded (inputs.map (·.var)) ops jumpArgs w.session.history.values.next)
    (hkeeps : KeepsExits (inputs.map (·.var)) ops jumpArgs) :
    Sound consistentCode (compileUnrolledLoop key inputs ops jumpArgs opts) w := by
  refine compileUnrolledLoop_sound
    fun unit entry state preamble shared result header p₁ p₂ _ hpre hvalues hpeeled hheader => ?_
  have hready := (h.ready_unrolled rfl hpre hvalues hpeeled hheader hkeeps).label (.target entry)
  rw [← List.append_assoc, ← List.append_assoc] at hready
  exact hready.sendable hdriver

theorem compileLoop_consistent {start : Nat} {avoidUnroll : Bool}
    (hdriver : w.session.driver.LoadsFromReds)
    (h : WellRecorded (inputs.map (·.var)) (w.session.history.operations.drop start) jumpArgs
      w.session.history.values.next)
    (hkeeps : avoidUnroll = false → w.enabled.contains .unroll = true →
      KeepsExits (inputs.map (·.var)) (w.session.history.operations.drop start) jumpArgs) :
    Sound consistentCode (compileLoop key start inputs jumpArgs avoidUnroll) w :=
  compileLoop_goes (fun _ => compileSimpleLoop_consistent hdriver h) fun havoid hunroll =>
    compileUnrolledLoop_consistent hdriver h (hkeeps havoid hunroll)

end Loops

section Bridges

variable {resumeKey : ResumeKey} {closing : Operation}

/-- The history of a session that traces a bridge: operations and the one that ends them. -/
structure RecordsBridge (session : Session) (ops : List Operation) (closing : Operation) : Prop where
  operations : session.history.operations = ops ++ [closing]
  recorded : WellRecorded session.history.inputVars ops closing.args session.history.values.next
  closed : WellClosed session.history.inputVars ops closing session.history.values.next

theorem compileTrace_consistent (hdriver : w.session.driver.LoadsFromReds)
    (h : RecordsBridge w.session ops closing) : Sound consistentCode (compileTrace resumeKey) w := by
  refine compileTrace_sound fun result p hstate hpass => ?_
  obtain ⟨hrun, hinputs, hresult⟩ :=
    exists_walk_of_tracePass h.operations h.recorded.straight h.closed.isFinal hpass
  obtain ⟨descr, -, hops, -⟩ | ⟨state, hstate', -⟩ := hresult
  · rw [hinputs, hops]
    exact (h.recorded.ready rfl h.closed hrun descr).sendable hdriver
  · cases hstate.symm.trans hstate'

/--
A session in which a bridge waits and the loop that it leads to has been recorded behind it. A
number stands for one variable, and what the loop computes is new.
-/
structure RecordsRetrace (session : Session) (start : Nat) (inputs : List Var)
    (jumpArgs : List Arg) : Prop where
  waits : ∃ (w : Workbench) (resumeKey : ResumeKey) (ops : List Operation) (closing : Operation),
    RecordsBridge w.session ops closing ∧
    w.LeavesWaiting resumeKey session ∧
    (∀ u ∈ inputs, ∀ v ∈ scopeAfter w.session.history.inputVars ops, u.id = v.id → u = v) ∧
    ∀ i ∈ resultIds (session.history.operations.drop start),
      i ∉ (scopeAfter w.session.history.inputVars ops).map (·.id)
  recorded : WellRecorded inputs (session.history.operations.drop start) jumpArgs
    session.history.values.next

theorem compileRetrace_consistent {key : GreenKey} {start : Nat} {inputs : List Var}
    (hdriver : w.session.driver.LoadsFromReds)
    (h : RecordsRetrace w.session start inputs jumpArgs) :
    Sound consistentCode (compileRetrace key start inputs jumpArgs resumeKey) w := by
  refine compileRetrace_sound
    fun unit bridge state shared result header p hwaiting hvalues hpeeled hheader => ?_
  obtain ⟨w₀, resumeKey₀, ops₀, closing₀, hbridge, hleaves, hsame, hfresh⟩ := h.waits
  obtain ⟨p₀, hrun, hinputs, hops, hforwarding, -, hend, hle⟩ := exists_walk_of_leavesWaiting
    hbridge.operations hbridge.recorded.straight hbridge.closed.isFinal hleaves hwaiting
  have hready := hbridge.recorded.ready_retraced rfl hrun hend (hvalues ▸ hle)
    (hvalues ▸ h.recorded.over) hpeeled hheader hsame hfresh
  rw [← hinputs, ← hops, ← List.append_assoc, ← List.append_assoc] at hready
  exact ⟨hforwarding, hready.sendable hdriver⟩

end Bridges

end Workbench

end HotLoop
