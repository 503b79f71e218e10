import HotLoop.Proofs.Compile.Sending
import HotLoop.Proofs.Walk.Ownership

/-!
# Compile calls submit guards of their own driver

Whatever a compile call submits for a driver, no guard in it is made for another one, if this is
true of the guards that have been recorded.
-/

namespace HotLoop

/-- What is wanted of submitted code where the owners of guards are concerned. -/
def ownCode (driver : Nat) : CodeSpec where
  loop _ ops := ∀ op ∈ ops, op.OwnedBy driver
  bridge _ ops := ∀ op ∈ ops, op.OwnedBy driver
  blameless := False

theorem Sendable.of_ownedBy {owner : Nat} {driver : Driver} {inputs : List Var}
    {ops : List Operation} {values : ValueIds} (hdriver : driver.virtualizable = none)
    (h : ∀ op ∈ ops, op.OwnedBy owner) : Sendable (ownCode owner) driver inputs ops values where
  asLoop t t' ht address hload := by
    rw [(Trace.loadVirtualizable_eq_ok hload).2 hdriver, ht.operations]
    exact ⟨h, False.elim⟩
  asBridge := ⟨h, False.elim⟩

namespace Workbench

variable {w : Workbench} {owner : Nat} {opts : OptSet} {ops : List Operation}
  {jumpArgs : List Arg}

/-- Sessions of a driver that loads no fields. -/
structure Serves (session : Session) (owner : Nat) : Prop where
  id : session.driver.id = owner
  virtualizable : session.driver.virtualizable = none

section Loops

variable {key : GreenKey} {inputs : List InputArg}

theorem compileSimpleLoop_owns (hdriver : Serves w.session owner) (h : OwnedLine owner ops) :
    Sound (ownCode owner) (compileSimpleLoop key inputs ops jumpArgs opts) w := by
  refine compileSimpleLoop_sound fun unit entry result p code _ hwalk hredirect => ?_
  obtain ⟨hrun, rfl⟩ := simple_append_eq_ok h.inner rfl hwalk
  rw [redirectJump?_append rfl] at hredirect
  cases hredirect
  obtain ⟨rfl, hdriver⟩ := hdriver
  have hfront := List.forall_mem_cons.mpr ⟨Operation.ownedBy_label (inputs.map (·.var)) entry,
    OwnedLine.run (s := w.settings opts) h hrun⟩
  exact .of_ownedBy hdriver (ownedBy_append _ hfront (List.forall_mem_singleton.mpr rfl))

theorem compileUnrolledLoop_owns (hdriver : Serves w.session owner) (h : OwnedLine owner ops) :
    Sound (ownCode owner) (compileUnrolledLoop key inputs ops jumpArgs opts) w := by
  refine compileUnrolledLoop_sound
    fun unit entry state preamble shared result header p₁ p₂ _ hpre _ hpeeled hheader => ?_
  obtain ⟨last, hrun, -, rfl⟩ := preamble_eq_ok hpre
  obtain ⟨rfl, hdriver⟩ := hdriver
  have hfront := List.forall_mem_cons.mpr ⟨Operation.ownedBy_label (inputs.map (·.var)) entry,
    OwnedLine.run (s := w.settings opts) h hrun⟩
  exact .of_ownedBy hdriver
    (ownedBy_of_peeled (s := w.settings opts) hfront h.owned hpeeled hheader)

theorem compileLoop_owns {start : Nat} {avoidUnroll : Bool}
    (hdriver : Serves w.session owner)
    (h : OwnedLine owner (w.session.history.operations.drop start)) :
    Sound (ownCode owner) (compileLoop key start inputs jumpArgs avoidUnroll) w :=
  compileLoop_goes (fun _ => compileSimpleLoop_owns hdriver h) fun _ _ =>
    compileUnrolledLoop_owns hdriver h

end Loops

section Bridges

variable {resumeKey : ResumeKey} {closing : Operation}

/-- A recorded bridge with guards of its driver, and none at its end. -/
structure OwnedBridge (owner : Nat) (session : Session) (ops : List Operation)
    (closing : Operation) : Prop extends Serves session owner where
  operations : session.history.operations = ops ++ [closing]
  line : OwnedLine owner ops
  isFinal : closing.isFinal = true
  guard? : closing.guard? = none

theorem compileTrace_owns (h : OwnedBridge owner w.session ops closing) :
    Sound (ownCode owner) (compileTrace resumeKey) w := by
  refine compileTrace_sound fun result p hstate hpass => ?_
  obtain ⟨hrun, -, hresult⟩ :=
    exists_walk_of_tracePass h.operations h.line.inner h.isFinal hpass
  obtain ⟨descr, -, hops, hdescr⟩ | ⟨state, hstate', -⟩ := hresult
  · obtain ⟨⟨rfl, hdriver⟩, -, hline, -, hguard⟩ := h
    have hout := OwnedLine.run (s := w.settings w.enabled) hline hrun
    rw [hops]
    refine .of_ownedBy hdriver (ownedBy_append _ hout (List.forall_mem_singleton.mpr ?_))
    rcases hdescr with rfl | ⟨entry, rfl, -⟩
    · exact hguard
    · rfl
  · cases hstate.symm.trans hstate'

/-- A session in which a bridge waits that has been recorded for its driver, and so has its loop. -/
structure OwnedRetrace (owner : Nat) (session : Session) (start : Nat) : Prop
    extends Serves session owner where
  waits : ∃ (w : Workbench) (resumeKey : ResumeKey) (ops : List Operation) (closing : Operation),
    OwnedBridge owner w.session ops closing ∧ w.LeavesWaiting resumeKey session
  line : OwnedLine owner (session.history.operations.drop start)

theorem compileRetrace_owns {key : GreenKey} {start : Nat} {inputs : List Var}
    (h : OwnedRetrace owner w.session start) :
    Sound (ownCode owner) (compileRetrace key start inputs jumpArgs resumeKey) w := by
  refine compileRetrace_sound
    fun unit bridge state shared result header p hwaiting _ hpeeled hheader => ?_
  obtain ⟨w₀, resumeKey₀, ops₀, closing₀, hbridge, hleaves⟩ := h.waits
  obtain ⟨p₀, hrun, -, hops, hforwarding, -⟩ := exists_walk_of_leavesWaiting
    hbridge.operations hbridge.line.inner hbridge.isFinal hleaves hwaiting
  have hline : OwnedLine w₀.session.driver.id ops₀ := hbridge.id.symm ▸ hbridge.line
  have hout := OwnedLine.run (s := w₀.settings w₀.enabled) hline hrun
  have hid : (w₀.settings w₀.enabled).driver = owner := hbridge.id
  rw [hid] at hout
  obtain ⟨⟨rfl, hdriver⟩, -, hagain⟩ := h
  rw [← hops] at hout
  exact ⟨hforwarding, .of_ownedBy hdriver
    (ownedBy_of_peeled (s := w.settings w.enabled) hout hagain.owned hpeeled hheader)⟩

end Bridges

end Workbench

theorem ownedBy_callbackCode {driver : Driver} {greens : List Arg} {reds : List Kind}
    {inputs : List Var} {ops : List Operation}
    (h : callbackCode driver greens reds = .ok (inputs, ops)) (owner : Nat) :
    ∀ op ∈ ops, op.OwnedBy owner := by
  obtain ⟨result, -, -, rfl⟩ := callbackCode_eq_ok h
  intro op hop
  refine Operation.ownedBy_of_guard?_eq_none ?_
  simp only [List.mem_cons, List.not_mem_nil, or_false] at hop
  rcases hop with rfl | rfl | rfl <;> rfl

end HotLoop
