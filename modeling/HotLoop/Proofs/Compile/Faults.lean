import HotLoop.Proofs.Compile.Stopping
import HotLoop.Proofs.Consistency.Calls
import HotLoop.Proofs.Consistency.Silence
import HotLoop.Proofs.Walk.Faults

/-!
# Compile calls without faults

A compile call gives its trace up for what it is, or the backend refuses the code, and neither is a
fault. The call meets no broken assumption if its code has been recorded as it should be: arguments
and results have values, nothing reads the result of a check, and there are numbers left for a
second walk.
-/

namespace HotLoop

def Stop.Breaks (e : Stop) : Prop := e.IsFault ∧ ¬ e.Inconsistent

theorem Stop.not_breaks_error (e : JitError) : ¬ Stop.Breaks (.error e) := fun h =>
  Stop.not_isFault_error e h.1

namespace Submission

variable {s s' : Submission} {driver : Driver} {inputs : List InputArg} {session : Session}
  {key : Option GreenKey} {kind : String}

private theorem sendLoop_avoids (hdriver : driver.virtualizable = none) :
    Avoids Stop.Breaks (sendLoop key driver kind inputs) s := by
  refine ⟨trivial, fun e he ⟨hfault, hno⟩ => ?_⟩
  have hsending := loopSending driver inputs key kind s
  rw [he] at hsending
  cases hsending with
  | unsent _ _ _ _ _ hfault' =>
    obtain ⟨f, hload⟩ := (hfault' hfault).resolve_left hno
    rw [Trace.loadVirtualizable, hdriver] at hload
    cases hload

private theorem sendBridge_avoids (guard : Guard) (home : UnitHandle) :
    Avoids Stop.Breaks (sendBridge guard home) s := by
  refine ⟨trivial, fun e he ⟨hfault, hno⟩ => ?_⟩
  have hsending := bridgeSending guard home s
  rw [he] at hsending
  cases hsending with
  | unsent _ _ _ _ _ hfault' => exact hno (hfault' hfault)

private theorem onError_avoids {x : JitM Submission Unit} {change : Submission → Submission}
    (hx : Avoids Stop.Breaks x s) : Avoids Stop.Breaks (x.onError change) s := by
  have hstop := hx.2
  refine ⟨trivial, ?_⟩
  rw [runFrom_onError]
  generalize runFrom x s = r at hstop
  obtain ⟨answer, t⟩ := r
  rcases answer with (e | f) | _ <;> exact hstop

theorem sendNewLoop_avoids (key : GreenKey) (unit : UnitHandle)
    (hdriver : driver.virtualizable = none) :
    Avoids Stop.Breaks (sendNewLoop key driver inputs unit) s := by
  refine .bind_of_eq (runFrom_modify _) trivial ?_
  refine .bind_run (onError_avoids (sendLoop_avoids hdriver)) fun _ t hlaunch => ?_
  refine .bind_of_eq (runFrom_modifyContext _) trivial ?_
  have hhome := home_of_launch hlaunch
  obtain ⟨_, hrecord⟩ :=
    record_succeeds (s := { t with context := t.context.attach driver key unit }) hhome
  exact Avoids.of_ok (Prod.ext hrecord rfl)

private theorem attach_avoids (resumeKey : ResumeKey)
    (hdriver : session.driver.virtualizable = none) :
    Avoids Stop.Breaks (attach session resumeKey) s := by
  cases resumeKey with
  | guard guard =>
    refine .get_bind ?_
    cases session.home.filter s.context.registry.isAlive with
    | none => exact .throw (Stop.not_breaks_error _)
    | some home =>
      refine .bind_of_eq (runFrom_modifyTrace _) trivial ?_
      refine .bind_of_eq (runFrom_modify _) trivial ?_
      exact .bind (sendBridge_avoids guard home) fun _ _ _ => .modify trivial
  | interpreter key =>
    refine .get_bind ?_
    refine .bind_of_eq (runFrom_modify _) trivial (.bind_of_eq (runFrom_modify _) trivial ?_)
    exact .bind (onError_avoids (sendLoop_avoids hdriver)) fun _ _ _ => .modify trivial

theorem attach_record_avoids (resumeKey : ResumeKey) (between : JitM Submission Unit)
    (hbetween : ∀ t, ∃ context, runFrom between t = (.ok (), { t with context }))
    (hdriver : session.driver.virtualizable = none) :
    Avoids Stop.Breaks (do attach session resumeKey; between; record) s := by
  refine .bind_run (attach_avoids resumeKey hdriver) fun _ t hattach => ?_
  have hhome := home_of_attach hattach
  obtain ⟨context, heq⟩ := hbetween t
  refine .bind_of_eq heq trivial ?_
  obtain ⟨_, hrecord⟩ := record_succeeds (s := { t with context }) hhome
  exact Avoids.of_ok (Prod.ext hrecord rfl)

end Submission

structure SafelyRecorded (inputs : List Var) (ops : List Operation) (args : List Arg)
    (next : Nat) : Prop extends NoisilyRecorded inputs ops args next where
  solid : ∀ op ∈ ops, op.Solid
  values : ∀ a ∈ args, a.kind ≠ .void

theorem SafelyRecorded.solid_concat {inputs : List Var} {ops : List Operation}
    {closing : Operation} {next : Nat} (h : SafelyRecorded inputs ops closing.args next)
    (hclosing : closing.result = none) : ∀ op ∈ ops ++ [closing], op.Solid := by
  intro op hop
  rcases List.mem_append.mp hop with hop | hop
  · exact h.solid op hop
  · rw [List.mem_singleton.mp hop]
    refine ⟨h.values, fun r hr => ?_, fun _ r hr => ?_⟩
    · rw [hclosing] at hr
      cases hr
    · rw [hclosing] at hr
      cases hr

namespace Workbench

variable {w : Workbench} {α β : Type} {opts : OptSet} {pass : PassSettings → PassM Pass α}
  {trace : Trace} {ops : List Operation} {jumpArgs : List Arg}

private theorem Sound.avoids {x : CompileM α} (h : Sound consistentCode x w)
    (h' : Avoids Stop.Breaks x w) : Avoids Stop.IsFault x w :=
  (h.avoiding (h'.mono fun _ ⟨hfault, hno⟩ =>
    ⟨hfault, fun hblames => hno ⟨trivial, hblames⟩⟩)).avoids

section Passes

variable {unit : UnitHandle}
  (hpass : Avoids Rejection.IsFault (pass (w.settings opts)) (.ofShared w.shared))
  {next : Option α → CompileM β} (hnone : ∀ w', Avoids Stop.Breaks (next none) w')
  (hsome : ∀ a p, runFrom (pass (w.settings opts)) (.ofShared w.shared) = (.ok a, p) →
    Avoids Stop.Breaks (next (some a)) (w.afterPass p.shared))
include hpass

private theorem not_breaks_of_pass (f : Fault) (p : Pass)
    (h : runFrom (pass (w.settings opts)) (.ofShared w.shared) = (.error (.fault f), p)) :
    ¬ Stop.Breaks (.fault f) := absurd ⟨f, rfl⟩ (hpass.2 _ (congrArg Prod.fst h))

include hnone hsome

private theorem optimize_avoids : Avoids Stop.Breaks (optimize opts pass >>= next) w :=
  optimize_goes (R := Anyhow) (fun _ _ _ => trivial) (not_breaks_of_pass hpass) hnone hsome

private theorem optimizeFor_avoids : Avoids Stop.Breaks (optimizeFor unit opts pass >>= next) w :=
  optimizeFor_goes (R := Anyhow) (fun _ _ _ => trivial) (not_breaks_of_pass hpass) hnone hsome

end Passes

private theorem submitting_avoids {x : JitM Submission α} {b : β}
    (hx : Avoids Stop.Breaks x ⟨w.context, trace⟩) :
    Avoids Stop.Breaks (do let _ ← submitting trace x; return b) w := by
  refine .bind ⟨trivial, ?_⟩ fun _ _ _ => .pure _
  rw [runFrom_submitting]
  exact hx.2

section Loops

variable {key : GreenKey} {inputs : List InputArg}

private theorem submitLoop_avoids {driver : Driver} {unit : UnitHandle} {entry : EntryPoint}
    (hdriver : driver.virtualizable = none) :
    Avoids Stop.Breaks (do
      submitting trace (Submission.sendNewLoop key driver inputs unit)
      return some entry) w :=
  submitting_avoids (Submission.sendNewLoop_avoids key unit hdriver)

theorem compileSimpleLoop_avoids (hdriver : w.session.driver.virtualizable = none)
    (hmemo : w.session.memo = .empty) (hnodup : ((inputs.map (·.var)).map (·.id)).Nodup)
    (h : SafelyRecorded (inputs.map (·.var)) ops jumpArgs
      w.session.history.values.next) :
    Avoids Stop.IsFault (compileSimpleLoop key inputs ops jumpArgs opts) w := by
  refine Sound.avoids ?_ ?_
  · refine compileSimpleLoop_sound fun unit entry result p code _ hwalk hredirect => ?_
    obtain ⟨hrun, rfl⟩ := simple_append_eq_ok h.straight rfl hwalk
    rw [redirectJump?_append rfl] at hredirect
    cases hredirect
    have hready := ((h.wellRecorded hnodup).ready rfl (wellClosed_jump _ (.cell unit))
      ((Pass.run_silence ops).symm ▸ hrun) (some (.target entry))).label (.target entry)
    exact hready.sendable (.inl hdriver)
  · refine .get_bind (.bind_of_eq runFrom_makeUnit trivial ?_)
    have hsolid (unit : UnitHandle) : ∀ op ∈ ops ++ [.jump jumpArgs (.cell unit)], op.Solid :=
      SafelyRecorded.solid_concat h rfl
    refine optimizeFor_avoids (Pass.simple_avoids hmemo rfl .empty (hsolid _)) (fun _ => .pure _)
      fun result p hwalk => ?_
    refine .bind_of_eq (runFrom_makeEntry ..) trivial ?_
    obtain ⟨-, rfl⟩ := simple_append_eq_ok h.straight rfl hwalk
    rw [redirectJump?_append rfl]
    refine .bind_of_eq runFrom_newTrace trivial ?_
    exact .bind_of_eq (runFrom_modifyContext _) trivial (submitLoop_avoids hdriver)

theorem compileUnrolledLoop_avoids (hdriver : w.session.driver.virtualizable = none)
    (hmemo : w.session.memo = .empty) (hnodup : ((inputs.map (·.var)).map (·.id)).Nodup)
    (h : SafelyRecorded (inputs.map (·.var)) ops jumpArgs
      w.session.history.values.next) (hkeeps : KeepsExits (inputs.map (·.var)) ops jumpArgs)
    (hroom : w.session.history.values.next + jumpArgs.length + ops.length ≤ ValueIds.limit) :
    Avoids Stop.IsFault (compileUnrolledLoop key inputs ops jumpArgs opts) w := by
  refine Sound.avoids ?_ ?_
  · refine compileUnrolledLoop_sound
      fun unit entry state preamble shared result header p₁ p₂ _ hpre hvalues hpeeled hheader => ?_
    have hready := ((h.wellRecorded hnodup).ready_unrolled rfl
      ((Pass.preamble_silence ..).symm ▸ hpre) hvalues ((Pass.peeled_silence ..).symm ▸ hpeeled)
      hheader hkeeps.silence).label (.target entry)
    rw [← List.append_assoc, ← List.append_assoc] at hready
    exact hready.sendable (.inl hdriver)
  · refine .get_bind (.bind_of_eq runFrom_makeUnit trivial ?_)
    refine optimizeFor_avoids (Pass.preamble_avoids hmemo rfl .empty h.solid) (fun _ => .pure _) ?_
    rintro ⟨state, preamble⟩ p₁ hpre
    obtain ⟨last, hrun, hend, -⟩ := preamble_eq_ok hpre
    obtain ⟨hsolid, -, hsame⟩ := Pass.solid_of_run hmemo .empty h.solid hrun
    have hroom : p₁.shared.values.next + jumpArgs.length + ops.length ≤ ValueIds.limit := by
      rwa [hsame rfl]
    refine optimizeFor_avoids (Pass.peeled_avoids hmemo .empty h.solid ?_ ?_) (fun _ => .pure _)
      fun result p₂ hpeeled => ?_
    · rw [hend]
      intro a ha
      obtain ⟨b, hb, rfl⟩ := List.mem_map.mp ha
      exact hsolid.resolve (h.values b hb)
    · rw [hend, List.length_map]
      exact hroom
    · obtain ⟨header, q, r, hinto⟩ := peeled_eq_ok hpeeled
      dsimp only
      rw [hinto.isHeader]
      refine .bind_of_eq (runFrom_makeEntry ..) trivial ?_
      refine .bind_of_eq runFrom_newTrace trivial ?_
      exact .bind_of_eq (runFrom_modifyContext _) trivial (submitLoop_avoids hdriver)

/-- Only a loop that is unrolled has to keep what its guards hand over. -/
theorem compileLoop_avoids {start : Nat} {avoidUnroll : Bool}
    (hdriver : w.session.driver.virtualizable = none) (hmemo : w.session.memo = .empty)
    (hnodup : ((inputs.map (·.var)).map (·.id)).Nodup)
    (h : SafelyRecorded (inputs.map (·.var))
      (w.session.history.operations.drop start) jumpArgs w.session.history.values.next)
    (hunroll : avoidUnroll = false → w.enabled.contains .unroll = true →
      KeepsExits (inputs.map (·.var)) (w.session.history.operations.drop start) jumpArgs ∧
      w.session.history.values.next + jumpArgs.length +
        (w.session.history.operations.drop start).length ≤ ValueIds.limit) :
    Avoids Stop.IsFault (compileLoop key start inputs jumpArgs avoidUnroll) w := by
  refine compileLoop_goes (fun _ => compileSimpleLoop_avoids hdriver hmemo hnodup h)
    fun havoid hopts => ?_
  obtain ⟨hkeeps, hroom⟩ := hunroll havoid hopts
  exact compileUnrolledLoop_avoids hdriver hmemo hnodup h hkeeps hroom

end Loops

section Bridges

variable {resumeKey : ResumeKey} {closing : Operation}

/-- What ends a recorded bridge: it passes values on, and has neither a result nor exits. -/
structure EndsBridge (closing : Operation) : Prop where
  isFinal : closing.isFinal = true
  result : closing.result = none
  failArgs : closing.failArgs = none

theorem EndsBridge.wellClosed (h : EndsBridge closing) (inputs : List Var) (ops : List Operation)
    (next : Nat) : WellClosed inputs ops closing next where
  isFinal := h.isFinal
  failVars := by
    rw [Operation.failVars, Operation.failSlots, h.failArgs]
    rfl
  result_lt r hr := by
    rw [h.result] at hr
    cases hr
  result_new r hr := by
    rw [h.result] at hr
    cases hr

/-- A bridge at which nothing breaks, in the session that has recorded it. -/
structure SafeBridge (session : Session) (ops : List Operation) (closing : Operation) : Prop where
  operations : session.history.operations = ops ++ [closing]
  nodup : (session.history.inputVars.map (·.id)).Nodup
  recorded : SafelyRecorded session.history.inputVars ops closing.args
    session.history.values.next
  ends : EndsBridge closing
  memo : session.memo = .empty

theorem compileTrace_avoids (hdriver : w.session.driver.virtualizable = none)
    (h : SafeBridge w.session ops closing) : Avoids Stop.IsFault (compileTrace resumeKey) w := by
  refine Sound.avoids ?_ ?_
  · refine compileTrace_sound fun result p hstate hpass => ?_
    obtain ⟨hrun, hinputs, hresult⟩ :=
      exists_walk_of_tracePass h.operations h.recorded.straight h.ends.isFinal hpass
    obtain ⟨descr, -, hops, -⟩ | ⟨state, hstate', -⟩ := hresult
    · have hready := (h.recorded.wellRecorded h.nodup).ready rfl (h.ends.wellClosed ..)
        ((Pass.run_silence ops).symm ▸ hrun) descr
      rw [hinputs, hops]
      exact hready.sendable (.inl hdriver)
    · cases hstate.symm.trans hstate'
  · have hsolid := h.recorded.solid_concat h.ends.result
    rw [← h.operations] at hsolid
    unfold Avoids Goes
    rw [runFrom_compileTrace]
    refine optimize_avoids ?_ (fun _ => .pure _) fun result p hpass => ?_
    · rw [tracePass]
      split
      · exact Pass.bridge_avoids _ _ h.memo rfl .empty hsolid
      · exact Pass.simple_avoids h.memo rfl .empty hsolid
    · refine .bind_of_eq runFrom_newTrace trivial ?_
      cases result.state with
      | none =>
        refine .get_bind (submitting_avoids ?_)
        exact Submission.attach_record_avoids resumeKey (Pure.pure ())
          (fun t => ⟨t.context, rfl⟩) hdriver
      | some state =>
        dsimp only
        split
        · refine .bind_of_eq (runFrom_modifyContext _) trivial ?_
          exact .bind_of_eq (runFrom_modifySession _) trivial (.pure _)
        · exact .pure _

theorem values_of_waiting (h : SafeBridge w.session ops closing) (hnone : w.session.waiting = none)
    {waiting : Trace × ExportedState}
    (hwaiting : (runFrom (compileTrace resumeKey) w).2.session.waiting = some waiting) :
    (runFrom (compileTrace resumeKey) w).2.session.history.values =
      w.session.history.values := by
  obtain ⟨result, p, hpass, -, -, hvalues⟩ := exists_pass_of_waiting hnone hwaiting
  obtain ⟨hrun, -⟩ :=
    exists_walk_of_tracePass h.operations h.recorded.straight h.ends.isFinal hpass
  obtain ⟨-, -, hsame⟩ := Pass.solid_of_run h.memo .empty h.recorded.solid hrun
  exact hvalues.trans (hsame rfl)

/--
A session in which a bridge waits and the loop that it leads to has been recorded behind it. A
number stands for one variable, and what the loop computes is new.
-/
structure SafeRetrace (session : Session) (start : Nat) (inputs : List Var)
    (jumpArgs : List Arg) : Prop where
  waits : ∃ (w : Workbench) (resumeKey : ResumeKey) (ops : List Operation) (closing : Operation),
    SafeBridge w.session ops closing ∧
    w.LeavesWaiting resumeKey session ∧
    (∀ u ∈ inputs, ∀ v ∈ scopeAfter w.session.history.inputVars ops, u.id = v.id → u = v) ∧
    (∀ i ∈ resultIds (session.history.operations.drop start),
      i ∉ (scopeAfter w.session.history.inputVars ops).map (·.id)) ∧
    session.history.values.next + closing.args.length +
      (session.history.operations.drop start).length ≤ ValueIds.limit
  recorded : SafelyRecorded inputs (session.history.operations.drop start)
    jumpArgs session.history.values.next
  memo : session.memo = .empty

theorem compileRetrace_avoids {key : GreenKey} {start : Nat} {inputs : List Var}
    (hdriver : w.session.driver.virtualizable = none)
    (h : SafeRetrace w.session start inputs jumpArgs) :
    Avoids Stop.IsFault (compileRetrace key start inputs jumpArgs resumeKey) w := by
  obtain ⟨w₀, resumeKey₀, ops₀, closing₀, hbridge, hleaves, hsame, hfresh, hroom⟩ := h.waits
  refine Sound.avoids ?_ ?_
  · refine compileRetrace_sound
      fun unit bridge state shared result header p hwaiting hvalues hpeeled hheader => ?_
    obtain ⟨p₀, hrun, hinputs, hops, hforwarding, -, hend, hle⟩ := exists_walk_of_leavesWaiting
      hbridge.operations hbridge.recorded.straight hbridge.ends.isFinal hleaves hwaiting
    have hready := (hbridge.recorded.wellRecorded hbridge.nodup).ready_retraced rfl
      ((Pass.run_silence ops₀).symm ▸ hrun) hend (hvalues ▸ hle) (hvalues ▸ h.recorded.over)
      ((Pass.peeled_silence ..).symm ▸ hpeeled) hheader
      (by rwa [scopeAfter_silence]) fun i hi => by
        rw [scopeAfter_silence]
        exact hfresh i ((resultIds_silence_sublist _).subset hi)
    rw [← hinputs, ← hops, ← List.append_assoc, ← List.append_assoc] at hready
    exact ⟨hforwarding, hready.sendable (.inl hdriver)⟩
  · refine compileRetrace_goes (R := Anyhow) (fun _ _ _ => trivial) (Stop.not_breaks_error _)
      fun unit bridge state hwaiting => ?_
    obtain ⟨p₀, hrun, -, -, -, -, hend, -⟩ := exists_walk_of_leavesWaiting
      hbridge.operations hbridge.recorded.straight hbridge.ends.isFinal hleaves hwaiting
    obtain ⟨hsolid, -⟩ := Pass.solid_of_run hbridge.memo .empty hbridge.recorded.solid hrun
    refine optimize_avoids (Pass.peeled_avoids h.memo .empty h.recorded.solid ?_ ?_)
      (fun _ => .pure _) fun result p hpeeled => ?_
    · rw [hend]
      intro a ha
      obtain ⟨b, hb, rfl⟩ := List.mem_map.mp ha
      exact hsolid.resolve (hbridge.recorded.values b hb)
    · rw [hend, List.length_map]
      exact hroom
    · obtain ⟨header, q, r, hinto⟩ := peeled_eq_ok hpeeled
      dsimp only [Option.elim]
      rw [finishRetrace, hinto.isHeader]
      refine .get_bind (submitting_avoids ?_)
      exact Submission.attach_record_avoids resumeKey _
        (fun _ => ⟨_, Submission.runFrom_modifyContext _⟩) hdriver

end Bridges

end Workbench

section Callbacks

variable {driver : Driver} {greens : List Arg} {reds : List Kind}

private theorem freshVars_of_le {ids : ValueIds} (h : ids.next + reds.length ≤ ValueIds.limit) :
    ∃ vars, freshVars ids reds = .ok (vars, ⟨ids.next + reds.length⟩) := by
  induction reds generalizing ids with
  | nil => exact ⟨[], rfl⟩
  | cons k reds ih =>
    rw [List.length_cons] at h ⊢
    have hrest : (⟨ids.next + 1⟩ : ValueIds).next + reds.length ≤ ValueIds.limit := by
      dsimp only
      omega
    obtain ⟨vars, hvars⟩ := ih hrest
    refine ⟨⟨ids.next, k⟩ :: vars, ?_⟩
    have hlt : ids.next < ValueIds.limit := by omega
    rw [freshVars, ValueIds.fresh_of_lt hlt, Nat.add_comm reds.length, ← Nat.add_assoc]
    simp only [bind, Except.bind, hvars]
    rfl

private theorem exists_callbackCode (driver : Driver) (greens : List Arg)
    (h : reds.length < ValueIds.limit) :
    ∃ code, callbackCode driver greens reds = .ok code := by
  have hroom : ({} : ValueIds).next + reds.length ≤ ValueIds.limit := by
    rw [Nat.zero_add]
    exact Nat.le_of_lt h
  obtain ⟨vars, hvars⟩ := freshVars_of_le hroom
  rw [callbackCode, hvars]
  simp only [bind, Except.bind]
  split
  · exact ⟨_, rfl⟩
  · have hlt : (⟨({} : ValueIds).next + reds.length⟩ : ValueIds).next < ValueIds.limit := by
      rwa [Nat.zero_add]
    rw [ValueIds.fresh_of_lt hlt]
    exact ⟨_, rfl⟩

theorem Context.compileCallback_avoids {c : Context} (hlength : reds.length = driver.redArgs)
    (hvoid : .void ∉ reds) (hroom : reds.length < ValueIds.limit) :
    Avoids Stop.IsFault (compileCallback driver greens reds) c := by
  rw [compileCallback]
  split
  · rename_i hshape
    simp [hlength, hvoid] at hshape
  · refine .get_bind ?_
    generalize c.makeUnit driver = made
    obtain ⟨unit, c₁⟩ := made
    obtain ⟨⟨inputs, ops⟩, hcode⟩ := exists_callbackCode driver greens hroom
    refine .bind_of_eq (runFrom_set c₁) trivial ?_
    rw [hcode]
    refine .bind_of_eq (t := c₁) rfl trivial ?_
    dsimp only
    split
    · exact .bind (.set trivial) fun _ _ _ => .throw (Stop.not_isFault_error _)
    · exact .bind (.set trivial) fun _ _ _ => .pure _

end Callbacks

end HotLoop
