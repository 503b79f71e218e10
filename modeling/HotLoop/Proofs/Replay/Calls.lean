import HotLoop.Proofs.Compile.Continuing
import HotLoop.Proofs.Replay.Lines
import HotLoop.Proofs.Replay.Sending

/-!
# The compile calls of a replay break nothing

A replay compiles what it has recorded: its loop, twice if need be, the entries from the
interpreter, and the bridges, each with its loop once more if it waits. Nothing breaks there as long
as the lines of the file are safe and there are numbers left for all of them.
-/

namespace HotLoop

open Replay Recorder

theorem SafelyRecorded.mono {inputs : List Var} {ops : List Operation} {args : List Arg}
    {n n' : Nat} (h : SafelyRecorded inputs ops args n) (hle : n ≤ n') :
    SafelyRecorded inputs ops args n' where
  inScope := h.inScope
  args_inScope := h.args_inScope
  inputs_lt v hv := Nat.lt_of_lt_of_le (h.inputs_lt v hv) hle
  resultIds_lt i hi := Nat.lt_of_lt_of_le (h.resultIds_lt i hi) hle
  once := h.once
  straight := h.straight
  exits := h.exits
  solid := h.solid
  values := h.values

section Calls

variable {file : TraceFile} {driver : Driver} {guards : GuardTable} {r : Recorder}

/-- Where it is unrolled the loop takes numbers for a second walk, and keeps its exits. -/
theorem Run.compileLoop_avoids (hdriver : driver.virtualizable = none)
    (hvalues : ∀ i ∈ file.inputs, i.value.kind ≠ .void) (hline : SafeLine file.body file.jump)
    (hroom : file.inputs.length + file.jump.length + 2 * file.body.length ≤ ValueIds.limit)
    {args : List Arg} (c : Context)
    (hkeeps : (c.warmState driver).opts.contains .unroll = true →
      KeepsExits r.history.inputVars r.history.operations args)
    (hrun : runFrom (Run.recordLoop file driver) { guards } = (.ok args, r)) :
    Avoids Stop.IsFault (Run.compileLoop (Replayer.key file) args)
      ⟨c, { driver, history := r.history }⟩ := by
  obtain ⟨q, vars, ops, henters, hops, hargs⟩ := recordLoop_eq_ok hrun
  obtain ⟨hinputs, hoperations⟩ := henters.history hops
  have hrecorded : SafelyRecorded vars ops args r.history.values.next :=
    henters.safelyRecorded (fun e he => by
      obtain ⟨i, hi, rfl⟩ := List.mem_map.mp he
      exact hvalues i hi) hops hline hargs
  have hnext : r.history.values.next + args.length + ops.length ≤ ValueIds.limit := by
    have hnext := hops.next_le_add
    have hlength := congrArg List.length hargs
    rw [List.length_map, List.length_map] at hlength
    rw [henters.next, List.length_map] at hnext
    rw [hops.length_eq, ← hlength]
    dsimp only at hnext
    omega
  rw [hinputs, hoperations] at hkeeps
  refine compileLoop_goes fun w avoidUnroll hw hfirst => ?_
  have hdrop : w.session.history.operations.drop 0 = ops := by
    rw [List.drop_zero, hw.operations, hoperations]
  have hvars : r.history.inputs.map (·.var) = vars := hinputs
  refine Workbench.compileLoop_avoids (by rw [hw.driver]; exact hdriver) hw.memo
    (hvars ▸ henters.nodup) ?_ fun hunroll henabled => ?_
  · dsimp only
    rw [hdrop, hvars]
    exact hrecorded.mono hw.next_le
  · -- only the first attempt unrolls, and it starts with the numbers that the recording has left
    obtain rfl := hfirst hunroll
    dsimp only at hdrop ⊢
    rw [hdrop, hvars]
    exact ⟨hkeeps henabled, hnext⟩

theorem Replayer.compileEntry_avoids (hdriver : driver.virtualizable = none) {unit : UnitHandle}
    {entry : EntrySpec} {history : History}
    (hvalues : ∀ i ∈ entry.inputs, i.value.kind ≠ .void) (hline : SafeLine entry.ops entry.jump)
    (c : Context)
    (hrun : runFrom (Replayer.recordEntry file driver unit entry) { guards } = (.ok history, r)) :
    Avoids Stop.IsFault (Workbench.compileTrace (.interpreter ⟨entry.greens⟩))
      ⟨c, { driver, history }⟩ := by
  obtain ⟨q, q', vars, ops, args, henters, hops, hargs, rfl⟩ := recordEntry_eq_ok hrun
  obtain ⟨rfl, hoperations⟩ := henters.history hops
  have hbridge : Workbench.SafeBridge { driver, history := { q'.history with
      operations := q'.history.operations ++ [.jump args (.cell unit)] } } ops
        (.jump args (.cell unit)) := {
    operations := congrArg (· ++ [.jump args (.cell unit)]) hoperations
    nodup := henters.nodup
    recorded := henters.safelyRecorded (fun e he => by
      obtain ⟨i, hi, rfl⟩ := List.mem_map.mp he
      exact hvalues i hi) hops hline hargs
    ends := ⟨rfl, rfl, rfl⟩
    memo := rfl }
  exact Workbench.compileTrace_avoids hdriver hbridge

section Bridges

variable {bridge : BridgeSpec} {frame : DeadFrame} {q q' : Recorder} {vars : List Var}
  {ops : List Operation} {closing : Operation}

private theorem safeBridge_of_records {home : Option UnitHandle}
    (hvalues : ∀ x ∈ frame.values, x.kind ≠ .void)
    (hline : ∀ specs, bridge.closing? = some specs → SafeLine bridge.ops specs)
    (henters : Enters (bridge.inputs.zip frame.values) { guards } q vars)
    (hops : Records bridge.ops q q' ops) (hend : BridgeEnd bridge q'.names closing) :
    Workbench.SafeBridge { driver, home, history := { q'.history with
      operations := q'.history.operations ++ [closing] } } ops closing := by
  obtain ⟨hinputs, hoperations⟩ := henters.history hops
  obtain ⟨hends, specs, hspecs, hargs⟩ := hend.passesOn
  exact {
    operations := congrArg (· ++ [closing]) hoperations
    nodup := hinputs.symm ▸ henters.nodup
    recorded := hinputs.symm ▸ henters.safelyRecorded
      (fun e he => hvalues _ (List.of_mem_zip he).2) hops (hline specs hspecs) hargs
    ends := hends
    memo := rfl }

private theorem mem_scope_of_mapM {session : Session} {inputs : List Var}
    (h : Workbench.SafeBridge session ops closing)
    (hinputs : closing.args.mapM Arg.var? = some inputs) {v : Var} (hv : v ∈ inputs) :
    v ∈ scopeAfter session.history.inputVars ops ∧ v.id < session.history.values.next ∧
      v.kind ≠ .void := by
  have hmem : Arg.var v ∈ closing.args := by
    rw [eq_map_var_of_mapM hinputs]
    exact List.mem_map_of_mem hv
  have hscope := h.recorded.args_inScope v (Arg.mem_filterMap_var?_iff.mpr hmem)
  refine ⟨hscope, ?_, h.recorded.values _ hmem⟩
  exact lt_of_mem_scopeAfter h.recorded.inputs_lt
    (fun op hop u hu => h.recorded.resultIds_lt u.id (mem_resultIds hop hu)) v hscope

private theorem safeRetrace_of_records {w w' : Workbench} {resumeKey : ResumeKey}
    {inputs : List Var} {args : List Arg} {ops' : List Operation}
    (hbridge : Workbench.SafeBridge w.session ops closing) (hnone : w.session.waiting = none)
    (hw : w' = (runFrom (Workbench.compileTrace resumeKey) w).2)
    (hinputs : closing.args.mapM Arg.var? = some inputs) (hloop : SafeLine file.body file.jump)
    (hops : Records file.body {
      guards
      history := w'.session.history
      names := Table.empty.insertAll ((file.inputs.map (·.name)).zip inputs) } r ops')
    (hargs : file.jump.map (·.value? r.names) = args.map some)
    (hroom : w'.session.history.values.next + closing.args.length + 2 * file.body.length ≤
      ValueIds.limit) :
    Workbench.SafeRetrace { w'.session with history := r.history }
      w'.session.history.operations.length inputs args := by
  have hcontinues := Workbench.compileTrace_continues resumeKey w
  rw [← hw] at hcontinues
  have hdrop : r.history.operations.drop w'.session.history.operations.length = ops' := by
    rw [hops.operations]
    exact List.drop_left
  have hscope {v : Var} (hv : v ∈ inputs) := mem_scope_of_mapM hbridge hinputs hv
  have hnodup : ((scopeAfter w.session.history.inputVars ops).map (·.id)).Nodup :=
    hbridge.recorded.inScope.nodup_scopeAfter hbridge.nodup
  refine ⟨⟨w, resumeKey, ops, closing, hbridge, ⟨hnone, by rw [hw], ?_⟩, fun u hu v hv hid => ?_,
    fun i hi hmem => ?_, ?_⟩, ?_, hcontinues.memo.trans hbridge.memo⟩
  · rw [← hw]
    exact hops.next_le
  · exact List.inj_on_of_nodup_map hnodup (hscope hu).1 hv hid
  · dsimp only at hi
    rw [hdrop] at hi
    obtain ⟨op, hop, v, hv, rfl⟩ := exists_of_mem_resultIds hi
    obtain ⟨u, hu, hid⟩ := List.mem_map.mp hmem
    have hlt := lt_of_mem_scopeAfter hbridge.recorded.inputs_lt
      (fun op hop u hu => hbridge.recorded.resultIds_lt u.id (mem_resultIds hop hu)) u hu
    have hge : w'.session.history.values.next ≤ v.id := (hops.result_ge op hop v hv).1
    have hle := hcontinues.next_le
    omega
  · dsimp only
    have hnext : r.history.values.next ≤ w'.session.history.values.next + file.body.length :=
      hops.next_le_add
    rw [hdrop, hops.length_eq]
    omega
  · dsimp only
    rw [hdrop]
    refine hops.safelyRecorded rfl (fun e he => (List.of_mem_zip he).2) (fun v hv => ?_)
      (fun v hv => (hscope hv).2.2) hloop hargs
    exact Nat.lt_of_lt_of_le (hscope hv).2.1 hcontinues.next_le

namespace Replayer

theorem recording_avoids {σ α : Type} {view : σ → Context} {put : Context → σ → σ}
    {start : Recorder} {x : RecordM α} {s : σ}
    (hx : Avoids RecordStop.IsFault x { start with guards := (view s).guards }) :
    Avoids Stop.IsFault (recording view put start x) s := by
  have hstop := hx.2
  unfold recording
  refine .get_bind ?_
  cases hrun : runFrom x { start with guards := (view s).guards } with
  | mk answer r =>
    rw [hrun] at hstop
    have hrun' : x { start with guards := (view s).guards } = (answer, r) := hrun
    dsimp only
    rw [hrun']
    refine .bind_of_eq (runFrom_modify _) trivial ?_
    rcases answer with (e | f) | a
    · exact .pure _
    · exact absurd ⟨f, rfl⟩ (hstop _ rfl)
    · exact .pure _

private theorem retrace_avoids {w w' : Workbench} {resumeKey : ResumeKey}
    (hdriver : w.session.driver.virtualizable = none)
    (hbridge : Workbench.SafeBridge w.session ops closing) (hnone : w.session.waiting = none)
    (hw : w' = (runFrom (Workbench.compileTrace resumeKey) w).2) (hwaits : w'.session.waiting.isSome)
    (hloop : SafeLine file.body file.jump)
    (hroom : w.session.history.values.next + closing.args.length + 2 * file.body.length ≤
      ValueIds.limit) :
    Avoids Stop.IsFault (retrace file resumeKey) w' := by
  obtain ⟨waiting, hwaiting⟩ := Option.isSome_iff_exists.mp hwaits
  have hcontinues := Workbench.compileTrace_continues resumeKey w
  rw [hw] at hwaiting
  rw [← Workbench.values_of_waiting hbridge hnone hwaiting] at hroom
  rw [← hw] at hcontinues hroom
  have hlast : w'.session.history.operations.getLast? = some closing := by
    rw [hcontinues.operations, hbridge.operations, List.getLast?_concat]
  unfold retrace
  refine .get_bind ?_
  dsimp only
  rw [hlast]
  dsimp only
  cases hinputs : closing.args.mapM Arg.var? with
  | none => exact .bind_of_eq Workbench.runFrom_takeWaiting trivial (.pure _)
  | some inputs =>
    refine .bind_run (recording_avoids (recordAgain_avoids (by dsimp only; omega)))
      fun answer t hrecord => ?_
    rcases answer with ⟨e | args, r'⟩
    · refine .bind_of_eq (Workbench.runFrom_modifySession _) trivial ?_
      exact .bind_of_eq Workbench.runFrom_takeWaiting trivial (.pure _)
    · obtain ⟨hagain, rfl⟩ := recording_eq_ok hrecord
      obtain ⟨ops', hops', hargs'⟩ := recordAgain_eq_ok hagain
      refine .bind_of_eq (Workbench.runFrom_modifySession _) trivial ?_
      have hretrace := safeRetrace_of_records hbridge hnone hw hinputs hloop hops' hargs' hroom
      refine .bind (Workbench.compileRetrace_avoids ?_ hretrace) fun _ _ _ => .pure _
      dsimp only
      rw [hcontinues.driver]
      exact hdriver

theorem compileBridge_avoids (hdriver : driver.virtualizable = none)
    (hvalues : ∀ x ∈ frame.values, x.kind ≠ .void) (hloop : SafeLine file.body file.jump)
    (hline : ∀ specs, bridge.closing? = some specs → SafeLine bridge.ops specs)
    (hroom : ∀ specs, bridge.closing? = some specs → bridge.inputs.length + bridge.ops.length +
      specs.length + 2 * file.body.length ≤ ValueIds.limit)
    {unit : Option UnitHandle} {history : History} (c : Context) (home : Option UnitHandle)
    (resumeKey : ResumeKey)
    (hrun : runFrom (recordBridge file driver unit bridge frame) { guards } =
      (.ok (some history), r)) :
    Avoids Stop.IsFault (compileBridge file resumeKey) ⟨c, { driver, history, home }⟩ := by
  obtain ⟨q, q', vars, ops, closing, henters, hops, hend, rfl⟩ := recordBridge_eq_ok hrun
  have hbridge : Workbench.SafeBridge { driver, home, history := { q'.history with
      operations := q'.history.operations ++ [closing] } } ops closing :=
    safeBridge_of_records hvalues hline henters hops hend
  obtain ⟨-, specs, hspecs, hargs⟩ := hend.passesOn
  have hnext : q'.history.values.next + closing.args.length + 2 * file.body.length ≤
      ValueIds.limit := by
    have hroom := hroom specs hspecs
    have hlength := congrArg List.length hargs
    have hle := hops.next_le_add
    rw [List.length_map, List.length_map] at hlength
    rw [henters.next, List.length_zip] at hle
    dsimp only at hle
    omega
  unfold compileBridge
  refine .bind_run (Workbench.compileTrace_avoids hdriver hbridge) fun compiled w hw => .get_bind ?_
  split
  · rename_i hwaits
    exact retrace_avoids hdriver hbridge rfl (by rw [hw]) (Bool.and_eq_true_iff.mp hwaits).2 hloop
      hnext
  · exact .pure _

end Replayer

end Bridges

end Calls

end HotLoop
