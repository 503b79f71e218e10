import HotLoop.Proofs.Replay.Conversion

/-!
# Recording without faults

A recorder complains of an operation that it cannot record, and that is no fault: the file is to
blame. Only where no number is left for an input or for a result does recording break off.
-/

namespace HotLoop

open Replay

def RecordStop.IsFault (e : RecordStop) : Prop := ∃ f, e = .fault f

namespace Recorder

variable {r : Recorder} {index : Nat} {driver : Driver} {positions : Table String Nat}
  {specs : List OpSpec} {file : TraceFile}

section Steps

theorem args_avoids (index : Nat) (specs : List ArgSpec) :
    Avoids RecordStop.IsFault (Recorder.args index specs) r := by
  refine ⟨trivial, fun e he ⟨f, hf⟩ => ?_⟩
  obtain ⟨-, e', he', -⟩ := args_refuses (Prod.ext he rfl)
  cases hf.symm.trans he'

theorem inputs_avoids {α : Type} {l : List α} {name : α → String} {value : α → Value}
    (hroom : r.history.values.next + l.length ≤ ValueIds.limit) :
    Avoids RecordStop.IsFault (l.forM fun a => input (name a) (value a)) r := by
  refine ⟨trivial, fun e he _ => ?_⟩
  obtain ⟨-, -, hlt⟩ := inputs_stops (Prod.ext he rfl)
  omega

theorem ops_avoids (hroom : r.history.values.next + specs.length ≤ ValueIds.limit) :
    Avoids RecordStop.IsFault (Recorder.ops driver positions specs) r := by
  refine ⟨trivial, fun e he ⟨f, hf⟩ => ?_⟩
  obtain ⟨k, hk, q, hops, -, ⟨e', he', -⟩ | ⟨-, -, hle⟩⟩ := ops_complains (Prod.ext he rfl)
  · cases hf.symm.trans he'
  · obtain ⟨ops, hops⟩ := ops_eq_ok hops
    have hnext := hops.next_le_add
    rw [List.length_take_of_le (Nat.le_of_lt hk)] at hnext
    omega

theorem letNames_avoids {α : Type} {l : List α} {name : α → String} {v : α → Var} :
    Avoids RecordStop.IsFault (l.forM fun a => letName (name a) (v a)) r :=
  .forM fun _ _ _ => .modify trivial

theorem close_avoids {closing : Operation} (hclosing : closing.result = none) :
    Avoids RecordStop.IsFault (close closing) r := by
  refine .get_bind ?_
  rw [recordOp_of_lt fun v hv => by rw [hclosing] at hv; cases hv]
  exact .modify trivial

theorem bridgeEnd_avoids {unit : Option UnitHandle} {bridge : BridgeSpec} :
    Avoids RecordStop.IsFault (Replayer.bridgeEnd driver unit bridge) r := by
  unfold Replayer.bridgeEnd
  split
  · split
    · exact .bind (args_avoids ..) fun _ _ _ => .pure _
    · exact .pure _
  · exact .bind (args_avoids ..) fun _ _ _ => .pure _
  · exact .throw fun ⟨f, hf⟩ => by cases hf

end Steps

section Histories

theorem recordLoop_avoids
    (hroom : r.history.values.next + file.inputs.length + file.body.length ≤ ValueIds.limit) :
    Avoids RecordStop.IsFault (Run.recordLoop file driver) r := by
  refine .bind_run (inputs_avoids (by omega)) fun _ q hinputs => ?_
  obtain ⟨vars, henters⟩ := inputs_eq_ok hinputs
  have hnext := henters.next
  rw [List.length_map] at hnext
  exact .bind (ops_avoids (by omega)) fun _ _ _ => args_avoids ..

theorem recordEntry_avoids {unit : UnitHandle} {entry : EntrySpec}
    (hroom : r.history.values.next + entry.inputs.length + entry.ops.length ≤ ValueIds.limit) :
    Avoids RecordStop.IsFault (Replayer.recordEntry file driver unit entry) r := by
  refine .bind_run (inputs_avoids (by omega)) fun _ q hinputs => ?_
  obtain ⟨vars, henters⟩ := inputs_eq_ok hinputs
  have hnext := henters.next
  rw [List.length_map] at hnext
  refine .bind (ops_avoids (by omega)) fun _ _ _ => .bind (args_avoids ..) fun _ _ _ => ?_
  exact .bind (close_avoids rfl) fun _ _ _ => .get_bind (.pure _)

theorem recordBridge_avoids {unit : Option UnitHandle} {bridge : BridgeSpec} {frame : DeadFrame}
    (hroom : r.history.values.next + bridge.inputs.length + bridge.ops.length ≤ ValueIds.limit) :
    Avoids RecordStop.IsFault (Replayer.recordBridge file driver unit bridge frame) r := by
  have hlen : (bridge.inputs.zip frame.values).length ≤ bridge.inputs.length := by
    rw [List.length_zip]
    exact Nat.min_le_left ..
  refine .bind_run (inputs_avoids (l := bridge.inputs.zip frame.values) (by omega))
    fun _ q hinputs => ?_
  obtain ⟨vars, henters⟩ := inputs_eq_ok (l := bridge.inputs.zip frame.values) hinputs
  have hnext := henters.next
  rw [List.length_map] at hnext
  refine .bind (ops_avoids (by omega)) fun _ _ _ => .bind_run bridgeEnd_avoids
    fun closing _ hclosing => ?_
  cases closing with
  | none => exact .pure _
  | some closing =>
    obtain ⟨hend, -⟩ := bridgeEnd_eq_ok hclosing
    exact .bind (close_avoids hend.result_eq) fun _ _ _ => .get_bind (.pure _)

theorem recordAgain_avoids {inputs : List Var}
    (hroom : r.history.values.next + file.body.length ≤ ValueIds.limit) :
    Avoids RecordStop.IsFault (Replayer.recordAgain file driver inputs) r := by
  refine .bind_run letNames_avoids fun _ q hnames => ?_
  obtain rfl := letNames_eq_ok hnames
  exact .bind (ops_avoids hroom) fun _ _ _ => args_avoids ..

end Histories

end Recorder

end HotLoop
