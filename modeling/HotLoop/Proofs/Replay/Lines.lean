import HotLoop.Proofs.Compile.Faults
import HotLoop.Proofs.Replay.Checks
import HotLoop.Proofs.Replay.Faults

/-!
# The lines of a file

Everything that is recorded for a file is a line: operations, and what is passed on behind them. If
a line copies nothing without an argument, reads no result of a check and has no constant that
lacks a value, then its record breaks nothing where it is compiled, whatever its inputs are.
-/

namespace HotLoop

open Replay

namespace Replay

def BridgeSpec.closing? (bridge : BridgeSpec) : Option (List ArgSpec) :=
  match bridge.jump, bridge.finish with
  | some closing, none => some closing
  | none, some closing => some closing
  | _, _ => none

/-- All constants of an operation have values. -/
def OpSpec.HasValues (spec : OpSpec) : Prop := ∀ a ∈ spec.args, a.HasValue

instance (spec : OpSpec) : Decidable spec.HasValues :=
  inferInstanceAs (Decidable (∀ a ∈ spec.args, a.HasValue))

/-- Operations, and what is passed on behind them, that can be recorded and compiled safely. -/
structure SafeLine (specs : List OpSpec) (closing : List ArgSpec) : Prop where
  solid : ∀ spec ∈ specs, spec.Solid
  spares : SparesChecks closing [] specs
  values : ∀ a ∈ closing, a.HasValue

end Replay

namespace TraceFile

/-- The loop, the entries from the interpreter, and the bridges that know where to go. -/
def lines (file : TraceFile) : List (List OpSpec × List ArgSpec) :=
  (file.body, file.jump) :: file.entryBridges.map (fun e => (e.ops, e.jump)) ++
    file.bridges.filterMap fun b => b.closing?.map (b.ops, ·)

/--
The values that a file gives to inputs, those that it gives to failing guards, and all constants
are values.
-/
structure HasValues (file : TraceFile) : Prop where
  inputs : ∀ i ∈ file.inputs, i.value.kind ≠ .void
  entries : ∀ e ∈ file.entryBridges, ∀ i ∈ e.inputs, i.value.kind ≠ .void
  failures : ∀ f ∈ file.failures, ∀ x ∈ f.values, x.kind ≠ .void
  lines : ∀ line ∈ file.lines, (∀ spec ∈ line.1, spec.HasValues) ∧ ∀ a ∈ line.2, a.HasValue

variable {file : TraceFile}

theorem hasValues_iff : file.HasValues ↔
    (∀ i ∈ file.inputs, i.value.kind ≠ .void) ∧
    (∀ e ∈ file.entryBridges, ∀ i ∈ e.inputs, i.value.kind ≠ .void) ∧
    (∀ f ∈ file.failures, ∀ x ∈ f.values, x.kind ≠ .void) ∧
    ∀ line ∈ file.lines, (∀ spec ∈ line.1, spec.HasValues) ∧ ∀ a ∈ line.2, a.HasValue :=
  ⟨fun ⟨h₁, h₂, h₃, h₄⟩ => ⟨h₁, h₂, h₃, h₄⟩, fun ⟨h₁, h₂, h₃, h₄⟩ => ⟨h₁, h₂, h₃, h₄⟩⟩

instance : Decidable file.HasValues := decidable_of_iff' _ hasValues_iff

theorem loop_mem_lines : (file.body, file.jump) ∈ file.lines := List.mem_cons_self ..

theorem entry_mem_lines {entry : EntrySpec} (h : entry ∈ file.entryBridges) :
    (entry.ops, entry.jump) ∈ file.lines :=
  List.mem_append_left _ (List.mem_cons_of_mem _ (List.mem_map_of_mem h))

theorem bridge_mem_lines {bridge : BridgeSpec} (h : bridge ∈ file.bridges) {closing : List ArgSpec}
    (hclosing : bridge.closing? = some closing) : (bridge.ops, closing) ∈ file.lines :=
  List.mem_append_right _ (List.mem_filterMap.mpr ⟨bridge, h, by rw [hclosing]; rfl⟩)

end TraceFile

namespace Recorder

variable {r r' q : Recorder} {guards : GuardTable} {specs : List OpSpec} {ops : List Operation}
  {closing : List ArgSpec} {args : List Arg} {inputs vars : List Var}

theorem Records.safelyRecorded (h : Records specs r r' ops) {l : List (String × Var)}
    (hnames : r.names = Table.empty.insertAll l) (hl : ∀ e ∈ l, e.2 ∈ inputs)
    (hlt : ∀ v ∈ inputs, v.id < r.history.values.next) (hkinds : ∀ v ∈ inputs, v.kind ≠ .void)
    (hline : SafeLine specs closing) (hargs : closing.map (·.value? r'.names) = args.map some) :
    SafelyRecorded inputs ops args r'.history.values.next := by
  obtain ⟨hknows, hsplits⟩ := knows_of_insertAll hnames hl hlt
  have hsolid : r.Solid := solid_of_insertAll hnames fun e he => hkinds _ (hl e he)
  obtain ⟨hops, hsolid'⟩ := h.solid hsolid hline.solid
  exact {
    toNoisilyRecorded := h.noisilyRecorded hknows hsplits hline.spares hargs
    solid := hops
    values := hsolid'.of_args hline.values hargs }

theorem Enters.safelyRecorded {l : List (String × Value)} (h : Enters l { guards } q vars)
    (hvalues : ∀ e ∈ l, e.2.kind ≠ .void) (hops : Records specs q r' ops)
    (hline : SafeLine specs closing) (hargs : closing.map (·.value? r'.names) = args.map some) :
    SafelyRecorded vars ops args r'.history.values.next := by
  refine hops.safelyRecorded h.names (fun e he => (List.of_mem_zip he).2) (h.owns rfl).lt_next
    (fun v hv => ?_) hline hargs
  obtain ⟨e, he, hkind⟩ := List.mem_map.mp (h.kinds ▸ List.mem_map_of_mem hv)
  exact hkind ▸ hvalues e he

theorem Enters.nodup {l : List (String × Value)} (h : Enters l r q vars) :
    (vars.map (·.id)).Nodup :=
  h.ids ▸ List.nodup_range'

theorem Enters.history {l : List (String × Value)} (h : Enters l { guards } q vars)
    (hops : Records specs q r' ops) :
    r'.history.inputVars = vars ∧ r'.history.operations = ops := by
  constructor
  · rw [History.inputVars, hops.inputs, ← History.inputVars, h.inputs]
    rfl
  · rw [hops.operations, h.operations]
    rfl

theorem BridgeEnd.passesOn {bridge : BridgeSpec} {names : Table String Var} {op : Operation}
    (h : BridgeEnd bridge names op) :
    Workbench.EndsBridge op ∧ ∃ closing, bridge.closing? = some closing ∧
      closing.map (·.value? names) = op.args.map some := by
  cases h with
  | jump unit jump args hjump hfinish hargs =>
    exact ⟨⟨rfl, rfl, rfl⟩, jump, by rw [BridgeSpec.closing?, hjump, hfinish], hargs⟩
  | finish driver finish args hjump hfinish hargs =>
    exact ⟨⟨rfl, rfl, rfl⟩, finish, by rw [BridgeSpec.closing?, hjump, hfinish], hargs⟩

end Recorder

end HotLoop
