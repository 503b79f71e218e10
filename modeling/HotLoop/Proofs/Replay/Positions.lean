import HotLoop.Proofs.Replay.Recorder
import HotLoop.Proofs.Walk.Descriptors
import HotLoop.Proofs.Walk.Ownership

/-!
# The guards that a recorder makes

Recording only adds to the table of guards. A recorded guard gets a record that no other has, with
the resume position of its label. One that relies on a quasi-immutable field as well keeps no
descriptor of its own, and an operation without a label has no position but the first.
-/

namespace HotLoop

open Replay

namespace Replay.OpSpec

def ownsGuard (spec : OpSpec) : Bool := spec.op.isGuard && spec.quasi.isNone

def guardOpcode (spec : OpSpec) : OpCode := if spec.op.isGuard then spec.op else .guardNotInvalidated

/-- The resume position of the operation where the labels have the given ones. -/
def position (positions : Table String Nat) (spec : OpSpec) : Nat :=
  if spec.ownsGuard then (spec.guard.bind positions.get?).getD 0 else 0

end Replay.OpSpec

namespace Recorder

variable {r r' : Recorder} {driver : Driver} {positions : Table String Nat} {index : Nat}
  {spec : OpSpec} {specs : List OpSpec} {op op' : Operation}

section Growing

/-- The guards of `r` are in `r'` as they were, and the new ones behind them have no links yet. -/
structure GrowsGuards (r r' : Recorder) : Prop where
  grows : r.guards.Grows r'.guards
  kept : r.guards.records <+: r'.guards.records

theorem GrowsGuards.of_eq (h : r'.guards = r.guards) : GrowsGuards r r' :=
  ⟨h ▸ .refl _, h ▸ List.prefix_rfl⟩

instance : Std.Refl GrowsGuards := ⟨fun _ => .of_eq rfl⟩

instance : IsTrans Recorder GrowsGuards :=
  ⟨fun _ _ _ h h' => ⟨h.grows.trans h'.grows, h.kept.trans h'.kept⟩⟩

/-- However a recorder ends, the table of guards has only grown. -/
abbrev Growing {α : Type} (x : RecordM α) (r : Recorder) : Prop := Goes GrowsGuards (fun _ => False) x r

theorem Growing.growsGuards {α : Type} {x : RecordM α} {answer : Except RecordStop α}
    (h : Growing x r) (hrun : runFrom x r = (answer, r')) : GrowsGuards r r' := by
  have hgrows := h.1
  rwa [hrun] at hgrows

theorem Growing.grows {α : Type} {x : RecordM α} {answer : Except RecordStop α} (h : Growing x r)
    (hrun : runFrom x r = (answer, r')) : r.guards.Grows r'.guards :=
  (h.growsGuards hrun).grows

private theorem ofFault_growing {α : Type} (e : Except Fault α) : Growing (ofFault e) r := by
  cases e with
  | error f => exact .throw id
  | ok a => exact .pure a

private theorem mapM_growing {α β : Type} {f : α → RecordM β} (hf : ∀ a r, Growing (f a) r)
    (l : List α) : Growing (l.mapM f) r := by
  induction l generalizing r with
  | nil => exact .pure _
  | cons a l ih =>
    rw [List.mapM_cons]
    exact .bind (hf a r) fun _ _ _ => .bind ih fun _ _ _ => .pure _

private theorem var_growing (index : Nat) (name : String) : Growing (var index name) r := by
  refine .get_bind ?_
  split
  · exact .pure _
  · exact .throw id

theorem args_growing (index : Nat) (specs : List ArgSpec) : Growing (Recorder.args index specs) r :=
  mapM_growing (fun spec r => by
    cases spec with
    | const c => exact .pure _
    | name n => exact .bind (var_growing index n) fun _ _ _ => .pure _) specs

private theorem letName_growing (name : String) (v : Var) : Growing (letName name v) r :=
  .modify (.of_eq rfl)

private theorem input_growing (name : String) (value : Value) : Growing (input name value) r := by
  refine .get_bind (.bind (ofFault_growing _) fun _ _ _ => ?_)
  exact .bind (.modify (.of_eq rfl)) fun _ _ _ => letName_growing _ _

private theorem invent_grows {kind : OpCode} {data : ResumeData} {g : Guard} {guards : GuardTable}
    (h : r.guards.invent driver.id kind data = .ok (g, guards)) :
    GrowsGuards r { r with guards } := by
  obtain ⟨kind', -, hmake⟩ := GuardTable.invent_eq_ok h
  have hgrows := GuardTable.Grows.make r.guards kind kind' data
  obtain ⟨rfl, rfl⟩ := Prod.mk.inj hmake
  exact ⟨hgrows, List.prefix_append ..⟩

private theorem asGuard_growing (spec : OpSpec) (op : Operation) :
    Growing (asGuard driver positions index spec op) r := by
  unfold asGuard
  split
  · exact .pure _
  · refine .get_bind (.bind_from (ofFault_growing _) fun made t hmade _ => ?_)
    obtain ⟨hinvent, rfl⟩ := ofFault_eq_ok hmade
    have hgrows := invent_grows hinvent
    have hrest : Growing (do
        let slots ← spec.failArgs.mapM fun name => some <$> var index name
        return { op with descr := some (.guard made.1), failArgs := some slots })
        { t with guards := made.2 } := by
      refine .bind (mapM_growing (fun name r => ?_) _) fun _ _ _ => .pure _
      exact .bind (var_growing index name) fun _ _ _ => .pure _
    exact ⟨IsTrans.trans _ _ _ hgrows hrest.1, hrest.2⟩

private theorem withResult_growing (spec : OpSpec) (op : Operation) :
    Growing (withResult index spec op) r := by
  unfold withResult
  split
  · split
    · refine .get_bind (.bind (ofFault_growing _) fun _ _ _ => ?_)
      refine .bind (.modify (.of_eq rfl)) fun _ _ _ => ?_
      exact .bind (letName_growing _ _) fun _ _ _ => .pure _
    · exact .throw id
  · exact .pure _

theorem close_growing (closing : Operation) : Growing (close closing) r :=
  .get_bind (.bind (ofFault_growing _) fun _ _ _ => .modify (.of_eq rfl))

private theorem op_growing (index : Nat) (spec : OpSpec) :
    Growing (Recorder.op driver positions index spec) r := by
  unfold Recorder.op
  dsimp only
  split
  · exact .throw_bind id
  · refine .bind (args_growing _ _) fun _ _ _ => .bind (asGuard_growing _ _) fun _ _ _ => ?_
    refine .bind (withResult_growing _ _) fun _ _ _ => ?_
    exact .get_bind (.bind (ofFault_growing _) fun _ _ _ => .modify (.of_eq rfl))

theorem ops_growing (specs : List OpSpec) : Growing (Recorder.ops driver positions specs) r :=
  .forM fun spec _ _ => op_growing spec.2 spec.1

theorem inputs_growing {α : Type} (l : List α) (name : α → String) (value : α → Value) :
    Growing (l.forM fun a => input (name a) (value a)) r :=
  .forM fun a _ _ => input_growing (name a) (value a)

theorem letNames_growing {α : Type} (l : List α) (name : α → String) (v : α → Var) :
    Growing (l.forM fun a => letName (name a) (v a)) r :=
  .forM fun a _ _ => letName_growing (name a) (v a)

end Growing

section Registering

/--
The operation `op` has been recorded for `spec` while the table of guards has become `t'`, and every
descriptor that it has is new.
-/
structure Notes (positions : Table String Nat) (spec : OpSpec) (t t' : GuardTable)
    (op : Operation) : Prop where
  grows : t.Grows t'
  own : ∀ g, op.ownGuard? = some g → g.id < t'.records.length
  named : ∀ g, op.guard? = some g → t.records.length ≤ g.id
  position : Pass.recordedPosition t' op = spec.position positions
  opcode : op.guardOpcode = spec.guardOpcode

private theorem withResult_eq_ok' (h : runFrom (withResult index spec op) r = (.ok op', r')) :
    r'.guards = r.guards ∧ op'.descr = op.descr ∧ op'.opcode = op.opcode := by
  unfold withResult at h
  split at h
  · split at h
    · simp only [runFrom_bind_eq_ok, runFrom_get, runFrom_pure, runFrom_modify, letName,
        Prod.mk.injEq, Except.ok.injEq] at h
      obtain ⟨_, _, ⟨rfl, rfl⟩, _, _, hfresh, _, _, ⟨-, rfl⟩, _, _, ⟨-, rfl⟩, rfl, rfl⟩ := h
      obtain ⟨-, rfl⟩ := ofFault_eq_ok hfresh
      exact ⟨rfl, rfl, rfl⟩
    · cases h
  · cases h
    exact ⟨rfl, rfl, rfl⟩

private theorem asGuard_notes (hop : op.opcode = spec.op) (hdescr : op.descr = none)
    (h : runFrom (asGuard driver positions index spec op) r = (.ok op', r')) :
    r.guards.Grows r'.guards ∧ op'.opcode = spec.op ∧
      (spec.op.isGuard = false ∧ op'.descr = none ∨ ∃ g, spec.op.isGuard = true ∧
        op'.descr = some (.guard g) ∧ g.opcode = spec.op ∧ r.guards.records.length ≤ g.id ∧
        g.id < r'.guards.records.length ∧ GuardKind.ofOpCode driver.id spec.op = .ok g.kind ∧
        (r'.guards.get g).data.position = (spec.guard.bind positions.get?).getD 0) := by
  refine ⟨(asGuard_growing spec op).grows h, ?_⟩
  unfold asGuard at h
  split at h
  · rename_i hguard
    cases h
    exact ⟨hop, .inl ⟨by simpa using hguard, hdescr⟩⟩
  · rename_i hguard
    simp only [runFrom_bind_eq_ok, runFrom_get, runFrom_pure, runFrom_modify, Prod.mk.injEq,
      Except.ok.injEq] at h
    obtain ⟨_, _, ⟨rfl, rfl⟩, ⟨g, guards⟩, _, hinvent, _, _, ⟨-, rfl⟩, slots, _, hslots, rfl, rfl⟩ := h
    obtain ⟨hinvent, rfl⟩ := ofFault_eq_ok hinvent
    obtain ⟨-, -, rfl⟩ := slots_eq_ok hslots
    obtain ⟨kind, hkind, hmake⟩ := GuardTable.invent_eq_ok hinvent
    obtain ⟨hle, hlt⟩ := GuardTable.lt_of_make hmake
    have hopcode : g.opcode = spec.op := congrArg (·.1.opcode) hmake
    have hgkind : g.kind = kind := congrArg (·.1.kind) hmake
    refine ⟨hop, .inr ⟨g, by simpa using hguard, rfl, hopcode, hle, hlt, hgkind ▸ hkind, ?_⟩⟩
    have hget (t : GuardTable) (data : ResumeData) (h : (g, guards) = t.make spec.op kind data) :
        guards.get g = { data } := by
      have hself := GuardTable.get_make_self t spec.op kind data
      rwa [← h] at hself
    dsimp only
    rw [hget _ _ hmake]
    cases spec.guard <;> rfl

private theorem notes_of_guard?_eq_none {t t' : GuardTable} (hgrows : t.Grows t')
    (hopcode : op.opcode = spec.op) (hnone : op.guard? = none) (howns : spec.ownsGuard = false) :
    Notes positions spec t t' op := by
  have hown : op.ownGuard? = none := by simp [Operation.ownGuard?, hnone]
  refine ⟨hgrows, fun g hg => ?_, fun g hg => ?_, ?_, ?_⟩
  · cases hown.symm.trans hg
  · cases hnone.symm.trans hg
  · simp [Pass.recordedPosition, hown, OpSpec.position, howns]
  · rw [Operation.guardOpcode, hown, Operation.isGuard, hopcode]
    rfl

theorem OpSteps.notes (h : OpSteps driver positions index spec r op r') :
    Notes positions spec r.guards r'.guards op ∧ op.OwnedBy driver.id := by
  obtain ⟨-, -, hguard, hresult, -⟩ := h
  obtain ⟨hgrows, hguarded, hcases⟩ := asGuard_notes rfl rfl hguard
  obtain ⟨hguards, hdescr, hopcode⟩ := withResult_eq_ok' hresult
  replace hopcode : op.opcode = spec.op := hopcode.trans hguarded
  dsimp only at hdescr ⊢
  rw [hguards]
  cases hquasi : spec.quasi with
  | some field =>
    -- the field takes the place of the descriptor
    have hnone : op.guard? = none := by
      rw [Operation.guard?, hdescr, hquasi]
      rfl
    have howns : spec.ownsGuard = false := by simp [OpSpec.ownsGuard, hquasi]
    exact ⟨notes_of_guard?_eq_none hgrows hopcode hnone howns,
      Operation.ownedBy_of_guard?_eq_none hnone⟩
  | none =>
    rw [hquasi, Option.map_none, Option.none_or] at hdescr
    rcases hcases with ⟨hplain, hnone⟩ | ⟨g, hguard, hg, hgopcode, hle, hlt, hkind, hposition⟩
    · have hnone : op.guard? = none := by
        rw [Operation.guard?, hdescr, hnone]
        rfl
      have howns : spec.ownsGuard = false := by simp [OpSpec.ownsGuard, hplain]
      exact ⟨notes_of_guard?_eq_none hgrows hopcode hnone howns,
        Operation.ownedBy_of_guard?_eq_none hnone⟩
    · have hsome : op.guard? = some g := by
        rw [Operation.guard?, hdescr, hg]
        rfl
      have hown : op.ownGuard? = some g :=
        ownGuard?_eq_some.mpr ⟨by rw [Operation.isGuard, hopcode, hguard], hsome⟩
      refine ⟨⟨hgrows, fun g' hg' => ?_, fun g' hg' => ?_, ?_, ?_⟩,
        Operation.ownedBy_of_ofOpCode (hdescr.trans hg) hkind⟩
      · cases hown.symm.trans hg'
        exact hlt
      · cases hsome.symm.trans hg'
        exact hle
      · rw [Pass.recordedPosition, hown, OpSpec.position, OpSpec.ownsGuard, hguard, hquasi]
        exact hposition
      · rw [Operation.guardOpcode, hown, OpSpec.guardOpcode, if_pos hguard]
        exact hgopcode

/--
Operations have been recorded one after another, while the table of guards has become `t'`: no two
of them share a descriptor, and all descriptors are new.
-/
structure Registers (positions : Table String Nat) (specs : List OpSpec) (t t' : GuardTable)
    (ops : List Operation) : Prop where
  grows : t.Grows t'
  own : OwnGuards t' ops
  named : ∀ g, NamesGuard ops g → t.records.length ≤ g.id
  places : List.Forall₂ (fun spec op => op.opcode = spec.op ∧ op.guardOpcode = spec.guardOpcode ∧
    Pass.recordedPosition t' op = spec.position positions) specs ops

theorem ops_registers (h : runFrom (Recorder.ops driver positions specs) r = (.ok (), r')) :
    ∃ ops, Records specs r r' ops ∧ Registers positions specs r.guards r'.guards ops ∧
      OwnedLine driver.id ops := by
  unfold Recorder.ops at h
  generalize 0 = start at h
  induction specs generalizing r start with
  | nil =>
    cases h
    exact ⟨[], .nil _, ⟨.refl _, ⟨by simp [guardsIn], by simp [guardsIn]⟩, by simp [NamesGuard], .nil⟩,
      by simp, by simp⟩
  | cons spec specs ih =>
    rw [List.zipIdx_cons, runFrom_forM_cons_eq_ok] at h
    obtain ⟨q, hop, hops⟩ := h
    obtain ⟨op, hsteps⟩ := opSteps_of_op hop
    have hrecorded := hsteps.recorded
    obtain ⟨hnotes, hown⟩ := hsteps.notes
    obtain ⟨ops, hrecords, hregisters, hline⟩ := ih _ hops
    refine ⟨op :: ops, .cons hrecorded hrecords, ⟨hnotes.grows.trans hregisters.grows, ⟨?_, ?_⟩, ?_,
      .cons ⟨hrecorded.opcode, hnotes.opcode, ?_⟩ hregisters.places⟩,
      List.forall_mem_cons.mpr ⟨hrecorded.isFinal, hline.inner⟩,
      List.forall_mem_cons.mpr ⟨hown, hline.owned⟩⟩
    · rw [guardsIn_cons]
      cases hown : op.ownGuard? with
      | none => exact hregisters.own.nodup
      | some g =>
        refine List.nodup_cons.mpr ⟨fun hmem => ?_, hregisters.own.nodup⟩
        -- the guards behind it have been made when this one was in the table
        obtain ⟨g', hg', hid⟩ := List.mem_map.mp hmem
        obtain ⟨o, ho, -, hguard⟩ := mem_guardsIn.mp hg'
        have hle := hregisters.named g' ⟨o, ho, g', hguard, rfl⟩
        have hlt := hnotes.own g hown
        have hid : g'.id = g.id := hid
        omega
    · intro g hg
      rw [guardsIn_cons] at hg
      rcases List.mem_append.mp hg with hg | hg
      · exact Nat.lt_of_lt_of_le (hnotes.own g (by simpa using hg)) hregisters.grows.length_le
      · exact hregisters.own.lt g hg
    · rintro g ⟨o, ho, g', hg', hid⟩
      rcases List.mem_cons.mp ho with rfl | ho
      · exact hid ▸ hnotes.named g' hg'
      · exact Nat.le_trans hnotes.grows.length_le (hregisters.named g ⟨o, ho, g', hg', hid⟩)
    · rw [Pass.recordedPosition_of_grows hregisters.grows hnotes.own, hnotes.position]

theorem Registers.widen {t₀ t t' : GuardTable} {ops : List Operation}
    (h : Registers positions specs t t' ops) (h₀ : t₀.Grows t) :
    Registers positions specs t₀ t' ops where
  grows := h₀.trans h.grows
  own := h.own
  named g hg := Nat.le_trans h₀.length_le (h.named g hg)
  places := h.places

end Registering

section Histories

variable {file : TraceFile} {unit : UnitHandle} {args : List Arg} {history : History}

def Closes (closing : Operation) : Prop := closing.isFinal = true ∧ closing.guard? = none

theorem Closes.not_isGuard {closing : Operation} (h : Closes closing) : closing.isGuard = false :=
  OpCode.not_isGuard_of_isFinal h.1

theorem recordLoop_growing (file : TraceFile) (driver : Driver) (r : Recorder) :
    Growing (Run.recordLoop file driver) r :=
  .bind (inputs_growing ..) fun _ _ _ => .bind (ops_growing _) fun _ _ _ => args_growing ..

theorem recordLoop_registers (h : runFrom (Run.recordLoop file driver) r = (.ok args, r')) :
    ∃ ops, r'.history.operations = r.history.operations ++ ops ∧
      Registers file.guardPositions file.body r.guards r'.guards ops ∧
      OwnedLine driver.id ops := by
  simp only [Run.recordLoop, runFrom_bind_eq_ok] at h
  obtain ⟨_, q, hinputs, _, q', hops, hargs⟩ := h
  have hgrows := (inputs_growing file.inputs (·.name) (·.value)).grows hinputs
  obtain ⟨vars, henters⟩ := inputs_eq_ok hinputs
  obtain ⟨ops, hrecords, hregisters, hline⟩ := ops_registers hops
  obtain ⟨-, rfl⟩ := args_eq_ok hargs
  exact ⟨ops, by rw [hrecords.operations, henters.operations], hregisters.widen hgrows, hline⟩

theorem recordEntry_growing (file : TraceFile) (driver : Driver) (unit : UnitHandle)
    (spec : EntrySpec) (r : Recorder) :
    Growing (Replayer.recordEntry file driver unit spec) r :=
  .bind (inputs_growing ..) fun _ _ _ => .bind (ops_growing _) fun _ _ _ =>
    .bind (args_growing ..) fun _ _ _ => .bind (close_growing _) fun _ _ _ => .get_bind (.pure _)

theorem recordEntry_registers {spec : EntrySpec}
    (h : runFrom (Replayer.recordEntry file driver unit spec) r = (.ok history, r')) :
    ∃ ops closing, history.operations = r.history.operations ++ (ops ++ [closing]) ∧
      Closes closing ∧ Registers file.guardPositions spec.ops r.guards r'.guards ops ∧
      OwnedLine driver.id ops := by
  simp only [Replayer.recordEntry, runFrom_bind_eq_ok, runFrom_get, runFrom_pure, Prod.mk.injEq,
    Except.ok.injEq] at h
  obtain ⟨_, q, hinputs, _, _, hops, args, q', hargs, _, _, hclose, _, _, ⟨rfl, rfl⟩, rfl, rfl⟩ := h
  have hgrows := (inputs_growing spec.inputs (·.name) (·.value)).grows hinputs
  obtain ⟨vars, henters⟩ := inputs_eq_ok hinputs
  obtain ⟨ops, hrecords, hregisters, hline⟩ := ops_registers hops
  obtain ⟨-, rfl⟩ := args_eq_ok hargs
  refine ⟨ops, .jump args (.cell unit), ?_, ⟨rfl, rfl⟩, ?_, hline⟩
  · rw [close_eq_ok rfl hclose]
    dsimp only
    rw [hrecords.operations, henters.operations, List.append_assoc]
  · rw [close_eq_ok rfl hclose]
    exact hregisters.widen hgrows

theorem recordAgain_growing (file : TraceFile) (driver : Driver) (inputs : List Var)
    (r : Recorder) : Growing (Replayer.recordAgain file driver inputs) r :=
  .bind (letNames_growing (file.inputs.zip inputs) (·.1.name) (·.2)) fun _ _ _ =>
    .bind (ops_growing _) fun _ _ _ => args_growing ..

theorem recordAgain_registers {inputs : List Var}
    (h : runFrom (Replayer.recordAgain file driver inputs) r = (.ok args, r')) :
    ∃ ops, r'.history.operations = r.history.operations ++ ops ∧
      Registers file.guardPositions file.body r.guards r'.guards ops ∧
      OwnedLine driver.id ops := by
  simp only [Replayer.recordAgain, runFrom_bind_eq_ok] at h
  obtain ⟨_, q, hnames, _, q', hops, hargs⟩ := h
  obtain ⟨ops, hrecords, hregisters, hline⟩ := ops_registers hops
  obtain ⟨-, rfl⟩ := args_eq_ok hargs
  rw [letNames_eq_ok hnames] at hrecords hregisters
  exact ⟨ops, hrecords.operations, hregisters, hline⟩

private theorem bridgeEnd_growing {end? : Option UnitHandle} (bridge : BridgeSpec) :
    Growing (Replayer.bridgeEnd driver end? bridge) r := by
  unfold Replayer.bridgeEnd
  split
  · split
    · exact .bind (args_growing ..) fun _ _ _ => .pure _
    · exact .pure _
  · exact .bind (args_growing ..) fun _ _ _ => .pure _
  · exact .throw id

theorem recordBridge_growing (file : TraceFile) (driver : Driver) (unit : Option UnitHandle)
    (bridge : BridgeSpec) (frame : DeadFrame) (r : Recorder) :
    Growing (Replayer.recordBridge file driver unit bridge frame) r := by
  unfold Replayer.recordBridge
  refine .bind (inputs_growing _ Prod.fst Prod.snd) fun _ _ _ => .bind (ops_growing _) fun _ _ _ => ?_
  refine .bind (bridgeEnd_growing _) fun closing _ _ => ?_
  split
  · exact .bind (close_growing _) fun _ _ _ => .get_bind (.pure _)
  · exact .pure _

private theorem BridgeEnd.closes {bridge : BridgeSpec} {names : Table String Var}
    {closing : Operation} (h : BridgeEnd bridge names closing) : Closes closing := by
  cases h <;> exact ⟨rfl, rfl⟩

theorem recordBridge_registers {unit : Option UnitHandle} {bridge : BridgeSpec} {frame : DeadFrame}
    (h : runFrom (Replayer.recordBridge file driver unit bridge frame) r =
      (.ok (some history), r')) :
    ∃ ops closing, history.operations = r.history.operations ++ (ops ++ [closing]) ∧
      Closes closing ∧ Registers file.guardPositions bridge.ops r.guards r'.guards ops ∧
      OwnedLine driver.id ops := by
  obtain ⟨q, q', closing, hinputs, hops, hend, hguards, rfl⟩ := runs_of_recordBridge h
  have hgrows := (inputs_growing (bridge.inputs.zip frame.values) Prod.fst Prod.snd).grows hinputs
  obtain ⟨vars, henters⟩ := inputs_eq_ok (l := bridge.inputs.zip frame.values) hinputs
  obtain ⟨ops, hrecords, hregisters, hline⟩ := ops_registers hops
  refine ⟨ops, closing, ?_, hend.closes, hguards ▸ hregisters.widen hgrows, hline⟩
  dsimp only
  rw [hrecords.operations, henters.operations, List.append_assoc]

end Histories

end Recorder

end HotLoop
