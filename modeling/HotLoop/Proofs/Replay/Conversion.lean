import HotLoop.Proofs.Replay.Owners

/-!
# Single assignment

Recording turns operations over names, which can be bound again and again, into operations over
variables that are assigned once. What is recorded computes the same, whatever the operations mean:
each operation reads the same values, hands over the same ones where it fails and gives the same
result. A recorder that gives up has recorded what stands before the operation that it complains of.
-/

namespace HotLoop

open Replay

/--
What the operations mean: the value and the next state that an operation gives, from its field, the
values of its arguments and those that it hands over where it fails.
-/
abbrev Interpretation (σ : Type) :=
  OpCode → Option Nat → List Value → List (Option Value) → σ → Value × σ

/-- An operation that has been executed, with the values that it has read and given. -/
structure Executed where
  op : OpCode
  field : Option Nat
  args : List Value
  exit : List (Option Value)
  value : Value
  deriving DecidableEq, Repr

/-- The quasi-immutable field that an operation is about. -/
def Operation.field? (op : Operation) : Option Nat :=
  match op.descr with
  | some (.quasiImmut field) => some field
  | _ => none

namespace Interpretation

variable {σ : Type}

/-- Operations over variables one after another, and the values that are passed on behind them. -/
def run (I : Interpretation σ) (closing : List Arg) :
    List Operation → Env → σ → List Executed × List Value
  | [], ρ, _ => ([], closing.map (·.eval ρ))
  | op :: ops, ρ, st =>
    let args := op.args.map (·.eval ρ)
    let exit := op.failSlots.map (·.map fun v => ρ v.id)
    let (x, st') := I op.opcode op.field? args exit st
    let (rest, vals) := I.run closing ops (ρ.assign op.result x) st'
    (⟨op.opcode, op.field?, args, exit, x⟩ :: rest, vals)

/--
Operations over names one after another. Each reads its names before it binds the one of its result.
-/
def runNamed (I : Interpretation σ) (closing : List ArgSpec) :
    List OpSpec → Bindings → σ → List Executed × List Value
  | [], β, _ => ([], closing.map (·.eval β))
  | spec :: specs, β, st =>
    let args := spec.args.map (·.eval β)
    let exit := spec.exit.map fun name => some (β name)
    let (x, st') := I spec.op spec.quasi args exit st
    let (rest, vals) := I.runNamed closing specs (β.assign spec.result x) st'
    (⟨spec.op, spec.quasi, args, exit, x⟩ :: rest, vals)

end Interpretation

namespace History

def definedBefore (h : History) (k : Nat) : List Var :=
  h.inputVars ++ (h.operations.take k).filterMap (·.result)

/--
Every variable is an input or the result of one operation, which comes before all that read it. The
numbers are distinct, and below the next one.
-/
structure SingleAssignment (h : History) (closing : List Arg) : Prop where
  reads : ∀ k op, h.operations[k]? = some op → ∀ v ∈ op.uses, v ∈ h.definedBefore k
  closing : ∀ v ∈ closing.filterMap Arg.var?, v ∈ h.definedBefore h.operations.length
  apart : ((h.definedBefore h.operations.length).map (·.id)).Nodup
  below : ∀ v ∈ h.definedBefore h.operations.length, v.id < h.values.next

end History

/-- The operation that a recorder complains of. -/
def RecordError.index : RecordError → Nat
  | undefinedValue index _ | notInBody index _ | unknownKind index _ | bridgeEnd index _
  | callbackReds index _ => index

namespace Recorder

variable {σ : Type} {r r' q : Recorder} {index : Nat} {driver : Driver}
  {positions : Table String Nat} {scope : List Var} {spec : OpSpec} {specs : List OpSpec}
  {op : Operation} {ops : List Operation} {β : Bindings} {ρ : Env}

section Scope

private theorem results_cons (op : Operation) (ops : List Operation) :
    (op :: ops).filterMap (·.result) = op.result.toList ++ ops.filterMap (·.result) := by
  cases hop : op.result with
  | none => exact List.filterMap_cons_none hop
  | some v => exact List.filterMap_cons_some hop

theorem Recorded.mem_of_uses (h : Recorded spec r r' op) (hr : r.Owns scope) :
    ∀ v ∈ op.uses, v ∈ scope := by
  intro v hv
  rcases mem_uses_iff.mp hv with ha | hslot
  · exact hr.mem_of_args h.args ha
  · rw [h.failSlots] at hslot
    obtain ⟨n, -, hn⟩ := List.mem_map.mp hslot
    exact hr.mem n v hn

theorem Records.reads (h : Records specs r r' ops) (hr : r.Owns scope) :
    (∀ k op, ops[k]? = some op → ∀ v ∈ op.uses,
      v ∈ scope ∨ v ∈ (ops.take k).filterMap (·.result)) ∧
      r'.Owns ((ops.filterMap (·.result)).reverse ++ scope) := by
  induction h generalizing scope with
  | nil r => exact ⟨fun k op hk => by simp at hk, hr⟩
  | @cons spec specs r q r' op ops hop hops ih =>
    obtain ⟨hreads, howns⟩ := ih (hop.owns hr)
    constructor
    · intro k o hk v hv
      cases k with
      | zero =>
        cases hk
        exact .inl (hop.mem_of_uses hr v hv)
      | succ k =>
        rw [List.take_succ_cons, results_cons]
        rcases hreads k o hk v hv with hv | hv
        · rcases List.mem_append.mp hv with hv | hv
          · exact .inr (List.mem_append_left _ hv)
          · exact .inl hv
        · exact .inr (List.mem_append_right _ hv)
    · have hresult : op.result.toList.reverse = op.result.toList := by cases op.result <;> rfl
      rw [results_cons, List.reverse_append, hresult, List.append_assoc]
      exact howns

theorem singleAssignment_of_records {inputs : List Var} (howns : q.Owns inputs)
    (hinputs : q.history.inputVars = inputs) (hoperations : q.history.operations = [])
    (hops : Records specs q r ops) {specs' : List ArgSpec} {closing : List Arg}
    (hclosing : specs'.map (·.value? r.names) = closing.map some) :
    r.history.SingleAssignment closing := by
  obtain ⟨hreads, howns'⟩ := hops.reads howns
  have hall : r.history.operations = ops := by rw [hops.operations, hoperations, List.nil_append]
  have hbefore (k : Nat) : r.history.definedBefore k =
      inputs ++ (ops.take k).filterMap (·.result) := by
    rw [History.definedBefore, History.inputVars, hops.inputs, ← History.inputVars, hinputs, hall]
  have hdefined : r.history.definedBefore r.history.operations.length =
      inputs ++ ops.filterMap (·.result) := by
    rw [hbefore, hall, List.take_length]
  have hperm : (inputs ++ ops.filterMap (·.result)).Perm
      ((ops.filterMap (·.result)).reverse ++ inputs) :=
    List.perm_append_comm.trans ((List.reverse_perm _).symm.append_right inputs)
  refine ⟨fun k op hk v hv => ?_, fun v hv => ?_, ?_, fun v hv => ?_⟩
  · rw [hbefore]
    exact List.mem_append.mpr (hreads k op (hall ▸ hk) v hv)
  · rw [hdefined, hperm.mem_iff]
    exact howns'.mem_of_args hclosing (Arg.mem_filterMap_var?_iff.mp hv)
  · rw [hdefined]
    exact (hperm.map _).nodup_iff.mpr howns'.nodup
  · rw [hdefined, hperm.mem_iff] at hv
    exact howns'.lt_next v hv

end Scope

section Values

def Agrees (r : Recorder) (β : Bindings) (ρ : Env) : Prop :=
  ∀ n v, r.names.get? n = some v → ρ v.id = β n

theorem Agrees.eval (h : r.Agrees β ρ) {specs : List ArgSpec} {args : List Arg}
    (hargs : specs.map (·.value? r.names) = args.map some) :
    args.map (·.eval ρ) = specs.map (·.eval β) := by
  have hmeans : r.Means (specs.filterMap ArgSpec.name?) β ρ := fun n _ v hv => h n v hv
  exact hmeans.eval (fun _ hn => hn) hargs

/-- A recorded operation hands over the values of its names. -/
theorem Agrees.exit (h : r.Agrees β ρ) (hop : Recorded spec r r' op) :
    op.failSlots.map (·.map fun v => ρ v.id) = spec.exit.map fun name => some (β name) := by
  rw [hop.failSlots, List.map_map]
  refine List.map_congr_left fun n hn => ?_
  rw [OpSpec.exit] at hn
  split at hn
  · rename_i hguard
    obtain ⟨v, hv⟩ := hop.bound hguard n hn
    rw [Function.comp_apply, hv, Option.map_some, h n v hv]
  · cases hn

theorem Recorded.field? (h : Recorded spec r r' op) : op.field? = spec.quasi := by
  obtain ⟨g, -, hdescr, -⟩ := h.guarded
  rw [Operation.field?, hdescr]
  cases spec.quasi with
  | some field => rfl
  | none => cases g <;> rfl

/-- The result of an operation gets a variable that no name has stood for. -/
theorem Recorded.agrees (h : Recorded spec r r' op) (hr : r.Owns scope) (hagrees : r.Agrees β ρ)
    (x : Value) : r'.Agrees (β.assign spec.result x) (ρ.assign op.result x) := by
  intro n v hv
  have hbinds := h.binds
  generalize spec.result = name at hbinds ⊢
  generalize op.result = result at hbinds ⊢
  cases hbinds with
  | nothing hnames _ => exact hagrees n v (hnames ▸ hv)
  | fresh name kind _ hnames _ =>
    rw [hnames, Table.get?_insert] at hv
    split at hv
    · rename_i hn
      cases hv
      rw [hn]
      exact (Env.set_self ..).trans (Bindings.set_self ..).symm
    · rename_i hn
      have hlt := hr.lt_next v (hr.mem n v hv)
      exact (Env.set_of_ne (Nat.ne_of_lt hlt)).trans
        ((hagrees n v hv).trans (Bindings.set_of_ne hn).symm)

theorem Records.converts (h : Records specs r r' ops) (hr : r.Owns scope)
    (hagrees : r.Agrees β ρ) {closing : List ArgSpec} {args : List Arg}
    (hclosing : closing.map (·.value? r'.names) = args.map some) (I : Interpretation σ) (st : σ) :
    I.run args ops ρ st = I.runNamed closing specs β st := by
  induction h generalizing scope β ρ st with
  | nil r =>
    rw [Interpretation.run, Interpretation.runNamed, hagrees.eval hclosing]
  | @cons spec specs r q r' op ops hop hops ih =>
    rw [Interpretation.run, Interpretation.runNamed]
    dsimp only
    rw [hop.opcode, hop.field?, hagrees.eval hop.args, hagrees.exit hop,
      ih (hop.owns hr) (hop.agrees hr hagrees _) hclosing]

/-- New inputs agree with the values that their names are given. -/
theorem Enters.agrees {l : List (String × Value)} {vars : List Var} (h : Enters l r q vars)
    (hr : r.names = .empty) {vals : List Value} (hvals : vals.length = l.length) (β : Bindings)
    (ρ : Env) : q.Agrees (β.setAll ((l.map Prod.fst).zip vals)) (ρ.bind vars vals) := by
  have hlen : vals.length = vars.length := by
    rw [hvals]
    simpa using (congrArg List.length h.ids).symm
  have hnodup : (vars.map (·.id)).Nodup := h.ids ▸ List.nodup_range'
  intro n v hv
  rw [h.names, hr] at hv
  have heval := eval_insertAll (ρ := ρ.bind vars vals) (β := β) (fun n v hget => by cases hget) n v hv
  rw [heval, ← map_bind hnodup hlen ρ, List.zip_map_right, map_bind hnodup hlen ρ]
  rfl

end Values

section Stops

variable {stop : RecordStop} {α α' : Type}

/-- A name in the operation at an index is not known, and nothing has happened. -/
def Refuses (index : Nat) (r r' : Recorder) (stop : RecordStop) : Prop :=
  r' = r ∧ ∃ e, stop = .error e ∧ e.index = index

/--
A stop at an operation: the history is as before, and either the operation is complained of, or no
number is left for its result.
-/
structure Complains (index : Nat) (r r' : Recorder) (stop : RecordStop) : Prop where
  history : r'.history = r.history
  why : (∃ e, stop = .error e ∧ e.index = index) ∨
    ∃ f, stop = .fault f ∧ ValueIds.limit ≤ r.history.values.next

private theorem Refuses.complains {s : Recorder} (h : Refuses index s r' stop)
    (hs : s.history = r.history) : Complains index r r' stop :=
  ⟨h.1 ▸ hs, .inl h.2⟩

private theorem Complains.of_error {e : RecordError} (h : e.index = index) :
    Complains index r r (.error e) :=
  ⟨rfl, .inl ⟨e, rfl, h⟩⟩

private theorem Complains.of_history {s : Recorder} (h : Complains index s r' stop)
    (hs : s.history = r.history) : Complains index r r' stop :=
  ⟨h.history.trans hs, hs ▸ h.why⟩

private theorem var_refuses {name : String}
    (h : runFrom (var index name) r = (.error stop, r')) : Refuses index r r' stop := by
  simp only [var, runFrom_bind_eq_error, runFrom_get, Prod.mk.injEq, reduceCtorEq, false_and,
    false_or] at h
  obtain ⟨_, _, ⟨heq, rfl⟩, h⟩ := h
  cases heq
  split at h
  · cases h
  · cases h
    exact ⟨rfl, _, rfl, rfl⟩

private theorem mapM_refuses {f : α → RecordM α'} {l : List α}
    (hok : ∀ a b s, runFrom (f a) r = (.ok b, s) → s = r)
    (hstop : ∀ a stop s, runFrom (f a) r = (.error stop, s) → Refuses index r s stop)
    (h : runFrom (l.mapM f) r = (.error stop, r')) : Refuses index r r' stop := by
  induction l with
  | nil => cases h
  | cons a l ih =>
    simp only [List.mapM_cons, runFrom_bind_eq_error, runFrom_pure, Prod.mk.injEq, reduceCtorEq,
      false_and, and_false, exists_false, or_false] at h
    rcases h with h | ⟨b, s, hb, h⟩
    · exact hstop a stop r' h
    · rw [hok a b s hb] at h
      exact ih h

theorem args_refuses {specs : List ArgSpec}
    (h : runFrom (Recorder.args index specs) r = (.error stop, r')) : Refuses index r r' stop := by
  refine mapM_refuses (fun spec a s h => (arg_eq_ok h).2) (fun spec stop s h => ?_) h
  cases spec with
  | const c => cases h
  | name n =>
    simp only [arg, runFrom_bind_eq_error, runFrom_pure, Prod.mk.injEq, reduceCtorEq, false_and,
      and_false, exists_false, or_false] at h
    exact var_refuses h

private theorem slots_refuses {names : List String}
    (h : runFrom (names.mapM fun name => some <$> var index name : RecordM _) r =
      (.error stop, r')) : Refuses index r r' stop := by
  refine mapM_refuses (fun name slot s h => ?_) (fun name stop s h => ?_) h
  · rw [map_eq_pure_bind] at h
    simp only [runFrom_bind_eq_ok, runFrom_pure, Prod.mk.injEq] at h
    obtain ⟨v, q, hv, -, rfl⟩ := h
    exact (var_eq_ok hv).2
  · rw [map_eq_pure_bind] at h
    simp only [runFrom_bind_eq_error, runFrom_pure, Prod.mk.injEq, reduceCtorEq, false_and,
      and_false, exists_false, or_false] at h
    exact var_refuses h

private theorem asGuard_complains (h : runFrom (asGuard driver positions index spec op) r =
    (.error stop, r')) : Complains index r r' stop := by
  unfold asGuard at h
  split at h
  · cases h
  · rename_i hguard
    simp only [runFrom_bind_eq_error, runFrom_get, runFrom_modify, runFrom_pure,
      Prod.mk.injEq, Except.ok.injEq, reduceCtorEq, false_and, and_false,
      exists_false, false_or, or_false] at h
    obtain ⟨_, _, ⟨rfl, rfl⟩, h⟩ := h
    obtain ⟨kind, hkind⟩ := GuardKind.exists_ofOpCode driver.id (by simpa using hguard)
    rcases h with h | ⟨⟨g, guards⟩, s, hinvent, _, _, ⟨-, rfl⟩, h⟩
    · rw [GuardTable.invent, hkind] at h
      cases h
    · obtain ⟨-, rfl⟩ := ofFault_eq_ok hinvent
      exact (slots_refuses h).complains rfl

private theorem withResult_complains (h : runFrom (withResult index spec op) r =
    (.error stop, r')) : Complains index r r' stop := by
  unfold withResult at h
  cases hresult : spec.result with
  | none =>
    rw [hresult] at h
    cases h
  | some name =>
    rw [hresult] at h
    dsimp only at h
    cases hkind : kindOfName? name with
    | none =>
      rw [hkind] at h
      cases h
      exact .of_error rfl
    | some kind =>
      rw [hkind] at h
      simp only [runFrom_bind_eq_error, runFrom_get, runFrom_modify, letName, runFrom_pure,
        Prod.mk.injEq, Except.ok.injEq, reduceCtorEq, false_and, and_false,
        exists_false, false_or, or_false] at h
      obtain ⟨_, _, ⟨rfl, rfl⟩, h⟩ := h
      rw [ValueIds.fresh] at h
      split at h
      · cases h
      · rename_i hnext
        cases h
        exact ⟨rfl, .inr ⟨_, rfl, Nat.le_of_not_lt hnext⟩⟩

theorem op_complains (h : runFrom (Recorder.op driver positions index spec) r =
    (.error stop, r')) : Complains index r r' stop := by
  unfold Recorder.op at h
  cases hbody : spec.op.isFinal || spec.op == .label with
  | true =>
    simp only [hbody, if_true, runFrom_bind_eq_error, runFrom_throw, Prod.mk.injEq, reduceCtorEq,
      false_and, exists_false, or_false] at h
    obtain ⟨heq, rfl⟩ := h
    cases heq
    exact .of_error rfl
  | false =>
    simp only [hbody, Bool.false_eq_true, if_false, runFrom_bind_eq_error, runFrom_get,
      runFrom_modify, Prod.mk.injEq, Except.ok.injEq, reduceCtorEq, false_and, and_false,
      exists_false, false_or, or_false] at h
    rcases h with h | ⟨args, q, hargs, h | ⟨o, q', hguard, h | ⟨o', q'', hresult, _, _, ⟨rfl, rfl⟩, h⟩⟩⟩
    · exact (args_refuses h).complains rfl
    · obtain ⟨-, rfl⟩ := args_eq_ok hargs
      exact asGuard_complains h
    · obtain ⟨-, rfl⟩ := args_eq_ok hargs
      obtain ⟨hhistory, -⟩ := asGuard_eq_ok hguard
      exact (withResult_complains h).of_history hhistory
    · -- a fresh number is reserved already
      obtain ⟨-, -, -, hbinds⟩ := withResult_eq_ok (by
        obtain ⟨-, -, -, g, -, rfl⟩ := asGuard_eq_ok hguard
        cases spec.quasi <;> rfl) hresult
      rw [recordOp_of_lt fun v hv => Binds.lt_next (hv ▸ hbinds)] at h
      cases h

private theorem forM_complains {f : OpSpec × Nat → RecordM Unit}
    (hf : ∀ spec index r stop r', runFrom (f (spec, index)) r = (.error stop, r') →
      Complains index r r' stop) {start : Nat}
    (h : runFrom ((specs.zipIdx start).forM f) r = (.error stop, r')) :
    ∃ k < specs.length, ∃ q, runFrom (((specs.take k).zipIdx start).forM f) r = (.ok (), q) ∧
      Complains (start + k) q r' stop := by
  induction specs generalizing start r with
  | nil => cases h
  | cons spec specs ih =>
    rw [List.zipIdx_cons, runFrom_forM_cons_eq_error] at h
    rcases h with h | ⟨s, hop, h⟩
    · exact ⟨0, Nat.succ_pos _, r, rfl, hf _ _ _ _ _ h⟩
    · obtain ⟨k, hk, q, hq, hstop⟩ := ih h
      refine ⟨k + 1, Nat.succ_lt_succ hk, q, ?_, by rwa [Nat.add_right_comm] at hstop⟩
      rw [List.take_succ_cons, List.zipIdx_cons, runFrom_forM_cons_eq_ok]
      exact ⟨s, hop, hq⟩

/-- The operations in front of the one at which a recorder stops have been recorded. -/
theorem ops_complains (h : runFrom (Recorder.ops driver positions specs) r = (.error stop, r')) :
    ∃ k < specs.length, ∃ q,
      runFrom (Recorder.ops driver positions (specs.take k)) r = (.ok (), q) ∧
        Complains k q r' stop := by
  unfold Recorder.ops at h ⊢
  obtain ⟨k, hk, q, hq, hstop⟩ := forM_complains (fun _ _ _ _ _ => op_complains) h
  exact ⟨k, hk, q, hq, (Nat.zero_add k) ▸ hstop⟩

theorem inputs_stops {l : List α} {name : α → String} {value : α → Value}
    (h : runFrom (l.forM fun a => input (name a) (value a)) r = (.error stop, r')) :
    ∃ f, stop = .fault f ∧ ValueIds.limit < r.history.values.next + l.length := by
  induction l generalizing r with
  | nil => cases h
  | cons i l ih =>
    rw [runFrom_forM_cons_eq_error] at h
    rcases h with h | ⟨q, hi, h⟩
    · simp only [input, letName, runFrom_bind_eq_error, runFrom_get, runFrom_modify, Prod.mk.injEq,
        Except.ok.injEq, reduceCtorEq, false_and, and_false, exists_false, false_or, or_false] at h
      obtain ⟨_, _, ⟨rfl, rfl⟩, h⟩ := h
      rw [History.addInput, ValueIds.fresh] at h
      split at h
      · cases h
      · rename_i hnext
        cases h
        refine ⟨_, rfl, ?_⟩
        rw [List.length_cons]
        omega
    · obtain ⟨f, hf, hlt⟩ := ih h
      rw [(input_eq_ok hi).next, List.length_singleton] at hlt
      refine ⟨f, hf, ?_⟩
      rw [List.length_cons]
      omega

theorem Records.length_eq (h : Records specs r r' ops) : ops.length = specs.length := by
  induction h with
  | nil => rfl
  | cons _ _ ih => rw [List.length_cons, List.length_cons, ih]

theorem Records.next_le_add (h : Records specs r r' ops) :
    r'.history.values.next ≤ r.history.values.next + specs.length := by
  induction h with
  | nil => exact Nat.le_refl _
  | @cons spec specs r q r' op ops hop hops ih =>
    have hbinds := hop.binds
    have hnext : q.history.values.next ≤ r.history.values.next + 1 := by
      generalize spec.result = name at hbinds
      generalize op.result = result at hbinds
      cases hbinds with
      | nothing _ hvalues => rw [hvalues]; exact Nat.le_succ _
      | fresh _ _ _ _ hnext => exact Nat.le_of_eq hnext
    rw [List.length_cons]
    omega

end Stops

section Lines

variable {guards : GuardTable} {inputs : List InputSpec} {closing : List ArgSpec} {args : List Arg}

/-- Records operations behind new inputs. The answer is what is passed on behind them. -/
def line (driver : Driver) (positions : Table String Nat) (inputs : List InputSpec)
    (specs : List OpSpec) (closing : List ArgSpec) : RecordM (List Arg) := do
  Recorder.inputs inputs
  Recorder.ops driver positions specs
  Recorder.args specs.length closing

theorem recordLoop_eq_line (file : TraceFile) (driver : Driver) : Run.recordLoop file driver =
    line driver file.guardPositions file.inputs file.body file.jump := rfl

private theorem line_eq_ok
    (h : runFrom (line driver positions inputs specs closing) { guards } = (.ok args, r)) :
    ∃ q vars ops, Enters (inputs.map fun i => (i.name, i.value)) { guards } q vars ∧
      Records specs q r ops ∧ closing.map (·.value? r.names) = args.map some := by
  simp only [line, runFrom_bind_eq_ok] at h
  obtain ⟨_, q, hinputs, _, s, hops, hargs⟩ := h
  obtain ⟨vars, hinputs⟩ := inputs_eq_ok hinputs
  obtain ⟨ops, hops⟩ := ops_eq_ok hops
  obtain ⟨hargs, rfl⟩ := args_eq_ok hargs
  exact ⟨q, vars, ops, hinputs, hops, hargs⟩

private theorem line_complains {stop : RecordStop}
    (h : runFrom (line driver positions inputs specs closing) { guards } = (.error stop, r)) :
    (∃ f, stop = .fault f ∧ ValueIds.limit < inputs.length + specs.length) ∨
      ∃ k ≤ specs.length, ∃ e q, stop = .error e ∧ e.index = k ∧ r.history = q.history ∧
        runFrom (line driver positions inputs (specs.take k) []) { guards } = (.ok [], q) := by
  have hprefix {q s : Recorder} {k : Nat}
      (hinputs : runFrom (Recorder.inputs inputs) { guards } = (.ok (), q))
      (hops : runFrom (Recorder.ops driver positions (specs.take k)) q = (.ok (), s)) :
      runFrom (line driver positions inputs (specs.take k) []) { guards } = (.ok [], s) := by
    simp only [line, runFrom_bind_eq_ok]
    exact ⟨(), q, hinputs, (), s, hops, rfl⟩
  simp only [line, runFrom_bind_eq_error] at h
  rcases h with h | ⟨⟨⟩, q, hinputs, h | ⟨⟨⟩, s, hops, h⟩⟩
  · obtain ⟨f, hf, hlt⟩ := inputs_stops h
    rw [Nat.zero_add] at hlt
    exact .inl ⟨f, hf, Nat.lt_of_lt_of_le hlt (Nat.le_add_right ..)⟩
  · obtain ⟨k, hk, s, hops, hhistory, ⟨e, he, hindex⟩ | ⟨f, hf, hle⟩⟩ := ops_complains h
    · exact .inr ⟨k, Nat.le_of_lt hk, e, s, he, hindex, hhistory, hprefix hinputs hops⟩
    · obtain ⟨vars, henters⟩ := inputs_eq_ok hinputs
      obtain ⟨ops, hops⟩ := ops_eq_ok hops
      have hnext := hops.next_le_add
      rw [henters.next, List.length_map, List.length_take_of_le (Nat.le_of_lt hk)] at hnext
      refine .inl ⟨f, hf, Nat.lt_of_le_of_lt (Nat.le_trans hle hnext) ?_⟩
      dsimp only
      omega
  · obtain ⟨rfl, e, he, hindex⟩ := args_refuses h
    refine .inr ⟨specs.length, Nat.le_refl _, e, r, he, hindex, rfl, hprefix hinputs ?_⟩
    rwa [List.take_length]

/--
Recording is a conversion to single assignment. What has been recorded assigns every variable once
and before its uses, and it computes what the operations over names do. A recorder that complains of
an operation has recorded those before it and nothing else; apart from complaints it stops for want
of numbers alone.
-/
theorem line_converts (driver : Driver) (positions : Table String Nat) (guards : GuardTable)
    (inputs : List InputSpec) (specs : List OpSpec) (closing : List ArgSpec) :
    (∀ args r, runFrom (line driver positions inputs specs closing) { guards } = (.ok args, r) →
      r.history.SingleAssignment args ∧ r.history.operations.length = specs.length ∧
      ∀ (σ : Type) (I : Interpretation σ) (vals : List Value), vals.length = inputs.length →
        ∀ (β : Bindings) (ρ : Env) (st : σ),
          I.run args r.history.operations (ρ.bind r.history.inputVars vals) st =
            I.runNamed closing specs (β.setAll ((inputs.map (·.name)).zip vals)) st) ∧
    (∀ e r, runFrom (line driver positions inputs specs closing) { guards } =
        (.error (.error e), r) →
      e.index ≤ specs.length ∧ r.history.operations.length = e.index ∧
      ∃ q, runFrom (line driver positions inputs (specs.take e.index) []) { guards } = (.ok [], q) ∧
        r.history = q.history) ∧
    (∀ f r, runFrom (line driver positions inputs specs closing) { guards } =
        (.error (.fault f), r) →
      ValueIds.limit < inputs.length + specs.length) := by
  refine ⟨fun args r h => ?_, fun e r h => ?_, fun f r h => ?_⟩
  · obtain ⟨q, vars, ops, hinputs, hops, hargs⟩ := line_eq_ok h
    have howns := hinputs.owns rfl
    have hoperations : q.history.operations = [] := hinputs.operations
    have hvars : q.history.inputVars = vars := by
      rw [hinputs.inputs]
      rfl
    have hall : r.history.operations = ops := by
      rw [hops.operations, hoperations, List.nil_append]
    refine ⟨singleAssignment_of_records howns hvars hoperations hops hargs,
      by rw [hall, hops.length_eq], fun σ I vals hvals β ρ st => ?_⟩
    have hagrees := hinputs.agrees rfl (hvals.trans (List.length_map ..).symm) β ρ
    have hnames : (inputs.map fun i => (i.name, i.value)).map Prod.fst = inputs.map (·.name) := by
      rw [List.map_map]
      rfl
    rw [hall, History.inputVars, hops.inputs, ← History.inputVars, hvars, ← hnames]
    exact hops.converts howns hagrees hargs I st
  · rcases line_complains h with ⟨f, hf, -⟩ | ⟨k, hk, e', q, he, rfl, hhistory, hq⟩
    · cases hf
    · cases he
      obtain ⟨_, _, ops, hinputs, hops, -⟩ := line_eq_ok hq
      refine ⟨hk, ?_, q, hq, hhistory⟩
      rw [hhistory, hops.operations, hinputs.operations, List.nil_append, hops.length_eq,
        List.length_take_of_le hk]
  · rcases line_complains h with ⟨f', hf, hlt⟩ | ⟨_, _, _, _, he, -⟩
    · exact hlt
    · cases he

/-- A counter that is bound again and again, and checked on its way: `i0 = i0 + 1; i0 = i0 * i0`. -/
def squaring : List OpSpec :=
  [{ op := .intAdd, result := some "i0", args := [.name "i0", .const (.int 1)] },
   { op := .guardTrue, args := [.name "i0"], failArgs := ["i0", "p1"] },
   { op := .intMul, result := some "i0", args := [.name "i0", .name "i0"] }]

/-- Two inputs share a name; the second one hides the first. -/
def squaringInputs : List InputSpec :=
  [⟨"i0", .int 9⟩, ⟨"p1", .ref 7⟩, ⟨"i0", .int 2⟩]

theorem line_converts_squaring :
    ∃ r, runFrom (line default .empty squaringInputs squaring [.name "i0"]) { guards := {} } =
        (.ok [.var ⟨4, .int⟩], r) ∧
      r.history.SingleAssignment [.var ⟨4, .int⟩] ∧
      ∀ (σ : Type) (I : Interpretation σ) (β : Bindings) (ρ : Env) (st : σ),
        I.run [.var ⟨4, .int⟩] r.history.operations
            (ρ.bind r.history.inputVars [.int 9, .ref 7, .int 2]) st =
          I.runNamed [.name "i0"] squaring
            (β.setAll (["i0", "p1", "i0"].zip [.int 9, .ref 7, .int 2])) st := by
  have hline : (runFrom (line default .empty squaringInputs squaring [.name "i0"])
      { guards := {} }).1.toOption = some [.var ⟨4, .int⟩] := by decide +kernel
  obtain ⟨hok, -, -⟩ := line_converts default .empty {} squaringInputs squaring [.name "i0"]
  rcases hrun : runFrom (line default .empty squaringInputs squaring [.name "i0"])
    { guards := {} } with ⟨_ | args, r⟩ <;> rw [hrun] at hline <;> cases hline
  obtain ⟨hsingle, -, hruns⟩ := hok _ r hrun
  exact ⟨r, rfl, hsingle, fun σ I => hruns σ I [.int 9, .ref 7, .int 2] rfl⟩

end Lines

end Recorder

end HotLoop
