import HotLoop.Proofs.Computation
import HotLoop.Replay.Run

/-!
# What a recorder records

A recorded operation uses the variables that its names stand for, and its result gets the next
number. A name that is bound again stands for the later variable from there on.
-/

namespace HotLoop

open Replay

def Table.insertAll {κ α : Type} [DecidableEq κ] (t : Table κ α) (l : List (κ × α)) : Table κ α :=
  l.foldl (fun t e => t.insert e.1 e.2) t

namespace Table

variable {κ α β : Type} [DecidableEq κ] {t : Table κ α} {t' : Table κ β} {l : List (κ × α)}

theorem mem_of_get?_insertAll {k : κ} {a : α} (h : (t.insertAll l).get? k = some a) :
    (k, a) ∈ l ∨ t.get? k = some a := by
  induction l generalizing t with
  | nil => exact .inr h
  | cons e l ih =>
    rcases ih h with hmem | hget
    · exact .inl (List.mem_cons_of_mem _ hmem)
    · rw [get?_insert] at hget
      split at hget
      · rename_i hk
        cases hget
        rw [hk]
        exact .inl (List.mem_cons_self ..)
      · exact .inr hget

theorem exists_get?_insertAll {k : κ} (h : k ∈ l.map Prod.fst ∨ ∃ a, t.get? k = some a) :
    ∃ a, (t.insertAll l).get? k = some a := by
  induction l generalizing t with
  | nil => exact h.resolve_left (by simp)
  | cons e l ih =>
    refine ih ?_
    by_cases hk : k = e.1
    · exact .inr ⟨e.2, by rw [get?_insert, if_pos hk]⟩
    · rcases h with hmem | ⟨a, hget⟩
      · exact .inl ((List.mem_cons.mp hmem).resolve_left hk)
      · exact .inr ⟨a, by rw [get?_insert, if_neg hk, hget]⟩

/-- What holds the images of the values holds them after insertions. -/
theorem get?_insertAll_map {f : α → β} (h : ∀ k a, t.get? k = some a → t'.get? k = some (f a))
    {k : κ} {a : α} (hget : (t.insertAll l).get? k = some a) :
    (t'.insertAll (l.map fun e => (e.1, f e.2))).get? k = some (f a) := by
  induction l generalizing t t' with
  | nil => exact h k a hget
  | cons e l ih =>
    refine ih (fun k a hget => ?_) hget
    rw [get?_insert] at hget ⊢
    split at hget
    · rename_i hk
      cases hget
      exact if_pos hk
    · rename_i hk
      rw [if_neg hk]
      exact h k a hget

end Table

/-- What an argument means where names stand for variables. -/
def Replay.ArgSpec.value? (names : Table String Var) : ArgSpec → Option Arg
  | .const c => some (.const c)
  | .name n => (names.get? n).map .var

theorem eq_map_var_of_mapM {args : List Arg} {vars : List Var}
    (h : args.mapM Arg.var? = some vars) : args = vars.map .var := by
  induction args generalizing vars with
  | nil =>
    cases h
    rfl
  | cons a args ih =>
    simp only [List.mapM_cons, Option.bind_eq_bind, Option.bind_eq_some_iff, Option.pure_def,
      Option.some.injEq] at h
    obtain ⟨v, hv, vs, hvs, rfl⟩ := h
    cases a with
    | const c => cases hv
    | var w =>
      cases hv
      rw [List.map_cons, ih hvs]

namespace Recorder

variable {r r' : Recorder} {index : Nat} {driver : Driver} {positions : Table String Nat}

section Reading

private theorem mapM_eq_ok {α β : Type} {f : α → RecordM β} {g : α → Option β}
    (hf : ∀ a b r', runFrom (f a) r = (.ok b, r') → g a = some b ∧ r' = r) {l : List α}
    {bs : List β} (h : runFrom (l.mapM f) r = (.ok bs, r')) : l.map g = bs.map some ∧ r' = r := by
  induction l generalizing bs with
  | nil =>
    simp only [List.mapM_nil, runFrom_pure, Prod.mk.injEq, Except.ok.injEq] at h
    obtain ⟨rfl, rfl⟩ := h
    exact ⟨rfl, rfl⟩
  | cons a l ih =>
    simp only [List.mapM_cons, runFrom_bind_eq_ok, runFrom_pure, Prod.mk.injEq,
      Except.ok.injEq] at h
    obtain ⟨b, q, hb, bs', q', hbs, rfl, rfl⟩ := h
    obtain ⟨hg, rfl⟩ := hf a b q hb
    obtain ⟨hmap, rfl⟩ := ih hbs
    exact ⟨by rw [List.map_cons, List.map_cons, hg, hmap], rfl⟩

theorem var_eq_ok {name : String} {v : Var} (h : runFrom (var index name) r = (.ok v, r')) :
    r.names.get? name = some v ∧ r' = r := by
  simp only [var, runFrom_bind_eq_ok, runFrom_get, Prod.mk.injEq, Except.ok.injEq] at h
  obtain ⟨_, _, ⟨rfl, rfl⟩, h⟩ := h
  split at h
  · rename_i hname
    cases h
    exact ⟨hname, rfl⟩
  · cases h

theorem arg_eq_ok {spec : ArgSpec} {a : Arg} (h : runFrom (arg index spec) r = (.ok a, r')) :
    spec.value? r.names = some a ∧ r' = r := by
  cases spec with
  | const c =>
    cases h
    exact ⟨rfl, rfl⟩
  | name n =>
    simp only [arg, runFrom_bind_eq_ok, runFrom_pure, Prod.mk.injEq, Except.ok.injEq] at h
    obtain ⟨v, q, hv, rfl, rfl⟩ := h
    obtain ⟨hname, rfl⟩ := var_eq_ok hv
    exact ⟨by rw [ArgSpec.value?, hname]; rfl, rfl⟩

theorem args_eq_ok {specs : List ArgSpec} {args : List Arg}
    (h : runFrom (Recorder.args index specs) r = (.ok args, r')) :
    specs.map (·.value? r.names) = args.map some ∧ r' = r :=
  mapM_eq_ok (fun _ _ _ => arg_eq_ok) h

theorem slots_eq_ok {names : List String} {slots : List (Option Var)}
    (h : runFrom (names.mapM fun name => some <$> var index name : RecordM _) r =
      (.ok slots, r')) :
    slots = names.map r.names.get? ∧ (∀ n ∈ names, ∃ v, r.names.get? n = some v) ∧ r' = r := by
  have hslots := mapM_eq_ok (g := fun name => (r.names.get? name).map some)
    (fun name slot r' h => ?_) h
  · obtain ⟨hmap, rfl⟩ := hslots
    have hjoin := congrArg (List.map Option.join) hmap
    rw [List.map_map, List.map_map] at hjoin
    refine ⟨(List.map_id slots).symm.trans (hjoin.symm.trans ?_), fun n hn => ?_, rfl⟩
    · refine List.map_congr_left fun name _ => ?_
      rw [Function.comp_apply]
      cases r'.names.get? name <;> rfl
    · obtain ⟨slot, -, hslot⟩ := List.mem_map.mp (hmap ▸ List.mem_map_of_mem hn)
      obtain ⟨v, hv, -⟩ := Option.map_eq_some_iff.mp hslot.symm
      exact ⟨v, hv⟩
  · rw [map_eq_pure_bind] at h
    simp only [runFrom_bind_eq_ok, runFrom_pure, Prod.mk.injEq, Except.ok.injEq] at h
    obtain ⟨v, q, hv, rfl, rfl⟩ := h
    obtain ⟨hname, rfl⟩ := var_eq_ok hv
    exact ⟨by rw [hname]; rfl, rfl⟩

end Reading

section Operations

variable {spec : OpSpec} {op op' : Operation}

theorem ofFault_eq_ok {α : Type} {e : Except Fault α} {a : α}
    (h : runFrom (ofFault e) r = (.ok a, r')) : e = .ok a ∧ r' = r := by
  cases e with
  | error f => cases h
  | ok b =>
    cases h
    exact ⟨rfl, rfl⟩

/-- A guard, and no other operation, gets a descriptor of its own and hands over what it names. -/
theorem asGuard_eq_ok (h : runFrom (asGuard driver positions index spec op) r =
      (.ok op', r')) : r'.history = r.history ∧ r'.names = r.names ∧
    (spec.op.isGuard = true → ∀ n ∈ spec.failArgs, ∃ v, r.names.get? n = some v) ∧
    ∃ g : Option Guard, g.isSome = spec.op.isGuard ∧ op' = { op with
      descr := (g.map .guard).or op.descr
      failArgs := (g.map fun _ => spec.failArgs.map r.names.get?).or op.failArgs } := by
  unfold asGuard at h
  split at h
  · rename_i hguard
    cases h
    have hplain : spec.op.isGuard = false := by simpa using hguard
    refine ⟨rfl, rfl, fun h => ?_, none, hplain.symm, rfl⟩
    rw [hplain] at h
    cases h
  · rename_i hguard
    simp only [runFrom_bind_eq_ok, runFrom_get, runFrom_pure, runFrom_modify, Prod.mk.injEq,
      Except.ok.injEq] at h
    obtain ⟨_, _, ⟨rfl, rfl⟩, ⟨g, guards⟩, _, hinvent, _, _, ⟨-, rfl⟩, slots, _, hslots, rfl,
      rfl⟩ := h
    obtain ⟨-, rfl⟩ := ofFault_eq_ok hinvent
    obtain ⟨rfl, hbound, rfl⟩ := slots_eq_ok hslots
    exact ⟨rfl, rfl, fun _ => hbound, some g, by simpa using hguard, rfl⟩

/-- What becomes of the name for a result: it stands for the next variable from here on. -/
inductive Binds (r r' : Recorder) : Option String → Option Var → Prop where
  | nothing (hnames : r'.names = r.names) (hvalues : r'.history.values = r.history.values) :
    Binds r r' none none
  | fresh (name : String) (kind : Kind) (hkind : kindOfName? name = some kind)
    (hnames : r'.names = r.names.insert name ⟨r.history.values.next, kind⟩)
    (hnext : r'.history.values.next = r.history.values.next + 1) :
    Binds r r' (some name) (some ⟨r.history.values.next, kind⟩)

theorem Binds.lt_next {name : Option String} {v : Var} (h : Binds r r' name (some v)) :
    v.id < r'.history.values.next := by
  cases h with
  | fresh _ _ _ _ hnext =>
    rw [hnext]
    exact Nat.lt_succ_self _

theorem Binds.next_le {name : Option String} {v : Option Var} (h : Binds r r' name v) :
    r.history.values.next ≤ r'.history.values.next := by
  cases h with
  | nothing _ hvalues => exact Nat.le_of_eq (congrArg ValueIds.next hvalues.symm)
  | fresh _ _ _ _ hnext =>
    rw [hnext]
    exact Nat.le_succ _

theorem Binds.of_eq {s s' : Recorder} {name : Option String} {result : Option Var}
    (h : Binds r r' name result) (hnames : r.names = s.names)
    (hvalues : r.history.values = s.history.values) (hnames' : s'.names = r'.names)
    (hvalues' : s'.history.values = r'.history.values) : Binds s s' name result := by
  cases h with
  | nothing hn hv =>
    exact .nothing (hnames'.trans (hn.trans hnames)) (hvalues'.trans (hv.trans hvalues))
  | fresh name kind hkind hn hnext =>
    rw [hvalues] at hn hnext ⊢
    exact .fresh name kind hkind (hnames'.trans (hnames ▸ hn)) (by rw [hvalues', hnext])

theorem withResult_eq_ok (hop : op.result = none)
    (h : runFrom (withResult index spec op) r = (.ok op', r')) :
    r'.history.operations = r.history.operations ∧ r'.history.inputs = r.history.inputs ∧
      op' = { op with result := op'.result } ∧ Binds r r' spec.result op'.result := by
  unfold withResult at h
  cases hresult : spec.result with
  | none =>
    rw [hresult] at h
    cases h
    rw [hop]
    exact ⟨rfl, rfl, by rw [← hop], .nothing rfl rfl⟩
  | some name =>
    rw [hresult] at h
    dsimp only at h
    cases hkind : kindOfName? name with
    | none =>
      rw [hkind] at h
      cases h
    | some kind =>
      rw [hkind] at h
      simp only [runFrom_bind_eq_ok, runFrom_get, runFrom_pure, runFrom_modify, letName,
        Prod.mk.injEq, Except.ok.injEq] at h
      obtain ⟨_, _, ⟨rfl, rfl⟩, ⟨v, values⟩, _, hfresh, _, _, ⟨-, rfl⟩, _, _, ⟨-, rfl⟩, rfl, rfl⟩ := h
      obtain ⟨hfresh, rfl⟩ := ofFault_eq_ok hfresh
      obtain ⟨rfl, hnext⟩ := ValueIds.fresh_eq_ok hfresh
      exact ⟨rfl, rfl, rfl, .fresh name kind hkind rfl hnext⟩

/-- The operation that is recorded for a named one, between two states of the recorder. -/
structure Recorded (spec : OpSpec) (r r' : Recorder) (op : Operation) : Prop where
  operations : r'.history.operations = r.history.operations ++ [op]
  inputs : r'.history.inputs = r.history.inputs
  opcode : op.opcode = spec.op
  isFinal : op.isFinal = false
  unlabelled : op.opcode ≠ .label
  args : spec.args.map (·.value? r.names) = op.args.map some
  guarded : ∃ g : Option Guard, g.isSome = spec.op.isGuard ∧
    op.descr = (spec.quasi.map .quasiImmut).or (g.map .guard) ∧
    op.failArgs = g.map fun _ => spec.failArgs.map r.names.get?
  bound : spec.op.isGuard = true → ∀ n ∈ spec.failArgs, ∃ v, r.names.get? n = some v
  binds : Binds r r' spec.result op.result

theorem recordOp_of_lt {h : History} (hresult : ∀ v, op.result = some v → v.id < h.values.next) :
    h.recordOp op = .ok { h with operations := h.operations ++ [op] } := by
  unfold History.recordOp
  cases hop : op.result with
  | none => rfl
  | some v =>
    dsimp only
    rw [ValueIds.reserve, if_pos (hresult v hop)]
    rfl

theorem recordOp_eq_ok {h h' : History} (hrun : h.recordOp op = .ok h')
    (hresult : ∀ v, op.result = some v → v.id < h.values.next) :
    h' = { h with operations := h.operations ++ [op] } :=
  Except.ok.inj (hrun.symm.trans (recordOp_of_lt hresult))

/-- The steps in which the operation `op` is put together for a named one, and recorded. -/
inductive OpSteps (driver : Driver) (positions : Table String Nat) (index : Nat) (spec : OpSpec)
    (r : Recorder) (op : Operation) : Recorder → Prop where
  | intro {args : List Arg} {guarded : Operation} {q q' : Recorder} {history : History}
    (hbody : (spec.op.isFinal || spec.op == .label) = false)
    (hargs : spec.args.map (·.value? r.names) = args.map some)
    (hguard : runFrom (asGuard driver positions index spec { opcode := spec.op, args }) r =
      (.ok guarded, q))
    (hresult : runFrom (withResult index spec { guarded with
      descr := (spec.quasi.map .quasiImmut).or guarded.descr }) q = (.ok op, q'))
    (hrecord : q'.history.recordOp op = .ok history) :
    OpSteps driver positions index spec r op { q' with history }

theorem opSteps_of_op (h : runFrom (Recorder.op driver positions index spec) r = (.ok (), r')) :
    ∃ o, OpSteps driver positions index spec r o r' := by
  unfold Recorder.op at h
  cases hbody : spec.op.isFinal || spec.op == .label with
  | true =>
    simp only [hbody, if_true, runFrom_bind_eq_ok, runFrom_throw] at h
    obtain ⟨_, _, h, -⟩ := h
    cases h
  | false =>
    simp only [hbody, Bool.false_eq_true, if_false, runFrom_bind_eq_ok, runFrom_get,
      runFrom_modify, Prod.mk.injEq, Except.ok.injEq] at h
    obtain ⟨args, q, hargs, guarded, q', hguard, o, q'', hresult, _, _, ⟨rfl, rfl⟩, history, u,
      hrecord, -, rfl⟩ := h
    obtain ⟨hargs, rfl⟩ := args_eq_ok hargs
    obtain ⟨hrecord, rfl⟩ := ofFault_eq_ok hrecord
    refine ⟨o, .intro hbody hargs hguard ?_ hrecord⟩
    cases hquasi : spec.quasi <;> rw [hquasi] at hresult <;> exact hresult

theorem OpSteps.recorded {o : Operation} (h : OpSteps driver positions index spec r o r') :
    Recorded spec r r' o := by
  obtain ⟨hbody, hargs, hguard, hresult, hrecord⟩ := h
  obtain ⟨hfinal, hlabel⟩ := Bool.or_eq_false_iff.mp hbody
  obtain ⟨hhistory, hnames, hbound, g, hg, rfl⟩ := asGuard_eq_ok hguard
  obtain ⟨hoperations, hinputs, ho, hbinds⟩ := withResult_eq_ok rfl hresult
  have hopcode : o.opcode = spec.op := by rw [ho]
  rw [recordOp_eq_ok hrecord fun v hv => (hv ▸ hbinds).lt_next]
  refine ⟨?_, ?_, hopcode, ?_, ?_, ?_, ⟨g, hg, ?_, ?_⟩, hbound, ?_⟩
  · rw [← hhistory, ← hoperations]
  · rw [← hhistory, ← hinputs]
  · rw [Operation.isFinal, hopcode, hfinal]
  · rw [hopcode]
    simpa using hlabel
  · rw [hargs, ho]
  · rw [ho]
    simp
  · rw [ho]
    simp
  · exact hbinds.of_eq hnames (by rw [hhistory]) rfl rfl

theorem op_eq_ok (h : runFrom (Recorder.op driver positions index spec) r = (.ok (), r')) :
    ∃ o, Recorded spec r r' o := by
  obtain ⟨o, hsteps⟩ := opSteps_of_op h
  exact ⟨o, hsteps.recorded⟩

inductive Records : List OpSpec → Recorder → Recorder → List Operation → Prop where
  | nil (r : Recorder) : Records [] r r []
  | cons {spec : OpSpec} {specs : List OpSpec} {r q r' : Recorder} {op : Operation}
    {ops : List Operation} (hop : Recorded spec r q op) (hops : Records specs q r' ops) :
    Records (spec :: specs) r r' (op :: ops)

namespace Records

variable {specs : List OpSpec} {ops : List Operation}

theorem operations (h : Records specs r r' ops) :
    r'.history.operations = r.history.operations ++ ops := by
  induction h with
  | nil => rw [List.append_nil]
  | cons hop _ ih => rw [ih, hop.operations, List.append_assoc, List.singleton_append]

theorem inputs (h : Records specs r r' ops) : r'.history.inputs = r.history.inputs := by
  induction h with
  | nil => rfl
  | cons hop _ ih => rw [ih, hop.inputs]

theorem isFinal (h : Records specs r r' ops) : ∀ op ∈ ops, op.isFinal = false := by
  induction h with
  | nil => simp
  | cons hop _ ih => exact List.forall_mem_cons.mpr ⟨hop.isFinal, ih⟩

theorem unlabelled (h : Records specs r r' ops) : ∀ op ∈ ops, op.opcode ≠ .label := by
  induction h with
  | nil => simp
  | cons hop _ ih => exact List.forall_mem_cons.mpr ⟨hop.unlabelled, ih⟩

theorem next_le (h : Records specs r r' ops) :
    r.history.values.next ≤ r'.history.values.next := by
  induction h with
  | nil => exact Nat.le_refl _
  | cons hop _ ih => exact Nat.le_trans hop.binds.next_le ih

end Records

theorem ops_eq_ok {specs : List OpSpec}
    (h : runFrom (Recorder.ops driver positions specs) r = (.ok (), r')) :
    ∃ ops, Records specs r r' ops := by
  unfold Recorder.ops at h
  generalize 0 = start at h
  induction specs generalizing r start with
  | nil =>
    cases h
    exact ⟨[], .nil _⟩
  | cons spec specs ih =>
    rw [List.zipIdx_cons, runFrom_forM_cons_eq_ok] at h
    obtain ⟨q, hop, hops⟩ := h
    obtain ⟨op, hop⟩ := op_eq_ok hop
    obtain ⟨ops, hops⟩ := ih _ hops
    exact ⟨op :: ops, .cons hop hops⟩

end Operations

section Inputs

/-- Between the two states the names have got inputs of their own, with the values. -/
structure Enters (l : List (String × Value)) (r r' : Recorder) (vars : List Var) : Prop where
  inputs : r'.history.inputVars = r.history.inputVars ++ vars
  operations : r'.history.operations = r.history.operations
  names : r'.names = r.names.insertAll ((l.map Prod.fst).zip vars)
  ids : vars.map (·.id) = List.range' r.history.values.next l.length
  kinds : vars.map (·.kind) = l.map (·.2.kind)
  next : r'.history.values.next = r.history.values.next + l.length

theorem addInput_eq_ok {h h' : History} {value : Value} {v : Var}
    (hrun : h.addInput value = .ok (v, h')) :
    v = ⟨h.values.next, value.kind⟩ ∧ h'.inputs = h.inputs ++ [⟨v, value⟩] ∧
      h'.operations = h.operations ∧ h'.values.next = h.values.next + 1 := by
  unfold History.addInput at hrun
  cases hfresh : h.values.fresh value.kind with
  | error f =>
    rw [hfresh] at hrun
    cases hrun
  | ok made =>
    rw [hfresh] at hrun
    cases hrun
    obtain ⟨hv, hnext⟩ := ValueIds.fresh_eq_ok hfresh
    exact ⟨hv, rfl, rfl, hnext⟩

theorem input_eq_ok {name : String} {value : Value}
    (h : runFrom (input name value) r = (.ok (), r')) :
    Enters [(name, value)] r r' [⟨r.history.values.next, value.kind⟩] := by
  simp only [input, letName, runFrom_bind_eq_ok, runFrom_get, runFrom_modify, Prod.mk.injEq,
    Except.ok.injEq] at h
  obtain ⟨_, _, ⟨rfl, rfl⟩, ⟨v, history⟩, _, hadd, _, _, ⟨-, rfl⟩, -, rfl⟩ := h
  obtain ⟨hadd, rfl⟩ := ofFault_eq_ok hadd
  obtain ⟨rfl, hinputs, hoperations, hnext⟩ := addInput_eq_ok hadd
  refine ⟨?_, hoperations, rfl, rfl, rfl, hnext⟩
  rw [History.inputVars, hinputs, List.map_append]
  rfl

theorem inputs_eq_ok {α : Type} {l : List α} {name : α → String} {value : α → Value}
    (h : runFrom (l.forM fun a => input (name a) (value a)) r = (.ok (), r')) :
    ∃ vars, Enters (l.map fun a => (name a, value a)) r r' vars := by
  induction l generalizing r with
  | nil =>
    cases h
    exact ⟨[], by simp, rfl, rfl, rfl, rfl, rfl⟩
  | cons a l ih =>
    rw [runFrom_forM_cons_eq_ok] at h
    obtain ⟨q, ha, hl⟩ := h
    have ha := input_eq_ok ha
    obtain ⟨vars, hl⟩ := ih hl
    refine ⟨⟨r.history.values.next, (value a).kind⟩ :: vars, ?_,
      hl.operations.trans ha.operations, ?_, ?_, ?_, ?_⟩
    · rw [hl.inputs, ha.inputs, List.append_assoc]
      rfl
    · rw [hl.names, ha.names]
      rfl
    · rw [List.map_cons, hl.ids, ha.next]
      rfl
    · rw [List.map_cons, hl.kinds]
      rfl
    · rw [hl.next, ha.next]
      exact Nat.add_right_comm ..

theorem letNames_eq_ok {α : Type} {l : List α} {name : α → String} {v : α → Var}
    (h : runFrom (l.forM fun a => letName (name a) (v a)) r = (.ok (), r')) :
    r' = { r with names := r.names.insertAll (l.map fun a => (name a, v a)) } := by
  induction l generalizing r with
  | nil =>
    cases h
    rfl
  | cons a l ih =>
    rw [runFrom_forM_cons_eq_ok] at h
    obtain ⟨q, ha, hl⟩ := h
    cases ha
    rw [ih hl]
    rfl

end Inputs

section Histories

theorem close_eq_ok {closing : Operation} (hclosing : closing.result = none)
    (h : runFrom (close closing) r = (.ok (), r')) :
    r' = { r with history := { r.history with
      operations := r.history.operations ++ [closing] } } := by
  simp only [close, runFrom_bind_eq_ok, runFrom_get, runFrom_modify, Prod.mk.injEq,
    Except.ok.injEq] at h
  obtain ⟨_, _, ⟨rfl, rfl⟩, history, _, hrecord, -, rfl⟩ := h
  obtain ⟨hrecord, rfl⟩ := ofFault_eq_ok hrecord
  rw [recordOp_eq_ok hrecord fun v hv => by rw [hclosing] at hv; cases hv]

theorem recordLoop_eq_ok {file : TraceFile} {args : List Arg}
    (h : runFrom (Run.recordLoop file driver) r = (.ok args, r')) :
    ∃ q vars ops, Enters (file.inputs.map fun i => (i.name, i.value)) r q vars ∧
      Records file.body q r' ops ∧ file.jump.map (·.value? r'.names) = args.map some := by
  simp only [Run.recordLoop, runFrom_bind_eq_ok] at h
  obtain ⟨_, q, hinputs, _, q', hops, hargs⟩ := h
  obtain ⟨vars, hinputs⟩ := inputs_eq_ok hinputs
  obtain ⟨ops, hops⟩ := ops_eq_ok hops
  obtain ⟨hargs, rfl⟩ := args_eq_ok hargs
  exact ⟨q, vars, ops, hinputs, hops, hargs⟩

theorem recordEntry_eq_ok {file : TraceFile} {unit : UnitHandle} {spec : EntrySpec}
    {history : History} (h : runFrom (Replayer.recordEntry file driver unit spec) r =
      (.ok history, r')) :
    ∃ q q' vars ops args, Enters (spec.inputs.map fun i => (i.name, i.value)) r q vars ∧
      Records spec.ops q q' ops ∧ spec.jump.map (·.value? q'.names) = args.map some ∧
      history = { q'.history with
        operations := q'.history.operations ++ [.jump args (.cell unit)] } := by
  simp only [Replayer.recordEntry, runFrom_bind_eq_ok, runFrom_get, runFrom_pure, Prod.mk.injEq,
    Except.ok.injEq] at h
  obtain ⟨_, q, hinputs, _, _, hops, args, q', hargs, _, _, hclose, _, _, ⟨rfl, rfl⟩, rfl, rfl⟩ := h
  obtain ⟨vars, hinputs⟩ := inputs_eq_ok hinputs
  obtain ⟨ops, hops⟩ := ops_eq_ok hops
  obtain ⟨hargs, rfl⟩ := args_eq_ok hargs
  refine ⟨q, q', vars, ops, args, hinputs, hops, hargs, ?_⟩
  rw [close_eq_ok rfl hclose]

theorem recordAgain_eq_ok {file : TraceFile} {inputs : List Var} {args : List Arg}
    (h : runFrom (Replayer.recordAgain file driver inputs) r = (.ok args, r')) :
    ∃ ops, Records file.body
        { r with names := r.names.insertAll ((file.inputs.map (·.name)).zip inputs) } r' ops ∧
      file.jump.map (·.value? r'.names) = args.map some := by
  simp only [Replayer.recordAgain, runFrom_bind_eq_ok] at h
  obtain ⟨_, q, hnames, _, q', hops, hargs⟩ := h
  obtain ⟨ops, hops⟩ := ops_eq_ok hops
  obtain ⟨hargs, rfl⟩ := args_eq_ok hargs
  have hpairs : (file.inputs.map (·.name)).zip inputs =
      (file.inputs.zip inputs).map fun a => (a.1.name, a.2) := by
    rw [List.zip_map_left]
    rfl
  rw [letNames_eq_ok hnames, ← hpairs] at hops
  exact ⟨ops, hops, hargs⟩

/--
A bridge ends with a jump to the loop or with a way out, and not with both, and passes on what its
arguments mean.
-/
inductive BridgeEnd (bridge : BridgeSpec) (names : Table String Var) : Operation → Prop where
  | jump (unit : UnitHandle) (jump : List ArgSpec) (args : List Arg)
    (hjump : bridge.jump = some jump) (hfinish : bridge.finish = none)
    (hargs : jump.map (·.value? names) = args.map some) :
    BridgeEnd bridge names (.jump args (.cell unit))
  | finish (driver : Driver) (finish : List ArgSpec) (args : List Arg)
    (hjump : bridge.jump = none) (hfinish : bridge.finish = some finish)
    (hargs : finish.map (·.value? names) = args.map some) :
    BridgeEnd bridge names { opcode := .finish, args, descr := some (.final driver.doneDescr) }

theorem BridgeEnd.result_eq {bridge : BridgeSpec} {names : Table String Var} {closing : Operation}
    (h : BridgeEnd bridge names closing) : closing.result = none := by
  cases h <;> rfl

theorem bridgeEnd_eq_ok {unit : Option UnitHandle} {bridge : BridgeSpec} {closing : Operation}
    (h : runFrom (Replayer.bridgeEnd driver unit bridge) r = (.ok (some closing), r')) :
    BridgeEnd bridge r.names closing ∧ r' = r := by
  unfold Replayer.bridgeEnd at h
  cases hjump : bridge.jump with
  | none =>
    cases hfinish : bridge.finish with
    | none =>
      rw [hjump, hfinish] at h
      cases h
    | some finish =>
      rw [hjump, hfinish] at h
      simp only [runFrom_bind_eq_ok, runFrom_pure, Prod.mk.injEq, Except.ok.injEq,
        Option.some.injEq] at h
      obtain ⟨args, q, hargs, rfl, rfl⟩ := h
      obtain ⟨hargs, rfl⟩ := args_eq_ok hargs
      exact ⟨.finish driver finish args hjump hfinish hargs, rfl⟩
  | some jump =>
    cases hfinish : bridge.finish with
    | some finish =>
      rw [hjump, hfinish] at h
      cases h
    | none =>
      rw [hjump, hfinish] at h
      cases unit with
      | none => cases h
      | some unit =>
        simp only [runFrom_bind_eq_ok, runFrom_pure, Prod.mk.injEq, Except.ok.injEq,
          Option.some.injEq] at h
        obtain ⟨args, q, hargs, rfl, rfl⟩ := h
        obtain ⟨hargs, rfl⟩ := args_eq_ok hargs
        exact ⟨.jump unit jump args hjump hfinish hargs, rfl⟩

section Bridges

variable {file : TraceFile} {unit : Option UnitHandle} {bridge : BridgeSpec} {frame : DeadFrame}
  {history : History}
  (h : runFrom (Replayer.recordBridge file driver unit bridge frame) r = (.ok (some history), r'))
include h

theorem runs_of_recordBridge : ∃ q q' closing,
    runFrom ((bridge.inputs.zip frame.values).forM fun (name, value) => input name value) r =
      (.ok (), q) ∧
    runFrom (Recorder.ops driver file.guardPositions bridge.ops) q = (.ok (), q') ∧
    BridgeEnd bridge q'.names closing ∧ r'.guards = q'.guards ∧
    history = { q'.history with operations := q'.history.operations ++ [closing] } := by
  simp only [Replayer.recordBridge, runFrom_bind_eq_ok] at h
  obtain ⟨_, q, hinputs, _, q', hops, closing, q'', hclosing, h⟩ := h
  cases closing with
  | none => cases h
  | some closing =>
    obtain ⟨hend, rfl⟩ := bridgeEnd_eq_ok hclosing
    simp only [runFrom_bind_eq_ok, runFrom_get, runFrom_pure, Prod.mk.injEq, Except.ok.injEq,
      Option.some.injEq] at h
    obtain ⟨_, _, hclose, _, _, ⟨rfl, rfl⟩, rfl, rfl⟩ := h
    rw [close_eq_ok hend.result_eq hclose]
    exact ⟨q, q'', closing, hinputs, hops, hend, rfl, rfl⟩

theorem recordBridge_eq_ok : ∃ q q' vars ops closing,
    Enters (bridge.inputs.zip frame.values) r q vars ∧ Records bridge.ops q q' ops ∧
      BridgeEnd bridge q'.names closing ∧
      history = { q'.history with operations := q'.history.operations ++ [closing] } := by
  obtain ⟨q, q', closing, hinputs, hops, hend, -, hhistory⟩ := runs_of_recordBridge h
  obtain ⟨vars, hinputs⟩ := inputs_eq_ok (l := bridge.inputs.zip frame.values) hinputs
  rw [List.map_id'] at hinputs
  obtain ⟨ops, hops⟩ := ops_eq_ok hops
  exact ⟨q, q', vars, ops, closing, hinputs, hops, hend, hhistory⟩

end Bridges

end Histories

end Recorder

end HotLoop
