import HotLoop.Proofs.Execution.Scope
import HotLoop.Proofs.Execution.Turns
import HotLoop.Proofs.Replay.Recorder

/-!
# Rounds of a loop over names

The loop of a trace file can be executed as it stands, with values for its names. A name that is
bound again has the later value from there on; the result of a check has no value, so that a name
which is bound to it goes out of scope. If all names are read in their scope, then what a recorder
makes of the loop does the same, round by round.
-/

namespace HotLoop

open Replay

variable {σ : Type}

/-- The values of names. -/
abbrev Bindings := String → Value

namespace Bindings

def set (β : Bindings) (name : String) (x : Value) : Bindings :=
  fun n => if n = name then x else β n

/-- Gives a value to the name that an operation binds, if it binds one. -/
def assign (β : Bindings) : Option String → Value → Bindings
  | some name, x => β.set name x
  | none, _ => β

/-- Gives values to names one after another. -/
def setAll (β : Bindings) (l : List (String × Value)) : Bindings :=
  l.foldl (fun β e => β.set e.1 e.2) β

@[simp] theorem set_self (β : Bindings) (name : String) (x : Value) : β.set name x name = x := by
  simp [set]

theorem set_of_ne {β : Bindings} {name n : String} {x : Value} (h : n ≠ name) :
    β.set name x n = β n := by
  simp [set, h]

end Bindings

namespace Replay

def ArgSpec.name? : ArgSpec → Option String
  | const _ => none
  | name n => some n

def ArgSpec.eval (β : Bindings) : ArgSpec → Value
  | const c => c
  | name n => β n

def OpSpec.defines? (spec : OpSpec) : Option String := if spec.op.isCheck then none else spec.result

/-- The names whose values are handed over where the operation fails. -/
def OpSpec.exit (spec : OpSpec) : List String := if spec.op.isGuard then spec.failArgs else []

def OpSpec.reads (spec : OpSpec) : List String := spec.args.filterMap ArgSpec.name? ++ spec.exit

def OpSpec.extend (scope : List String) (spec : OpSpec) : List String :=
  match spec.result with
  | none => scope
  | some name => if spec.op.isCheck then scope.filter (· ≠ name) else name :: scope

def NamesInScope (jump : List ArgSpec) (scope : List String) : List OpSpec → Prop
  | [] => ∀ n ∈ jump.filterMap ArgSpec.name?, n ∈ scope
  | spec :: specs => (∀ n ∈ spec.reads, n ∈ scope) ∧ NamesInScope jump (spec.extend scope) specs

instance NamesInScope.decidable (jump : List ArgSpec) (scope : List String) :
    (specs : List OpSpec) → Decidable (NamesInScope jump scope specs)
  | [] => inferInstanceAs (Decidable (∀ _ ∈ _, _))
  | spec :: specs =>
    have : Decidable (NamesInScope jump (spec.extend scope) specs) :=
      NamesInScope.decidable jump (spec.extend scope) specs
    inferInstanceAs (Decidable (_ ∧ _))

end Replay

namespace Machine

/-- One operation over names: none where it is a guard that fails. -/
def stepNamed (M : Machine σ) (memo : PureMemo) (spec : OpSpec) (β : Bindings) (st : σ) :
    Option (Bindings × σ) :=
  (M.compute memo spec.op (spec.quasi.map .quasiImmut) (spec.args.map (·.eval β)) st).map fun r =>
    (β.assign spec.defines? r.1, r.2)

/-- Operations over names one by one, the first at an index, and the jump behind them. -/
def runNamed (M : Machine σ) (memo : PureMemo) (jump : List ArgSpec) :
    Nat → List OpSpec → Bindings → σ → Ending σ
  | _, [], β, st => .stops .jump none (jump.map (·.eval β)) st
  | i, spec :: specs, β, st =>
    match M.stepNamed memo spec β st with
    | none => .fails i (spec.exit.map fun n => some (β n)) st
    | some (β', st') => M.runNamed memo jump (i + 1) specs β' st'

theorem length_of_runNamed {M : Machine σ} {memo : PureMemo} {jump : List ArgSpec} {i : Nat}
    {specs : List OpSpec} {β : Bindings} {st st' : σ} {op : OpCode} {descr : Option Descr}
    {vals : List Value}
    (h : M.runNamed memo jump i specs β st = .stops op descr vals st') :
    vals.length = jump.length := by
  induction specs generalizing i β st with
  | nil =>
    cases h
    exact List.length_map ..
  | cons spec specs ih =>
    rw [runNamed] at h
    split at h
    · cases h
    · exact ih h

end Machine

namespace TraceFile

/-- All names in the loop of the file are read in their scope. -/
def LoopInScope (file : TraceFile) : Prop :=
  NamesInScope file.jump (file.inputs.map (·.name)) file.body

instance (file : TraceFile) : Decidable file.LoopInScope :=
  inferInstanceAs (Decidable (NamesInScope ..))

/-- One round of the file's loop, with values for its inputs and for no other names. -/
def round (file : TraceFile) (M : Machine σ) (memo : PureMemo) (vals : List Value) (st : σ) :
    Ending σ :=
  M.runNamed memo file.jump 0 file.body
    (Bindings.setAll (fun _ => .void) ((file.inputs.map (·.name)).zip vals)) st

def rounds (file : TraceFile) (M : Machine σ) (memo : PureMemo) : Nat → List Value → σ → Ending σ
  | 0, vals, st => .stops .label none vals st
  | n + 1, vals, st => (file.round M memo vals st).andThen fun _ => file.rounds M memo n

end TraceFile

namespace Recorder

variable {r r' : Recorder} {names : List String} {seen : List Var} {β : Bindings} {ρ : Env}
  {spec : OpSpec} {op : Operation}

/-- Names in scope stand for variables in scope, and the next number is above all of these. -/
structure Knows (r : Recorder) (names : List String) (seen : List Var) : Prop where
  exists_var : ∀ n ∈ names, ∃ v ∈ seen, r.names.get? n = some v
  lt_next : ∀ v ∈ seen, v.id < r.history.values.next

/-- Names in scope have the values of the variables that they stand for. -/
def Means (r : Recorder) (names : List String) (β : Bindings) (ρ : Env) : Prop :=
  ∀ n ∈ names, ∀ v, r.names.get? n = some v → ρ v.id = β n

theorem Knows.mem (h : r.Knows names seen) {n : String} (hn : n ∈ names) {v : Var}
    (hv : r.names.get? n = some v) : v ∈ seen := by
  obtain ⟨w, hw, hget⟩ := h.exists_var n hn
  cases hget.symm.trans hv
  exact hw

section Arguments

variable {args : List Arg} {specs : List ArgSpec}

theorem exists_name_of_mem (h : specs.map (·.value? r.names) = args.map some) {v : Var}
    (hv : .var v ∈ args) : ∃ n ∈ specs.filterMap ArgSpec.name?, r.names.get? n = some v := by
  obtain ⟨a, ha, hav⟩ := List.mem_map.mp (h ▸ List.mem_map_of_mem hv)
  cases a with
  | const c => cases hav
  | name n =>
    obtain ⟨w, hw, hwv⟩ := Option.map_eq_some_iff.mp hav
    cases hwv
    exact ⟨n, List.mem_filterMap.mpr ⟨.name n, ha, rfl⟩, hw⟩

theorem Means.eval (h : r.Means names β ρ) (hspecs : ∀ n ∈ specs.filterMap ArgSpec.name?, n ∈ names)
    (hargs : specs.map (·.value? r.names) = args.map some) :
    args.map (·.eval ρ) = specs.map (·.eval β) := by
  induction specs generalizing args with
  | nil =>
    rw [List.map_eq_nil_iff.mp hargs.symm]
    rfl
  | cons spec specs ih =>
    obtain ⟨a, args, rfl, ha, hrest⟩ := List.map_eq_cons_iff.mp hargs.symm
    have hfirst : a.eval ρ = spec.eval β := by
      cases spec with
      | const c =>
        cases ha
        rfl
      | name n =>
        obtain ⟨v, hv, rfl⟩ := Option.map_eq_some_iff.mp ha.symm
        exact h n (hspecs n (by simp [ArgSpec.name?])) v hv
    rw [List.map_cons, List.map_cons, hfirst, ih (fun n hn => hspecs n ?_) hrest.symm]
    obtain ⟨a, ha, hn⟩ := List.mem_filterMap.mp hn
    exact List.mem_filterMap.mpr ⟨a, List.mem_cons_of_mem _ ha, hn⟩

end Arguments

namespace Recorded

theorem failSlots (h : Recorded spec r r' op) : op.failSlots = spec.exit.map r.names.get? := by
  obtain ⟨g, hg, -, hfail⟩ := h.guarded
  rw [Operation.failSlots, hfail, OpSpec.exit, ← hg]
  cases g <;> rfl

theorem leavesForGood (h : Recorded spec r r' op) : op.leavesForGood = false := by
  obtain ⟨g, -, hdescr, -⟩ := h.guarded
  rw [Operation.leavesForGood, hdescr]
  cases spec.quasi with
  | some field => rfl
  | none => cases g <;> rfl

theorem defines? (h : Recorded spec r r' op) :
    op.defines? = if spec.op.isCheck then none else op.result := by
  rw [Operation.defines?, h.opcode]

/-- A recorded operation reads variables in scope and defines a variable of its own. -/
theorem knows (h : Recorded spec r r' op) (hr : r.Knows names seen)
    (hreads : ∀ n ∈ spec.reads, n ∈ names) :
    (∀ v ∈ op.uses, v ∈ seen) ∧ (∀ v, op.result = some v → v.id ∉ seen.map (·.id)) ∧
      r'.Knows (spec.extend names) (op.extend seen) := by
  refine ⟨fun v hv => ?_, fun v hv hmem => ?_, fun n hn => ?_, fun v hv => ?_⟩
  · rcases mem_uses_iff.mp hv with ha | hslot
    · obtain ⟨n, hn, hget⟩ := exists_name_of_mem h.args ha
      exact hr.mem (hreads n (List.mem_append_left _ hn)) hget
    · rw [h.failSlots] at hslot
      obtain ⟨n, hn, hget⟩ := List.mem_map.mp hslot
      exact hr.mem (hreads n (List.mem_append_right _ hn)) hget
  · obtain ⟨w, hw, hid⟩ := List.mem_map.mp hmem
    have hbinds := h.binds
    rw [hv] at hbinds
    generalize spec.result = name at hbinds
    cases hbinds with
    | fresh => exact absurd hid (Nat.ne_of_lt (hr.lt_next w hw))
  · have hbinds := h.binds
    rw [OpSpec.extend] at hn
    generalize spec.result = name at hbinds hn
    generalize hresult : op.result = result at hbinds
    cases hbinds with
    | nothing hnames _ =>
      obtain ⟨v, hv, hget⟩ := hr.exists_var n hn
      exact ⟨v, mem_extend.mpr (.inr hv), hnames ▸ hget⟩
    | fresh name kind _ hnames _ =>
      dsimp only at hn
      rw [hnames, Table.get?_insert]
      split at hn
      · obtain ⟨hn, hne⟩ := List.mem_filter.mp hn
        obtain ⟨v, hv, hget⟩ := hr.exists_var n hn
        exact ⟨v, mem_extend.mpr (.inr hv), by rw [if_neg (of_decide_eq_true hne), hget]⟩
      · rename_i hcheck
        by_cases hne : n = name
        · refine ⟨_, mem_extend.mpr (.inl ?_), if_pos hne⟩
          rw [h.defines?, if_neg hcheck, hresult]
        · obtain ⟨v, hv, hget⟩ := hr.exists_var n ((List.mem_cons.mp hn).resolve_left hne)
          exact ⟨v, mem_extend.mpr (.inr hv), by rw [if_neg hne, hget]⟩
  · rcases mem_extend.mp hv with hdef | hv
    · have hbinds := h.binds
      rw [result_of_defines? hdef] at hbinds
      exact hbinds.lt_next
    · exact Nat.lt_of_lt_of_le (hr.lt_next v hv) h.binds.next_le

theorem compute_eq (h : Recorded spec r r' op) (hmeans : r.Means names β ρ)
    (hreads : ∀ n ∈ spec.reads, n ∈ names) (M : Machine σ) (memo : PureMemo) (st : σ) :
    M.compute memo op.opcode op.descr (op.args.map (·.eval ρ)) st =
      M.compute memo spec.op (spec.quasi.map .quasiImmut) (spec.args.map (·.eval β)) st := by
  rw [hmeans.eval (fun n hn => hreads n (List.mem_append_left _ hn)) h.args, h.opcode]
  obtain ⟨g, hg, hdescr, -⟩ := h.guarded
  rw [hdescr]
  cases g with
  | some g => exact M.compute_of_isGuard memo hg.symm _ _ _ st
  | none => rw [Option.map_none, Option.or_none]

theorem exitValues_eq (h : Recorded spec r r' op) (hr : r.Knows names seen)
    (hmeans : r.Means names β ρ) (hreads : ∀ n ∈ spec.reads, n ∈ names) :
    Machine.exitValues ρ op.exit = spec.exit.map fun n => some (β n) := by
  rw [Operation.exit, h.leavesForGood, if_neg Bool.false_ne_true, h.failSlots, Machine.exitValues,
    List.map_map, List.map_map]
  refine List.map_congr_left fun n hn => ?_
  have hname := hreads n (List.mem_append_right _ hn)
  obtain ⟨v, -, hget⟩ := hr.exists_var n hname
  rw [Function.comp_apply, Function.comp_apply, hget, ← hmeans n hname v hget]
  rfl

/-- Names keep the values of the variables that they stand for. -/
theorem means (h : Recorded spec r r' op) (hr : r.Knows names seen) (hmeans : r.Means names β ρ)
    (x : Value) :
    r'.Means (spec.extend names) (β.assign spec.defines? x) (ρ.assign op.defines? x) := by
  intro n hn v hv
  have hbinds := h.binds
  rw [h.defines?, OpSpec.defines?]
  rw [OpSpec.extend] at hn
  generalize spec.result = name at hbinds hn ⊢
  generalize op.result = result at hbinds ⊢
  cases hbinds with
  | nothing hnames _ =>
    rw [ite_self, ite_self]
    exact hmeans n hn v (hnames ▸ hv)
  | fresh name kind _ hnames _ =>
    dsimp only at hn
    rw [hnames, Table.get?_insert] at hv
    split at hn
    · rename_i hcheck
      obtain ⟨hn, hne⟩ := List.mem_filter.mp hn
      rw [if_neg (of_decide_eq_true hne)] at hv
      rw [if_pos hcheck, if_pos hcheck]
      exact hmeans n hn v hv
    · rename_i hcheck
      rw [if_neg hcheck, if_neg hcheck]
      by_cases hne : n = name
      · rw [if_pos hne] at hv
        cases hv
        rw [hne]
        exact (Env.set_self ..).trans (Bindings.set_self ..).symm
      · rw [if_neg hne] at hv
        have hmem := (List.mem_cons.mp hn).resolve_left hne
        have hlt := hr.lt_next v (hr.mem hmem hv)
        exact (Env.set_of_ne (Nat.ne_of_lt hlt)).trans
          ((hmeans n hmem v hv).trans (Bindings.set_of_ne hne).symm)

theorem not_isStop (h : Recorded spec r r' op) : op.opcode.isStop = false := by
  rw [OpCode.isStop, Bool.or_eq_false_iff]
  exact ⟨h.isFinal, decide_eq_false h.unlabelled⟩

end Recorded

namespace Records

variable {specs : List OpSpec} {ops : List Operation} {jump : List ArgSpec}

/-- Every variable of a recorded loop is defined once, and before it is used. -/
theorem inScope (h : Records specs r r' ops) (hr : r.Knows names seen)
    (hnames : NamesInScope jump names specs) {args : List Arg}
    (hargs : jump.map (·.value? r'.names) = args.map some) :
    Scoped seen ops ∧ ∀ v ∈ args.filterMap Arg.var?, v ∈ scopeAfter seen ops := by
  induction h generalizing names seen with
  | nil r =>
    refine ⟨trivial, fun v hv => ?_⟩
    obtain ⟨n, hn, hget⟩ := exists_name_of_mem hargs (Arg.mem_filterMap_var?_iff.mp hv)
    exact hr.mem (hnames n hn) hget
  | cons hop hops ih =>
    obtain ⟨hreads, hnames⟩ := hnames
    obtain ⟨huses, hresult, hknows⟩ := hop.knows hr hreads
    obtain ⟨hscoped, hafter⟩ := ih hknows hnames hargs
    exact ⟨⟨huses, hresult, hop.unlabelled, hscoped⟩, hafter⟩

/-- A recorded loop does what the loop over names does. -/
theorem run_eq (h : Records specs r r' ops) (hr : r.Knows names seen) (hmeans : r.Means names β ρ)
    (hnames : NamesInScope jump names specs) {args : List Arg}
    (hargs : jump.map (·.value? r'.names) = args.map some) (M : Machine σ) (memo : PureMemo)
    (i : Nat) (st : σ) :
    M.run memo (sites i ops ++ [⟨{ opcode := .jump, args }, 0, []⟩]) ρ st =
      M.runNamed memo jump i specs β st := by
  induction h generalizing names seen β ρ i st with
  | nil r =>
    rw [Machine.runNamed, ← hmeans.eval hnames hargs]
    rfl
  | @cons spec specs r q r' op ops hop hops ih =>
    obtain ⟨hreads, hnames⟩ := hnames
    obtain ⟨-, -, hknows⟩ := hop.knows hr hreads
    have hcompute := hop.compute_eq hmeans hreads M memo st
    rw [sites, List.cons_append, Machine.runNamed, Machine.stepNamed, ← hcompute]
    cases hresult : M.compute memo op.opcode op.descr (op.args.map (·.eval ρ)) st with
    | none =>
      rw [M.run_cons_of_compute_none memo hop.not_isStop hresult]
      dsimp only [Option.map_none]
      rw [hop.exitValues_eq hr hmeans hreads]
    | some result =>
      obtain ⟨x, st'⟩ := result
      rw [M.run_cons_of_compute_some memo hop.not_isStop hresult]
      exact ih hknows (hop.means hr hmeans x) hnames hargs (i + 1) st'

end Records

section Inputs

variable {table : Table String Var} {l : List (String × Var)}

theorem eval_insertAll (h : ∀ n v, table.get? n = some v → ρ v.id = β n) :
    ∀ n v, (table.insertAll l).get? n = some v →
      ρ v.id = β.setAll (l.map fun e => (e.1, ρ e.2.id)) n := by
  induction l generalizing table β with
  | nil => exact h
  | cons e l ih =>
    refine ih fun n v hv => ?_
    rw [Table.get?_insert] at hv
    split at hv
    · rename_i heq
      cases hv
      rw [heq]
      exact (Bindings.set_self ..).symm
    · rename_i hne
      exact (h n v hv).trans (Bindings.set_of_ne hne).symm

theorem map_bind {vars : List Var} {vals : List Value} (h : (vars.map (·.id)).Nodup)
    (hlen : vals.length = vars.length) (base : Env) :
    vars.map (fun v => base.bind vars vals v.id) = vals := by
  refine List.ext_getElem (by rw [List.length_map, hlen]) fun k hk hk' => ?_
  rw [List.getElem_map]
  have hvar : k < vars.length := hlen ▸ hk'
  exact Env.bind_of_getElem? h (List.getElem?_eq_getElem hvar) (List.getElem?_eq_getElem hk')

variable {inputs : List Var}

theorem knows_of_names (hnames : r.names = Table.empty.insertAll (names.zip inputs))
    (hlen : names.length = inputs.length) (hlt : ∀ v ∈ inputs, v.id < r.history.values.next) :
    r.Knows names inputs where
  exists_var n hn := by
    rw [hnames]
    have hmem : n ∈ (names.zip inputs).map Prod.fst := by
      rwa [List.map_fst_zip (Nat.le_of_eq hlen)]
    obtain ⟨v, hv⟩ := Table.exists_get?_insertAll (t := .empty) (.inl hmem)
    rcases Table.mem_of_get?_insertAll hv with hzip | hget
    · exact ⟨v, (List.of_mem_zip hzip).2, hv⟩
    · cases hget
  lt_next := hlt

theorem means_of_names {vals : List Value}
    (hnames : r.names = Table.empty.insertAll (names.zip inputs))
    (hnodup : (inputs.map (·.id)).Nodup) (hvals : vals.length = inputs.length) (base : Env) :
    r.Means names (Bindings.setAll (fun _ => .void) (names.zip vals)) (base.bind inputs vals) := by
  intro n _ v hv
  rw [hnames] at hv
  have heval := eval_insertAll (ρ := base.bind inputs vals) (β := fun _ => .void)
    (fun n v hget => by cases hget) n v hv
  rw [heval, ← map_bind hnodup hvals base, List.zip_map_right, map_bind hnodup hvals base]
  rfl

end Inputs

end Recorder

namespace TraceFile

variable {file : TraceFile} {r r' : Recorder} {inputs : List Var} {ops : List Operation}
  {args : List Arg}

theorem rounds_eq (h : file.LoopInScope) (hops : Recorder.Records file.body r r' ops)
    (hnames : r.names = Table.empty.insertAll ((file.inputs.map (·.name)).zip inputs))
    (hlen : inputs.length = file.inputs.length) (hlt : ∀ v ∈ inputs, v.id < r.history.values.next)
    (hnodup : (inputs.map (·.id)).Nodup)
    (hargs : file.jump.map (·.value? r'.names) = args.map some)
    (hjump : file.jump.length = file.inputs.length) (M : Machine σ) (memo : PureMemo) (base : Env)
    (n : Nat) {vals : List Value} (hvals : vals.length = file.inputs.length) (st : σ) :
    M.rounds memo base inputs (sites 0 ops ++ [⟨{ opcode := .jump, args }, 0, []⟩]) n vals st =
      file.rounds M memo n vals st := by
  induction n generalizing vals st with
  | zero => rfl
  | succ n ih =>
    have hknows := Recorder.knows_of_names hnames (by rw [List.length_map, hlen]) hlt
    have hmeans := Recorder.means_of_names hnames hnodup (hvals.trans hlen.symm) base
    rw [Machine.rounds, rounds, hops.run_eq hknows hmeans h hargs M memo 0 st]
    change _ = (file.round M memo vals st).andThen _
    rw [← round]
    cases hround : file.round M memo vals st with
    | stops op descr vals' st' =>
      have hvals' := (Machine.length_of_runNamed hround).trans hjump
      simp only [Ending.andThen, ih hvals']
    | ends st' => rfl
    | fails origin exit st' => rfl

end TraceFile

end HotLoop
