import HotLoop.Proofs.Consistency.Silence
import HotLoop.Proofs.Replay.Owners
import HotLoop.Proofs.Walk.Faults

/-!
# What recorded code can rely on

A recorder takes results for checks too, and lets names stand for them, but a walk may drop a check
and then nothing defines its result. As long as no such name is read, what has been recorded reads
what is in scope, wherever its inputs come from. Names stand for values if the inputs have values,
since no letter that a name starts with stands for the lack of one.
-/

namespace HotLoop

open Replay

namespace Replay

/-- The names that stand for results of checks behind an operation. -/
def OpSpec.hide (hidden : List String) (spec : OpSpec) : List String :=
  match spec.result with
  | none => hidden
  | some name => if spec.op.isCheck then name :: hidden else hidden.filter (· ≠ name)

/--
No name is read while it stands for the result of a check, neither by the operations nor by what
comes behind them.
-/
def SparesChecks (closing : List ArgSpec) (hidden : List String) : List OpSpec → Prop
  | [] => ∀ n ∈ closing.filterMap ArgSpec.name?, n ∉ hidden
  | spec :: specs => (∀ n ∈ spec.reads, n ∉ hidden) ∧ SparesChecks closing (spec.hide hidden) specs

instance SparesChecks.decidable (closing : List ArgSpec) (hidden : List String) :
    (specs : List OpSpec) → Decidable (SparesChecks closing hidden specs)
  | [] => inferInstanceAs (Decidable (∀ _ ∈ _, _))
  | spec :: specs =>
    have : Decidable (SparesChecks closing (spec.hide hidden) specs) :=
      SparesChecks.decidable closing (spec.hide hidden) specs
    inferInstanceAs (Decidable (_ ∧ _))

/-- A constant has a value; what a name stands for is left open. -/
def ArgSpec.HasValue (a : ArgSpec) : Prop := ∀ c, a = .const c → c.kind ≠ .void

instance : (a : ArgSpec) → Decidable a.HasValue
  | .const c => decidable_of_iff (c.kind ≠ .void) (by simp [ArgSpec.HasValue])
  | .name _ => isTrue nofun

/-- Constants have values, and a copy has something to copy. -/
structure OpSpec.Solid (spec : OpSpec) : Prop where
  args : ∀ a ∈ spec.args, a.HasValue
  copy : spec.op = .sameAs → spec.result ≠ none → spec.args ≠ []

end Replay

namespace Recorder

variable {r r' : Recorder} {names hidden : List String} {spec : OpSpec} {specs : List OpSpec}
  {op : Operation} {ops : List Operation} {closing : List ArgSpec} {args : List Arg}

section Scope

/-- A name that stands for a variable is in scope, or it stands for the result of a check. -/
def Splits (r : Recorder) (names hidden : List String) : Prop :=
  ∀ n v, r.names.get? n = some v → n ∈ names ∨ n ∈ hidden

theorem exists_of_name_mem {specs : List ArgSpec}
    (hargs : specs.map (·.value? r.names) = args.map some) {n : String}
    (hn : n ∈ specs.filterMap ArgSpec.name?) : ∃ v, r.names.get? n = some v := by
  obtain ⟨a, ha, hname⟩ := List.mem_filterMap.mp hn
  cases a with
  | const c => cases hname
  | name m =>
    cases hname
    have hmem : (ArgSpec.name n).value? r.names ∈ args.map some := hargs ▸ List.mem_map_of_mem ha
    obtain ⟨a, -, hv⟩ := List.mem_map.mp hmem
    obtain ⟨v, hv, -⟩ := Option.map_eq_some_iff.mp hv.symm
    exact ⟨v, hv⟩

theorem Splits.mem_of_bound (h : r.Splits names hidden) {n : String}
    (hbound : ∃ v, r.names.get? n = some v) (hn : n ∉ hidden) : n ∈ names :=
  hbound.elim fun v hv => (h n v hv).resolve_right hn

theorem Recorded.bound_of_mem_reads (h : Recorded spec r r' op) {n : String}
    (hn : n ∈ spec.reads) : ∃ v, r.names.get? n = some v := by
  rcases List.mem_append.mp hn with hn | hn
  · exact exists_of_name_mem h.args hn
  · rw [OpSpec.exit] at hn
    split at hn
    · rename_i hguard
      exact h.bound hguard n hn
    · cases hn

theorem Recorded.splits (h : Recorded spec r r' op) (hr : r.Splits names hidden) :
    r'.Splits (spec.extend names) (spec.hide hidden) := by
  intro n v hv
  have hbinds := h.binds
  rw [OpSpec.extend, OpSpec.hide]
  generalize spec.result = name at hbinds ⊢
  generalize op.result = result at hbinds
  cases hbinds with
  | nothing hnames _ => exact hr n v (hnames ▸ hv)
  | fresh name kind _ hnames _ =>
    rw [hnames, Table.get?_insert] at hv
    dsimp only
    by_cases hn : n = name
    · by_cases hcheck : spec.op.isCheck
      · exact .inr (by rw [if_pos hcheck, hn]; exact List.mem_cons_self ..)
      · exact .inl (by rw [if_neg hcheck, hn]; exact List.mem_cons_self ..)
    · rw [if_neg hn] at hv
      have hkept {l : List String} (hmem : n ∈ l) :
          n ∈ name :: l ∧ n ∈ l.filter (· ≠ name) :=
        ⟨List.mem_cons_of_mem _ hmem, List.mem_filter.mpr ⟨hmem, decide_eq_true hn⟩⟩
      refine (hr n v hv).imp (fun hmem => ?_) fun hmem => ?_
      · split
        · exact (hkept hmem).2
        · exact (hkept hmem).1
      · split
        · exact (hkept hmem).1
        · exact (hkept hmem).2

theorem Records.namesInScope (h : Records specs r r' ops) (hr : r.Splits names hidden)
    (hspares : SparesChecks closing hidden specs)
    (hargs : closing.map (·.value? r'.names) = args.map some) :
    NamesInScope closing names specs := by
  induction h generalizing names hidden with
  | nil r => exact fun n hn => hr.mem_of_bound (exists_of_name_mem hargs hn) (hspares n hn)
  | cons hop _ ih =>
    obtain ⟨hreads, hspares⟩ := hspares
    exact ⟨fun n hn => hr.mem_of_bound (hop.bound_of_mem_reads hn) (hreads n hn),
      ih (hop.splits hr) hspares hargs⟩

end Scope

section Code

theorem Recorded.carriesExits (h : Recorded spec r r' op) : op.CarriesExits := by
  intro hfail
  obtain ⟨g, hg, hdescr, hargs⟩ := h.guarded
  cases g with
  | none =>
    rw [Operation.failVars, Operation.failSlots, hargs] at hfail
    exact absurd rfl hfail
  | some g =>
    refine .inr ⟨by rw [Operation.isGuard, h.opcode, ← hg]; rfl, fun e he => ?_⟩
    rw [hdescr] at he
    cases hquasi : spec.quasi <;> rw [hquasi] at he <;> cases he

theorem Records.carriesExits (h : Records specs r r' ops) : ∀ op ∈ ops, op.CarriesExits := by
  induction h with
  | nil => simp
  | cons hop _ ih => exact List.forall_mem_cons.mpr ⟨hop.carriesExits, ih⟩

/-- Results of checks included, no number is given twice. -/
theorem Records.once (h : Records specs r r' ops) : (resultIds ops).Nodup := by
  induction h with
  | nil => exact List.nodup_nil
  | @cons spec specs r q r' op ops hop hops ih =>
    cases hresult : op.result with
    | none => rwa [resultIds, List.filterMap_cons_none hresult]
    | some v =>
      rw [resultIds, List.filterMap_cons_some hresult, List.map_cons]
      refine List.nodup_cons.mpr ⟨fun hmem => ?_, ih⟩
      obtain ⟨o, ho, w, hw, hid⟩ := exists_of_mem_resultIds hmem
      have hlt : v.id < q.history.values.next := Binds.lt_next (hresult ▸ hop.binds)
      have hge := (hops.result_ge o ho w hw).1
      omega

variable {inputs : List Var}

/-- What is recorded over known inputs, with results of checks that nothing reads. -/
theorem Records.noisilyRecorded (h : Records specs r r' ops) (hr : r.Knows names inputs)
    (hsplits : r.Splits names []) (hspares : SparesChecks closing [] specs)
    (hargs : closing.map (·.value? r'.names) = args.map some) :
    NoisilyRecorded inputs ops args r'.history.values.next := by
  obtain ⟨hscoped, hclosing⟩ := h.inScope hr (h.namesInScope hsplits hspares hargs) hargs
  exact {
    inScope := hscoped
    args_inScope := hclosing
    inputs_lt := fun v hv => Nat.lt_of_lt_of_le (hr.lt_next v hv) h.next_le
    resultIds_lt := fun i hi => by
      obtain ⟨o, ho, v, hv, rfl⟩ := exists_of_mem_resultIds hi
      exact (h.result_ge o ho v hv).2
    once := h.once
    straight := h.isFinal
    exits := h.carriesExits }

/-- Names that have been bound to inputs, one after another, are known and stand for no checks. -/
theorem knows_of_insertAll {l : List (String × Var)} (hnames : r.names = Table.empty.insertAll l)
    (hl : ∀ e ∈ l, e.2 ∈ inputs) (hlt : ∀ v ∈ inputs, v.id < r.history.values.next) :
    r.Knows (l.map Prod.fst) inputs ∧ r.Splits (l.map Prod.fst) [] := by
  have hmem {n : String} {v : Var} (hv : r.names.get? n = some v) : (n, v) ∈ l := by
    rw [hnames] at hv
    exact (Table.mem_of_get?_insertAll hv).resolve_right fun hget => by cases hget
  refine ⟨⟨fun n hn => ?_, hlt⟩, fun n v hv => .inl (List.mem_map_of_mem (hmem hv))⟩
  obtain ⟨v, hv⟩ := Table.exists_get?_insertAll (t := .empty) (.inl hn)
  rw [← hnames] at hv
  exact ⟨v, hl _ (hmem hv), hv⟩

end Code

section Values

def Solid (r : Recorder) : Prop := ∀ n v, r.names.get? n = some v → v.kind ≠ .void

theorem kindOfName?_ne_void {name : String} {k : Kind} (h : kindOfName? name = some k) :
    k ≠ .void := by
  unfold kindOfName? at h
  split at h <;> cases h <;> exact Kind.noConfusion

theorem Solid.of_args (h : r.Solid) {specs : List ArgSpec} (hspecs : ∀ a ∈ specs, a.HasValue)
    (hargs : specs.map (·.value? r.names) = args.map some) : ∀ a ∈ args, a.kind ≠ .void := by
  intro a ha
  obtain ⟨spec, hspec, hvalue⟩ := List.mem_map.mp (hargs ▸ List.mem_map_of_mem ha)
  cases spec with
  | const c =>
    cases hvalue
    exact hspecs _ hspec c rfl
  | name n =>
    obtain ⟨v, hv, hav⟩ := Option.map_eq_some_iff.mp hvalue
    cases hav
    exact h n v hv

theorem Recorded.solid (h : Recorded spec r r' op) (hr : r.Solid) (hspec : spec.Solid) :
    op.Solid ∧ r'.Solid := by
  have hbinds := h.binds
  have hresult : (∀ v, op.result = some v → v.kind ≠ .void ∧ spec.result ≠ none) ∧ r'.Solid := by
    generalize spec.result = name at hbinds ⊢
    generalize op.result = result at hbinds ⊢
    cases hbinds with
    | nothing hnames _ =>
      exact ⟨fun _ => nofun, fun n v hv => hr n v (hnames ▸ hv)⟩
    | fresh name kind hkind hnames _ =>
      refine ⟨fun v hv => ?_, fun n v hv => ?_⟩
      · cases hv
        exact ⟨kindOfName?_ne_void hkind, Option.some_ne_none _⟩
      · rw [hnames, Table.get?_insert] at hv
        split at hv
        · cases hv
          exact kindOfName?_ne_void hkind
        · exact hr n v hv
  refine ⟨⟨hr.of_args hspec.args h.args, fun v hv => (hresult.1 v hv).1, fun hcopy v hv hnil => ?_⟩,
    hresult.2⟩
  have hargs := h.args
  rw [hnil, List.map_nil, List.map_eq_nil_iff] at hargs
  exact hspec.copy (h.opcode ▸ hcopy) (hresult.1 v hv).2 hargs

theorem Records.solid (h : Records specs r r' ops) (hr : r.Solid)
    (hspecs : ∀ spec ∈ specs, spec.Solid) : (∀ op ∈ ops, op.Solid) ∧ r'.Solid := by
  induction h with
  | nil => exact ⟨by simp, hr⟩
  | cons hop _ ih =>
    obtain ⟨hsolid, hq⟩ := hop.solid hr (hspecs _ (List.mem_cons_self ..))
    obtain ⟨hrest, hr'⟩ := ih hq fun spec hspec => hspecs spec (List.mem_cons_of_mem _ hspec)
    exact ⟨List.forall_mem_cons.mpr ⟨hsolid, hrest⟩, hr'⟩

theorem solid_of_insertAll {l : List (String × Var)} (hnames : r.names = Table.empty.insertAll l)
    (hl : ∀ e ∈ l, e.2.kind ≠ .void) : r.Solid := by
  intro n v hv
  rw [hnames] at hv
  exact hl _ ((Table.mem_of_get?_insertAll hv).resolve_right fun hget => by cases hget)

end Values

end Recorder

end HotLoop
