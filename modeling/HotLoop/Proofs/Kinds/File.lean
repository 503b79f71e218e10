import HotLoop.Proofs.Kinds.Calls
import HotLoop.Proofs.Replay.Sending

/-!
# The kinds in a trace file

Which kinds the names of a trace file have can be told without running it: inputs have the kinds of
their values, results the kinds that their names give. A file keeps kinds if its loop goes round
with values of the kinds that it starts with, and if the same holds where it is traced once more
behind a bridge, with the kinds of the values that the bridge brings along.
-/

namespace HotLoop

namespace Replay

def ArgSpec.kind? (kinds : Table String Kind) : ArgSpec → Option Kind
  | .const c => some c.kind
  | .name n => kinds.get? n

def ArgSpec.nameKind? (kinds : Table String Kind) : ArgSpec → Option Kind
  | .const _ => none
  | .name n => kinds.get? n

def OpSpec.resultKind? (spec : OpSpec) : Option Kind := spec.result.bind Recorder.kindOfName?

def OpSpec.bindKind (kinds : Table String Kind) (spec : OpSpec) : Table String Kind :=
  match spec.result with
  | none => kinds
  | some name =>
    match Recorder.kindOfName? name with
    | some k => kinds.insert name k
    | none => kinds

/--
The operation has kinds such as the optimizer takes for granted: a copy has the kind of what it
copies, values of one kind are compared, and integer operations give integers.
-/
def OpSpec.KeepsKinds (kinds : Table String Kind) (spec : OpSpec) : Prop :=
  (spec.op = .sameAs → ∀ k ∈ spec.resultKind?, ∀ a ∈ spec.args[0]?, a.kind? kinds = some k) ∧
  (spec.op = .guardValue → ∀ a ∈ spec.args[0]?, ∀ b ∈ spec.args[1]?, a.kind? kinds = b.kind? kinds) ∧
  (spec.op.isFoldable = true → ∀ k ∈ spec.resultKind?, k = .int)

instance (kinds : Table String Kind) (spec : OpSpec) : Decidable (spec.KeepsKinds kinds) :=
  inferInstanceAs (Decidable (_ ∧ _ ∧ _))

def kindsAfter (kinds : Table String Kind) (specs : List OpSpec) : Table String Kind :=
  specs.foldl OpSpec.bindKind kinds

def OpsKeepKinds (kinds : Table String Kind) : List OpSpec → Prop
  | [] => True
  | spec :: specs => spec.KeepsKinds kinds ∧ OpsKeepKinds (spec.bindKind kinds) specs

instance OpsKeepKinds.decidable (kinds : Table String Kind) :
    (specs : List OpSpec) → Decidable (OpsKeepKinds kinds specs)
  | [] => .isTrue trivial
  | spec :: specs =>
    have : Decidable (OpsKeepKinds (spec.bindKind kinds) specs) :=
      OpsKeepKinds.decidable (spec.bindKind kinds) specs
    inferInstanceAs (Decidable (_ ∧ _))

end Replay

open Replay

section Files

variable (file : TraceFile)

/-- With inputs of the given kinds the loop of the file goes round with values of the same kinds. -/
def TraceFile.LoopKeepsKinds (ks : List Kind) : Prop :=
  let kinds := Table.ofList ((file.inputs.map (·.name)).zip ks)
  OpsKeepKinds kinds file.body ∧
    file.jump.map (·.kind? (kindsAfter kinds file.body)) = ks.map some

instance (ks : List Kind) : Decidable (file.LoopKeepsKinds ks) :=
  inferInstanceAs (Decidable (_ ∧ _))

/--
Where the bridge brings variables to the loop, it keeps kinds itself, and so does the loop with the
kinds of those variables. Frames have values of the given kinds.
-/
def Replay.BridgeSpec.KeepsKinds (bridge : BridgeSpec) (ks : List Kind) : Prop :=
  let kinds := Table.ofList (bridge.inputs.zip ks)
  ∀ jump ∈ bridge.jump, ∀ ks ∈ jump.mapM (·.nameKind? (kindsAfter kinds bridge.ops)),
    OpsKeepKinds kinds bridge.ops ∧ file.LoopKeepsKinds ks

instance (bridge : BridgeSpec) (ks : List Kind) : Decidable (bridge.KeepsKinds file ks) :=
  inferInstanceAs (Decidable (∀ _ ∈ bridge.jump, _))

/-- The loop keeps kinds, by itself and behind every bridge. -/
def TraceFile.KeepsKinds : Prop :=
  file.LoopKeepsKinds (file.inputs.map (·.value.kind)) ∧
    ∀ failure ∈ file.failures, ∀ bridge ∈ file.bridgeFor? failure,
      bridge.KeepsKinds file (failure.values.map Value.kind)

instance : Decidable file.KeepsKinds := inferInstanceAs (Decidable (_ ∧ _))

end Files

namespace Recorder

variable {r r' : Recorder} {κ : Nat → Kind} {kinds : Table String Kind}

def Typed (κ : Nat → Kind) (kinds : Table String Kind) (r : Recorder) : Prop :=
  ∀ name v, r.names.get? name = some v →
    kinds.get? name = some v.kind ∧ v.Typed κ r.history.values.next

theorem Typed.values (h : r.Typed κ kinds) {specs : List ArgSpec} {args : List Arg}
    (hargs : specs.map (·.value? r.names) = args.map some) :
    specs.map (·.kind? kinds) = (args.map Arg.kind).map some ∧
      ∀ a ∈ args, a.Typed κ r.history.values.next := by
  induction specs generalizing args with
  | nil =>
    rw [List.map_eq_nil_iff.mp hargs.symm]
    exact ⟨rfl, by simp⟩
  | cons spec specs ih =>
    obtain ⟨a, args, rfl, ha, hrest⟩ := List.map_eq_cons_iff.mp hargs.symm
    obtain ⟨hkinds, htyped⟩ := ih hrest.symm
    have hfirst : spec.kind? kinds = some a.kind ∧ a.Typed κ r.history.values.next := by
      cases spec with
      | const c =>
        cases ha
        exact ⟨rfl, Arg.typed_const c⟩
      | name n =>
        obtain ⟨v, hv, rfl⟩ := Option.map_eq_some_iff.mp ha.symm
        obtain ⟨hkind, hv⟩ := h n v hv
        exact ⟨hkind, Arg.typed_var hv⟩
    refine ⟨?_, List.forall_mem_cons.mpr ⟨hfirst.2, htyped⟩⟩
    rw [List.map_cons, List.map_cons, List.map_cons, hfirst.1, hkinds]

theorem Typed.nameKinds (h : r.Typed κ kinds) {specs : List ArgSpec} {vars : List Var}
    (hvars : specs.map (·.value? r.names) = (vars.map Arg.var).map some) :
    specs.mapM (·.nameKind? kinds) = some (vars.map (·.kind)) := by
  induction specs generalizing vars with
  | nil =>
    rw [List.map_eq_nil_iff.mp (List.map_eq_nil_iff.mp hvars.symm)]
    rfl
  | cons spec specs ih =>
    rw [List.map_map] at hvars
    obtain ⟨v, vars, rfl, hv, hrest⟩ := List.map_eq_cons_iff.mp hvars.symm
    have hfirst : spec.nameKind? kinds = some v.kind := by
      cases spec with
      | const c => cases hv
      | name n =>
        obtain ⟨w, hw, heq⟩ := Option.map_eq_some_iff.mp hv.symm
        cases heq
        exact (h n v hw).1
    rw [List.mapM_cons, hfirst, ih (hrest.symm.trans (List.map_map ..).symm)]
    rfl

private theorem Binds.typed {spec : OpSpec} {result : Option Var}
    (h : Binds r r' spec.result result) (hr : r.Typed κ kinds) :
    ∃ κ', SameKinds r.history.values.next κ κ' ∧ r'.Typed κ' (spec.bindKind kinds) ∧
      ∀ v, result = some v → spec.resultKind? = some v.kind ∧ v.Typed κ' r'.history.values.next := by
  generalize hname : spec.result = name at h
  cases h with
  | nothing hnames hvalues =>
    refine ⟨κ, .refl _ _, fun name v hv => ?_, by simp⟩
    rw [OpSpec.bindKind, hname, hvalues]
    rw [hnames] at hv
    exact hr name v hv
  | fresh name kind hkind hnames hnext =>
    have hκ := SameKinds.extend r.history.values.next κ kind
    have hresult := Var.typed_extend κ r.history.values.next kind
    refine ⟨_, hκ, fun n v hv => ?_, ?_⟩
    · simp only [OpSpec.bindKind, hname, hkind]
      rw [hnames, Table.get?_insert] at hv
      rw [Table.get?_insert, hnext]
      split at hv
      · cases hv
        rename_i heq
        exact ⟨if_pos heq, hresult⟩
      · rename_i hne
        obtain ⟨hold, htyped⟩ := hr n v hv
        exact ⟨(if_neg hne).trans hold, htyped.mono hκ (Nat.le_succ _)⟩
    · rintro _ ⟨⟩
      rw [OpSpec.resultKind?, hname, hnext]
      exact ⟨hkind, hresult⟩

theorem Recorded.typed {spec : OpSpec} {op : Operation} (h : Recorded spec r r' op)
    (hr : r.Typed κ kinds) :
    ∃ κ', SameKinds r.history.values.next κ κ' ∧ r'.Typed κ' (spec.bindKind kinds) ∧
      (spec.KeepsKinds kinds → op.Typed κ' r'.history.values.next) := by
  obtain ⟨κ', hκ, hr', hresult⟩ := h.binds.typed hr
  obtain ⟨hkinds, hargs⟩ := hr.values h.args
  refine ⟨κ', hκ, hr', fun ⟨hcopy, hcompare, hfolded⟩ => ?_⟩
  have hle := h.binds.next_le
  rw [← h.opcode] at hcopy hcompare hfolded
  have harg {i : Nat} {a : Arg} (ha : op.args[i]? = some a) :
      ∃ b ∈ spec.args[i]?, b.kind? kinds = some a.kind := by
    have hi := congrArg (·[i]?) hkinds
    simp only [List.getElem?_map, ha, Option.map_some] at hi
    exact Option.map_eq_some_iff.mp hi
  refine ⟨fun a ha => (hargs a ha).mono hκ hle, fun v hv => (hresult v hv).2, ?_, ?_,
    fun hfold v hv => hfolded hfold _ (hresult v hv).1⟩
  · intro hop v a hv ha
    obtain ⟨b, hb, hkind⟩ := harg (i := 0) (List.head?_eq_getElem? ▸ ha)
    exact Option.some.inj (hkind.symm.trans (hcopy hop v.kind (hresult v hv).1 b hb))
  · intro hop a b hargs
    obtain ⟨a', ha', ha⟩ := harg (i := 0) (a := a) (by rw [hargs]; rfl)
    obtain ⟨b', hb', hb⟩ := harg (i := 1) (a := b) (by rw [hargs]; rfl)
    have heq := hcompare hop a' ha' b' hb'
    rw [ha, hb] at heq
    exact Option.some.inj heq

theorem Records.typed {specs : List OpSpec} {ops : List Operation} (h : Records specs r r' ops)
    (hr : r.Typed κ kinds) :
    ∃ κ', SameKinds r.history.values.next κ κ' ∧ r'.Typed κ' (kindsAfter kinds specs) ∧
      (OpsKeepKinds kinds specs → ∀ op ∈ ops, op.Typed κ' r'.history.values.next) := by
  induction h generalizing κ kinds with
  | nil => exact ⟨κ, .refl _ _, hr, by simp⟩
  | cons hop hops ih =>
    obtain ⟨κ₁, hκ₁, hq, hop'⟩ := hop.typed hr
    obtain ⟨κ₂, hκ₂, hr', hops'⟩ := ih hq
    exact ⟨κ₂, hκ₁.trans hκ₂ hop.binds.next_le, hr', fun ⟨hspec, hrest⟩ =>
      List.forall_mem_cons.mpr ⟨(hop' hspec).mono hκ₂ hops.next_le, hops' hrest⟩⟩

theorem typed_of_names {names : List String} {vars : List Var}
    (hvars : ∀ v ∈ vars, v.Typed κ r.history.values.next)
    (hnames : r.names = Table.empty.insertAll (names.zip vars)) :
    r.Typed κ (.ofList (names.zip (vars.map (·.kind)))) := by
  intro name v hv
  rw [hnames] at hv
  have hmem : v ∈ vars := by
    rcases Table.mem_of_get?_insertAll hv with hmem | hget
    · exact (List.of_mem_zip hmem).2
    · cases hget
  rw [List.zip_map_right]
  exact ⟨Table.get?_insertAll_map (fun _ _ h => by cases h) hv, hvars v hmem⟩

theorem Enters.typed {l : List (String × Value)} {vars : List Var} (h : Enters l r r' vars)
    (κ : Nat → Kind) : ∃ κ', SameKinds r.history.values.next κ κ' ∧
      ∀ v ∈ vars, v.Typed κ' r'.history.values.next := by
  refine ⟨fun i => if i < r.history.values.next then κ i
    else ((vars.map (·.kind))[i - r.history.values.next]?).getD .void, fun i hi => if_pos hi, ?_⟩
  intro v hv
  obtain ⟨k, hk, rfl⟩ := List.mem_iff_getElem.mp hv
  have hlength : vars.length = l.length := by simpa using congrArg List.length h.ids
  have hid : vars[k].id = r.history.values.next + k := by
    have hget := congrArg (·[k]?) h.ids
    simpa [hk, hlength ▸ hk] using hget
  refine ⟨?_, ?_⟩
  · rw [hid, h.next]
    omega
  · rw [hid]
    dsimp only
    rw [if_neg (Nat.not_lt.mpr (Nat.le_add_right ..)), Nat.add_sub_cancel_left]
    simp [hk]

end Recorder

open Recorder

section Loops

variable {file : TraceFile} {r r' : Recorder} {κ : Nat → Kind} {inputs : List Var}
  {ops : List Operation} {args : List Arg}

/-- The loop of the file as it is recorded, for the first time or once more. -/
theorem TraceFile.LoopKeepsKinds.typedLoop (h : file.LoopKeepsKinds (inputs.map (·.kind)))
    (hinputs : ∀ v ∈ inputs, v.Typed κ r.history.values.next)
    (hnames : r.names = Table.empty.insertAll ((file.inputs.map (·.name)).zip inputs))
    (hops : Records file.body r r' ops)
    (hargs : file.jump.map (·.value? r'.names) = args.map some) :
    ∃ κ', SameKinds r.history.values.next κ κ' ∧
      TypedLoop κ' inputs ops args r'.history.values.next := by
  obtain ⟨hkeeps, hjump⟩ := h
  obtain ⟨κ', hκ, hr', hops'⟩ := hops.typed (typed_of_names hinputs hnames)
  obtain ⟨hkinds, hargs⟩ := hr'.values hargs
  refine ⟨κ', hκ, fun v hv => (hinputs v hv).mono hκ hops.next_le, hops' hkeeps, hargs, ?_⟩
  rw [hjump] at hkinds
  exact ((List.map_inj_right fun _ _ => Option.some.inj).mp hkinds).symm

theorem Replay.BridgeSpec.KeepsKinds.typed {bridge : BridgeSpec} {frame : DeadFrame}
    {q : Recorder} {vars : List Var} {closing : Operation}
    (h : bridge.KeepsKinds file (frame.values.map Value.kind)) (hr : r.names = .empty)
    (henters : Enters (bridge.inputs.zip frame.values) r q vars)
    (hops : Records bridge.ops q r' ops) (hclosing : BridgeEnd bridge r'.names closing)
    (hjump : closing.opcode = .jump) (hinputs : closing.args.mapM Arg.var? = some inputs) :
    file.LoopKeepsKinds (inputs.map (·.kind)) ∧ ∃ κ,
      (∀ op ∈ ops, op.Typed κ r'.history.values.next) ∧
      (∀ a ∈ closing.args, a.Typed κ r'.history.values.next) ∧
      closing.args.map Arg.kind = inputs.map (·.kind) := by
  obtain ⟨κ₁, -, hvars⟩ := henters.typed fun _ => .void
  have hq : q.Typed κ₁ (.ofList (bridge.inputs.zip (frame.values.map Value.kind))) := by
    have hq := typed_of_names hvars (henters.names.trans (by rw [hr]))
    rw [henters.kinds, List.zip_map'] at hq
    rw [List.zip_map_right]
    exact hq
  obtain ⟨κ, -, hr', hops'⟩ := hops.typed hq
  cases hclosing with
  | finish => cases hjump
  | jump unit jump args hbridge _ hargs =>
    have hvars := eq_map_var_of_mapM hinputs
    have hjump : (Operation.jump args (.cell unit)).args = args := rfl
    rw [hjump] at hvars ⊢
    obtain ⟨hkeeps, hloop⟩ := h jump hbridge _ (hr'.nameKinds (hvars ▸ hargs))
    refine ⟨hloop, κ, hops' hkeeps, (hr'.values hargs).2, ?_⟩
    rw [hvars, List.map_map]
    rfl

end Loops

end HotLoop
