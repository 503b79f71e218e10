import HotLoop.Proofs.Compile.Continuing
import HotLoop.Proofs.Replay.Owners
import HotLoop.Proofs.Replay.Sending
import HotLoop.Proofs.Walk.Retraced

/-!
# Loops behind bridges

A bridge that finds no entry point is compiled together with one more iteration of the file's loop,
for which the names of the inputs stand for the variables that the bridge jumps with. If the bridge
does not jump with a name twice, then the code behind the header does turn by turn what the loop of
the file does round by round, with whatever values the header is entered. If it does, then two
inputs stand for one variable, and the code cannot tell them apart any more.
-/

namespace HotLoop

open Replay

/-- The bridge does not jump with a name twice. -/
def Replay.BridgeSpec.JumpsApart (bridge : BridgeSpec) : Prop :=
  ∀ jump ∈ bridge.jump, (jump.filterMap ArgSpec.name?).Nodup

instance (bridge : BridgeSpec) : Decidable bridge.JumpsApart :=
  inferInstanceAs (Decidable (∀ _ ∈ bridge.jump, _))

namespace TraceFile

/--
Every guard in the code stands for an operation of the file's loop, and numbers what it hands over
where it fails.
-/
def Compiles (file : TraceFile) (placed : List Site) : Prop :=
  ∀ e ∈ placed, e.op.isGuard = true → ∃ spec, file.body[e.origin]? = some spec ∧
    e.op.opcode = (if spec.op = .quasiimmutField then .guardNotInvalidated else spec.op) ∧
    ∃ g n, e.op.descr = some (.guard g) ∧ e.op.failArgs = some (NumberedSlots.boxes n) ∧
      e.exit = n.read

/--
Behind the label of the entry point the code does turn by turn what the file's loop does round by
round, whatever values it is entered with.
-/
def RunsBehind (file : TraceFile) (entry : EntryPoint) (code : List Operation) : Prop :=
  ∃ (before : List Operation) (vars : List Var) (placed : List Site),
    code = before ++ .label vars (.target entry) :: placed.map (·.op) ∧ file.Compiles placed ∧
    ∀ (σ : Type) (M : Machine σ) (base : Env) (n : Nat) (vals : List Value) (st : σ),
      vals.length = file.inputs.length →
        M.turns .empty base (Site.ofOp (.label vars (.target entry)) :: placed) n
          (some (.target entry)) vals st = file.rounds M .empty n vals st

/-- Bridges run the file's loop behind each of their labels that takes as many values as it does. -/
def rerunning (file : TraceFile) : CodeSpec where
  loop _ _ := True
  bridge _ ops := ∀ op ∈ ops, op.opcode = .label → ∃ entry, op.descr = some (.target entry) ∧
    (op.args.length = file.inputs.length → file.RunsBehind entry ops)
  blameless := False

end TraceFile

namespace Recorder

theorem Records.getElem?_eq_some {specs : List OpSpec} {ops : List Operation}
    {r r' : Recorder} {op : Operation} (h : Records specs r r' ops) {i : Nat}
    (hop : ops[i]? = some op) : ∃ spec, specs[i]? = some spec ∧ op.opcode = spec.op ∧
      op.leavesForGood = false := by
  induction h generalizing i with
  | nil r => cases hop
  | cons hfirst hops ih =>
    cases i with
    | zero =>
      cases hop
      exact ⟨_, rfl, hfirst.opcode, hfirst.leavesForGood⟩
    | succ i => exact ih hop

end Recorder

theorem getElem?_of_mem_sites {i : Nat} {ops : List Operation} {e : Site} (h : e ∈ sites i ops) :
    i ≤ e.origin ∧ ops[e.origin - i]? = some e.op := by
  induction ops generalizing i with
  | nil => cases h
  | cons op ops ih =>
    rcases List.mem_cons.mp h with rfl | h
    · simp
    · obtain ⟨hle, hget⟩ := ih h
      have hsucc : e.origin - i = e.origin - (i + 1) + 1 := by omega
      rw [hsucc, List.getElem?_cons_succ]
      exact ⟨by omega, hget⟩

theorem TraceFile.compiles_of_compiledFrom {file : TraceFile} {r r' : Recorder}
    {ops : List Operation} {placed : List Site} (hops : Recorder.Records file.body r r' ops)
    (h : CompiledFrom ops placed) : file.Compiles placed := by
  intro e he hguard
  obtain ⟨site, hsite, hemits⟩ := h e he hguard
  obtain ⟨-, hget⟩ := getElem?_of_mem_sites hsite
  obtain ⟨spec, hspec, hopcode, hstays⟩ := hops.getElem?_eq_some hget
  obtain ⟨g, n, hdescr, hfail, hexit, -⟩ := hemits.guard hguard hstays
  refine ⟨spec, ?_, hopcode ▸ hemits.opcode, g, n, hdescr, hfail, hexit⟩
  rw [hemits.origin]
  exact hspec

section Bridges

variable {file : TraceFile} {driver : Driver} {inputs : List Var} {ops : List Operation}
  {values : ValueIds}

private theorem sendable_of_bridge (h : file.rerunning.bridge inputs ops) :
    Sendable file.rerunning driver inputs ops values :=
  ⟨fun _ _ _ _ _ => ⟨trivial, False.elim⟩, h, False.elim⟩

private theorem compileTrace_rerunning {w : Workbench} {resumeKey : ResumeKey}
    {closing : Operation} (hrecorded : w.session.history.operations = ops ++ [closing])
    (hops : ∀ op ∈ ops, op.isFinal = false) (hunlabelled : Unlabelled ops)
    (hclosing : closing.isFinal = true) :
    Workbench.Sends file.rerunning (Workbench.compileTrace resumeKey) w := by
  refine (Workbench.compileTrace_sound fun result p hstate hpass => ?_).sends
  obtain ⟨hrun, -, ⟨descr, -, hcode, -⟩ | ⟨state, hstate', -⟩⟩ :=
    Workbench.exists_walk_of_tracePass hrecorded hops hclosing hpass
  · refine sendable_of_bridge fun op hop hlabel => absurd hlabel ?_
    rw [hcode] at hop
    have hout := unlabelled_of_run hrun hunlabelled (unlabelled_ofShared _)
    rcases List.mem_append.mp hop with hop | hop
    · exact hout op (List.mem_append_left _ hop)
    · intro hlabel
      rw [List.mem_singleton.mp hop] at hlabel
      have hlabel : closing.opcode = .label := hlabel
      rw [Operation.isFinal, hlabel] at hclosing
      cases hclosing
  · cases hstate.symm.trans hstate'

private theorem eq_label_of_mem {before copies after : List Operation} {label op : Operation}
    (hbefore : Unlabelled before) (hcopies : Unlabelled copies) (hafter : Unlabelled after)
    (hop : op ∈ before ++ copies ++ [label] ++ after) (hlabel : op.opcode = .label) :
    op = label := by
  simp only [List.mem_append, List.mem_singleton] at hop
  rcases hop with ((hop | hop) | hop) | hop
  · exact absurd hlabel (hbefore op hop)
  · exact absurd hlabel (hcopies op hop)
  · exact hop
  · exact absurd hlabel (hafter op hop)

/--
The loop of the file is recorded from `s` to `r` for the inputs, different ones of the variables
`scope` that a bridge has recorded up to `q`.
-/
structure RecordsAgain (file : TraceFile) (scope inputs : List Var) (q s r : Recorder)
    (ops : List Operation) (args : List Arg) : Prop where
  owns : q.Owns scope
  inputs_subset : inputs ⊆ scope
  nodup : (inputs.map (·.id)).Nodup
  next_le : q.history.values.next ≤ s.history.values.next
  names : s.names = Table.empty.insertAll ((file.inputs.map (·.name)).zip inputs)
  records : Recorder.Records file.body s r ops
  jump : file.jump.map (·.value? r.names) = args.map some

namespace RecordsAgain

variable {scope : List Var} {q s r : Recorder} {args : List Arg}

theorem scope_lt (h : RecordsAgain file scope inputs q s r ops args) :
    ∀ v ∈ scope, v.id < s.history.values.next :=
  fun v hv => Nat.lt_of_lt_of_le (h.owns.lt_next v hv) h.next_le

theorem recordedBehind (h : RecordsAgain file scope inputs q s r ops args)
    (hlen : inputs.length = file.inputs.length) (hloop : file.LoopInScope) :
    RecordedBehind scope inputs ops args r.history.values.next := by
  have hlt : ∀ v ∈ scope, v.id < r.history.values.next := fun v hv =>
    Nat.lt_of_lt_of_le (h.scope_lt v hv) h.records.next_le
  have hknows : s.Knows (file.inputs.map (·.name)) inputs :=
    Recorder.knows_of_names h.names (by rw [List.length_map, hlen]) fun v hv =>
      h.scope_lt v (h.inputs_subset hv)
  obtain ⟨hscoped, hafter⟩ := h.records.inScope hknows hloop h.jump
  exact {
    nodup := h.nodup
    inScope := hscoped
    straight := h.records.isFinal
    args_inScope := hafter
    inputs_lt := fun v hv => hlt v (h.inputs_subset hv)
    results_lt := fun v hv => by
      obtain ⟨op, hop, hr⟩ := List.mem_filterMap.mp hv
      exact (h.records.result_ge op hop v hr).2
    nodup_scope := h.owns.nodup
    scope_lt := hlt
    inputs_subset := h.inputs_subset
    apart := fun op hop v hv u hu =>
      Nat.ne_of_lt (Nat.lt_of_lt_of_le (h.scope_lt u hu) (h.records.result_ge op hop v hv).1) }

theorem runsBehind (h : RecordsAgain file scope inputs q s r ops args)
    (hlen : inputs.length = file.inputs.length) (hloop : file.LoopInScope)
    {settings : PassSettings} {shared : OptState} {p : Pass} {descr : Descr}
    {state : ExportedState} {result : Optimized} {header : LoopHeader}
    (hmemo : settings.memo = .empty) (hplain : settings.renames = false)
    (hvalues : shared.values = r.history.values) (hend : ∀ w, .var w ∈ state.endArgs → w ∈ scope)
    (hpeeled : runFrom (Pass.peeled settings inputs (.jump args descr) ops state)
      (.ofShared shared) = (.ok result, p))
    (hheader : result.header = some header) (before : List Operation) :
    file.RunsBehind header.entry (before ++ [header.label] ++ result.operations) := by
  obtain ⟨number, opts, memo, renames⟩ := settings
  cases hmemo
  cases hplain
  obtain ⟨placed, hplaced, hcompiled, hjump, -, hturns⟩ :=
    retraced_turns (hvalues ▸ h.recordedBehind hlen hloop) hend hpeeled hheader
  have hlengths := congrArg List.length h.jump
  rw [List.length_map, List.length_map] at hlengths
  refine ⟨before, header.vars, placed, ?_, TraceFile.compiles_of_compiledFrom h.records hcompiled,
    fun σ M base n vals st hvals => ?_⟩
  · rw [hplaced, List.append_assoc]
    rfl
  · rw [← file.rounds_eq hloop h.records h.names hlen
      (fun v hv => h.scope_lt v (h.inputs_subset hv)) h.nodup h.jump
      (by rw [hlengths, hjump, hlen]) M .empty base n hvals st]
    exact hturns σ M base _ rfl rfl n vals st (hvals.trans hlen.symm)

end RecordsAgain

end Bridges

namespace Replayer

variable {file : TraceFile} {driver : Driver} {guards : GuardTable} {bridge : BridgeSpec}
  {frame : DeadFrame} {unit : Option UnitHandle} {history : History} {r : Recorder}

open Recorder in
private theorem compileBridge_rerunning (hloop : file.LoopInScope) (hbridge : bridge.JumpsApart)
    (hrecord : runFrom (recordBridge file driver unit bridge frame) { guards } =
      (.ok (some history), r)) (c : Context) (home : Option UnitHandle) (resumeKey : ResumeKey) :
    Workbench.Sends file.rerunning (compileBridge file resumeKey)
      ⟨c, { driver, history, home }⟩ := by
  obtain ⟨q₀, q, vars, ops₀, closing, henters, hops₀, hend, rfl⟩ := recordBridge_eq_ok hrecord
  obtain ⟨scope, -, howns, hscope⟩ := hops₀.owns (henters.owns rfl)
  have hrecorded : q.history.operations ++ [closing] = ops₀ ++ [closing] := by
    rw [hops₀.operations, henters.operations]
    rfl
  have hclosing : closing.isFinal = true := by cases hend <;> rfl
  refine compileBridge_sends
    (compileTrace_rerunning hrecorded hops₀.isFinal hops₀.unlabelled hclosing) ?_
  intro w closing' inputs args r hw hlast hinputs hagain
  have hcontinues := Workbench.compileTrace_continues resumeKey ⟨c, { driver, home, history :=
    { q.history with operations := q.history.operations ++ [closing] } }⟩
  rw [← hw] at hcontinues
  obtain rfl : closing = closing' := by
    rw [hcontinues.operations, List.getLast?_concat] at hlast
    exact Option.some.inj hlast
  obtain ⟨ops, hops, hargs⟩ := recordAgain_eq_ok hagain
  have hdrop : r.history.operations.drop w.session.history.operations.length = ops := by
    rw [hops.operations]
    exact List.drop_left
  refine (Workbench.compileRetrace_sound
    fun unit waiting state shared result header p hwaiting hvalues hpeeled hheader => ?_).sends
  have hleaves : Workbench.LeavesWaiting _ resumeKey { w.session with history := r.history } :=
    ⟨rfl, by rw [hw], by rw [← hw]; exact hops.next_le⟩
  obtain ⟨p₀, hrun, -, hcode, hforwarding, hjump, hendArgs, -⟩ :=
    Workbench.exists_walk_of_leavesWaiting hrecorded hops₀.isFinal hclosing hleaves hwaiting
  obtain ⟨header', q', r', hinto⟩ := peeled_eq_ok hpeeled
  cases hheader.symm.trans hinto.isHeader
  dsimp only at hpeeled hinto
  rw [hdrop] at hpeeled hinto
  refine ⟨hforwarding, sendable_of_bridge fun op hop hlabel => ?_⟩
  obtain ⟨hcopies, hloopCode⟩ := hinto.unlabelled (fun heq => by cases heq) hops.unlabelled
  have hbefore : Unlabelled waiting.operations := by
    rw [hcode]
    exact unlabelled_of_run hrun hops₀.unlabelled (unlabelled_ofShared _) |>.of_append_left
  obtain rfl := eq_label_of_mem hbefore hcopies hloopCode hop hlabel
  refine ⟨header.entry, rfl, fun hcount => ?_⟩
  have hlen : inputs.length = file.inputs.length := by
    rw [hinto.arity, ← hinto.built.length_eq, ← hcount, LoopHeader.label, Operation.label,
      List.length_map]
  have hvars := eq_map_var_of_mapM hinputs
  cases hend with
  | finish => cases hjump
  | jump unit jump args' hbridgeJump _ hbridgeArgs =>
    obtain rfl : args' = inputs.map .var := hvars
    obtain ⟨hsubset, hnodup⟩ := howns.nodup_of_names (hbridge jump hbridgeJump) hbridgeArgs
    have hagain : RecordsAgain file scope inputs q _ r ops args :=
      ⟨howns, hsubset, hnodup, hcontinues.next_le, rfl, hops, hargs⟩
    have hends := mem_of_resolve_of_run rfl hrun hops₀.isFinal hscope fun v hv =>
      howns.mem_of_args hbridgeArgs hv
    exact hagain.runsBehind hlen hloop hcontinues.memo rfl hvalues (hendArgs ▸ hends) hpeeled
      hheader (waiting.operations ++ header.copies)

/--
Whatever a bridge is compiled to that does not jump with a name twice: where a label takes as many
values as the file has inputs, the code behind it does turn by turn what the file's loop does round
by round. This holds for every frame that the bridge is recorded with, and for every state of the
context.
-/
theorem compileBridge_runsBehind (file : TraceFile) (bridge : BridgeSpec)
    (hloop : file.LoopInScope) (hbridge : bridge.JumpsApart)
    (hrecord : runFrom (recordBridge file driver unit bridge frame) { guards } =
      (.ok (some history), r)) (c : Context) (home : Option UnitHandle) (g : Guard) :
    ∃ new, (runFrom (compileBridge file (.guard g))
        ⟨c, { driver, history, home }⟩).2.context.backend.bridges = c.backend.bridges ++ new ∧
      ∀ b ∈ new, ∀ op ∈ b.operations, op.opcode = .label →
        ∃ entry, op.descr = some (.target entry) ∧
          (op.args.length = file.inputs.length → file.RunsBehind entry b.operations) :=
  (compileBridge_rerunning hloop hbridge hrecord c home (.guard g)).1.bridges

end Replayer

/--
Two counters behind a guard. An entry with the key of the loop takes its place as the procedure, and
has no entry points of its own, so that bridges find no way in.
-/
def counters (bridge : BridgeSpec) : TraceFile where
  driver := { name := "d" }
  inputs := [⟨"i0", .int 1⟩, ⟨"i1", .int 1⟩]
  body := [
    { op := .guardTrue, args := [.name "i0"], failArgs := ["i0"], guard := some "g" },
    { op := .intAdd, args := [.name "i0", .const (.int 1)], result := some "i2" },
    { op := .intAdd, args := [.name "i1", .const (.int 5)], result := some "i3" }]
  jump := [.name "i2", .name "i3"]
  bridges := [bridge]
  entryBridges := [{
    greens := []
    inputs := [⟨"i0", .int 1⟩, ⟨"i1", .int 1⟩]
    jump := [.name "i0", .name "i1"] }]
  failures := [{ guard := "g", values := [.int 9] }]

/-- A bridge that swaps the counters. -/
def swapping : BridgeSpec where
  guard := "g"
  inputs := ["i8", "i9"]
  jump := some [.name "i9", .name "i8"]

/-- A bridge that sets both counters to the same value. -/
def levelling : BridgeSpec where
  guard := "g"
  inputs := ["i9"]
  jump := some [.name "i9", .name "i9"]

/-- Behind the bridge that swaps them the counters go on as before. -/
theorem Replayer.compileBridge_runsBehind_swapping :
    let file := counters swapping
    let driver := file.jitDriver
    let made := (Context.ofConfig { counterBits := 1 }).makeUnit driver
    let c := made.2.attach driver (key file) made.1
    let g : Guard := ⟨0, .guardTrue, .plain⟩
    let frame : DeadFrame := { descr := .guard g, values := [.int 8, .int 9] }
    file.LoopInScope ∧ swapping.JumpsApart ∧ ∃ history r b entry,
      runFrom (recordBridge file driver (some made.1) swapping frame) { guards := {} } =
        (.ok (some history), r) ∧
      (runFrom (compileBridge file (.guard g))
        ⟨c, { driver, history, home := some made.1 }⟩).2.context.backend.bridges = [b] ∧
      file.RunsBehind entry b.operations := by
  intro file driver made c g frame
  have hloop : file.LoopInScope := by decide +kernel
  have hbridge : swapping.JumpsApart := by decide +kernel
  have hrun : let recorded := (runFrom (recordBridge file driver (some made.1) swapping frame)
        { guards := {} }).1.toOption.join
      let w := (runFrom (compileBridge file (.guard g))
        ⟨c, { driver, history := recorded.getD {}, home := some made.1 }⟩).2
      recorded.isSome ∧ w.context.backend.bridges.map (fun b =>
        (b.operations.filter (·.opcode = .label)).map (·.args.length)) = [[2]] := by
    decide +kernel
  generalize hr : runFrom (recordBridge file driver (some made.1) swapping frame)
    { guards := {} } = recorded at hrun
  obtain ⟨answer, r⟩ := recorded
  match answer with
  | .error e => cases hrun.1
  | .ok none => cases hrun.1
  | .ok (some history) =>
    obtain ⟨new, hnew, hall⟩ :=
      compileBridge_runsBehind file swapping hloop hbridge hr c (some made.1) g
    have hshape := hrun.2
    simp only [Except.toOption, Option.join_some, Option.getD_some] at hshape
    rw [hnew] at hshape
    obtain ⟨b, hb, hlabels⟩ := List.map_eq_singleton_iff.mp hshape
    obtain ⟨op, hop, hcount⟩ := List.map_eq_singleton_iff.mp hlabels
    have hmem : op ∈ b.operations.filter (·.opcode = .label) := hop ▸ List.mem_singleton_self op
    obtain ⟨hmem, hlabel⟩ := List.mem_filter.mp hmem
    obtain ⟨entry, -, hruns⟩ := hall b (by rw [show new = [b] from hb]; simp) op hmem
      (of_decide_eq_true hlabel)
    exact ⟨hloop, hbridge, history, r, b, entry, rfl, hnew.trans hb, hruns hcount⟩

/--
Behind the bridge that sets them to the same value the code reads the second counter for the first,
and its next round starts with the wrong values.
-/
theorem Run.not_runsBehind_levelling :
    let file := counters levelling
    let run := file.start { traceEagerness := 1, counterBits := 1 } .all
    let last := (runFrom (beforeGenerations file file.jitDriver) run).2
    file.LoopInScope ∧ ∃ b entry, last.context.backend.bridges = [b] ∧
      (∃ op ∈ b.operations, op.opcode = .label ∧ op.descr = some (.target entry) ∧
        op.args.length = file.inputs.length) ∧ ¬ file.RunsBehind entry b.operations := by
  intro file run last
  refine ⟨by decide +kernel, ?_⟩
  let entry : EntryPoint := ⟨2, ⟨1, 1⟩, [.int, .int]⟩
  let x (i : Nat) : Var := ⟨i, .int⟩
  let loop : List Operation := [
    { opcode := .guardTrue, args := [.var (x 4)], descr := some (.guard ⟨3, .guardTrue, .plain⟩),
      failArgs := some [some (x 4)] },
    { opcode := .intAdd, args := [.var (x 4), .int 1], result := some (x 5) },
    { opcode := .intAdd, args := [.var (x 4), .int 5], result := some (x 6) },
    .jump [.var (x 5), .var (x 6)] (.target entry)]
  let code : List Operation :=
    { opcode := .sameAs, args := [.var (x 0)], result := some (x 3) } ::
    { opcode := .sameAs, args := [.var (x 0)], result := some (x 4) } ::
    .label [x 3, x 4] (.target entry) :: loop
  have hrun : last.context.backend.bridges.map (·.operations) = [code] := by decide +kernel
  obtain ⟨b, hb, hcode⟩ := List.map_eq_singleton_iff.mp hrun
  refine ⟨b, entry, hb,
    ⟨.label [x 3, x 4] (.target entry), by simp [hcode, code], rfl, rfl, rfl⟩, ?_⟩
  rw [hcode]
  rintro ⟨before, vars, placed, hplaced, -, hturns⟩
  have hlabel : ∀ rest, loop ≠ rest ++ .label vars (.target entry) :: placed.map (·.op) := by
    intro rest heq
    have hno : ∀ op ∈ loop, op.opcode ≠ .label := by decide
    exact hno (.label vars (.target entry)) (by rw [heq]; simp) rfl
  match before with
  | [] => cases (List.cons.inj hplaced).1
  | [_] => cases (List.cons.inj (List.cons.inj hplaced).2).1
  | _ :: _ :: _ :: rest =>
    exact hlabel rest (List.cons.inj (List.cons.inj (List.cons.inj hplaced).2).2).2
  | [_, _] =>
    obtain ⟨hvars, hloop⟩ := List.cons.inj (List.cons.inj (List.cons.inj hplaced).2).2
    obtain rfl : vars = [x 3, x 4] := by
      simpa using (congrArg Operation.argVars hvars).symm
    have hplaced := hloop.symm
    simp only [loop, List.map_eq_cons_iff, List.map_eq_nil_iff] at hplaced
    obtain ⟨⟨_, o₁, e₁⟩, _, rfl, rfl, ⟨_, o₂, e₂⟩, _, rfl, rfl, ⟨_, o₃, e₃⟩, _, rfl, rfl,
      ⟨_, o₄, e₄⟩, _, rfl, rfl, rfl⟩ := hplaced
    let M : Machine Unit := {
      valid := true, arith := fun _ _ => .int 0, guard := fun _ _ _ => none
      perform := fun _ _ _ st => (.int 0, st) }
    -- the code adds both times to the second value
    have hturn : Ending.stops .label none [.int 10, .int 14] () =
        file.rounds M .empty 1 [.int 3, .int 9] () :=
      hturns Unit M (fun _ => .void) 1 [.int 3, .int 9] () rfl
    have hround : file.rounds M .empty 1 [.int 3, .int 9] () =
        .stops .label none [.int 4, .int 14] () := by
      decide +kernel
    cases hturn.trans hround

end HotLoop
