import HotLoop.Proofs.Compile.Continuing
import HotLoop.Proofs.Kinds.File

/-!
# A replay keeps to its entry points

Whatever a file holds, the labels that its replay submits have arguments of the kinds that their
entry points take, and so have the jumps into other code. If the file keeps kinds, then this is true
of the jumps that close a loop as well. Without that a loop may go round with fewer values than it
starts with: the second walk over a loop refuses such a jump, but the loop is then compiled without
a second walk, and nothing looks at the jump.
-/

namespace HotLoop

open Replay Recorder

theorem TypedLoop.mono {κ : Nat → Kind} {inputs : List Var} {ops : List Operation}
    {args : List Arg} {n n' : Nat} (h : TypedLoop κ inputs ops args n) (hle : n ≤ n') :
    TypedLoop κ inputs ops args n' where
  typedInputs v hv := (h.typedInputs v hv).mono (.refl _ _) hle
  typedOps op hop := (h.typedOps op hop).mono (.refl _ _) hle
  typedArgs a ha := (h.typedArgs a ha).mono (.refl _ _) hle
  sameKinds := h.sameKinds

theorem Recorder.Records.straight {specs : List OpSpec} {r r' : Recorder} {ops : List Operation}
    (h : Records specs r r' ops) : Straight ops :=
  ⟨h.isFinal, h.unlabelled⟩

section Calls

variable {typed : Prop} {file : TraceFile} {driver : Driver} {guards : GuardTable} {r : Recorder}

private theorem loop_fits (hdriver : driver.virtualizable = none) {args : List Arg} (c : Context)
    (hrun : runFrom (Run.recordLoop file driver) { guards } = (.ok args, r)) :
    Workbench.Sends (fittingCode file.KeepsKinds) (Run.compileLoop (Replayer.key file) args)
      ⟨c, { driver, history := r.history }⟩ := by
  obtain ⟨q, vars, ops, henters, hops, hargs⟩ := recordLoop_eq_ok hrun
  have hinputs : r.history.inputVars = vars := by
    rw [History.inputVars, hops.inputs, ← History.inputVars, henters.inputs]
    rfl
  have hoperations : r.history.operations = ops := by
    rw [hops.operations, henters.operations]
    rfl
  have hkinds : vars.map (·.kind) = file.inputs.map (·.value.kind) := by
    rw [henters.kinds, List.map_map]
    rfl
  have hnames : q.names = Table.empty.insertAll ((file.inputs.map (·.name)).zip vars) := by
    rw [henters.names, List.map_map]
    rfl
  have htyped (h : file.KeepsKinds) : ∃ κ, TypedLoop κ vars ops args r.history.values.next := by
    obtain ⟨κ, -, hvars⟩ := henters.typed fun _ => .void
    have hloop : file.LoopKeepsKinds (vars.map (·.kind)) := hkinds ▸ h.1
    obtain ⟨κ', -, hloop⟩ := hloop.typedLoop hvars hnames hops hargs
    exact ⟨κ', hloop⟩
  refine Run.compileLoop_goes fun w avoidUnroll hw _ => Workbench.Sound.sends ?_
  refine Workbench.compileLoop_fits (by rw [hw.driver]; exact hdriver) hw.memo ?_ fun h => ?_
  · rw [List.drop_zero, hw.operations, hoperations]
    exact hops.straight
  · obtain ⟨κ, hloop⟩ := htyped h
    rw [List.drop_zero, hw.operations]
    refine ⟨κ, ?_⟩
    rw [← hinputs, ← hoperations] at hloop
    exact hloop.mono hw.next_le

private theorem entry_fits (hdriver : driver.virtualizable = none) {unit : UnitHandle}
    {entry : EntrySpec} {history : History} (c : Context)
    (hrun : runFrom (Replayer.recordEntry file driver unit entry) { guards } = (.ok history, r)) :
    Workbench.Sends (fittingCode typed) (Workbench.compileTrace (.interpreter ⟨entry.greens⟩))
      ⟨c, { driver, history }⟩ := by
  obtain ⟨q, q', vars, ops, args, henters, hops, -, rfl⟩ := recordEntry_eq_ok hrun
  have hoperations : q'.history.operations = ops := by
    rw [hops.operations, henters.operations]
    rfl
  have hstraight : Workbench.StraightBridge { driver, history := { q'.history with
      operations := q'.history.operations ++ [.jump args (.cell unit)] } } ops
        (.jump args (.cell unit)) :=
    ⟨congrArg (· ++ [.jump args (.cell unit)]) hoperations, hops.straight, rfl,
      fun e he => by cases he⟩
  exact (Workbench.compileTrace_fits hdriver hstraight).sends

section Bridges

variable {bridge : BridgeSpec} {frame : DeadFrame} {q q' : Recorder} {vars : List Var}
  {ops : List Operation} {closing : Operation}

private theorem straightBridge_of_records {home : Option UnitHandle}
    (henters : Enters (bridge.inputs.zip frame.values) { guards } q vars)
    (hops : Records bridge.ops q q' ops) (hend : BridgeEnd bridge q'.names closing) :
    Workbench.StraightBridge { driver, home, history := { q'.history with
      operations := q'.history.operations ++ [closing] } } ops closing := by
  have hoperations : q'.history.operations = ops := by
    rw [hops.operations, henters.operations]
    rfl
  refine ⟨congrArg (· ++ [closing]) hoperations, hops.straight, ?_, fun e he => ?_⟩
  · cases hend <;> rfl
  · cases hend <;> cases he

private theorem typedLoop_of_records {inputs : List Var} {args : List Arg} {ops' : List Operation}
    {s r' : Recorder} (hkeeps : bridge.KeepsKinds file (frame.values.map Value.kind))
    (henters : Enters (bridge.inputs.zip frame.values) { guards } q vars)
    (hops : Records bridge.ops q q' ops) (hend : BridgeEnd bridge q'.names closing)
    (hjump : closing.opcode = .jump) (hinputs : closing.args.mapM Arg.var? = some inputs)
    (hle : q'.history.values.next ≤ s.history.values.next)
    (hnames : s.names = Table.empty.insertAll ((file.inputs.map (·.name)).zip inputs))
    (hops' : Records file.body s r' ops')
    (hargs : file.jump.map (·.value? r'.names) = args.map some) :
    ∃ κ, (∀ op ∈ ops, op.Typed κ q'.history.values.next) ∧
      (∀ a ∈ closing.args, a.Typed κ q'.history.values.next) ∧
      closing.args.map Arg.kind = inputs.map (·.kind) ∧
      ∃ κ', SameKinds q'.history.values.next κ κ' ∧
        TypedLoop κ' inputs ops' args r'.history.values.next := by
  obtain ⟨hloop, κ, htyped, htypedArgs, hkinds⟩ := hkeeps.typed rfl henters hops hend hjump hinputs
  have hvars : ∀ v ∈ inputs, v.Typed κ q'.history.values.next := fun v hv => by
    have hv' : Arg.var v ∈ closing.args := by
      rw [eq_map_var_of_mapM hinputs]
      exact List.mem_map_of_mem hv
    exact htypedArgs _ hv' v rfl
  obtain ⟨κ', hκ, hloop⟩ := hloop.typedLoop
    (fun v hv => (hvars v hv).mono (.refl _ _) hle) hnames hops' hargs
  exact ⟨κ, htyped, htypedArgs, hkinds, κ', fun i hi => hκ i (Nat.lt_of_lt_of_le hi hle), hloop⟩

private theorem bridge_fits (hdriver : driver.virtualizable = none) {unit : Option UnitHandle}
    {failure : FailureSpec} {history : History} (c : Context) (home : Option UnitHandle) (g : Guard)
    (hfailure : failure ∈ file.failures) (hbridge : file.bridgeFor? failure = some bridge)
    (hvalues : frame.values = failure.values)
    (hrun : runFrom (Replayer.recordBridge file driver unit bridge frame) { guards } =
      (.ok (some history), r)) :
    Workbench.Sends (fittingCode file.KeepsKinds) (Replayer.compileBridge file (.guard g))
      ⟨c, { driver, history, home }⟩ := by
  obtain ⟨q, q', vars, ops, closing, henters, hops, hend, rfl⟩ := recordBridge_eq_ok hrun
  have hstraight : Workbench.StraightBridge { driver, home, history := { q'.history with
      operations := q'.history.operations ++ [closing] } } ops closing :=
    straightBridge_of_records henters hops hend
  refine Replayer.compileBridge_sends (Workbench.compileTrace_fits hdriver hstraight).sends ?_
  intro w closing' inputs args r' hw hlast hinputs hagain
  have hcontinues := Workbench.compileTrace_continues (.guard g) ⟨c, { driver, home, history :=
    { q'.history with operations := q'.history.operations ++ [closing] } }⟩
  rw [← hw] at hcontinues
  obtain rfl : closing = closing' := by
    rw [hcontinues.operations, List.getLast?_concat] at hlast
    exact Option.some.inj hlast
  obtain ⟨ops', hops', hargs⟩ := recordAgain_eq_ok hagain
  have hdrop : r'.history.operations.drop w.session.history.operations.length = ops' := by
    rw [hops'.operations]
    exact List.drop_left
  have hretrace : Workbench.StraightRetrace file.KeepsKinds { w.session with history := r'.history }
      w.session.history.operations.length inputs args := by
    refine ⟨⟨_, .guard g, ops, closing, hstraight, rfl, ⟨rfl, by rw [hw], ?_⟩, fun hkeeps hjump => ?_⟩,
      ?_⟩
    · rw [← hw]
      exact hops'.next_le
    · have hbridge : bridge.KeepsKinds file (frame.values.map Value.kind) :=
        hvalues ▸ hkeeps.2 failure hfailure bridge hbridge
      dsimp only
      rw [hdrop]
      exact typedLoop_of_records hbridge henters hops hend hjump hinputs hcontinues.next_le rfl hops'
        hargs
    · dsimp only
      rw [hdrop]
      exact hops'.straight
  have hdriver' : w.session.driver.virtualizable = none := by
    rw [hcontinues.driver]
    exact hdriver
  exact (Workbench.compileRetrace_fits
    (w := ⟨{ w.context with guards := r'.guards }, { w.session with history := r'.history }⟩)
    hdriver' hcontinues.memo hretrace).sends

end Bridges

private theorem callback_fits {greens : List Arg} {reds : List Kind} {inputs : List Var}
    {ops : List Operation} (hcode : callbackCode driver greens reds = .ok (inputs, ops)) :
    EntriesFit typed ops := by
  obtain ⟨result, -, -, rfl⟩ := callbackCode_eq_ok hcode
  intro op hop hentry
  simp only [List.mem_cons, List.not_mem_nil, or_false] at hop
  rcases hop with rfl | rfl | rfl <;> simp at hentry

end Calls

namespace TraceFile

private theorem sends_fitting (file : TraceFile) :
    file.Sends (fittingCode file.KeepsKinds) file.jitDriver where
  loop c hrun := loop_fits rfl c hrun
  entry c hrun := entry_fits rfl c hrun
  bridge c home g hfailure hbridge hvalues hrun :=
    bridge_fits rfl c home g hfailure hbridge hvalues hrun
  callback hcode := callback_fits hcode

/-- Labels and jumps have the arguments that the entry points take which they name. -/
def keepingToEntries : CodeSpec where
  loop _ ops := ∀ op ∈ ops, op.opcode = .label ∨ op.opcode = .jump → op.FitsEntry
  bridge _ ops := ∀ op ∈ ops, op.opcode = .label ∨ op.opcode = .jump → op.FitsEntry
  blameless := False

theorem submits_fitting (file : TraceFile) (config : Config) (opts : OptSet)
    (addresses : Nat → UInt64) :
    Run.Submits (fittingCode file.KeepsKinds) file file.jitDriver
      (file.start config opts addresses) :=
  Run.submits file.sends_fitting (file.holds_start config opts addresses)

/-- In the replay of a file that keeps kinds all labels and jumps keep to their entry points. -/
theorem submits_keepingToEntries (file : TraceFile) (config : Config) (opts : OptSet)
    (addresses : Nat → UInt64) (h : file.KeepsKinds) :
    Run.Submits keepingToEntries file file.jitDriver (file.start config opts addresses) := by
  have hfits := file.submits_fitting config opts addresses
  have hall {ops : List Operation} (hops : EntriesFit file.KeepsKinds ops) :
      ∀ op ∈ ops, op.opcode = .label ∨ op.opcode = .jump → op.FitsEntry :=
    fun op hop hentry => hops op hop (hentry.imp_right fun hjump => ⟨hjump, .inl h⟩)
  exact {
    submitted := ⟨fun l hl => hall (hfits.submitted.loops l hl),
      fun b hb => hall (hfits.submitted.bridges b hb)⟩
    left := ⟨fun l hl => hall (hfits.left.loops l hl), fun b hb => hall (hfits.left.bridges b hb)⟩ }

/-- A loop over one value; a bridge behind its guard brings a reference to it instead. -/
def rejoinedLoop : TraceFile where
  driver := { name := "d" }
  inputs := [⟨"i0", .int 5⟩]
  body := [{ op := .guardTrue, args := [.name "i0"], failArgs := ["i0"], guard := some "done" }]
  jump := [.name "i0"]
  bridges := [{ guard := "done", inputs := ["p5"], jump := some [.name "p5"] }]
  failures := [{ guard := "done", values := [.ref 8] }]

/-- The bridge is compiled with a loop of its own, which is entered with a reference. -/
theorem submits_keepingToEntries_rejoinedLoop :
    let run := rejoinedLoop.start { traceEagerness := 1, counterBits := 1 } .all
    let last := (runFrom (Run.beforeGenerations rejoinedLoop rejoinedLoop.jitDriver) run).2
    rejoinedLoop.KeepsKinds ∧ last.context.backend.bridges.length = 1 ∧
      Run.Submits keepingToEntries rejoinedLoop rejoinedLoop.jitDriver run := by
  intro run last
  have hkeeps : rejoinedLoop.KeepsKinds := by decide +kernel
  exact ⟨hkeeps, by decide +kernel, rejoinedLoop.submits_keepingToEntries _ _ _ hkeeps⟩

/-- A loop that goes round without the value that it starts with. -/
def forgetfulLoop : TraceFile where
  driver := { name := "d" }
  inputs := [⟨"i0", .int 0⟩]
  body := []
  jump := []

/-- Its second walk is refused, but the loop is then compiled without one. -/
theorem not_submits_keepingToEntries_forgetfulLoop :
    ¬ Run.Submits keepingToEntries forgetfulLoop forgetfulLoop.jitDriver
      (forgetfulLoop.start { counterBits := 1 } .all) := by
  intro h
  let entry : EntryPoint := ⟨0, ⟨0, 2⟩, [.int]⟩
  have hcode : (runFrom (Run.beforeGenerations forgetfulLoop forgetfulLoop.jitDriver)
      (forgetfulLoop.start { counterBits := 1 } .all)).2.context.backend.loops.map
        (·.operations) = [[.label [⟨0, .int⟩] (.target entry), .jump [] (.target entry)]] := by
    decide +kernel
  obtain ⟨l, hl, hops⟩ := List.mem_map.mp (hcode ▸ List.mem_singleton.mpr rfl)
  have hjump : Operation.jump [] (.target entry) ∈ l.operations := by
    rw [hops]
    simp
  have hfits := h.submitted.loops l hl _ hjump (.inr rfl) entry rfl
  cases hfits

end TraceFile

end HotLoop
