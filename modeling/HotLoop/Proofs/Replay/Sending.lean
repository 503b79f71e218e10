import HotLoop.Proofs.Compile.Continuing
import HotLoop.Proofs.Replay.Recorder

/-!
# What a replay submits

A replay submits code in four places only: where it compiles the loop of its file, an entry from the
interpreter, a bridge behind a failing guard, and a temporary callback. What is wanted of all
submitted code has to be shown for these four, with what has been recorded for them, and then holds
of the whole replay.
-/

namespace HotLoop

open Replay

/-- What a compile call submits is as wanted. -/
abbrev Workbench.Sends {α : Type} (spec : CodeSpec) (x : CompileM α) (w : Workbench) : Prop :=
  Goes (Adds spec Workbench.context) (fun _ => False) x w

theorem Workbench.Sound.sends {α : Type} {spec : CodeSpec} {x : CompileM α} {w : Workbench}
    (h : Workbench.Sound spec x w) : Workbench.Sends spec x w :=
  h.mono fun _ => False.elim

/-- The loop is compiled at once, or else once more behind what the first attempt has left. -/
theorem Run.compileLoop_goes {R : Workbench → Workbench → Prop} [Std.Refl R] [IsTrans Workbench R]
    {P : Stop → Prop} {key : GreenKey} {args : List Arg} {w : Workbench}
    (h : ∀ w' avoidUnroll, Workbench.Continues w w' → (avoidUnroll = false → w' = w) →
      Goes R P (Workbench.compileLoop key 0 w.session.history.inputs args avoidUnroll) w') :
    Goes R P (Run.compileLoop key args) w := by
  unfold Run.compileLoop
  refine .get_bind (.bind_run (h w false (.of_eq rfl) fun _ => rfl) fun entry w' hrun => ?_)
  cases entry with
  | some entry => exact .pure _
  | none =>
    have hcontinues : Workbench.Continues w (runFrom (Workbench.compileLoop key 0
        w.session.history.inputs args false) w).2 := Workbench.compileLoop_continues 0 false
    rw [hrun] at hcontinues
    exact h w' true hcontinues nofun

def TraceFile.bridgeFor? (file : TraceFile) (failure : FailureSpec) : Option BridgeSpec :=
  (file.guardPositions.get? failure.guard).bind (Replayer.bridgeAt? file)

/-- What the compile calls of a replay submit is as wanted. -/
structure TraceFile.Sends (spec : CodeSpec) (file : TraceFile) (driver : Driver) : Prop where
  loop : ∀ {guards : GuardTable} {args : List Arg} {r : Recorder} (c : Context),
    runFrom (Run.recordLoop file driver) { guards } = (.ok args, r) →
    Workbench.Sends spec (Run.compileLoop (Replayer.key file) args)
      ⟨c, { driver, history := r.history }⟩
  entry : ∀ {guards : GuardTable} {unit : UnitHandle} {entry : EntrySpec} {history : History}
    {r : Recorder} (c : Context),
    runFrom (Replayer.recordEntry file driver unit entry) { guards } = (.ok history, r) →
    Workbench.Sends spec (Workbench.compileTrace (.interpreter ⟨entry.greens⟩))
      ⟨c, { driver, history }⟩
  bridge : ∀ {guards : GuardTable} {unit : Option UnitHandle} {failure : FailureSpec}
    {bridge : BridgeSpec} {frame : DeadFrame} {history : History} {r : Recorder} (c : Context)
    (home : Option UnitHandle) (g : Guard),
    failure ∈ file.failures → file.bridgeFor? failure = some bridge →
    frame.values = failure.values →
    runFrom (Replayer.recordBridge file driver unit bridge frame) { guards } =
      (.ok (some history), r) →
    Workbench.Sends spec (Replayer.compileBridge file (.guard g)) ⟨c, { driver, history, home }⟩
  callback : ∀ {greens : List Arg} {reds : List Kind} {inputs : List Var} {ops : List Operation},
    callbackCode driver greens reds = .ok (inputs, ops) → spec.loop inputs ops

variable {spec : CodeSpec} {file : TraceFile} {driver : Driver} {α β : Type}

namespace Replayer

variable {s : Context × Replayer}

/-- What is submitted on the way is as wanted. -/
abbrev Sends (spec : CodeSpec) (x : ReplayM α) (s : Context × Replayer) : Prop :=
  Goes (Adds spec Prod.fst) (fun _ => False) x s

section Recording

variable {σ : Type} {view : σ → Context} {put : Context → σ → σ} {start : Recorder}
  {x : RecordM α} {s : σ}

/--
However recording ends, the guards that it has made are kept, and what it has recorded is known.
-/
theorem runFrom_recording (view : σ → Context) (put : Context → σ → σ) (start : Recorder)
    (x : RecordM α) (s : σ) : ∃ answer r,
    runFrom x { start with guards := (view s).guards } = (answer, r) ∧
    (runFrom (recording view put start x) s).2 = put { view s with guards := r.guards } s ∧
    ∀ a r', (runFrom (recording view put start x) s).1 = .ok (.ok a, r') → answer = .ok a ∧ r' = r := by
  unfold recording
  rw [runFrom_bind, runFrom_get]
  cases hx : runFrom x { start with guards := (view s).guards } with
  | mk answer r =>
    have hx' : x { start with guards := (view s).guards } = (answer, r) := hx
    refine ⟨answer, r, rfl, ?_⟩
    dsimp only
    rw [hx', runFrom_bind, runFrom_modify]
    rcases answer with (e | f) | a
    · exact ⟨rfl, fun _ _ h => by cases h⟩
    · exact ⟨rfl, fun _ _ h => by cases h⟩
    · exact ⟨rfl, fun _ _ h => by cases h; exact ⟨rfl, rfl⟩⟩

theorem recording_eq_ok {a : α} {r : Recorder} {t : σ}
    (h : runFrom (recording view put start x) s = (.ok (.ok a, r), t)) :
    runFrom x { start with guards := (view s).guards } = (.ok a, r) ∧
      t = put { view s with guards := r.guards } s := by
  obtain ⟨answer, r', hx, hstate, hanswer⟩ := runFrom_recording view put start x s
  rw [h] at hstate hanswer
  obtain ⟨rfl, rfl⟩ := hanswer a r rfl
  exact ⟨hx, hstate⟩

theorem recording_sends (hput : ∀ c s, view (put c s) = c) :
    Goes (Adds spec view) (fun _ => False) (recording view put start x) s := by
  obtain ⟨-, r, -, hstate, -⟩ := runFrom_recording view put start x s
  exact ⟨.of_backend (by rw [hstate, hput]), fun _ _ => id⟩

end Recording

theorem inSession_sends {session : Session} {x : CompileM α}
    (h : Workbench.Sends spec x ⟨s.1, session⟩) : Sends spec (inSession session x) s :=
  ⟨⟨h.1.loops, h.1.bridges⟩, fun _ _ => id⟩

theorem blackhole_sends {g : Guard} {frame : DeadFrame} {cache : Option VirtualCache} :
    Sends spec (blackhole g frame cache) s :=
  ⟨.of_backend (by cases cache <;> rfl), fun _ _ => id⟩

/--
A bridge is compiled, and with it the loop that has been recorded once more with the arguments of
its jump for inputs.
-/
theorem compileBridge_sends {w : Workbench} {resumeKey : ResumeKey}
    (htrace : Workbench.Sends spec (Workbench.compileTrace resumeKey) w)
    (hretrace : ∀ {w' : Workbench} {closing : Operation} {inputs : List Var} {args : List Arg}
      {r : Recorder}, w' = (runFrom (Workbench.compileTrace resumeKey) w).2 →
      w'.session.history.operations.getLast? = some closing →
      closing.args.mapM Arg.var? = some inputs →
      runFrom (recordAgain file w'.session.driver inputs)
        { history := w'.session.history, guards := w'.context.guards } = (.ok args, r) →
      Workbench.Sends spec (Workbench.compileRetrace (key file)
        w'.session.history.operations.length inputs args resumeKey)
        ⟨{ w'.context with guards := r.guards }, { w'.session with history := r.history }⟩) :
    Workbench.Sends spec (compileBridge file resumeKey) w := by
  unfold compileBridge
  refine .bind_run htrace fun compiled w' hrun => .get_bind ?_
  split
  · unfold retrace
    refine .get_bind ?_
    dsimp only
    cases hlast : w'.session.history.operations.getLast? with
    | none => exact .pure _
    | some closing =>
      dsimp only
      cases hinputs : closing.args.mapM Arg.var? with
      | none => exact .bind_of_eq Workbench.runFrom_takeWaiting (.of_backend rfl) (.pure _)
      | some inputs =>
        refine .bind_run (recording_sends fun _ _ => rfl) fun answer t hrecord => ?_
        rcases answer with ⟨e | args, r⟩
        · refine .bind_of_eq (Workbench.runFrom_modifySession _) (.of_backend rfl) ?_
          exact .bind_of_eq Workbench.runFrom_takeWaiting (.of_backend rfl) (.pure _)
        · obtain ⟨hagain, rfl⟩ := recording_eq_ok hrecord
          refine .bind_of_eq (Workbench.runFrom_modifySession _) (.of_backend rfl) ?_
          refine .bind (hretrace ?_ hlast hinputs hagain) fun _ _ _ => .pure _
          rw [hrun]
  · exact .pure _

theorem trace_sends (h : file.Sends spec driver) {failure : FailureSpec}
    (hfailure : failure ∈ file.failures) {g : Guard} {frame : DeadFrame}
    (hposition : file.guardPositions.get? failure.guard = some (s.1.guards.get g).data.position)
    (hvalues : frame.values = failure.values) : Sends spec (trace file driver g frame) s := by
  unfold trace
  refine .get_bind ?_
  obtain ⟨c, r⟩ := s
  dsimp only at hposition ⊢
  cases hbridge : bridgeAt? file (c.guards.get g).data.position with
  | none => exact blackhole_sends
  | some bridge =>
    have hfor : file.bridgeFor? failure = some bridge := by
      rw [TraceFile.bridgeFor?, hposition]
      exact hbridge
    refine .bind_run (recording_sends fun _ _ => rfl) fun answer t hrun => ?_
    rcases answer with ⟨e | _ | history, r'⟩
    · exact blackhole_sends
    · exact blackhole_sends
    · refine .bind_of_eq (runFrom_modify _) (.of_backend rfl) ?_
      refine .bind (inSession_sends ?_) fun _ _ _ => .pure _
      exact h.bridge _ _ _ hfailure hfor hvalues (recording_eq_ok hrun).1

theorem mustCompile_eq (c : Context) (driver : Driver) (g : Guard) (frame : DeadFrame) :
    ∃ counter, (c.mustCompile driver g frame).2 = { c with counter } := by
  unfold Context.mustCompile
  dsimp only
  split
  · exact ⟨c.counter, rfl⟩
  · exact ⟨_, rfl⟩

private theorem finally_sends {x : ReplayM α} {change : Context × Replayer → Context × Replayer}
    (hx : Sends spec x s) (hchange : ∀ t, (change t).1.backend = t.1.backend) :
    Sends spec (x.finally change) s :=
  ⟨hx.1.trans (.of_backend (hchange _)), fun _ _ => id⟩

theorem data_startTracing (t : GuardTable) (g : Guard) :
    ((t.startTracing g).get g).data = (t.get g).data := by
  rw [GuardTable.startTracing, GuardTable.get_modify]
  split <;> rfl

theorem position_startTracing (t : GuardTable) (g : Guard) :
    ((t.startTracing g).get g).data.position = (t.get g).data.position := by
  rw [data_startTracing]

theorem handleFail_sends (h : file.Sends spec driver) {failure : FailureSpec}
    (hfailure : failure ∈ file.failures) {g : Guard}
    (hposition : file.guardPositions.get? failure.guard = some (s.1.guards.get g).data.position) :
    Sends spec ((hooks file).handleFail driver { descr := .guard g, values := failure.values }) s := by
  have hblackhole (frame : DeadFrame) (cache : Option VirtualCache) (t : Context × Replayer) :
      Sends spec ((hooks file).blackhole driver g frame cache) t := blackhole_sends
  rw [Hooks.handleFail]
  dsimp only
  unfold Hooks.handleGuard
  split
  · split
    · exact .throw_bind id
    · unfold Hooks.countBlackhole Hooks.modifyContext
      refine .bind_of_eq (runFrom_modify _) (.of_backend rfl) ?_
      exact hblackhole _ _ _
  · refine .get_bind ?_
    split
    · exact hblackhole _ _ _
    · unfold Hooks.countBlackhole Hooks.modifyContext
      refine .bind_of_eq (runFrom_modify _) (.of_backend rfl) (.get_bind ?_)
      obtain ⟨counter, hmust⟩ := mustCompile_eq (s.1.modifyStats fun stats =>
        { stats with guardFailures := stats.guardFailures + 1 }) driver g
          { descr := .guard g, values := failure.values }
      generalize Context.mustCompile _ driver g _ = must at hmust ⊢
      obtain ⟨fired, context⟩ := must
      dsimp only at hmust ⊢
      rw [hmust]
      refine .bind_of_eq (runFrom_modify _) (.of_backend rfl) ?_
      split
      · refine .bind_of_eq (runFrom_modify _) (.of_backend rfl) ?_
        refine .bind_of_eq (runFrom_modify _) (.of_backend rfl) ?_
        refine finally_sends ?_ fun t => rfl
        exact trace_sends h hfailure (hposition.trans (congrArg some (position_startTracing ..).symm))
          rfl
      · refine .bind_of_eq (runFrom_modify _) (.of_backend rfl) ?_
        exact hblackhole _ _ _

theorem entryBridge_sends (h : file.Sends spec driver) {entry : EntrySpec} :
    Sends spec (entryBridge file driver entry) s := by
  unfold entryBridge
  refine .get_bind ?_
  obtain ⟨c, r⟩ := s
  dsimp only
  cases c.procedure? driver (key file) with
  | none => exact .pure _
  | some unit =>
    refine .bind_run (recording_sends fun _ _ => rfl) fun answer t hrun => ?_
    rcases answer with ⟨e | history, r'⟩
    · exact .pure _
    · refine .bind (inSession_sends ?_) fun _ _ _ => .get_bind (.pure _)
      exact h.entry _ (recording_eq_ok hrun).1

end Replayer

namespace Run

variable {run : Run}

/-- What is submitted on the way is as wanted. -/
abbrev Sends (spec : CodeSpec) (x : RunM α) (run : Run) : Prop :=
  Goes (Adds spec Run.context) (fun _ => False) x run

theorem replaying_sends {x : ReplayM α} {next : α → RunM β}
    (hx : Replayer.Sends spec x (run.context, run.interpreter))
    (hnext : ∀ a s, runFrom x (run.context, run.interpreter) = (.ok a, s) →
      Sends spec (next a) { run with context := s.1, interpreter := s.2 }) :
    Sends spec (replaying x >>= next) run := by
  unfold replaying
  rw [bind_assoc]
  refine .get_bind ?_
  unfold Replayer.Sends Goes at hx
  cases hrun : runFrom x (run.context, run.interpreter) with
  | mk result s =>
    have hrun' : x (run.context, run.interpreter) = (result, s) := hrun
    rw [hrun] at hx
    rw [hrun', bind_assoc]
    refine .bind_of_eq (runFrom_set _) ⟨hx.1.loops, hx.1.bridges⟩ ?_
    rcases result with (e | f) | a
    · exact .throw_bind id
    · exact .throw_bind id
    · exact hnext a s hrun

theorem loop_sends (h : file.Sends spec driver) : Sends spec (loop file driver) run := by
  unfold loop
  refine replaying_sends (Replayer.recording_sends fun _ _ => rfl) fun answer s hrun => ?_
  obtain ⟨result, r⟩ := answer
  dsimp only
  cases result with
  | error e => exact .throw_bind id
  | ok args =>
    refine .bind_of_eq rfl (.of_backend rfl) ?_
    refine replaying_sends (Replayer.inSession_sends (h.loop _ (Replayer.recording_eq_ok hrun).1))
      fun entry t _ => ?_
    cases entry with
    | none => exact .throw id
    | some entry => exact .pure _

theorem enter_sends (h : file.Sends spec driver) (entry : EntrySpec) : Sends spec (do
    let _ ← ofRecord (← replaying (Replayer.entryBridge file driver entry))) run := by
  refine replaying_sends (Replayer.entryBridge_sends h) fun answer _ _ => ?_
  cases answer with
  | error e => exact .throw_bind id
  | ok unit => exact .bind_of_eq rfl (.of_backend rfl) (.pure _)

private theorem position_of_findGuard? {c : Context} {unit : UnitHandle} {position : Nat} {g : Guard}
    (h : findGuard? c unit position = some g) : (c.guards.get g).data.position = position := by
  rcases Option.or_eq_some_iff.mp h with hfound | ⟨-, hfound⟩
  · exact eq_of_beq (List.find?_some (p := fun g => (c.guards.get g).data.position == _) hfound)
  · exact eq_of_beq (List.find?_some (p := fun g => (c.guards.get g).data.position == _) hfound)

theorem failOnce_sends (h : file.Sends spec driver) {unit : UnitHandle} {failure : FailureSpec}
    (hfailure : failure ∈ file.failures) {position : Nat}
    (hposition : file.guardPositions.get? failure.guard = some position) :
    Sends spec (failOnce file driver unit failure position) run := by
  unfold failOnce
  refine .get_bind ?_
  cases hg : findGuard? run.context unit position with
  | none => exact .throw id
  | some g =>
    dsimp only
    split
    · split
      · exact .set (.of_backend rfl)
      · exact .throw id
    · refine replaying_sends (Replayer.handleFail_sends h hfailure ?_) fun exit s _ => ?_
      · rw [hposition, position_of_findGuard? hg]
      · exact .modify (.of_backend rfl)

private theorem repeatedly_sends {x : RunM Unit} (hx : ∀ run, Sends spec x run) (n : Nat) :
    Sends spec (repeatedly x n) run := by
  induction n generalizing run with
  | zero => exact .pure _
  | succ n ih => exact .bind (hx run) fun _ _ _ => ih

theorem failures_sends (h : file.Sends spec driver) {unit : UnitHandle} {failure : FailureSpec}
    (hfailure : failure ∈ file.failures) : Sends spec (failures file driver unit failure) run := by
  unfold failures
  cases hposition : file.guardPositions.get? failure.guard with
  | none => exact .throw id
  | some position =>
    exact repeatedly_sends (fun _ => failOnce_sends h hfailure hposition) failure.times

theorem callback_sends (h : file.Sends spec driver) (index : Nat) (callback : CallbackSpec) :
    Sends spec (Run.callback driver index callback) run := by
  have hcompile : Goes (Adds spec id) spec.Forbids (Context.compileCallback driver
      (callback.greens.map .int) callback.reds) run.context :=
    Context.compileCallback_sound fun _ _ => h.callback
  unfold Run.callback
  split
  · exact .throw_bind id
  · exact replaying_sends ⟨⟨hcompile.1.loops, hcompile.1.bridges⟩, fun _ _ => id⟩ fun _ _ _ =>
      .pure _

end Run

/-- All code in the backend is as wanted. -/
structure Backend.Holds (spec : CodeSpec) (b : Backend) : Prop where
  loops : ∀ l ∈ b.loops, spec.loop l.inputs l.operations
  bridges : ∀ l ∈ b.bridges, spec.bridge l.inputs l.operations

namespace Backend.Holds

theorem adds {σ : Type} {view : σ → Context} {s s' : σ} (hs : (view s).backend.Holds spec)
    (h : Adds spec view s s') : (view s').backend.Holds spec := by
  obtain ⟨loops, hloops, hnew⟩ := h.loops
  obtain ⟨bridges, hbridges, hnew'⟩ := h.bridges
  refine ⟨fun l hl => ?_, fun b hb => ?_⟩
  · rw [hloops] at hl
    exact (List.mem_append.mp hl).elim (hs.loops l) (hnew l)
  · rw [hbridges] at hb
    exact (List.mem_append.mp hb).elim (hs.bridges b) (hnew' b)

theorem free {b : Backend} (h : b.Holds spec) (unit : UnitHandle) : (b.free unit).Holds spec :=
  ⟨h.loops, fun l hl => h.bridges l (List.mem_of_mem_filter hl)⟩

theorem nextGeneration {c : Context} (h : c.backend.Holds spec) :
    c.nextGeneration.2.backend.Holds spec := by
  have hfold (freed : List UnitHandle) {b : Backend} (hb : b.Holds spec) :
      (freed.foldl Backend.free b).Holds spec := by
    induction freed generalizing b with
    | nil => exact hb
    | cons unit freed ih => exact ih (hb.free unit)
  exact hfold _ h

end Backend.Holds

namespace Run

variable {run : Run}

/-- All of a replay but the generations at its end. -/
def beforeGenerations (file : TraceFile) (driver : Driver) : RunM Unit := do
  let unit ← loop file driver
  file.entryBridges.forM fun spec => do
    let _ ← ofRecord (← replaying (Replayer.entryBridge file driver spec))
  file.failures.forM (failures file driver unit)
  file.invalidate.forM invalidate
  file.callbacks.zipIdx.forM fun (spec, index) => callback driver index spec

theorem file_eq (file : TraceFile) (driver : Driver) :
    Run.file file driver = (do
      beforeGenerations file driver
      repeatedly nextGeneration file.generations) := by
  simp only [Run.file, beforeGenerations, bind_assoc]

theorem runFrom_nextGeneration (run : Run) : runFrom nextGeneration run =
    if run.context.collector.hasNext then
      (.ok (), { run with context := run.context.nextGeneration.2 })
    else (.error (.fault .tooManyGenerations), run) := by
  rw [nextGeneration, runFrom_bind, runFrom_get]
  dsimp only
  split <;> rfl

theorem beforeGenerations_sends (h : file.Sends spec driver) :
    Sends spec (beforeGenerations file driver) run := by
  unfold beforeGenerations
  refine .bind (loop_sends h) fun unit _ _ => ?_
  refine .bind (.forM fun entry _ _ => enter_sends h entry) fun _ _ _ => ?_
  refine .bind (.forM fun failure hfailure _ => failures_sends h hfailure) fun _ _ _ => ?_
  refine .bind (.forM fun field _ _ => .modify (.of_backend rfl)) fun _ _ _ => ?_
  exact .forM fun callback _ _ => callback_sends h callback.2 callback.1

private theorem holds_generations (hrun : run.context.backend.Holds spec) (n : Nat) :
    (runFrom (repeatedly nextGeneration n) run).2.context.backend.Holds spec := by
  induction n generalizing run with
  | zero => exact hrun
  | succ n ih =>
    rw [repeatedly, runFrom_bind, runFrom_nextGeneration]
    cases run.context.collector.hasNext with
    | true => exact ih hrun.nextGeneration
    | false => exact hrun

/-- What a replay submits is as wanted, and so is what the generations at its end leave of it. -/
structure Submits (spec : CodeSpec) (file : TraceFile) (driver : Driver) (run : Run) : Prop where
  submitted : (runFrom (beforeGenerations file driver) run).2.context.backend.Holds spec
  left : (runFrom (Run.file file driver) run).2.context.backend.Holds spec

theorem submits (h : file.Sends spec driver) (hrun : run.context.backend.Holds spec) :
    Submits spec file driver run := by
  have hsends : Sends spec (beforeGenerations file driver) run := beforeGenerations_sends h
  have hholds := hrun.adds hsends.1
  refine ⟨hholds, ?_⟩
  rw [file_eq, runFrom_bind]
  cases (runFrom (beforeGenerations file driver) run).1 with
  | error e => exact hholds
  | ok _ => exact holds_generations hholds file.generations

end Run

namespace TraceFile

/-- The state in which the replay of a file starts. -/
def start (file : TraceFile) (config : Config) (opts : OptSet)
    (addresses : Nat → UInt64 := Guard.inOrder) : Run where
  context := (Context.ofConfig config addresses).setWarm file.jitDriver
    { opts, eagerness := config.traceEagerness }

theorem run_eq (file : TraceFile) (config : Config) (addresses : Nat → UInt64) :
    file.run config addresses =
    match config.opts with
    | .error name => .error (.error (.unknownOptimization name))
    | .ok opts =>
      match runFrom (Run.file file file.jitDriver) (file.start config opts addresses) with
      | (.ok (), run) => .ok run.report
      | (.error e, _) => .error e := by
  unfold run
  cases config.opts <;> rfl

theorem holds_start (file : TraceFile) (config : Config) (opts : OptSet)
    (addresses : Nat → UInt64) : (file.start config opts addresses).context.backend.Holds spec where
  loops _ hl := by cases hl
  bridges _ hb := by cases hb

end TraceFile

end HotLoop
