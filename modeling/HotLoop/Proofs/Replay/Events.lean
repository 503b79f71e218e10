import HotLoop.Proofs.Replay.Course

/-!
# The events of a replay

Behind its loop a replay is a sequence of events: entries from the interpreter, failures, writes,
callbacks and generations, in this order. It reaches a point after every one of them.
-/

namespace HotLoop

open Replay

/-- What happens in a replay once its loop has been compiled. -/
inductive Event where
  | enter (spec : EntrySpec)
  | seek (failure : FailureSpec)
  | fail (failure : FailureSpec)
  | write (field : Nat)
  | callback (index : Nat) (spec : CallbackSpec)
  | collect

/-- The events of a file. -/
def TraceFile.events (file : TraceFile) : List Event :=
  file.entryBridges.map .enter ++
  (file.failures.flatMap fun failure => .seek failure :: List.replicate failure.times (.fail failure)) ++
  file.invalidate.map .write ++
  (file.callbacks.zipIdx.map fun (spec, index) => .callback index spec) ++
  List.replicate file.generations .collect

namespace TraceFile

variable {file : TraceFile}

theorem enter_mem_events {spec : EntrySpec} :
    .enter spec ∈ file.events ↔ spec ∈ file.entryBridges := by
  simp [events]

theorem fail_mem_events {failure : FailureSpec} :
    .fail failure ∈ file.events ↔ failure ∈ file.failures ∧ failure.times ≠ 0 := by
  simp [events]

theorem callback_mem_events {index : Nat} {spec : CallbackSpec} :
    .callback index spec ∈ file.events ↔ (spec, index) ∈ file.callbacks.zipIdx := by
  simp [events]

end TraceFile

variable {file : TraceFile} {driver : Driver} {unit : UnitHandle} {run run' : Run}
  {config : Config} {addresses : Nat → UInt64} {done front : List Event} {event : Event}

namespace Event

/-- The part of a replay that an event is. -/
def perform (file : TraceFile) (driver : Driver) (unit : UnitHandle) : Event → RunM Unit
  | enter spec => do
    let _ ← Run.ofRecord (← Run.replaying (Replayer.entryBridge file driver spec))
  | seek failure => do
    let some _ := file.guardPositions.get? failure.guard | Run.failing (.unknownGuard failure.guard)
  | fail failure => do
    let some position := file.guardPositions.get? failure.guard
      | Run.failing (.unknownGuard failure.guard)
    Run.failOnce file driver unit failure position
  | write field => Run.invalidate field
  | callback index spec => Run.callback driver index spec
  | collect => Run.nextGeneration

end Event

namespace Run

section Listing

variable {α : Type}

private theorem forM_flatMap {β : Type} (l : List α) (f : α → List β) (x : β → RunM Unit) :
    forM (l.flatMap f) x = forM l fun a => forM (f a) x := by
  induction l with
  | nil => rfl
  | cons a l ih => rw [List.flatMap_cons, List.forM_append, List.forM_cons, ih]

private theorem repeatedly_eq (a : α) (x : α → RunM Unit) (n : Nat) :
    repeatedly (x a) n = forM (List.replicate n a) x := by
  induction n with
  | zero => rfl
  | succ n ih => rw [repeatedly, ih, List.replicate_succ, List.forM_cons]

end Listing

private theorem failures_eq (failure : FailureSpec) : failures file driver unit failure =
    forM (Event.seek failure :: List.replicate failure.times (.fail failure))
      (Event.perform file driver unit) := by
  rw [List.forM_cons, failures]
  cases hposition : file.guardPositions.get? failure.guard with
  | none =>
    simp only [Event.perform, hposition]
    rfl
  | some position =>
    have hfail : failOnce file driver unit failure position =
        Event.perform file driver unit (.fail failure) := by
      simp only [Event.perform, hposition]
    simp only [Event.perform, hposition, pure_bind]
    rw [hfail, repeatedly_eq]

private theorem generations_eq (file : TraceFile) (driver : Driver) (unit : UnitHandle) (n : Nat) :
    repeatedly nextGeneration n =
      forM (List.replicate n Event.collect) (Event.perform file driver unit) :=
  repeatedly_eq Event.collect (Event.perform file driver unit) n

theorem file_eq_events (file : TraceFile) (driver : Driver) : Run.file file driver = (do
    let unit ← loop file driver
    forM file.events (Event.perform file driver unit)) := by
  refine bind_congr fun unit => ?_
  have hfailures : file.failures.forM (failures file driver unit) =
      forM (file.failures.flatMap fun failure =>
        .seek failure :: List.replicate failure.times (.fail failure))
        (Event.perform file driver unit) := by
    rw [forM_flatMap, List.forM_eq_forM]
    exact congrArg _ (funext failures_eq)
  rw [TraceFile.events, List.forM_append, List.forM_append, List.forM_append, List.forM_append,
    List.forM_map, List.forM_map, List.forM_map, hfailures, generations_eq file driver unit]
  simp only [bind_assoc]
  rfl

section Outcomes

/--
What a failure comes to: the guard that is found for its label has a bridge, which runs, or else it
is left through that guard.
-/
inductive FailsOnce (file : TraceFile) (driver : Driver) (unit : UnitHandle) (failure : FailureSpec)
    (run run' : Run) : Prop where
  | ran (position : Nat) (g : Guard)
      (hposition : file.guardPositions.get? failure.guard = some position)
      (hfind : findGuard? run.context unit position = some g)
      (hbridge : 0 < (run.context.guards.get g).bridges)
      (hrun' : run' = { run with bridgeRuns := run.bridgeRuns + 1 })
  | left (position : Nat) (g : Guard) (exit : FrameExit)
      (hposition : file.guardPositions.get? failure.guard = some position)
      (hfind : findGuard? run.context unit position = some g)
      (hbridge : (run.context.guards.get g).bridges = 0)
      (hfails : Replayer.Fails file driver g { descr := .guard g, values := failure.values }
        run.context run'.context)
      (hrun' : run' = { run with
        context := run'.context, interpreter := run'.interpreter, exits := exit :: run.exits })

theorem fail_eq_ok {failure : FailureSpec} (hdriver : driver.virtualizable = none)
    (hc : run.context.registry.WellFormed)
    (h : runFrom (Event.perform file driver unit (.fail failure)) run = (.ok (), run')) :
    FailsOnce file driver unit failure run run' := by
  simp only [Event.perform] at h
  split at h
  · rename_i position hposition
    rw [failOnce, runFrom_bind, runFrom_get] at h
    dsimp only at h
    split at h
    · rename_i g hfind
      split at h
      · rename_i hbridge
        split at h
        · cases h
          exact .ran position g hposition hfind hbridge rfl
        · cases h
      · rename_i hbridge
        rw [runFrom_bind_eq_ok] at h
        obtain ⟨exit, run₁, hreplaying, h⟩ := h
        obtain ⟨c, interpreter, hfail, rfl⟩ := replaying_eq_ok hreplaying
        cases h
        exact .left position g exit hposition hfind (by omega)
          (Replayer.handleFail_eq_ok hdriver hc rfl hfail) rfl
    · cases h
  · cases h

theorem enter_eq_ok {spec : EntrySpec} (hdriver : driver.virtualizable = none)
    (hc : run.context.registry.WellFormed)
    (h : runFrom (Event.perform file driver unit (.enter spec)) run = (.ok (), run')) :
    Replayer.Enters run.context run'.context ∧
      run' = { run with context := run'.context, interpreter := run'.interpreter } := by
  simp only [Event.perform, runFrom_bind_eq_ok] at h
  obtain ⟨answer, run₁, hreplaying, _, run₂, hrecord, h⟩ := h
  obtain ⟨c, interpreter, hentry, rfl⟩ := replaying_eq_ok hreplaying
  cases answer with
  | error e => cases hrecord
  | ok unit =>
    cases hrecord
    cases h
    exact ⟨Replayer.entryBridge_eq_ok hdriver hc hentry, rfl⟩

theorem collect_eq_ok (h : runFrom (Event.perform file driver unit .collect) run = (.ok (), run')) :
    run' = { run with context := run.context.nextGeneration.2 } := by
  rw [Event.perform, runFrom_nextGeneration] at h
  split at h
  · cases h
    rfl
  · cases h

theorem seek_eq_ok {failure : FailureSpec}
    (h : runFrom (Event.perform file driver unit (.seek failure)) run = (.ok (), run')) :
    run' = run := by
  simp only [Event.perform] at h
  split at h
  · cases h
    rfl
  · cases h

theorem callback_eq_ok {index : Nat} {spec : CallbackSpec} (hc : run.context.registry.WellFormed)
    (h : runFrom (Event.perform file driver unit (.callback index spec)) run = (.ok (), run')) :
    (∃ home ops, (∀ op ∈ ops, op.guard? = none) ∧
      Context.Delivers ⟨.callback, home, ops, []⟩ run.context.guards run.context run'.context) ∧
      run' = { run with context := run'.context } := by
  simp only [Event.perform, callback] at h
  split at h
  · cases h
  · rw [runFrom_bind_eq_ok] at h
    obtain ⟨home, run₁, hreplaying, h⟩ := h
    obtain ⟨c, interpreter, hcompile, rfl⟩ := replaying_eq_ok hreplaying
    cases h
    rw [runFrom_zoom] at hcompile
    generalize hrun : runFrom (Context.compileCallback driver (spec.greens.map .int) spec.reds)
      run.context = result at hcompile
    obtain ⟨answer, c'⟩ := result
    cases hcompile
    obtain ⟨inputs, ops, hcode, hdelivers⟩ := Context.compileCallback_eq_ok hc hrun
    exact ⟨⟨home, ops, Context.guard?_callbackCode hcode, hdelivers⟩, rfl⟩

theorem holds_of_event {spec : CodeSpec} (hsends : file.Sends spec driver)
    (hmem : event ∈ file.events) (hrun : run.context.backend.Holds spec)
    (h : runFrom (event.perform file driver unit) run = (.ok (), run')) :
    run'.context.backend.Holds spec := by
  have hadds (hgoes : Sends spec (event.perform file driver unit) run) :
      run'.context.backend.Holds spec := by
    have hadded := hgoes.1
    rw [h] at hadded
    exact hrun.adds hadded
  cases event with
  | enter entry => exact hadds (enter_sends hsends entry)
  | seek failure => exact seek_eq_ok h ▸ hrun
  | fail failure =>
    refine hadds ?_
    simp only [Event.perform]
    split
    · rename_i position hposition
      exact failOnce_sends hsends (TraceFile.fail_mem_events.mp hmem).1 hposition
    · exact .throw id
  | write field => exact hadds (.modify (.of_backend rfl))
  | callback index spec => exact hadds (callback_sends hsends index spec)
  | collect => exact collect_eq_ok h ▸ hrun.nextGeneration

end Outcomes

end Run

section Reaching

variable {report : Report}

/--
The replay of the file has compiled its loop for `unit` and has gone through the events `done`, and
it is at `run` now.
-/
inductive TraceFile.Reaches (file : TraceFile) (config : Config) (addresses : Nat → UInt64)
    (unit : UnitHandle) : List Event → Run → Prop where
  | loop {run : Run} (opts : OptSet) (hopts : config.opts = .ok opts)
      (hloop : runFrom (Run.loop file file.jitDriver) (file.start config opts addresses) =
        (.ok unit, run)) :
      Reaches file config addresses unit [] run
  | event {done : List Event} {event : Event} {run run' : Run}
      (hdone : done ++ [event] <+: file.events) (h : Reaches file config addresses unit done run)
      (hevent : runFrom (event.perform file file.jitDriver unit) run = (.ok (), run')) :
      Reaches file config addresses unit (done ++ [event]) run'

namespace TraceFile

private theorem Reaches.append {rest : List Event} (h : file.Reaches config addresses unit done run)
    (hrest : done ++ rest <+: file.events)
    (hrun : runFrom (forM rest (Event.perform file file.jitDriver unit)) run = (.ok (), run')) :
    file.Reaches config addresses unit (done ++ rest) run' := by
  induction rest generalizing done run with
  | nil =>
    cases hrun
    rwa [List.append_nil]
  | cons event rest ih =>
    rw [← List.singleton_append, ← List.append_assoc] at hrest ⊢
    rw [List.forM_cons, runFrom_bind_eq_ok] at hrun
    obtain ⟨_, run₁, hevent, hrun⟩ := hrun
    exact ih (.event ((List.prefix_append ..).trans hrest) h hevent) hrest hrun

/-- A replay that reports something has gone through all of its events. -/
theorem exists_reaches (h : file.run config addresses = .ok report) :
    ∃ unit run, file.Reaches config addresses unit file.events run ∧ report = run.report := by
  rw [run_eq] at h
  split at h
  · cases h
  · rename_i opts hopts
    split at h
    · rename_i run hrun
      cases h
      rw [Run.file_eq_events, runFrom_bind_eq_ok] at hrun
      obtain ⟨unit, run₁, hloop, hevents⟩ := hrun
      exact ⟨unit, run, (Reaches.loop opts hopts hloop).append List.prefix_rfl hevents, rfl⟩
    · cases h

namespace Reaches

/-- What has been reached has been reached by way of every point before. -/
theorem earlier (h : file.Reaches config addresses unit done run) (hfront : front <+: done) :
    ∃ run', file.Reaches config addresses unit front run' := by
  induction h with
  | loop opts hopts hloop =>
    rw [List.prefix_nil.mp hfront]
    exact ⟨_, .loop opts hopts hloop⟩
  | event hdone h hevent ih =>
    rcases List.prefix_concat_iff.mp hfront with rfl | hfront
    · exact ⟨_, .event hdone h hevent⟩
    · exact ih hfront

theorem unique (h : file.Reaches config addresses unit done run)
    (h' : file.Reaches config addresses unit done run') : run = run' := by
  generalize hthere : done = there at h'
  induction h generalizing there run' with
  | loop opts hopts hloop =>
    cases h' with
    | loop opts' hopts' hloop' =>
      cases hopts.symm.trans hopts'
      exact congrArg (·.2) (hloop.symm.trans hloop')
    | event => simp at hthere
  | event _ _ hevent ih =>
    cases h' with
    | loop => simp at hthere
    | event _ h' hevent' =>
      obtain ⟨rfl, hevents⟩ := List.append_inj' hthere rfl
      cases hevents
      cases ih _ rfl h'
      exact congrArg (·.2) (hevent.symm.trans hevent')

/-- The code that has been submitted until then is as wanted, and so is what is left of it. -/
theorem holds {spec : CodeSpec} (hsends : file.Sends spec file.jitDriver)
    (h : file.Reaches config addresses unit done run) : run.context.backend.Holds spec := by
  induction h with
  | loop opts hopts hloop =>
    have hloops : Run.Sends spec (Run.loop file file.jitDriver)
        (file.start config opts addresses) := Run.loop_sends hsends
    have hadds := hloops.1
    rw [hloop] at hadds
    exact (file.holds_start config opts addresses).adds hadds
  | event hdone _ hevent ih =>
    have hmem := hdone.subset (List.mem_append_right _ (List.mem_singleton_self _))
    exact Run.holds_of_event hsends hmem ih hevent

end Reaches

/-- A loop that counts down to nothing, when its guard fails and a bridge starts it again. -/
def countdown : TraceFile where
  driver := { name := "d" }
  inputs := [⟨"i0", .int 9⟩]
  body := [
    { op := .guardTrue, args := [.name "i0"], failArgs := ["i0"], guard := some "done" },
    { op := .intSub, args := [.name "i0", .const (.int 1)], result := some "i1" }]
  jump := [.name "i1"]
  bridges := [{
    guard := "done"
    inputs := ["i2"]
    ops := [{ op := .guardFalse, args := [.name "i2"], failArgs := ["i2"], guard := some "again" }]
    jump := some [.const (.int 9)] }]
  failures := [{ guard := "done", values := [.int 0], times := 2 }]
  generations := 1

end TraceFile

end Reaching

end HotLoop
