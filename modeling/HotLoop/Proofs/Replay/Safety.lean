import HotLoop.Proofs.Replay.Books
import HotLoop.Proofs.Replay.Calls
import HotLoop.Proofs.Replay.Ownership
import Mathlib.Algebra.Order.BigOperators.Group.List
import Mathlib.Algebra.Order.Ring.Nat

/-!
# Replays without faults

A replay of a file ends with a report or with an error that says what is wrong; it meets no fault.
Files can break this in a few ways only. An operation may copy a value that it is not given. A
name may be read that stands for the result of a check, which is never computed. The loop may go
round, where it is unrolled, with the result of a guard that hands over the old value in its place.
A callback may take an argument without a value. And the numbers of values, of runs of bridges and of
generations may run out.
-/

namespace HotLoop

open Replay

instance (inputs : List Var) (ops : List Operation) (args : List Arg) :
    Decidable (KeepsExits inputs ops args) :=
  inferInstanceAs (Decidable (∀ _ ∈ ops, _))

def Config.unrolls (config : Config) : Bool := config.opts.toOption.any (·.contains .unroll)

namespace TraceFile

/-- All inputs, operations and passed on arguments, and the red arguments of callbacks. -/
def size (file : TraceFile) : Nat :=
  let line (inputs : Nat) (ops : List OpSpec) (closing : List ArgSpec) :=
    inputs + ops.length + closing.length
  line file.inputs.length file.body file.jump +
    (file.entryBridges.map fun e => line e.inputs.length e.ops e.jump).sum +
    (file.bridges.map fun b => line b.inputs.length b.ops (b.closing?.getD [])).sum +
    (file.callbacks.map (·.reds.length)).sum

/-- The loop keeps what its guards hand over, if it can be recorded. -/
def KeepsExits (file : TraceFile) : Prop :=
  match runFrom (Run.recordLoop file file.jitDriver) { guards := {} } with
  | (.ok args, r) => HotLoop.KeepsExits r.history.inputVars r.history.operations args
  | (.error _, _) => True

variable {file : TraceFile} {config : Config} {addresses : Nat → UInt64}

theorem keepsExits_iff {args : List Arg} {r : Recorder}
    (h : runFrom (Run.recordLoop file file.jitDriver) { guards := {} } = (.ok args, r)) :
    file.KeepsExits ↔ HotLoop.KeepsExits r.history.inputVars r.history.operations args := by
  rw [KeepsExits, h]

instance : Decidable file.KeepsExits :=
  match h : runFrom (Run.recordLoop file file.jitDriver) { guards := {} } with
  | (.ok _, _) => decidable_of_iff _ (keepsExits_iff h).symm
  | (.error _, _) => .isTrue (by rw [KeepsExits, h]; trivial)

/--
The file does not break its replay: a copy has something to copy, the results of checks are not
read, a loop that is unrolled keeps what its guards hand over, callbacks take values, and no numbers
run out.
-/
structure Sturdy (file : TraceFile) (config : Config) : Prop where
  copies : ∀ line ∈ file.lines, ∀ spec ∈ line.1, spec.op = .sameAs → spec.result ≠ none →
    spec.args ≠ []
  spares : ∀ line ∈ file.lines, SparesChecks line.2 [] line.1
  exits : config.unrolls = true → file.KeepsExits
  reds : ∀ callback ∈ file.callbacks, callback.reds.length = file.driver.redArgs →
    .void ∉ callback.reds
  size : file.size < 2 ^ 31
  failures : (file.failures.map (·.times)).sum < 2 ^ 64
  generations : file.generations + 2 < 2 ^ 64

theorem sturdy_iff : file.Sturdy config ↔
    (∀ line ∈ file.lines, ∀ spec ∈ line.1, spec.op = .sameAs → spec.result ≠ none →
      spec.args ≠ []) ∧
    (∀ line ∈ file.lines, SparesChecks line.2 [] line.1) ∧
    (config.unrolls = true → file.KeepsExits) ∧
    (∀ callback ∈ file.callbacks, callback.reds.length = file.driver.redArgs →
      .void ∉ callback.reds) ∧
    file.size < 2 ^ 31 ∧ (file.failures.map (·.times)).sum < 2 ^ 64 ∧
    file.generations + 2 < 2 ^ 64 :=
  ⟨fun ⟨h₁, h₂, h₃, h₄, h₅, h₆, h₇⟩ => ⟨h₁, h₂, h₃, h₄, h₅, h₆, h₇⟩,
    fun ⟨h₁, h₂, h₃, h₄, h₅, h₆, h₇⟩ => ⟨h₁, h₂, h₃, h₄, h₅, h₆, h₇⟩⟩

instance : Decidable (file.Sturdy config) := decidable_of_iff' _ sturdy_iff

namespace Sturdy

theorem safeLine (h : file.Sturdy config) (hvalues : file.HasValues)
    {line : List OpSpec × List ArgSpec} (hline : line ∈ file.lines) : SafeLine line.1 line.2 where
  solid spec hspec :=
    ⟨(hvalues.lines line hline).1 spec hspec, h.copies line hline spec hspec⟩
  spares := h.spares line hline
  values := (hvalues.lines line hline).2

theorem loop_room (h : file.Sturdy config) :
    file.inputs.length + file.jump.length + 2 * file.body.length ≤ ValueIds.limit := by
  have hsize := h.size
  unfold TraceFile.size at hsize
  dsimp only at hsize
  rw [ValueIds.limit]
  omega

theorem entry_room (h : file.Sturdy config) {entry : EntrySpec}
    (hentry : entry ∈ file.entryBridges) :
    entry.inputs.length + entry.ops.length ≤ ValueIds.limit := by
  have hsize := h.size
  have hle := List.le_sum_of_mem (List.mem_map_of_mem
    (f := fun e : EntrySpec => e.inputs.length + e.ops.length + e.jump.length) hentry)
  unfold TraceFile.size at hsize
  dsimp only at hsize hle
  rw [ValueIds.limit]
  omega

theorem bridge_room (h : file.Sturdy config) {bridge : BridgeSpec} (hbridge : bridge ∈ file.bridges) :
    bridge.inputs.length + bridge.ops.length + (bridge.closing?.getD []).length +
      2 * file.body.length ≤ ValueIds.limit := by
  have hsize := h.size
  have hle := List.le_sum_of_mem (List.mem_map_of_mem (f := fun b : BridgeSpec =>
    b.inputs.length + b.ops.length + (b.closing?.getD []).length) hbridge)
  unfold TraceFile.size at hsize
  dsimp only at hsize hle
  rw [ValueIds.limit]
  omega

theorem callback_room (h : file.Sturdy config) {callback : CallbackSpec}
    (hcallback : callback ∈ file.callbacks) : callback.reds.length < ValueIds.limit := by
  have hsize := h.size
  have hle := List.le_sum_of_mem (List.mem_map_of_mem
    (f := fun c : CallbackSpec => c.reds.length) hcallback)
  unfold TraceFile.size at hsize
  dsimp only at hsize hle
  rw [ValueIds.limit]
  omega

end Sturdy

end TraceFile

variable {file : TraceFile} {config : Config} {addresses : Nat → UInt64} {α β : Type}

namespace Replayer

variable {s : Context × Replayer}

theorem inSession_avoids {session : Session} {x : CompileM α}
    (h : Avoids Stop.IsFault x ⟨s.1, session⟩) : Avoids Stop.IsFault (inSession session x) s :=
  ⟨trivial, h.2⟩

theorem blackhole_avoids {g : Guard} {frame : DeadFrame} {cache : Option VirtualCache} :
    Avoids Stop.IsFault (blackhole g frame cache) s := by
  refine ⟨trivial, fun e he => ?_⟩
  cases cache <;> cases he

private theorem finally_avoids {x : ReplayM α} {change : Context × Replayer → Context × Replayer}
    (hx : Avoids Stop.IsFault x s) : Avoids Stop.IsFault (x.finally change) s :=
  ⟨trivial, hx.2⟩

theorem trace_avoids (h : file.Sturdy config) (hvalues : file.HasValues) {g : Guard}
    {frame : DeadFrame} (hframe : ∀ x ∈ frame.values, x.kind ≠ .void) :
    Avoids Stop.IsFault (trace file file.jitDriver g frame) s := by
  unfold trace
  refine .get_bind ?_
  obtain ⟨c, r⟩ := s
  dsimp only
  cases hgiven : bridgeAt? file (c.guards.get g).data.position with
  | none => exact blackhole_avoids
  | some bridge =>
    have hbridge : bridge ∈ file.bridges := List.mem_of_find?_eq_some hgiven
    have hroom := h.bridge_room hbridge
    refine .bind_run (recording_avoids (Recorder.recordBridge_avoids (by dsimp only; omega)))
      fun answer t hrun => ?_
    rcases answer with ⟨e | _ | history, r'⟩
    · exact blackhole_avoids
    · exact blackhole_avoids
    · refine .bind_of_eq (runFrom_modify _) trivial ?_
      refine .bind (inSession_avoids ?_) fun _ _ _ => .pure _
      refine compileBridge_avoids rfl hframe (h.safeLine hvalues TraceFile.loop_mem_lines)
        (fun specs hspecs => h.safeLine hvalues (TraceFile.bridge_mem_lines hbridge hspecs))
        (fun specs hspecs => ?_) _ _ _ (recording_eq_ok hrun).1
      rwa [hspecs] at hroom

theorem handleFail_avoids (h : file.Sturdy config) (hvalues : file.HasValues) {g : Guard}
    (howned : ∀ owner, g.kind = .forced owner → owner = file.jitDriver.id) {frame : DeadFrame}
    (hdescr : frame.descr = .guard g) (hframe : ∀ x ∈ frame.values, x.kind ≠ .void) :
    Avoids Stop.IsFault ((hooks file).handleFail file.jitDriver frame) s := by
  have hblackhole (frame : DeadFrame) (cache : Option VirtualCache) (t : Context × Replayer) :
      Avoids Stop.IsFault ((hooks file).blackhole file.jitDriver g frame cache) t :=
    blackhole_avoids
  rw [Hooks.handleFail, hdescr]
  dsimp only
  unfold Hooks.handleGuard
  split
  · rename_i owner howner
    rw [if_neg (not_not_intro (howned owner howner))]
    exact .bind_of_eq (runFrom_modify _) trivial (hblackhole _ _ _)
  · refine .get_bind ?_
    split
    · exact hblackhole _ _ _
    · refine .bind_of_eq (runFrom_modify _) trivial (.get_bind ?_)
      generalize Context.mustCompile _ file.jitDriver g frame = must
      obtain ⟨fired, context⟩ := must
      refine .bind_of_eq (runFrom_modify _) trivial ?_
      split
      · refine .bind_of_eq (runFrom_modify _) trivial ?_
        refine .bind_of_eq (runFrom_modify _) trivial ?_
        exact finally_avoids (trace_avoids h hvalues hframe)
      · exact .bind_of_eq (runFrom_modify _) trivial (hblackhole _ _ _)

theorem entryBridge_avoids (h : file.Sturdy config) (hvalues : file.HasValues)
    {entry : EntrySpec} (hentry : entry ∈ file.entryBridges) :
    Avoids Stop.IsFault (entryBridge file file.jitDriver entry) s := by
  have hroom := h.entry_room hentry
  unfold entryBridge
  refine .get_bind ?_
  obtain ⟨c, r⟩ := s
  dsimp only
  cases c.procedure? file.jitDriver (key file) with
  | none => exact .pure _
  | some unit =>
    refine .bind_run (recording_avoids (Recorder.recordEntry_avoids (by dsimp only; omega)))
      fun answer t hrun => ?_
    rcases answer with ⟨e | history, r'⟩
    · exact .pure _
    · refine .bind (inSession_avoids ?_) fun _ _ _ => .get_bind (.pure _)
      exact compileEntry_avoids rfl (hvalues.entries entry hentry)
        (h.safeLine hvalues (TraceFile.entry_mem_lines hentry)) _ (recording_eq_ok hrun).1

end Replayer

def RunStop.IsFault (e : RunStop) : Prop := ∃ f, e = .fault f

theorem RunStop.not_isFault_error (e : RunError) : ¬ RunStop.IsFault (.error e) := by
  simp [IsFault]

namespace Run

variable {run : Run}

/-- The code that is there has guards of the file's driver, or of none. -/
abbrev Owned (file : TraceFile) (run : Run) : Prop :=
  run.context.backend.Holds (ownCode file.jitDriver.id)

theorem replaying_avoids {x : ReplayM α} {next : α → RunM β}
    (hx : Avoids Stop.IsFault x (run.context, run.interpreter))
    (hnext : ∀ a s, runFrom x (run.context, run.interpreter) = (.ok a, s) →
      Avoids RunStop.IsFault (next a) { run with context := s.1, interpreter := s.2 }) :
    Avoids RunStop.IsFault (replaying x >>= next) run := by
  have hstop := hx.2
  unfold replaying
  rw [bind_assoc]
  refine .get_bind ?_
  cases hrun : runFrom x (run.context, run.interpreter) with
  | mk result s =>
    have hrun' : x (run.context, run.interpreter) = (result, s) := hrun
    rw [hrun] at hstop
    rw [hrun', bind_assoc]
    refine .bind_of_eq (runFrom_set _) trivial ?_
    rcases result with (e | f) | a
    · exact .throw_bind (RunStop.not_isFault_error _)
    · exact absurd ⟨f, rfl⟩ (hstop _ rfl)
    · exact hnext a s hrun

theorem loop_avoids (h : file.Sturdy config) (hvalues : file.HasValues) {opts : OptSet}
    (hopts : config.opts = .ok opts) :
    Avoids RunStop.IsFault (loop file file.jitDriver) (file.start config opts addresses) := by
  have hroom := h.loop_room
  unfold loop
  refine replaying_avoids (Replayer.recording_avoids (Recorder.recordLoop_avoids ?_))
    fun answer s hrun => ?_
  · dsimp only
    omega
  obtain ⟨result, r⟩ := answer
  dsimp only
  cases result with
  | error e => exact .throw_bind (RunStop.not_isFault_error _)
  | ok args =>
    obtain ⟨hrecord, rfl⟩ := Replayer.recording_eq_ok hrun
    refine .bind_of_eq rfl trivial ?_
    refine replaying_avoids (Replayer.inSession_avoids ?_) fun entry t _ => ?_
    · refine compileLoop_avoids rfl hvalues.inputs (h.safeLine hvalues TraceFile.loop_mem_lines)
        hroom _ (fun henabled => (TraceFile.keepsExits_iff hrecord).mp (h.exits ?_)) hrecord
      have hwarm : ((file.start config opts addresses).context.warmState file.jitDriver).opts =
          opts := by
        simp [TraceFile.start, Context.warmState, Context.setWarm]
      rw [Config.unrolls, hopts]
      exact hwarm ▸ henabled
    · cases entry with
      | none => exact .throw (RunStop.not_isFault_error _)
      | some entry => exact .pure _

private theorem owned_of_findGuard? {unit : UnitHandle} {position : Nat} {g : Guard}
    (howned : Owned file run) (h : findGuard? run.context unit position = some g) :
    ∀ owner, g.kind = .forced owner → owner = file.jitDriver.id := by
  have hcode : ∃ ops, (∀ op ∈ ops, op.OwnedBy file.jitDriver.id) ∧ g ∈ guardsIn ops := by
    rcases Option.or_eq_some_iff.mp h with hfound | ⟨-, hfound⟩
    · have hmem := List.mem_reverse.mp (List.mem_of_find?_eq_some hfound)
      unfold Backend.guardsOf at hmem
      cases hloop : run.context.backend.loopFor? unit with
      | none =>
        rw [hloop] at hmem
        cases hmem
      | some l =>
        rw [hloop] at hmem
        have hl := List.mem_reverse.mp (List.mem_of_find?_eq_some hloop)
        exact ⟨l.operations, howned.loops l hl, hmem⟩
    · obtain ⟨b, hb, hg⟩ := List.mem_flatMap.mp (List.mem_of_find?_eq_some hfound)
      exact ⟨b.operations, howned.bridges b (List.mem_reverse.mp hb), hg⟩
  obtain ⟨ops, hops, hg⟩ := hcode
  obtain ⟨op, hop, -, hguard⟩ := mem_guardsIn.mp hg
  exact fun owner howner => hops op hop g owner hguard howner

theorem failOnce_avoids (h : file.Sturdy config) (hvalues : file.HasValues) {unit : UnitHandle}
    {failure : FailureSpec} (hfailure : failure ∈ file.failures) {position : Nat}
    (howned : Owned file run) (hruns : run.bridgeRuns + 1 < UInt64.size) :
    Avoids RunStop.IsFault (failOnce file file.jitDriver unit failure position) run := by
  unfold failOnce
  refine .get_bind ?_
  cases hg : findGuard? run.context unit position with
  | none => exact .throw (RunStop.not_isFault_error _)
  | some g =>
    dsimp only
    rw [if_pos hruns]
    split
    · exact .set trivial
    · refine replaying_avoids ?_ fun _ _ _ => .modify trivial
      exact Replayer.handleFail_avoids h hvalues (owned_of_findGuard? howned hg) rfl
        (hvalues.failures failure hfailure)

theorem enter_avoids (h : file.Sturdy config) (hvalues : file.HasValues) {entry : EntrySpec}
    (hentry : entry ∈ file.entryBridges) : Avoids RunStop.IsFault (do
      let _ ← ofRecord (← replaying (Replayer.entryBridge file file.jitDriver entry))) run := by
  refine replaying_avoids (Replayer.entryBridge_avoids h hvalues hentry) fun answer _ _ => ?_
  cases answer with
  | error e => exact .throw_bind (RunStop.not_isFault_error _)
  | ok unit => exact .bind_of_eq rfl trivial (.pure _)

theorem callback_avoids (h : file.Sturdy config) {callback : CallbackSpec}
    (hcallback : callback ∈ file.callbacks) (index : Nat) :
    Avoids RunStop.IsFault (Run.callback file.jitDriver index callback) run := by
  unfold Run.callback
  split
  · exact .throw_bind (RunStop.not_isFault_error _)
  · rename_i hlength
    have hlength := not_ne_iff.mp hlength
    have hcompile : Avoids Stop.IsFault (Context.compileCallback file.jitDriver
        (callback.greens.map .int) callback.reds) run.context :=
      Context.compileCallback_avoids hlength (h.reds callback hcallback hlength)
        (h.callback_room hcallback)
    exact replaying_avoids ⟨trivial, hcompile.2⟩ fun _ _ _ => .pure _

theorem nextGeneration_avoids (h : run.context.collector.hasNext = true) :
    Avoids RunStop.IsFault nextGeneration run :=
  .of_ok (by rw [runFrom_nextGeneration, if_pos h])

end Run

namespace TraceFile

variable {unit : UnitHandle} {run : Run} {done rest : List Event} {event : Event}

namespace Reaches

private theorem countsRun (h : file.Sturdy config)
    (hreached : file.Reaches config addresses unit done run) (hfail : event.isFail = true)
    (hnext : done ++ [event] <+: file.events) : run.bridgeRuns + 1 < UInt64.size := by
  obtain ⟨first, hfirst⟩ := hreached.earlier (List.nil_prefix ..)
  have hbooks := (hfirst.balanced hreached).failures
  have hle := hnext.sublist.countP_le (p := (·.isFail))
  have htimes := h.failures
  rw [List.countP_append, List.countP_singleton, if_pos hfail, countP_isFail_events] at hle
  rw [UInt64.size]
  omega

/-- There is a number for a generation that is still to come, and for the one behind it. -/
private theorem hasNext (h : file.Sturdy config)
    (hreached : file.Reaches config addresses unit done run)
    (hnext : done ++ [.collect] <+: file.events) : run.context.collector.hasNext = true := by
  have hle := hnext.sublist.countP_le (p := (·.isCollect))
  have hlast := h.generations
  rw [List.countP_append, List.countP_singleton, countP_isCollect_events] at hle
  have hone : Event.isCollect .collect = true := rfl
  rw [if_pos hone] at hle
  rw [Collector.hasNext, hreached.generation, decide_eq_true_eq, UInt64.size]
  omega

theorem avoids_event (h : file.Sturdy config) (hvalues : file.HasValues)
    (hreached : file.Reaches config addresses unit done run)
    (hnext : done ++ [event] <+: file.events) :
    Avoids RunStop.IsFault (event.perform file file.jitDriver unit) run := by
  have hmem : event ∈ file.events :=
    hnext.subset (List.mem_append_right _ (List.mem_singleton_self _))
  cases event with
  | enter entry => exact Run.enter_avoids h hvalues (enter_mem_events.mp hmem)
  | seek failure =>
    simp only [Event.perform]
    split
    · exact .pure _
    · exact .throw (RunStop.not_isFault_error _)
  | fail failure =>
    have howned : Run.Owned file run := hreached.holds file.sends_own
    simp only [Event.perform]
    split
    · exact Run.failOnce_avoids h hvalues (fail_mem_events.mp hmem).1 howned
        (hreached.countsRun h rfl hnext)
    · exact .throw (RunStop.not_isFault_error _)
  | write field => exact .modify trivial
  | callback index callback =>
    exact Run.callback_avoids h
      (List.fst_mem_of_mem_zipIdx (callback_mem_events.mp hmem)) index
  | collect => exact Run.nextGeneration_avoids (hreached.hasNext h hnext)

private theorem avoids_rest (h : file.Sturdy config) (hvalues : file.HasValues)
    (hreached : file.Reaches config addresses unit done run)
    (hrest : done ++ rest <+: file.events) :
    Avoids RunStop.IsFault (forM rest (Event.perform file file.jitDriver unit)) run := by
  induction rest generalizing done run with
  | nil => exact .pure _
  | cons event rest ih =>
    rw [← List.singleton_append, ← List.append_assoc] at hrest
    have hnext : done ++ [event] <+: file.events := (List.prefix_append ..).trans hrest
    rw [List.forM_cons]
    exact .bind_run (hreached.avoids_event h hvalues hnext) fun _ _ hevent =>
      ih (.event hnext hreached hevent) hrest

end Reaches

private theorem run_cases (h : ∀ f, file.run config addresses ≠ .error (.fault f)) :
    (∃ report, file.run config addresses = .ok report) ∨
      ∃ e, file.run config addresses = .error (.error e) := by
  cases hrun : file.run config addresses with
  | ok report => exact .inl ⟨report, rfl⟩
  | error stop =>
    cases stop with
    | error e => exact .inr ⟨e, rfl⟩
    | fault f => exact absurd hrun (h f)

/--
Whatever the configuration, and wherever the descriptors of guards are in memory: if the file calls
nothing a value that is none, and if it is sturdy, its replay ends with a report, or with an error
that says what is wrong.
-/
theorem run_ends (hvalues : file.HasValues) (h : file.Sturdy config) (addresses : Nat → UInt64) :
    (∃ report, file.run config addresses = .ok report) ∨
      ∃ e, file.run config addresses = .error (.error e) := by
  refine run_cases fun f hrun => ?_
  rw [run_eq] at hrun
  cases hopts : config.opts with
  | error name =>
    rw [hopts] at hrun
    cases hrun
  | ok opts =>
    have havoids : Avoids RunStop.IsFault (Run.file file file.jitDriver)
        (file.start config opts addresses) := by
      rw [Run.file_eq_events]
      exact .bind_run (Run.loop_avoids h hvalues hopts) fun unit _ hloop =>
        Reaches.avoids_rest h hvalues (.loop opts hopts hloop) List.prefix_rfl
    have hstop := havoids.2
    rw [hopts] at hrun
    dsimp only at hrun
    generalize runFrom (Run.file file file.jitDriver) (file.start config opts addresses) = answer
      at hrun hstop
    obtain ⟨result, run⟩ := answer
    cases result with
    | ok _ => cases hrun
    | error e =>
      cases hrun
      exact hstop _ rfl ⟨f, rfl⟩

/-- A loop with a guard, and a bridge that goes back to the loop with a reference. -/
def detourLoop : TraceFile where
  driver := { name := "d" }
  inputs := [⟨"i0", .int 5⟩]
  body := [
    { op := .guardTrue, args := [.name "i0"], failArgs := ["i0"], guard := some "out" },
    { op := .sameAs, result := some "i1", args := [.name "i0"] }]
  jump := [.name "i1"]
  bridges := [{ guard := "out", inputs := ["p5"], jump := some [.name "p5"] }]
  failures := [{ guard := "out", values := [.ref 8] }]

theorem run_ends_detourLoop :
    let config : Config := { traceEagerness := 1, counterBits := 1 }
    detourLoop.HasValues ∧ detourLoop.Sturdy config ∧
      ((∃ report, detourLoop.run config = .ok report) ∨
        ∃ e, detourLoop.run config = .error (.error e)) := by
  intro config
  have hvalues : detourLoop.HasValues := by decide +kernel
  have hsturdy : detourLoop.Sturdy config := by decide +kernel
  exact ⟨hvalues, hsturdy, run_ends hvalues hsturdy Guard.inOrder⟩

/-- A loop with a copy of nothing, of which nothing is read. -/
def emptyCopy : TraceFile where
  driver := { name := "d" }
  inputs := [⟨"i0", .int 0⟩]
  body := [{ op := .sameAs, result := some "i1" }]
  jump := [.name "i0"]

def faultOf : Except RunStop Report → Option Fault
  | .error (.fault f) => some f
  | _ => none

private theorem eq_of_faultOf {answer : Except RunStop Report} {f : Fault}
    (h : faultOf answer = some f) : answer = .error (.fault f) := by
  unfold faultOf at h
  split at h
  · cases h
    rfl
  · cases h

/-- Its replay breaks off where the copy is optimized. -/
theorem run_breaks_emptyCopy :
    emptyCopy.HasValues ∧ emptyCopy.body.length < 2 ^ 31 ∧
      emptyCopy.run {} = .error (.fault (.missingArgument .sameAs)) :=
  ⟨by decide +kernel, by decide, eq_of_faultOf (by decide +kernel)⟩

end TraceFile

end HotLoop
