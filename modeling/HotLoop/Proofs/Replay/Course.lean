import HotLoop.Proofs.Compile.Issued
import HotLoop.Proofs.Failing.Handling
import HotLoop.Proofs.Replay.Positions
import HotLoop.Proofs.Replay.Sending

/-!
# The course of a replay

What each part of a replay that succeeds has done to its context: it has delivered one piece of
code, of which is known how it has been recorded and walked, or it has delivered nothing.
-/

namespace HotLoop

open Replay

section Tracing

variable {t t' : GuardTable} {g : Guard}

namespace GuardTable

private theorem get_eq_of_id {g g' : Guard} (h : g'.id = g.id) : t.get g = t.get g' := by
  rw [get, get, h]

private theorem record_startTracing (t : GuardTable) (g g' : Guard) : ∃ busy attempts,
    (t.startTracing g).get g' = { t.get g' with busy, attempts } ∧
      (g'.id ≠ g.id → busy = (t.get g').busy) := by
  rw [startTracing, get_modify]
  split
  · rename_i h
    exact ⟨_, _, by rw [get_eq_of_id h.1], fun hne => absurd h.1 hne⟩
  · exact ⟨_, _, rfl, fun _ => rfl⟩

private theorem record_doneTracing (t : GuardTable) (g g' : Guard) :
    (t.doneTracing g).get g' = { t.get g' with busy := (t.get g').busy && g'.id != g.id } := by
  rw [doneTracing, get_modify]
  split
  · rename_i h
    rw [get_eq_of_id h.1, h.1]
    simp
  · rename_i h
    by_cases hid : g'.id = g.id
    · have hle : t.records.length ≤ g'.id := by
        have := fun hlt => h ⟨hid, hlt⟩
        omega
      rw [get_of_length_le hle]
      rfl
    · rw [bne_iff_ne.mpr hid, Bool.and_true]

theorem loop_startTracing (t : GuardTable) (g g' : Guard) :
    ((t.startTracing g).get g').loop = (t.get g').loop := by
  obtain ⟨busy, attempts, hget, -⟩ := record_startTracing t g g'
  rw [hget]

/-- Once tracing is over, the guard is busy no more, and nothing else has come of it. -/
theorem Grows.tracing (h : (t.startTracing g).Grows t') : t.Grows (t'.doneTracing g) := by
  have hlength : (t.startTracing g).records.length = t.records.length := length_modify ..
  have hlength' : (t'.doneTracing g).records.length = t'.records.length := length_modify ..
  refine ⟨by rw [hlength', ← hlength]; exact h.length_le, fun g' => ?_, fun g' => ?_,
    fun g' hbusy => ?_, fun g' hlt => ?_, fun g' hlt => ?_⟩
  · obtain ⟨busy, attempts, hget, -⟩ := record_startTracing t g g'
    rw [record_doneTracing, h.bridges, hget]
  · obtain ⟨busy, attempts, hget, -⟩ := record_startTracing t g g'
    rw [record_doneTracing, h.loop, hget]
  · rw [record_doneTracing] at hbusy
    obtain ⟨hbusy, hne⟩ := Bool.and_eq_true_iff.mp hbusy
    have hstart := h.busy g' hbusy
    obtain ⟨busy, attempts, hget, hsame⟩ := record_startTracing t g g'
    rw [hget] at hstart
    rw [← hsame (by simpa using hne)]
    exact hstart
  · obtain ⟨busy, attempts, hget, -⟩ := record_startTracing t g g'
    rw [record_doneTracing, h.position g' (hlength.symm ▸ hlt), hget]
  · obtain ⟨busy, attempts, hget, -⟩ := record_startTracing t g g'
    rw [record_doneTracing, h.objects g' (hlength.symm ▸ hlt), hget]

end GuardTable

theorem Piece.Links.doneTracing {piece : Piece} (h : piece.Links t t') (g : Guard) :
    piece.Links (t.doneTracing g) (t'.doneTracing g) := by
  have hlength (t : GuardTable) : (t.doneTracing g).records.length = t.records.length :=
    GuardTable.length_modify ..
  refine ⟨by rw [hlength, hlength, h.length], fun g' hlt hnames => ?_, fun g' hno => ?_,
    fun g' hlt => ?_, fun g' => ?_, fun g' => ?_⟩
  · rw [GuardTable.record_doneTracing]
    exact h.loop g' (hlength t ▸ hlt) hnames
  · rw [GuardTable.record_doneTracing, GuardTable.record_doneTracing]
    exact h.others g' hno
  · rw [GuardTable.record_doneTracing, GuardTable.record_doneTracing]
    exact h.bridges g' (hlength t ▸ hlt)
  · rw [GuardTable.record_doneTracing, GuardTable.record_doneTracing, h.busy]
  · rw [GuardTable.record_doneTracing, GuardTable.record_doneTracing]
    exact h.position g'

end Tracing

variable {file : TraceFile} {driver : Driver}

namespace Context

def countFailed (c : Context) : Context :=
  c.modifyStats fun s => { s with guardFailures := s.guardFailures + 1 }

def countTrace (c : Context) : Context :=
  c.modifyStats fun s => { s with bridgeTraces := s.bridgeTraces + 1 }

variable {c d d' : Context} {g : Guard} {piece : Piece} {t : GuardTable}

private theorem idles_startTracing (h : Idles c d) :
    Idles { c.countTrace with guards := d.guards.startTracing g } (d.startTracing g) :=
  ⟨h.units, h.code, h.quasiImmut, .refl _,
    congrArg (fun l : Ledger => { l with traces := l.traces + 1 }) h.ledger, h.generation⟩

private theorem Idles.traced (h : Idles c d) (hguards : d.guards = c.guards)
    (h' : Idles (d.startTracing g) d') : Idles c.countTrace (d'.doneTracing g) where
  units := ((idles_startTracing h).trans h').units
  code := ((idles_startTracing h).trans h').code
  quasiImmut := ((idles_startTracing h).trans h').quasiImmut
  guards := by
    have hgrows : (c.guards.startTracing g).Grows d'.guards := hguards ▸ h'.guards
    exact hgrows.tracing
  ledger := ((idles_startTracing h).trans h').ledger
  generation := ((idles_startTracing h).trans h').generation

private theorem Idles.traced_delivers (h : Idles c d) (hguards : d.guards = c.guards)
    (h' : Delivers piece t (d.startTracing g) d') :
    Delivers piece (t.doneTracing g) c.countTrace (d'.doneTracing g) := by
  have hdelivers := (idles_startTracing h).delivers h'
  refine ⟨hdelivers.wellFormed, hdelivers.home, hdelivers.alive, hdelivers.code, hdelivers.freed,
    hdelivers.quasiImmut, ?_, hdelivers.links.doneTracing g, hdelivers.ledger,
    hdelivers.generation⟩
  have hgrows : (c.guards.startTracing g).Grows t := hguards ▸ h'.grows
  exact hgrows.tracing

end Context

/-- A computation on a part of a state goes on with the rest as it was. -/
theorem runFrom_zoom {σ τ α : Type} (view : σ → τ) (put : τ → σ → σ) (x : JitM τ α) (s : σ) :
    runFrom (JitM.zoom view put x) s =
      ((runFrom x (view s)).1, put (runFrom x (view s)).2 s) := rfl

namespace Replayer

section Recording

variable {σ α : Type} {view : σ → Context} {put : Context → σ → σ} {start : Recorder}
  {x : RecordM α} {s s' : σ} {result : Except RecordError α} {r : Recorder}

theorem recording_grows (hx : ∀ r, Recorder.Growing x r)
    (h : runFrom (recording view put start x) s = (.ok (result, r), s')) :
    ∃ guards, (view s).guards.Grows guards ∧ s' = put { view s with guards } s := by
  obtain ⟨answer, r', hrun, hstate, -⟩ := runFrom_recording view put start x s
  rw [h] at hstate
  exact ⟨r'.guards, (hx _).grows hrun, hstate⟩

end Recording

theorem idles_guards (c : Context) {guards : GuardTable} (h : c.guards.Grows guards) :
    Context.Idles c { c with guards } :=
  ⟨.refl _, .refl _, rfl, h, rfl, rfl⟩

section Bridges

variable {w w' : Workbench} {resumeKey : ResumeKey} {t : GuardTable} {code : List Operation}

/--
The code of a bridge has been made in the session of `w`: by one walk, or by a second one as well,
over the loop of the file as it has been recorded behind the bridge. The table of guards is `t`
then.
-/
inductive BridgeCode (file : TraceFile) (resumeKey : ResumeKey) (w : Workbench) (t : GuardTable) :
    List Operation → Prop where
  | direct (result : Optimized) (p : Pass)
      (hwalk : runFrom (w.tracePass resumeKey (w.settings w.enabled)) (.ofShared w.shared) =
        (.ok result, p))
      (ht : p.shared.guards = t) :
      BridgeCode file resumeKey w t result.operations
  | retraced (first : Optimized) (p₁ : Pass) (w₁ w₂ : Workbench) (inputs : List Var)
      (args : List Arg) (r : Recorder) (unit : UnitHandle) (state : ExportedState)
      (result : Optimized) (p : Pass) (header : LoopHeader)
      (hwalk : runFrom (w.tracePass resumeKey (w.settings w.enabled)) (.ofShared w.shared) =
        (.ok first, p₁))
      (hw₁ : w₁ = (runFrom (Workbench.compileTrace resumeKey) w).2)
      (hguards : w₁.context.guards = p₁.shared.guards)
      (hwaiting : ∃ trace, w₁.session.waiting = some (trace, state))
      (hrecord : runFrom (recordAgain file w₁.session.driver inputs)
        { history := w₁.session.history, guards := w₁.context.guards } = (.ok args, r))
      (hw₂ : w₂ = ⟨{ w₁.context with guards := r.guards },
        { w₁.session with history := r.history }⟩)
      (hagain : runFrom (Pass.peeled (w₂.settings w₂.enabled) inputs (.jump args (.cell unit))
        (r.history.operations.drop w₁.session.history.operations.length) state)
        (.ofShared w₂.shared) = (.ok result, p))
      (hheader : result.header = some header) (ht : p.shared.guards = t) :
      BridgeCode file resumeKey w t
        (first.operations ++ header.copies ++ [header.label] ++ result.operations)

/-- What compiling the history of a session as a bridge comes to. -/
inductive Bridging (file : TraceFile) (resumeKey : ResumeKey) (w w' : Workbench) : Prop where
  | idle (hidles : Context.Idles w.context w'.context)
  | delivered (t : GuardTable) (piece : Piece) (hcode : BridgeCode file resumeKey w t piece.ops)
      (hfor : piece.IsFor resumeKey w.session.home)
      (hdelivers : Context.Delivers piece t w.context w'.context)

private theorem retrace_eq_ok {w₁ : Workbench} {first : Optimized} {p₁ : Pass}
    {state : ExportedState} {trace : Trace}
    (hdriver : w.session.driver.virtualizable = none) (hw : w.context.registry.WellFormed)
    (hwalk : runFrom (w.tracePass resumeKey (w.settings w.enabled)) (.ofShared w.shared) =
      (.ok first, p₁))
    (hw₁ : w₁ = (runFrom (Workbench.compileTrace resumeKey) w).2)
    (hguards : w₁.context.guards = p₁.shared.guards) (hidles : Context.Idles w.context w₁.context)
    (htrace : trace.operations = first.operations ∧ trace.forwarding.isEmpty = true)
    (hsession : w₁.session.driver = w.session.driver ∧ w₁.session.home = w.session.home)
    (hwaiting : w₁.session.waiting = some (trace, state))
    (h : runFrom (retrace file resumeKey) w₁ = (.ok (), w')) : Bridging file resumeKey w w' := by
  rw [retrace, runFrom_bind, runFrom_get] at h
  dsimp only at h
  split at h
  · rename_i closing hclosing
    split at h
    · simp only [runFrom_bind, Workbench.runFrom_takeWaiting, runFrom_pure] at h
      cases h
      exact .idle hidles
    · rename_i inputs hinputs
      rw [runFrom_bind_eq_ok] at h
      obtain ⟨⟨result, r⟩, w₂, hrecord, h⟩ := h
      obtain ⟨guards, hgrows, hw₂⟩ := recording_grows (Recorder.recordAgain_growing file _ inputs) hrecord
      have hidles₂ : Context.Idles w.context { w₁.context with guards } :=
        hidles.trans (idles_guards _ hgrows)
      rw [runFrom_bind, Workbench.runFrom_modifySession] at h
      dsimp only at h
      cases result with
      | error e =>
        simp only [runFrom_bind, Workbench.runFrom_takeWaiting, runFrom_pure] at h
        cases h
        rw [hw₂]
        exact .idle hidles₂
      | ok args =>
        obtain ⟨hagain, hput⟩ := recording_eq_ok hrecord
        have hsame : guards = r.guards := by
          have heq := hw₂.symm.trans hput
          exact congrArg (fun w : Workbench => w.context.guards) heq
        rw [hput] at h
        dsimp only at h
        rw [runFrom_bind_eq_ok] at h
        obtain ⟨entry, w₃, hretrace, h⟩ := h
        cases h
        have hwell : ({ w₁.context with guards := r.guards } : Context).registry.WellFormed :=
          hidles.units.wellFormed hw
        cases Workbench.compileRetrace_eq_ok (by exact hwell) hretrace with
        | idle hidles₃ _ => exact .idle ((hsame ▸ hidles₂).trans hidles₃)
        | delivered unit bridge state' result p header piece _ hwaiting' hwalk' hheader hfor _ hops
            hdelivers _ =>
          have heq : (trace, state) = (bridge, state') := by
            exact Option.some.inj (hwaiting.symm.trans hwaiting')
          cases heq
          have hpiece := hops (hsession.1 ▸ hdriver) htrace.2
          rw [htrace.1] at hpiece
          refine .delivered _ piece (hpiece ▸ ?_) (hsession.2 ▸ hfor)
            ((hsame ▸ hidles₂).delivers hdelivers)
          exact .retraced first p₁ w₁ _ inputs args r unit state result p header hwalk hw₁ hguards
            ⟨trace, hwaiting⟩ hagain rfl hwalk' hheader rfl
  · cases h
    exact .idle hidles

theorem compileBridge_eq_ok (hdriver : w.session.driver.virtualizable = none)
    (hw : w.context.registry.WellFormed) (hfree : w.session.waiting = none)
    (h : runFrom (compileBridge file resumeKey) w = (.ok (), w')) :
    Bridging file resumeKey w w' := by
  rw [compileBridge, runFrom_bind_eq_ok] at h
  obtain ⟨answer, w₁, htrace, h⟩ := h
  have hw₁ : w₁ = (runFrom (Workbench.compileTrace resumeKey) w).2 := by rw [htrace]
  rw [runFrom_bind, runFrom_get] at h
  dsimp only at h
  have hdone (hnone : w₁.session.waiting = none) : w' = w₁ := by
    rw [hnone, Option.isSome_none, Bool.and_false, if_neg (by simp)] at h
    cases h
    rfl
  have hwaiting (hsession : Workbench.SameSession w w₁) : w₁.session.waiting = none := by
    obtain ⟨values, hvalues⟩ := hsession
    rw [hvalues]
    exact hfree
  cases Workbench.compileTrace_eq_ok hw htrace with
  | gaveUp hidles hsession =>
    rw [hdone (hwaiting hsession)]
    exact .idle hidles
  | delivered result p piece hwalk hsession hfor _ hops hdelivers =>
    rw [hdone (hwaiting hsession)]
    refine .delivered _ piece (hops hdriver ▸ .direct result p hwalk rfl) hfor hdelivers
  | waits first p₁ state trace hwalk _ hguards hidles htrace hsession =>
    obtain ⟨values, hsession⟩ := hsession
    split at h
    · cases hunroll : w.enabled.contains .unroll with
      | false =>
        rename_i hsome
        rw [hsession, hunroll, if_neg (by simp), hfree] at hsome
        simp at hsome
      | true =>
        have hsome : w₁.session.waiting = some (trace, state) := by rw [hsession, hunroll, if_pos rfl]
        exact retrace_eq_ok hdriver hw hwalk hw₁ hguards hidles ⟨htrace.1, htrace.2.2⟩
          ⟨by rw [hsession], by rw [hsession]⟩ hsome h
    · cases h
      exact .idle hidles

end Bridges

section Failing

variable {s s' : Context × Replayer} {g : Guard} {frame : DeadFrame} {exit : FrameExit}
  {c c' : Context}

theorem blackhole_eq_ok {cache : Option VirtualCache}
    (h : runFrom (blackhole g frame cache) s = (.ok exit, s')) : s'.1 = s.1 := by
  cases cache <;> cases h <;> rfl

theorem inSession_eq_ok {α : Type} {session : Session} {x : CompileM α} {a : α}
    (h : runFrom (inSession session x) s = (.ok a, s')) :
    ∃ w', runFrom x ⟨s.1, session⟩ = (.ok a, w') ∧ s' = (w'.context, s.2) := by
  rw [inSession, runFrom_zoom] at h
  cases hx : runFrom x ⟨s.1, session⟩ with
  | mk answer w' =>
    rw [hx] at h
    cases h
    exact ⟨w', rfl, rfl⟩

/--
In the context `c` the operations have been recorded that the file gives for the guard `g`, in the
session of `w`, which goes on in the unit of the guard.
-/
structure RecordsBridge (file : TraceFile) (driver : Driver) (g : Guard) (frame : DeadFrame)
    (c : Context) (bridge : BridgeSpec) (w : Workbench) : Prop where
  given : bridgeAt? file (c.guards.get g).data.position = some bridge
  recorded : ∃ history r,
    runFrom (recordBridge file driver (c.procedure? driver (key file)) bridge frame)
      { guards := c.guards } = (.ok (some history), r) ∧
    w = ⟨{ c with guards := r.guards }, { driver, history, home := (c.guards.get g).loop }⟩

/-- Code has been made, in the context `c`, of what the file gives for the guard `g`. -/
inductive TracedCode (file : TraceFile) (driver : Driver) (g : Guard) (frame : DeadFrame) (c : Context)
    (t : GuardTable) : List Operation → Prop where
  | intro (bridge : BridgeSpec) (w : Workbench) (code : List Operation)
      (hrecords : RecordsBridge file driver g frame c bridge w)
      (hcode : BridgeCode file (.guard g) w t code) :
      TracedCode file driver g frame c t code

/-- What tracing from the guard `g` comes to: a bridge behind it, or nothing. -/
inductive Traces (file : TraceFile) (driver : Driver) (g : Guard) (frame : DeadFrame)
    (c c' : Context) : Prop where
  | idle (hidles : Context.Idles c c')
  | delivered (t : GuardTable) (piece : Piece) (hcode : TracedCode file driver g frame c t piece.ops)
      (hfor : piece.IsFor (.guard g) (c.guards.get g).loop)
      (hdelivers : Context.Delivers piece t c c')

theorem trace_eq_ok (hdriver : driver.virtualizable = none) (hc : s.1.registry.WellFormed)
    (h : runFrom (trace file driver g frame) s = (.ok exit, s')) :
    Traces file driver g frame s.1 s'.1 := by
  obtain ⟨c, interpreter⟩ := s
  rw [trace, runFrom_bind, runFrom_get] at h
  dsimp only at h hc ⊢
  split at h
  · rename_i bridge hbridge
    rw [runFrom_bind_eq_ok] at h
    obtain ⟨⟨result, r⟩, u, hrecord, h⟩ := h
    obtain ⟨guards, hgrows, hu⟩ := recording_grows
      (Recorder.recordBridge_growing file driver _ bridge frame) hrecord
    have hidles : Context.Idles c u.1 := by
      rw [hu]
      exact idles_guards c hgrows
    have hblackhole (h : runFrom (blackhole g frame none) u = (.ok exit, s')) :
        Traces file driver g frame c s'.1 := by
      rw [blackhole_eq_ok h]
      exact .idle hidles
    dsimp only at h
    split at h
    · rename_i history
      obtain ⟨hrecorded, hput⟩ := recording_eq_ok hrecord
      rw [runFrom_bind, runFrom_modify] at h
      dsimp only at h
      rw [runFrom_bind_eq_ok] at h
      obtain ⟨_, u', hcompile, h⟩ := h
      cases h
      obtain ⟨w', hbridging, rfl⟩ := inSession_eq_ok hcompile
      rw [hput] at hbridging hidles
      cases compileBridge_eq_ok (by exact hdriver) (by exact hc) rfl hbridging with
      | idle hidles' => exact .idle (hidles.trans hidles')
      | delivered t piece hcode hfor hdelivers =>
        exact .delivered t piece (.intro bridge _ _ ⟨hbridge, history, r, hrecorded, rfl⟩ hcode) hfor
          (hidles.delivers hdelivers)
    · exact hblackhole h
  · rw [blackhole_eq_ok h]
    exact .idle (.refl _)

/-- What a failure of the guard `g` comes to. -/
inductive Fails (file : TraceFile) (driver : Driver) (g : Guard) (frame : DeadFrame)
    (c c' : Context) : Prop where
  | forced (hkind : g.IsForced) (hidles : Context.Idles c.countBlackhole c')
  | busy (hbusy : (c.guards.get g).busy = true) (hidles : Context.Idles c c')
  | blackholed (hkind : ¬ g.IsForced) (hidles : Context.Idles c.countFailed.countBlackhole c')
  | traced (hkind : ¬ g.IsForced) (hidles : Context.Idles c.countFailed.countTrace c')
  | bridged (hkind : ¬ g.IsForced) (t : GuardTable) (piece : Piece)
      (hcode : TracedCode file driver g frame ((c.countFailure driver g frame).2.startTracing g) t
        piece.ops)
      (hfor : piece.IsFor (.guard g) (c.guards.get g).loop)
      (hdelivers : Context.Delivers piece (t.doneTracing g) c.countFailed.countTrace c')

private theorem idles_countFailure (c : Context) (driver : Driver) (g : Guard) (frame : DeadFrame) :
    Context.Idles c.countFailed (c.countFailure driver g frame).2 := by
  obtain ⟨counter, hcounter⟩ := mustCompile_eq c.countFailed driver g frame
  rw [Context.countFailure, ← Context.countFailed, hcounter]
  exact ⟨.refl _, .refl _, rfl, .refl _, rfl, rfl⟩

theorem handleFail_eq_ok (hdriver : driver.virtualizable = none) (hc : s.1.registry.WellFormed)
    (hframe : frame.descr = .guard g)
    (h : runFrom ((hooks file).handleFail driver frame) s = (.ok exit, s')) :
    Fails file driver g frame s.1 s'.1 := by
  rw [Hooks.handleFail_guard _ _ _ hframe] at h
  have hblackhole (frame : DeadFrame) (cache : Option VirtualCache) (u : Context × Replayer)
      (h : runFrom ((hooks file).blackhole driver g frame cache) u = (.ok exit, s')) :
      s'.1 = u.1 := blackhole_eq_ok h
  by_cases hkind : g.IsForced
  · obtain ⟨owner, howner⟩ := hkind
    by_cases hdriver' : owner = driver.id
    · rw [Hooks.handleGuard_forced _ _ _ (hdriver' ▸ howner)] at h
      refine .forced ⟨owner, howner⟩ ?_
      rw [hblackhole _ _ _ h]
      exact .refl _
    · rw [Hooks.handleGuard_foreign _ _ _ howner hdriver'] at h
      cases h
  · cases hbusy : (s.1.guards.get g).busy with
    | true =>
      rw [Hooks.handleGuard_busy _ _ _ hkind hbusy] at h
      refine .busy hbusy ?_
      rw [hblackhole _ _ _ h]
      exact .refl _
    | false =>
      rw [Hooks.handleGuard_idle _ _ _ hkind hbusy] at h
      have hcounted := idles_countFailure s.1 driver g frame
      have hguards : (s.1.countFailure driver g frame).2.guards = s.1.guards := by
        obtain ⟨counter, hcounter⟩ := mustCompile_eq s.1.countFailed driver g frame
        rw [Context.countFailure, ← Context.countFailed, hcounter]
        rfl
      dsimp only at h
      split at h
      · generalize hd : (s.1.countFailure driver g frame).2 = d at h hcounted hguards
        cases htrace : runFrom ((hooks file).trace driver g frame) (d.startTracing g, s.2) with
        | mk answer u =>
          rw [htrace] at h
          cases h
          cases trace_eq_ok hdriver (by exact hcounted.units.wellFormed hc) htrace with
          | idle hidles => exact .traced hkind (hcounted.traced hguards hidles)
          | delivered t piece hcode hfor hdelivers =>
            have hloop : ((d.startTracing g).guards.get g).loop = (s.1.guards.get g).loop := by
              rw [← hguards]
              exact GuardTable.loop_startTracing ..
            exact .bridged hkind t piece (hd ▸ hcode) (hloop ▸ hfor)
              (hcounted.traced_delivers hguards hdelivers)
      · refine .blackholed hkind ?_
        rw [hblackhole _ _ _ h]
        exact ⟨hcounted.units, hcounted.code, hcounted.quasiImmut, hcounted.guards,
          congrArg (fun l : Ledger => { l with blackholes := l.blackholes + 1 }) hcounted.ledger,
          hcounted.generation⟩

end Failing

section Entering

variable {s s' : Context × Replayer} {spec : EntrySpec} {c c' : Context}

/-- What an entry from the interpreter comes to: the code of a new unit, or nothing. -/
inductive Enters (c c' : Context) : Prop where
  | idle (hidles : Context.Idles c c')
  | delivered (t : GuardTable) (piece : Piece) (hpurpose : piece.purpose = .entry)
      (hnew : NewGuards c.guards.records.length t piece.ops)
      (hdelivers : Context.Delivers piece t c c')

private theorem ownsNew_of_registers {positions : Table String Nat} {specs : List OpSpec}
    {t t' : GuardTable} {ops : List Operation} (h : Recorder.Registers positions specs t t' ops) :
    Workbench.OwnsNew t.records.length t' ops :=
  ⟨h.own, h.named, h.grows.length_le⟩

private theorem ownsNew_of_closed {positions : Table String Nat} {specs : List OpSpec}
    {t t' : GuardTable} {ops : List Operation} {closing : Operation}
    (h : Recorder.Registers positions specs t t' ops) (hclosing : Recorder.Closes closing) :
    Workbench.OwnsNew t.records.length t' (ops ++ [closing]) := by
  refine (ownsNew_of_registers h).append fun op hop => ?_
  rw [List.mem_singleton.mp hop]
  exact ⟨hclosing.not_isGuard, hclosing.2⟩

theorem entryBridge_eq_ok (hdriver : driver.virtualizable = none) (hc : s.1.registry.WellFormed)
    {answer : Except RecordError (Option UnitHandle)}
    (h : runFrom (entryBridge file driver spec) s = (.ok answer, s')) : Enters s.1 s'.1 := by
  obtain ⟨c, interpreter⟩ := s
  rw [entryBridge, runFrom_bind, runFrom_get] at h
  dsimp only at h hc ⊢
  split at h
  · rename_i unit hunit
    rw [runFrom_bind_eq_ok] at h
    obtain ⟨⟨result, r⟩, u, hrecord, h⟩ := h
    obtain ⟨guards, hgrows, hu⟩ := recording_grows
      (Recorder.recordEntry_growing file driver unit spec) hrecord
    have hidles : Context.Idles c u.1 := by
      rw [hu]
      exact idles_guards c hgrows
    dsimp only at h
    cases result with
    | error e =>
      cases h
      exact .idle hidles
    | ok history =>
      obtain ⟨hrecorded, hput⟩ := recording_eq_ok hrecord
      dsimp only at h
      rw [runFrom_bind_eq_ok] at h
      obtain ⟨_, u', hcompile, h⟩ := h
      cases h
      obtain ⟨w', htracing, rfl⟩ := inSession_eq_ok hcompile
      rw [hput] at htracing hidles
      cases Workbench.compileTrace_eq_ok (by exact hc) htracing with
      | gaveUp hidles' => exact .idle (hidles.trans hidles')
      | waits _ _ _ _ _ _ _ hidles' => exact .idle (hidles.trans hidles')
      | delivered result p piece hwalk _ hfor _ hops hdelivers =>
        obtain ⟨ops, closing, hhistory, hclosing, hregisters, -⟩ :=
          Recorder.recordEntry_registers hrecorded
        refine .delivered p.shared.guards piece hfor ?_ (hidles.delivers hdelivers)
        rw [hops hdriver]
        refine Workbench.newGuards_of_tracePass ?_ hwalk
        dsimp only
        rw [hhistory]
        exact ownsNew_of_closed hregisters hclosing
  · cases h
    exact .idle (.refl _)

end Entering

section Descriptors

variable {w : Workbench} {resumeKey : ResumeKey} {t : GuardTable} {ops : List Operation} {g : Guard}
  {frame : DeadFrame} {c : Context} {n : Nat}

theorem BridgeCode.newGuards (h : BridgeCode file resumeKey w t ops)
    (hown : Workbench.OwnsNew n w.context.guards w.session.history.operations) :
    NewGuards n t ops := by
  cases h with
  | direct result p hwalk ht => exact ht ▸ Workbench.newGuards_of_tracePass hown hwalk
  | retraced first p₁ w₁ w₂ inputs args r unit state result p header hwalk hw₁ hguards _ hrecord hw₂
      hagain hheader ht =>
    have hfirst := Workbench.newGuards_of_tracePass hown hwalk
    obtain ⟨ops, hoperations, hregisters, -⟩ := Recorder.recordAgain_registers hrecord
    rw [hoperations, List.drop_left] at hagain
    have hgrows := Workbench.grows_of_tracePass hwalk
    have hle : n ≤ w₁.context.guards.records.length := by
      rw [hguards]
      exact Nat.le_trans hown.le hgrows.length_le
    have hagain' := ownsNew_of_registers hregisters
    subst hw₂
    refine ht ▸ Workbench.newGuards_peeled (hfirst.grows ?_) ?_ hagain hheader
    · rw [← hguards]
      exact hregisters.grows
    · exact ⟨hagain'.own, fun g hg => Nat.le_trans hle (hagain'.new g hg),
        Nat.le_trans hle hagain'.le⟩

theorem TracedCode.newGuards (h : TracedCode file driver g frame c t ops) :
    NewGuards c.guards.records.length t ops := by
  cases h with
  | intro bridge w _ hrecords hcode =>
    obtain ⟨history, r, hrecord, hw⟩ := hrecords.recorded
    obtain ⟨ops', closing, hhistory, hclosing, hregisters, -⟩ := Recorder.recordBridge_registers hrecord
    refine hcode.newGuards ?_
    rw [hw]
    dsimp only
    rw [hhistory]
    exact ownsNew_of_closed hregisters hclosing

end Descriptors

end Replayer

namespace Run

variable {run run' : Run} {unit : UnitHandle} {α : Type}

theorem replaying_eq_ok {x : ReplayM α} {a : α} (h : runFrom (replaying x) run = (.ok a, run')) :
    ∃ c interpreter, runFrom x (run.context, run.interpreter) = (.ok a, (c, interpreter)) ∧
      run' = { run with context := c, interpreter } := by
  rw [replaying, runFrom_bind, runFrom_get] at h
  dsimp only at h
  cases hx : runFrom x (run.context, run.interpreter) with
  | mk answer s =>
    have hx' : x (run.context, run.interpreter) = (answer, s) := hx
    rw [hx'] at h
    rw [runFrom_bind, runFrom_set] at h
    match answer with
    | .ok a =>
      cases h
      exact ⟨s.1, s.2, rfl, rfl⟩
    | .error (.error e) => cases h
    | .error (.fault f) => cases h

/--
In the context `c` the loop of the file has been recorded, and then the session has been that of
`w`: at once, or after it has been found that the loop cannot be unrolled.
-/
structure RecordsLoop (file : TraceFile) (driver : Driver) (c : Context) (args : List Arg)
    (r : Recorder) (w : Workbench) : Prop where
  recorded : runFrom (recordLoop file driver) { guards := c.guards } = (.ok args, r)
  session : let w₀ : Workbench := ⟨{ c with guards := r.guards }, { driver, history := r.history }⟩
    w = w₀ ∨ runFrom (Workbench.compileLoop (Replayer.key file) 0 r.history.inputs args false) w₀ =
      (.ok none, w)

theorem RecordsLoop.grows {c : Context} {args : List Arg} {r : Recorder} {w : Workbench}
    (h : RecordsLoop file driver c args r w) (hc : c.registry.WellFormed) :
    r.guards.Grows w.context.guards := by
  rcases h.session with hw | hw
  · rw [hw]
    exact .refl _
  · obtain ⟨-, hdelivers⟩ := Workbench.compileLoop_eq_ok (by exact hc) hw
    have hidles : Context.Idles { c with guards := r.guards } w.context := hdelivers
    exact hidles.guards

/-- The loop of the file has been recorded and compiled in the context `c`. -/
inductive Loops (file : TraceFile) (driver : Driver) (c c' : Context) : UnitHandle → Prop where
  | intro (args : List Arg) (r : Recorder) (w : Workbench) (entry : EntryPoint) (t : GuardTable)
      (deps : FieldSet) (code : List Operation) (hrecords : RecordsLoop file driver c args r w)
      (hgrows : r.guards.Grows w.context.guards)
      (hcode : Workbench.LoopCode w r.history.inputVars r.history.operations args entry t deps code)
      (hdelivers : Context.Delivers ⟨.loop, entry.owner, code, deps⟩ t c c') :
      Loops file driver c c' entry.owner

theorem compileLoop_eq_ok {w w' : Workbench} {key : GreenKey} {args : List Arg}
    {entry : EntryPoint} (hw : w.context.registry.WellFormed)
    (h : runFrom (compileLoop key args) w = (.ok (some entry), w')) :
    ∃ w₁, (w₁ = w ∨ runFrom (Workbench.compileLoop key 0 w.session.history.inputs args false) w =
        (.ok none, w₁)) ∧ Workbench.SameSession w w₁ ∧ Context.Idles w.context w₁.context ∧
      Workbench.DeliversLoop w₁ w.session.history.inputs w.session.history.operations args
        w'.context (some entry) := by
  rw [compileLoop, runFrom_bind, runFrom_get] at h
  dsimp only at h
  rw [runFrom_bind_eq_ok] at h
  obtain ⟨first, w₁, hfirst, h⟩ := h
  obtain ⟨hsession, hdelivers⟩ := Workbench.compileLoop_eq_ok hw hfirst
  rw [List.drop_zero] at hdelivers
  cases first with
  | some entry' =>
    cases h
    exact ⟨w, .inl rfl, .refl w, .refl _, hdelivers⟩
  | none =>
    have hidles : Context.Idles w.context w₁.context := hdelivers
    obtain ⟨-, hsecond⟩ := Workbench.compileLoop_eq_ok (hidles.units.wellFormed hw) h
    obtain ⟨values, hvalues⟩ := hsession
    rw [List.drop_zero, hvalues] at hsecond
    exact ⟨w₁, .inr hfirst, ⟨values, hvalues⟩, hidles, hsecond⟩

theorem loop_eq_ok (hdriver : driver.virtualizable = none) (hc : run.context.registry.WellFormed)
    (h : runFrom (loop file driver) run = (.ok unit, run')) :
    Loops file driver run.context run'.context unit ∧
      run' = { run with context := run'.context, interpreter := run'.interpreter } := by
  rw [loop, runFrom_bind_eq_ok] at h
  obtain ⟨⟨result, r⟩, run₁, hrecording, h⟩ := h
  obtain ⟨c₁, interpreter₁, hrecord, rfl⟩ := replaying_eq_ok hrecording
  rw [runFrom_bind_eq_ok] at h
  obtain ⟨args, run₂, hresult, h⟩ := h
  cases result with
  | error e => cases hresult
  | ok args' =>
    cases hresult
    obtain ⟨hrecorded, hput⟩ := Replayer.recording_eq_ok hrecord
    cases hput
    rw [runFrom_bind_eq_ok] at h
    obtain ⟨entry, run₃, hcompiling, h⟩ := h
    obtain ⟨c₂, interpreter₂, hcompile, rfl⟩ := replaying_eq_ok hcompiling
    cases entry with
    | none => cases h
    | some entry =>
      cases h
      obtain ⟨w', hloop, hw'⟩ := Replayer.inSession_eq_ok hcompile
      cases hw'
      obtain ⟨w, hw, hsession, hidles, t, deps, code, ops, hcode, hops, hdelivers⟩ :=
        compileLoop_eq_ok (by exact hc) hloop
      obtain ⟨values, hvalues⟩ := hsession
      have hops' : ops = code := hops (by rw [hvalues]; exact hdriver)
      subst hops'
      have hgrows := (Recorder.recordLoop_growing file driver { guards := run.context.guards }).grows
        hrecorded
      refine ⟨.intro args r w entry t deps ops ⟨hrecorded, hw⟩ hidles.guards hcode ?_, rfl⟩
      exact ((Replayer.idles_guards _ hgrows).trans hidles).delivers hdelivers

end Run

end HotLoop
