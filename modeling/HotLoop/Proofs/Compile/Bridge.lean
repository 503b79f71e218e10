import HotLoop.Proofs.Compile.Session

/-!
# Compiling bridges

A bridge is attached to the unit of its guard, or to a unit of its own. If it had to wait for its
loop, the entry point of the loop is listed by the procedure that the loop belongs to, wherever the
code is.
-/

namespace HotLoop

variable {recorded : List Operation} {unit home : UnitHandle} {c d : Context} {session : Session}
  {s : Submission} {w : Workbench}

def Session.waitingOperations (session : Session) : List Operation :=
  (session.waiting.map (·.1.operations)).getD []

inductive Attaching (recorded : List Operation) (c : Context) (s : Submission) :
    Except Stop Unit → Submission → Prop where
  | attached (home : UnitHandle) (ops : List Operation) (s' : Submission)
      (h : Context.Submitted recorded none home ops c s'.context)
      (htrace : s'.trace.home = some home ∧ s'.trace.operations = ops)
      (hlabels : ∀ op ∈ s.trace.operations, ∀ e, op.labels? = some e →
        e.id < s.context.entries.homes.length → s'.context.entries.home? e = some home) :
      Attaching recorded c s (.ok ()) s'
  | failed (e : Stop) (s' : Submission) (h : Context.Compiled recorded c s'.context) :
      Attaching recorded c s (.error e) s'

theorem attachingToGuard (session : Session) (guard : Guard) (hs : Context.Quiet [] c s.context)
    (hnew : Unlabelled recorded → ∀ op ∈ s.trace.operations, ∀ e, op.labels? = some e →
      c.entries.homes.length ≤ e.id) :
    Attaching recorded c s (runFrom (Submission.attachToGuard session guard) s).1
      (runFrom (Submission.attachToGuard session guard) s).2 := by
  simp only [Submission.attachToGuard, runFrom_bind, runFrom_get]
  cases hfilter : session.home.filter s.context.registry.isAlive with
  | none => exact .failed _ _ (.quiet (hs.mono fun _ => Context.unlabelled_nil))
  | some home =>
    obtain ⟨-, halive⟩ := Option.filter_eq_some_iff.mp hfilter
    simp only [runFrom_bind, Submission.runFrom_modifyTrace, runFrom_modify]
    generalize hq : Submission.propagate { s with trace := { s.trace with home := some home } } = q
    have hquiet : Context.Quiet recorded c q.context := by
      rw [← hq]
      exact ⟨hs.registry, hs.collector, hs.code, fun hr =>
        Submission.keepsHomes_propagate (hs.homes Context.unlabelled_nil) (hnew hr)⟩
    have hlabels : ∀ op ∈ s.trace.operations, ∀ e, op.labels? = some e →
        e.id < s.context.entries.homes.length → q.context.entries.home? e = some home := by
      intro op hop e he hlt
      rw [← hq]
      exact Submission.home?_propagate_of_mem (s := { s with trace := _ }) hop he hlt
    have hhome : q.trace.home = some home := by rw [← hq]; rfl
    have halive' : q.context.registry.isAlive home = true := by rw [← hq]; exact halive
    have hsending := Submission.bridgeSending guard home q
    generalize runFrom (Submission.sendBridge guard home) q = r at hsending
    obtain ⟨answer, s'⟩ := r
    dsimp only at hsending
    cases hsending with
    | sent code backend stats hcompile hcheck =>
      simp only [Submission.runFrom_modifyContext]
      obtain ⟨hloops, hbridges, hfreed⟩ := Backend.compileBridge_eq_ok hcompile
      refine .attached home q.trace.forgetForwarding.operations _ ?_ ⟨?_, rfl⟩ hlabels
      · exact .bridge q.context ⟨guard, home, _, _, code⟩ hquiet halive' ⟨rfl, rfl⟩ (by simp) rfl
          rfl rfl ⟨hloops, hbridges, hfreed⟩
      · exact (Trace.home_forgetForwarding _).trans hhome
    | unsent e _ h hregistry hblame =>
      have hunsent : Context.Quiet [] q.context s'.context :=
        ⟨hregistry, h.collector, h.code, fun _ => by rw [h.entries]; exact .refl _⟩
      exact .failed _ _ (.quiet (hquiet.trans (hunsent.mono fun _ => Context.unlabelled_nil)))

/-- The entry points that a new unit lists already stay in it when its labels are placed. -/
theorem Context.Building.settle (h : Building [] unit c s.context)
    (hhome : s.trace.home = some unit)
    (hnew : Unlabelled recorded → ∀ op ∈ s.trace.operations, ∀ e, op.labels? = some e →
      c.entries.homes.length ≤ e.id) : Building recorded unit c s.propagate.context where
  new := h.new
  steps := h.steps
  generation := h.generation
  others := h.others
  own := by
    obtain ⟨u, hget, hgen, hown⟩ := h.own
    refine ⟨u, hget, hgen, fun e he => ?_⟩
    rw [← hhome]
    exact Submission.home?_propagate_of_eq ((hown e he).trans hhome.symm)
  collector := h.collector
  code := h.code
  homes hr := Submission.keepsHomes_propagate (h.homes unlabelled_nil) (hnew hr)

theorem attachingToInterpreter (session : Session) (key : GreenKey)
    (hc : c.registry.WellFormed) (hs : Context.Quiet [] c s.context)
    (hnew : Unlabelled recorded → ∀ op ∈ s.trace.operations, ∀ e, op.labels? = some e →
      c.entries.homes.length ≤ e.id) :
    Attaching recorded c s (runFrom (Submission.attachToInterpreter session key) s).1
      (runFrom (Submission.attachToInterpreter session key) s).2 := by
  simp only [Submission.attachToInterpreter, runFrom_bind, runFrom_get, runFrom_modify]
  have hmake : Context.Building [] (s.context.makeUnit session.driver).1 s.context
      (s.context.makeUnit session.driver).2 := .make (by rw [hs.registry]; exact hc) _
  have hentries : (s.context.makeUnit session.driver).2.entries = s.context.entries := rfl
  generalize (s.context.makeUnit session.driver).1 = unit at hmake
  generalize (s.context.makeUnit session.driver).2 = c₁ at hmake hentries
  generalize hq : Submission.propagate
    { context := c₁, trace := { s.trace with home := some unit } } = q
  have hhome : q.trace.home = some unit := by rw [← hq]; rfl
  have hlabels : ∀ op ∈ s.trace.operations, ∀ e, op.labels? = some e →
      e.id < s.context.entries.homes.length → q.context.entries.home? e = some unit := by
    intro op hop e he hlt
    rw [← hq]
    exact Submission.home?_propagate_of_mem (s := ⟨c₁, _⟩) hop he (hentries ▸ hlt)
  have hbuilding : Context.Building recorded unit c q.context := by
    rw [← hq]
    exact (hmake.after hs).settle (s := ⟨c₁, _⟩) rfl hnew
  have hlaunching := launching session.driver session.history.inputs (some key) "entry bridge"
    hbuilding hhome
  generalize runFrom (JitM.onError _ _) q = r at hlaunching
  obtain ⟨answer, s'⟩ := r
  dsimp only at hlaunching
  cases hlaunching with
  | launched loaded loop _ hload hloop h hentries' hloops htrace =>
    simp only [Submission.runFrom_modifyContext]
    refine .attached unit loaded.operations _ (h.congr rfl rfl rfl rfl) htrace ?_
    intro op hop e he hlt
    have := hlabels op hop e he hlt
    rw [← hentries'] at this
    exact this
  | failed e _ h => exact .failed _ _ h

theorem attaching (session : Session) (resumeKey : ResumeKey) (hc : c.registry.WellFormed)
    (hs : Context.Quiet [] c s.context)
    (hnew : Unlabelled recorded → ∀ op ∈ s.trace.operations, ∀ e, op.labels? = some e →
      c.entries.homes.length ≤ e.id) :
    Attaching recorded c s (runFrom (Submission.attach session resumeKey) s).1
      (runFrom (Submission.attach session resumeKey) s).2 := by
  cases resumeKey with
  | guard guard => exact attachingToGuard session guard hs hnew
  | interpreter key => exact attachingToInterpreter session key hc hs hnew

namespace Workbench

open Context

variable {w' : Workbench} {resumeKey : ResumeKey} {session : Session} {trace : Trace}

private theorem optimize_compiled {α β : Type} {opts : OptSet} {pass : PassSettings → PassM Pass α}
    {next : Option α → CompileM β} {answer : Except Stop β}
    (hpass : ∀ s p, Goes Pass.Extends Rejection.Inconsistent (pass s) p)
    (h : runFrom (optimize opts pass >>= next) w = (answer, w'))
    (hnone : ∀ w₁, Quiet [] w.context w₁.context → runFrom (next none) w₁ = (answer, w') →
      Compiled recorded w.context w'.context)
    (hsome : ∀ a p, runFrom (pass (w.settings opts)) (.ofShared w.shared) = (.ok a, p) →
      Quiet [] w.context (w.afterPass p.shared).context →
      runFrom (next (some a)) (w.afterPass p.shared) = (answer, w') →
      Compiled recorded w.context w'.context) :
    Compiled recorded w.context w'.context := by
  rw [runFrom_bind] at h
  have hopt := optimizing opts w hpass
  generalize runFrom (optimize opts pass) w = r at h hopt
  obtain ⟨answer₁, w₁⟩ := r
  dsimp only at hopt
  cases hopt with
  | fault f _ hquiet =>
    cases h
    exact .quiet (hquiet.mono fun _ => unlabelled_nil)
  | gaveUp _ hquiet => exact hnone w₁ hquiet h
  | done a p hrun hquiet => exact hsome a p hrun hquiet h

private theorem submit_trace (hc : c.registry.WellFormed) (hs : Quiet [] c w.context)
    (hlabels : Unlabelled recorded → Unlabelled trace.operations) {answer : Except Stop Unit}
    (h : runFrom (submitting trace do
      Submission.attach session resumeKey
      Submission.record) w = (answer, w')) : Compiled recorded c w'.context := by
  have hattaching := attaching (s := ⟨w.context, trace⟩) session resumeKey hc
    hs fun hr op hop e he => by
      exact absurd he ((hlabels hr).not_labels hop)
  rw [runFrom_submitting, runFrom_bind] at h
  generalize runFrom (Submission.attach session resumeKey) ⟨w.context, trace⟩ = r at h hattaching
  obtain ⟨result, s'⟩ := r
  dsimp only at hattaching
  cases hattaching with
  | attached home ops _ hsubmitted htrace _ =>
    cases h
    exact (hsubmitted.record htrace.1 htrace.2).2.1
  | failed e _ hcompiled =>
    cases h
    exact hcompiled

/-- The end of compiling a trace: what a pass has made of it is submitted, or it waits. -/
def finishTrace (resumeKey : ResumeKey) (opts : OptSet) (result : Optimized) :
    CompileM (Option Descr) := do
  let trace ← newTrace
  let trace := { trace with
    inputs := result.inputs, operations := result.operations, deps := result.deps }
  match result.state with
  | none =>
    let session := (← get).session
    submitting trace do
      Submission.attach session resumeKey
      Submission.record
    return result.operations.getLast?.bind (·.descr)
  | some state =>
    if opts.contains .unroll then
      modifyContext (·.modifyStats fun s =>
        { s with retracesRequested := s.retracesRequested + 1 })
      modifySession fun s => { s with waiting := some (trace, state) }
    return none

def tracePass (w : Workbench) (resumeKey : ResumeKey) (s : PassSettings) : PassM Pass Optimized :=
  if w.session.history.endsWithJump then
    Pass.bridge s w.context.registry w.session.history.inputVars w.session.history.operations
      resumeKey.anyEntry
  else Pass.simple s w.session.history.inputVars w.session.history.operations

theorem tracePass_goes (s : PassSettings) (p : Pass) :
    Goes Pass.Extends Rejection.Inconsistent (w.tracePass resumeKey s) p := by
  rw [tracePass]
  split
  · exact Pass.bridge_goes s p ..
  · exact Pass.simple_goes s p ..

theorem runFrom_compileTrace (resumeKey : ResumeKey) (w : Workbench) :
    runFrom (compileTrace resumeKey) w =
      runFrom (optimize w.enabled (w.tracePass resumeKey) >>= fun result =>
        result.elim (pure none) (finishTrace resumeKey w.enabled)) w := by
  have hcongr {x y : CompileM (Option Optimized)} {f g : Option Optimized → CompileM (Option Descr)}
      (hx : x = y) (h : ∀ result, f result = g result) :
      runFrom (x >>= f) w = runFrom (y >>= g) w := by
    rw [hx, funext h]
  rw [compileTrace, runFrom_bind, runFrom_get]
  dsimp only
  rw [runFrom_bind, runFrom_opts]
  dsimp only
  unfold tracePass
  split
  · rw [runFrom_bind, runFrom_get]
    refine hcongr rfl fun result => ?_
    cases result <;> rfl
  · refine hcongr rfl fun result => ?_
    cases result <;> rfl

private theorem finish_trace {w₁ : Workbench} {opts : OptSet} {result : Optimized}
    (hc : c.registry.WellFormed) (hs : Quiet [] c w₁.context)
    (hlabels : Unlabelled recorded → Unlabelled result.operations)
    {answer : Except Stop (Option Descr)}
    (h : runFrom (finishTrace resumeKey opts result) w₁ = (answer, w')) :
    Compiled recorded c w'.context := by
  rw [finishTrace, runFrom_bind, runFrom_newTrace] at h
  dsimp only at h
  have hnamed : Quiet [] c { w₁.context with stats := w₁.context.stats.nameLoop.2 } :=
    hs.trans ⟨rfl, rfl, .refl _, fun _ => .refl _⟩
  split at h
  · rw [runFrom_bind, runFrom_get] at h
    dsimp only at h
    rw [runFrom_bind] at h
    generalize hr : runFrom (submitting _ _) _ = r at h
    obtain ⟨answer₁, w₂⟩ := r
    have hcompiled := submit_trace (w := { w₁ with context := _ }) hc hnamed hlabels hr
    cases answer₁ with
    | ok _ =>
      cases h
      exact hcompiled
    | error e =>
      cases h
      exact hcompiled
  · split at h
    · simp only [runFrom_bind, runFrom_modifyContext, runFrom_modifySession, runFrom_pure,
        Prod.mk.injEq] at h
      obtain ⟨-, rfl⟩ := h
      have hcounted : Quiet [] { w₁.context with stats := w₁.context.stats.nameLoop.2 }
          (modifyStats { w₁.context with stats := w₁.context.stats.nameLoop.2 } fun s =>
            { s with retracesRequested := s.retracesRequested + 1 }) :=
        ⟨rfl, rfl, .refl _, fun _ => .refl _⟩
      exact .quiet ((hnamed.trans hcounted).mono fun _ => unlabelled_nil)
    · cases h
      exact .quiet (hnamed.mono fun _ => unlabelled_nil)

theorem compileTrace_compiled (hw : w.context.registry.WellFormed)
    {answer : Except Stop (Option Descr)}
    (h : runFrom (compileTrace resumeKey) w = (answer, w')) :
    Compiled w.session.history.operations w.context w'.context := by
  rw [runFrom_compileTrace] at h
  refine optimize_compiled tracePass_goes h (fun w₁ hquiet h => ?_) fun result p hrun hquiet h => ?_
  · cases h
    exact .quiet (hquiet.mono fun _ => unlabelled_nil)
  · refine finish_trace hw hquiet (fun hr => ?_) h
    rw [tracePass] at hrun
    split at hrun
    · exact unlabelled_of_bridge hrun hr
    · exact unlabelled_of_simple hrun hr

/-- The end of compiling the loop behind a waiting bridge: the two are submitted as one trace. -/
def finishRetrace (unit : UnitHandle) (bridge : Trace) (state : ExportedState)
    (resumeKey : ResumeKey) (result : Optimized) : CompileM (Option EntryPoint) := do
  let some header := result.header | throw (.fault .missingLoopHeader)
  let session := (← get).session
  submitting { bridge with
    home := some unit
    operations := bridge.operations ++ header.copies ++ [header.label] ++ result.operations
    deps := (bridge.deps.union result.deps).union state.deps
    values := session.history.values } do
      Submission.attach session resumeKey
      Submission.modifyContext (·.modifyUnit unit fun u =>
        { u with entries := u.entries ++ [header.entry] })
      Submission.record
  return some header.entry

def taken (w : Workbench) : Workbench := { w with session := { w.session with waiting := none } }

/-- The pass over the loop behind a waiting bridge, and what is done with its result. -/
def walkRetrace (w : Workbench) (start : Nat) (inputs : List Var) (jumpArgs : List Arg)
    (resumeKey : ResumeKey) (unit : UnitHandle) (bridge : Trace) (state : ExportedState) :
    CompileM (Option EntryPoint) :=
  optimize w.enabled (fun s => Pass.peeled s inputs (.jump jumpArgs (.cell unit))
    (w.session.history.operations.drop start) state) >>= fun result =>
      result.elim (pure none) (finishRetrace unit bridge state resumeKey)

/-- The ways in which compiling the loop behind a waiting bridge can go. -/
inductive Retraces (key : GreenKey) (start : Nat) (inputs : List Var) (jumpArgs : List Arg)
    (resumeKey : ResumeKey) (w w' : Workbench) (answer : Except Stop (Option EntryPoint)) :
    Prop where
  | noUnit (hanswer : answer = .error (.error .noProcedureToken)) (hw : w' = w)
  | nothing (hanswer : answer = .ok none) (hw : w' = w.taken)
  | walks (unit : UnitHandle) (bridge : Trace) (state : ExportedState)
      (hunit : w.context.procedure? w.session.driver key = some unit)
      (hwaiting : w.session.waiting = some (bridge, state))
      (hrun : runFrom (w.walkRetrace start inputs jumpArgs resumeKey unit bridge state) w.taken =
        (answer, w'))

section Retrace

variable {key : GreenKey} {start : Nat} {inputs : List Var} {jumpArgs : List Arg}
  {answer : Except Stop (Option EntryPoint)}

theorem retraces_of_compileRetrace
    (h : runFrom (compileRetrace key start inputs jumpArgs resumeKey) w = (answer, w')) :
    Retraces key start inputs jumpArgs resumeKey w w' answer := by
  rw [compileRetrace, runFrom_bind, runFrom_get] at h
  dsimp only at h
  split at h
  · rename_i unit hunit
    rw [runFrom_bind, runFrom_takeWaiting] at h
    dsimp only at h
    cases hwaiting : w.session.waiting with
    | none =>
      rw [hwaiting] at h
      cases h
      exact .nothing rfl rfl
    | some waiting =>
      obtain ⟨bridge, state⟩ := waiting
      rw [hwaiting] at h
      dsimp only at h
      rw [runFrom_bind, runFrom_opts] at h
      dsimp only at h
      split at h
      · cases h
        exact .nothing rfl rfl
      · rw [runFrom_bind, runFrom_get] at h
        refine .walks unit bridge state (Option.filter_eq_some_iff.mp hunit).1 hwaiting ?_
        rw [← h, walkRetrace]
        refine congrArg (runFrom · w.taken) (congrArg _ (funext fun result => ?_))
        cases result <;> rfl
  · cases h
    exact .noUnit rfl rfl

/-- The head of the call changes nothing but what waits in the session. -/
theorem compileRetrace_goes {R : Workbench → Workbench → Prop} [Std.Refl R] [IsTrans Workbench R]
    {P : Stop → Prop} (hR : ∀ w w' : Workbench, w'.context.backend = w.context.backend → R w w')
    (hstop : ¬ P (.error .noProcedureToken))
    (hwalk : ∀ unit bridge state, w.session.waiting = some (bridge, state) →
      Goes R P (w.walkRetrace start inputs jumpArgs resumeKey unit bridge state) w.taken) :
    Goes R P (compileRetrace key start inputs jumpArgs resumeKey) w := by
  unfold Goes
  generalize hrun : runFrom (compileRetrace key start inputs jumpArgs resumeKey) w = r
  obtain ⟨answer, w'⟩ := r
  cases retraces_of_compileRetrace hrun with
  | noUnit hanswer hw =>
    subst hw
    refine ⟨Std.Refl.refl w', fun e he => ?_⟩
    cases hanswer.symm.trans he
    exact hstop
  | nothing hanswer hw =>
    subst hw
    refine ⟨hR w w.taken rfl, fun e he => ?_⟩
    cases hanswer.symm.trans he
  | walks unit bridge state _ hwaiting hrun =>
    have hgoes := hwalk unit bridge state hwaiting
    rw [Goes, hrun] at hgoes
    exact ⟨IsTrans.trans _ _ _ (hR w w.taken rfl) hgoes.1, hgoes.2⟩

end Retrace

private theorem submit_retrace (hc : c.registry.WellFormed) (hs : Quiet [] c w.context)
    {owner : UnitHandle} {header : LoopHeader}
    (hlabel : header.label ∈ trace.operations)
    (hlt : header.entry.id < w.context.entries.homes.length)
    (hnew : Unlabelled recorded → ∀ op ∈ trace.operations, ∀ e, op.labels? = some e →
      c.entries.homes.length ≤ e.id) {answer : Except Stop (Option EntryPoint)}
    (h : runFrom (do
      submitting trace do
        Submission.attach session resumeKey
        Submission.modifyContext (·.modifyUnit owner fun u =>
          { u with entries := u.entries ++ [header.entry] })
        Submission.record
      return some header.entry) w = (answer, w')) : Compiled recorded c w'.context := by
  have hattaching := attaching (s := ⟨w.context, trace⟩) session resumeKey hc hs hnew
  rw [runFrom_bind, runFrom_submitting, runFrom_bind] at h
  generalize runFrom (Submission.attach session resumeKey) ⟨w.context, trace⟩ = r at h hattaching
  obtain ⟨result, s'⟩ := r
  dsimp only at hattaching
  cases hattaching with
  | attached home ops _ hsubmitted htrace hlabels =>
    dsimp only at h
    rw [runFrom_bind, Submission.runFrom_modifyContext] at h
    dsimp only at h
    -- the entry point lies where the trace is, and not in its owner
    have hhome := hlabels header.label hlabel header.entry rfl hlt
    have hrecord := (hsubmitted.list owner hhome).record
      (s := { s' with context := s'.context.list (some (owner, header.entry)) }) htrace.1 htrace.2
    generalize hr : runFrom Submission.record _ = r at h
    have hr' : runFrom Submission.record
      { s' with context := s'.context.list (some (owner, header.entry)) } = r := hr
    rw [hr'] at hrecord
    obtain ⟨hok, hcompiled, -⟩ := hrecord
    obtain ⟨_, s''⟩ := r
    cases hok
    cases h
    exact hcompiled
  | failed e _ hcompiled =>
    cases h
    exact hcompiled

theorem compileRetrace_compiled (hw : w.context.registry.WellFormed) {key : GreenKey} {start : Nat}
    {inputs : List Var} {jumpArgs : List Arg} {answer : Except Stop (Option EntryPoint)}
    (h : runFrom (compileRetrace key start inputs jumpArgs resumeKey) w = (answer, w')) :
    Compiled (w.session.history.operations.drop start ++ w.session.waitingOperations) w.context
      w'.context := by
  cases retraces_of_compileRetrace h with
  | noUnit _ hw => exact hw ▸ .quiet (.refl _ _)
  | nothing _ hw => exact hw ▸ .quiet (.refl _ _)
  | walks unit bridge state _ hwaiting hrun =>
    refine optimize_compiled (w := w.taken) (fun s p => Pass.peeled_goes s p ..) hrun ?_ ?_
    · intro w₁ hquiet h
      cases h
      exact .quiet (hquiet.mono fun _ => unlabelled_nil)
    · intro result p hpeeled hquiet h
      obtain ⟨header, q, r, hinto⟩ := peeled_eq_ok hpeeled
      dsimp only [Option.elim] at h
      rw [finishRetrace, hinto.isHeader] at h
      dsimp only at h
      rw [runFrom_bind, runFrom_get] at h
      dsimp only at h
      refine submit_retrace hw hquiet ?_ hinto.entry_lt ?_ h
      · simp
      · intro hr op hop e he
        have hwait : w.session.waitingOperations = bridge.operations := by
          rw [Session.waitingOperations, hwaiting]
          rfl
        have hbridge : Unlabelled bridge.operations := hwait ▸ hr.of_append_right
        obtain ⟨hcopies, hresult⟩ := hinto.unlabelled (fun heq => by cases heq) hr.of_append_left
        rw [LoopHeader.eq_of_labels? hbridge hcopies hresult hop he]
        exact hinto.entry_le

end Workbench

end HotLoop
