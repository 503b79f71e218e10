import HotLoop.Proofs.Compile.Callback
import HotLoop.Proofs.Compile.Continuing
import HotLoop.Proofs.Compile.Delivery
import HotLoop.Proofs.Compile.Loop

/-!
# Compile calls that deliver

Which pass a compile call that succeeds has run, and what it has delivered of it. A call that gives
up has released the unit that it had made, and a bridge without an entry point waits in its session.
-/

namespace HotLoop

namespace Context

variable {c d : Context} {driver : Driver}

/-- A unit that was made in vain is gone once it has been released. -/
theorem Idles.release (hc : c.registry.WellFormed) (h : Idles (c.makeUnit driver).2 d) :
    Idles c (d.releaseUnit (c.makeUnit driver).1) where
  units := by
    refine ⟨fun _ => (h.units.wellFormed hc.make).drop, fun u => ?_⟩
    have hget : (d.releaseUnit (c.makeUnit driver).1).registry.get? u =
        if u = (c.makeUnit driver).1 then none else d.registry.get? u := Registry.get?_drop u
    rw [Registry.isAlive, hget]
    split
    · rename_i heq
      rw [heq, Registry.isAlive]
      have hnew : c.registry.get? (c.makeUnit driver).1 = none := hc.get?_make_fst
      rw [hnew]
    · rename_i hne
      have hmake : (c.makeUnit driver).2.registry.get? u = c.registry.get? u :=
        (hc.get?_make u).trans (if_neg hne)
      have halive := h.units.alive u
      rw [Registry.isAlive, Registry.isAlive, hmake] at halive
      rw [halive, Registry.isAlive]
  code := ⟨h.code.loops, h.code.bridges, h.code.freed⟩
  quasiImmut := h.quasiImmut
  guards := h.guards
  ledger := h.ledger
  generation := h.generation

theorem Idles.entries (h : Idles c d) (entries : EntryTable) : Idles c { d with entries } :=
  ⟨h.units, h.code, h.quasiImmut, h.guards, h.ledger, h.generation⟩

end Context

namespace Workbench

variable {w w' : Workbench} {opts : OptSet} {α : Type} {pass : PassSettings → PassM Pass α}
  {result : Option α}

def SameSession (w w' : Workbench) : Prop :=
  ∃ values, w'.session = { w.session with history := { w.session.history with values } }

theorem SameSession.refl (w : Workbench) : SameSession w w := ⟨w.session.history.values, rfl⟩

theorem SameSession.trans {w'' : Workbench} (h : SameSession w w') (h' : SameSession w' w'') :
    SameSession w w'' := by
  obtain ⟨values, h⟩ := h
  obtain ⟨values', h'⟩ := h'
  exact ⟨values', by rw [h', h]⟩

theorem idles_afterPass (w : Workbench) {shared : OptState}
    (h : w.context.guards.Grows shared.guards) :
    Context.Idles w.context (w.afterPass shared).context :=
  ⟨.refl _, .refl _, rfl, h, rfl, rfl⟩

/-- A pass has been run, and has given the trace up if it has no result. -/
theorem optimize_eq_ok (hpass : ∀ s p, Goes Pass.GrowsGuards (fun _ => False) (pass s) p)
    (h : runFrom (optimize opts pass) w = (.ok result, w')) :
    Context.Idles w.context w'.context ∧ SameSession w w' ∧
      ∀ a, result = some a → ∃ p,
        runFrom (pass (w.settings opts)) (.ofShared w.shared) = (.ok a, p) ∧
          w' = w.afterPass p.shared := by
  have hgrows := (hpass (w.settings opts) (.ofShared w.shared)).1
  rw [runFrom_optimize] at h
  generalize runFrom (pass (w.settings opts)) (.ofShared w.shared) = r at h hgrows
  obtain ⟨answer, p⟩ := r
  have hidles := idles_afterPass w hgrows
  match answer with
  | .ok a =>
    cases h
    exact ⟨hidles, ⟨_, rfl⟩, fun _ ha => by cases ha; exact ⟨p, rfl, rfl⟩⟩
  | .error (.invalid _) =>
    cases h
    exact ⟨hidles.trans ⟨.refl _, .refl _, rfl, .refl _, rfl, rfl⟩, ⟨_, rfl⟩,
      fun _ ha => by cases ha⟩
  | .error (.fault f) => cases h

theorem optimizeFor_eq_ok {unit : UnitHandle}
    (hpass : ∀ s p, Goes Pass.GrowsGuards (fun _ => False) (pass s) p)
    (h : runFrom (optimizeFor unit opts pass) w = (.ok result, w')) :
    SameSession w w' ∧
      (result = none → ∃ d, Context.Idles w.context d ∧ w'.context = d.releaseUnit unit) ∧
      ∀ a, result = some a → Context.Idles w.context w'.context ∧ ∃ p,
        runFrom (pass (w.settings opts)) (.ofShared w.shared) = (.ok a, p) ∧
          w' = w.afterPass p.shared := by
  rw [optimizeFor, runFrom_bind_eq_ok] at h
  obtain ⟨result', w₁, hopt, h⟩ := h
  obtain ⟨hidles, hsession, hsome⟩ := optimize_eq_ok hpass hopt
  cases result' with
  | none =>
    cases h
    exact ⟨hsession, fun _ => ⟨w₁.context, hidles, rfl⟩, fun _ ha => by cases ha⟩
  | some a =>
    cases h
    exact ⟨hsession, (fun hnone => by cases hnone), fun a ha => ⟨hidles, hsome a ha⟩⟩

/--
The code of a loop has been made in the session of `w`, in one walk or in two. What it relies on has
been collected in all of them, and the table of guards is `t` when they are over.
-/
inductive LoopCode (w : Workbench) (vars : List Var) (ops : List Operation) (jumpArgs : List Arg)
    (entry : EntryPoint) (t : GuardTable) : FieldSet → List Operation → Prop where
  | once (opts : OptSet) (result : Optimized) (p : Pass) (code : List Operation)
      (hwalk : runFrom (Pass.simple (w.settings opts) vars
        (ops ++ [.jump jumpArgs (.cell entry.owner)])) (.ofShared w.shared) = (.ok result, p))
      (hredirect : redirectJump? result.operations entry = some code)
      (ht : p.shared.guards = t) :
      LoopCode w vars ops jumpArgs entry t result.deps (.label vars (.target entry) :: code)
  | unrolled (opts : OptSet) (state : ExportedState) (pre : List Operation) (p₁ : Pass)
      (result : Optimized) (header : LoopHeader) (p₂ : Pass)
      (hpre : runFrom (Pass.preamble (w.settings opts) vars jumpArgs ops) (.ofShared w.shared) =
        (.ok (state, pre), p₁))
      (hpeeled : runFrom (Pass.peeled (w.settings opts) vars
        (.jump jumpArgs (.cell entry.owner)) ops state) (.ofShared p₁.shared) = (.ok result, p₂))
      (hheader : result.header = some header) (ht : p₂.shared.guards = t) :
      LoopCode w vars ops jumpArgs entry t (state.deps.union result.deps)
        (.label vars (.target entry) ::
          (pre ++ header.copies ++ [header.label] ++ result.operations))

def DeliversLoop (w : Workbench) (inputs : List InputArg) (ops : List Operation)
    (jumpArgs : List Arg) (c' : Context) : Option EntryPoint → Prop
  | none => Context.Idles w.context c'
  | some entry => ∃ t deps code ops', LoopCode w (inputs.map (·.var)) ops jumpArgs entry t deps code ∧
      (w.session.driver.virtualizable = none → ops' = code) ∧
      Context.Delivers ⟨.loop, entry.owner, ops', deps⟩ t w.context c'

variable {key : GreenKey} {inputs : List InputArg} {ops : List Operation} {jumpArgs : List Arg}
  {answer : Option EntryPoint}

private theorem deliver_loop {w₀ : Workbench} {u : UnitHandle} {deps : FieldSet} {vars : List Var}
    {entry : EntryPoint} {entries : CompiledUnit → List EntryPoint}
    (hu : u = (w₀.context.makeUnit w₀.session.driver).1) (hc : w₀.context.registry.WellFormed)
    (hidles : Context.Idles (w₀.context.makeUnit w₀.session.driver).2 w.context)
    (h : runFrom (do
      let trace ← newTrace
      modifyContext (·.modifyUnit u fun unit => { unit with entries := entries unit })
      submitting { trace with
        home := some u
        inputs := vars
        operations := ops
        deps } (Submission.sendNewLoop key w₀.session.driver inputs u)
      return some entry) w = (.ok answer, w')) :
    SameSession w w' ∧ answer = some entry ∧ ∃ ops',
      (w₀.session.driver.virtualizable = none → ops' = ops) ∧
      Context.Delivers ⟨.loop, u, ops', deps⟩ w.context.guards w₀.context w'.context := by
  subst hu
  simp only [runFrom_bind, runFrom_newTrace, runFrom_modifyContext, runFrom_submitting] at h
  split at h
  · rename_i hsend
    cases h
    generalize hs : (⟨_, _⟩ : Submission) = s at hsend ⊢
    have hnamed : Context.Idles w.context s.context := by
      rw [← hs]
      exact ⟨.modify .., .refl _, rfl, .refl _, rfl, rfl⟩
    have htrace : s.trace.home = some (w₀.context.makeUnit w₀.session.driver).1 ∧
        s.trace.operations = ops ∧ s.trace.deps = deps ∧ s.trace.forwarding.isEmpty = true ∧
        s.context.guards = w.context.guards := by
      rw [← hs]
      exact ⟨rfl, rfl, rfl, rfl, rfl⟩
    obtain ⟨hhome, hops, hdeps, hforwarding, hguards⟩ := htrace
    generalize hrun : runFrom (Submission.sendNewLoop key w₀.session.driver inputs
      (w₀.context.makeUnit w₀.session.driver).1) s = r at hsend ⊢
    obtain ⟨result, s'⟩ := r
    cases hsend
    obtain ⟨ops', hsame, hdelivers⟩ :=
      Submission.sendNewLoop_delivers hc (hidles.trans hnamed) hhome hrun
    rw [hdeps, hguards] at hdelivers
    exact ⟨⟨_, rfl⟩, rfl, ops', fun hno => (hsame hno hforwarding).trans hops, hdelivers⟩
  · cases h

theorem compileSimpleLoop_eq_ok (hw : w.context.registry.WellFormed)
    (h : runFrom (compileSimpleLoop key inputs ops jumpArgs opts) w = (.ok answer, w')) :
    SameSession w w' ∧ DeliversLoop w inputs ops jumpArgs w'.context answer := by
  rw [compileSimpleLoop, runFrom_bind, runFrom_get] at h
  dsimp only at h
  rw [runFrom_bind, runFrom_makeUnit] at h
  dsimp only at h
  generalize hunit : (w.context.makeUnit w.session.driver).1 = unit at h
  generalize hmade : (w.context.makeUnit w.session.driver).2 = made at h
  have hshared : Workbench.shared { w with context := made } = w.shared := by rw [← hmade]; rfl
  rw [runFrom_bind_eq_ok] at h
  obtain ⟨result, w₁, hopt, h⟩ := h
  obtain ⟨hsession, hnone, hsome⟩ := optimizeFor_eq_ok (w := { w with context := made })
    (fun s p => Pass.simple_grows s p ..) hopt
  rw [hshared] at hsome
  cases result with
  | none =>
    cases h
    obtain ⟨d, hidles, hd⟩ := hnone rfl
    refine ⟨hsession, ?_⟩
    rw [DeliversLoop, hd, ← hunit]
    exact Context.Idles.release hw (hmade ▸ hidles)
  | some result =>
    obtain ⟨hidles, p, hwalk, hw₁⟩ := hsome result rfl
    have hguards : p.shared.guards = w₁.context.guards := by rw [hw₁]; rfl
    dsimp only at h
    rw [runFrom_bind, runFrom_makeEntry] at h
    dsimp only at h
    split at h
    · rename_i code hredirect
      obtain ⟨hsession', rfl, ops', hops, hdelivers⟩ :=
        deliver_loop hunit.symm hw (hmade ▸ hidles.entries _) h
      exact ⟨hsession.trans hsession', _, _, _, ops',
        .once opts result p code hwalk hredirect hguards, hops, hdelivers⟩
    · cases h

theorem compileUnrolledLoop_eq_ok (hw : w.context.registry.WellFormed)
    (h : runFrom (compileUnrolledLoop key inputs ops jumpArgs opts) w = (.ok answer, w')) :
    SameSession w w' ∧ DeliversLoop w inputs ops jumpArgs w'.context answer := by
  rw [compileUnrolledLoop, runFrom_bind, runFrom_get] at h
  dsimp only at h
  rw [runFrom_bind, runFrom_makeUnit] at h
  dsimp only at h
  generalize hunit : (w.context.makeUnit w.session.driver).1 = unit at h
  generalize hmade : (w.context.makeUnit w.session.driver).2 = made at h
  have hshared : Workbench.shared { w with context := made } = w.shared := by rw [← hmade]; rfl
  -- the first walk
  rw [runFrom_bind_eq_ok] at h
  obtain ⟨first, w₁, hopt, h⟩ := h
  obtain ⟨hsession, hnone, hsome⟩ := optimizeFor_eq_ok (w := { w with context := made })
    (fun s p => Pass.preamble_grows s p ..) hopt
  rw [hshared] at hsome
  cases first with
  | none =>
    cases h
    obtain ⟨d, hidles, hd⟩ := hnone rfl
    refine ⟨hsession, ?_⟩
    rw [DeliversLoop, hd, ← hunit]
    exact Context.Idles.release hw (hmade ▸ hidles)
  | some first =>
    obtain ⟨state, pre⟩ := first
    obtain ⟨hidles, p₁, hpre, hw₁⟩ := hsome _ rfl
    have hsettings : w₁.settings opts = w.settings opts := by rw [hw₁]; rfl
    have hshared₁ : w₁.shared = p₁.shared := by rw [hw₁]; rfl
    -- the second walk
    rw [runFrom_bind_eq_ok] at h
    obtain ⟨result, w₂, hopt, h⟩ := h
    obtain ⟨hsession', hnone, hsome⟩ := optimizeFor_eq_ok
      (fun s p => Pass.peeled_grows s p ..) hopt
    rw [hsettings, hshared₁] at hsome
    cases result with
    | none =>
      cases h
      obtain ⟨d, hidles', hd⟩ := hnone rfl
      refine ⟨hsession.trans hsession', ?_⟩
      rw [DeliversLoop, hd, ← hunit]
      exact Context.Idles.release hw (hmade ▸ hidles.trans hidles')
    | some result =>
      obtain ⟨hidles', p₂, hpeeled, hw₂⟩ := hsome result rfl
      have hguards : p₂.shared.guards = w₂.context.guards := by rw [hw₂]; rfl
      dsimp only at h
      split at h
      · rename_i header hheader
        rw [runFrom_bind, runFrom_makeEntry] at h
        dsimp only at h
        obtain ⟨hsession'', rfl, ops', hops, hdelivers⟩ :=
          deliver_loop hunit.symm hw (hmade ▸ (hidles.trans hidles').entries _) h
        exact ⟨(hsession.trans hsession').trans hsession'', _, _, _, ops',
          .unrolled opts state pre p₁ result header p₂ hpre hpeeled hheader hguards, hops, hdelivers⟩
      · cases h

/-- However a loop is compiled, its answer is the entry point of what has been delivered. -/
theorem compileLoop_eq_ok (hw : w.context.registry.WellFormed) {start : Nat} {avoidUnroll : Bool}
    (h : runFrom (compileLoop key start inputs jumpArgs avoidUnroll) w = (.ok answer, w')) :
    SameSession w w' ∧ DeliversLoop w inputs (w.session.history.operations.drop start) jumpArgs
      w'.context answer := by
  refine compileLoop_cases (Q := fun r => r = (.ok answer, w') → _) (fun h => ?_)
    (fun _ => compileSimpleLoop_eq_ok hw) (fun _ _ => compileUnrolledLoop_eq_ok hw) h
  cases h
  exact ⟨.refl w, .refl _⟩

section Bridges

variable {resumeKey : ResumeKey} {key : GreenKey}

/-- What compiling the history as a bridge comes to. -/
inductive Tracing (resumeKey : ResumeKey) (w w' : Workbench) : Prop where
  | gaveUp (hidles : Context.Idles w.context w'.context) (hsession : SameSession w w')
  | waits (result : Optimized) (p : Pass) (state : ExportedState) (trace : Trace)
      (hwalk : runFrom (w.tracePass resumeKey (w.settings w.enabled)) (.ofShared w.shared) =
        (.ok result, p))
      (hstate : result.state = some state)
      (hguards : w'.context.guards = p.shared.guards)
      (hidles : Context.Idles w.context w'.context)
      (htrace : trace.operations = result.operations ∧ trace.deps = result.deps ∧
        trace.forwarding.isEmpty = true)
      (hsession : ∃ values, w'.session = { w.session with
        history := { w.session.history with values }
        waiting := if w.enabled.contains .unroll then some (trace, state) else w.session.waiting })
  | delivered (result : Optimized) (p : Pass) (piece : Piece)
      (hwalk : runFrom (w.tracePass resumeKey (w.settings w.enabled)) (.ofShared w.shared) =
        (.ok result, p))
      (hsession : SameSession w w')
      (hfor : piece.IsFor resumeKey w.session.home)
      (hdeps : piece.deps = result.deps)
      (hops : w.session.driver.virtualizable = none → piece.ops = result.operations)
      (hdelivers : Context.Delivers piece p.shared.guards w.context w'.context)

private theorem tracePass_grows (s : PassSettings) (p : Pass) :
    Goes Pass.GrowsGuards (fun _ => False) (w.tracePass resumeKey s) p := by
  rw [tracePass]
  split
  · exact Pass.bridge_grows s p ..
  · exact Pass.simple_grows s p ..

theorem grows_of_tracePass {s : PassSettings} {p p' : Pass} {result : Optimized}
    (h : runFrom (w.tracePass resumeKey s) p = (.ok result, p')) :
    p.shared.guards.Grows p'.shared.guards := by
  have hgrows : Goes Pass.GrowsGuards (fun _ => False) (w.tracePass resumeKey s) p :=
    tracePass_grows s p
  rw [Goes, h] at hgrows
  exact hgrows.1

private theorem deliver_attached {session : Session} {rest : JitM Submission Unit}
    {s s' : Submission} {c : Context} (hc : c.registry.WellFormed)
    (hs : Context.Idles c s.context)
    (hrest : ∀ t : Submission, ∃ registry, t.context.registry.Alike registry ∧ runFrom rest t =
      runFrom Submission.record { t with context := { t.context with registry } })
    (h : runFrom (do Submission.attach session resumeKey; rest) s = (.ok (), s')) :
    ∃ piece : Piece, piece.IsFor resumeKey session.home ∧ piece.deps = s.trace.deps ∧
      (session.driver.virtualizable = none → s.trace.forwarding.isEmpty = true →
        piece.ops = s.trace.operations) ∧
      Context.Delivers piece s.context.guards c s'.context := by
  obtain ⟨_, t, hattach, hrecord⟩ := runFrom_bind_eq_ok.mp h
  obtain ⟨piece, hattaches⟩ := Submission.attach_eq_ok (hs.units.wellFormed hc) hattach
  obtain ⟨registry, halike, heq⟩ := hrest t
  rw [heq] at hrecord
  exact ⟨piece, hattaches.source, hattaches.deps.2, hattaches.unchanged,
    hs.delivers (hattaches.delivers halike hrecord).2⟩

section Finishing

variable {w₁ : Workbench} {result : Optimized} {answer : Option Descr}
  (hidles : Context.Idles w.context w₁.context)
  (h : runFrom (finishTrace resumeKey opts result) w₁ = (.ok answer, w'))
include hidles h

private theorem delivered_of_finishTrace (hw : w.context.registry.WellFormed)
    (hstate : result.state = none) :
    w'.session = w₁.session ∧ ∃ piece : Piece, piece.IsFor resumeKey w₁.session.home ∧
      piece.deps = result.deps ∧
      (w₁.session.driver.virtualizable = none → piece.ops = result.operations) ∧
      Context.Delivers piece w₁.context.guards w.context w'.context := by
  rw [finishTrace, runFrom_bind, runFrom_newTrace] at h
  simp only [hstate] at h
  rw [runFrom_bind, runFrom_get] at h
  dsimp only at h
  rw [runFrom_bind, runFrom_submitting] at h
  generalize hs : (⟨_, _⟩ : Submission) = s at h
  have hcontext : s.context = { w₁.context with stats := w₁.context.stats.nameLoop.2 } := by
    rw [← hs]
  have hguards : s.context.guards = w₁.context.guards := by rw [hcontext]
  have htrace : s.trace.operations = result.operations ∧ s.trace.deps = result.deps ∧
      s.trace.forwarding.isEmpty = true := by
    rw [← hs]
    exact ⟨rfl, rfl, rfl⟩
  obtain ⟨hops, hdeps, hforwarding⟩ := htrace
  cases hattach : runFrom (do
      Submission.attach w₁.session resumeKey
      Submission.record) s with
  | mk sent s' =>
    rw [hattach] at h
    cases sent with
    | error e => cases h
    | ok _ =>
      cases h
      have hnamed : Context.Idles w.context s.context :=
        hcontext ▸ hidles.trans ⟨.refl _, .refl _, rfl, .refl _, rfl, rfl⟩
      obtain ⟨piece, hfor, hdeps', hops', hdelivers⟩ :=
        deliver_attached hw hnamed (fun t => ⟨_, .refl _, rfl⟩) hattach
      exact ⟨rfl, piece, hfor, hdeps'.trans hdeps,
        fun hno => (hops' hno hforwarding).trans hops, hguards ▸ hdelivers⟩

private theorem waits_of_finishTrace {state : ExportedState} (hstate : result.state = some state) :
    w'.context.guards = w₁.context.guards ∧ Context.Idles w.context w'.context ∧
      ∃ trace : Trace, (trace.operations = result.operations ∧ trace.deps = result.deps ∧
          trace.forwarding.isEmpty = true) ∧
        w'.session = { w₁.session with
          waiting := if opts.contains .unroll then some (trace, state)
            else w₁.session.waiting } := by
  rw [finishTrace, runFrom_bind, runFrom_newTrace] at h
  simp only [hstate] at h
  have hnamed : Context.Idles w.context { w₁.context with stats := w₁.context.stats.nameLoop.2 } :=
    hidles.trans ⟨.refl _, .refl _, rfl, .refl _, rfl, rfl⟩
  split at h
  · rename_i hunroll
    simp only [runFrom_bind, runFrom_modifyContext, runFrom_modifySession, runFrom_pure,
      Prod.mk.injEq] at h
    obtain ⟨-, rfl⟩ := h
    refine ⟨rfl, hnamed.trans ⟨.refl _, .refl _, rfl, .refl _, rfl, rfl⟩, {
      name := w₁.context.stats.nameLoop.1
      values := w₁.session.history.values
      inputs := result.inputs
      operations := result.operations
      deps := result.deps }, ⟨rfl, rfl, rfl⟩, ?_⟩
    rw [if_pos hunroll]
  · rename_i hunroll
    cases h
    refine ⟨rfl, hnamed,
      { name := "", operations := result.operations, deps := result.deps }, ⟨rfl, rfl, rfl⟩, ?_⟩
    rw [if_neg hunroll]

end Finishing

theorem compileTrace_eq_ok (hw : w.context.registry.WellFormed) {answer : Option Descr}
    (h : runFrom (compileTrace resumeKey) w = (.ok answer, w')) : Tracing resumeKey w w' := by
  rw [runFrom_compileTrace, runFrom_bind_eq_ok] at h
  obtain ⟨result, w₁, hopt, h⟩ := h
  obtain ⟨hidles, ⟨values, hvalues⟩, hsome⟩ := optimize_eq_ok (fun s p => tracePass_grows s p) hopt
  cases result with
  | none =>
    cases h
    exact .gaveUp hidles ⟨values, hvalues⟩
  | some result =>
    obtain ⟨p, hwalk, hw₁⟩ := hsome result rfl
    have hguards : w₁.context.guards = p.shared.guards := by rw [hw₁]; rfl
    change runFrom (finishTrace resumeKey w.enabled result) w₁ = _ at h
    cases hstate : result.state with
    | none =>
      obtain ⟨hsession, piece, hfor, hdeps, hops, hdelivers⟩ :=
        delivered_of_finishTrace hidles h hw hstate
      rw [hvalues] at hsession hfor hops
      exact .delivered result p piece hwalk ⟨values, hsession⟩ hfor hdeps hops (hguards ▸ hdelivers)
    | some state =>
      obtain ⟨hguards', hidles', trace, htrace, hsession⟩ := waits_of_finishTrace hidles h hstate
      rw [hvalues] at hsession
      exact .waits result p state trace hwalk hstate (hguards'.trans hguards) hidles' htrace
        ⟨values, hsession⟩

/--
What compiling the history from `start` on as the loop behind a waiting bridge comes to. The answer
is the entry point of its header.
-/
inductive Retracing (key : GreenKey) (start : Nat) (inputs : List Var) (jumpArgs : List Arg)
    (resumeKey : ResumeKey) (w w' : Workbench) : Option EntryPoint → Prop where
  | idle (hidles : Context.Idles w.context w'.context) (hwaiting : w'.session.waiting = none) :
      Retracing key start inputs jumpArgs resumeKey w w' none
  | delivered (unit : UnitHandle) (bridge : Trace) (state : ExportedState) (result : Optimized)
      (p : Pass) (header : LoopHeader) (piece : Piece)
      (hunit : w.context.procedure? w.session.driver key = some unit)
      (hwaiting : w.session.waiting = some (bridge, state))
      (hwalk : runFrom (Pass.peeled (w.settings w.enabled) inputs (.jump jumpArgs (.cell unit))
        (w.session.history.operations.drop start) state) (.ofShared w.shared) = (.ok result, p))
      (hheader : result.header = some header)
      (hfor : piece.IsFor resumeKey w.session.home)
      (hdeps : piece.deps = (bridge.deps.union result.deps).union state.deps)
      (hops : w.session.driver.virtualizable = none → bridge.forwarding.isEmpty = true →
        piece.ops = bridge.operations ++ header.copies ++ [header.label] ++ result.operations)
      (hdelivers : Context.Delivers piece p.shared.guards w.context w'.context)
      (hwaiting' : w'.session.waiting = none) :
      Retracing key start inputs jumpArgs resumeKey w w' (some header.entry)

private theorem delivered_of_finishRetrace {w₁ : Workbench} {unit : UnitHandle} {bridge : Trace}
    {state : ExportedState} {result : Optimized} {answer : Option EntryPoint}
    (hidles : Context.Idles w.context w₁.context) (hw : w.context.registry.WellFormed)
    (h : runFrom (finishRetrace unit bridge state resumeKey result) w₁ = (.ok answer, w')) :
    ∃ header, result.header = some header ∧ answer = some header.entry ∧ w'.session = w₁.session ∧
      ∃ piece : Piece, piece.IsFor resumeKey w₁.session.home ∧
        piece.deps = (bridge.deps.union result.deps).union state.deps ∧
        (w₁.session.driver.virtualizable = none → bridge.forwarding.isEmpty = true → piece.ops =
          bridge.operations ++ header.copies ++ [header.label] ++ result.operations) ∧
        Context.Delivers piece w₁.context.guards w.context w'.context := by
  rw [finishRetrace] at h
  split at h
  · rename_i header hheader
    rw [runFrom_bind, runFrom_get] at h
    dsimp only at h
    rw [runFrom_bind, runFrom_submitting] at h
    generalize hs : (⟨_, _⟩ : Submission) = s at h
    have hcontext : s.context = w₁.context := by rw [← hs]
    have htrace : s.trace.operations = bridge.operations ++ header.copies ++ [header.label] ++
        result.operations ∧ s.trace.deps = (bridge.deps.union result.deps).union state.deps ∧
        s.trace.forwarding = bridge.forwarding := by
      rw [← hs]
      exact ⟨rfl, rfl, rfl⟩
    obtain ⟨hops, hdeps, hforwarding⟩ := htrace
    cases hattach : runFrom (do
        Submission.attach w₁.session resumeKey
        Submission.modifyContext (·.modifyUnit unit fun u =>
          { u with entries := u.entries ++ [header.entry] })
        Submission.record) s with
    | mk sent s' =>
      rw [hattach] at h
      cases sent with
      | error e => cases h
      | ok _ =>
        cases h
        obtain ⟨piece, hfor, hdeps', hops', hdelivers⟩ :=
          deliver_attached hw (hcontext ▸ hidles) (fun t => ⟨_, .modify .., rfl⟩) hattach
        rw [hops, hforwarding] at hops'
        exact ⟨header, hheader, rfl, rfl, piece, hfor, hdeps'.trans hdeps, hops',
          hcontext ▸ hdelivers⟩
  · cases h

theorem compileRetrace_eq_ok (hw : w.context.registry.WellFormed) {start : Nat}
    {inputs : List Var} {answer : Option EntryPoint}
    (h : runFrom (compileRetrace key start inputs jumpArgs resumeKey) w = (.ok answer, w')) :
    Retracing key start inputs jumpArgs resumeKey w w' answer := by
  cases retraces_of_compileRetrace h with
  | noUnit hanswer => cases hanswer
  | nothing hanswer hw' =>
    cases hanswer
    exact hw' ▸ .idle (.refl _) rfl
  | walks unit bridge state hunit hwaiting hrun =>
    obtain ⟨result, w₁, hopt, h⟩ := runFrom_bind_eq_ok.mp hrun
    obtain ⟨hidles, ⟨values, hvalues⟩, hsome⟩ := optimize_eq_ok (w := w.taken)
      (fun s p => Pass.peeled_grows s p ..) hopt
    cases result with
    | none =>
      cases h
      exact .idle hidles (by rw [hvalues]; rfl)
    | some result =>
      obtain ⟨p, hwalk, hw₁⟩ := hsome result rfl
      have hguards : w₁.context.guards = p.shared.guards := by rw [hw₁]; rfl
      obtain ⟨header, hheader, rfl, hsession, piece, hfor, hdeps, hops, hdelivers⟩ :=
        delivered_of_finishRetrace hidles hw h
      rw [hvalues] at hsession hfor hops
      exact .delivered unit bridge state result p header piece hunit hwaiting hwalk hheader hfor
        hdeps hops (hguards ▸ hdelivers) (by rw [hsession]; rfl)

end Bridges

end Workbench

namespace Context

variable {c c' : Context} {driver : Driver} {greens : List Arg} {reds : List Kind}
  {unit : UnitHandle}

theorem guard?_callbackCode {inputs : List Var} {ops : List Operation}
    (h : callbackCode driver greens reds = .ok (inputs, ops)) : ∀ op ∈ ops, op.guard? = none := by
  obtain ⟨result, -, -, rfl⟩ := callbackCode_eq_ok h
  intro op hop
  simp only [List.mem_cons, List.not_mem_nil, or_false] at hop
  rcases hop with rfl | rfl | rfl <;> rfl

/-- A callback is not recorded with its unit, for its code has no guards, jumps or dependencies. -/
theorem compileCallback_eq_ok (hc : c.registry.WellFormed)
    (h : runFrom (compileCallback driver greens reds) c = (.ok unit, c')) :
    ∃ inputs ops, callbackCode driver greens reds = .ok (inputs, ops) ∧
      Delivers ⟨.callback, unit, ops, []⟩ c.guards c c' := by
  rw [compileCallback] at h
  split at h
  · cases h
  · rw [runFrom_bind, runFrom_get] at h
    dsimp only at h
    generalize hunit : (c.makeUnit driver).1 = made at h
    generalize hmade : (c.makeUnit driver).2 = d at h
    simp only [runFrom_bind, runFrom_set, runFrom_ofFault] at h
    cases hcode : callbackCode driver greens reds with
    | error f =>
      rw [hcode] at h
      cases h
    | ok code =>
      obtain ⟨inputs, ops⟩ := code
      rw [hcode] at h
      dsimp only at h
      cases hcompile : d.backend.compileLoop driver.id made "tmp callback" inputs ops with
      | mk result backend =>
        rw [hcompile] at h
        dsimp only at h
        cases result with
        | error e => cases h
        | ok range =>
          cases h
          obtain ⟨hloops, hbridges, hfreed⟩ := Backend.compileLoop_eq_ok hcompile
          have halive : d.registry.isAlive unit = true := by
            rw [← hunit, ← hmade]
            have hget : (c.makeUnit driver).2.registry.get? (c.makeUnit driver).1 =
                some { driver := driver.id } := (hc.get?_make _).trans (if_pos rfl)
            exact Registry.isAlive_of_get? hget
          have hplaces : Places ⟨.callback, unit, ops, []⟩ d.guards d
              (({ d with backend }.modifyUnit unit fun u => { u with code := some range }).keepAlive
                unit) := by
            have halike : d.registry.Alike (d.collector.keep
                (d.registry.modify unit fun u => { u with code := some range }) unit).2 :=
              (Registry.Alike.modify ..).trans (.keep ..)
            refine ⟨halike.wellFormed, fun u => (halike.alive u).trans ?_,
              ⟨_, rfl, rfl, hloops, hbridges⟩, hfreed, rfl, .refl _, rfl, rfl,
              (Units.current_keep (u := ⟨_, _⟩)).1⟩
            by_cases hu : u = unit
            · simp [hu, halive]
            · simp [hu]
          have hidles : Idles (c.makeUnit driver).2 d := hmade ▸ .refl _
          obtain ⟨hplaces, hdead⟩ := hplaces.ofNew hc hidles hunit.symm
          have hguards : d.guards = c.guards := by rw [← hmade]; rfl
          have hnone := guard?_callbackCode hcode
          have hnames (g : Guard) : ¬ NamesGuard ops g := by
            rintro ⟨op, hop, g', hg', -⟩
            rw [hnone op hop] at hg'
            cases hg'
          have hlinks : Piece.Links ⟨.callback, unit, ops, []⟩ c.guards d.guards := by
            rw [hguards]
            exact ⟨rfl, fun g _ hg => absurd hg (hnames g), fun _ _ => rfl, fun _ _ => rfl,
              fun _ => rfl, fun _ => rfl⟩
          exact ⟨inputs, ops, rfl, hplaces.wellFormed, hdead, hplaces.alive, hplaces.code,
            hplaces.freed, hplaces.quasiImmut, hguards ▸ hplaces.grows, hlinks, hplaces.ledger,
            hplaces.generation⟩

end Context

end HotLoop
