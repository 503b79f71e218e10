import HotLoop.Proofs.Compile.Attempts
import HotLoop.Proofs.Compile.Bridge

/-!
# Calls that end without code

Compile calls take back whatever they have begun when the optimizer gives up, when the backend
refuses, or when there is nothing to compile. A call that answers with code has to be told from one
that does not: `compileTrace` answers with the descriptor of the last operation, so that code whose
last operation has no descriptor looks like none.
-/

namespace HotLoop

namespace Workbench

open Context

section Loops

variable {key : GreenKey} {inputs : List InputArg} {ops : List Operation} {jumpArgs : List Arg}
  {opts : OptSet} {w w' : Workbench} {unit : UnitHandle} {c : Context} {driver : Driver}
  {answer : Except Stop (Option EntryPoint)}

private theorem submit_spares {trace : Trace} {entry : EntryPoint}
    (h : Spares ops (some unit) c w.context) (hnew : c.registry.get? unit = none)
    (hhome : trace.home = some unit)
    (hlabels : LabelsFrom c.entries.homes.length ops trace.operations) (hanswer : NoCode answer)
    (hrun : runFrom (do
      submitting trace (Submission.sendNewLoop key driver inputs unit)
      return some entry) w = (answer, w')) : Spares ops none c w'.context := by
  rw [runFrom_bind, runFrom_submitting] at hrun
  generalize hr : runFrom (Submission.sendNewLoop key driver inputs unit) ⟨w.context, trace⟩ = r
    at hrun
  obtain ⟨answer₁, s'⟩ := r
  match answer₁ with
  | .ok _ =>
    cases hrun
    exact absurd rfl (hanswer.ne_some entry)
  | .error (.fault f) =>
    cases hrun
    exact absurd rfl (hanswer.ne_fault f)
  | .error (.error e) =>
    cases hrun
    exact sendNewLoop_spares (s := ⟨w.context, trace⟩) h hnew hhome hlabels hr

theorem compileUnrolledLoop_spares (hw : w.context.registry.WellFormed)
    (hrun : runFrom (compileUnrolledLoop key inputs ops jumpArgs opts) w = (answer, w'))
    (hanswer : NoCode answer) : Spares ops none w.context w'.context := by
  rw [compileUnrolledLoop, runFrom_bind, runFrom_get] at hrun
  dsimp only at hrun
  rw [runFrom_bind, runFrom_makeUnit] at hrun
  dsimp only at hrun
  obtain ⟨hmade, hnew⟩ := (Spares.refl ops w.context).makeUnit hw w.session.driver
  generalize (w.context.makeUnit w.session.driver).1 = unit at hrun hmade hnew
  generalize (w.context.makeUnit w.session.driver).2 = c₁ at hrun hmade
  -- the first walk
  refine optimizeFor_spares (w := { w with context := c₁ })
    ⟨fun s p => Pass.preamble_goes s p (inputs.map (·.var)) jumpArgs ops,
      fun s p => Pass.preamble_sparing s p ..⟩ hmade hnew hanswer hrun rfl ?_
  rintro ⟨state, pre⟩ p₁ hpre hspares₁ hrun
  generalize hw₁ : afterPass { w with context := c₁ } p₁.shared = w₁ at hrun hspares₁
  -- the second walk
  refine optimizeFor_spares ⟨fun s p => Pass.peeled_goes s p (inputs.map (·.var))
    (.jump jumpArgs (.cell unit)) ops state, fun s p => Pass.peeled_sparing s p ..⟩ hspares₁ hnew
    hanswer hrun rfl ?_
  intro result p₂ hpeeled hspares₂ hrun
  obtain ⟨header, q, r, hinto⟩ := peeled_eq_ok hpeeled
  dsimp only at hrun
  rw [hinto.isHeader] at hrun
  dsimp only at hrun
  rw [runFrom_bind, runFrom_makeEntry] at hrun
  dsimp only at hrun
  have hlisted := hspares₂.makeEntry unit ((inputs.map (·.var)).map (·.kind)) (some unit)
  have hentry : w.context.entries.homes.length ≤ ((w₁.afterPass p₂.shared).context.entries.make unit
    ((inputs.map (·.var)).map (·.kind)) (some unit)).1.id := hspares₂.length_le
  generalize ((w₁.afterPass p₂.shared).context.entries.make unit
    ((inputs.map (·.var)).map (·.kind)) (some unit)).1 = entry at hrun hentry
  generalize ((w₁.afterPass p₂.shared).context.entries.make unit
    ((inputs.map (·.var)).map (·.kind)) (some unit)).2 = entries at hrun hlisted
  rw [runFrom_bind, runFrom_newTrace] at hrun
  dsimp only at hrun
  rw [runFrom_bind, runFrom_modifyContext] at hrun
  refine submit_spares ?_ hnew rfl ?_ hanswer hrun
  · exact { hlisted.modifyUnit fun u =>
      { u with entries := entry :: u.entries ++ [header.entry] } with }
  · have hheader : w.context.entries.homes.length ≤ header.entry.id :=
      Nat.le_trans hspares₁.length_le hinto.entry_le
    refine .cons (.label ops _ hentry) ?_
    refine (((labelsFrom_of_preamble hpre).append (.ofUnlabelled ops fun op hop => ?_)).append
      (.label ops _ hheader)).append (hinto.labelsFrom fun heq => by cases heq)
    rw [hinto.built.opcode_eq op hop]
    decide

theorem redirectJump?_labelsFrom {n : Nat} {code code' : List Operation} {entry : EntryPoint}
    (h : redirectJump? code entry = some code') (hcode : LabelsFrom n ops code) :
    LabelsFrom n ops code' := by
  unfold redirectJump? at h
  split at h
  · split at h
    · rename_i last hlast hop
      cases h
      refine LabelsFrom.append (fun op hmem => hcode op (List.dropLast_subset _ hmem))
        (.ofUnlabelled ops fun op hmem => ?_)
      rw [List.mem_singleton.mp hmem]
      simp [hop]
    · cases h
  · cases h

theorem compileSimpleLoop_spares (hw : w.context.registry.WellFormed)
    (hrun : runFrom (compileSimpleLoop key inputs ops jumpArgs opts) w = (answer, w'))
    (hanswer : NoCode answer) : Spares ops none w.context w'.context := by
  rw [compileSimpleLoop, runFrom_bind, runFrom_get] at hrun
  dsimp only at hrun
  rw [runFrom_bind, runFrom_makeUnit] at hrun
  dsimp only at hrun
  obtain ⟨hmade, hnew⟩ := (Spares.refl (ops ++ [.jump jumpArgs
    (.cell (w.context.makeUnit w.session.driver).1)]) w.context).makeUnit hw w.session.driver
  generalize (w.context.makeUnit w.session.driver).1 = unit at hrun hmade hnew
  generalize (w.context.makeUnit w.session.driver).2 = c₁ at hrun hmade
  -- the closing jump names neither a guard nor a label
  have hbody {op : Operation} (hop : op ∈ ops ++ [.jump jumpArgs (.cell unit)]) :
      op ∈ ops ∨ op.guard? = none ∧ op.labels? = none := by
    rcases List.mem_append.mp hop with hop | hop
    · exact .inl hop
    · rw [List.mem_singleton.mp hop]
      exact .inr ⟨rfl, rfl⟩
  suffices hspares : Spares (ops ++ [.jump jumpArgs (.cell unit)]) none w.context w'.context by
    refine hspares.mono ?_ ?_
    · rintro g ⟨op, hop, g', hg', hid⟩
      rcases hbody hop with hop | ⟨hnone, -⟩
      · exact ⟨op, hop, g', hg', hid⟩
      · rw [hnone] at hg'
        cases hg'
    · intro op hop e he
      rcases hbody hop with hop | ⟨-, hnone⟩
      · exact ⟨op, hop, he⟩
      · rw [hnone] at he
        cases he
  refine optimizeFor_spares (w := { w with context := c₁ })
    ⟨fun s p => Pass.simple_goes s p (inputs.map (·.var)) (ops ++ [.jump jumpArgs (.cell unit)]),
      fun s p => Pass.simple_sparing s p ..⟩ hmade hnew hanswer hrun rfl ?_
  intro result p hwalk hspares hrun
  dsimp only at hrun
  generalize hw₁ : afterPass { w with context := c₁ } p.shared = w₁ at hrun hspares
  have hlisted := hspares.makeEntry unit ((inputs.map (·.var)).map (·.kind)) (some unit)
  have hentry : w.context.entries.homes.length ≤ (w₁.context.entries.make unit
    ((inputs.map (·.var)).map (·.kind)) (some unit)).1.id := hspares.length_le
  rw [runFrom_bind, runFrom_makeEntry] at hrun
  dsimp only at hrun
  generalize (w₁.context.entries.make unit ((inputs.map (·.var)).map (·.kind)) (some unit)).1 =
    entry at hrun hentry
  generalize (w₁.context.entries.make unit ((inputs.map (·.var)).map (·.kind)) (some unit)).2 =
    entries at hrun hlisted
  cases hredirect : redirectJump? result.operations entry with
  | none =>
    rw [hredirect] at hrun
    cases hrun
    exact absurd rfl (hanswer.ne_fault _)
  | some code =>
    rw [hredirect] at hrun
    dsimp only at hrun
    rw [runFrom_bind, runFrom_newTrace] at hrun
    dsimp only at hrun
    rw [runFrom_bind, runFrom_modifyContext] at hrun
    refine submit_spares ?_ hnew rfl ?_ hanswer hrun
    · exact { hlisted.modifyUnit fun u => { u with entries := [entry] } with }
    · exact .cons (.label _ _ hentry)
        (redirectJump?_labelsFrom hredirect (labelsFrom_of_simple hwalk))

theorem compileLoop_spares (hw : w.context.registry.WellFormed) {start : Nat} {avoidUnroll : Bool}
    (hrun : runFrom (compileLoop key start inputs jumpArgs avoidUnroll) w = (answer, w'))
    (hanswer : NoCode answer) :
    Spares (w.session.history.operations.drop start) none w.context w'.context := by
  refine compileLoop_cases (Q := fun r => r = (answer, w') → _) (fun hrun => ?_)
    (fun _ hrun => compileSimpleLoop_spares hw hrun hanswer)
    (fun _ _ hrun => compileUnrolledLoop_spares hw hrun hanswer) hrun
  cases hrun
  exact .refl _ _

end Loops

section Bridges

variable {ops : List Operation} {resumeKey : ResumeKey} {w w' : Workbench} {c : Context}
  {session : Session}

private theorem submitting_spares {trace : Trace} {rest : JitM Submission Unit}
    (hrest : ∀ s e, (runFrom rest s).1 ≠ .error (.error e))
    (h : Spares ops none c w.context) (hw : w.context.registry.WellFormed)
    (hlabels : LabelsFrom c.entries.homes.length ops trace.operations) {e : JitError}
    (hrun : runFrom (submitting trace (Submission.attach session resumeKey >>= fun _ => rest)) w =
      (.error (.error e), w')) : Spares ops none c w'.context := by
  rw [runFrom_submitting] at hrun
  cases hattach : runFrom (Submission.attach session resumeKey >>= fun _ => rest)
      ⟨w.context, trace⟩ with
  | mk answer s' =>
    rw [hattach] at hrun
    cases hrun
    rcases runFrom_bind_eq_error.mp hattach with hattach | ⟨_, t, -, hrun⟩
    · exact attach_spares (s := ⟨w.context, trace⟩) resumeKey h hw hlabels hattach
    · exact absurd (congrArg Prod.fst hrun) (hrest t e)

private theorem submitting_ne_ok {trace : Trace} {rest : JitM Submission Unit}
    (hops : ∀ op ∈ trace.operations, op.isFinal = false) :
    (runFrom (submitting trace (Submission.attach session resumeKey >>= fun _ => rest)) w).1 ≠
      .ok () := by
  have hne := attach_ne_ok session resumeKey (s := ⟨w.context, trace⟩) hops
  rw [runFrom_submitting, runFrom_bind]
  generalize runFrom (Submission.attach session resumeKey) ⟨w.context, trace⟩ = r at hne
  obtain ⟨answer, t⟩ := r
  cases answer with
  | ok _ => exact absurd rfl hne
  | error e => simp

/-- The operation that ends the trace, if there is one, carries a descriptor. -/
def EndsDescribed (ops : List Operation) : Prop :=
  ∀ op, ops.find? (·.isFinal) = some op → op.descr ≠ none

instance (ops : List Operation) : Decidable (EndsDescribed ops) :=
  decidable_of_iff ((ops.find? (·.isFinal)).all (·.descr.isSome) = true) (by
    simp [EndsDescribed, Option.all_eq_true, Option.isSome_iff_ne_none])

private def AnswersCode (result : Optimized) : Prop :=
  result.operations.getLast?.bind (·.descr) = none → ∀ op ∈ result.operations, op.isFinal = false

private theorem answersCode_of_simple {s : PassSettings} {shared : OptState} {p : Pass}
    {inputs : List Var} {result : Optimized} (hops : EndsDescribed ops)
    (h : runFrom (Pass.simple s inputs ops) (.ofShared shared) = (.ok result, p)) :
    AnswersCode result := by
  obtain ⟨rfl, last, hrun⟩ := simple_eq_ok h
  intro hnone
  dsimp only at hnone ⊢
  cases hfind : ops.find? (·.isFinal) with
  | none =>
    rw [Option.map_none, Option.toList_none, List.append_nil]
    exact not_isFinal_of_run hrun (by simp [Pass.ofShared])
  | some op =>
    have hlast : (p.out ++ [p.forwarding.apply op]).getLast? = some (p.forwarding.apply op) := by
      simp
    rw [hfind, Option.map_some, Option.toList_some, hlast] at hnone
    exact absurd hnone (hops op hfind)

private theorem answersCode_of_bridge {s : PassSettings} {registry : Registry} {shared : OptState}
    {p : Pass} {inputs : List Var} {anyEntry : Bool} {result : Optimized}
    (h : runFrom (Pass.bridge s registry inputs ops anyEntry) (.ofShared shared) =
      (.ok result, p)) (hstate : result.state = none) : AnswersCode result := by
  obtain ⟨jump, -, -, hto⟩ := bridge_eq_ok h
  cases hto with
  | entered unit entry =>
    intro hnone
    simp at hnone
  | waiting => cases hstate

private theorem finish_spares {opts : OptSet} {result : Optimized}
    (h : Spares ops none c w.context) (hw : w.context.registry.WellFormed)
    (hlabels : LabelsFrom c.entries.homes.length ops result.operations)
    (hcode : result.state = none → AnswersCode result) {answer : Except Stop (Option Descr)}
    (hanswer : NoCode answer)
    (hrun : runFrom (finishTrace resumeKey opts result) w = (answer, w')) :
    Spares ops none c w'.context := by
  rw [finishTrace, runFrom_bind, runFrom_newTrace] at hrun
  dsimp only at hrun
  have hnamed : Spares ops none c { w.context with stats := w.context.stats.nameLoop.2 } :=
    { h with }
  split at hrun
  · rename_i hstate
    rw [runFrom_bind, runFrom_get] at hrun
    dsimp only at hrun
    rw [runFrom_bind] at hrun
    generalize hr : runFrom (submitting _ _) _ = r at hrun
    obtain ⟨answer₁, w₁⟩ := r
    rcases answer₁ with (e | f) | _
    · cases hrun
      exact submitting_spares (w := { w with context := _ }) record_ne_error hnamed hw
        hlabels hr
    · cases hrun
      exact absurd rfl (hanswer.ne_fault f)
    · simp only [runFrom_pure, Prod.mk.injEq] at hrun
      obtain ⟨rfl, rfl⟩ := hrun
      cases hlast : result.operations.getLast?.bind (·.descr) with
      | some d =>
        rw [hlast] at hanswer
        exact absurd rfl (hanswer.ne_some d)
      | none =>
        have hnot := submitting_ne_ok (w := { w with context := _ }) (hcode hstate hlast)
          (congrArg Prod.fst hr)
        exact hnot.elim
  · split at hrun
    · simp only [runFrom_bind, runFrom_modifyContext, runFrom_modifySession, runFrom_pure,
        Prod.mk.injEq] at hrun
      rw [← hrun.2]
      exact { hnamed with }
    · cases hrun
      exact hnamed

theorem compileTrace_spares (hw : w.context.registry.WellFormed)
    (hops : EndsDescribed w.session.history.operations) {answer : Except Stop (Option Descr)}
    (hrun : runFrom (compileTrace resumeKey) w = (answer, w')) (hanswer : NoCode answer) :
    Spares w.session.history.operations none w.context w'.context := by
  rw [runFrom_compileTrace] at hrun
  have hsparing (s : PassSettings) (p : Pass) :
      Goes (Pass.SparesGuards w.session.history.operations) (fun _ => False)
        (w.tracePass resumeKey s) p := by
    rw [tracePass]
    split
    · exact Pass.bridge_sparing s p ..
    · exact Pass.simple_sparing s p ..
  rcases optimize_spares ⟨tracePass_goes, hsparing⟩ (.refl _ _) hanswer hrun with
    ⟨w₁, hw₁, -, hrun⟩ | ⟨result, p, hpass, hp, hrun⟩
  · cases hrun
    exact hw₁
  · rw [tracePass] at hpass
    split at hpass
    · exact finish_spares hp hw (labelsFrom_of_bridge hpass) (answersCode_of_bridge hpass) hanswer
        hrun
    · exact finish_spares hp hw (labelsFrom_of_simple hpass)
        (fun _ => answersCode_of_simple hops hpass) hanswer hrun

theorem compileRetrace_spares (hw : w.context.registry.WellFormed) {key : GreenKey} {start : Nat}
    {inputs : List Var} {jumpArgs : List Arg} {answer : Except Stop (Option EntryPoint)}
    (hrun : runFrom (compileRetrace key start inputs jumpArgs resumeKey) w = (answer, w'))
    (hanswer : NoCode answer) :
    Spares (w.session.history.operations.drop start ++ w.session.waitingOperations) none w.context
      w'.context := by
  cases retraces_of_compileRetrace hrun with
  | noUnit _ hw' => exact hw' ▸ .refl _ _
  | nothing _ hw' => exact hw' ▸ .refl _ _
  | walks unit bridge state _ hwaiting hrun =>
    rcases optimize_spares (w := w.taken)
      ⟨fun s p => Pass.peeled_goes s p .., fun s p => Pass.peeled_sparing s p ..⟩
      (.refl _ _) hanswer hrun with ⟨w₁, hw₁, -, hrun⟩ | ⟨result, p, hpass, hp, hrun⟩
    · cases hrun
      exact hw₁.weaken (List.subset_append_left ..)
    · obtain ⟨header, q, r, hinto⟩ := peeled_eq_ok hpass
      dsimp only [Option.elim] at hrun
      rw [finishRetrace, hinto.isHeader] at hrun
      dsimp only at hrun
      rw [runFrom_bind, runFrom_get] at hrun
      dsimp only at hrun
      rw [runFrom_bind] at hrun
      generalize hr : runFrom (submitting _ _) _ = r' at hrun
      obtain ⟨answer₁, w₁⟩ := r'
      rcases answer₁ with (e | f) | _
      · cases hrun
        refine submitting_spares (fun s e => ?_) (hp.weaken (List.subset_append_left ..)) hw ?_ hr
        · rw [runFrom_bind, Submission.runFrom_modifyContext]
          exact record_ne_error _ e
        · -- the waiting trace, and the loop that it leads to
          have hwait : w.session.waitingOperations = bridge.operations := by
            rw [Session.waitingOperations, hwaiting]
            rfl
          have hbridge : LabelsFrom w.context.entries.homes.length
              (w.session.history.operations.drop start ++ w.session.waitingOperations)
              bridge.operations := by
            intro op hop e he
            exact .inr ⟨op, List.mem_append_right _ (hwait ▸ hop), he⟩
          have hcopies : Unlabelled header.copies := fun op hop => by
            rw [hinto.built.opcode_eq op hop]
            decide
          exact ((hbridge.append (.ofUnlabelled _ hcopies)).append
            (.label _ _ hinto.entry_le)).append
            ((hinto.labelsFrom fun heq => by cases heq).mono (List.subset_append_left ..))
      · cases hrun
        exact absurd rfl (hanswer.ne_fault f)
      · cases hrun
        exact absurd rfl (hanswer.ne_some _)

end Bridges

end Workbench

namespace Context

theorem compileCallback_spares {driver : Driver} {greens : List Arg} {reds : List Kind}
    {c c' : Context} (hc : c.registry.WellFormed) {e : JitError}
    (hrun : runFrom (compileCallback driver greens reds) c = (.error (.error e), c')) :
    Spares [] none c c' := by
  rw [compileCallback] at hrun
  split at hrun
  · cases hrun
  · rw [runFrom_bind, runFrom_get] at hrun
    dsimp only at hrun
    obtain ⟨hmade, hnew⟩ := (Spares.refl [] c).makeUnit hc driver
    generalize (c.makeUnit driver).1 = unit at hrun hmade hnew
    generalize (c.makeUnit driver).2 = c₁ at hrun hmade
    simp only [runFrom_bind, runFrom_set, runFrom_ofFault] at hrun
    cases hcode : callbackCode driver greens reds with
    | error f =>
      rw [hcode] at hrun
      cases hrun
    | ok code =>
      obtain ⟨inputs, ops⟩ := code
      rw [hcode] at hrun
      dsimp only at hrun
      cases hcompile : c₁.backend.compileLoop driver.id unit "tmp callback" inputs ops with
      | mk result backend =>
        rw [hcompile] at hrun
        cases result with
        | error e' =>
          cases hrun
          exact (hmade.refused (Backend.refused_of_compileLoop hcompile)).releaseUnit hnew
        | ok range => cases hrun

end Context

/-- A compile call with all that it is given but the context and the session. -/
inductive CompileCall where
  | loop (key : GreenKey) (start : Nat) (inputs : List InputArg) (jumpArgs : List Arg)
      (avoidUnroll : Bool)
  | simpleLoop (key : GreenKey) (inputs : List InputArg) (ops : List Operation)
      (jumpArgs : List Arg) (opts : OptSet)
  | trace (resumeKey : ResumeKey)
  | retrace (key : GreenKey) (start : Nat) (inputs : List Var) (jumpArgs : List Arg)
      (resumeKey : ResumeKey)
  | callback (driver : Driver) (greens : List Arg) (reds : List Kind)

namespace CompileCall

/-- Whether the call answers with code, and the context that it leaves. -/
def perform (call : CompileCall) (w : Workbench) : Except Stop Bool × Context :=
  match call with
  | loop key start inputs jumpArgs avoidUnroll =>
    let r := runFrom (Workbench.compileLoop key start inputs jumpArgs avoidUnroll) w
    (r.1.map Option.isSome, r.2.context)
  | simpleLoop key inputs ops jumpArgs opts =>
    let r := runFrom (Workbench.compileSimpleLoop key inputs ops jumpArgs opts) w
    (r.1.map Option.isSome, r.2.context)
  | trace resumeKey =>
    let r := runFrom (Workbench.compileTrace resumeKey) w
    (r.1.map Option.isSome, r.2.context)
  | retrace key start inputs jumpArgs resumeKey =>
    let r := runFrom (Workbench.compileRetrace key start inputs jumpArgs resumeKey) w
    (r.1.map Option.isSome, r.2.context)
  | callback driver greens reds =>
    let r := runFrom (Context.compileCallback driver greens reds) w.context
    (r.1.map fun _ => true, r.2)

/-- The recorded operations that the call is about. -/
def recorded (call : CompileCall) (session : Session) : List Operation :=
  match call with
  | loop _ start _ _ _ => session.history.operations.drop start
  | simpleLoop _ _ ops _ _ => ops
  | trace _ => session.history.operations
  | retrace _ start _ _ _ =>
    session.history.operations.drop start ++ session.waitingOperations
  | callback _ _ _ => []

/-- Does the call answer that there is no code, or end with an error? -/
def fails (call : CompileCall) (w : Workbench) : Bool :=
  match (call.perform w).1 with
  | .ok code => !code
  | .error (.error _) => true
  | .error (.fault _) => false

/-- Where the answer is the descriptor at the end of the code, there has to be one. -/
def EndsDescribed (call : CompileCall) (session : Session) : Prop :=
  match call with
  | trace _ => Workbench.EndsDescribed session.history.operations
  | _ => True

end CompileCall

namespace Context

/--
Nothing that can be met again has changed between `c` and `c'`: units, procedures, what units rely
on, what the collector keeps, submitted code, and guards and entry points but for those that the
operations `ops` name. Of a named guard the bridges and the unit are the same all the same.
-/
structure Untouched (ops : List Operation) (c c' : Context) : Prop where
  live : ∀ h, h ∈ c'.registry.liveHandles ↔ h ∈ c.registry.liveHandles
  units : ∀ h, c'.registry.get? h = c.registry.get? h
  procedures : ∀ driver key, c'.procedure? driver key = c.procedure? driver key
  dependents : ∀ field, c'.quasiImmut.of field = c.quasiImmut.of field
  collector : c'.collector = c.collector
  loops : c'.backend.loops = c.backend.loops
  bridges : c'.backend.bridges = c.backend.bridges
  freed : c'.backend.freed = c.backend.freed
  links : ∀ g : Guard, g.id < c.guards.records.length →
    (c'.guards.get g).bridges = (c.guards.get g).bridges ∧
      (c'.guards.get g).loop = (c.guards.get g).loop
  guards : ∀ g : Guard, g.id < c.guards.records.length → ¬ NamesGuard ops g →
    c'.guards.get g = c.guards.get g
  homes : ∀ e : EntryPoint, e.id < c.entries.homes.length →
    (∀ op ∈ ops, ∀ e', op.labels? = some e' → e'.id ≠ e.id) →
    c'.entries.home? e = c.entries.home? e

theorem Spares.untouched {ops : List Operation} {c c' : Context} (h : Spares ops none c c') :
    Untouched ops c c' := by
  have hunits (u : UnitHandle) : c'.registry.get? u = c.registry.get? u := h.units u (by simp)
  obtain ⟨reject, hbackend⟩ := h.backend
  exact {
    live := fun u => by simp only [Registry.mem_liveHandles, hunits]
    units := hunits
    procedures := fun driver key => by rw [procedure?, procedure?, warmState, warmState, h.warm]
    dependents := fun field => by rw [h.quasiImmut]
    collector := h.collector
    loops := by rw [hbackend]
    bridges := by rw [hbackend]
    freed := by rw [hbackend]
    links := h.guards.links
    guards := h.guards.others
    homes := h.homes }

end Context

namespace CompileCall

private theorem noCode_of_fails {α : Type} {answer : Except Stop (Option α)}
    (h : (match answer.map Option.isSome with
      | .ok code => !code
      | .error (.error _) => true
      | .error (.fault _) => false) = true) : NoCode answer := by
  match answer with
  | .ok none => exact .inl rfl
  | .ok (some a) => cases h
  | .error (.error e) => exact .inr ⟨e, rfl⟩
  | .error (.fault f) => cases h

/--
A compile call that fails leaves nothing behind. For the call that answers with the descriptor at
the end of the code it takes that the recorded trace ends with one.
-/
theorem untouched_of_fails (call : CompileCall) (w : Workbench)
    (hw : w.context.registry.WellFormed) (hends : call.EndsDescribed w.session)
    (hfails : call.fails w = true) :
    Context.Untouched (call.recorded w.session) w.context (call.perform w).2 := by
  refine Context.Spares.untouched ?_
  cases call with
  | loop => exact Workbench.compileLoop_spares hw rfl (noCode_of_fails hfails)
  | simpleLoop => exact Workbench.compileSimpleLoop_spares hw rfl (noCode_of_fails hfails)
  | trace => exact Workbench.compileTrace_spares hw hends rfl (noCode_of_fails hfails)
  | retrace => exact Workbench.compileRetrace_spares hw rfl (noCode_of_fails hfails)
  | callback driver greens reds =>
    cases hrun : runFrom (Context.compileCallback driver greens reds) w.context with
    | mk answer c' =>
      simp only [fails, perform, hrun] at hfails
      match answer with
      | .ok unit => cases hfails
      | .error (.fault f) => cases hfails
      | .error (.error e) =>
        simp only [perform, hrun, recorded]
        exact Context.compileCallback_spares hw hrun

/-- A loop with a guard, recorded from one input. -/
def guardedLoop : Session where
  driver := default
  history := {
    inputs := [⟨⟨0, .int⟩, .int 5⟩]
    operations := [
      { opcode := .guardTrue, args := [.var ⟨0, .int⟩], failArgs := some [some ⟨0, .int⟩] },
      { opcode := .intSub, args := [.var ⟨0, .int⟩, .int 1], result := some ⟨1, .int⟩ }]
    values := ⟨2⟩ }

/-- It is compiled with its first iteration peeled off. -/
def compileGuardedLoop : CompileCall :=
  .loop ⟨[]⟩ 0 guardedLoop.history.inputs [.var ⟨1, .int⟩] false

/-- A loop that is unrolled, and then refused by the backend. -/
theorem untouched_of_fails_refusedLoop :
    let c : Context := { Context.ofConfig { counterBits := 1 } with
      backend := { reject := some "no room" } }
    let w : Workbench := ⟨c, guardedLoop⟩
    c.registry.WellFormed ∧ compileGuardedLoop.fails w = true ∧
      Context.Untouched guardedLoop.history.operations c (compileGuardedLoop.perform w).2 := by
  intro c w
  have hfails : compileGuardedLoop.fails w = true := by decide +kernel
  exact ⟨Registry.wellFormed_empty, hfails,
    untouched_of_fails compileGuardedLoop w Registry.wellFormed_empty trivial hfails⟩

/-- A trace from the guard that leaves without saying how: there is code, but the answer is none. -/
theorem not_untouched_undescribedFinish :
    let c := (compileGuardedLoop.perform ⟨.ofConfig { counterBits := 1 }, guardedLoop⟩).2
    let session : Session := {
      driver := default
      history := {
        inputs := [⟨⟨0, .int⟩, .int 0⟩]
        operations := [{ opcode := .finish, args := [.var ⟨0, .int⟩] }]
        values := ⟨1⟩ }
      home := some ⟨0, 1⟩ }
    let call : CompileCall := .trace (.guard ⟨0, .guardTrue, .plain⟩)
    c.registry.isAlive ⟨0, 1⟩ = true ∧ call.fails ⟨c, session⟩ = true ∧
      ¬ Context.Untouched (call.recorded session) c (call.perform ⟨c, session⟩).2 := by
  intro c session call
  refine ⟨by decide +kernel, by decide +kernel, fun h => ?_⟩
  have hbridges : (call.perform ⟨c, session⟩).2.backend.bridges.length = 1 ∧
      c.backend.bridges.length = 0 := by
    decide +kernel
  rw [h.bridges] at hbridges
  omega

end CompileCall

end HotLoop
