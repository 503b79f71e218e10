import HotLoop.Proofs.Compile.Attempts
import HotLoop.Proofs.Compile.Bridge
import HotLoop.Proofs.Compile.Callback
import HotLoop.Proofs.Compile.Recording

/-!
# What compile calls submit

A compile call submits at most one trace. What is wanted of all submitted code has to be shown of
the traces that the calls put together out of what their passes answer, and of nothing else.
-/

namespace HotLoop

/-- What is wanted of submitted code. -/
structure CodeSpec where
  loop : List Var → List Operation → Prop
  bridge : List Var → List Operation → Prop
  /-- Is it wanted, too, that no call ends with the fault that code is inconsistent? -/
  blameless : Prop

def CodeSpec.Forbids (spec : CodeSpec) (e : Stop) : Prop := spec.blameless ∧ e.Inconsistent

theorem CodeSpec.not_forbids_error (spec : CodeSpec) (e : JitError) :
    ¬ spec.Forbids (.error e) :=
  fun h => Stop.not_inconsistent_error e h.2

variable {spec : CodeSpec}

section Adding

variable {σ : Type} (spec) (view : σ → Context)

/-- Between the two states no code has been submitted but such as is wanted. -/
structure Adds (s s' : σ) : Prop where
  loops : ∃ new, (view s').backend.loops = (view s).backend.loops ++ new ∧
    ∀ l ∈ new, spec.loop l.inputs l.operations
  bridges : ∃ new, (view s').backend.bridges = (view s).backend.bridges ++ new ∧
    ∀ b ∈ new, spec.bridge b.inputs b.operations

variable {spec} {view} {s s' s'' : σ}

theorem Adds.of_sameCode (h : (view s).backend.SameCode (view s').backend) : Adds spec view s s' :=
  ⟨⟨[], by simp [h.loops], by simp⟩, ⟨[], by simp [h.bridges], by simp⟩⟩

theorem Adds.of_backend (h : (view s').backend = (view s).backend) : Adds spec view s s' :=
  .of_sameCode (h ▸ .refl _)

theorem Adds.trans (h : Adds spec view s s') (h' : Adds spec view s' s'') :
    Adds spec view s s'' := by
  obtain ⟨loops, hloops, hnew⟩ := h.loops
  obtain ⟨loops', hloops', hnew'⟩ := h'.loops
  obtain ⟨bridges, hbridges, hbranch⟩ := h.bridges
  obtain ⟨bridges', hbridges', hbranch'⟩ := h'.bridges
  refine ⟨⟨loops ++ loops', by rw [hloops', hloops, List.append_assoc], fun l hl => ?_⟩,
    ⟨bridges ++ bridges', by rw [hbridges', hbridges, List.append_assoc], fun b hb => ?_⟩⟩
  · exact (List.mem_append.mp hl).elim (hnew l) (hnew' l)
  · exact (List.mem_append.mp hb).elim (hbranch b) (hbranch' b)

instance : Std.Refl (Adds spec view) := ⟨fun _ => .of_backend rfl⟩

instance : IsTrans σ (Adds spec view) := ⟨fun _ _ _ => .trans⟩

end Adding

/-- The trace consists of this code, with no replacement left to be made. -/
structure Trace.Carries (t : Trace) (inputs : List Var) (ops : List Operation)
    (values : ValueIds) : Prop where
  inputs : t.inputs = inputs
  operations : t.operations = ops
  values : t.values = values
  settled : t.forwarding = .empty

/-- Code that a call with the given driver may submit, as a loop or as a bridge. -/
structure Sendable (spec : CodeSpec) (driver : Driver) (inputs : List Var) (ops : List Operation)
    (values : ValueIds) : Prop where
  asLoop : ∀ t t' : Trace, t.Carries inputs ops values → ∀ address,
    t.loadVirtualizable driver address = .ok t' →
      spec.loop t'.inputs t'.operations ∧ (spec.blameless → t'.check = .ok ())
  asBridge : spec.bridge inputs ops ∧
    (spec.blameless → checkBranch (inputs.map (·.id)) ops = .ok ())

theorem Trace.forgetForwarding_of_empty {t : Trace} (h : t.forwarding = .empty) :
    t.forgetForwarding = t := by
  rw [forgetForwarding, h]
  exact if_pos rfl

namespace Submission

variable {s : Submission} {driver : Driver} {session : Session} {inputs : List Var}
  {ops : List Operation} {values : ValueIds}

abbrev Sound {α : Type} (spec : CodeSpec) (x : JitM Submission α) (s : Submission) : Prop :=
  Goes (Adds spec Submission.context) spec.Forbids x s

private theorem sendLoop_sound {key : Option GreenKey} {kind : String} {args : List InputArg}
    (hs : s.trace.Carries inputs ops values) (h : Sendable spec driver inputs ops values) :
    Sound spec (sendLoop key driver kind args) s := by
  have hsending := loopSending driver args key kind s
  unfold Sound Goes
  generalize runFrom (sendLoop key driver kind args) s = r at hsending
  obtain ⟨answer, s'⟩ := r
  dsimp only at hsending ⊢
  cases hsending with
  | sent trace unit number name code backend stats next hload _ _ hcompile _ =>
    obtain ⟨hloops, hbridges, -⟩ := Backend.compileLoop_eq_ok hcompile
    refine ⟨⟨⟨_, hloops, fun l hl => ?_⟩, [], hbridges.trans (List.append_nil _).symm, by simp⟩,
      by simp⟩
    rw [Trace.forgetForwarding_of_empty hs.settled] at hload
    rw [List.mem_singleton.mp hl]
    exact (h.asLoop _ _ hs _ hload).1
  | unsent e _ hunsent _ hblame =>
    refine ⟨.of_sameCode hunsent.code, ?_⟩
    rintro _ ⟨⟩ ⟨hspec, hyes⟩
    obtain ⟨trace, hload, hne⟩ := hblame hyes
    rw [Trace.forgetForwarding_of_empty hs.settled] at hload
    exact hne ((h.asLoop _ _ hs _ hload).2 hspec)

private theorem sendBridge_sound {guard : Guard} {home : UnitHandle}
    (hs : s.trace.Carries inputs ops values) (h : Sendable spec driver inputs ops values) :
    Sound spec (sendBridge guard home) s := by
  have hsending := bridgeSending guard home s
  unfold Sound Goes
  generalize runFrom (sendBridge guard home) s = r at hsending
  obtain ⟨answer, s'⟩ := r
  dsimp only at hsending ⊢
  cases hsending with
  | sent code backend stats hcompile _ =>
    obtain ⟨hloops, hbridges, -⟩ := Backend.compileBridge_eq_ok hcompile
    refine ⟨⟨⟨[], hloops.trans (List.append_nil _).symm, by simp⟩, _, hbridges, fun b hb => ?_⟩,
      by simp⟩
    rw [List.mem_singleton.mp hb, Trace.forgetForwarding_of_empty hs.settled, hs.inputs,
      hs.operations]
    exact h.asBridge.1
  | unsent e _ hunsent _ hblame =>
    refine ⟨.of_sameCode hunsent.code, ?_⟩
    rintro _ ⟨⟩ ⟨hspec, hyes⟩
    refine hblame hyes ?_
    rw [Trace.forgetForwarding_of_empty hs.settled, Trace.checkAsBranch, hs.inputs, hs.operations]
    exact h.asBridge.2 hspec

private theorem onError_sound {x : JitM Submission Unit} {change : Submission → Submission}
    (hx : Sound spec x s) (hchange : ∀ t, (change t).context.backend = t.context.backend) :
    Sound spec (x.onError change) s := by
  unfold Sound Goes at hx ⊢
  rw [runFrom_onError]
  generalize runFrom x s = r at hx
  obtain ⟨answer, t⟩ := r
  obtain ⟨hadds, hstop⟩ := hx
  rcases answer with (e | f) | _
  · refine ⟨hadds.trans (.of_backend (hchange t)), ?_⟩
    rintro _ ⟨⟩
    exact spec.not_forbids_error e
  · exact ⟨hadds, hstop⟩
  · exact ⟨hadds, hstop⟩

theorem record_sound (s : Submission) : Sound spec record s := by
  cases hhome : s.trace.home with
  | none =>
    have hrun : runFrom record s = (.error (.fault .neverAttached), s) := by
      simp only [record, runFrom_bind, runFrom_get, hhome, runFrom_throw]
    unfold Sound Goes
    rw [hrun]
    refine ⟨.of_backend rfl, ?_⟩
    rintro _ ⟨⟩
    simp [CodeSpec.Forbids, Stop.Inconsistent]
  | some home =>
    obtain ⟨hok, -, -, -, hbackend⟩ := record_of_home hhome
    refine ⟨.of_backend hbackend, fun e he => ?_⟩
    rw [hok] at he
    cases he

theorem sendNewLoop_sound {key : GreenKey} {args : List InputArg} {unit : UnitHandle}
    (hs : s.trace.Carries inputs ops values) (h : Sendable spec driver inputs ops values) :
    Sound spec (sendNewLoop key driver args unit) s := by
  have hsend : Sound spec (sendLoop (some key) driver "loop" args) s.propagate :=
    sendLoop_sound hs h
  refine .bind_of_eq (runFrom_modify _) (.of_backend rfl) ?_
  refine .bind (onError_sound hsend fun _ => rfl) fun _ t _ => ?_
  exact .bind (.modify (.of_backend rfl)) fun _ _ _ => record_sound _

theorem attach_sound (resumeKey : ResumeKey) (hs : s.trace.Carries inputs ops values)
    (h : Sendable spec session.driver inputs ops values) :
    Sound spec (attach session resumeKey) s := by
  have hhome (unit : UnitHandle) :
      ({ s.trace with home := some unit } : Trace).Carries inputs ops values :=
    { hs with }
  cases resumeKey with
  | guard guard =>
    refine .get_bind ?_
    cases session.home.filter s.context.registry.isAlive with
    | none => exact .throw (spec.not_forbids_error _)
    | some home =>
      refine .bind_of_eq (runFrom_modifyTrace _) (.of_backend rfl) ?_
      refine .bind_of_eq (runFrom_modify _) (.of_backend rfl) ?_
      exact .bind (sendBridge_sound (hhome home) h) fun _ _ _ => .modify (.of_backend rfl)
  | interpreter key =>
    refine .get_bind ?_
    refine .bind_of_eq (runFrom_modify _) (.of_backend rfl) ?_
    refine .bind_of_eq (runFrom_modify _) (.of_backend rfl) ?_
    refine .bind (onError_sound (sendLoop_sound (hhome _) h) fun _ => rfl) fun _ _ _ => ?_
    exact .modify (.of_backend rfl)

end Submission

namespace Workbench

variable {w w' : Workbench} {α β : Type} {opts : OptSet} {pass : PassSettings → PassM Pass α}
  {trace : Trace} {ops : List Operation} {values : ValueIds}

/-- What is submitted by a compile call is as wanted, and so is the end. -/
abbrev Sound (spec : CodeSpec) (x : CompileM α) (w : Workbench) : Prop :=
  Goes (Adds spec Workbench.context) spec.Forbids x w

theorem submitting_sound {x : JitM Submission α} (hx : Submission.Sound spec x ⟨w.context, trace⟩) :
    Sound spec (submitting trace x) w := by
  unfold Sound Goes
  rw [runFrom_submitting]
  exact ⟨⟨hx.1.loops, hx.1.bridges⟩, hx.2⟩

section Passes

variable {unit : UnitHandle} (hpass : ∀ s p, Goes Pass.Extends Rejection.Inconsistent (pass s) p)
  {next : Option α → CompileM β} (hnone : ∀ w', Sound spec (next none) w')
  (hsome : ∀ a p, runFrom (pass (w.settings opts)) (.ofShared w.shared) = (.ok a, p) →
    Sound spec (next (some a)) (w.afterPass p.shared))
include hpass

private theorem not_forbids_of_pass (f : Fault) (p : Pass)
    (h : runFrom (pass (w.settings opts)) (.ofShared w.shared) = (.error (.fault f), p)) :
    ¬ spec.Forbids (.fault f) := by
  rintro ⟨-, what, error, heq⟩
  cases heq
  exact (hpass (w.settings opts) (.ofShared w.shared)).2 _ (congrArg Prod.fst h) ⟨what, error, rfl⟩

include hnone hsome

theorem optimize_sound : Sound spec (optimize opts pass >>= next) w :=
  optimize_goes (fun _ _ => .of_backend) (not_forbids_of_pass hpass) hnone hsome

theorem optimizeFor_sound : Sound spec (optimizeFor unit opts pass >>= next) w :=
  optimizeFor_goes (fun _ _ => .of_backend) (not_forbids_of_pass hpass) hnone hsome

end Passes

section Steps

/-! Small changes of the context, which submit nothing and leave the session alone. -/

private theorem makeUnit_sound {next : UnitHandle → CompileM β}
    (h : ∀ unit w', w'.session = w.session → w'.shared = w.shared → Sound spec (next unit) w') :
    Sound spec (makeUnit >>= next) w :=
  .bind_of_eq runFrom_makeUnit (.of_backend rfl) (h _ _ rfl rfl)

private theorem makeEntry_sound {owner : UnitHandle} {kinds : List Kind} {home : Option UnitHandle}
    {next : EntryPoint → CompileM β} (h : ∀ entry w', entry.argKinds = kinds →
      w'.session = w.session → Sound spec (next entry) w') :
    Sound spec (makeEntry owner kinds home >>= next) w :=
  .bind_of_eq (runFrom_makeEntry ..) (.of_backend rfl) (h _ _ rfl rfl)

private theorem newTrace_sound {next : Trace → CompileM β} (h : ∀ name w', w'.session = w.session →
      Sound spec (next { name, values := w.session.history.values }) w') :
    Sound spec (newTrace >>= next) w :=
  .bind_of_eq runFrom_newTrace (.of_backend rfl) (h _ _ rfl)

private theorem modifyContext_sound {f : Context → Context} (hf : ∀ c, (f c).backend = c.backend)
    {next : Unit → CompileM β} (h : ∀ w', w'.session = w.session → Sound spec (next ()) w') :
    Sound spec (modifyContext f >>= next) w :=
  .bind_of_eq (runFrom_modifyContext f) (.of_backend (hf _)) (h _ rfl)

end Steps

section Loops

variable {key : GreenKey} {inputs : List InputArg} {jumpArgs : List Arg}

private theorem submitLoop_sound {driver : Driver} {unit : UnitHandle} {entry : EntryPoint}
    {vars : List Var} (ht : trace.Carries vars ops values)
    (h : Sendable spec driver vars ops values) :
    Sound spec (do
      submitting trace (Submission.sendNewLoop key driver inputs unit)
      return some entry) w :=
  .bind (submitting_sound (Submission.sendNewLoop_sound ht h)) fun _ _ _ => .pure _

/-- A loop that is walked once is submitted behind a label for its inputs. -/
theorem compileSimpleLoop_sound (h : ∀ (unit : UnitHandle) (entry : EntryPoint) (result : Optimized)
      (p : Pass) (code : List Operation), entry.argKinds = (inputs.map (·.var)).map (·.kind) →
      runFrom (Pass.simple (w.settings opts) (inputs.map (·.var))
        (ops ++ [.jump jumpArgs (.cell unit)])) (.ofShared w.shared) = (.ok result, p) →
      redirectJump? result.operations entry = some code →
      Sendable spec w.session.driver (inputs.map (·.var))
        (.label (inputs.map (·.var)) (.target entry) :: code) p.shared.values) :
    Sound spec (compileSimpleLoop key inputs ops jumpArgs opts) w := by
  refine .get_bind (makeUnit_sound fun unit w₁ hw₁ hshared => ?_)
  refine optimizeFor_sound (fun s p => Pass.simple_goes s p ..) (fun _ => .pure _)
    fun result p hwalk => ?_
  refine makeEntry_sound fun entry w₂ hentry hw₂ => ?_
  cases hredirect : redirectJump? result.operations entry with
  | none => exact .throw (by simp [CodeSpec.Forbids, Stop.Inconsistent])
  | some code =>
    refine newTrace_sound fun name w₃ hw₃ => ?_
    refine modifyContext_sound (fun _ => by rfl) fun w₄ hw₄ => ?_
    have hsettings : w₁.settings opts = w.settings opts := by rw [settings, settings, hw₁]
    rw [hshared, hsettings] at hwalk
    exact submitLoop_sound ⟨rfl, rfl, congrArg (·.history.values) hw₂, rfl⟩
      (h unit entry result p code hentry hwalk hredirect)

theorem compileUnrolledLoop_sound (h : ∀ (unit : UnitHandle) (entry : EntryPoint)
      (state : ExportedState) (preamble : List Operation) (shared : OptState) (result : Optimized)
      (header : LoopHeader) (p₁ p₂ : Pass),
      entry.argKinds = (inputs.map (·.var)).map (·.kind) →
      runFrom (Pass.preamble (w.settings opts) (inputs.map (·.var)) jumpArgs ops)
        (.ofShared w.shared) = (.ok (state, preamble), p₁) →
      shared.values = p₁.shared.values →
      runFrom (Pass.peeled (w.settings opts) (inputs.map (·.var)) (.jump jumpArgs (.cell unit)) ops
        state) (.ofShared shared) = (.ok result, p₂) →
      result.header = some header →
      Sendable spec w.session.driver (inputs.map (·.var))
        (.label (inputs.map (·.var)) (.target entry) ::
          (preamble ++ header.copies ++ [header.label] ++ result.operations)) p₂.shared.values) :
    Sound spec (compileUnrolledLoop key inputs ops jumpArgs opts) w := by
  refine .get_bind (makeUnit_sound fun unit w₁ hw₁ hshared => ?_)
  refine optimizeFor_sound (fun s p => Pass.preamble_goes s p ..) (fun _ => .pure _) ?_
  rintro ⟨state, preamble⟩ p₁ hpre
  refine optimizeFor_sound (fun s p => Pass.peeled_goes s p ..) (fun _ => .pure _)
    fun result p₂ hpeeled => ?_
  dsimp only
  cases hheader : result.header with
  | none => exact .throw (by simp [CodeSpec.Forbids, Stop.Inconsistent])
  | some header =>
    refine makeEntry_sound fun entry w₂ hentry hw₂ => newTrace_sound fun name w₃ hw₃ => ?_
    refine modifyContext_sound (fun _ => by rfl) fun w₄ hw₄ => ?_
    have hsettings : w₁.settings opts = w.settings opts := by rw [settings, settings, hw₁]
    have hsettings' : (w₁.afterPass p₁.shared).settings opts = w.settings opts := hsettings
    rw [hshared, hsettings] at hpre
    rw [hsettings'] at hpeeled
    exact submitLoop_sound ⟨rfl, rfl, congrArg (·.history.values) hw₂, rfl⟩
      (h unit entry state preamble _ result header p₁ p₂ hentry hpre rfl hpeeled hheader)

theorem redirectJump?_append {code : List Operation} {jump : Operation} {entry : EntryPoint}
    (hjump : jump.opcode = .jump) : redirectJump? (code ++ [jump]) entry =
      some (code ++ [{ jump with descr := some (.target entry) }]) := by
  simp [redirectJump?, hjump]

end Loops

section Bridges

variable {resumeKey : ResumeKey} {vars : List Var}

private theorem submitBridge_sound {session : Session} {rest : JitM Submission Unit}
    (ht : trace.Carries vars ops values) (h : Sendable spec session.driver vars ops values)
    (hrest : ∀ s, Submission.Sound spec rest s) :
    Sound spec (submitting trace (Submission.attach session resumeKey >>= fun _ => rest)) w :=
  submitting_sound (.bind (Submission.attach_sound resumeKey ht h) fun _ s _ => hrest s)

/-- A bridge that does not wait is submitted as its pass has left it. -/
theorem compileTrace_sound (h : ∀ result p, result.state = none →
      runFrom (w.tracePass resumeKey (w.settings w.enabled)) (.ofShared w.shared) =
        (.ok result, p) →
      Sendable spec w.session.driver result.inputs result.operations p.shared.values) :
    Sound spec (compileTrace resumeKey) w := by
  unfold Sound Goes
  rw [runFrom_compileTrace]
  refine optimize_sound tracePass_goes (fun _ => .pure _) fun result p hpass => ?_
  refine newTrace_sound fun name w₁ hw₁ => ?_
  cases hstate : result.state with
  | none =>
    refine .get_bind (.bind ?_ fun _ _ _ => .pure _)
    refine submitBridge_sound ⟨rfl, rfl, rfl, rfl⟩ ?_ Submission.record_sound
    rw [hw₁]
    exact h result p hstate hpass
  | some state =>
    dsimp only
    split
    · refine modifyContext_sound (fun _ => by rfl) fun w₂ _ => ?_
      exact .bind_of_eq (runFrom_modifySession _) (.of_backend rfl) (.pure _)
    · exact .pure _

/-- A bridge that waits is submitted with a loop of its own behind it. -/
theorem compileRetrace_sound {key : GreenKey} {start : Nat} {inputs : List Var}
    {jumpArgs : List Arg} (h : ∀ (unit : UnitHandle) (bridge : Trace) (state : ExportedState)
      (shared : OptState) (result : Optimized) (header : LoopHeader) (p : Pass),
      w.session.waiting = some (bridge, state) →
      shared.values = w.session.history.values →
      runFrom (Pass.peeled (w.settings w.enabled) inputs (.jump jumpArgs (.cell unit))
        (w.session.history.operations.drop start) state) (.ofShared shared) = (.ok result, p) →
      result.header = some header →
      bridge.forwarding = .empty ∧ Sendable spec w.session.driver bridge.inputs
        (bridge.operations ++ header.copies ++ [header.label] ++ result.operations)
        p.shared.values) :
    Sound spec (compileRetrace key start inputs jumpArgs resumeKey) w := by
  refine compileRetrace_goes (fun _ _ => .of_backend) (spec.not_forbids_error _)
    fun unit bridge state hwaiting => ?_
  refine optimize_sound (fun s p => Pass.peeled_goes s p ..) (fun _ => .pure _)
    fun result p hpeeled => ?_
  dsimp only [Option.elim]
  unfold finishRetrace
  cases hheader : result.header with
  | none => exact .throw (by simp [CodeSpec.Forbids, Stop.Inconsistent])
  | some header =>
    obtain ⟨hsettled, hsend⟩ := h unit bridge state _ result header p hwaiting rfl hpeeled hheader
    refine .get_bind (.bind (submitBridge_sound ⟨rfl, rfl, rfl, hsettled⟩ hsend fun s => ?_)
      fun _ _ _ => .pure _)
    exact .bind (.modify (.of_backend rfl)) fun _ _ _ => Submission.record_sound _

section Waiting

variable {closing : Operation}

/-- What the pass over a bridge's history makes of it, with the walk over its operations. -/
theorem exists_walk_of_tracePass {settings : PassSettings} {shared : OptState}
    {result : Optimized} {p : Pass} (hrecorded : w.session.history.operations = ops ++ [closing])
    (hops : ∀ op ∈ ops, op.isFinal = false) (hclosing : closing.isFinal = true)
    (hpass : runFrom (w.tracePass resumeKey settings) (.ofShared shared) = (.ok result, p)) :
    runFrom (Pass.run settings ops) (.ofShared shared) = (.ok none, p) ∧
      result.inputs = w.session.history.inputVars ∧
      ((∃ descr, result.state = none ∧
        result.operations = p.out ++ [{ p.forwarding.apply closing with descr }] ∧
        (descr = closing.descr ∨ ∃ entry, descr = some (.target entry) ∧
          entry.argKinds = (closing.args.map p.forwarding.resolve).map Arg.kind)) ∨
      ∃ state, result.state = some state ∧ result.operations = p.out ∧ closing.opcode = .jump ∧
        state.endArgs = closing.args.map p.forwarding.resolve) := by
  rw [tracePass, hrecorded] at hpass
  split at hpass
  · rename_i hjump
    rw [History.endsWithJump, hrecorded, List.getLast?_concat] at hjump
    obtain ⟨hrun, ⟨entry, hkinds, rfl⟩ | rfl⟩ := bridge_append_eq_ok hops hclosing hpass
    · exact ⟨hrun, rfl, .inl ⟨_, rfl, rfl, .inr ⟨entry, rfl, hkinds⟩⟩⟩
    · exact ⟨hrun, rfl, .inr ⟨_, rfl, rfl, of_decide_eq_true hjump, rfl⟩⟩
  · obtain ⟨hrun, rfl⟩ := simple_append_eq_ok hops hclosing hpass
    exact ⟨hrun, rfl, .inl ⟨closing.descr, rfl, rfl, .inl rfl⟩⟩

/-- What waits in a session has been left by the call that has compiled the bridge. -/
def LeavesWaiting (w : Workbench) (resumeKey : ResumeKey) (session : Session) : Prop :=
  w.session.waiting = none ∧
    session.waiting = (runFrom (compileTrace resumeKey) w).2.session.waiting ∧
    (runFrom (compileTrace resumeKey) w).2.session.history.values.next ≤ session.history.values.next

private theorem waiting_of_finishTrace {result : Optimized} {waiting : Trace × ExportedState}
    (hnone : w.session.waiting = none)
    (hwaiting : (runFrom (finishTrace resumeKey opts result) w).2.session.waiting = some waiting) :
    result.state = some waiting.2 ∧
      (waiting.1.inputs = result.inputs ∧ waiting.1.operations = result.operations ∧
        waiting.1.deps = result.deps ∧ waiting.1.forwarding = .empty) ∧
      (runFrom (finishTrace resumeKey opts result) w).2.session.history = w.session.history := by
  simp only [finishTrace, runFrom_bind, runFrom_newTrace] at hwaiting ⊢
  cases hstate : result.state with
  | none =>
    exfalso
    simp only [hstate, runFrom_bind, runFrom_get, runFrom_submitting] at hwaiting
    split at hwaiting
    · simp [hnone] at hwaiting
    · simp [hnone] at hwaiting
  | some state =>
    simp only [hstate] at hwaiting ⊢
    split at hwaiting
    · rename_i hunroll
      simp only [runFrom_bind, runFrom_modifyContext, runFrom_modifySession, runFrom_pure,
        if_pos hunroll] at hwaiting ⊢
      cases hwaiting
      exact ⟨rfl, ⟨rfl, rfl, rfl, rfl⟩, trivial⟩
    · simp [hnone] at hwaiting

theorem exists_pass_of_waiting {waiting : Trace × ExportedState} (hnone : w.session.waiting = none)
    (hwaiting : (runFrom (compileTrace resumeKey) w).2.session.waiting = some waiting) :
    ∃ result p, runFrom (w.tracePass resumeKey (w.settings w.enabled)) (.ofShared w.shared) =
        (.ok result, p) ∧ result.state = some waiting.2 ∧
      (waiting.1.inputs = result.inputs ∧ waiting.1.operations = result.operations ∧
        waiting.1.deps = result.deps ∧ waiting.1.forwarding = .empty) ∧
      (runFrom (compileTrace resumeKey) w).2.session.history.values = p.shared.values := by
  rw [runFrom_compileTrace, runFrom_bind, runFrom_optimize] at hwaiting ⊢
  generalize runFrom (w.tracePass resumeKey (w.settings w.enabled)) (.ofShared w.shared) = r
    at hwaiting ⊢
  obtain ⟨answer, p⟩ := r
  rcases answer with (why | f) | result
  · exact absurd (hwaiting.symm.trans hnone) (by simp)
  · exact absurd (hwaiting.symm.trans hnone) (by simp)
  · obtain ⟨hstate, htrace, hhistory⟩ :=
      waiting_of_finishTrace (w := w.afterPass p.shared) hnone hwaiting
    exact ⟨result, p, rfl, hstate, htrace, congrArg (·.values) hhistory⟩

theorem exists_walk_of_leavesWaiting {session : Session} {bridge : Trace} {state : ExportedState}
    (hrecorded : w.session.history.operations = ops ++ [closing])
    (hops : ∀ op ∈ ops, op.isFinal = false) (hclosing : closing.isFinal = true)
    (hleaves : w.LeavesWaiting resumeKey session)
    (hwaiting : session.waiting = some (bridge, state)) :
    ∃ p, runFrom (Pass.run (w.settings w.enabled) ops) (.ofShared w.shared) = (.ok none, p) ∧
      bridge.inputs = w.session.history.inputVars ∧ bridge.operations = p.out ∧
      bridge.forwarding = .empty ∧ closing.opcode = .jump ∧
      state.endArgs = closing.args.map p.forwarding.resolve ∧
      p.shared.values.next ≤ session.history.values.next := by
  obtain ⟨hnone, hsame, hle⟩ := hleaves
  obtain ⟨result, p, hpass, hstate, ⟨hinputs, hout, -, hforwarding⟩, hvalues⟩ :=
    exists_pass_of_waiting hnone (hsame.symm.trans hwaiting)
  obtain ⟨hrun, hinputs', hresult⟩ := exists_walk_of_tracePass hrecorded hops hclosing hpass
  obtain ⟨descr, hstate', -⟩ | ⟨state', hstate', hout', hjump, hend⟩ := hresult
  · cases hstate.symm.trans hstate'
  · cases hstate.symm.trans hstate'
    exact ⟨p, hrun, hinputs.trans hinputs', hout.trans hout', hforwarding, hjump, hend,
      hvalues ▸ hle⟩

end Waiting

end Bridges

end Workbench

theorem Context.compileCallback_sound {c : Context} {driver : Driver} {greens : List Arg}
    {reds : List Kind} (h : ∀ inputs ops, callbackCode driver greens reds = .ok (inputs, ops) →
      spec.loop inputs ops) :
    Goes (Adds spec id) spec.Forbids (compileCallback driver greens reds) c := by
  rw [compileCallback]
  split
  · refine .throw_bind ?_
    simp [CodeSpec.Forbids, Stop.Inconsistent]
  · refine .get_bind ?_
    have hbackend : (c.makeUnit driver).2.backend = c.backend := rfl
    generalize c.makeUnit driver = made at hbackend ⊢
    obtain ⟨unit, c₁⟩ := made
    refine .bind_of_eq (runFrom_set c₁) (.of_backend hbackend) ?_
    cases hcode : callbackCode driver greens reds with
    | error f =>
      refine .throw_bind ?_
      rw [eq_of_callbackCode_eq_error hcode]
      simp [CodeSpec.Forbids, Stop.Inconsistent]
    | ok code =>
      obtain ⟨inputs, ops⟩ := code
      refine .bind_of_eq (t := c₁) rfl (.of_backend rfl) ?_
      dsimp only
      cases hcompile : c₁.backend.compileLoop driver.id unit "tmp callback" inputs ops with
      | mk result backend =>
        cases result with
        | error e =>
          refine .bind (.set (.of_sameCode (Backend.compileLoop_eq_error hcompile))) fun _ _ _ => ?_
          exact .throw (spec.not_forbids_error e)
        | ok range =>
          obtain ⟨hloops, hbridges, -⟩ := Backend.compileLoop_eq_ok hcompile
          refine .bind (.set ⟨⟨_, hloops, fun l hl => ?_⟩, [], ?_, by simp⟩) fun _ _ _ => .pure _
          · rw [List.mem_singleton.mp hl]
            exact h inputs ops hcode
          · exact hbridges.trans (List.append_nil _).symm

end HotLoop
