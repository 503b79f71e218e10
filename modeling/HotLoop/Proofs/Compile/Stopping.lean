import HotLoop.Proofs.Compile.Delivery

/-!
# Calls that stop

A compile call may stop in many places, with an error or with a fault. All of them lie in front of
the place where its code is with the backend: what comes behind that cannot stop. So a call that has
stopped has sent no code, and it has registered no unit with a field.
-/

namespace HotLoop

section Rules

variable {ε σ α β : Type} {R : σ → σ → Prop} {P : ε → Prop} {s t : σ} {a : α}
  {x : ExceptT ε (StateM σ) α} {f : α → ExceptT ε (StateM σ) β}

/-- Where the computation stops that starts at `s`, if it does, the state is related to `s`. -/
def Stops (R : σ → σ → Prop) (x : ExceptT ε (StateM σ) α) (s : σ) : Prop :=
  ∀ e t, runFrom x s = (.error e, t) → R s t

namespace Stops

theorem of_ok (h : ∃ a, (runFrom x s).1 = .ok a) : Stops R x s := by
  intro e t hrun
  obtain ⟨a, ha⟩ := h
  rw [hrun] at ha
  cases ha

theorem bind [IsTrans σ R] (hx : Goes R P x s)
    (hf : ∀ a t, runFrom x s = (.ok a, t) → Stops R (f a) t) : Stops R (x >>= f) s := by
  have hR := hx.1
  intro e u hrun
  rcases runFrom_bind_eq_error.mp hrun with hrun | ⟨a, t, hok, hrun⟩
  · rwa [hrun] at hR
  · rw [hok] at hR
    exact IsTrans.trans _ _ _ hR (hf a t hok e u hrun)

theorem bind_of_eq [IsTrans σ R] (hx : runFrom x s = (.ok a, t)) (hR : R s t)
    (hf : Stops R (f a) t) : Stops R (x >>= f) s := by
  intro e u hrun
  rw [runFrom_bind, hx] at hrun
  exact IsTrans.trans _ _ _ hR (hf e u hrun)

theorem bind_last (hx : Stops R x s)
    (hf : ∀ a t, runFrom x s = (.ok a, t) → ∃ b, (runFrom (f a) t).1 = .ok b) :
    Stops R (x >>= f) s := by
  intro e u hrun
  rcases runFrom_bind_eq_error.mp hrun with hrun | ⟨a, t, hok, hrun⟩
  · exact hx e u hrun
  · obtain ⟨b, hb⟩ := hf a t hok
    rw [hrun] at hb
    cases hb

theorem get_bind {f : σ → ExceptT ε (StateM σ) β} (hf : Stops R (f s) s) :
    Stops R (MonadState.get >>= f) s := hf

theorem pure (a : α) : Stops R (Pure.pure a : ExceptT ε (StateM σ) α) s := .of_ok ⟨a, rfl⟩

theorem throw [Std.Refl R] (e : ε) :
    Stops R (MonadExcept.throw e : ExceptT ε (StateM σ) α) s := by
  intro e' t hrun
  cases hrun
  exact Std.Refl.refl s

end Stops

end Rules

section Silence

variable {σ : Type} (view : σ → Context)

/-- Between the two states no code has been sent, and no unit has been registered with a field. -/
structure Silent (s s' : σ) : Prop where
  code : (view s).backend.SameCode (view s').backend
  quasiImmut : (view s').quasiImmut = (view s).quasiImmut

instance : Std.Refl (Silent view) := ⟨fun _ => ⟨.refl _, rfl⟩⟩

instance : IsTrans σ (Silent view) :=
  ⟨fun _ _ _ h h' => ⟨h.code.trans h'.code, h'.quasiImmut.trans h.quasiImmut⟩⟩

end Silence

namespace Submission

variable {s s' : Submission} {driver : Driver} {inputs : List InputArg} {session : Session}

private abbrev StopsSilently {α : Type} (x : JitM Submission α) (s : Submission) : Prop :=
  Stops (Silent Submission.context) x s

private theorem sendLoop_stops (key : Option GreenKey) (kind : String) :
    StopsSilently (sendLoop key driver kind inputs) s := by
  intro e t hrun
  have hsending := loopSending driver inputs key kind s
  rw [hrun] at hsending
  cases hsending with
  | unsent _ _ h _ _ => exact ⟨h.code, h.quasiImmut⟩

private theorem sendBridge_stops (guard : Guard) (home : UnitHandle) :
    StopsSilently (sendBridge guard home) s := by
  intro e t hrun
  have hsending := bridgeSending guard home s
  rw [hrun] at hsending
  cases hsending with
  | unsent _ _ h _ _ => exact ⟨h.code, h.quasiImmut⟩

private theorem home_of_sendLoop {key : Option GreenKey} {kind : String}
    (h : runFrom (sendLoop key driver kind inputs) s = (.ok (), s')) :
    ∃ home, s'.trace.home = some home := by
  obtain ⟨loop, hsends⟩ := sendLoop_eq_ok h
  obtain ⟨trace, hload, -, hloaded⟩ := hsends.loaded
  refine ⟨loop.unit, ?_⟩
  rw [hloaded, ← hsends.home.1]
  exact (Trace.loadVirtualizable_eq_ok hload).1.1.trans (Trace.home_forgetForwarding _)

section Launching

variable {key : Option GreenKey} {kind : String} {unit : UnitHandle}

private theorem launch_stops :
    StopsSilently ((sendLoop key driver kind inputs).onError fun s =>
      { s with context := s.context.releaseUnit unit }) s := by
  intro e t hrun
  have hsend : StopsSilently (sendLoop key driver kind inputs) s := sendLoop_stops key kind
  unfold StopsSilently Stops at hsend
  rw [runFrom_onError] at hrun
  generalize runFrom (sendLoop key driver kind inputs) s = r at hrun hsend
  obtain ⟨answer, u⟩ := r
  rcases answer with (e' | f) | _
  · cases hrun
    obtain ⟨hcode, hfields⟩ := hsend _ _ rfl
    exact ⟨⟨hcode.loops, hcode.bridges, hcode.freed⟩, hfields⟩
  · cases hrun
    exact hsend _ _ rfl
  · cases hrun

theorem home_of_launch
    (h : runFrom ((sendLoop key driver kind inputs).onError fun s =>
      { s with context := s.context.releaseUnit unit }) s = (.ok (), s')) :
    ∃ home, s'.trace.home = some home := by
  rw [runFrom_onError] at h
  cases hsend : runFrom (sendLoop key driver kind inputs) s with
  | mk answer u =>
    rw [hsend] at h
    rcases answer with (e | f) | _
    · cases h
    · cases h
    · cases h
      exact home_of_sendLoop hsend

end Launching

theorem record_succeeds (h : ∃ home, s.trace.home = some home) :
    ∃ u, (runFrom record s).1 = .ok u :=
  ⟨(), (record_of_home h.choose_spec).1⟩

theorem sendNewLoop_stops (key : GreenKey) (unit : UnitHandle) :
    Stops (Silent Submission.context) (sendNewLoop key driver inputs unit) s := by
  refine .bind_of_eq (runFrom_modify _) ⟨.refl _, rfl⟩ (.bind_last launch_stops ?_)
  intro _ t hlaunch
  have hhome := home_of_launch hlaunch
  rw [runFrom_bind, runFrom_modifyContext]
  exact record_succeeds hhome

private theorem attach_stops (session : Session) (resumeKey : ResumeKey) :
    StopsSilently (attach session resumeKey) s := by
  have hlast {f : Context → Context} (t : Submission) :
      ∃ u, (runFrom (modifyContext f) t).1 = .ok u := ⟨(), rfl⟩
  cases resumeKey with
  | guard guard =>
    refine .get_bind ?_
    cases session.home.filter s.context.registry.isAlive with
    | none => exact .throw _
    | some home =>
      refine .bind_of_eq (runFrom_modifyTrace _) ⟨.refl _, rfl⟩ ?_
      refine .bind_of_eq (runFrom_modify _) ⟨.refl _, rfl⟩ ?_
      exact .bind_last (sendBridge_stops guard home) fun _ t _ => hlast t
  | interpreter key =>
    refine .get_bind (.bind_of_eq (runFrom_modify _) ⟨.refl _, rfl⟩ ?_)
    refine .bind_of_eq (runFrom_modify _) ⟨.refl _, rfl⟩ ?_
    exact .bind_last launch_stops fun _ t _ => hlast t

theorem home_of_attach {resumeKey : ResumeKey}
    (h : runFrom (attach session resumeKey) s = (.ok (), s')) :
    ∃ home, s'.trace.home = some home := by
  cases resumeKey with
  | guard guard =>
    simp only [attach, attachToGuard, runFrom_bind, runFrom_get] at h
    split at h
    · rename_i home _
      simp only [runFrom_bind, runFrom_modifyTrace, runFrom_modify] at h
      split at h
      · rename_i hok
        cases h
        generalize hq : propagate { s with trace := { s.trace with home := some home } } = q
          at hok ⊢
        have htrace : q.trace = { s.trace with home := some home } := by rw [← hq]; rfl
        generalize hsend : runFrom (sendBridge guard home) q = r at hok ⊢
        obtain ⟨answer, u⟩ := r
        cases hok
        obtain ⟨bridge, -, -, hsends⟩ := sendBridge_eq_ok hsend
        exact ⟨home, by rw [hsends.trace, Trace.home_forgetForwarding, htrace]⟩
      · cases h
    · cases h
  | interpreter key =>
    simp only [attach, attachToInterpreter, runFrom_bind_eq_ok, runFrom_get, runFrom_modify,
      Prod.mk.injEq, Except.ok.injEq] at h
    obtain ⟨_, _, ⟨rfl, rfl⟩, _, _, ⟨-, rfl⟩, _, _, ⟨-, rfl⟩, _, u, hlaunch, h⟩ := h
    have hhome := home_of_launch hlaunch
    cases h
    exact hhome

theorem attach_record_stops {resumeKey : ResumeKey} (between : JitM Submission Unit)
    (hbetween : ∀ t, ∃ context, runFrom between t = (.ok (), { t with context })) :
    Stops (Silent Submission.context) (do attach session resumeKey; between; record) s := by
  refine .bind_last (attach_stops session resumeKey) fun _ t hattach => ?_
  have hhome := home_of_attach hattach
  obtain ⟨context, heq⟩ := hbetween t
  rw [runFrom_bind, heq]
  exact record_succeeds hhome

end Submission

namespace Workbench

variable {w : Workbench} {α β : Type} {opts : OptSet} {pass : PassSettings → PassM Pass α}
  {trace : Trace} {ops : List Operation}

private abbrev StopsSilently {α : Type} (x : CompileM α) (w : Workbench) : Prop :=
  Stops (Silent Workbench.context) x w

private theorem submitting_stops {x : JitM Submission α} {b : β}
    (hx : Stops (Silent Submission.context) x ⟨w.context, trace⟩) :
    StopsSilently (do let _ ← submitting trace x; return b) w := by
  refine .bind_last (fun e t hrun => ?_) fun _ _ _ => ⟨b, rfl⟩
  rw [runFrom_submitting] at hrun
  obtain ⟨hstop, rfl⟩ := Prod.mk.inj hrun
  obtain ⟨hcode, hfields⟩ := hx e _ (Prod.ext hstop rfl)
  exact ⟨hcode, hfields⟩

private theorem optimize_silent (opts : OptSet) (pass : PassSettings → PassM Pass α)
    (w : Workbench) : Goes (Silent Workbench.context) (fun _ => False) (optimize opts pass) w := by
  refine ⟨?_, fun _ _ => id⟩
  rw [runFrom_optimize]
  generalize runFrom (pass (w.settings opts)) (.ofShared w.shared) = r
  obtain ⟨answer, p⟩ := r
  rcases answer with (why | f) | a
  · exact ⟨.refl _, rfl⟩
  · exact ⟨.refl _, rfl⟩
  · exact ⟨.refl _, rfl⟩

private theorem optimizeFor_silent (unit : UnitHandle) (opts : OptSet)
    (pass : PassSettings → PassM Pass α) (w : Workbench) :
    Goes (Silent Workbench.context) (fun _ => False) (optimizeFor unit opts pass) w := by
  refine .bind (optimize_silent opts pass w) fun result w' _ => ?_
  cases result with
  | none => exact .bind (.modify ⟨.refl _, rfl⟩) fun _ _ _ => .pure _
  | some a => exact .pure _

section Loops

variable {key : GreenKey} {inputs : List InputArg} {jumpArgs : List Arg}

theorem compileSimpleLoop_stops :
    Stops (Silent Workbench.context) (compileSimpleLoop key inputs ops jumpArgs opts) w := by
  refine .get_bind (.bind_of_eq runFrom_makeUnit ⟨.refl _, rfl⟩ ?_)
  refine .bind (optimizeFor_silent _ opts _ _) fun result w' _ => ?_
  cases result with
  | none => exact .pure _
  | some result =>
    refine .bind_of_eq (runFrom_makeEntry ..) ⟨.refl _, rfl⟩ ?_
    dsimp only
    split
    · refine .bind_of_eq runFrom_newTrace ⟨.refl _, rfl⟩ ?_
      refine .bind_of_eq (runFrom_modifyContext _) ⟨.refl _, rfl⟩ ?_
      exact submitting_stops (Submission.sendNewLoop_stops key _)
    · exact .throw _

theorem compileUnrolledLoop_stops :
    Stops (Silent Workbench.context) (compileUnrolledLoop key inputs ops jumpArgs opts) w := by
  refine .get_bind (.bind_of_eq runFrom_makeUnit ⟨.refl _, rfl⟩ ?_)
  refine .bind (optimizeFor_silent _ opts _ _) fun first w' _ => ?_
  cases first with
  | none => exact .pure _
  | some first =>
    refine .bind (optimizeFor_silent _ opts _ _) fun result w' _ => ?_
    cases result with
    | none => exact .pure _
    | some result =>
      dsimp only
      split
      · refine .bind_of_eq (runFrom_makeEntry ..) ⟨.refl _, rfl⟩ ?_
        refine .bind_of_eq runFrom_newTrace ⟨.refl _, rfl⟩ ?_
        refine .bind_of_eq (runFrom_modifyContext _) ⟨.refl _, rfl⟩ ?_
        exact submitting_stops (Submission.sendNewLoop_stops key _)
      · exact .throw _

theorem compileLoop_stops {start : Nat} {avoidUnroll : Bool} :
    Stops (Silent Workbench.context) (compileLoop key start inputs jumpArgs avoidUnroll) w :=
  fun e w' => compileLoop_cases (Q := fun r => r = (.error e, w') → _) nofun
    (fun _ => compileSimpleLoop_stops e w') fun _ _ => compileUnrolledLoop_stops e w'

end Loops

section Bridges

variable {resumeKey : ResumeKey}

theorem compileTrace_stops : Stops (Silent Workbench.context) (compileTrace resumeKey) w := by
  unfold Stops
  rw [runFrom_compileTrace]
  refine Stops.bind (optimize_silent _ _ w) fun result w' _ => ?_
  cases result with
  | none => exact .pure _
  | some result =>
    refine .bind_of_eq runFrom_newTrace ⟨.refl _, rfl⟩ ?_
    split
    · refine .get_bind (submitting_stops ?_)
      exact Submission.attach_record_stops (Pure.pure ()) fun t => ⟨t.context, rfl⟩
    · split
      · exact .of_ok ⟨_, rfl⟩
      · exact .pure _

theorem compileRetrace_stops {key : GreenKey} {start : Nat} {inputs : List Var}
    {jumpArgs : List Arg} :
    Stops (Silent Workbench.context) (compileRetrace key start inputs jumpArgs resumeKey) w := by
  intro e w' h
  cases retraces_of_compileRetrace h with
  | noUnit _ hw => exact hw ▸ ⟨.refl _, rfl⟩
  | nothing hanswer => cases hanswer
  | walks unit bridge state _ _ hrun =>
    have hwalk : StopsSilently (w.walkRetrace start inputs jumpArgs resumeKey unit bridge state)
        w.taken := by
      refine .bind (optimize_silent _ _ _) fun result w' _ => ?_
      cases result with
      | none => exact .pure _
      | some result =>
        dsimp only [Option.elim]
        unfold finishRetrace
        split
        · refine .get_bind (submitting_stops ?_)
          exact Submission.attach_record_stops _ fun _ => ⟨_, Submission.runFrom_modifyContext _⟩
        · exact .throw _
    exact IsTrans.trans _ w.taken _ ⟨.refl _, rfl⟩ (hwalk e w' hrun)

end Bridges

end Workbench

theorem Context.compileCallback_stops {c : Context} {driver : Driver} {greens : List Arg}
    {reds : List Kind} : Stops (Silent id) (compileCallback driver greens reds) c := by
  rw [compileCallback]
  split
  · exact .throw _
  · refine .get_bind ?_
    have hmade : Silent id c (c.makeUnit driver).2 := ⟨.refl _, rfl⟩
    generalize c.makeUnit driver = made at hmade ⊢
    obtain ⟨unit, d⟩ := made
    refine .bind_of_eq (runFrom_set d) hmade ?_
    cases callbackCode driver greens reds with
    | error f =>
      intro e t hrun
      cases hrun
      exact ⟨.refl _, rfl⟩
    | ok code =>
      refine .bind_of_eq (t := d) rfl ⟨.refl _, rfl⟩ ?_
      dsimp only
      split
      · rename_i hcompile
        refine .bind_of_eq (runFrom_set _) ⟨?_, rfl⟩ (.throw _)
        exact Backend.compileLoop_eq_error (Prod.ext hcompile rfl)
      · exact .of_ok ⟨_, rfl⟩

end HotLoop
