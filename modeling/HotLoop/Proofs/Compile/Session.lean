import HotLoop.Proofs.Compile.Outcome

/-!
# The steps of a compile call

A pass that is run from within a session changes nothing about units or code, whether it succeeds or
not. The other steps of a compile call are small changes of the context, or submissions of a trace.
-/

namespace HotLoop.Workbench

variable {w w' : Workbench} {opts : OptSet} {α : Type} {pass : PassSettings → PassM Pass α}

theorem runFrom_opts :
    runFrom Workbench.opts w = (.ok (w.context.warmState w.session.driver).opts, w) := rfl

theorem runFrom_makeUnit : runFrom makeUnit w =
    (.ok (w.context.makeUnit w.session.driver).1,
      { w with context := (w.context.makeUnit w.session.driver).2 }) := rfl

theorem runFrom_makeEntry (owner : UnitHandle) (kinds : List Kind) (home : Option UnitHandle) :
    runFrom (makeEntry owner kinds home) w =
      (.ok (w.context.entries.make owner kinds home).1, { w with context := { w.context with
        entries := (w.context.entries.make owner kinds home).2 } }) := rfl

theorem runFrom_newTrace : runFrom newTrace w =
    (.ok { name := w.context.stats.nameLoop.1, values := w.session.history.values },
      { w with context := { w.context with stats := w.context.stats.nameLoop.2 } }) := rfl

theorem runFrom_modifyContext (f : Context → Context) :
    runFrom (modifyContext f) w = (.ok (), { w with context := f w.context }) := rfl

theorem runFrom_modifySession (f : Session → Session) :
    runFrom (modifySession f) w = (.ok (), { w with session := f w.session }) := rfl

theorem runFrom_submitting (trace : Trace) (x : JitM Submission α) :
    runFrom (submitting trace x) w =
      ((runFrom x ⟨w.context, trace⟩).1,
        { w with context := (runFrom x ⟨w.context, trace⟩).2.context }) := rfl

theorem runFrom_takeWaiting : runFrom takeWaiting w =
    (.ok w.session.waiting, { w with session := { w.session with waiting := none } }) := rfl

/-- What a pass is asked to do in a session. -/
def settings (w : Workbench) (opts : OptSet) : PassSettings :=
  { driver := w.session.driver.id, opts, memo := w.session.memo }

def enabled (w : Workbench) : OptSet := (w.context.warmState w.session.driver).opts

/-- What a pass in a session starts from. -/
def shared (w : Workbench) : OptState := w.context.optState w.session.history.values

def afterPass (w : Workbench) (shared : OptState) : Workbench where
  context := w.context.withOptState shared
  session := { w.session with history := { w.session.history with values := shared.values } }

/-- A pass that is run in a session changes the context in the same way however it ends. -/
theorem runFrom_optimize (opts : OptSet) (pass : PassSettings → PassM Pass α) (w : Workbench) :
    let r := runFrom (pass (w.settings opts)) (.ofShared w.shared)
    runFrom (optimize opts pass) w = match r.1 with
      | .ok a => (.ok (some a), w.afterPass r.2.shared)
      | .error (.invalid _) => (.ok none, { w.afterPass r.2.shared with
          context := (w.afterPass r.2.shared).context.modifyStats fun s =>
            { s with invalidLoops := s.invalidLoops + 1 } })
      | .error (.fault f) => (.error (.fault f), w.afterPass r.2.shared) := by
  simp only [optimize, runFrom_bind, runFrom_get]
  generalize hr : runFrom (pass (w.settings opts)) (.ofShared w.shared) = r
  obtain ⟨answer, p⟩ := r
  have hr' : pass { driver := w.session.driver.id, opts, memo := w.session.memo }
      (.ofShared (w.context.optState w.session.history.values)) = (answer, p) := hr
  simp only [hr', runFrom_bind, runFrom_set]
  rcases answer with (why | f) | a <;> rfl

section Goes

variable {β : Type} {unit : UnitHandle} {R : Workbench → Workbench → Prop} [IsTrans Workbench R]
  {P : Stop → Prop} (hR : ∀ w w' : Workbench, w'.context.backend = w.context.backend → R w w')
  (hfault : ∀ f p, runFrom (pass (w.settings opts)) (.ofShared w.shared) = (.error (.fault f), p) →
    ¬ P (.fault f))
  {next : Option α → CompileM β} (hnone : ∀ w', Goes R P (next none) w')
  (hsome : ∀ a p, runFrom (pass (w.settings opts)) (.ofShared w.shared) = (.ok a, p) →
    Goes R P (next (some a)) (w.afterPass p.shared))
include hR hfault hnone hsome

/-- A pass leaves the backend alone, and what follows knows what the pass has answered. -/
theorem optimize_goes : Goes R P (optimize opts pass >>= next) w := by
  refine .bind_run ?_ fun result w' hrun => ?_
  · unfold Goes
    rw [runFrom_optimize]
    generalize hr : runFrom (pass (w.settings opts)) (.ofShared w.shared) = r
    obtain ⟨answer, p⟩ := r
    rcases answer with (why | f) | a
    · exact ⟨hR _ _ rfl, nofun⟩
    · refine ⟨hR _ _ rfl, ?_⟩
      rintro _ ⟨⟩
      exact hfault f p hr
    · exact ⟨hR _ _ rfl, nofun⟩
  · rw [runFrom_optimize] at hrun
    generalize hr : runFrom (pass (w.settings opts)) (.ofShared w.shared) = r at hrun
    obtain ⟨answer, p⟩ := r
    rcases answer with (why | f) | a
    · cases hrun
      exact hnone _
    · cases hrun
    · cases hrun
      exact hsome a p hr

/-- A pass that gives up costs its unit, which is not in the backend yet. -/
theorem optimizeFor_goes : Goes R P (optimizeFor unit opts pass >>= next) w := by
  rw [optimizeFor, bind_assoc]
  refine optimize_goes hR hfault (fun w' => ?_) hsome
  simp only [Option.isNone_none, if_true, bind_assoc, pure_bind]
  exact .bind_of_eq (runFrom_modifyContext _) (hR _ _ rfl) (hnone _)

end Goes

inductive Optimizing (opts : OptSet) (pass : PassSettings → PassM Pass α) (w : Workbench) :
    Except Stop (Option α) → Workbench → Prop where
  | done (a : α) (p : Pass)
      (hrun : runFrom (pass (w.settings opts)) (.ofShared w.shared) = (.ok a, p))
      (h : Context.Quiet [] w.context (w.afterPass p.shared).context) :
      Optimizing opts pass w (.ok (some a)) (w.afterPass p.shared)
  | gaveUp (w' : Workbench) (h : Context.Quiet [] w.context w'.context) :
      Optimizing opts pass w (.ok none) w'
  | fault (f : Fault) (w' : Workbench) (h : Context.Quiet [] w.context w'.context) :
      Optimizing opts pass w (.error (.fault f)) w'

theorem quiet_afterPass (w : Workbench) (shared : OptState)
    (h : w.context.entries.homes <+: shared.entries.homes) :
    Context.Quiet [] w.context (w.afterPass shared).context where
  registry := rfl
  collector := rfl
  code := .refl _
  homes _ := .ofAppend h

theorem optimizing (opts : OptSet) (w : Workbench)
    (hpass : ∀ s p, Goes Pass.Extends Rejection.Inconsistent (pass s) p) :
    Optimizing opts pass w (runFrom (optimize opts pass) w).1 (runFrom (optimize opts pass) w).2 := by
  have hextends := (hpass (w.settings opts) (.ofShared w.shared)).1
  rw [runFrom_optimize]
  generalize hrun : runFrom (pass (w.settings opts)) (.ofShared w.shared) = r at hextends
  obtain ⟨answer, p⟩ := r
  have hquiet := quiet_afterPass w p.shared hextends.homes
  rcases answer with (why | f) | a
  · exact .gaveUp _ (hquiet.trans ⟨rfl, rfl, .refl _, fun _ => .refl _⟩)
  · exact .fault f _ hquiet
  · exact .done a p hrun hquiet

/-- What running a pass for a new unit comes to. -/
inductive OptimizingFor (unit : UnitHandle) (opts : OptSet) (pass : PassSettings → PassM Pass α)
    (w : Workbench) : Except Stop (Option α) → Workbench → Prop where
  | done (a : α) (p : Pass)
      (hrun : runFrom (pass (w.settings opts)) (.ofShared w.shared) = (.ok a, p))
      (h : Context.Quiet [] w.context (w.afterPass p.shared).context) :
      OptimizingFor unit opts pass w (.ok (some a)) (w.afterPass p.shared)
  | gaveUp (d : Context) (w' : Workbench) (h : Context.Quiet [] w.context d)
      (h' : w'.context = d.releaseUnit unit) : OptimizingFor unit opts pass w (.ok none) w'
  | fault (f : Fault) (w' : Workbench) (h : Context.Quiet [] w.context w'.context) :
      OptimizingFor unit opts pass w (.error (.fault f)) w'

theorem optimizingFor (unit : UnitHandle) (opts : OptSet) (w : Workbench)
    (hpass : ∀ s p, Goes Pass.Extends Rejection.Inconsistent (pass s) p) :
    OptimizingFor unit opts pass w (runFrom (optimizeFor unit opts pass) w).1
      (runFrom (optimizeFor unit opts pass) w).2 := by
  have hopt := optimizing opts w hpass
  simp only [optimizeFor, runFrom_bind]
  generalize runFrom (optimize opts pass) w = r at hopt
  obtain ⟨answer, w'⟩ := r
  dsimp only at hopt ⊢
  cases hopt with
  | done a p hrun h => exact .done a p hrun h
  | gaveUp _ h => exact .gaveUp w'.context _ h rfl
  | fault f _ h => exact .fault f w' h

section Loops

variable {key : GreenKey} {start : Nat} {inputs : List InputArg} {jumpArgs : List Arg}
  {avoidUnroll : Bool}

theorem compileLoop_cases {Q : Except Stop (Option EntryPoint) × Workbench → Prop}
    (hnone : Q (.ok none, w))
    (hsimple : ∀ opts, Q (runFrom (compileSimpleLoop key inputs
      (w.session.history.operations.drop start) jumpArgs opts) w))
    (hunrolled : avoidUnroll = false → w.enabled.contains .unroll = true →
      Q (runFrom (compileUnrolledLoop key inputs (w.session.history.operations.drop start) jumpArgs
        w.enabled) w)) :
    Q (runFrom (compileLoop key start inputs jumpArgs avoidUnroll) w) := by
  rw [compileLoop, runFrom_bind, runFrom_opts]
  dsimp only
  rw [runFrom_bind, runFrom_get]
  dsimp only
  split
  · split
    · exact hsimple _
    · exact hnone
  · rename_i havoid
    split
    · rename_i hunroll
      exact hunrolled (by simpa using havoid) hunroll
    · exact hsimple _

theorem compileLoop_goes {R : Workbench → Workbench → Prop} [Std.Refl R] {P : Stop → Prop}
    (hsimple : ∀ opts, Goes R P (compileSimpleLoop key inputs
      (w.session.history.operations.drop start) jumpArgs opts) w)
    (hunrolled : avoidUnroll = false → w.enabled.contains .unroll = true →
      Goes R P (compileUnrolledLoop key inputs (w.session.history.operations.drop start) jumpArgs
        w.enabled) w) :
    Goes R P (compileLoop key start inputs jumpArgs avoidUnroll) w :=
  compileLoop_cases (Q := fun r => R w r.2 ∧ ∀ e, r.1 = .error e → ¬ P e)
    ⟨Std.Refl.refl w, nofun⟩ hsimple hunrolled

end Loops

end HotLoop.Workbench

namespace HotLoop

section Launching

variable {recorded : List Operation} {unit : UnitHandle} {c d : Context} {driver : Driver}
  {inputs : List InputArg} {s s' : Submission}

/-- What sending the code of a new unit comes to. -/
inductive Launching (recorded : List Operation) (unit : UnitHandle) (c : Context) (driver : Driver)
    (inputs : List InputArg) (s : Submission) : Except Stop Unit → Submission → Prop where
  | launched (trace : Trace) (loop : CompiledLoop) (s' : Submission)
      (hload : s.trace.forgetForwarding.loadVirtualizable driver
        (Submission.virtualizableAddress driver inputs) = .ok trace)
      (hloop : loop.inputs = trace.inputs ∧ loop.operations = trace.operations)
      (h : Context.Submitted recorded none unit trace.operations c s'.context)
      (hentries : s'.context.entries = s.context.entries)
      (hloops : s'.context.backend.loops = c.backend.loops ++ [loop])
      (htrace : s'.trace.home = some unit ∧ s'.trace.operations = trace.operations) :
      Launching recorded unit c driver inputs s (.ok ()) s'
  | failed (e : Stop) (s' : Submission) (h : Context.Compiled recorded c s'.context) :
      Launching recorded unit c driver inputs s (.error e) s'

theorem launching (driver : Driver) (inputs : List InputArg) (key : Option GreenKey)
    (kind : String) (hs : Context.Building recorded unit c s.context)
    (hhome : s.trace.home = some unit) :
    Launching recorded unit c driver inputs s
      (runFrom ((Submission.sendLoop key driver kind inputs).onError fun s =>
        { s with context := s.context.releaseUnit unit }) s).1
      (runFrom ((Submission.sendLoop key driver kind inputs).onError fun s =>
        { s with context := s.context.releaseUnit unit }) s).2 := by
  have hsending := Submission.loopSending driver inputs key kind s
  rw [runFrom_onError]
  generalize runFrom (Submission.sendLoop key driver kind inputs) s = r at hsending
  obtain ⟨answer, s'⟩ := r
  dsimp only at hsending
  cases hsending with
  | sent trace unit' number name code backend stats next hload hhome' halive hcompile hcheck =>
    have heq : unit' = unit := Option.some.inj (hhome'.symm.trans hhome)
    subst heq
    obtain ⟨hloops, hbridges, hfreed⟩ := Backend.compileLoop_eq_ok hcompile
    let d : Context := { s.context with registry := (s.context.registry.modify unit' fun u =>
      { u with number := some number }).modify unit' fun u => { u with code := some code } }
    let numbered : Context := { s.context with
      registry := s.context.registry.modify unit' fun u => { u with number := some number } }
    have hnumbered : Context.Building recorded unit' c numbered :=
      hs.modify (f := fun u => { u with number := some number }) (fun _ => ⟨rfl, rfl, rfl⟩) rfl rfl
        (.refl _) rfl
    have hd : Context.Building recorded unit' c d :=
      hnumbered.modify (f := fun u => { u with code := some code }) (fun _ => ⟨rfl, rfl, rfl⟩) rfl
        rfl (.refl _) rfl
    let loop : CompiledLoop := ⟨unit', driver.id, name, trace.inputs, trace.operations, code⟩
    refine .launched trace loop _ hload ⟨rfl, rfl⟩ (.loop d loop hd ⟨rfl, rfl⟩ (by simp) rfl rfl rfl
      ⟨hloops, hbridges, hfreed⟩) rfl ?_ ⟨?_, rfl⟩
    · exact hloops.trans (by rw [hs.code.loops])
    · exact (Trace.loadVirtualizable_eq_ok hload).1.1.trans (by simpa using hhome)
  | unsent e _ h hregistry hblame =>
    have hbuilding : Context.Building recorded unit c s'.context := by
      rcases hregistry with hreg | ⟨unit', number, hhome', hreg⟩
      · exact hs.quiet ⟨hreg, h.collector, h.code, fun _ => by rw [h.entries]; exact .refl _⟩
      · have heq : unit' = unit := Option.some.inj (hhome'.symm.trans hhome)
        subst heq
        exact hs.modify (f := fun u => { u with number := some number })
          (fun _ => ⟨rfl, rfl, rfl⟩) hreg h.collector h.code h.entries
    cases e with
    | error e => exact .failed _ _ (.released unit _ hbuilding (.refl _ _))
    | fault f => exact .failed _ _ (.unfinished unit hbuilding)

end Launching

end HotLoop
