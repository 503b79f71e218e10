import HotLoop.Proofs.Compile.Session

/-!
# Compiling loops

How a loop is compiled, step by step, with everything that may happen in between. If the call has a
result, then its last submission is a trace that starts with a label for the result.
-/

namespace HotLoop

variable {recorded : List Operation} {unit : UnitHandle} {c d : Context} {driver : Driver}
  {key : GreenKey} {inputs : List InputArg} {s : Submission} {opts : OptSet} {w : Workbench}
  {ops : List Operation} {jumpArgs : List Arg}

/-- The only submission since `c` is `trace`, with its prologue. -/
def SubmitsOnly (driver : Driver) (inputs : List InputArg) (trace : Trace) (c c' : Context) :
    Prop :=
  ∃ (loaded : Trace) (loop : CompiledLoop),
    trace.loadVirtualizable driver (Submission.virtualizableAddress driver inputs) = .ok loaded ∧
    (driver.virtualizable = none → loaded = trace) ∧
    loop.inputs = loaded.inputs ∧ loop.operations = loaded.operations ∧
    c'.backend.loops = c.backend.loops ++ [loop]

theorem sendNewLoop_compiled (key : GreenKey) (driver : Driver) (inputs : List InputArg)
    (hs : Context.Building recorded unit c s.propagate.context)
    (hhome : s.trace.home = some unit) (hnone : s.trace.forwarding = .empty) :
    let r := runFrom (Submission.sendNewLoop key driver inputs unit) s
    Context.Compiled recorded c r.2.context ∧
      (r.1 = .ok () → SubmitsOnly driver inputs s.trace c r.2.context) := by
  have hforget : s.trace.forgetForwarding = s.trace := by
    rw [Trace.forgetForwarding, hnone]
    rfl
  simp only [Submission.sendNewLoop, runFrom_bind, runFrom_modify]
  have hlaunching := launching driver inputs (some key) "loop" hs hhome
  generalize runFrom ((Submission.sendLoop (some key) driver "loop" inputs).onError fun s =>
    { s with context := s.context.releaseUnit unit }) s.propagate = r at hlaunching ⊢
  obtain ⟨answer, s'⟩ := r
  dsimp only at hlaunching
  cases hlaunching with
  | launched loaded loop _ hload hloop h hentries hloops htrace =>
    simp only [Submission.runFrom_modifyContext]
    have hattached : Context.Submitted recorded none unit loaded.operations c
        (s'.context.attach driver key unit) := h.congr rfl rfl rfl rfl
    obtain ⟨-, hcompiled, hbackend⟩ := hattached.record
      (s := { s' with context := s'.context.attach driver key unit }) htrace.1 htrace.2
    have hsame : s.propagate.trace = s.trace := rfl
    rw [hsame, hforget] at hload
    refine ⟨hcompiled, fun _ => ⟨loaded, loop, hload, (Trace.loadVirtualizable_eq_ok hload).2,
      hloop.1, hloop.2, ?_⟩⟩
    rw [hbackend]
    exact hloops
  | failed e _ h => exact ⟨h, fun hok => by cases hok⟩

/-- A new unit lists entry points of its own, just before its code is sent. -/
theorem Context.Building.propagate (h : Building recorded unit c d)
    {f : CompiledUnit → CompiledUnit}
    (hf : ∀ u, (f u).generation = u.generation ∧ (f u).invalidated = u.invalidated)
    (hs : s.context = d.modifyUnit unit f) (hhome : s.trace.home = some unit)
    (hnew : Unlabelled recorded → ∀ op ∈ s.trace.operations, ∀ e, op.labels? = some e →
      c.entries.homes.length ≤ e.id)
    (hown : ∀ u, ∀ e ∈ (f u).entries, e ∈ u.entries ∨ d.entries.home? e = some unit ∨
      e.id < d.entries.homes.length ∧ ∃ op ∈ s.trace.operations, op.labels? = some e) :
    Building recorded unit c s.propagate.context := by
  have hentries : s.context.entries = d.entries := by rw [hs]; rfl
  have hregistry : s.context.registry = d.registry.modify unit f := by rw [hs]; rfl
  have hcollector : s.context.collector = d.collector := by rw [hs]; rfl
  have hcode : d.backend.SameCode s.context.backend := by rw [hs]; exact .refl _
  refine h.change hf hregistry hcollector hcode (fun hr => ?_) fun u hget e he => ?_
  · refine Submission.keepsHomes_propagate ?_ (hnew hr)
    rw [hentries]
    exact h.homes hr
  · rw [← hhome]
    rcases hown u e he with he | he | ⟨hlt, op, hop, hlabel⟩
    · obtain ⟨u', hget', -, hown'⟩ := h.own
      cases hget'.symm.trans hget
      refine Submission.home?_propagate_of_eq ?_
      rw [hentries, hhome]
      exact hown' e he
    · refine Submission.home?_propagate_of_eq ?_
      rw [hentries, hhome]
      exact he
    · exact Submission.home?_propagate_of_mem hop hlabel (hentries ▸ hlt)

theorem EntryTable.make_eq (t : EntryTable) (owner : UnitHandle) (kinds : List Kind)
    (home : Option UnitHandle) : t.homes <+: (t.make owner kinds home).2.homes ∧
      (t.make owner kinds home).2.home? (t.make owner kinds home).1 = home ∧
      (t.make owner kinds home).1.id = t.homes.length := by
  refine ⟨List.prefix_append .., ?_, rfl⟩
  simp [make, home?]

namespace Workbench

open Context

/-- The trace in which a loop is submitted that has been walked once, or once more. -/
inductive LoopTrace (w : Workbench) (vars : List Var) (ops : List Operation) (jumpArgs : List Arg)
    (entry : EntryPoint) (trace : Trace) : Prop where
  | walkedOnce (opts : OptSet) (unit : UnitHandle) (result : Optimized) (code : List Operation)
      (shared : OptState) (p : Pass)
      (hstart : shared.values = w.session.history.values)
      (hwalk : runFrom (Pass.simple (w.settings opts) vars (ops ++ [.jump jumpArgs (.cell unit)]))
        (.ofShared shared) = (.ok result, p))
      (hredirect : redirectJump? result.operations entry = some code)
      (hinputs : trace.inputs = vars)
      (hops : trace.operations = .label vars (.target entry) :: code)
  | unrolled (opts : OptSet) (unit : UnitHandle) (state : ExportedState) (pre : List Operation)
      (result : Optimized) (header : LoopHeader) (shared₁ shared₂ : OptState) (p₁ p₂ : Pass)
      (hstart : shared₁.values = w.session.history.values)
      (hpre : runFrom (Pass.preamble (w.settings opts) vars jumpArgs ops) (.ofShared shared₁) =
        (.ok (state, pre), p₁))
      (hvalues : shared₂.values = p₁.shared.values)
      (hpeeled : runFrom (Pass.peeled (w.settings opts) vars (.jump jumpArgs (.cell unit)) ops
        state) (.ofShared shared₂) = (.ok result, p₂))
      (hheader : result.header = some header) (hentry : entry ≠ header.entry)
      (hinputs : trace.inputs = vars)
      (hops : trace.operations = .label vars (.target entry) ::
        (pre ++ header.copies ++ [header.label] ++ result.operations))

/-- The answer of a compile call is the entry point of the loop that it has submitted. -/
def AnswersLoop (w : Workbench) (inputs : List InputArg) (ops : List Operation)
    (jumpArgs : List Arg) (answer : Except Stop (Option EntryPoint)) (c' : Context) : Prop :=
  ∀ entry, answer = .ok (some entry) → ∃ trace,
    LoopTrace w (inputs.map (·.var)) ops jumpArgs entry trace ∧
      SubmitsOnly w.session.driver inputs trace w.context c'

private theorem submit_loop (recorded : List Operation) (unit : UnitHandle) (c : Context)
    {w' : Workbench} {trace : Trace} {entry : EntryPoint}
    {answer : Except Stop (Option EntryPoint)}
    (hs : Building recorded unit c (Submission.propagate ⟨w.context, trace⟩).context)
    (hhome : trace.home = some unit) (hnone : trace.forwarding = .empty)
    (h : runFrom (do
      submitting trace (Submission.sendNewLoop key driver inputs unit)
      return some entry) w = (answer, w')) :
    Compiled recorded c w'.context ∧ ∀ e, answer = .ok (some e) →
      e = entry ∧ SubmitsOnly driver inputs trace c w'.context := by
  have hsend := sendNewLoop_compiled key driver inputs hs hhome hnone
  rw [runFrom_bind, runFrom_submitting] at h
  generalize runFrom (Submission.sendNewLoop key driver inputs unit) ⟨w.context, trace⟩ = r
    at h hsend
  obtain ⟨result, s'⟩ := r
  cases result with
  | ok _ =>
    cases h
    refine ⟨hsend.1, fun e he => ?_⟩
    cases he
    exact ⟨rfl, hsend.2 rfl⟩
  | error stop =>
    cases h
    exact ⟨hsend.1, fun e he => by cases he⟩

private theorem optimizeFor_compiled {α : Type} {pass : PassSettings → PassM Pass α}
    {next : Option α → CompileM (Option EntryPoint)} {w' : Workbench}
    {answer : Except Stop (Option EntryPoint)} {Answers : EntryPoint → Prop}
    (hpass : ∀ s p, Goes Pass.Extends Rejection.Inconsistent (pass s) p)
    (hbuild : Building recorded unit c w.context)
    (h : runFrom (optimizeFor unit opts pass >>= next) w = (answer, w'))
    (hnone : next none = pure none)
    (hsome : ∀ a p, runFrom (pass (w.settings opts)) (.ofShared w.shared) = (.ok a, p) →
      Building recorded unit c (w.afterPass p.shared).context →
      runFrom (next (some a)) (w.afterPass p.shared) = (answer, w') →
      Compiled recorded c w'.context ∧ ∀ entry, answer = .ok (some entry) → Answers entry) :
    Compiled recorded c w'.context ∧ ∀ entry, answer = .ok (some entry) → Answers entry := by
  have hopt := optimizingFor unit opts w hpass
  rw [runFrom_bind] at h
  generalize runFrom (optimizeFor unit opts pass) w = r at h hopt
  obtain ⟨result, w₁⟩ := r
  dsimp only at hopt
  cases hopt with
  | fault f _ hquiet =>
    cases h
    exact ⟨.unfinished unit (hbuild.quiet hquiet), fun entry he => by cases he⟩
  | gaveUp d _ hquiet heq =>
    dsimp only at h
    rw [hnone] at h
    cases h
    refine ⟨.released unit d (hbuild.quiet hquiet) ?_, fun entry he => by cases he⟩
    rw [← heq]
    exact .refl _ _
  | done a p hrun hquiet => exact hsome a p hrun (hbuild.quiet hquiet) h

private theorem submit_unrolled {w₃ : Workbench} (hbuild : Building ops unit c w₃.context)
    {vars : List Var} {pre : List Operation} {deps : FieldSet} {result : Optimized}
    {header : LoopHeader} (hle : Unlabelled ops → c.entries.homes.length ≤ header.entry.id)
    (hlt : header.entry.id < w₃.context.entries.homes.length)
    (hlabels : Unlabelled ops → Unlabelled pre ∧ Unlabelled header.copies ∧
      Unlabelled result.operations) {answer : Except Stop (Option EntryPoint)} {w' : Workbench}
    (h : runFrom (do
      let entry ← makeEntry unit (vars.map (·.kind)) (some unit)
      let trace ← newTrace
      modifyContext (·.modifyUnit unit fun u =>
        { u with entries := entry :: u.entries ++ [header.entry] })
      submitting { trace with
        home := some unit
        inputs := vars
        operations := .label vars (.target entry) ::
          (pre ++ header.copies ++ [header.label] ++ result.operations)
        deps } (Submission.sendNewLoop key driver inputs unit)
      return some entry) w₃ = (answer, w')) :
    Compiled ops c w'.context ∧ ∀ entry, answer = .ok (some entry) →
      entry ≠ header.entry ∧ ∃ trace, trace.inputs = vars ∧
        trace.operations = .label vars (.target entry) ::
          (pre ++ header.copies ++ [header.label] ++ result.operations) ∧
        SubmitsOnly driver inputs trace c w'.context := by
  obtain ⟨happend, hhome, hid⟩ := w₃.context.entries.make_eq unit (vars.map (·.kind)) (some unit)
  rw [runFrom_bind, runFrom_makeEntry] at h
  dsimp only at h
  generalize (w₃.context.entries.make unit (vars.map (·.kind)) (some unit)).1 = entry
    at h hhome hid
  generalize (w₃.context.entries.make unit (vars.map (·.kind)) (some unit)).2 = entries
    at h happend hhome
  rw [runFrom_bind, runFrom_newTrace] at h
  dsimp only at h
  rw [runFrom_bind, runFrom_modifyContext] at h
  have hd : Building ops unit c { w₃.context with entries, stats := w₃.context.stats.nameLoop.2 } :=
    hbuild.quiet ⟨rfl, rfl, .refl _, fun _ => .ofAppend happend⟩
  have hsubmit := submit_loop ops unit c
    (hd.propagate (f := fun u => { u with entries := entry :: u.entries ++ [header.entry] })
      (fun _ => ⟨rfl, rfl⟩) rfl rfl (fun hr op hop e he => ?_) fun u e he => ?_) rfl rfl h
  · refine ⟨hsubmit.1, fun e he => ?_⟩
    obtain ⟨rfl, hlast⟩ := hsubmit.2 e he
    refine ⟨fun heq => ?_, _, rfl, rfl, hlast⟩
    rw [heq] at hid
    omega
  · obtain ⟨hpre, hcopies, hresult⟩ := hlabels hr
    rcases List.mem_cons.mp hop with rfl | hop
    · cases he
      rw [hid]
      exact (hbuild.homes hr).length_le
    · rw [LoopHeader.eq_of_labels? hpre hcopies hresult hop he]
      exact hle hr
  · simp only [List.cons_append, List.mem_cons, List.mem_append, List.not_mem_nil, or_false] at he
    rcases he with rfl | he | rfl
    · exact .inr (.inl hhome)
    · exact .inl he
    · refine .inr (.inr ⟨Nat.lt_of_lt_of_le hlt happend.length_le, header.label, ?_, rfl⟩)
      simp

theorem compileUnrolledLoop_compiled (hw : w.context.registry.WellFormed) {w' : Workbench}
    {answer : Except Stop (Option EntryPoint)}
    (h : runFrom (compileUnrolledLoop key inputs ops jumpArgs opts) w = (answer, w')) :
    Compiled ops w.context w'.context ∧ AnswersLoop w inputs ops jumpArgs answer w'.context := by
  rw [compileUnrolledLoop, runFrom_bind, runFrom_get] at h
  dsimp only at h
  rw [runFrom_bind, runFrom_makeUnit] at h
  dsimp only at h
  have hmake : Building ops (w.context.makeUnit w.session.driver).1 w.context
      (w.context.makeUnit w.session.driver).2 := .make hw w.session.driver
  generalize (w.context.makeUnit w.session.driver).1 = unit at h hmake
  generalize (w.context.makeUnit w.session.driver).2 = c₁ at h hmake
  -- the first walk
  refine optimizeFor_compiled (w := { w with context := c₁ })
    (fun s p => Pass.preamble_goes s p (inputs.map (·.var)) jumpArgs ops) hmake h rfl ?_
  rintro ⟨state, pre⟩ p₁ hpre hbuild₁ h
  generalize hw₁ : Workbench.afterPass { w with context := c₁ } p₁.shared = w₁ at h hbuild₁
  -- the second walk
  refine optimizeFor_compiled (fun s p => Pass.peeled_goes s p (inputs.map (·.var))
    (.jump jumpArgs (.cell unit)) ops state) hbuild₁ h rfl ?_
  intro result p₂ hpeeled hbuild₂ h
  obtain ⟨header, q, r, hinto⟩ := peeled_eq_ok hpeeled
  dsimp only at h
  rw [hinto.isHeader] at h
  dsimp only at h
  have hlabels (hops : Unlabelled ops) : Unlabelled pre ∧ Unlabelled header.copies ∧
      Unlabelled result.operations :=
    ⟨unlabelled_of_preamble hpre hops, hinto.unlabelled (fun heq => by cases heq) hops⟩
  have hle (hops : Unlabelled ops) : w.context.entries.homes.length ≤ header.entry.id :=
    Nat.le_trans (hbuild₁.homes hops).length_le hinto.entry_le
  obtain ⟨hcompiled, hentry⟩ := submit_unrolled hbuild₂ hle hinto.entry_lt hlabels h
  refine ⟨hcompiled, fun entry he => ?_⟩
  obtain ⟨hne, trace, hinputs, hops, hlast⟩ := hentry entry he
  subst hw₁
  exact ⟨trace, .unrolled opts unit state pre result header _ _ p₁ p₂ rfl hpre rfl hpeeled
    hinto.isHeader hne hinputs hops, hlast⟩

theorem unlabelled_of_redirectJump? {code code' : List Operation} {entry : EntryPoint}
    (h : redirectJump? code entry = some code') (hcode : Unlabelled code) : Unlabelled code' := by
  unfold redirectJump? at h
  split at h
  · rename_i last hlast
    split at h
    · rename_i hop
      cases h
      refine Unlabelled.append (fun op hmem => hcode op (List.dropLast_subset _ hmem)) ?_
      intro op hmem
      rw [List.mem_singleton.mp hmem]
      intro heq
      exact absurd (hop.symm.trans heq) (by decide)
    · cases h
  · cases h

theorem compileSimpleLoop_compiled (hw : w.context.registry.WellFormed) {w' : Workbench}
    {answer : Except Stop (Option EntryPoint)}
    (h : runFrom (compileSimpleLoop key inputs ops jumpArgs opts) w = (answer, w')) :
    Compiled ops w.context w'.context ∧ AnswersLoop w inputs ops jumpArgs answer w'.context := by
  rw [compileSimpleLoop, runFrom_bind, runFrom_get] at h
  dsimp only at h
  rw [runFrom_bind, runFrom_makeUnit] at h
  dsimp only at h
  have hmake : Building ops (w.context.makeUnit w.session.driver).1 w.context
      (w.context.makeUnit w.session.driver).2 := .make hw w.session.driver
  generalize (w.context.makeUnit w.session.driver).1 = unit at h hmake
  generalize (w.context.makeUnit w.session.driver).2 = c₁ at h hmake
  refine optimizeFor_compiled (w := { w with context := c₁ })
    (fun s p => Pass.simple_goes s p (inputs.map (·.var)) (ops ++ [.jump jumpArgs (.cell unit)]))
    hmake h rfl ?_
  intro result p hwalk hbuild h
  dsimp only at h
  obtain ⟨happend, hhome, hid⟩ := (Workbench.afterPass { w with context := c₁ }
    p.shared).context.entries.make_eq unit ((inputs.map (·.var)).map (·.kind)) (some unit)
  generalize hw₁ : Workbench.afterPass { w with context := c₁ } p.shared = w₁
    at h hbuild happend hhome hid
  rw [runFrom_bind, runFrom_makeEntry] at h
  dsimp only at h
  generalize (w₁.context.entries.make unit ((inputs.map (·.var)).map (·.kind)) (some unit)).1 =
    entry at h hhome hid
  generalize (w₁.context.entries.make unit ((inputs.map (·.var)).map (·.kind)) (some unit)).2 =
    entries at h happend hhome
  have hd : Building ops unit w.context
      { w₁.context with entries, stats := w₁.context.stats.nameLoop.2 } :=
    hbuild.quiet ⟨rfl, rfl, .refl _, fun _ => .ofAppend happend⟩
  cases hredirect : redirectJump? result.operations entry with
  | none =>
    rw [hredirect] at h
    cases h
    exact ⟨.unfinished unit (hbuild.quiet ⟨rfl, rfl, .refl _, fun _ => .ofAppend happend⟩),
      fun e he => by cases he⟩
  | some code =>
    rw [hredirect] at h
    dsimp only at h
    rw [runFrom_bind, runFrom_newTrace] at h
    dsimp only at h
    rw [runFrom_bind, runFrom_modifyContext] at h
    have hcode (hr : Unlabelled ops) : Unlabelled code := by
      refine unlabelled_of_redirectJump? hredirect (unlabelled_of_simple hwalk (hr.append ?_))
      intro op hop heq
      rw [List.mem_singleton.mp hop] at heq
      cases heq
    have hsubmit := submit_loop ops unit w.context
      (hd.propagate (f := fun u => { u with entries := [entry] })
        (fun _ => ⟨rfl, rfl⟩) rfl rfl (fun hr op hop e he => ?_) fun u e he => ?_) rfl rfl h
    · refine ⟨hsubmit.1, fun e he => ?_⟩
      obtain ⟨rfl, hlast⟩ := hsubmit.2 e he
      subst hw₁
      exact ⟨_, .walkedOnce opts unit result code _ p rfl hwalk hredirect rfl rfl, hlast⟩
    · rcases List.mem_cons.mp hop with rfl | hop
      · cases he
        rw [hid]
        exact (hbuild.homes hr).length_le
      · exact absurd he ((hcode hr).not_labels hop)
    · rw [List.mem_singleton.mp he]
      exact .inr (.inl hhome)

theorem compileLoop_compiled (hw : w.context.registry.WellFormed) {w' : Workbench}
    {answer : Except Stop (Option EntryPoint)} {start : Nat} {avoidUnroll : Bool}
    (h : runFrom (compileLoop key start inputs jumpArgs avoidUnroll) w = (answer, w')) :
    Compiled (w.session.history.operations.drop start) w.context w'.context ∧
      AnswersLoop w inputs (w.session.history.operations.drop start) jumpArgs answer w'.context := by
  refine compileLoop_cases (Q := fun r => r = (answer, w') → _) (fun h => ?_)
    (fun _ => compileSimpleLoop_compiled hw) (fun _ _ => compileUnrolledLoop_compiled hw) h
  cases h
  exact ⟨.quiet (.refl _ _), fun entry he => by cases he⟩

end Workbench

end HotLoop
