import HotLoop.Proofs.Compile.Delivering
import HotLoop.Proofs.Compile.Effects
import HotLoop.Proofs.Compile.Sending
import HotLoop.Proofs.Compile.Stopping
import HotLoop.Proofs.Walk.Dependencies

/-!
# What delivered code relies on

The operations of a loop are walked once or twice, and those of a bridge that has to wait are walked
in another call than the ones behind it. What the walks have noted is put together before the code
is sent, and registered with the unit of the code thereafter. In the end the unit is registered with
the fields that are read in the operations, and with no others.
-/

namespace HotLoop

namespace Context

variable {c c' : Context} {reads : Nat → Prop} {piece : Piece} {t : GuardTable}
  {home : UnitHandle}

theorem Delivers.sends_iff (hdelivers : Delivers piece t c c') :
    (∃ ops, Sends c c' home ops) ↔ home = piece.home := by
  have hcode := hdelivers.code
  unfold Piece.SentTo at hcode
  split at hcode
  · obtain ⟨l, hunit, -, hloops, hbridges⟩ := hcode
    constructor
    · rintro ⟨ops, ⟨loop, rfl, -, hloops', -⟩ | ⟨bridge, -, -, hloops', -⟩⟩
      · obtain rfl : loop = l := by simpa using hloops'.symm.trans hloops
        exact hunit
      · rw [hloops'] at hloops
        simp at hloops
    · rintro rfl
      exact ⟨l.operations, .inl ⟨l, hunit, rfl, hloops, hbridges⟩⟩
  · obtain ⟨l, -, hhome, -, hloops, hbridges⟩ := hcode
    constructor
    · rintro ⟨ops, ⟨loop, -, -, hloops', -⟩ | ⟨bridge, rfl, -, -, hbridges'⟩⟩
      · rw [hloops'] at hloops
        simp at hloops
      · obtain rfl : bridge = l := by simpa using hbridges'.symm.trans hbridges
        exact hhome
    · rintro rfl
      exact ⟨l.operations, .inr ⟨l, hhome, rfl, hloops, hbridges⟩⟩

/--
Between `c` and `c'` either no code has been sent and no unit registered, or code for one unit has
been sent and the unit has been registered with the fields that `reads` names.
-/
inductive Registers (reads : Nat → Prop) (c c' : Context) : Prop where
  | nothing (hsends : ∀ h ops, ¬ Sends c c' h ops) (hregistered : c'.quasiImmut = c.quasiImmut)
  | sent (home : UnitHandle) (deps : FieldSet)
      (hsends : ∀ h, (∃ ops, Sends c c' h ops) ↔ h = home)
      (halive : c'.registry.isAlive home = true)
      (hdeps : ∀ f, f ∈ deps ↔ reads f)
      (hregistered : c'.quasiImmut = deps.foldl (·.depend · home) c.quasiImmut)

namespace Registers

theorem congr {reads' : Nat → Prop} (h : Registers reads c c') (hreads : ∀ f, reads f ↔ reads' f) :
    Registers reads' c c' := by
  rwa [← funext fun f => propext (hreads f)]

theorem of_sameCode (hcode : c.backend.SameCode c'.backend)
    (hregistered : c'.quasiImmut = c.quasiImmut) : Registers reads c c' :=
  .nothing (fun _ _ => not_sends_of_sameCode hcode) hregistered

theorem of_idles (h : Idles c c') : Registers reads c c' := .of_sameCode h.code h.quasiImmut

theorem of_delivers (h : Delivers piece t c c') (hdeps : ∀ f, f ∈ piece.deps ↔ reads f) :
    Registers reads c c' :=
  .sent piece.home piece.deps (fun _ => h.sends_iff) (by simp [h.alive]) hdeps h.quasiImmut

theorem of_stops {σ α : Type} {view : σ → Context} {x : JitM σ α} {s : σ}
    (hstops : Stops (Silent view) x s)
    (hok : ∀ a s', runFrom x s = (.ok a, s') → Registers reads (view s) (view s')) :
    Registers reads (view s) (view (runFrom x s).2) := by
  cases hrun : runFrom x s with
  | mk answer s' =>
    cases answer with
    | error e =>
      obtain ⟨hcode, hfields⟩ := hstops e s' hrun
      exact .of_sameCode hcode hfields
    | ok a => exact hok a s' hrun

end Registers

end Context

namespace Workbench

open Context

variable {w w' : Workbench} {ops : List Operation} {f : Nat}

section Loops

variable {vars : List Var} {inputs : List InputArg} {jumpArgs : List Arg} {entry : EntryPoint}
  {t : GuardTable} {deps : FieldSet} {code : List Operation} {key : GreenKey} {start : Nat}
  {avoidUnroll : Bool} {opts : OptSet}

theorem LoopCode.mem_deps (h : LoopCode w vars ops jumpArgs entry t deps code) :
    f ∈ deps ↔ f ∈ fieldsRead ops := by
  cases h with
  | once opts result p code hwalk hredirect ht =>
    rw [Pass.mem_deps_of_simple rfl hwalk, fieldsRead_concat rfl]
  | unrolled opts state pre p₁ result header p₂ hpre hpeeled hheader ht =>
    rw [FieldSet.mem_union, Pass.mem_deps_of_preamble rfl hpre, Pass.mem_deps_of_peeled rfl hpeeled,
      or_self]

private theorem registers_of_deliversLoop {c' : Context} {answer : Option EntryPoint}
    (h : DeliversLoop w inputs ops jumpArgs c' answer) :
    Registers (· ∈ fieldsRead ops) w.context c' := by
  cases answer with
  | none => exact .of_idles h
  | some entry =>
    obtain ⟨t, deps, code, ops', hcode, -, hdelivers⟩ := h
    exact .of_delivers hdelivers fun f => hcode.mem_deps

theorem compileSimpleLoop_registers (hw : w.context.registry.WellFormed) :
    Registers (· ∈ fieldsRead ops) w.context
      (runFrom (compileSimpleLoop key inputs ops jumpArgs opts) w).2.context :=
  .of_stops compileSimpleLoop_stops fun _ _ hrun =>
    registers_of_deliversLoop (compileSimpleLoop_eq_ok hw hrun).2

theorem compileLoop_registers (hw : w.context.registry.WellFormed) :
    Registers (· ∈ fieldsRead (w.session.history.operations.drop start)) w.context
      (runFrom (compileLoop key start inputs jumpArgs avoidUnroll) w).2.context :=
  .of_stops compileLoop_stops fun _ _ hrun =>
    registers_of_deliversLoop (compileLoop_eq_ok hw hrun).2

end Loops

section Bridges

variable {resumeKey : ResumeKey} {settings : PassSettings} {shared : OptState} {p : Pass}
  {result : Optimized} {waiting : Trace × ExportedState}

theorem mem_deps_of_tracePass
    (h : runFrom (w.tracePass resumeKey settings) (.ofShared shared) = (.ok result, p)) :
    (f ∈ result.deps ↔ f ∈ fieldsRead w.session.history.operations) ∧
      ∀ state, result.state = some state →
        (f ∈ state.deps ↔ f ∈ fieldsRead w.session.history.operations) := by
  unfold tracePass at h
  split at h
  · exact Pass.mem_deps_of_bridge rfl h
  · refine ⟨Pass.mem_deps_of_simple rfl h, fun state hstate => ?_⟩
    obtain ⟨rfl, -⟩ := simple_eq_ok h
    cases hstate

theorem compileTrace_registers (hw : w.context.registry.WellFormed) :
    Registers (· ∈ fieldsRead w.session.history.operations) w.context
      (runFrom (compileTrace resumeKey) w).2.context := by
  refine .of_stops compileTrace_stops fun answer w' hrun => ?_
  cases compileTrace_eq_ok hw hrun with
  | gaveUp hidles _ => exact .of_idles hidles
  | waits _ _ _ _ _ _ _ hidles _ _ => exact .of_idles hidles
  | delivered result p piece hwalk _ _ hdeps _ hdelivers =>
    exact .of_delivers hdelivers fun f => by rw [hdeps, (mem_deps_of_tracePass hwalk).1]

/-- The call that compiles the history of `w` as a bridge lets the bridge wait. -/
def LetsWait (w : Workbench) (resumeKey : ResumeKey) (waiting : Trace × ExportedState) : Prop :=
  w.session.waiting = none ∧
    (runFrom (compileTrace resumeKey) w).2.session.waiting = some waiting

theorem LetsWait.mem_deps (h : w.LetsWait resumeKey waiting) :
    (f ∈ waiting.1.deps ↔ f ∈ fieldsRead w.session.history.operations) ∧
      (f ∈ waiting.2.deps ↔ f ∈ fieldsRead w.session.history.operations) := by
  obtain ⟨hnone, hwaiting⟩ := h
  obtain ⟨result, p, hpass, hstate, ⟨-, -, hdeps, -⟩, -⟩ := exists_pass_of_waiting hnone hwaiting
  have hmem := mem_deps_of_tracePass (f := f) hpass
  exact ⟨hdeps ▸ hmem.1, hmem.2 _ hstate⟩

/-- A bridge that waits in the session has been left there by the call that has compiled it. -/
def WaitsSince (session : Session) : Prop :=
  ∀ waiting, session.waiting = some waiting →
    ∃ (w : Workbench) (resumeKey : ResumeKey), w.LetsWait resumeKey waiting

/-- What has been recorded for the bridge that waits in a session, and for the loop behind it. -/
inductive Rejoins (session : Session) (start : Nat) : List Operation → Prop where
  | loop : Rejoins session start (session.history.operations.drop start)
  | bridge (w : Workbench) (resumeKey : ResumeKey) (waiting : Trace × ExportedState)
      (hlets : w.LetsWait resumeKey waiting) (hwaiting : session.waiting = some waiting) :
      Rejoins session start w.session.history.operations

/-- The dependencies of the bridge, of what it hands on and of the loop are put together. -/
theorem compileRetrace_registers (hw : w.context.registry.WellFormed)
    (hwaits : WaitsSince w.session) {key : GreenKey} {start : Nat} {inputs : List Var}
    {jumpArgs : List Arg} :
    Registers (fun f => ∃ ops, Rejoins w.session start ops ∧ f ∈ fieldsRead ops) w.context
      (runFrom (compileRetrace key start inputs jumpArgs resumeKey) w).2.context := by
  refine .of_stops compileRetrace_stops fun answer w' hrun => ?_
  cases compileRetrace_eq_ok hw hrun with
  | idle hidles _ => exact .of_idles hidles
  | delivered unit bridge state result p header piece _ hwaiting hwalk _ _ hdeps _ hdelivers _ =>
    refine .of_delivers hdelivers fun f => ?_
    have hloop : f ∈ result.deps ↔ f ∈ fieldsRead (w.session.history.operations.drop start) :=
      Pass.mem_deps_of_peeled rfl hwalk
    rw [hdeps, FieldSet.mem_union, FieldSet.mem_union, hloop]
    constructor
    · obtain ⟨w₀, resumeKey₀, hlets⟩ := hwaits _ hwaiting
      have hmem := hlets.mem_deps (f := f)
      rintro ((hbridge | hread) | hstate)
      · exact ⟨_, .bridge w₀ resumeKey₀ _ hlets hwaiting, hmem.1.mp hbridge⟩
      · exact ⟨_, .loop, hread⟩
      · exact ⟨_, .bridge w₀ resumeKey₀ _ hlets hwaiting, hmem.2.mp hstate⟩
    · rintro ⟨ops, hops, hread⟩
      cases hops with
      | loop => exact .inl (.inr hread)
      | bridge w₀ resumeKey₀ waiting hlets hwaiting' =>
        cases hwaiting.symm.trans hwaiting'
        exact .inl (.inl (hlets.mem_deps.1.mpr hread))

end Bridges

end Workbench

theorem Context.compileCallback_registers {c : Context} (hc : c.registry.WellFormed)
    {driver : Driver} {greens : List Arg} {reds : List Kind} :
    Registers (fun _ => False) c (runFrom (compileCallback driver greens reds) c).2 := by
  have hstops : Stops (Silent id) (compileCallback driver greens reds) c := compileCallback_stops
  refine Registers.of_stops hstops fun unit c' hrun => ?_
  obtain ⟨inputs, ops, -, hdelivers⟩ := compileCallback_eq_ok hc hrun
  exact .of_delivers hdelivers fun f => by simp

end HotLoop
