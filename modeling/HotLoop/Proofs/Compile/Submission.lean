import HotLoop.Compile.Submission
import HotLoop.Proofs.Computation

/-!
# What submitting does

The effects of the steps of a submission, for every way in which they can end. A loop that has been
sent is the last that the backend has seen, and its unit has been stamped; one that has not been
sent leaves nothing behind but the number that its unit may have been given.
-/

namespace HotLoop

section Combinators

variable {σ α : Type}

theorem runFrom_onError (x : JitM σ α) (change : σ → σ) (s : σ) :
    runFrom (x.onError change) s =
      match runFrom x s with
      | (.error (.error e), t) => (.error (.error e), change t)
      | r => r := by
  simp only [JitM.onError, runFrom, tryCatch, tryCatchThe, MonadExceptOf.tryCatch,
    ExceptT.tryCatch, ExceptT.mk, bind, StateT.bind]
  rcases x s with ⟨⟨e⟩ | a, t⟩
  · cases e <;> rfl
  · rfl

theorem runFrom_ofFault (x : Except Fault α) (s : σ) :
    runFrom (JitM.ofFault x) s =
      (match x with
        | .ok a => .ok a
        | .error f => .error (.fault f), s) := by
  cases x <;> rfl

theorem runFrom_ofError (x : Except JitError α) (s : σ) :
    runFrom (JitM.ofError x) s = (x.mapError Stop.error, s) := by
  cases x <;> rfl

end Combinators

namespace Submission

variable {s s' : Submission} {key : Option GreenKey} {driver : Driver} {kind : String}
  {inputs : List InputArg}

theorem runFrom_modifyContext (f : Context → Context) :
    runFrom (modifyContext f) s = (.ok (), { s with context := f s.context }) := rfl

theorem runFrom_modifyTrace (f : Trace → Trace) :
    runFrom (modifyTrace f) s = (.ok (), { s with trace := f s.trace }) := rfl

theorem runFrom_callBackend {α : Type} (call : Backend → Except JitError α × Backend) :
    runFrom (callBackend call) s =
      ((call s.context.backend).1.mapError Stop.error,
        { s with context := { s.context with backend := (call s.context.backend).2 } }) := by
  simp only [callBackend, runFrom_bind, runFrom_get, runFrom_set, runFrom_ofError]

end Submission

section Traces

variable {t t' : Trace} {driver : Driver} {address : UInt64}

@[simp] theorem Trace.home_forgetForwarding (t : Trace) : t.forgetForwarding.home = t.home := by
  unfold Trace.forgetForwarding
  split <;> rfl

@[simp] theorem Trace.deps_forgetForwarding (t : Trace) : t.forgetForwarding.deps = t.deps := by
  unfold Trace.forgetForwarding
  split <;> rfl

/-- A prologue belongs to the same unit, and a driver without virtualizable fields needs none. -/
theorem Trace.loadVirtualizable_eq_ok (h : t.loadVirtualizable driver address = .ok t') :
    (t'.home = t.home ∧ t'.deps = t.deps) ∧ (driver.virtualizable = none → t' = t) := by
  unfold Trace.loadVirtualizable at h
  split at h
  · rename_i fields hfields
    refine ⟨?_, fun hnone => by rw [hnone] at hfields; cases hfields⟩
    simp only [bind, Except.bind, pure, Except.pure] at h
    split at h
    · split at h
      · cases h
      · split at h
        · cases h
        · split at h
          · cases h
          · split at h
            · cases h
            · cases h
              exact ⟨Trace.home_forgetForwarding _, Trace.deps_forgetForwarding _⟩
    · cases h
  · cases h
    exact ⟨⟨rfl, rfl⟩, fun _ => rfl⟩

private abbrev Blameless (f : Fault) : Prop := ∀ what error, f ≠ .inconsistent what error

private theorem blameless_of_foldlM {α β : Type} {f : β → α → Except Fault β} {l : List α}
    (hstep : ∀ b a e, f b a = .error e → Blameless e) {b : β} {e : Fault}
    (h : l.foldlM f b = .error e) : Blameless e := by
  induction l generalizing b with
  | nil => cases h
  | cons a l ih =>
    rw [List.foldlM_cons] at h
    cases hf : f b a with
    | error e' =>
      rw [hf] at h
      cases h
      exact hstep b a e hf
    | ok b' =>
      rw [hf] at h
      exact ih h

private theorem blameless_of_load {p : Prologue} {opcode : OpCode} {args : List Arg} {kind : Kind}
    {descr : Descr} {e : Fault} (h : p.load opcode args kind descr = .error e) : Blameless e := by
  unfold Prologue.load ValueIds.fresh at h
  split at h
  · cases h
  · cases h
    simp [Blameless]

private theorem blameless_of_loadNext {p : Prologue} {opcode : OpCode} {args : List Arg}
    {descr : Descr} {e : Fault} (h : p.loadNext opcode args descr = .error e) : Blameless e := by
  unfold Prologue.loadNext at h
  split at h
  · cases h
    simp [Blameless]
  · rename_i v pending _
    cases hload : p.load opcode args v.kind descr with
    | error e' =>
      rw [hload] at h
      cases h
      exact blameless_of_load hload
    | ok r =>
      rw [hload] at h
      cases h

private theorem blameless_of_loadArray {p : Prologue} {object : Var} {arrayLength : Nat → Nat}
    {itemArrays : List ArrayDescr} {field : FieldDescr × Nat} {e : Fault}
    (h : p.loadArray object arrayLength itemArrays field = .error e) : Blameless e := by
  simp only [Prologue.loadArray, bind, Except.bind] at h
  split at h
  · rename_i hload
    cases h
    exact blameless_of_load hload
  · split at h
    · split at h
      · cases h
        simp [Blameless]
      · exact blameless_of_foldlM (fun _ _ _ => blameless_of_loadNext) h
    · cases h
      simp [Blameless]

theorem Trace.loadVirtualizable_eq_error {f : Fault}
    (h : t.loadVirtualizable driver address = .error f) :
    ∀ what error, f ≠ .inconsistent what error := by
  unfold Trace.loadVirtualizable at h
  split at h
  · simp only [bind, Except.bind, pure, Except.pure] at h
    split at h
    · split at h
      · cases h
        simp
      · split at h
        · rename_i hstatic
          cases h
          exact blameless_of_foldlM (fun _ _ _ => blameless_of_loadNext) hstatic
        · split at h
          · rename_i harrays
            cases h
            exact blameless_of_foldlM (fun _ _ _ => blameless_of_loadArray) harrays
          · split at h
            · cases h
              simp
            · cases h
    · cases h
      simp
  · cases h

end Traces

/-- The backends have seen the same submissions and have freed the same units. -/
structure Backend.SameCode (b b' : Backend) : Prop where
  loops : b'.loops = b.loops
  bridges : b'.bridges = b.bridges
  freed : b'.freed = b.freed

namespace Backend

theorem SameCode.refl (b : Backend) : SameCode b b := ⟨rfl, rfl, rfl⟩

theorem SameCode.trans {b b' b'' : Backend} (h : SameCode b b') (h' : SameCode b' b'') :
    SameCode b b'' :=
  ⟨h'.loops.trans h.loops, h'.bridges.trans h.bridges, h'.freed.trans h.freed⟩

variable {b b' : Backend} {what : String} {ops : List Operation} {e : JitError} {code : CodeRange}

private theorem sameCode_assemble (b : Backend) (what : String) (ops : List Operation) :
    SameCode b (b.assemble what ops).2 := by
  unfold assemble
  split <;> exact ⟨rfl, rfl, rfl⟩

theorem compileLoop_eq_error {driver : Nat} {unit : UnitHandle} {inputs : List Var}
    (h : b.compileLoop driver unit what inputs ops = (.error e, b')) : SameCode b b' := by
  have hsame := sameCode_assemble b what ops
  unfold compileLoop at h
  split at h
  · cases h
  · rename_i hassemble
    cases h
    rwa [hassemble] at hsame

theorem compileLoop_eq_ok {driver : Nat} {unit : UnitHandle} {inputs : List Var}
    (h : b.compileLoop driver unit what inputs ops = (.ok code, b')) :
    b'.loops = b.loops ++ [⟨unit, driver, what, inputs, ops, code⟩] ∧
      b'.bridges = b.bridges ∧ b'.freed = b.freed := by
  have hsame := sameCode_assemble b what ops
  unfold compileLoop at h
  split at h
  · rename_i hassemble
    cases h
    rw [hassemble] at hsame
    exact ⟨by rw [← hsame.loops], hsame.bridges, hsame.freed⟩
  · cases h

theorem compileBridge_eq_error {guard : Guard} {home : UnitHandle} {inputs : List Var}
    (h : b.compileBridge guard home inputs ops = (.error e, b')) : SameCode b b' := by
  have hsame := sameCode_assemble b "bridge" ops
  unfold compileBridge at h
  split at h
  · cases h
  · rename_i hassemble
    cases h
    rwa [hassemble] at hsame

theorem compileBridge_eq_ok {guard : Guard} {home : UnitHandle} {inputs : List Var}
    (h : b.compileBridge guard home inputs ops = (.ok code, b')) :
    b'.loops = b.loops ∧ b'.bridges = b.bridges ++ [⟨guard, home, inputs, ops, code⟩] ∧
      b'.freed = b.freed := by
  have hsame := sameCode_assemble b "bridge" ops
  unfold compileBridge at h
  split at h
  · rename_i hassemble
    cases h
    rw [hassemble] at hsame
    exact ⟨hsame.loops, by rw [← hsame.bridges], hsame.freed⟩
  · cases h

end Backend

def Stop.Inconsistent (e : Stop) : Prop :=
  ∃ what error, e = .fault (.inconsistent what error)

theorem Stop.not_inconsistent_error (e : JitError) : ¬ Stop.Inconsistent (.error e) := by
  simp [Inconsistent]

def Stop.IsFault (e : Stop) : Prop := ∃ f, e = .fault f

theorem Stop.not_isFault_error (e : JitError) : ¬ Stop.IsFault (.error e) := by
  simp [IsFault]

namespace Submission

variable {s s' : Submission} {driver : Driver} {inputs : List InputArg} {guard : Guard}
  {home : UnitHandle}

structure Unsent (s s' : Submission) : Prop where
  collector : s'.context.collector = s.context.collector
  entries : s'.context.entries = s.context.entries
  quasiImmut : s'.context.quasiImmut = s.context.quasiImmut
  code : s.context.backend.SameCode s'.context.backend

/--
What sending a loop comes to. If nothing is sent, the unit may still have its number, and code is
blamed only if it has been checked.
-/
inductive LoopSending (driver : Driver) (inputs : List InputArg) (s : Submission) :
    Except Stop Unit → Submission → Prop where
  | sent (trace : Trace) (unit : UnitHandle) (number : Nat) (name : String) (code : CodeRange)
      (backend : Backend) (stats : Stats) (next : Nat)
      (hload : s.trace.forgetForwarding.loadVirtualizable driver
        (virtualizableAddress driver inputs) = .ok trace)
      (hhome : s.trace.home = some unit) (halive : s.context.registry.isAlive unit = true)
      (hcompile : s.context.backend.compileLoop driver.id unit name trace.inputs
        trace.operations = (.ok code, backend))
      (hcheck : trace.check = .ok ()) :
      LoopSending driver inputs s (.ok ()) {
        trace := { trace with number := some number }
        context := Context.keepAlive { s.context with
          registry := (s.context.registry.modify unit fun u =>
            { u with number := some number }).modify unit fun u => { u with code := some code }
          backend, stats, nextNumber := next } unit }
  | unsent (e : Stop) (s' : Submission) (h : Unsent s s')
      (hregistry : s'.context.registry = s.context.registry ∨ ∃ unit number,
        s.trace.home = some unit ∧ s'.context.registry =
          s.context.registry.modify unit fun u => { u with number := some number })
      (hblame : e.Inconsistent → ∃ trace, s.trace.forgetForwarding.loadVirtualizable driver
        (virtualizableAddress driver inputs) = .ok trace ∧ trace.check ≠ .ok ())
      (hfault : e.IsFault → e.Inconsistent ∨ ∃ f, s.trace.forgetForwarding.loadVirtualizable driver
        (virtualizableAddress driver inputs) = .error f) :
      LoopSending driver inputs s (.error e) s'

theorem loopSending (driver : Driver) (inputs : List InputArg) (key : Option GreenKey)
    (kind : String) (s : Submission) :
    LoopSending driver inputs s (runFrom (sendLoop key driver kind inputs) s).1
      (runFrom (sendLoop key driver kind inputs) s).2 := by
  simp only [sendLoop, runFrom_bind, runFrom_modifyTrace, runFrom_get, runFrom_ofFault]
  cases hload : s.trace.forgetForwarding.loadVirtualizable driver
      (virtualizableAddress driver inputs) with
  | error f =>
    dsimp only
    refine .unsent _ _ ⟨rfl, rfl, rfl, .refl _⟩ (.inl rfl) ?_ fun _ => .inr ⟨f, hload⟩
    rintro ⟨what, error, heq⟩
    exact absurd (Stop.fault.inj heq) (Trace.loadVirtualizable_eq_error hload what error)
  | ok trace =>
    have htrace := (Trace.loadVirtualizable_eq_ok hload).1.1
    rw [Trace.home_forgetForwarding] at htrace
    dsimp only
    cases hfilter : trace.home.filter s.context.registry.isAlive with
    | none =>
      simp only [runFrom_throw]
      exact .unsent _ _ ⟨rfl, rfl, rfl, .refl _⟩ (.inl rfl)
        (fun hyes => absurd hyes (Stop.not_inconsistent_error _))
        fun hyes => absurd hyes (Stop.not_isFault_error _)
    | some unit =>
      obtain ⟨hhome, halive⟩ := Option.filter_eq_some_iff.mp hfilter
      rw [htrace] at hhome
      simp only [runFrom_bind, runFrom_get, runFrom_set]
      split
      · rename_i e hcheck
        simp only [runFrom_bind, runFrom_throw]
        refine .unsent _ _ ⟨rfl, rfl, rfl, .refl _⟩ (.inr ⟨unit, _, hhome, rfl⟩)
          (fun _ => ⟨trace, hload, fun hok => ?_⟩) fun _ => .inl ⟨_, e, rfl⟩
        have hcheck : trace.check = .error e := hcheck
        rw [hok] at hcheck
        cases hcheck
      · rename_i hok
        have hcheck : trace.check = .ok () := by
          cases hresult : trace.check with
          | ok _ => rfl
          | error e => exact absurd hresult (hok e)
        simp only [runFrom_bind, runFrom_callBackend, runFrom_modifyContext, Context.takeNumber,
          Context.modifyUnit]
        cases hcompile : s.context.backend.compileLoop driver.id unit (loopName driver key)
            trace.inputs trace.operations with
        | mk answer backend =>
          cases answer with
          | error e =>
            exact .unsent _ _ ⟨rfl, rfl, rfl, Backend.compileLoop_eq_error hcompile⟩
              (.inr ⟨unit, _, hhome, rfl⟩)
              (fun hyes => absurd hyes (Stop.not_inconsistent_error _))
              fun hyes => absurd hyes (Stop.not_isFault_error _)
          | ok code =>
            exact .sent trace unit _ _ code backend _ _ hload hhome halive hcompile hcheck

inductive BridgeSending (guard : Guard) (home : UnitHandle) (s : Submission) :
    Except Stop Unit → Submission → Prop where
  | sent (code : CodeRange) (backend : Backend) (stats : Stats)
      (hcompile : s.context.backend.compileBridge guard home s.trace.inputs
        s.trace.forgetForwarding.operations = (.ok code, backend))
      (hcheck : s.trace.forgetForwarding.checkAsBranch = .ok ()) :
      BridgeSending guard home s (.ok ()) {
        trace := s.trace.forgetForwarding
        context := { s.context with backend, stats } }
  | unsent (e : Stop) (s' : Submission) (h : Unsent s s')
      (hregistry : s'.context.registry = s.context.registry)
      (hblame : e.Inconsistent → s.trace.forgetForwarding.checkAsBranch ≠ .ok ())
      (hfault : e.IsFault → e.Inconsistent) :
      BridgeSending guard home s (.error e) s'

theorem bridgeSending (guard : Guard) (home : UnitHandle) (s : Submission) :
    BridgeSending guard home s (runFrom (sendBridge guard home) s).1
      (runFrom (sendBridge guard home) s).2 := by
  have hinputs : s.trace.forgetForwarding.inputs = s.trace.inputs := by
    unfold Trace.forgetForwarding
    split <;> rfl
  simp only [sendBridge, runFrom_bind, runFrom_modifyTrace, runFrom_get]
  split
  · rename_i e hcheck
    simp only [runFrom_bind, runFrom_throw]
    refine .unsent _ _ ⟨rfl, rfl, rfl, .refl _⟩ rfl (fun _ hok => ?_) fun _ => ⟨_, e, rfl⟩
    rw [hcheck] at hok
    cases hok
  · rename_i hok
    have hcheck : s.trace.forgetForwarding.checkAsBranch = .ok () := by
      cases hresult : s.trace.forgetForwarding.checkAsBranch with
      | ok _ => rfl
      | error e => exact absurd hresult (hok e)
    simp only [runFrom_bind, runFrom_callBackend, runFrom_modifyContext]
    rw [hinputs]
    cases hcompile : s.context.backend.compileBridge guard home s.trace.inputs
        s.trace.forgetForwarding.operations with
    | mk answer backend =>
      cases answer with
      | error e =>
        exact .unsent _ _ ⟨rfl, rfl, rfl, Backend.compileBridge_eq_error hcompile⟩ rfl
          (fun hyes => absurd hyes (Stop.not_inconsistent_error _))
          fun hyes => absurd hyes (Stop.not_isFault_error _)
      | ok code => exact .sent code backend _ hcompile hcheck

end Submission

end HotLoop
