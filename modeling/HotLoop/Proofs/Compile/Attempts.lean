import HotLoop.Proofs.Compile.Bridge
import HotLoop.Proofs.Compile.Prologue
import HotLoop.Proofs.Compile.Session
import HotLoop.Proofs.Compile.Spared

/-!
# Attempts that come to nothing

A compile call makes a unit, lists entry points, places labels and takes numbers before it knows
whether there will be code. Whenever it ends without code and without a fault, all of that has been
undone or has been kept from the context.
-/

namespace HotLoop

/--
A call has ended in the ordinary way, and there is no code: it has given up, or with an error.
-/
def NoCode {α : Type} (answer : Except Stop (Option α)) : Prop :=
  answer = .ok none ∨ ∃ e, answer = .error (.error e)

theorem NoCode.ne_some {α : Type} {answer : Except Stop (Option α)} (h : NoCode answer) (a : α) :
    answer ≠ .ok (some a) := by
  rintro rfl
  rcases h with h | ⟨e, h⟩ <;> cases h

theorem NoCode.ne_fault {α : Type} {answer : Except Stop (Option α)} (h : NoCode answer)
    (f : Fault) : answer ≠ .error (.fault f) := by
  rintro rfl
  rcases h with h | ⟨e, h⟩ <;> cases h

namespace Context

/--
Between `c` and `c'` nothing has happened to units, entry points, guards and code but in the unit
`made`, if there is one, and to what the operations `ops` name: the data of their guards, and the
places of the labels among them.
-/
structure Spares (ops : List Operation) (made : Option UnitHandle) (c c' : Context) : Prop where
  units : ∀ h, made ≠ some h → c'.registry.get? h = c.registry.get? h
  warm : c'.warm = c.warm
  quasiImmut : c'.quasiImmut = c.quasiImmut
  collector : c'.collector = c.collector
  preemption : c'.preemption = c.preemption
  backend : ∃ reject, c'.backend = { c.backend with reject }
  guards : c.guards.Spares ops c'.guards
  length_le : c.entries.homes.length ≤ c'.entries.homes.length
  homes : ∀ e : EntryPoint, e.id < c.entries.homes.length →
    (∀ op ∈ ops, ∀ e', op.labels? = some e' → e'.id ≠ e.id) →
    c'.entries.home? e = c.entries.home? e

namespace Spares

variable {ops : List Operation} {made : Option UnitHandle} {unit : UnitHandle} {c d d' : Context}

theorem refl (ops : List Operation) (c : Context) : Spares ops none c c :=
  ⟨fun _ _ => rfl, rfl, rfl, rfl, rfl, ⟨c.backend.reject, rfl⟩, .refl _ _, Nat.le_refl _,
    fun _ _ _ => rfl⟩

theorem makeUnit (hd : d.registry.WellFormed) (h : Spares ops none c d) (driver : Driver) :
    Spares ops (some (d.makeUnit driver).1) c (d.makeUnit driver).2 ∧
      c.registry.get? (d.makeUnit driver).1 = none := by
  refine ⟨{ h with units := fun u hne => ?_ }, ?_⟩
  · have hget : (d.makeUnit driver).2.registry.get? u =
        if u = (d.makeUnit driver).1 then some { driver := driver.id } else d.registry.get? u :=
      hd.get?_make u
    rw [hget, if_neg fun heq => hne (congrArg some heq.symm)]
    exact h.units u (by simp)
  · rw [← h.units _ (by simp)]
    exact hd.get?_make_fst

theorem modifyUnit (h : Spares ops (some unit) c d) (f : CompiledUnit → CompiledUnit) :
    Spares ops (some unit) c (d.modifyUnit unit f) := by
  refine { h with units := fun u hne => ?_ }
  have hget : (d.modifyUnit unit f).registry.get? u =
      if u = unit then (d.registry.get? unit).map f else d.registry.get? u := Registry.get?_modify ..
  rw [hget, if_neg fun heq => hne (congrArg some heq.symm)]
  exact h.units u hne

theorem releaseUnit (h : Spares ops (some unit) c d) (hnew : c.registry.get? unit = none) :
    Spares ops none c (d.releaseUnit unit) := by
  refine { h with units := fun u _ => ?_ }
  have hget : (d.releaseUnit unit).registry.get? u =
      if u = unit then none else d.registry.get? u := Registry.get?_drop u
  rw [hget]
  split
  · rename_i heq
    rw [heq, hnew]
  · rename_i hne
    exact h.units u fun heq => hne (Option.some.inj heq).symm

theorem afterPass {w : Workbench} {shared : OptState} (h : Spares ops made c w.context)
    (hguards : w.context.guards.Spares ops shared.guards)
    (hentries : w.context.entries.homes <+: shared.entries.homes) :
    Spares ops made c (w.afterPass shared).context where
  units := h.units
  warm := h.warm
  quasiImmut := h.quasiImmut
  collector := h.collector
  preemption := h.preemption
  backend := h.backend
  guards := h.guards.trans hguards
  length_le := Nat.le_trans h.length_le hentries.length_le
  homes e he hno := by
    have hkeeps := EntryTable.KeepsHomes.ofAppend hentries
    exact (hkeeps.home?_eq e (Nat.lt_of_lt_of_le he h.length_le)).trans (h.homes e he hno)

theorem makeEntry (h : Spares ops made c d) (owner : UnitHandle) (kinds : List Kind)
    (home : Option UnitHandle) :
    Spares ops made c { d with entries := (d.entries.make owner kinds home).2 } := by
  let w : Workbench := ⟨d, default⟩
  let shared : OptState := { w.shared with entries := (d.entries.make owner kinds home).2 }
  have hpass : Spares ops made c (w.afterPass shared).context :=
    h.afterPass (.refl _ _) (List.prefix_append ..)
  exact { hpass with }

theorem propagate {s : Submission} (h : Spares ops made c s.context)
    (hlabels : LabelsFrom c.entries.homes.length ops s.trace.operations) :
    Spares ops made c s.propagate.context := by
  refine { h with length_le := ?_, homes := fun e he hno => ?_ }
  · rw [Submission.length_propagate]
    exact h.length_le
  · rw [Submission.home?_propagate_of_not_mem, h.homes e he hno]
    intro op hop e' he' hid
    rcases hlabels op hop e' he' with hle | ⟨o, ho, hlabel⟩
    · omega
    · exact hno o ho e' hlabel hid

/-- More may have happened to what more operations name. -/
theorem mono {ops' : List Operation} (hguards : ∀ g, NamesGuard ops g → NamesGuard ops' g)
    (hlabels : ∀ op ∈ ops, ∀ e, op.labels? = some e → ∃ o ∈ ops', o.labels? = some e)
    (h : Spares ops made c d) : Spares ops' made c d := by
  refine { h with guards := h.guards.mono hguards, homes := fun e he hno => ?_ }
  refine h.homes e he fun op hop e' he' => ?_
  obtain ⟨o, ho, hlabel⟩ := hlabels op hop e' he'
  exact hno o ho e' hlabel

theorem weaken {ops' : List Operation} (hops : ops ⊆ ops') (h : Spares ops made c d) :
    Spares ops' made c d :=
  h.mono (fun _ ⟨op, hop, hg⟩ => ⟨op, hops hop, hg⟩) fun op hop _ he => ⟨op, hops hop, he⟩

theorem refused (h : Spares ops made c d) {b : Backend}
    (hb : ∃ reject, b = { d.backend with reject }) :
    Spares ops made c { d with backend := b } := by
  refine { h with backend := ?_ }
  obtain ⟨reject, hreject⟩ := h.backend
  obtain ⟨reject', rfl⟩ := hb
  exact ⟨reject', by rw [hreject]⟩

end Spares

end Context

namespace Backend

variable {b b' : Backend} {what : String} {ops : List Operation} {e : JitError}

private theorem refused_of_assemble (h : b.assemble what ops = (.error e, b')) :
    ∃ reject, b' = { b with reject } := by
  unfold assemble at h
  split at h
  · cases h
    exact ⟨none, rfl⟩
  · cases h

theorem refused_of_compileLoop {driver : Nat} {unit : UnitHandle} {inputs : List Var}
    (h : b.compileLoop driver unit what inputs ops = (.error e, b')) :
    ∃ reject, b' = { b with reject } := by
  unfold compileLoop at h
  split at h
  · cases h
  · rename_i hassemble
    cases h
    exact refused_of_assemble hassemble

theorem refused_of_compileBridge {guard : Guard} {home : UnitHandle} {inputs : List Var}
    (h : b.compileBridge guard home inputs ops = (.error e, b')) :
    ∃ reject, b' = { b with reject } := by
  unfold compileBridge at h
  split at h
  · cases h
  · rename_i hassemble
    cases h
    exact refused_of_assemble hassemble

end Backend


section Submitting

open Submission

variable {ops : List Operation} {unit home : UnitHandle} {c : Context} {s s' : Submission}
  {key : GreenKey} {driver : Driver} {kind : String} {inputs : List InputArg} {e : JitError}
  {guard : Guard} {session : Session}

private theorem sendLoop_spares (h : Context.Spares ops (some unit) c s.context)
    (hhome : s.trace.home = some unit)
    (hrun : runFrom (sendLoop (some key) driver kind inputs) s = (.error (.error e), s')) :
    Context.Spares ops (some unit) c s'.context := by
  simp only [sendLoop, runFrom_bind, runFrom_modifyTrace, runFrom_get, runFrom_ofFault] at hrun
  cases hload : s.trace.forgetForwarding.loadVirtualizable driver
      (virtualizableAddress driver inputs) with
  | error f =>
    rw [hload] at hrun
    cases hrun
  | ok trace =>
    have htrace := (Trace.loadVirtualizable_eq_ok hload).1.1
    rw [Trace.home_forgetForwarding] at htrace
    rw [hload] at hrun
    dsimp only at hrun
    cases hfilter : trace.home.filter s.context.registry.isAlive with
    | none =>
      rw [hfilter] at hrun
      cases hrun
      exact h
    | some unit' =>
      obtain ⟨hhome', -⟩ := Option.filter_eq_some_iff.mp hfilter
      have heq : unit' = unit := Option.some.inj ((htrace.symm.trans hhome').symm.trans hhome)
      subst heq
      rw [hfilter] at hrun
      simp only [runFrom_bind, runFrom_get, runFrom_set] at hrun
      split at hrun
      · cases hrun
      · simp only [runFrom_bind, runFrom_callBackend, runFrom_modifyContext] at hrun
        have hnumbered := h.modifyUnit fun u => { u with number := some s.context.nextNumber }
        cases hcompile : s.context.backend.compileLoop driver.id unit'
            (loopName driver (some key)) trace.inputs trace.operations with
        | mk answer backend =>
          simp only [Context.takeNumber, Context.modifyUnit, hcompile] at hrun
          cases answer with
          | ok code => cases hrun
          | error e' =>
            cases hrun
            have hrefused := hnumbered.refused (Backend.refused_of_compileLoop hcompile)
            exact { hrefused with }

theorem record_ne_error (s : Submission) (e : JitError) :
    (runFrom record s).1 ≠ .error (.error e) := by
  simp only [record, runFrom_bind, runFrom_get]
  cases s.trace.home with
  | none => simp
  | some home => simp

private theorem launch_spares (h : Context.Spares ops (some unit) c s.context)
    (hnew : c.registry.get? unit = none) (hhome : s.trace.home = some unit)
    (hrun : runFrom ((sendLoop (some key) driver kind inputs).onError fun s =>
      { s with context := s.context.releaseUnit unit }) s = (.error (.error e), s')) :
    Context.Spares ops none c s'.context := by
  rw [runFrom_onError] at hrun
  generalize hr : runFrom (sendLoop (some key) driver kind inputs) s = r at hrun
  obtain ⟨answer, t⟩ := r
  match answer with
  | .error (.error e') =>
    cases hrun
    exact (sendLoop_spares h hhome hr).releaseUnit hnew
  | .error (.fault f) => cases hrun
  | .ok _ => cases hrun

theorem sendNewLoop_spares (h : Context.Spares ops (some unit) c s.context)
    (hnew : c.registry.get? unit = none) (hhome : s.trace.home = some unit)
    (hlabels : LabelsFrom c.entries.homes.length ops s.trace.operations)
    (hrun : runFrom (sendNewLoop key driver inputs unit) s = (.error (.error e), s')) :
    Context.Spares ops none c s'.context := by
  rw [sendNewLoop, runFrom_bind, runFrom_modify] at hrun
  rcases runFrom_bind_eq_error.mp hrun with hrun | ⟨_, t, -, hrun⟩
  · exact launch_spares (h.propagate hlabels) hnew hhome hrun
  · rw [runFrom_bind, runFrom_modifyContext] at hrun
    exact absurd (congrArg Prod.fst hrun) (record_ne_error _ e)

private theorem sendBridge_spares (h : Context.Spares ops none c s.context)
    (hrun : runFrom (sendBridge guard home) s = (.error (.error e), s')) :
    Context.Spares ops none c s'.context := by
  simp only [sendBridge, runFrom_bind, runFrom_modifyTrace, runFrom_get] at hrun
  split at hrun
  · cases hrun
  · simp only [runFrom_bind, runFrom_callBackend, runFrom_modifyContext] at hrun
    cases hcompile : s.context.backend.compileBridge guard home s.trace.forgetForwarding.inputs
        s.trace.forgetForwarding.operations with
    | mk answer backend =>
      simp only [hcompile] at hrun
      cases answer with
      | ok code => cases hrun
      | error e' =>
        cases hrun
        exact h.refused (Backend.refused_of_compileBridge hcompile)

private theorem attachToGuard_spares (h : Context.Spares ops none c s.context)
    (hlabels : LabelsFrom c.entries.homes.length ops s.trace.operations)
    (hrun : runFrom (attachToGuard session guard) s = (.error (.error e), s')) :
    Context.Spares ops none c s'.context := by
  rw [attachToGuard, runFrom_bind, runFrom_get] at hrun
  dsimp only at hrun
  cases hfilter : session.home.filter s.context.registry.isAlive with
  | none =>
    rw [hfilter] at hrun
    cases hrun
    exact h
  | some home =>
    rw [hfilter] at hrun
    dsimp only at hrun
    rw [runFrom_bind, runFrom_modifyTrace] at hrun
    dsimp only at hrun
    rw [runFrom_bind, runFrom_modify] at hrun
    rcases runFrom_bind_eq_error.mp hrun with hrun | ⟨_, t, -, hrun⟩
    · exact sendBridge_spares
        (h.propagate (s := { s with trace := { s.trace with home := some home } }) hlabels) hrun
    · cases hrun

private theorem attachToInterpreter_spares (h : Context.Spares ops none c s.context)
    (hs : s.context.registry.WellFormed)
    (hlabels : LabelsFrom c.entries.homes.length ops s.trace.operations)
    (hrun : runFrom (attachToInterpreter session key) s = (.error (.error e), s')) :
    Context.Spares ops none c s'.context := by
  rw [attachToInterpreter, runFrom_bind, runFrom_get] at hrun
  obtain ⟨hmade, hnew⟩ := h.makeUnit hs session.driver
  dsimp only at hrun
  generalize (s.context.makeUnit session.driver).1 = unit at hrun hmade hnew
  generalize (s.context.makeUnit session.driver).2 = c₁ at hrun hmade
  rw [runFrom_bind, runFrom_modify] at hrun
  dsimp only at hrun
  rw [runFrom_bind, runFrom_modify] at hrun
  rcases runFrom_bind_eq_error.mp hrun with hrun | ⟨_, t, -, hrun⟩
  · exact launch_spares
      (hmade.propagate (s := ⟨c₁, { s.trace with home := some unit }⟩) hlabels) hnew rfl hrun
  · cases hrun

theorem attach_spares (resumeKey : ResumeKey) (h : Context.Spares ops none c s.context)
    (hs : s.context.registry.WellFormed)
    (hlabels : LabelsFrom c.entries.homes.length ops s.trace.operations)
    (hrun : runFrom (attach session resumeKey) s = (.error (.error e), s')) :
    Context.Spares ops none c s'.context := by
  cases resumeKey with
  | guard guard => exact attachToGuard_spares h hlabels hrun
  | interpreter key => exact attachToInterpreter_spares h hs hlabels hrun

private theorem checkBranch_ne_ok {seen : List Nat} {code : List Operation}
    (hcode : ∀ op ∈ code, op.isFinal = false) : checkBranch seen code ≠ .ok () := by
  unfold checkBranch
  split
  · simp
  · rename_i last hlast
    rw [hcode last (List.mem_of_getLast? hlast)]
    simp

private theorem sendBridge_ne_ok (guard : Guard) (home : UnitHandle)
    (hops : ∀ op ∈ s.trace.operations, op.isFinal = false) :
    (runFrom (sendBridge guard home) s).1 ≠ .ok () := by
  have hcheck : s.trace.forgetForwarding.checkAsBranch ≠ .ok () := by
    refine checkBranch_ne_ok ?_
    rw [Trace.operations_forgetForwarding]
    intro op hop
    obtain ⟨o, ho, rfl⟩ := List.mem_map.mp hop
    exact hops o ho
  simp only [sendBridge, runFrom_bind, runFrom_modifyTrace, runFrom_get]
  cases hresult : s.trace.forgetForwarding.checkAsBranch with
  | ok _ => exact absurd hresult hcheck
  | error e => simp

private theorem sendLoop_ne_ok (hops : ∀ op ∈ s.trace.operations, op.isFinal = false) :
    (runFrom (sendLoop (some key) driver kind inputs) s).1 ≠ .ok () := by
  simp only [sendLoop, runFrom_bind, runFrom_modifyTrace, runFrom_get, runFrom_ofFault]
  cases hload : s.trace.forgetForwarding.loadVirtualizable driver
      (virtualizableAddress driver inputs) with
  | error f => simp
  | ok trace =>
    have hforget : ∀ op ∈ s.trace.forgetForwarding.operations, op.isFinal = false := by
      rw [Trace.operations_forgetForwarding]
      intro op hop
      obtain ⟨o, ho, rfl⟩ := List.mem_map.mp hop
      exact hops o ho
    have hops' : ∀ op ∈ trace.operations, op.isFinal = false := by
      cases hvirtualizable : driver.virtualizable with
      | none =>
        rw [(Trace.loadVirtualizable_eq_ok hload).2 hvirtualizable]
        exact hforget
      | some fields =>
        obtain ⟨object, p, hloads⟩ := Trace.loads_of_loadVirtualizable hvirtualizable hload
        exact hloads.opcodes (Q := fun o => o.isFinal = false) rfl rfl hforget
    dsimp only
    cases trace.home.filter s.context.registry.isAlive with
    | none => simp
    | some unit =>
      simp only [runFrom_bind, runFrom_get, runFrom_set]
      split
      · simp
      · rename_i hok
        have hchecked : checkCode trace.inputs trace.operations = .ok () := by
          cases hresult : checkCode trace.inputs trace.operations with
          | ok _ => rfl
          | error e => exact absurd hresult (hok e)
        unfold checkCode at hchecked
        split at hchecked
        · cases hchecked
        · exact absurd hchecked (checkBranch_ne_ok hops')

theorem attach_ne_ok (session : Session) (resumeKey : ResumeKey)
    (hops : ∀ op ∈ s.trace.operations, op.isFinal = false) :
    (runFrom (attach session resumeKey) s).1 ≠ .ok () := by
  cases resumeKey with
  | guard guard =>
    rw [attach, attachToGuard, runFrom_bind, runFrom_get]
    dsimp only
    cases session.home.filter s.context.registry.isAlive with
    | none => simp
    | some home =>
      simp only [runFrom_bind, runFrom_modifyTrace, runFrom_modify]
      have hsend := sendBridge_ne_ok guard home
        (s := propagate { s with trace := { s.trace with home := some home } }) hops
      split
      · rename_i hok
        exact absurd hok hsend
      · simp
  | interpreter key =>
    rw [attach, attachToInterpreter, runFrom_bind, runFrom_get]
    dsimp only
    simp only [runFrom_bind, runFrom_modify, runFrom_onError]
    generalize hq : propagate _ = q
    have hsend : (runFrom (sendLoop (some key) session.driver "entry bridge"
        session.history.inputs) q).1 ≠ .ok () := by
      rw [← hq]
      exact sendLoop_ne_ok hops
    generalize runFrom (sendLoop (some key) session.driver "entry bridge"
      session.history.inputs) q = r at hsend
    obtain ⟨answer, t⟩ := r
    rcases answer with (e | f) | _
    · simp
    · simp
    · exact absurd rfl hsend

end Submitting

namespace Workbench

open Context

section Optimizing

variable {α β : Type} {ops : List Operation} {made : Option UnitHandle} {unit : UnitHandle}
  {c : Context} {w w' : Workbench} {opts : OptSet} {pass : PassSettings → PassM Pass α}

/-- A pass spares all but the data of the guards in the trace. -/
structure Sparing (ops : List Operation) (pass : PassSettings → PassM Pass α) : Prop where
  entries : ∀ s p, Goes Pass.Extends Rejection.Inconsistent (pass s) p
  guards : ∀ s p, Goes (Pass.SparesGuards ops) (fun _ => False) (pass s) p

theorem optimize_spares (hpass : Sparing ops pass) (h : Spares ops made c w.context)
    {next : Option α → CompileM (Option β)} {answer : Except Stop (Option β)}
    (hanswer : NoCode answer) (hrun : runFrom (optimize opts pass >>= next) w = (answer, w')) :
    (∃ w₁, Spares ops made c w₁.context ∧ w₁.context.registry = w.context.registry ∧
      runFrom (next none) w₁ = (answer, w')) ∨
    ∃ a p, runFrom (pass (w.settings opts)) (.ofShared w.shared) = (.ok a, p) ∧
      Spares ops made c (w.afterPass p.shared).context ∧
      runFrom (next (some a)) (w.afterPass p.shared) = (answer, w') := by
  have hspares (p : Pass) (hp : (runFrom (pass (w.settings opts)) (.ofShared w.shared)).2 = p) :
      Spares ops made c (w.afterPass p.shared).context := by
    rw [← hp]
    exact h.afterPass (hpass.guards (w.settings opts) (.ofShared w.shared)).1
      (hpass.entries (w.settings opts) (.ofShared w.shared)).1.homes
  rw [runFrom_bind, runFrom_optimize] at hrun
  generalize hr : runFrom (pass (w.settings opts)) (.ofShared w.shared) = r at hrun hspares
  obtain ⟨answer₁, p⟩ := r
  match answer₁ with
  | .ok a => exact .inr ⟨a, p, rfl, hspares p rfl, hrun⟩
  | .error (.invalid _) =>
    refine .inl ⟨_, ?_, ?_, hrun⟩
    · exact { hspares p rfl with }
    · rfl
  | .error (.fault f) =>
    cases hrun
    exact absurd rfl (hanswer.ne_fault f)

/-- A unit that has been made for a pass is released if the pass gives up. -/
theorem optimizeFor_spares (hpass : Sparing ops pass)
    (h : Spares ops (some unit) c w.context) (hnew : c.registry.get? unit = none)
    {next : Option α → CompileM (Option β)} {answer : Except Stop (Option β)}
    (hanswer : NoCode answer)
    (hrun : runFrom (optimizeFor unit opts pass >>= next) w = (answer, w'))
    (hnone : next none = pure none)
    (hsome : ∀ a p, runFrom (pass (w.settings opts)) (.ofShared w.shared) = (.ok a, p) →
      Spares ops (some unit) c (w.afterPass p.shared).context →
      runFrom (next (some a)) (w.afterPass p.shared) = (answer, w') →
      Spares ops none c w'.context) : Spares ops none c w'.context := by
  rw [optimizeFor, bind_assoc] at hrun
  rcases optimize_spares hpass h hanswer hrun with ⟨w₁, hw₁, -, hrun⟩ | ⟨a, p, hpass, hp, hrun⟩
  · simp only [Option.isNone_none, if_true, bind_assoc, pure_bind, hnone, runFrom_bind,
      runFrom_modifyContext, runFrom_pure, Prod.mk.injEq] at hrun
    rw [← hrun.2]
    exact hw₁.releaseUnit hnew
  · exact hsome a p hpass hp hrun

end Optimizing

end Workbench

end HotLoop
