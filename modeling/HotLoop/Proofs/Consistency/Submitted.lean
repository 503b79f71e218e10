import HotLoop.Proofs.Compile.NoCode
import HotLoop.Proofs.Consistency.Calls

/-!
# Submitted code is consistent

The code of a temporary callback is consistent as it is made. With what has been shown of the other
calls, whatever the calls submit for well recorded sessions is consistent, and the faults that
would report the opposite are never met. Only loops that are unrolled need more than that they are
well recorded.
-/

namespace HotLoop

section Callbacks

variable {driver : Driver} {greens : List Arg} {reds : List Kind} {ids ids' : ValueIds}
  {inputs : List Var} {ops : List Operation}

theorem checkCode_callbackCode (hgreens : ∀ a ∈ greens, a.var? = none)
    (h : callbackCode driver greens reds = .ok (inputs, ops)) : checkCode inputs ops = .ok () := by
  obtain ⟨result, hnodup, hnew, rfl⟩ := callbackCode_eq_ok h
  obtain ⟨seen, hinputs, hseen⟩ := checkInputs_eq_ok hnodup
  rw [checkCode, hinputs]
  have hargs : ∀ v, v ∈ (Arg.int driver.portalAddress :: greens ++ inputs.map Arg.var).filterMap
      Arg.var? → v.id ∈ seen := by
    intro v hv
    obtain ⟨a, ha, hav⟩ := List.mem_filterMap.mp hv
    simp only [List.cons_append, List.mem_cons, List.mem_append, List.mem_map] at ha
    obtain rfl | ha | ⟨u, hu, rfl⟩ := ha
    · cases hav
    · rw [hgreens a ha] at hav
      cases hav
    · cases hav
      exact (hseen _).mpr (List.mem_map_of_mem hu)
  let call : Operation := {
    opcode := .call, args := .int driver.portalAddress :: greens ++ inputs.map .var, result
    descr := some (.call driver.portal) }
  have hcall : Flows seen [call] (result.toList.map (·.id) ++ seen) := by
    refine .single rfl (fun v hv => ?_) (visibleAfter_eq_ok.mpr (.inr ⟨OpCode.noConfusion, ?_⟩))
    · exact (List.mem_append.mp hv).elim (hargs v) fun hv => by cases hv
    · cases result with
      | none => exact .inl ⟨rfl, rfl⟩
      | some r => exact .inr ⟨r, rfl, fun hmem => hnew r rfl ((hseen _).mp hmem), rfl⟩
  let guard : Operation := {
    opcode := .guardNoException, args := [], descr := some (.final .propagateException)
    failArgs := some [] }
  have hguard : Flows (result.toList.map (·.id) ++ seen) [guard]
      (result.toList.map (·.id) ++ seen) :=
    .single rfl (fun v hv => by cases hv) (visibleAfter_eq_ok.mpr
      (.inr ⟨OpCode.noConfusion, .inl ⟨rfl, rfl⟩⟩))
  refine (hcall.append hguard).checkBranch_append (checkBranch_singleton rfl (fun v hv => ?_) ?_)
  · rcases List.mem_append.mp hv with hv | hv
    · obtain ⟨a, ha, hav⟩ := List.mem_filterMap.mp hv
      obtain ⟨r, hr, rfl⟩ := List.mem_map.mp ha
      cases hav
      exact List.mem_append_left _ (List.mem_map_of_mem hr)
    · cases hv
  · rintro r ⟨⟩

theorem Context.compileCallback_consistent {c : Context} (hgreens : ∀ a ∈ greens, a.var? = none) :
    Goes (Adds consistentCode id) consistentCode.Forbids (compileCallback driver greens reds) c :=
  compileCallback_sound fun _ _ hcode => checkCode_callbackCode hgreens hcode

end Callbacks

namespace CompileCall

/-- What the call compiles has been recorded as a tracer records it. -/
def WellRecorded (call : CompileCall) (w : Workbench) : Prop :=
  match call with
  | loop _ start inputs jumpArgs _ =>
    HotLoop.WellRecorded (inputs.map (·.var)) (w.session.history.operations.drop start) jumpArgs
      w.session.history.values.next
  | simpleLoop _ inputs ops jumpArgs _ =>
    HotLoop.WellRecorded (inputs.map (·.var)) ops jumpArgs w.session.history.values.next
  | trace _ => ∃ ops closing, Workbench.RecordsBridge w.session ops closing
  | retrace _ start inputs jumpArgs _ =>
    Workbench.RecordsRetrace w.session start inputs jumpArgs
  | callback _ greens _ => ∀ a ∈ greens, a.var? = none

/-- If the call unrolls a loop, then the guards in it keep what they hand over. -/
def KeepsExits (call : CompileCall) (w : Workbench) : Prop :=
  match call with
  | loop _ start inputs jumpArgs avoidUnroll =>
    avoidUnroll = false → w.enabled.contains .unroll = true →
      HotLoop.KeepsExits (inputs.map (·.var)) (w.session.history.operations.drop start) jumpArgs
  | _ => True

/-- Does the call end with the fault that its code is inconsistent? -/
def blamesCode (call : CompileCall) (w : Workbench) : Bool :=
  match (call.perform w).1 with
  | .error (.fault (.inconsistent _ _)) => true
  | _ => false

private theorem blamesCode_eq_false {call : CompileCall} {w : Workbench}
    (h : ∀ e, (call.perform w).1 = .error e → ¬ e.Inconsistent) : call.blamesCode w = false := by
  unfold blamesCode
  split
  · rename_i what error hanswer
    exact absurd ⟨what, error, rfl⟩ (h _ hanswer)
  · rfl

private theorem perform_of_goes {σ α : Type} {view : σ → Context} {x : ExceptT Stop (StateM σ) α}
    {s : σ} (f : α → Bool) (h : Goes (Adds consistentCode view) consistentCode.Forbids x s) :
    (∀ e, (runFrom x s).1.map f = .error e → ¬ e.Inconsistent) ∧
      Adds consistentCode id (view s) (view (runFrom x s).2) := by
  refine ⟨fun e he => ?_, h.1.loops, h.1.bridges⟩
  cases hanswer : (runFrom x s).1 with
  | error e' =>
    rw [hanswer] at he
    cases he
    exact fun hblames => h.2 e hanswer ⟨trivial, hblames⟩
  | ok a =>
    rw [hanswer] at he
    cases he

/--
Whatever the compile calls submit for well recorded sessions is consistent, and they never end with
the fault that it is not.
-/
theorem adds_consistent (call : CompileCall) (w : Workbench)
    (hdriver : w.session.driver.LoadsFromReds) (h : call.WellRecorded w)
    (hkeeps : call.KeepsExits w) :
    call.blamesCode w = false ∧ Adds consistentCode id w.context (call.perform w).2 := by
  have hperform : (∀ e, (call.perform w).1 = .error e → ¬ e.Inconsistent) ∧
      Adds consistentCode id w.context (call.perform w).2 := by
    cases call with
    | loop => exact perform_of_goes _ (Workbench.compileLoop_consistent hdriver h hkeeps)
    | simpleLoop => exact perform_of_goes _ (Workbench.compileSimpleLoop_consistent hdriver h)
    | trace =>
      obtain ⟨ops, closing, h⟩ := h
      exact perform_of_goes _ (Workbench.compileTrace_consistent hdriver h)
    | retrace => exact perform_of_goes _ (Workbench.compileRetrace_consistent hdriver h)
    | callback => exact perform_of_goes _ (Context.compileCallback_consistent h)
  exact ⟨blamesCode_eq_false hperform.1, hperform.2⟩

/-- A loop whose guard defines a pointer and hands over the input. -/
def catchingLoop : Session where
  driver := default
  history := {
    inputs := [⟨⟨0, .ref⟩, .ref 8⟩]
    operations := [{
      opcode := .guardException, args := [.const (.ref 16)], result := some ⟨1, .ref⟩
      failArgs := some [some ⟨0, .ref⟩] }]
    values := ⟨2⟩ }

/-- It goes on with one of the two. -/
def compileCatchingLoop (v : Var) : CompileCall :=
  .loop ⟨[]⟩ 0 catchingLoop.history.inputs [.var v] false

private theorem catchingLoop_inner : ∀ op ∈ catchingLoop.history.operations, op.Inner := by
  intro op hop
  obtain rfl := List.mem_singleton.mp hop
  exact ⟨rfl, fun _ => .inr ⟨rfl, fun _ => by simp⟩, fun h => by cases h⟩

/-- A loop that goes on with its input is consistent. -/
theorem adds_consistent_catchingLoop :
    let call := compileCatchingLoop ⟨0, .ref⟩
    let w : Workbench := ⟨.ofConfig { counterBits := 1 }, catchingLoop⟩
    w.session.driver.LoadsFromReds ∧ call.WellRecorded w ∧ call.KeepsExits w ∧
      call.blamesCode w = false ∧ Adds consistentCode id w.context (call.perform w).2 := by
  intro call w
  have hdriver : w.session.driver.LoadsFromReds := .inl rfl
  have hrecorded : call.WellRecorded w :=
    { (by decide : WellFormedLoop [⟨0, .ref⟩] catchingLoop.history.operations
        [.var ⟨0, .ref⟩] 2) with
      once := by decide
      inner := catchingLoop_inner }
  have hkeeps : call.KeepsExits w := by
    intro _ _ op hop r hr e he u hu hcopy
    obtain rfl := List.mem_singleton.mp hop
    cases hr
    obtain rfl := List.mem_singleton.mp he
    cases hu
    exact absurd hcopy (by decide)
  exact ⟨hdriver, hrecorded, hkeeps, adds_consistent call w hdriver hrecorded hkeeps⟩

/--
If it goes on with what the guard defines, the header takes that for its input. The guard then hands
over what it defines itself.
-/
theorem blamesCode_catchingLoop :
    let call := compileCatchingLoop ⟨1, .ref⟩
    let w : Workbench := ⟨.ofConfig { counterBits := 1 }, catchingLoop⟩
    w.session.driver.LoadsFromReds ∧ call.WellRecorded w ∧ call.blamesCode w = true := by
  intro call w
  refine ⟨.inl rfl, ?_, by decide +kernel⟩
  exact { (by decide : WellFormedLoop [⟨0, .ref⟩] catchingLoop.history.operations
      [.var ⟨1, .ref⟩] 2) with
    once := by decide
    inner := catchingLoop_inner }

end CompileCall

end HotLoop
