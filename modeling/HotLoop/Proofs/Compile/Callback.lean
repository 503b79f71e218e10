import HotLoop.Proofs.Compile.Outcome

/-!
# Compiling temporary callbacks

A callback is the code of a new unit. It calls the portal of the interpreter and does not lead to
any other unit.
-/

namespace HotLoop

variable {driver : Driver} {greens : List Arg} {reds : List Kind}

theorem leadsTo?_callbackCode {inputs : List Var} {ops : List Operation} (entries : EntryTable)
    (h : callbackCode driver greens reds = .ok (inputs, ops)) :
    ∀ op ∈ ops, op.leadsTo? entries = none := by
  have hops (call guard finish : Operation)
      (hdescr : call.descr = some (.call driver.portal) ∧
        guard.descr = some (.final .propagateException) ∧
        finish.descr = some (.final driver.doneDescr)) :
      ∀ op ∈ [call, guard, finish], op.leadsTo? entries = none := by
    intro op hop
    simp only [List.mem_cons, List.not_mem_nil, or_false] at hop
    rcases hop with rfl | rfl | rfl
    · rw [Operation.leadsTo?, hdescr.1]
    · rw [Operation.leadsTo?, hdescr.2.1]
    · rw [Operation.leadsTo?, hdescr.2.2]
  simp only [callbackCode, bind, Except.bind, pure, Except.pure] at h
  split at h
  · cases h
  · split at h
    · cases h
      exact hops _ _ _ ⟨rfl, rfl, rfl⟩
    · split at h
      · cases h
      · cases h
        exact hops _ _ _ ⟨rfl, rfl, rfl⟩

section Code

variable {ids ids' : ValueIds} {inputs : List Var} {ops : List Operation}

private theorem freshVars_eq_ok {vars : List Var} (h : freshVars ids reds = .ok (vars, ids')) :
    (vars.map (·.id)).Nodup ∧ ids.next ≤ ids'.next ∧
      ∀ i ∈ vars.map (·.id), ids.next ≤ i ∧ i < ids'.next := by
  induction reds generalizing ids vars with
  | nil =>
    cases h
    exact ⟨List.nodup_nil, Nat.le_refl _, by simp⟩
  | cons k reds ih =>
    simp only [freshVars, bind, Except.bind, pure, Except.pure] at h
    split at h
    · cases h
    · rename_i first hfresh
      obtain ⟨v, ids₁⟩ := first
      obtain ⟨hv, hnext⟩ := ValueIds.fresh_eq_ok hfresh
      split at h
      · cases h
      · rename_i others hvars
        obtain ⟨vs, ids₂⟩ := others
        cases h
        obtain ⟨hnodup, hle, hbounds⟩ := ih hvars
        have hid : v.id = ids.next := by rw [hv]
        dsimp only at hnext hbounds hle ⊢
        refine ⟨List.nodup_cons.mpr ⟨fun hmem => ?_, hnodup⟩, by omega, fun i hi => ?_⟩
        · have := (hbounds v.id hmem).1
          omega
        · rcases List.mem_cons.mp hi with rfl | hi
          · dsimp only
            omega
          · have := hbounds i hi
            omega

private theorem eq_of_fresh_eq_error {k : Kind} {f : Fault} (h : ids.fresh k = .error f) :
    f = .valuesExhausted := by
  unfold ValueIds.fresh at h
  split at h
  · cases h
  · cases h
    rfl

private theorem eq_of_freshVars_eq_error {f : Fault} (h : freshVars ids reds = .error f) :
    f = .valuesExhausted := by
  induction reds generalizing ids with
  | nil => cases h
  | cons k reds ih =>
    simp only [freshVars, bind, Except.bind, pure, Except.pure] at h
    split at h
    · rename_i hfresh
      cases h
      exact eq_of_fresh_eq_error hfresh
    · split at h
      · rename_i hvars
        cases h
        exact ih hvars
      · cases h

theorem eq_of_callbackCode_eq_error {f : Fault}
    (h : callbackCode driver greens reds = .error f) : f = .valuesExhausted := by
  simp only [callbackCode, bind, Except.bind, pure, Except.pure] at h
  split at h
  · rename_i hvars
    cases h
    exact eq_of_freshVars_eq_error hvars
  · split at h
    · cases h
    · split at h
      · rename_i hfresh
        cases h
        exact eq_of_fresh_eq_error hfresh
      · cases h

theorem callbackCode_eq_ok (h : callbackCode driver greens reds = .ok (inputs, ops)) :
    ∃ result : Option Var, (inputs.map (·.id)).Nodup ∧
      (∀ r, result = some r → r.id ∉ inputs.map (·.id)) ∧ ops = [
        { opcode := .call, args := .int driver.portalAddress :: greens ++ inputs.map .var, result
          descr := some (.call driver.portal) },
        { opcode := .guardNoException, args := [], descr := some (.final .propagateException)
          failArgs := some [] },
        { opcode := .finish, args := result.toList.map .var
          descr := some (.final driver.doneDescr) }] := by
  simp only [callbackCode, bind, Except.bind, pure, Except.pure] at h
  split at h
  · cases h
  · rename_i made hvars
    obtain ⟨vars, ids⟩ := made
    obtain ⟨hnodup, -, hbounds⟩ := freshVars_eq_ok hvars
    split at h
    · cases h
      exact ⟨none, hnodup, by simp, rfl⟩
    · split at h
      · cases h
      · rename_i made hfresh
        obtain ⟨v, ids₁⟩ := made
        cases h
        obtain ⟨hv, -⟩ := ValueIds.fresh_eq_ok hfresh
        refine ⟨some v, hnodup, ?_, rfl⟩
        rintro _ ⟨⟩ hmem
        have := (hbounds v.id hmem).2
        rw [hv] at this
        exact Nat.lt_irrefl _ this

end Code

namespace Context

variable {c c' : Context}

theorem compileCallback_compiled (hc : c.registry.WellFormed) {answer : Except Stop UnitHandle}
    (h : runFrom (compileCallback driver greens reds) c = (answer, c')) : Compiled [] c c' := by
  rw [compileCallback] at h
  split at h
  · cases h
    exact .quiet (.refl _ _)
  · rw [runFrom_bind, runFrom_get] at h
    have hmake : Building [] (c.makeUnit driver).1 c (c.makeUnit driver).2 := .make hc driver
    dsimp only at h
    generalize (c.makeUnit driver).1 = unit at h hmake
    generalize (c.makeUnit driver).2 = c₁ at h hmake
    simp only [runFrom_bind, runFrom_set, runFrom_ofFault] at h
    cases hcode : callbackCode driver greens reds with
    | error f =>
      rw [hcode] at h
      cases h
      exact .unfinished unit hmake
    | ok code =>
      obtain ⟨inputs, ops⟩ := code
      rw [hcode] at h
      dsimp only at h
      cases hcompile : c₁.backend.compileLoop driver.id unit "tmp callback" inputs ops with
      | mk result backend =>
        rw [hcompile] at h
        dsimp only at h
        cases result with
        | error e =>
          cases h
          have hbackend := Backend.compileLoop_eq_error hcompile
          have hfailed : Building [] unit c { c₁ with backend } :=
            hmake.quiet ⟨rfl, rfl, hbackend, fun _ => .refl _⟩
          exact .released unit _ hfailed (.refl _ _)
        | ok range =>
          cases h
          have hd : Building [] unit c
              (c₁.modifyUnit unit fun u => { u with code := some range }) :=
            hmake.modify (f := fun u => { u with code := some range })
              (fun _ => ⟨rfl, rfl, rfl⟩) rfl rfl (.refl _) rfl
          have hsent : Submitted [] none unit ops c (({ c₁ with backend }.modifyUnit unit fun u =>
              { u with code := some range }).keepAlive unit) :=
            .loop _ ⟨unit, driver.id, "tmp callback", inputs, ops, range⟩ hd ⟨rfl, rfl⟩ (by simp)
              rfl rfl rfl (Backend.compileLoop_eq_ok hcompile)
          exact .submitted none unit ops _ hsent (.refl (leadsTo?_callbackCode _ hcode) _) rfl rfl
            rfl

end Context

end HotLoop
