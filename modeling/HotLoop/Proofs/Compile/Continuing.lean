import HotLoop.Proofs.Compile.Sending

/-!
# Compile calls leave the recorded history alone

A session can compile more than once what it has recorded. Between two calls only the numbers that
are fresh change, which never become smaller, and the bridge that waits.
-/

namespace HotLoop.Workbench

/-- The second session has recorded what the first one has. -/
structure Continues (w w' : Workbench) : Prop where
  driver : w'.session.driver = w.session.driver
  memo : w'.session.memo = w.session.memo
  inputs : w'.session.history.inputs = w.session.history.inputs
  operations : w'.session.history.operations = w.session.history.operations
  next_le : w.session.history.values.next ≤ w'.session.history.values.next

variable {w w' : Workbench} {α β : Type} {opts : OptSet} {pass : PassSettings → PassM Pass α}

theorem Continues.of_eq (h : w'.session = w.session) : Continues w w' where
  driver := by rw [h]
  memo := by rw [h]
  inputs := by rw [h]
  operations := by rw [h]
  next_le := Nat.le_of_eq (by rw [h])

instance : Std.Refl Continues := ⟨fun _ => .of_eq rfl⟩

instance : IsTrans Workbench Continues where
  trans _ _ _ h h' :=
    ⟨h'.driver.trans h.driver, h'.memo.trans h.memo, h'.inputs.trans h.inputs,
      h'.operations.trans h.operations, Nat.le_trans h.next_le h'.next_le⟩

private theorem optimize_continues
    (hpass : ∀ s p, Goes Pass.Extends Rejection.Inconsistent (pass s) p) :
    Goes Continues (fun _ => False) (optimize opts pass) w := by
  refine ⟨?_, fun _ _ => id⟩
  have hle := (hpass (w.settings opts) (.ofShared w.shared)).1.next_le
  rw [runFrom_optimize]
  generalize runFrom (pass (w.settings opts)) (.ofShared w.shared) = r at hle
  obtain ⟨answer, p⟩ := r
  rcases answer with (why | f) | a <;> exact ⟨rfl, rfl, rfl, rfl, hle⟩

private theorem optimizeFor_continues {unit : UnitHandle}
    (hpass : ∀ s p, Goes Pass.Extends Rejection.Inconsistent (pass s) p) :
    Goes Continues (fun _ => False) (optimizeFor unit opts pass) w := by
  refine .bind (optimize_continues hpass) fun result _ _ => ?_
  split
  · exact .bind_of_eq (runFrom_modifyContext _) (.of_eq rfl) (.pure _)
  · exact .pure _

private theorem submitting_continues {trace : Trace} {x : JitM Submission α} :
    Goes Continues (fun _ => False) (submitting trace x) w :=
  ⟨.of_eq rfl, fun _ _ => id⟩

theorem compileTrace_continues (resumeKey : ResumeKey) (w : Workbench) :
    Continues w (runFrom (compileTrace resumeKey) w).2 := by
  rw [runFrom_compileTrace]
  refine (Goes.bind (P := fun _ => False) (optimize_continues tracePass_goes) fun result _ _ => ?_).1
  cases result with
  | none => exact .pure _
  | some result =>
    refine .bind_of_eq runFrom_newTrace (.of_eq rfl) ?_
    cases result.state with
    | none => exact .get_bind (.bind submitting_continues fun _ _ _ => .pure _)
    | some state =>
      dsimp only
      split
      · refine .bind_of_eq (runFrom_modifyContext _) (.of_eq rfl) ?_
        exact .bind_of_eq (runFrom_modifySession _) ⟨rfl, rfl, rfl, rfl, Nat.le_refl _⟩ (.pure _)
      · exact .pure _

variable {key : GreenKey} {inputs : List InputArg} {ops : List Operation} {jumpArgs : List Arg}

private theorem compileSimpleLoop_continues :
    Goes Continues (fun _ => False) (compileSimpleLoop key inputs ops jumpArgs opts) w := by
  refine .get_bind (.bind_of_eq runFrom_makeUnit (.of_eq rfl) ?_)
  refine .bind (optimizeFor_continues fun s p => Pass.simple_goes s p ..) fun result w₁ _ => ?_
  cases result with
  | none => exact .pure _
  | some result =>
    refine .bind_of_eq (runFrom_makeEntry ..) (.of_eq rfl) ?_
    split
    · refine .bind_of_eq runFrom_newTrace (.of_eq rfl) ?_
      refine .bind_of_eq (runFrom_modifyContext _) (.of_eq rfl) ?_
      exact .bind submitting_continues fun _ _ _ => .pure _
    · exact .throw id

private theorem compileUnrolledLoop_continues :
    Goes Continues (fun _ => False) (compileUnrolledLoop key inputs ops jumpArgs opts) w := by
  refine .get_bind (.bind_of_eq runFrom_makeUnit (.of_eq rfl) ?_)
  refine .bind (optimizeFor_continues fun s p => Pass.preamble_goes s p ..) fun preamble w₁ _ => ?_
  split
  · refine .bind (optimizeFor_continues fun s p => Pass.peeled_goes s p ..) fun result w₂ _ => ?_
    split
    · split
      · refine .bind_of_eq (runFrom_makeEntry ..) (.of_eq rfl) ?_
        refine .bind_of_eq runFrom_newTrace (.of_eq rfl) ?_
        refine .bind_of_eq (runFrom_modifyContext _) (.of_eq rfl) ?_
        exact .bind submitting_continues fun _ _ _ => .pure _
      · exact .throw id
    · exact .pure _
  · exact .pure _

theorem compileLoop_continues (start : Nat) (avoidUnroll : Bool) :
    Continues w (runFrom (compileLoop key start inputs jumpArgs avoidUnroll) w).2 := by
  have hgoes : Goes Continues (fun _ => False)
      (compileLoop key start inputs jumpArgs avoidUnroll) w :=
    compileLoop_goes (fun _ => compileSimpleLoop_continues) fun _ _ => compileUnrolledLoop_continues
  exact hgoes.1

end HotLoop.Workbench
