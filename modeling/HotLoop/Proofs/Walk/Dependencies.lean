import HotLoop.Proofs.Walk.Issuing

/-!
# What a trace relies on

A walk notes the field of every operation that reads one as quasi-immutable, whether or not a guard
is left for it, and it goes no further than the operation that ends the trace. So what comes out of
a pass relies on the fields that are read in its trace, and on no others.
-/

namespace HotLoop

theorem FieldSet.mem_union {f : Nat} {s t : FieldSet} : f ∈ s.union t ↔ f ∈ s ∨ f ∈ t := by
  unfold union
  induction t generalizing s with
  | nil => simp
  | cons g t ih => rw [List.foldl_cons, ih, mem_insert, List.mem_cons, or_assoc, or_left_comm]

/-- The fields that are read as quasi-immutable in front of the operation that ends the trace. -/
def fieldsRead (ops : List Operation) : List Nat :=
  (ops.takeWhile (!·.isFinal)).filterMap (·.dependency?)

section Reading

variable {op : Operation} {ops : List Operation} {f : Nat}

theorem fieldsRead_cons_of_isFinal (h : op.isFinal = true) : fieldsRead (op :: ops) = [] := by
  rw [fieldsRead, List.takeWhile_cons_of_neg (by simp [h]), List.filterMap_nil]

theorem mem_fieldsRead_cons (h : op.isFinal = false) :
    f ∈ fieldsRead (op :: ops) ↔ op.dependency? = some f ∨ f ∈ fieldsRead ops := by
  rw [fieldsRead, List.takeWhile_cons_of_pos (by simp [h]), List.mem_filterMap, fieldsRead,
    List.mem_filterMap]
  simp only [List.mem_cons, or_and_right, exists_or, exists_eq_left]

theorem fieldsRead_concat {closing : Operation} (h : closing.isFinal = true) :
    fieldsRead (ops ++ [closing]) = fieldsRead ops := by
  induction ops with
  | nil => exact fieldsRead_cons_of_isFinal h
  | cons op ops ih =>
    cases hop : op.isFinal with
    | true => rw [List.cons_append, fieldsRead_cons_of_isFinal hop, fieldsRead_cons_of_isFinal hop]
    | false =>
      unfold fieldsRead at ih ⊢
      rw [List.cons_append, List.takeWhile_cons_of_pos (by simp [hop]),
        List.takeWhile_cons_of_pos (by simp [hop]), List.filterMap_cons, List.filterMap_cons, ih]

end Reading

namespace Pass

variable {s : PassSettings} {p p' : Pass} {op : Operation} {ops : List Operation}
  {recorded : List (Option Var)} {inputs : List Var} {result : Optimized} {f : Nat}

section Steps

private def NotesSame (p p' : Pass) : Prop := p'.deps = p.deps

private instance : Std.Refl NotesSame := ⟨fun _ => rfl⟩

private instance : IsTrans Pass NotesSame := ⟨fun _ _ _ h h' => h'.trans h⟩

private abbrev NotesNothing {α : Type} (x : PassM Pass α) (p : Pass) : Prop :=
  Goes NotesSame (fun _ => False) x p

private theorem notesNothing_of_onlyShares {α : Type} {x : PassM Pass α} (h : OnlyShares x p) :
    NotesNothing x p :=
  h.weaken fun _ _ => SameButShared.deps_eq

private theorem keep_notesNothing : NotesNothing (keep s op recorded) p := by
  have hrest {k : Operation → PassM Pass Unit} (hk : ∀ e q, NotesNothing (k e) q) (o : Operation)
      (q : Pass) : NotesNothing (if o.isGuard then finishGuard s o recorded >>= k else k o) q := by
    split
    · exact .bind (notesNothing_of_onlyShares (finishGuard_onlyShares o recorded)) fun e r _ => hk e r
    · exact hk o q
  simp only [keep, pure_bind]
  split
  · refine .bind (notesNothing_of_onlyShares (fresh_onlyShares _)) fun v q _ =>
      .bind (.modify rfl) fun _ r _ => hrest (fun e t => ?_) _ r
    refine .bind (.modify rfl) fun _ u _ => ?_
    split
    · exact .modify rfl
    · exact .pure _
  · refine hrest (fun e t => ?_) op p
    refine .bind (.modify rfl) fun _ u _ => ?_
    split
    · exact .modify rfl
    · exact .pure _

private theorem mem_deps_of_step (h : runFrom (step s op) p = (.ok (), p')) :
    f ∈ p'.deps ↔ op.dependency? = some f ∨ f ∈ p.deps := by
  obtain ⟨deps, hdeps, hstep⟩ := runFrom_step (s := s) (p := p) op
  have hdispatch : NotesNothing (dispatch s p op) { p with deps } := by
    unfold dispatch
    split
    · exact .throw id
    · exact .pure _
    · exact .modify rfl
    · split
      · exact .bind (.modify rfl) fun _ _ _ => keep_notesNothing
      · exact keep_notesNothing
  have hsame := hdispatch.1
  rw [← hstep, h] at hsame
  rw [hsame]
  exact hdeps f

theorem mem_deps_of_run {last : Option Operation} (h : runFrom (run s ops) p = (.ok last, p')) :
    f ∈ p'.deps ↔ f ∈ p.deps ∨ f ∈ fieldsRead ops := by
  induction ops generalizing p with
  | nil =>
    cases h
    simp [fieldsRead]
  | cons op ops ih =>
    cases hfinal : op.isFinal with
    | true =>
      obtain ⟨-, rfl⟩ := run_cons_eq_ok_of_isFinal hfinal h
      simp [fieldsRead_cons_of_isFinal hfinal]
    | false =>
      obtain ⟨q, hstep, hrest⟩ := (run_cons_eq_ok_iff hfinal).mp h
      rw [ih hrest, mem_deps_of_step hstep, mem_fieldsRead_cons hfinal]
      tauto

end Steps

section Passes

theorem mem_deps_of_simple (hp : p.deps = [])
    (h : runFrom (simple s inputs ops) p = (.ok result, p')) :
    f ∈ result.deps ↔ f ∈ fieldsRead ops := by
  obtain ⟨rfl, last, hrun⟩ := simple_eq_ok h
  simp [mem_deps_of_run hrun, hp]

theorem mem_deps_of_preamble {endArgs : List Arg} {state : ExportedState} {out : List Operation}
    (hp : p.deps = []) (h : runFrom (preamble s inputs endArgs ops) p = (.ok (state, out), p')) :
    f ∈ state.deps ↔ f ∈ fieldsRead ops := by
  simp only [preamble, runFrom_bind_eq_ok, runFrom_get, runFrom_pure, Prod.mk.injEq,
    Except.ok.injEq] at h
  obtain ⟨last, q, hrun, _, _, ⟨rfl, rfl⟩, ⟨rfl, rfl⟩, rfl⟩ := h
  simp [mem_deps_of_run hrun, hp]

/-- What a bridge hands on where it finds no entry point relies on the same fields as the bridge. -/
theorem mem_deps_of_bridge {registry : Registry} {anyEntry : Bool} (hp : p.deps = [])
    (h : runFrom (bridge s registry inputs ops anyEntry) p = (.ok result, p')) :
    (f ∈ result.deps ↔ f ∈ fieldsRead ops) ∧
      ∀ state, result.state = some state → (f ∈ state.deps ↔ f ∈ fieldsRead ops) := by
  obtain ⟨jump, hrun, -, hto⟩ := bridge_eq_ok h
  have hdeps : f ∈ p'.deps ↔ f ∈ fieldsRead ops := by simp [mem_deps_of_run hrun, hp]
  refine ⟨by cases hto <;> exact hdeps, fun state hstate => ?_⟩
  cases hto with
  | entered unit entry => cases hstate
  | waiting =>
    cases hstate
    exact hdeps

theorem mem_deps_of_peeled {closing : Operation} {state : ExportedState} (hp : p.deps = [])
    (h : runFrom (peeled s inputs closing ops state) p = (.ok result, p')) :
    f ∈ result.deps ↔ f ∈ fieldsRead ops := by
  obtain ⟨header, q, r, hpeels⟩ := peels_of_peeled h
  obtain ⟨last, hrun⟩ := hpeels.run
  simp [hpeels.deps, mem_deps_of_run hrun, hpeels.start.2.2, hp]

end Passes

end Pass

end HotLoop
