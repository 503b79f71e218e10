import HotLoop.Optimize.Pass
import HotLoop.Proofs.Execution.Machine

/-!
# What a walk knows beforehand

A walk over a trace decides from the resolved arguments what becomes of an operation. Its decisions
agree with every execution: an operation that vanishes leaves the state alone and gives the value
that it is replaced by, a guard that is dropped holds, and a guard for which the trace is given up
fails.
-/

namespace HotLoop

variable {σ : Type} (M : Machine σ) (s : PassSettings)

private theorem mapM_const_eq_some {args : List Arg} {values : List Value}
    (h : args.mapM Arg.const? = some values) : args = values.map .const := by
  induction args generalizing values with
  | nil => simp_all
  | cons a args ih =>
    cases a with
    | var v => simp [Arg.const?] at h
    | const c =>
      cases hrest : args.mapM Arg.const? with
      | none => simp [Arg.const?, hrest] at h
      | some rest =>
        simp only [List.mapM_cons, Arg.const?, hrest, Option.pure_def, Option.bind_eq_bind,
          Option.bind_some, Option.some.injEq] at h
        subst h
        rw [ih hrest]
        rfl

theorem eval_of_constArgs? {args : List Arg} {values : List Value}
    (h : constArgs? args = some values) (ρ : Env) : args.map (·.eval ρ) = values := by
  rw [mapM_const_eq_some h, List.map_map]
  exact List.map_id _

theorem compute_of_knownResult? {op : Operation} {v : Value} (h : knownResult? s op = some v)
    (ρ : Env) (st : σ) :
    M.compute s.memo op.opcode op.descr (op.args.map (·.eval ρ)) st = some (v, st) := by
  unfold knownResult? at h
  split at h
  · rename_i hcall
    split at h
    · obtain ⟨values, hvalues, hv⟩ := Option.bind_eq_some_iff.mp h
      rw [eval_of_constArgs? hvalues, hcall]
      simp [Machine.compute, OpCode.isCheck, OpCode.isGuard, OpCode.isFoldable, hv]
    · cases h
  · split at h
    · rename_i hfold
      have hfoldable : op.opcode.isFoldable = true := (Bool.and_eq_true _ _ ▸ hfold).1
      obtain ⟨n, hn, rfl⟩ := Option.map_eq_some_iff.mp h
      obtain ⟨values, hvalues, hn⟩ := Option.bind_eq_some_iff.mp hn
      have hcheck : op.opcode.isCheck = false := by
        revert hfoldable; cases op.opcode <;> decide
      have hguard : op.opcode.isGuard = false := by
        revert hfoldable; cases op.opcode <;> decide
      have hfoldv : (values.mapM Value.int?).bind (foldInts op.opcode) = some n := hn
      rw [eval_of_constArgs? hvalues]
      simp [Machine.compute, hcheck, hguard, hfoldable, Machine.fold, hfoldv]
    · cases h

theorem isCheck_of_guardOutcome? {op : OpCode} {args : List Arg} {b : Bool}
    (h : guardOutcome? op args = some b) : op.isCheck = true := by
  obtain ⟨values, -, hb⟩ := Option.bind_eq_some_iff.mp h
  unfold guardHolds at hb
  split at hb
  · rfl
  · rfl
  · rfl
  · rfl
  · rfl
  · cases hb

theorem passes_of_guardOutcome? {op : OpCode} {args : List Arg} {b : Bool}
    (h : guardOutcome? op args = some b) (ρ : Env) (st : σ) :
    M.passes op (args.map (·.eval ρ)) st = b := by
  obtain ⟨values, hvalues, hb⟩ := Option.bind_eq_some_iff.mp h
  rw [eval_of_constArgs? hvalues]
  have hcode : op ≠ .guardNotInvalidated ∧ op ≠ .quasiimmutField := by
    constructor
    · rintro rfl
      cases hb
    · rintro rfl
      cases hb
  unfold Machine.passes
  split
  · exact absurd rfl hcode.1
  · exact absurd rfl hcode.2
  · rw [hb, Option.getD_some]

theorem OpCode.isCheck_eq_false_of_not_isGuard {op : OpCode} (h : op.isGuard = false)
    (hq : op ≠ .quasiimmutField) : op.isCheck = false := by
  revert h hq; cases op <;> decide

theorem fate_cases {guarded : Bool} {op : Operation} {f : Except Rejection Fate}
    (h : fate s guarded op = f) :
    (op.opcode = .sameAs ∧ ((op.result = none ∧ f = .ok .drop) ∨
      (∃ r a rest, op.result = some r ∧ op.args = a :: rest ∧ f = .ok (.replace r a)) ∨
      ∃ e, f = .error (.fault e))) ∨
    (op.guardsFields = true ∧ ((guarded = true ∧ f = .ok .drop) ∨
      (op.opcode = .quasiimmutField ∧ f = .ok (.keep { opcode := .guardNotInvalidated })) ∨
      (op.opcode = .guardNotInvalidated ∧ f = .ok (.keep op)))) ∨
    (op.opcode.isGuard = true ∧ ((guardOutcome? op.opcode op.args = some true ∧ f = .ok .drop) ∨
      (guardOutcome? op.opcode op.args = some false ∧
        f = .error (.invalid (.guardAlwaysFails op))) ∨
      f = .ok (.keep op))) ∨
    ((op.opcode.isGuard = false ∧ op.opcode ≠ .quasiimmutField ∧ op.opcode ≠ .sameAs) ∧
      ((∃ r v, op.result = some r ∧ knownResult? s op = some v ∧ f = .ok (.replace r (.const v))) ∨
        f = .ok (.keep op))) := by
  subst h
  unfold fate
  split
  · rename_i hop
    refine .inl ⟨hop, ?_⟩
    split <;> simp_all
  · rename_i hop
    refine .inr (.inl ⟨by simp [Operation.guardsFields, hop], ?_⟩)
    cases guarded <;> simp_all
  · rename_i hop
    refine .inr (.inl ⟨by simp [Operation.guardsFields, hop], ?_⟩)
    cases guarded <;> simp_all
  · rename_i hsame hquasi hnot
    split
    · rename_i hguard
      refine .inr (.inr (.inl ⟨hguard, ?_⟩))
      split <;> simp_all
    · rename_i hguard
      refine .inr (.inr (.inr ⟨⟨by simpa using hguard, hquasi, hsame⟩, ?_⟩))
      split <;> simp_all

section Decisions

variable {s} {guarded : Bool} {op op' : Operation} {r : Var} {a : Arg}

theorem defines?_of_drop (h : fate s guarded op = .ok .drop) : op.defines? = none := by
  rcases fate_cases s h with ⟨-, hf⟩ | ⟨hop, -⟩ | ⟨-, hf⟩ | ⟨-, hf⟩
  · rcases hf with ⟨hr, -⟩ | ⟨r, a, rest, -, -, hf⟩ | ⟨e, hf⟩
    · simp [Operation.defines?, hr]
    · cases hf
    · cases hf
  · simp only [Operation.guardsFields, Bool.or_eq_true, decide_eq_true_eq] at hop
    rcases hop with hop | hop <;> simp [Operation.defines?, hop, OpCode.isCheck]
  · rcases hf with ⟨hout, -⟩ | ⟨-, hf⟩ | hf
    · simp [Operation.defines?, isCheck_of_guardOutcome? hout]
    · cases hf
    · cases hf
  · rcases hf with ⟨r, v, -, -, hf⟩ | hf <;> cases hf

theorem replace_cases (h : fate s guarded op = .ok (.replace r a)) :
    op.defines? = some r ∧ ((∃ v, knownResult? s op = some v ∧ a = .const v) ∨
      op.opcode = .sameAs ∧ op.args.head? = some a) := by
  rcases fate_cases s h with ⟨hop, hf⟩ | ⟨-, hf⟩ | ⟨-, hf⟩ | ⟨⟨hop, hquasi, -⟩, hf⟩
  · rcases hf with ⟨-, hf⟩ | ⟨r', a', rest, hr, hargs, hf⟩ | ⟨e, hf⟩
    · cases hf
    · cases hf
      exact ⟨by simp [Operation.defines?, hop, hr, OpCode.isCheck], .inr ⟨hop, by rw [hargs]; rfl⟩⟩
    · cases hf
  · rcases hf with ⟨-, hf⟩ | ⟨-, hf⟩ | ⟨-, hf⟩ <;> cases hf
  · rcases hf with ⟨-, hf⟩ | ⟨-, hf⟩ | hf <;> cases hf
  · rcases hf with ⟨r', v, hr, hv, hf⟩ | hf
    · cases hf
      have hcheck := OpCode.isCheck_eq_false_of_not_isGuard hop hquasi
      exact ⟨by simp [Operation.defines?, hcheck, hr], .inl ⟨v, hv, rfl⟩⟩
    · cases hf

/-- What is kept is the operation itself, or the guard that stands for a quasi-immutable field. -/
theorem keep_cases (h : fate s guarded op = .ok (.keep op')) :
    (op' = op ∧ op.opcode ≠ .quasiimmutField ∧ op.opcode ≠ .sameAs) ∨
      (op.opcode = .quasiimmutField ∧ op' = { opcode := .guardNotInvalidated }) := by
  rcases fate_cases s h with ⟨-, hf⟩ | ⟨-, hf⟩ | ⟨hop, hf⟩ | ⟨⟨-, hquasi, hsame⟩, hf⟩
  · rcases hf with ⟨-, hf⟩ | ⟨r', a', rest, -, -, hf⟩ | ⟨e, hf⟩ <;> cases hf
  · rcases hf with ⟨-, hf⟩ | ⟨hop, hf⟩ | ⟨hop, hf⟩
    · cases hf
    · cases hf
      exact .inr ⟨hop, rfl⟩
    · cases hf
      exact .inl ⟨rfl, by simp [hop], by simp [hop]⟩
  · rcases hf with ⟨-, hf⟩ | ⟨-, hf⟩ | hf
    · cases hf
    · cases hf
    · cases hf
      refine .inl ⟨rfl, ?_, ?_⟩
      · intro heq
        rw [heq] at hop
        cases hop
      · intro heq
        rw [heq] at hop
        cases hop
  · rcases hf with ⟨r', v, -, -, hf⟩ | hf
    · cases hf
    · cases hf
      exact .inl ⟨rfl, hquasi, hsame⟩

/-- An operation that is dropped leaves the state alone and lets the execution go on. -/
theorem compute_of_drop (h : fate s guarded op = .ok .drop)
    (hvalid : guarded = true → M.valid = true) (ρ : Env) (st : σ) :
    ∃ x, M.compute s.memo op.opcode op.descr (op.args.map (·.eval ρ)) st = some (x, st) := by
  rcases fate_cases s h with ⟨hop, -⟩ | ⟨hop, hf⟩ | ⟨-, hf⟩ | ⟨-, hf⟩
  · refine ⟨(op.args.map (·.eval ρ)).headD .void, ?_⟩
    rw [hop]
    simp [Machine.compute, OpCode.isCheck, OpCode.isGuard, OpCode.isFoldable]
  · have hv : M.valid = true := by
      rcases hf with ⟨hg, -⟩ | ⟨-, hf⟩ | ⟨-, hf⟩
      · exact hvalid hg
      · cases hf
      · cases hf
    simp only [Operation.guardsFields, Bool.or_eq_true, decide_eq_true_eq] at hop
    refine ⟨.void, ?_⟩
    rcases hop with hop | hop <;> simp [Machine.compute, hop, OpCode.isCheck, Machine.passes, hv]
  · rcases hf with ⟨hout, -⟩ | ⟨-, hf⟩ | hf
    · have hpass := passes_of_guardOutcome? M hout ρ st
      exact ⟨.void, by simp [Machine.compute, isCheck_of_guardOutcome? hout, hpass]⟩
    · cases hf
    · cases hf
  · rcases hf with ⟨r, v, -, -, hf⟩ | hf <;> cases hf

theorem compute_of_replace (h : fate s guarded op = .ok (.replace r a)) (ρ : Env) (st : σ) :
    M.compute s.memo op.opcode op.descr (op.args.map (·.eval ρ)) st = some (a.eval ρ, st) := by
  obtain ⟨-, ⟨v, hv, rfl⟩ | ⟨hop, hhead⟩⟩ := replace_cases h
  · exact compute_of_knownResult? M s hv ρ st
  · obtain ⟨rest, hargs⟩ := List.head?_eq_some_iff.mp hhead
    rw [hop, hargs]
    simp [Machine.compute, OpCode.isCheck, OpCode.isGuard, OpCode.isFoldable]

/-- A guard for which the trace is given up always fails. -/
theorem compute_of_invalid {why : InvalidLoop} (h : fate s guarded op = .error (.invalid why))
    (ρ : Env) (st : σ) :
    M.compute s.memo op.opcode op.descr (op.args.map (·.eval ρ)) st = none := by
  rcases fate_cases s h with ⟨-, hf⟩ | ⟨-, hf⟩ | ⟨-, hf⟩ | ⟨-, hf⟩
  · rcases hf with ⟨-, hf⟩ | ⟨r', a', rest, -, -, hf⟩ | ⟨e, hf⟩ <;> cases hf
  · rcases hf with ⟨-, hf⟩ | ⟨-, hf⟩ | ⟨-, hf⟩ <;> cases hf
  · rcases hf with ⟨-, hf⟩ | ⟨hout, -⟩ | hf
    · cases hf
    · have hpass := passes_of_guardOutcome? M hout ρ st
      simp [Machine.compute, isCheck_of_guardOutcome? hout, hpass]
    · cases hf
  · rcases hf with ⟨r', v, -, -, hf⟩ | hf <;> cases hf

end Decisions

end HotLoop
