import HotLoop.Optimize.Request
import HotLoop.Proofs.Walk.Simulation

/-!
# A trace that is walked once

The output of a single walk does what the recorded operations do, from every environment and on
every machine. It comes to the same end with the same values and the same state, or it fails at the
guard that stands for the recorded one that fails. A trace that is given up fails in every
execution.
-/

namespace HotLoop

variable {s : PassSettings} {p p' : Pass} {f : Lifetimes} {ops : List Operation} {inputs : List Var}

theorem tracks_ofInputs (shared : OptState) (hplain : s.renames = false)
    (h : Scoped inputs ops) (args : List Arg) :
    Tracks s (.ofShared shared) (.ofInputs inputs) ops args where
  grounded := Forwarding.grounded_empty
  inScope := h
  passing v hv op hop r hr hpass := by
    have hend : Forwarding.empty.IsEnd (.var v) := Forwarding.isEnd_var.mpr rfl
    obtain ⟨w, hw, hid⟩ := (Forwarding.passes_of_isEnd hend).mp hpass
    cases hw
    exact absurd hid (h.fresh op hop r hr v hv.1)
  keeps r := keepsValue_nil ..
  unread := unread_nil ..
  uncopied _ _ _ _ _ := rfl
  plain _ := ⟨rfl, fun _ => rfl, fun _ _ _ _ => rfl⟩
  closed _ v hv w hw := by
    have hvw : Arg.var v = .var w := (Forwarding.resolve_of_get?_none rfl).symm.trans hw
    cases hvw
    exact hv
  bounded hren := by
    rw [hplain] at hren
    cases hren

theorem agrees_ofInputs (inputs : List Var) (ρ : Env) :
    Agrees .empty (.ofInputs inputs) ρ ρ := by
  intro v _
  rw [Forwarding.resolve_of_get?_none rfl]
  rfl

theorem run_preserves {last : Option Operation} (hplain : s.renames = false)
    (hrun : runFrom (Pass.run s ops) p = (.ok last, p')) {args : List Arg}
    (ht : Tracks s p f ops args) (i : Nat) :
    ∃ code : List Site, p'.out ++ last.toList = p.out ++ code.map (·.op) ∧
      EmittedFrom false code (sites i ops) ∧
      ∀ (σ : Type) (M : Machine σ) (ρ ρ' : Env) (st : σ), (p.guarded = true → M.valid = true) →
        Agrees p.forwarding f ρ ρ' →
        M.run s.memo (sites i ops) ρ st = M.run s.memo code ρ' st := by
  induction ops generalizing p f i with
  | nil =>
    simp only [Pass.run, runFrom_pure, Prod.mk.injEq, Except.ok.injEq] at hrun
    obtain ⟨rfl, rfl⟩ := hrun
    exact ⟨[], by simp, .nil, fun _ _ _ _ _ _ _ => rfl⟩
  | cons op ops ih =>
    cases hop : op.isFinal with
    | true =>
      obtain ⟨rfl, rfl⟩ := Pass.run_cons_eq_ok_of_isFinal hop hrun
      have hop' : op.opcode.isFinal = true := hop
      have hstop : op.opcode.isStop = true := by simp [OpCode.isStop, hop']
      have hguard : op.opcode.isGuard = false := OpCode.not_isGuard_of_isFinal hop'
      have hquasi : op.opcode ≠ .quasiimmutField := by
        intro heq
        rw [heq] at hop'
        cases hop'
      refine ⟨[⟨p'.forwarding.apply op, i, op.exit⟩], by simp, ?_, ?_⟩
      · refine .cons ⟨rfl, (if_neg hquasi).symm, fun _ => rfl, fun hyes => ?_⟩ .nil
        have hyes : op.opcode.isGuard = true := hyes
        rw [hguard] at hyes
        cases hyes
      · intro σ M ρ ρ' st _ hagrees
        rw [sites, M.run_cons_of_isStop s.memo (e := ⟨op, i, op.exit⟩) hstop,
          M.run_cons_of_isStop s.memo (e := ⟨p'.forwarding.apply op, i, op.exit⟩) hstop,
          hagrees.eval_args ht]
        rfl
    | false =>
      obtain ⟨q, hstepped, hrest⟩ := Pass.run_cons_eq_ok hop hrun
      obtain ⟨code, hout, hemits, hfollows⟩ := Follows.of_stepped ht hop hstepped i
      obtain ⟨code', hout', hemits', hsame⟩ := ih hrest (ht.step hstepped) (i + 1)
      rw [hplain] at hemits
      refine ⟨code ++ code', ?_, hemits.append hemits', ?_⟩
      · rw [hout', hout, List.map_append, List.append_assoc]
      · intro σ M ρ ρ' st hvalid hagrees
        exact hfollows σ M Eq (sites (i + 1) ops) code' ρ ρ' st (fun _ _ _ => rfl) hvalid hagrees
          fun ρ₁ ρ₁' st₁ hvalid₁ hagrees₁ => hsame σ M ρ₁ ρ₁' st₁ hvalid₁ hagrees₁

/--
A single walk preserves meaning, and a trace is given up only if no execution comes to its end. This
holds for every set of optimizations, every memory of pure calls, and every state of the context.
-/
theorem Pass.simple_preserves (driver : Nat) (opts : OptSet) (memo : PureMemo) (shared : OptState)
    (inputs : List Var) (ops : List Operation) (h : Scoped inputs ops) :
    match (runFrom (Pass.simple { driver, opts, memo } inputs ops) (.ofShared shared)).1 with
    | .ok result =>
      ∃ code : List Site, result.operations = code.map (·.op) ∧
        EmittedFrom false code (sites 0 ops) ∧
        ∀ (σ : Type) (M : Machine σ) (ρ : Env) (st : σ),
          M.run memo code ρ st = M.run memo (sites 0 ops) ρ st
    | .error (.invalid _) =>
      ∀ (σ : Type) (M : Machine σ) (ρ : Env) (st : σ),
        ∃ origin exit st', M.run memo (sites 0 ops) ρ st = .fails origin exit st'
    | .error (.fault _) => True := by
  have ht := tracks_ofInputs (s := { driver, opts, memo }) shared rfl h []
  cases hrun : runFrom (Pass.simple { driver, opts, memo } inputs ops) (.ofShared shared) with
  | mk answer p' =>
    rw [Pass.simple] at hrun
    match answer with
    | .ok result =>
      simp only [runFrom_bind_eq_ok, runFrom_get, runFrom_pure, Prod.mk.injEq,
        Except.ok.injEq] at hrun
      obtain ⟨last, p, hrun, _, _, ⟨rfl, rfl⟩, rfl, rfl⟩ := hrun
      obtain ⟨code, hout, hemits, hsame⟩ := run_preserves rfl hrun ht 0
      refine ⟨code, ?_, hemits, fun σ M ρ st => ?_⟩
      · simpa [Pass.ofShared] using hout
      · have hguarded : (Pass.ofShared shared).guarded = true → M.valid = true := by
          intro hyes
          cases hyes
        exact (hsame σ M ρ ρ st hguarded (agrees_ofInputs inputs ρ)).symm
    | .error (.invalid why) =>
      intro σ M ρ st
      rcases runFrom_bind_eq_error.mp hrun with hrun | ⟨_, _, -, hrun⟩
      · have hguarded : (Pass.ofShared shared).guarded = true → M.valid = true := by
          intro hyes
          cases hyes
        have hfails := fails_of_run_eq_invalid hrun ht 0 M [] ρ ρ st hguarded
          (agrees_ofInputs inputs ρ)
        rwa [List.append_nil] at hfails
      · simp only [runFrom_bind_eq_error, runFrom_get, runFrom_pure, Prod.mk.injEq] at hrun
        simp at hrun
    | .error (.fault f) => trivial

/-- Behind a guard that compares with a constant the sum is known, and the jump takes it along. -/
theorem Pass.simple_preserves_guardValue :
    let x : Var := ⟨0, .int⟩
    let y : Var := ⟨1, .int⟩
    let guard : Operation :=
      { opcode := .guardValue, args := [.var x, .int 5], failArgs := some [some x] }
    let ops : List Operation := [
      guard,
      { opcode := .intAdd, args := [.var x, .int 3], result := some y },
      { opcode := .jump, args := [.var y] }]
    Scoped [x] ops ∧ ∃ code : List Site,
      [{ guard with descr := some (.guard ⟨0, .guardValue, .plain⟩) },
        { opcode := .jump, args := [.int 8] }] = code.map (·.op) ∧
      EmittedFrom false code (sites 0 ops) ∧
      ∀ (σ : Type) (M : Machine σ) (ρ : Env) (st : σ),
        M.run .empty code ρ st = M.run .empty (sites 0 ops) ρ st := by
  intro x y guard ops
  have hscoped : Scoped [x] ops := by decide
  exact ⟨hscoped, Pass.simple_preserves 0 .all .empty { counter := .ofBits 4 } [x] ops hscoped⟩

end HotLoop
