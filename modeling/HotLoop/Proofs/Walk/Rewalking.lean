import HotLoop.Proofs.Walk.NormalForm

/-!
# Walking twice

A walk over operations in normal form knows nothing that would let one of them vanish, replaces
nothing that any of them mentions, and so keeps every one as it is. Since a walk leaves its output
in normal form, to walk twice is the same as to walk once.
-/

namespace HotLoop

variable {s : PassSettings} {p : Pass} {op : Operation} {t : Forwarding}

private theorem apply_of_uses (h : ∀ v ∈ op.uses, t.get? v = none) : t.apply op = op :=
  Forwarding.apply_eq_self (fun v hv => h v (mem_uses_of_mem_args hv))
    fun v hv => h v (mem_uses_of_mem_failSlots hv)

private theorem runFrom_finishGuard_self (hplain : s.renames = false)
    (hfinished : (∀ e, op.descr ≠ some (.final e)) → op.Finished)
    (hends : ∀ v, some v ∈ op.failSlots → p.forwarding.get? v = none) :
    ∃ q, runFrom (Pass.finishGuard s op op.failSlots) p = (.ok op, q) := by
  unfold Pass.finishGuard
  split
  · exact ⟨p, rfl⟩
  · rename_i hno
    obtain ⟨⟨g, hg⟩, hslots, hcountable⟩ := hfinished (by simpa using hno)
    have hguard : op.guard? = some g := by rw [Operation.guard?, hg]; rfl
    have hown : runFrom (Pass.guardFor s op) p = (.ok g, p) := by
      simp only [Pass.guardFor, runFrom_bind, runFrom_get, hguard, hplain]
      rfl
    have hboxes := boxes_eq_self hends
    have hself : { op with failArgs := some op.failSlots, descr := some (.guard g) } = op := by
      rw [← hslots, ← hg]
    simp only [runFrom_bind, hown, runFrom_get, runFrom_set, GuardTable.storeBoxes, hboxes]
    split
    · rename_i hop
      split
      · exact ⟨_, by rw [runFrom_bind, runFrom_modify, runFrom_pure, hself]⟩
      · rename_i hcount
        rw [show { op with failArgs := some op.failSlots } = op by rw [← hslots]] at hcount
        obtain ⟨_, hcounts⟩ := (GuardTable.exists_countPerValue_iff hop).mpr (hcountable hop)
        rw [hcounts] at hcount
        cases hcount
    · exact ⟨_, by rw [runFrom_pure, hself]⟩

private theorem runFrom_keep_self (hplain : s.renames = false)
    (hfinished : op.isGuard = true → (∀ e, op.descr ≠ some (.final e)) → op.Finished)
    (hends : ∀ v, some v ∈ op.failSlots → p.forwarding.get? v = none) :
    ∃ q, runFrom (Pass.keep s op op.failSlots) p = (.ok (), q) ∧ q.out = p.out ++ [op] ∧
      q.forwarding = Pass.learn p.forwarding op ∧ q.guarded = p.guarded := by
  simp only [Pass.keep, hplain, pure_bind]
  split
  · rename_i hguard
    obtain ⟨q, hq⟩ := runFrom_finishGuard_self hplain (hfinished hguard) hends
    obtain ⟨_, _, rfl⟩ := (Pass.finishGuard_eq_ok hq).1
    rw [runFrom_bind, hq]
    exact ⟨_, Pass.runFrom_append op, rfl, rfl, rfl⟩
  · exact ⟨_, Pass.runFrom_append op, rfl, rfl, rfl⟩

private theorem runFrom_step_self (hplain : s.renames = false) (hstays : op.Stays s p.guarded)
    (hfinished : op.isGuard = true → (∀ e, op.descr ≠ some (.final e)) → op.Finished)
    (hends : ∀ v ∈ op.uses, p.forwarding.get? v = none) :
    ∃ q, runFrom (Pass.step s op) p = (.ok (), q) ∧ q.out = p.out ++ [op] ∧
      q.forwarding = Pass.learn p.forwarding op ∧ q.guarded = (p.guarded || op.guardsFields) := by
  have hslots : ∀ v, some v ∈ op.failSlots → p.forwarding.get? v = none :=
    fun v hv => hends v (mem_uses_of_mem_failSlots hv)
  obtain ⟨deps, -, hstep⟩ := Pass.runFrom_step (s := s) (p := p) op
  rw [hstep, Pass.dispatch, apply_of_uses hends, fate_of_stays hstays]
  dsimp only
  split
  · rename_i hfields
    obtain ⟨q, hq, hout, hlearn, hguarded⟩ :=
      runFrom_keep_self (p := { p with deps, guarded := true }) hplain hfinished hslots
    refine ⟨q, ?_, hout, hlearn, by rw [hguarded, hfields, Bool.or_true]⟩
    rw [runFrom_bind, runFrom_modify]
    exact hq
  · rename_i hfields
    obtain ⟨q, hq, hout, hlearn, hguarded⟩ :=
      runFrom_keep_self (p := { p with deps }) hplain hfinished hslots
    refine ⟨q, hq, hout, hlearn, ?_⟩
    rw [hguarded, eq_false_of_ne_true hfields, Bool.or_false]

private theorem get?_learn {w : Var} (hw : t.get? w = none)
    (hforgets : ∀ v c, op.opcode = .guardValue → op.args = [.var v, .const c] → w.id ≠ v.id) :
    (Pass.learn t op).get? w = none := by
  rcases Pass.learn_cases t op with hlearn | ⟨v, c, hop, hargs, hlearn⟩
  · rw [hlearn]
    exact hw
  · rw [hlearn, Forwarding.get?_forward, if_neg fun hsame => hforgets v c hop hargs hsame.2]
    exact hw

/-- In normal form nothing is known about an operation. -/
theorem Normal.stays {ops : List Operation} (h : Normal s ops) (hop : op ∈ ops) {guarded : Bool}
    (hguarded : op.opcode = .guardNotInvalidated → guarded = false) : op.Stays s guarded := by
  refine ⟨h.noCopy op hop, h.noField op hop, hguarded, h.undecided op hop, .inr ?_⟩
  unfold knownResult?
  split
  · rename_i hcall
    split
    · rename_i hpure
      exact h.unremembered hpure op hop hcall
    · rfl
  · split
    · rename_i hboth
      obtain ⟨hfold, hsimplify⟩ := Bool.and_eq_true_iff.mp hboth
      rw [h.unfolded hsimplify op hop hfold]
      rfl
    · rfl

theorem Normal.tail {ops : List Operation} (h : Normal s (op :: ops)) : Normal s ops where
  noCopy o ho := h.noCopy o (List.mem_cons_of_mem _ ho)
  noField o ho := h.noField o (List.mem_cons_of_mem _ ho)
  guardOnce := by
    have honce := h.guardOnce
    rw [List.countP_cons] at honce
    exact Nat.le_trans (Nat.le_add_right _ _) honce
  undecided o ho := h.undecided o (List.mem_cons_of_mem _ ho)
  unfolded hopt o ho := h.unfolded hopt o (List.mem_cons_of_mem _ ho)
  unremembered hopt o ho := h.unremembered hopt o (List.mem_cons_of_mem _ ho)
  forgetful := (List.pairwise_cons.mp h.forgetful).2

theorem Normal.ne_of_guardsFields {ops : List Operation} (h : Normal s (op :: ops))
    (hfields : op.guardsFields = true) : ∀ o ∈ ops, o.opcode ≠ .guardNotInvalidated := by
  have hop : op.opcode = .guardNotInvalidated := by
    have hfield := h.noField op (List.mem_cons_self ..)
    simpa [Operation.guardsFields, hfield] using hfields
  have honce := h.guardOnce
  rw [List.countP_cons, if_pos (by simpa using hop)] at honce
  have hzero : ops.countP (·.opcode = .guardNotInvalidated) = 0 := by omega
  simpa using List.countP_eq_zero.mp hzero

theorem run_of_normal {ops : List Operation} {last : Option Operation} (hplain : s.renames = false)
    (hnormal : Normal s (ops ++ last.toList)) (hstraight : ∀ op ∈ ops, op.isFinal = false)
    (hlast : ∀ op ∈ last, op.isFinal = true)
    (hfinished : ∀ op ∈ ops, op.isGuard = true → (∀ e, op.descr ≠ some (.final e)) → op.Finished)
    (hguarded : p.guarded = true → ∀ op ∈ ops, op.opcode ≠ .guardNotInvalidated)
    (hends : ∀ op ∈ ops ++ last.toList, ∀ w ∈ op.uses, p.forwarding.get? w = none) :
    ∃ q, runFrom (Pass.run s (ops ++ last.toList)) p = (.ok last, q) ∧ q.out = p.out ++ ops := by
  induction ops generalizing p with
  | nil =>
    cases last with
    | none => exact ⟨p, rfl, (List.append_nil _).symm⟩
    | some op =>
      have happly := apply_of_uses (hends op (by simp))
      refine ⟨p, ?_, (List.append_nil _).symm⟩
      rw [List.nil_append, Option.toList_some, Pass.run, if_pos (hlast op rfl)]
      simp only [runFrom_bind, runFrom_get, runFrom_pure, happly]
  | cons op ops ih =>
    have hmem : op ∈ op :: (ops ++ last.toList) := List.mem_cons_self ..
    have hstays : op.Stays s p.guarded := hnormal.stays hmem fun hop =>
      eq_false_of_ne_true fun hyes => hguarded hyes op (List.mem_cons_self ..) hop
    obtain ⟨q, hstep, hout, hlearn, hguarded'⟩ := runFrom_step_self hplain hstays
      (hfinished op (List.mem_cons_self ..)) (hends op hmem)
    have hforgets := (List.pairwise_cons.mp hnormal.forgetful).1
    obtain ⟨r, hrest, hout'⟩ := ih (p := q) hnormal.tail
      (fun o ho => hstraight o (List.mem_cons_of_mem _ ho))
      (fun o ho => hfinished o (List.mem_cons_of_mem _ ho))
      (fun hyes o ho => by
        rw [hguarded', Bool.or_eq_true] at hyes
        rcases hyes with hyes | hyes
        · exact hguarded hyes o (List.mem_cons_of_mem _ ho)
        · exact hnormal.ne_of_guardsFields hyes o (List.mem_append_left _ ho))
      fun o ho w hw => by
        rw [hlearn]
        exact get?_learn (hends o (List.mem_cons_of_mem _ ho) w hw)
          fun v c hop hargs => hforgets o ho v c hop hargs w hw
    refine ⟨r, ?_, ?_⟩
    · exact (Pass.run_cons_eq_ok_iff (hstraight op (List.mem_cons_self ..))).mpr ⟨q, hstep, hrest⟩
    · rw [hout', hout, List.append_assoc, List.singleton_append]

/--
What a single walk puts out is in normal form, and it is what a second walk puts out again. This
holds for every set of optimizations, every memory of pure calls, and every state of the context.
-/
theorem Pass.simple_normalizes (driver : Nat) (opts : OptSet) (memo : PureMemo)
    (shared : OptState) (inputs : List Var) (ops : List Operation) (h : WellFormedOps inputs ops)
    {o : Optimized} {p : Pass}
    (hrun : runFrom (Pass.simple { driver, opts, memo } inputs ops) (.ofShared shared) = (.ok o, p)) :
    Normal { driver, opts, memo } o.operations ∧ ∀ shared' : OptState, ∃ o' p',
      runFrom (Pass.simple { driver, opts, memo } inputs o.operations) (.ofShared shared') =
        (.ok o', p') ∧ o'.operations = o.operations := by
  obtain ⟨rfl, last, hwalk⟩ := simple_eq_ok hrun
  obtain ⟨ids, hsettles⟩ := (Settles.ofShared _ shared _).of_run rfl h.once h.exits h.named hwalk
  generalize hclosing : (ops.find? (·.isFinal)).map p.forwarding.apply = closing
  have hlast : ∀ op ∈ closing, op.isFinal = true ∧ ∀ w ∈ op.uses, p.forwarding.get? w = none := by
    rintro _ hmem
    rw [← hclosing] at hmem
    obtain ⟨op, hop, rfl⟩ := Option.map_eq_some_iff.mp hmem
    have hfinal : op.isFinal = true := List.find?_some hop
    exact ⟨hfinal, get?_of_isFinal hsettles.grounded hfinal
      (h.exits op (List.mem_of_find?_eq_some hop))⟩
  have hnormal := hsettles.normal (fun op hop => (hlast op hop).1) fun op hop => (hlast op hop).2
  refine ⟨hnormal, fun shared' => ?_⟩
  obtain ⟨q, hagain, hout⟩ := run_of_normal (p := .ofShared shared') rfl hnormal
    (not_isFinal_of_run hwalk (by simp [Pass.ofShared])) (fun op hop => (hlast op hop).1)
    (fun op hop => (hsettles.settled op hop).finished) nofun fun _ _ _ _ => rfl
  refine ⟨{ inputs, operations := q.out ++ closing.toList, deps := q.deps }, q, ?_, ?_⟩
  · rw [Pass.simple, runFrom_bind, hagain]
    rfl
  · rw [hout]
    rfl

/--
The guard makes a copy and a sum known, and takes the place of every later use of what it compares;
of the guards for the quasi-immutable field one is left.
-/
theorem Pass.simple_normalizes_guardValue :
    let x : Var := ⟨0, .int⟩
    let y : Var := ⟨1, .int⟩
    let u : Var := ⟨2, .int⟩
    let v : Var := ⟨3, .int⟩
    let w : Var := ⟨4, .int⟩
    let ops : List Operation := [
      { opcode := .guardValue, args := [.var x, .int 5], failArgs := some [some x] },
      { opcode := .sameAs, args := [.var x], result := some u },
      { opcode := .intAdd, args := [.var u, .int 3], result := some v },
      { opcode := .quasiimmutField, args := [.var y], descr := some (.quasiImmut 7),
        failArgs := some [some v, some y] },
      { opcode := .guardNotInvalidated, failArgs := some [some y] },
      { opcode := .intLt, args := [.var y, .var u], result := some w },
      { opcode := .guardTrue, args := [.var w], failArgs := some [some w, some u] },
      { opcode := .jump, args := [.var x, .var v] }]
    let out : List Operation := [
      { opcode := .guardValue, args := [.var x, .int 5], failArgs := some [some x],
        descr := some (.guard ⟨0, .guardValue, .plain⟩) },
      { opcode := .guardNotInvalidated, failArgs := some [none, some y],
        descr := some (.guard ⟨1, .guardNotInvalidated, .notInvalidated⟩) },
      { opcode := .intLt, args := [.var y, .int 5], result := some w },
      { opcode := .guardTrue, args := [.var w], failArgs := some [some w, none],
        descr := some (.guard ⟨2, .guardTrue, .plain⟩) },
      { opcode := .jump, args := [.int 5, .int 8] }]
    WellFormedOps [x, y] ops ∧ ∃ o p,
      runFrom (Pass.simple { driver := 0, opts := .all } [x, y] ops)
        (.ofShared { counter := .ofBits 4 }) = (.ok o, p) ∧ o.operations = out ∧
      Normal { driver := 0, opts := .all } o.operations ∧ ∀ shared' : OptState, ∃ o' p',
        runFrom (Pass.simple { driver := 0, opts := .all } [x, y] o.operations)
          (.ofShared shared') = (.ok o', p') ∧ o'.operations = o.operations := by
  intro x y u v w ops out
  have hexits : ∀ op ∈ ops, op.CarriesExits := by
    simp only [ops, List.mem_cons, List.not_mem_nil, or_false, forall_eq_or_imp, forall_eq]
    simp [Operation.CarriesExits, Operation.isGuard, OpCode.isGuard, Operation.failVars,
      Operation.failSlots]
  have hformed : WellFormedOps [x, y] ops := ⟨by decide, hexits, by decide⟩
  have hout : (runFrom (Pass.simple { driver := 0, opts := .all } [x, y] ops)
      (.ofShared { counter := .ofBits 4 })).1.toOption.map (·.operations) = some out := by
    decide +kernel
  refine ⟨hformed, ?_⟩
  cases hrun : runFrom (Pass.simple { driver := 0, opts := .all } [x, y] ops)
      (.ofShared { counter := .ofBits 4 }) with
  | mk answer p =>
    rw [hrun] at hout
    cases answer with
    | error e => cases hout
    | ok o =>
      exact ⟨o, p, rfl, Option.some.inj hout,
        Pass.simple_normalizes 0 .all .empty { counter := .ofBits 4 } [x, y] ops hformed hrun⟩

end HotLoop
