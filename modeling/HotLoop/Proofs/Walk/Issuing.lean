import HotLoop.Proofs.Walk.Descriptors

/-!
# The descriptors that a pass issues

However a trace is optimized, the table of guards has only grown when it is done, and the guards of
the result have descriptors that no two of them share.
-/

namespace HotLoop.Pass

variable {s : PassSettings} {p p' : Pass} {inputs : List Var} {ops : List Operation}
  {result : Optimized}

section Growing

theorem simple_grows (s : PassSettings) (p : Pass) (inputs : List Var) (ops : List Operation) :
    Goes GrowsGuards (fun _ => False) (simple s inputs ops) p :=
  .bind (run_grows s ops p) fun _ _ _ => .get_bind (.pure _)

theorem preamble_grows (s : PassSettings) (p : Pass) (inputs : List Var) (endArgs : List Arg)
    (ops : List Operation) :
    Goes GrowsGuards (fun _ => False) (preamble s inputs endArgs ops) p :=
  .bind (run_grows s ops p) fun _ _ _ => .get_bind (.pure _)

theorem bridge_grows (s : PassSettings) (p : Pass) (registry : Registry) (inputs : List Var)
    (ops : List Operation) (anyEntry : Bool) :
    Goes GrowsGuards (fun _ => False) (bridge s registry inputs ops anyEntry) p := by
  refine .bind (run_grows s ops p) fun last q _ => ?_
  split
  · split
    · refine .get_bind ?_
      dsimp only
      split
      · exact .pure _
      · exact .pure _
    · exact .throw id
  · exact .throw id

theorem peeled_grows (s : PassSettings) (p : Pass) (inputs : List Var) (closing : Operation)
    (ops : List Operation) (state : ExportedState) :
    Goes GrowsGuards (fun _ => False) (peeled s inputs closing ops state) p := by
  unfold peeled
  split
  · split
    · exact .throw_bind id
    · refine .bind (extendHeaders_goes_of_fresh (fun k _ => fresh_grows k) ..) fun header q _ => ?_
      refine .bind (.modify (.refl _)) fun _ _ _ => .bind (run_grows _ ops _) fun _ r _ => ?_
      refine .get_bind ?_
      dsimp only
      split
      · exact .throw_bind id
      · exact .bind (.set (.refl _)) fun _ _ _ => .pure _
  · exact .throw id

end Growing

section Issuing

variable {t t' : GuardTable} {out tail : List Operation}

theorem Issues.append (h : Issues s t t' ops out) (htail : ∀ op ∈ tail, op.isGuard = false)
    (hnamed : ∀ op ∈ tail, op.guard? = none ∨ ∃ o ∈ ops, op.guard? = o.guard?) :
    Issues s t t' ops (out ++ tail) := by
  have hout : guardsIn (out ++ tail) = guardsIn out := by
    rw [guardsIn_append, guardsIn_eq_nil htail, List.append_nil]
  refine ⟨hout ▸ h.nodup, hout ▸ h.lt, hout ▸ h.origin, fun g hg => ?_⟩
  obtain ⟨op, hop, g', hg', hid⟩ := hg
  rcases List.mem_append.mp hop with hop | hop
  · exact h.named g ⟨op, hop, g', hg', hid⟩
  · rcases hnamed op hop with hnone | ⟨o, ho, heq⟩
    · rw [hnone] at hg'
      cases hg'
    · exact .inl ⟨o, ho, g', heq ▸ hg', hid⟩

private theorem issues_of_empty {last : Option Operation} (hp : p.out = [])
    (hown : OwnGuards p.shared.guards ops) (h : runFrom (run s ops) p = (.ok last, p')) :
    Issues s p.shared.guards p'.shared.guards ops p'.out := by
  obtain ⟨out, hout, hissues⟩ := issues_of_run hown h
  rw [hp, List.nil_append] at hout
  exact hout ▸ hissues

theorem simple_issues (hp : p.out = []) (hown : OwnGuards p.shared.guards ops)
    (h : runFrom (simple s inputs ops) p = (.ok result, p')) :
    Issues s p.shared.guards p'.shared.guards ops result.operations := by
  obtain ⟨rfl, last, hrun⟩ := simple_eq_ok h
  refine (issues_of_empty hp hown hrun).append (fun op hop => ?_) fun op hop => ?_
  · exact not_isGuard_of_find?_isFinal op hop
  · obtain ⟨o, ho, rfl⟩ := Option.map_eq_some_iff.mp (Option.mem_toList.mp hop)
    exact .inr ⟨o, List.mem_of_find?_eq_some ho, rfl⟩

theorem preamble_issues {endArgs : List Arg} {state : ExportedState} (hp : p.out = [])
    (hown : OwnGuards p.shared.guards ops)
    (h : runFrom (preamble s inputs endArgs ops) p = (.ok (state, out), p')) :
    Issues s p.shared.guards p'.shared.guards ops out := by
  obtain ⟨last, hrun, -, rfl⟩ := preamble_eq_ok h
  exact issues_of_empty hp hown hrun

private theorem not_isGuard_jump {op : Operation} (hop : op.opcode = .jump) : op.isGuard = false := by
  rw [Operation.isGuard, hop]
  rfl

theorem bridge_issues {registry : Registry} {anyEntry : Bool} (hp : p.out = [])
    (hown : OwnGuards p.shared.guards ops)
    (h : runFrom (bridge s registry inputs ops anyEntry) p = (.ok result, p')) :
    Issues s p.shared.guards p'.shared.guards ops result.operations := by
  obtain ⟨jump, hrun, hop, hto⟩ := bridge_eq_ok h
  have hissues := issues_of_empty hp hown hrun
  cases hto with
  | entered unit entry =>
    refine hissues.append (fun op hop' => ?_) fun op hop' => ?_
    · rw [List.mem_singleton.mp hop']
      exact not_isGuard_jump hop
    · rw [List.mem_singleton.mp hop']
      exact .inl rfl
  | waiting => exact hissues

end Issuing

section Peeled

variable {closing : Operation} {state : ExportedState}

private theorem descr_of_extendsHeader {header vs : List Var} {i n n' : Nat} {l : List Arg}
    {cs : List Operation} (h : ExtendsHeader inputs header i n l vs cs n') :
    ∀ op ∈ cs, op.descr = none := by
  induction h with
  | nil => simp
  | reuse _ _ ih => exact ih
  | copy _ _ ih => exact List.forall_mem_cons.mpr ⟨rfl, ih⟩

/-- Makes the header of a loop, and has the inputs stand for its variables. -/
def enterLoop (inputs : List Var) (state : ExportedState) : PassM Pass Unit := do
  let (vars, _) ← state.endArgs.zipIdx.foldlM (extendHeader inputs) ([], [])
  modify fun p => { p with forwarding := p.forwarding.rename (inputs.zip vars) }

theorem enterLoop_eq_ok {q : Pass} (h : runFrom (enterLoop inputs state) p = (.ok (), q)) :
    q.shared.guards = p.shared.guards := by
  simp only [enterLoop, runFrom_bind_eq_ok, runFrom_modify, Prod.mk.injEq] at h
  obtain ⟨⟨vars, copies⟩, _, hheader, -, hq⟩ := h
  obtain ⟨vs, cs, rfl, rfl, -, values, rfl⟩ := extendsHeader_of_foldlM hheader
  rw [← hq]

/--
The second walk over a loop: it goes from `q`, where the header has been made, to `r`. The copies in
front of the header have no descriptors.
-/
structure Peels (s : PassSettings) (p p' : Pass) (inputs : List Var) (closing : Operation)
    (ops : List Operation) (state : ExportedState) (result : Optimized) (header : LoopHeader)
    (q r : Pass) : Prop where
  isHeader : result.header = some header
  enter : runFrom (enterLoop inputs state) p = (.ok (), q)
  copies : ∀ op ∈ header.copies, op.isGuard = false ∧ op.descr = none
  start : q.shared.guards = p.shared.guards ∧ q.out = p.out ∧ q.deps = p.deps
  run : ∃ last, runFrom (Pass.run { s with renames := true } ops) q = (.ok last, r)
  guards : p'.shared.guards = r.shared.guards
  deps : result.deps = r.deps
  operations : result.operations =
    r.out ++ [{ r.forwarding.apply closing with descr := some (.target header.entry) }]

theorem peels_of_peeled (h : runFrom (peeled s inputs closing ops state) p = (.ok result, p')) :
    ∃ header q r, Peels s p p' inputs closing ops state result header q r := by
  unfold peeled at h
  split at h
  · split at h
    · rw [runFrom_bind_eq_ok] at h
      obtain ⟨_, _, hthrow, -⟩ := h
      cases hthrow
    · dsimp only at h
      simp only [runFrom_bind_eq_ok, runFrom_modify, runFrom_get, Prod.mk.injEq,
        Except.ok.injEq] at h
      obtain ⟨⟨vars, copies⟩, _, hheader, _, q, ⟨-, hq⟩, last, r, hrun, _, _, ⟨rfl, rfl⟩, h⟩ := h
      have henter : runFrom (enterLoop inputs state) p = (.ok (), q) := by
        simp only [enterLoop, runFrom_bind_eq_ok, runFrom_modify, Prod.mk.injEq]
        exact ⟨_, _, hheader, trivial, hq⟩
      obtain ⟨vs, cs, rfl, rfl, hbuilt, values, rfl⟩ := extendsHeader_of_foldlM hheader
      have hstart : q.shared.guards = p.shared.guards ∧ q.out = p.out ∧ q.deps = p.deps := by
        rw [← hq]
        exact ⟨rfl, rfl, rfl⟩
      split at h
      · rw [runFrom_bind_eq_ok] at h
        obtain ⟨_, _, hthrow, -⟩ := h
        cases hthrow
      · simp only [runFrom_bind_eq_ok, runFrom_set, runFrom_pure, Prod.mk.injEq,
          Except.ok.injEq] at h
        obtain ⟨_, _, ⟨-, rfl⟩, rfl, rfl⟩ := h
        refine ⟨_, q, r, rfl, henter, fun op hop => ?_, hstart, ⟨last, hrun⟩, rfl, rfl, rfl⟩
        refine ⟨?_, descr_of_extendsHeader hbuilt op hop⟩
        rw [Operation.isGuard, hbuilt.opcode_eq op hop]
        rfl
  · cases h

/-- Behind its header a loop has none of the descriptors that there were. -/
theorem Peels.issues {header : LoopHeader} {q r : Pass}
    (h : Peels s p p' inputs closing ops state result header q r) (hp : p.out = [])
    (hclosing : closing.isGuard = false) (hown : OwnGuards p.shared.guards ops) :
    Issues { s with renames := true } p.shared.guards p'.shared.guards ops result.operations := by
  obtain ⟨last, hrun⟩ := h.run
  obtain ⟨hguards, hout, -⟩ := h.start
  have hissues := issues_of_empty (hout.trans hp) (hguards ▸ hown) hrun
  rw [hguards, ← h.guards] at hissues
  rw [h.operations]
  refine hissues.append (fun op hop => ?_) fun op hop => ?_
  · rw [List.mem_singleton.mp hop]
    exact hclosing
  · rw [List.mem_singleton.mp hop]
    exact .inl rfl

end Peeled

end HotLoop.Pass
